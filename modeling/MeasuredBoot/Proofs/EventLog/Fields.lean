import MeasuredBoot.Bytes.LittleEndian
import MeasuredBoot.EventLog.Written
import MeasuredBoot.Proofs.Runs

/-!
# Fields of a written log

Reading a field accepts exactly what writing it produces: what was read is the written form of the answer,
followed by the rest, and the written form of an answer that fits is read back whatever follows it. So it is
for a number, for bytes of a given length, for data after their length and for counted digests. Declarations
are read from places inside the data of a record; written one after another, they are read back in order.
-/
namespace MeasuredBoot

def Fault.OfLog (f : Fault) : Prop := ∃ cause, f = .log cause

abbrev OnLog {α : Type} (x : Except Fault α) : Prop := FaultsWithin Fault.OfLog x

namespace BinaryLog
variable {b rest : Bytes}

/-! ## Bytes and numbers -/

theorem take_eq_ok_iff {size : Nat} {chunk : Bytes} :
    take size b = .ok (chunk, rest) ↔ chunk.length = size ∧ b = chunk ++ rest := by
  rw [take]
  constructor
  · intro h
    split at h
    · rename_i hlength
      cases h
      exact ⟨hlength, (List.take_append_drop size b).symm⟩
    · cases h
  · rintro ⟨rfl, rfl⟩
    rw [List.take_left, if_pos rfl, List.drop_left]

theorem onLog_take (size : Nat) (b : Bytes) : OnLog (take size b) := by
  rw [take]
  split
  · exact .ok _
  · exact .error ⟨_, rfl⟩

theorem takeNumber_eq_ok_iff {width n : Nat} :
    takeNumber width b = .ok (n, rest) ↔ n < 256 ^ width ∧ b = Bytes.ofNatLE width n ++ rest := by
  constructor
  · intro h
    obtain ⟨⟨chunk, later⟩, htake, hnumber⟩ := bind_eq_ok_iff.mp h
    cases hnumber
    obtain ⟨rfl, rfl⟩ := take_eq_ok_iff.mp htake
    exact ⟨chunk.toNatLE_lt, by rw [Bytes.ofNatLE_toNatLE]⟩
  · rintro ⟨hn, rfl⟩
    have htake : take width (Bytes.ofNatLE width n ++ rest) = .ok (Bytes.ofNatLE width n, rest) :=
      take_eq_ok_iff.mpr ⟨Bytes.length_ofNatLE width n, rfl⟩
    rw [takeNumber, htake, ok_bind]
    simp only [Bytes.toNatLE_ofNatLE_of_lt hn]
    rfl

theorem onLog_takeNumber (width : Nat) (b : Bytes) : OnLog (takeNumber width b) :=
  (onLog_take width b).bind fun _ _ => .ok _

theorem takeData_eq_ok_iff {data : Bytes} :
    takeData b = .ok (data, rest) ↔ data.length < 2 ^ 32 ∧ b = writeData data ++ rest := by
  rw [takeData, bind_eq_ok_iff]
  constructor
  · rintro ⟨⟨size, later⟩, hsize, hdata⟩
    obtain ⟨hlt, rfl⟩ := takeNumber_eq_ok_iff.mp hsize
    obtain ⟨rfl, rfl⟩ := take_eq_ok_iff.mp hdata
    exact ⟨hlt, (List.append_assoc _ _ _).symm⟩
  · rintro ⟨hlt, rfl⟩
    refine ⟨(data.length, data ++ rest), takeNumber_eq_ok_iff.mpr ⟨hlt, ?_⟩, take_eq_ok_iff.mpr ⟨rfl, rfl⟩⟩
    rw [writeData, List.append_assoc]

theorem onLog_takeData (b : Bytes) : OnLog (takeData b) :=
  (onLog_takeNumber 4 b).bind fun _ _ => onLog_take _ _

/-! ## Digests -/

/-- A digest of a declared algorithm, in front of which the number of that algorithm is written. -/
def writeDigest (x : Nat × Bytes) : Bytes := Bytes.ofNatLE 2 x.1 ++ x.2

def digestOf (x : Nat × Bytes) : Digest := ⟨⟨x.1⟩, x.2⟩

def IsDeclared (sizes : DigestSizes) (x : Nat × Bytes) : Prop :=
  x.1 < 2 ^ 16 ∧ sizes.lookup x.1 = some x.2.length

section Digests
variable {sizes : DigestSizes}

theorem readDigests_append {digests : List (Nat × Bytes)} (h : ∀ x ∈ digests, IsDeclared sizes x)
    (rest : Bytes) : readDigests sizes digests.length (digests.flatMap writeDigest ++ rest) =
      .ok (digests.map digestOf, rest) := by
  induction digests with
  | nil => rfl
  | cons x later ih =>
      obtain ⟨hnumber, hsize⟩ := h x (by simp)
      have hfirst : takeNumber 2 (Bytes.ofNatLE 2 x.1 ++ (x.2 ++ (later.flatMap writeDigest ++ rest))) =
          .ok (x.1, x.2 ++ (later.flatMap writeDigest ++ rest)) := takeNumber_eq_ok_iff.mpr ⟨hnumber, rfl⟩
      have hvalue : take x.2.length (x.2 ++ (later.flatMap writeDigest ++ rest)) =
          .ok (x.2, later.flatMap writeDigest ++ rest) := take_eq_ok_iff.mpr ⟨rfl, rfl⟩
      rw [List.length_cons, List.flatMap_cons, writeDigest, List.append_assoc, List.append_assoc,
        readDigests, hfirst, ok_bind]
      simp only [hsize]
      rw [hvalue, ok_bind]
      simp only
      rw [ih fun y hy => h y (by simp [hy])]
      rfl

theorem exists_of_readDigests {count : Nat} {found : List Digest}
    (h : readDigests sizes count b = .ok (found, rest)) :
    ∃ digests : List (Nat × Bytes), digests.length = count ∧ found = digests.map digestOf ∧
      (∀ x ∈ digests, IsDeclared sizes x) ∧ b = digests.flatMap writeDigest ++ rest := by
  induction count generalizing b found with
  | zero =>
      cases h
      exact ⟨[], rfl, rfl, by simp, rfl⟩
  | succ count ih =>
      obtain ⟨⟨algorithm, b₁⟩, hnumber, hread⟩ := bind_eq_ok_iff.mp h
      obtain ⟨hlt, rfl⟩ := takeNumber_eq_ok_iff.mp hnumber
      cases hsize : sizes.lookup algorithm with
      | none =>
          simp only [hsize] at hread
          cases hread
      | some size =>
          simp only [hsize] at hread
          obtain ⟨⟨value, b₂⟩, hvalue, hlater⟩ := bind_eq_ok_iff.mp hread
          obtain ⟨⟨more, b₃⟩, hmore, hdone⟩ := bind_eq_ok_iff.mp hlater
          cases hdone
          obtain ⟨rfl, rfl⟩ := take_eq_ok_iff.mp hvalue
          obtain ⟨later, hlength, hmap, hdeclared, hbytes⟩ := ih hmore
          refine ⟨(algorithm, value) :: later, by simp [hlength], ?_, ?_, ?_⟩
          · rw [List.map_cons, ← hmap]
            rfl
          · intro x hx
            rcases List.mem_cons.mp hx with rfl | hx
            · exact ⟨hlt, hsize⟩
            · exact hdeclared x hx
          · have hrest : b₂ = later.flatMap writeDigest ++ b₃ := hbytes
            rw [hrest, List.flatMap_cons, writeDigest, List.append_assoc, List.append_assoc]

theorem onLog_readDigests (sizes : DigestSizes) (count : Nat) (b : Bytes) :
    OnLog (readDigests sizes count b) := by
  induction count generalizing b with
  | zero => exact .ok _
  | succ count ih =>
      refine (onLog_takeNumber 2 b).bind fun ⟨algorithm, later⟩ _ => ?_
      simp only
      split
      · exact .error ⟨_, rfl⟩
      · exact (onLog_take _ _).bind fun y _ => (ih y.2).bind fun _ _ => .ok _

end Digests

/-! ## Declarations -/

def writeSize (x : Nat × Nat) : Bytes := Bytes.ofNatLE 2 x.1 ++ Bytes.ofNatLE 2 x.2

theorem fieldAt_append (front field rest : Bytes) :
    fieldAt (front ++ field ++ rest) front.length field.length = .ok field := by
  have hlong : ¬ (front ++ field ++ rest).length < front.length + field.length := by
    simp only [List.length_append]
    omega
  rw [fieldAt, if_neg hlong, List.append_assoc, List.drop_left, List.take_left]

theorem onLog_fieldAt (data : Bytes) (offset width : Nat) : OnLog (fieldAt data offset width) := by
  rw [fieldAt]
  split
  · exact .error ⟨_, rfl⟩
  · exact .ok _

theorem declare_eq_append {algorithm size : Nat} {sizes : DigestSizes}
    (h : algorithm ∉ sizes.map Prod.fst) : declare algorithm size sizes = sizes ++ [(algorithm, size)] := by
  induction sizes with
  | nil => rfl
  | cons x later ih =>
      obtain ⟨a, s⟩ := x
      obtain ⟨hne, hmem⟩ := not_or.mp (List.mem_cons.not.mp h)
      rw [declare, if_neg (Ne.symm hne), ih hmem, List.cons_append]

theorem readSizes_append (front vendor : Bytes) (before : DigestSizes) {sizes : DigestSizes}
    (hbounds : ∀ x ∈ sizes, x.1 < 2 ^ 16 ∧ x.2 < 2 ^ 16)
    (hdistinct : ((before ++ sizes).map Prod.fst).Nodup) :
    readSizes (front ++ sizes.flatMap writeSize ++ vendor) sizes.length front.length before =
      .ok (before ++ sizes) := by
  induction sizes generalizing front before with
  | nil => simp [readSizes]
  | cons x later ih =>
      obtain ⟨halgorithm, hsize⟩ := hbounds x (by simp)
      have hfield : fieldAt (front ++ (x :: later).flatMap writeSize ++ vendor) front.length 4 =
          .ok (writeSize x) := by
        have h := fieldAt_append front (writeSize x) (later.flatMap writeSize ++ vendor)
        simpa [writeSize] using h
      have hnew : x.1 ∉ before.map Prod.fst := by
        rw [List.map_append, List.map_cons] at hdistinct
        intro hmem
        exact (List.nodup_append.mp hdistinct).2.2 _ hmem _ (by simp) rfl
      have hnumber : Bytes.toNatLE ((writeSize x).take 2) = x.1 := by
        rw [writeSize, List.take_left' (Bytes.length_ofNatLE 2 x.1), Bytes.toNatLE_ofNatLE_of_lt halgorithm]
      have hwidth : Bytes.toNatLE ((writeSize x).drop 2) = x.2 := by
        rw [writeSize, List.drop_left' (Bytes.length_ofNatLE 2 x.1), Bytes.toNatLE_ofNatLE_of_lt hsize]
      have hlength : (writeSize x).length = 4 := by simp [writeSize]
      have hrest := ih (front ++ writeSize x) (before ++ [x])
        (fun y hy => hbounds y (by simp [hy])) (by simpa using hdistinct)
      rw [List.length_append, hlength] at hrest
      rw [List.length_cons, readSizes, hfield, ok_bind, hnumber, hwidth, declare_eq_append hnew]
      simpa using hrest

theorem onLog_readSizes (data : Bytes) (count offset : Nat) (sizes : DigestSizes) :
    OnLog (readSizes data count offset sizes) := by
  induction count generalizing offset sizes with
  | zero => exact .ok _
  | succ count ih => exact (onLog_fieldAt data offset 4).bind fun _ _ => ih _ _

theorem onLog_parseSpec (data : Bytes) : OnLog (parseSpec data) :=
  (onLog_fieldAt data countOffset 4).bind fun _ _ => onLog_readSizes data _ _ _

end BinaryLog
end MeasuredBoot
