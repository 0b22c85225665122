import Mathlib.Data.List.Induction
import MeasuredBoot.Bytes.LittleEndian
import MeasuredBoot.EventLog.EventData
import MeasuredBoot.Proofs.Runs

/-!
# Firmware blobs in event data

The data of an event about firmware blobs hold no count of their ranges. They are read from the end: as long as the
last sixteen bytes are a length that fits the image and a mapped address, in either order, they are taken for a range.
What is taken stands at the end of the data and fits the image, whatever the data are.

In an image of less than two gibibytes an address is never a length that fits, so the order in which the two numbers
of a range were written is recognised. A description without NUL ends in a number above every length and every
address, so it is never taken for a range. Written data are therefore read back: all ranges, the last one first, and
the description.
-/
namespace MeasuredBoot

namespace Bytes

/-- A byte other than zero makes a number at least as great as its place is worth. -/
theorem pow_le_toNatLE (front : Bytes) {x : UInt8} (hx : x ≠ 0) (later : Bytes) :
    256 ^ front.length ≤ toNatLE (front ++ x :: later) := by
  induction front with
  | nil =>
      have hpos : x.toNat ≠ 0 := fun hzero => hx (UInt8.toNat_inj.mp hzero)
      rw [List.nil_append, toNatLE, List.length_nil, Nat.pow_zero]
      omega
  | cons y front ih =>
      rw [List.cons_append, toNatLE, List.length_cons, Nat.pow_succ]
      omega

end Bytes

namespace EventData
variable {size : Int} {r : ByteRange} {data : Bytes}

/-- A range whose length fits an image of a size and whose address is in the mapped part of it. -/
structure Fits (size : Int) (r : ByteRange) : Prop where
  nonneg : 0 ≤ r.length
  le_size : r.length ≤ size
  mapped : isMapped size r.offset = true

theorem isMapped_iff {address : Int} :
    isMapped size address = true ↔ AddressMap.fourGiB - size ≤ address ∧ address < AddressMap.fourGiB := by
  simp [isMapped]

/-! ## One range -/

theorem asRange?_eq_some_iff {length address : Nat} :
    asRange? size length address = some r ↔ Fits size r ∧ r = ⟨address, length⟩ := by
  unfold asRange?
  split
  · rename_i hunfit
    refine iff_of_false (fun h => nomatch h) ?_
    rintro ⟨hfits, rfl⟩
    rcases hunfit with hlong | hout
    · exact absurd hfits.le_size (Int.not_le.mpr hlong)
    · rw [hfits.mapped] at hout
      cases hout
  · rename_i hfit
    rw [not_or, Bool.not_eq_true', Bool.not_eq_false] at hfit
    rw [Option.some.injEq, eq_comm]
    refine (and_iff_right_of_imp ?_).symm
    rintro rfl
    exact ⟨Int.natCast_nonneg _, Int.not_lt.mp hfit.1, hfit.2⟩

theorem asRange?_of_lt {length : Nat} (h : size < length) (address : Nat) :
    asRange? size length address = none := by
  rw [asRange?, if_pos (.inl h)]

@[simp] theorem length_writeRange (first : Bool) (r : ByteRange) : (writeRange first r).length = 16 := by
  cases first <;> simp [writeRange]

theorem lastRange?_append {x y : Bytes} (hx : x.length = 8) : lastRange? size (x ++ y) =
    (asRange? size x.toNatLE y.toNatLE).or (asRange? size y.toNatLE x.toNatLE) := by
  rw [lastRange?, List.take_left' hx, List.drop_left' hx]

/-- In an image of less than two gibibytes the address of a range is greater than any length that fits, so a written
range is read whichever number stands first. -/
theorem lastRange?_writeRange (hsize : size < 0x80000000) (h : Fits size r) (first : Bool) :
    lastRange? size (writeRange first r) = some r := by
  obtain ⟨hlow, hhigh⟩ := isMapped_iff.mp h.mapped
  have hnonneg := h.nonneg
  have hle := h.le_size
  rw [AddressMap.fourGiB] at hlow hhigh
  have hlength : Bytes.toNatLE (Bytes.ofNatLE 8 r.length.toNat) = r.length.toNat :=
    Bytes.toNatLE_ofNatLE_of_lt (by omega)
  have haddress : Bytes.toNatLE (Bytes.ofNatLE 8 r.offset.toNat) = r.offset.toNat :=
    Bytes.toNatLE_ofNatLE_of_lt (by omega)
  have hread : asRange? size r.length.toNat r.offset.toNat = some r := by
    rw [asRange?_eq_some_iff, Int.toNat_of_nonneg hnonneg, Int.toNat_of_nonneg (by omega)]
    exact ⟨h, rfl⟩
  cases first with
  | true =>
      rw [writeRange, if_pos rfl, lastRange?_append (Bytes.length_ofNatLE 8 _), hlength, haddress, hread]
      rfl
  | false =>
      have hswapped : asRange? size r.offset.toNat r.length.toNat = none := asRange?_of_lt (by omega) _
      rw [writeRange, if_neg Bool.false_ne_true, lastRange?_append (Bytes.length_ofNatLE 8 _), hlength, haddress,
        hread, hswapped]
      rfl

/-- What is read as a range fits the image and is the written form of it. -/
theorem of_lastRange?_eq_some {tail : Bytes} (hlength : tail.length = 16) (h : lastRange? size tail = some r) :
    Fits size r ∧ ∃ first, tail = writeRange first r := by
  have hsplit := List.take_append_drop 8 tail
  have hx : (tail.take 8).length = 8 := by rw [List.length_take, hlength]; rfl
  have hy : (tail.drop 8).length = 8 := by rw [List.length_drop, hlength]
  have hwrite (b : Bytes) (hb : b.length = 8) : Bytes.ofNatLE 8 (b.toNatLE : Int).toNat = b := by
    rw [Int.toNat_natCast, ← hb, Bytes.ofNatLE_toNatLE]
  rw [← hsplit, lastRange?_append hx, Option.or_eq_some_iff] at h
  rcases h with h | ⟨-, h⟩
  · obtain ⟨hfits, rfl⟩ := asRange?_eq_some_iff.mp h
    refine ⟨hfits, true, ?_⟩
    rw [writeRange, if_pos rfl, hwrite _ hx, hwrite _ hy, hsplit]
  · obtain ⟨hfits, rfl⟩ := asRange?_eq_some_iff.mp h
    refine ⟨hfits, false, ?_⟩
    rw [writeRange, if_neg Bool.false_ne_true, hwrite _ hx, hwrite _ hy, hsplit]

/-! ## All ranges -/

/-- The ranges of the data before the last sixteen bytes come after the range which these are. -/
theorem splitRanges_append {tail : Bytes} (hlength : tail.length = 16) (data : Bytes) :
    splitRanges size (data ++ tail) =
      match lastRange? size tail with
      | none => ([], data ++ tail)
      | some r => (r :: (splitRanges size data).1, (splitRanges size data).2) := by
  have hlong : 16 ≤ (data ++ tail).length := by
    rw [List.length_append, hlength]
    exact Nat.le_add_left 16 _
  have hfront : (data ++ tail).length - 16 = data.length := by
    rw [List.length_append, hlength, Nat.add_sub_cancel]
  rw [splitRanges, dif_pos hlong, hfront]
  cases hlast : lastRange? size tail with
  | none => simp only [List.drop_left, hlast]
  | some r =>
      cases hbefore : splitRanges size data with
      | mk more rest => simp only [List.drop_left, List.take_left, hlast, hbefore]

theorem splitRanges_of_short (h : data.length < 16) : splitRanges size data = ([], data) := by
  rw [splitRanges, dif_neg (Nat.not_le.mpr h)]

/-- Whatever the data are, the ranges that are read stand at the end of them and fit the image. -/
theorem splitRanges_spec (size : Int) (data : Bytes) :
    (∀ r ∈ (splitRanges size data).1, Fits size r) ∧
      ∃ written : List (Bool × ByteRange), (splitRanges size data).1 = (written.map Prod.snd).reverse ∧
        data = (splitRanges size data).2 ++ written.flatMap fun (first, r) => writeRange first r := by
  -- Data that end in a range go on sixteen bytes before their end.
  induction hn : data.length using Nat.strong_induction_on generalizing data with
  | _ n ih =>
      by_cases hlong : 16 ≤ data.length
      · obtain ⟨front, tail, rfl, hlength⟩ : ∃ front tail : Bytes, data = front ++ tail ∧ tail.length = 16 :=
          ⟨data.take (data.length - 16), data.drop (data.length - 16), (List.take_append_drop _ _).symm, by
            rw [List.length_drop]
            omega⟩
        rw [splitRanges_append hlength]
        cases hlast : lastRange? size tail with
        | none => exact ⟨by simp, [], rfl, by simp⟩
        | some r =>
            have hshorter : front.length < n := by
              rw [← hn, List.length_append, hlength]
              omega
            obtain ⟨hall, written, hread, hdata⟩ := ih front.length hshorter front rfl
            obtain ⟨hfits, first, rfl⟩ := of_lastRange?_eq_some hlength hlast
            refine ⟨List.forall_mem_cons.mpr ⟨hfits, hall⟩, written ++ [(first, r)], ?_, ?_⟩
            · simp [hread]
            · rw [List.flatMap_append, List.flatMap_singleton, ← List.append_assoc, ← hdata]
      · rw [splitRanges_of_short (Nat.not_le.mp hlong)]
        exact ⟨by simp, [], rfl, by simp⟩

/-- Written ranges are read back, the last one first, and then what stands before them is read. -/
theorem splitRanges_written (hsize : size < 0x80000000) (front : Bytes) {written : List (Bool × ByteRange)}
    (h : ∀ x ∈ written, Fits size x.2) :
    splitRanges size (front ++ written.flatMap fun (first, r) => writeRange first r) =
      ((written.map Prod.snd).reverse ++ (splitRanges size front).1, (splitRanges size front).2) := by
  -- The last range is read first, so the written ranges are taken from their end.
  induction written using List.reverseRecOn with
  | nil => simp
  | append_singleton written x ih =>
      obtain ⟨first, r⟩ := x
      have hbefore := ih fun y hy => h y (by simp [hy])
      have hlast := lastRange?_writeRange hsize (h (first, r) (by simp)) first
      rw [List.flatMap_append, List.flatMap_singleton, ← List.append_assoc,
        splitRanges_append (length_writeRange first r), hlast, hbefore]
      simp

/-! ## The description -/

/-- The highest byte of a number of eight bytes is not zero if at most the first byte is. -/
theorem two_pow_le_toNatLE {x : UInt8} {rest : Bytes} (hlength : rest.length = 7) (h : 0 ∉ rest) :
    2 ^ 56 ≤ Bytes.toNatLE (x :: rest) := by
  have hne : rest ≠ [] := fun hnil => by
    rw [hnil] at hlength
    cases hlength
  obtain ⟨front, last, rfl⟩ := (List.eq_nil_or_concat' rest).resolve_left hne
  have hlast : last ≠ 0 := fun hzero => h (by simp [hzero])
  have hfront : (x :: front).length = 7 := by simpa using hlength
  have hpow := Bytes.pow_le_toNatLE (x :: front) hlast []
  rwa [hfront, List.cons_append] at hpow

/-- Only the first byte of a part of a description with its length can be that length. -/
theorem mem_of_cons_eq_append {n x y : UInt8} {description front later : Bytes}
    (h : n :: description = front ++ x :: later) (hy : y ∈ later) : y ∈ description := by
  cases front with
  | nil =>
      rw [List.nil_append] at h
      rw [(List.cons.inj h).2]
      exact hy
  | cons z front =>
      rw [List.cons_append] at h
      rw [(List.cons.inj h).2]
      simp [hy]

theorem exists_two_numbers (h : 16 ≤ data.length) : ∃ (front : Bytes) (x : UInt8) (xs : Bytes) (y : UInt8)
    (ys : Bytes), data = front ++ ((x :: xs) ++ (y :: ys)) ∧ xs.length = 7 ∧ ys.length = 7 := by
  have htail : (data.drop (data.length - 16)).length = 16 := by
    rw [List.length_drop]
    omega
  have hcons {b : Bytes} (hb : b.length = 8) : ∃ x xs, b = x :: xs ∧ xs.length = 7 := by
    obtain ⟨x, xs, rfl⟩ := List.exists_cons_of_length_eq_add_one hb
    exact ⟨x, xs, rfl, Nat.succ.inj hb⟩
  obtain ⟨x, xs, hfirst, hxs⟩ := hcons (b := (data.drop (data.length - 16)).take 8) (by
    rw [List.length_take, htail]
    rfl)
  obtain ⟨y, ys, hsecond, hys⟩ := hcons (b := (data.drop (data.length - 16)).drop 8) (by
    rw [List.length_drop, htail])
  refine ⟨data.take (data.length - 16), x, xs, y, ys, ?_, hxs, hys⟩
  rw [← hfirst, ← hsecond, List.take_append_drop, List.take_append_drop]

/-- A description after its length, without NUL, is not taken for a range. -/
theorem splitRanges_description (hsize : size < 0x80000000) {description : Bytes} (hnul : 0 ∉ description) (n : UInt8) :
    splitRanges size (n :: description) = ([], n :: description) := by
  by_cases hlong : 16 ≤ (n :: description).length
  · obtain ⟨front, x, xs, y, ys, hdata, hxs, hys⟩ := exists_two_numbers hlong
    have hx : 2 ^ 56 ≤ Bytes.toNatLE (x :: xs) := two_pow_le_toNatLE hxs fun hzero =>
      hnul (mem_of_cons_eq_append hdata (by simp [hzero]))
    have hy : 2 ^ 56 ≤ Bytes.toNatLE (y :: ys) := two_pow_le_toNatLE hys fun hzero =>
      hnul (mem_of_cons_eq_append hdata (by simp [hzero]))
    have hlength : ((x :: xs) ++ (y :: ys)).length = 16 := by simp [hxs, hys]
    rw [hdata, splitRanges_append hlength, lastRange?_append (by simp [hxs]), asRange?_of_lt (by omega),
      asRange?_of_lt (by omega)]
    rfl
  · exact splitRanges_of_short (Nat.not_le.mp hlong)

theorem description?_cons {description : Bytes} (h : description.length ≤ 255) :
    description? (UInt8.ofNat description.length :: description) = some (Bytes.toLatin description) := by
  have hlength : (UInt8.ofNat description.length).toNat = description.length := by
    rw [UInt8.toNat_ofNat', Nat.mod_eq_of_lt (by omega)]
  rw [description?, if_pos hlength]

theorem splitRanges_writeBlob (hsize : size < 0x80000000) {description : Bytes} (hnul : 0 ∉ description)
    {written : List (Bool × ByteRange)} (h : ∀ x ∈ written, Fits size x.2) :
    splitRanges size (writeBlob description written) =
      ((written.map Prod.snd).reverse, UInt8.ofNat description.length :: description) := by
  have hblob : writeBlob description written = (UInt8.ofNat description.length :: description) ++
      written.flatMap fun (first, r) => writeRange first r := rfl
  rw [hblob, splitRanges_written hsize _ h, splitRanges_description hsize hnul, List.append_nil]

/-! ## Events -/

theorem returns_volumesOf (description : String) :
    Returns (volumesOf description) ((volumeName? description).bind Guid.parse?).toList := by
  intro j
  cases hname : volumeName? description with
  | none =>
      simp only [volumesOf, hname]
      exact ⟨j, rfl⟩
  | some name =>
      rw [Option.bind_some]
      cases hguid : Guid.parse? name with
      | none =>
          simp only [volumesOf, hname, hguid]
          exact ⟨_, rfl⟩
      | some g =>
          simp only [volumesOf, hname, hguid]
          exact ⟨j, rfl⟩

/-- What is read from the data of an event about firmware blobs, which never fails. -/
theorem returns_ofBlob (size : Int) (data : Bytes) : Returns (ofBlob size data)
    { ranges := (splitRanges size data).1
      description := description? (splitRanges size data).2
      volumes := ((description? (splitRanges size data).2).bind fun d =>
        (volumeName? d).bind Guid.parse?).toList } := by
  cases hdescription : description? (splitRanges size data).2 with
  | none =>
      simp only [ofBlob, hdescription]
      exact .pure _
  | some d =>
      simp only [ofBlob, hdescription]
      exact (returns_volumesOf d).bind (.pure _)

/-- An event of register zero whose data may name ranges. -/
def IsBlobEvent (e : ReportedEvent) : Prop := e.pcr = 0 ∧ (e.type = .postCode ∨ e.type = .firmwareBlob2)

theorem parse_of_isBlobEvent {e : ReportedEvent} (h : IsBlobEvent e) (size : Int) :
    parse e size = ofBlob size e.data := by
  have hother : e.type ≠ .noAction := by
    rcases h.2 with htype | htype <;> rw [htype] <;> decide
  rw [parse, if_neg (not_not.mpr h.1), if_neg hother, if_pos h.2]

/-- The data of every event about firmware blobs are read; the ranges that are read fit the image and stand at the end
of the data in some spelling. Ranges that fit an image of less than two gibibytes, each written with its length before
or after its address, behind a description of at most 255 bytes other than NUL and its length, are read back exactly,
the last one first, and so is the description. -/
theorem parse_blob_round_trip {e : ReportedEvent} (he : IsBlobEvent e) (size : Int) :
    (∃ d, Returns (parse e size) d ∧ (∀ r ∈ d.ranges, Fits size r) ∧
      ∃ (front : Bytes) (written : List (Bool × ByteRange)), d.ranges = (written.map Prod.snd).reverse ∧
        e.data = front ++ written.flatMap fun (first, r) => writeRange first r) ∧
    ∀ (description : Bytes) (written : List (Bool × ByteRange)), size < 0x80000000 → description.length ≤ 255 →
      0 ∉ description → (∀ x ∈ written, Fits size x.2) → e.data = writeBlob description written →
      ∃ d, Returns (parse e size) d ∧ d.ranges = (written.map Prod.snd).reverse ∧
        d.description = some (Bytes.toLatin description) ∧ d.locality = none := by
  rw [parse_of_isBlobEvent he]
  refine ⟨⟨_, returns_ofBlob size e.data, ?_⟩, fun description written hsize hlength hnul hfits hdata => ?_⟩
  · obtain ⟨hfits, written, hranges, hdata⟩ := splitRanges_spec size e.data
    exact ⟨hfits, _, written, hranges, hdata⟩
  · have hsplit := splitRanges_writeBlob hsize hnul hfits
    refine ⟨_, returns_ofBlob size e.data, ?_, ?_, rfl⟩
    · rw [hdata, hsplit]
    · rw [hdata, hsplit]
      exact description?_cons hlength

def sampleDescription : Bytes := Bytes.ofLatin "FV_BB_AFTER_MEMORY"

/-- Two ranges of an image of 64 KiB, the second one with its address in front. -/
def sampleWritten : List (Bool × ByteRange) := [(true, ⟨0xFFFF0000, 0x3000⟩), (false, ⟨0xFFFF8000, 0x10000⟩)]

def sampleBlob : ReportedEvent := ⟨0, .firmwareBlob2, writeBlob sampleDescription sampleWritten, none⟩

/-- With its length the description is long enough to be taken for a range, and is not. -/
theorem parse_blob_round_trip_sample : IsBlobEvent sampleBlob ∧ (∀ x ∈ sampleWritten, Fits 0x10000 x.2) ∧
    0 ∉ sampleDescription ∧ ∃ d, Returns (parse sampleBlob 0x10000) d ∧
      d.ranges = [⟨0xFFFF8000, 0x10000⟩, ⟨0xFFFF0000, 0x3000⟩] ∧ d.description = some "FV_BB_AFTER_MEMORY" := by
  have he : IsBlobEvent sampleBlob := ⟨rfl, .inr rfl⟩
  have hfits : ∀ x ∈ sampleWritten, Fits 0x10000 x.2 := by
    intro x hx
    simp only [sampleWritten, List.mem_cons, List.not_mem_nil, or_false] at hx
    rcases hx with rfl | rfl
    · exact ⟨by decide, by decide, by decide⟩
    · exact ⟨by decide, by decide, by decide⟩
  have hnul : 0 ∉ sampleDescription := by decide
  obtain ⟨d, hd, hranges, hdescription, -⟩ := (parse_blob_round_trip he 0x10000).2 sampleDescription sampleWritten
    (by decide) (by decide) hnul hfits rfl
  exact ⟨he, hfits, hnul, d, hd, hranges, hdescription⟩

end EventData
end MeasuredBoot
