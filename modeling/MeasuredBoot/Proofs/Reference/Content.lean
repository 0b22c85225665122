import Mathlib.Data.List.Sort
import MeasuredBoot.Data
import MeasuredBoot.Proofs.Reference.Canonical
import MeasuredBoot.Proofs.Runs

/-!
# What is read of a content

A reference without a map to a blob that holds a content reads the bytes at the covered addresses, each once and
in ascending order, whatever the arrangement of its ranges; it fails to read exactly if it covers an address
outside the content. The ranges are joined before they are read, and the normal form depends on the covered
addresses only, so two references that cover the same addresses have one outcome.
-/
namespace MeasuredBoot

/-- The bytes of a blob that holds some; a snapshot of registers has no content. -/
def Blob.content? : Blob → Option ByteArray
  | raw _ bytes => some bytes
  | image i => some i.content
  | txtPublic _ => none
  | amdRegisters _ => none

def Fault.IsRead (f : Fault) : Prop := ∃ cause, f = .read cause

namespace ByteRanges
variable {rs ss : ByteRanges} {bytes : ByteArray} {k n : Nat}

/-- Ranges that cover no address outside a content of a size. -/
def Inside (n : Nat) (rs : ByteRanges) : Prop := ∀ a, Covers rs a → 0 ≤ a ∧ a < n

/-- The bytes of a content at the covered addresses, each once and in ascending order. -/
def pick (bytes : ByteArray) (rs : ByteRanges) : Bytes :=
  ((List.range bytes.size).filter fun k : Nat => Covers rs k).map fun k => bytes[k]!

/-! ## The addresses of normal ranges -/

/-- The addresses of a range that begins at no negative offset. -/
def addresses (r : ByteRange) : List Nat := List.range' r.offset.toNat r.length.toNat

theorem mem_addresses {r : ByteRange} (h : 0 ≤ r.offset) : k ∈ addresses r ↔ (k : Int) ∈ r := by
  rw [addresses, List.mem_range'_1, ByteRange.mem_iff, ByteRange.stop]
  omega

theorem mem_flatMap_addresses (h : ∀ r ∈ rs, 0 ≤ r.offset) :
    k ∈ rs.flatMap addresses ↔ Covers rs k := by
  rw [List.mem_flatMap, Covers]
  exact exists_congr fun r => and_congr_right fun hr => mem_addresses (h r hr)

/-- The addresses of normal ranges ascend. -/
theorem Normal.ascending (h : Normal rs) (hzero : ∀ r ∈ rs, 0 ≤ r.offset) :
    (rs.flatMap addresses).Pairwise (· < ·) := by
  induction rs with
  | nil => exact List.Pairwise.nil
  | cons r rest ih =>
      have hrest : ∀ s ∈ rest, 0 ≤ s.offset := fun s hs => hzero s (by simp [hs])
      rw [List.flatMap_cons, List.pairwise_append]
      refine ⟨List.pairwise_lt_range', ih h.tail hrest, fun k hk m hm => ?_⟩
      have hin := (mem_addresses (hzero r (by simp))).mp hk
      have hlater := h.stop_lt ((mem_flatMap_addresses hrest).mp hm)
      have hbefore := hin.2
      omega

theorem Positive.inside_iff (h : Positive rs) :
    Inside n rs ↔ ∀ r ∈ rs, 0 ≤ r.offset ∧ r.stop ≤ n := by
  have hregion := (h.forall_contains_iff (s := ⟨0, n⟩)).symm
  simpa only [Inside, ByteRange.contains_iff, ByteRange.mem_iff, ByteRange.stop, Int.zero_add] using hregion

/-- The addresses of normal ranges inside a content are its covered addresses. -/
theorem Normal.flatMap_addresses (h : Normal rs) (hin : Inside n rs) :
    rs.flatMap addresses = (List.range n).filter fun k : Nat => Covers rs k := by
  have hzero : ∀ r ∈ rs, 0 ≤ r.offset := fun r hr => (h.positive.inside_iff.mp hin r hr).1
  refine (h.ascending hzero).eq_of_mem_iff (List.pairwise_lt_range.filter _) fun k => ?_
  rw [mem_flatMap_addresses hzero, List.mem_filter, List.mem_range, decide_eq_true_eq]
  refine (and_iff_right_of_imp fun hcovers => ?_).symm
  have hlt := (hin k hcovers).2
  omega

theorem pick_congr (h : ∀ a, Covers rs a ↔ Covers ss a) : pick bytes rs = pick bytes ss := by
  simp only [pick, h]

end ByteRanges

/-! ## Reading a content -/

namespace Blob
variable {b : Blob} {bytes : ByteArray} {r : ByteRange}

theorem extract_eq_map {start stop : Nat} (h : stop ≤ bytes.size) :
    (bytes.extract start stop).data.toList = (List.range' start (stop - start)).map fun k => bytes[k]! := by
  have hsize : bytes.data.size = bytes.size := rfl
  rw [ByteArray.data_extract, Array.toList_extract]
  apply List.ext_getElem
  · simp only [List.length_map, List.length_range', List.extract_eq_take_drop, List.length_take,
      List.length_drop, Array.length_toList]
    omega
  · intro k hk hk'
    simp only [List.length_map, List.length_range'] at hk'
    have hlt : start + k < bytes.size := by omega
    simp [List.extract_eq_take_drop, getElem!_pos, hlt, ByteArray.getElem_eq_getElem_data]

theorem read_content (h : b.content? = some bytes) (hstart : 0 ≤ r.offset) (hlength : 0 ≤ r.length)
    (hstop : r.stop ≤ bytes.size) :
    b.read r.offset r.length = .ok ((ByteRanges.addresses r).map fun k => bytes[k]!) := by
  have hcontent : ∀ name, readContent name bytes r.offset r.length =
      .ok ((ByteRanges.addresses r).map fun k => bytes[k]!) := by
    intro name
    rw [ByteRange.stop] at hstop
    rw [readContent, if_neg (by omega), extract_eq_map (by omega), ByteRanges.addresses]
    congr 4
    omega
  cases b with
  | raw name content =>
      cases h
      exact hcontent name
  | image i =>
      cases h
      exact hcontent _
  | txtPublic t => cases h
  | amdRegisters a => cases h

/-- A read that begins or ends outside the content fails. -/
theorem read_outside (h : b.content? = some bytes) (hout : ¬ (0 ≤ r.offset ∧ r.stop ≤ bytes.size)) :
    ∃ f, b.read r.offset r.length = .error f ∧ f.IsRead := by
  have hcontent : ∀ name, ∃ f, readContent name bytes r.offset r.length = .error f ∧ f.IsRead := by
    intro name
    rw [ByteRange.stop] at hout
    rw [readContent, if_pos (by omega)]
    exact ⟨_, rfl, _, rfl⟩
  cases b with
  | raw name content =>
      cases h
      exact hcontent name
  | image i =>
      cases h
      exact hcontent _
  | txtPublic t => cases h
  | amdRegisters a => cases h

end Blob

namespace Reference
variable {b : Blob} {bytes : ByteArray} {r : ByteRange} {rs : ByteRanges}

theorem readRange_content (h : b.content? = some bytes) (hstart : 0 ≤ r.offset) (hlength : 0 ≤ r.length)
    (hstop : r.stop ≤ bytes.size) :
    readRange b r = .ok ((ByteRanges.addresses r).map fun k => bytes[k]!) := by
  have hfull : ¬ ((((ByteRanges.addresses r).map fun k => bytes[k]!).length : Int) ≠ r.length) := by
    rw [List.length_map, ByteRanges.addresses, List.length_range']
    omega
  rw [readRange, Blob.read_content h hstart hlength hstop, ok_bind, if_neg hfull]
  rfl

theorem readRange_outside (h : b.content? = some bytes) (hout : ¬ (0 ≤ r.offset ∧ r.stop ≤ bytes.size)) :
    ∃ f, readRange b r = .error f ∧ f.IsRead := by
  obtain ⟨f, hf, hread⟩ := Blob.read_outside h hout
  exact ⟨f, by rw [readRange, hf]; rfl, hread⟩

theorem readAll_content (h : b.content? = some bytes) (hnormal : ByteRanges.Normal rs)
    (hin : ByteRanges.Inside bytes.size rs) :
    (rs.mapM (readRange b)).map List.flatten = .ok (ByteRanges.pick bytes rs) := by
  have hall : ∀ r ∈ rs, readRange b r = .ok ((ByteRanges.addresses r).map fun k => bytes[k]!) := by
    intro r hr
    obtain ⟨hstart, hstop⟩ := hnormal.positive.inside_iff.mp hin r hr
    exact readRange_content h hstart (hnormal.positive.sized r hr) hstop
  rw [mapM_of_ok hall, ByteRanges.pick, ← hnormal.flatMap_addresses hin, List.map_flatMap]
  rfl

theorem readAll_outside (h : b.content? = some bytes) (hnormal : ByteRanges.Normal rs)
    (hout : ¬ ByteRanges.Inside bytes.size rs) : ∃ f, rs.mapM (readRange b) = .error f ∧ f.IsRead := by
  have hfaults : ∀ r ∈ rs, FaultsWithin Fault.IsRead (readRange b r) := by
    intro r hr
    by_cases hr' : 0 ≤ r.offset ∧ r.stop ≤ bytes.size
    · rw [readRange_content h hr'.1 (hnormal.positive.sized r hr) hr'.2]
      exact FaultsWithin.ok _
    · obtain ⟨f, hf, hread⟩ := readRange_outside h hr'
      rw [hf]
      exact FaultsWithin.error hread
  cases hchunks : rs.mapM (readRange b) with
  | error f => exact ⟨f, rfl, FaultsWithin.mapM hfaults f hchunks⟩
  | ok chunks =>
      refine absurd (hnormal.positive.inside_iff.mpr fun r hr => ?_) hout
      obtain ⟨chunk, -, hchunk⟩ := mem_of_mapM hchunks hr
      by_contra hr'
      obtain ⟨f, hf, -⟩ := readRange_outside h hr'
      rw [hf] at hchunk
      cases hchunk

theorem read_unmapped (x : Artifact) (rs : ByteRanges) :
    (⟨x, none, rs⟩ : Reference).read = (rs.normalize.mapM (readRange x.blob)).map List.flatten := by
  rw [read, resolvedRanges, ok_bind]
  cases rs.normalize.mapM (readRange x.blob) <;> rfl

theorem inside_normalize (h : ByteRanges.Sized rs) {n : Nat} :
    ByteRanges.Inside n rs.normalize ↔ ByteRanges.Inside n rs := by
  simp only [ByteRanges.Inside, ByteRanges.covers_normalize h]

/-- A reference to a blob that holds a content fails to read it exactly if some covered address lies outside, and
reads otherwise the bytes at the covered addresses, each once and in ascending order; so references that cover
the same addresses have the same outcome. -/
theorem read_covered {x : Artifact} {bytes : ByteArray} (hc : x.blob.content? = some bytes) {rs : ByteRanges}
    (hrs : ByteRanges.Sized rs) :
    ((∃ f, (⟨x, none, rs⟩ : Reference).read = .error f ∧ f.IsRead) ↔
      ∃ a, ByteRanges.Covers rs a ∧ ¬ (0 ≤ a ∧ a < bytes.size)) ∧
    ((∀ a, ByteRanges.Covers rs a → 0 ≤ a ∧ a < bytes.size) →
      (⟨x, none, rs⟩ : Reference).read = .ok (ByteRanges.pick bytes rs)) ∧
    ∀ ss, ByteRanges.Sized ss → (∀ a, ByteRanges.Covers ss a ↔ ByteRanges.Covers rs a) →
      (⟨x, none, ss⟩ : Reference).read = (⟨x, none, rs⟩ : Reference).read := by
  have hnormal := ByteRanges.normal_normalize hrs
  have hread : ByteRanges.Inside bytes.size rs →
      (⟨x, none, rs⟩ : Reference).read = .ok (ByteRanges.pick bytes rs) := by
    intro hin
    rw [read_unmapped, readAll_content hc hnormal ((inside_normalize hrs).mpr hin),
      ByteRanges.pick_congr (ByteRanges.covers_normalize hrs)]
  refine ⟨⟨?_, ?_⟩, hread, fun ss hss hcovers => ?_⟩
  · rintro ⟨f, hf, -⟩
    by_contra hnone
    have hin : ByteRanges.Inside bytes.size rs := fun a ha => by
      by_contra hout
      exact hnone ⟨a, ha, hout⟩
    rw [hread hin] at hf
    cases hf
  · rintro ⟨a, ha, hout⟩
    have hnot : ¬ ByteRanges.Inside bytes.size rs.normalize := fun hin =>
      hout ((inside_normalize hrs).mp hin a ha)
    obtain ⟨f, hf, hkind⟩ := readAll_outside hc hnormal hnot
    exact ⟨f, by rw [read_unmapped, hf]; rfl, hkind⟩
  · rw [read_unmapped, read_unmapped, (ByteRanges.normalize_eq_iff hss hrs).mpr hcovers]

def sampleBytes : Artifact := ⟨0, .raw Blob.plainName (ByteArray.mk #[10, 11, 12, 13])⟩

def scattered : ByteRanges := [⟨2, 2⟩, ⟨1, 0⟩, ⟨3, 1⟩, ⟨0, 1⟩]

/-- Scattered ranges read what two ranges read that cover the same addresses; a range that ends behind the content
reads nothing. -/
theorem read_covered_scattered : sampleBytes.blob.content? = some (ByteArray.mk #[10, 11, 12, 13]) ∧
    ByteRanges.Sized scattered ∧
    (⟨sampleBytes, none, scattered⟩ : Reference).read = .ok [10, 12, 13] ∧
    (⟨sampleBytes, none, [⟨0, 1⟩, ⟨2, 2⟩]⟩ : Reference).read = .ok [10, 12, 13] ∧
    ∃ f, (⟨sampleBytes, none, [⟨3, 2⟩]⟩ : Reference).read = .error f ∧ f.IsRead := by
  have hsized : ByteRanges.Sized scattered := by decide
  have htwo : ByteRanges.Sized [⟨0, 1⟩, ⟨2, 2⟩] := by decide
  have hlong : ByteRanges.Sized [⟨3, 2⟩] := by decide
  obtain ⟨-, hread, hsame⟩ := read_covered (x := sampleBytes) rfl hsized
  have hinside : ∀ a, ByteRanges.Covers scattered a → 0 ≤ a ∧ a < 4 := by
    intro a ha
    simp only [scattered, ByteRanges.covers_cons, ByteRanges.covers_nil, ByteRange.mem_iff,
      ByteRange.stop, or_false] at ha
    omega
  have hcovers : ∀ a, ByteRanges.Covers [⟨0, 1⟩, ⟨2, 2⟩] a ↔ ByteRanges.Covers scattered a := by
    intro a
    simp only [scattered, ByteRanges.covers_cons, ByteRanges.covers_nil, ByteRange.mem_iff,
      ByteRange.stop, or_false]
    omega
  have hbytes := hread hinside
  have hpick : ByteRanges.pick (ByteArray.mk #[10, 11, 12, 13]) scattered = [10, 12, 13] := by decide
  rw [hpick] at hbytes
  refine ⟨rfl, hsized, hbytes, (hsame _ htwo hcovers).trans hbytes, ?_⟩
  exact (read_covered (x := sampleBytes) rfl hlong).1.mpr
    ⟨4, ⟨_, List.mem_singleton_self _, by decide⟩, by decide⟩

/-! ## One range -/

theorem read_range_of_ok {artifact : Artifact} {r : ByteRange} {b : Bytes} (hr : r.length ≠ 0)
    (h : (⟨artifact, none, [r]⟩ : Reference).read = .ok b) :
    artifact.blob.read r.offset r.length = .ok b ∧ (b.length : Int) = r.length := by
  simp only [read, resolvedRanges, ok_bind, ByteRanges.normalize_singleton hr] at h
  obtain ⟨chunks, hchunks, heq⟩ := bind_eq_ok_iff.mp h
  rw [List.mapM_cons, List.mapM_nil] at hchunks
  obtain ⟨chunk, hchunk, hrest⟩ := bind_eq_ok_iff.mp hchunks
  cases hrest
  cases heq
  obtain ⟨whole, hwhole, hshort⟩ := bind_eq_ok_iff.mp hchunk
  by_cases hlength : (whole.length : Int) ≠ r.length
  · simp only [if_pos hlength] at hshort
    cases hshort
  · simp only [if_neg hlength] at hshort
    cases hshort
    simpa using ⟨hwhole, not_not.mp hlength⟩

theorem read_range {artifact : Artifact} {r : ByteRange} {b : Bytes} (hr : r.length ≠ 0)
    (h : artifact.blob.read r.offset r.length = .ok b) (hlength : (b.length : Int) = r.length) :
    (⟨artifact, none, [r]⟩ : Reference).read = .ok b := by
  have hfull : ¬ (b.length : Int) ≠ r.length := not_not.mpr hlength
  simp only [read, resolvedRanges, ok_bind, ByteRanges.normalize_singleton hr, List.mapM_cons,
    List.mapM_nil, readRange, h, if_neg hfull, pure_bind]
  exact congrArg Except.ok (by simp)

end Reference

/-! ## Several references -/

namespace References

theorem read_cons (r : Reference) (rs : References) :
    References.read (r :: rs) =
      r.read >>= fun first => References.read rs >>= fun rest => pure (first ++ rest) := by
  simp only [read, List.mapM_cons, bind_assoc, pure_bind, List.flatten_cons]

theorem read_cons_eq_ok_iff {r : Reference} {rs : References} {b : Bytes} :
    References.read (r :: rs) = .ok b ↔
      ∃ first rest, r.read = .ok first ∧ References.read rs = .ok rest ∧ b = first ++ rest := by
  simp only [read, List.mapM_cons]
  constructor
  · intro h
    obtain ⟨chunks, hchunks, heq⟩ := bind_eq_ok_iff.mp h
    obtain ⟨first, hfirst, htail⟩ := bind_eq_ok_iff.mp hchunks
    obtain ⟨tail, hrest, hcons⟩ := bind_eq_ok_iff.mp htail
    cases hcons
    cases heq
    exact ⟨first, tail.flatten, hfirst, by rw [hrest]; rfl, by simp⟩
  · rintro ⟨first, rest, hfirst, hrest, rfl⟩
    obtain ⟨tail, htail, heq⟩ := bind_eq_ok_iff.mp hrest
    cases heq
    rw [hfirst, htail]
    rfl

end References

theorem Data.converted_referenced {rs : References} {a : Algorithm} {digest : Bytes} :
    (Data.referenced rs (some a)).converted = .ok digest ↔
      ∃ b, rs.read = .ok b ∧ hashBytes a b = .ok digest := bind_eq_ok_iff

end MeasuredBoot
