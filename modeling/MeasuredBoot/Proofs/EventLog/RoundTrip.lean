import MeasuredBoot.Proofs.EventLog.Reading

/-!
# Written logs are read back

A log that declares algorithms, with any records whose digests are of the declared sizes, is read back as
the event of its specification and the events of its records, in order. A log of records with a single
digest, the first of which declares nothing, is read back as the events of its records.
-/
namespace MeasuredBoot.BinaryLog

/-- A specification whose numbers fit their fields; of no algorithm it declares two sizes. -/
structure Specification.Fits (s : Specification) : Prop where
  platform : s.platform.length = 8
  sizes : ∀ x ∈ s.sizes, x.1 < 2 ^ 16 ∧ x.2 < 2 ^ 16
  distinct : (s.sizes.map Prod.fst).Nodup
  data : s.data.length < 2 ^ 32

theorem Specification.data_eq (s : Specification) : s.data =
    (specSignature ++ s.platform ++ Bytes.ofNatLE 4 s.sizes.length) ++ s.sizes.flatMap writeSize ++
      s.vendor := rfl

/-- There are no more algorithms than numbers of two bytes. -/
theorem Specification.Fits.length_sizes_le {s : Specification} (h : s.Fits) : s.sizes.length ≤ 2 ^ 16 := by
  have hsub : s.sizes.map Prod.fst ⊆ List.range (2 ^ 16) := by
    intro n hn
    obtain ⟨x, hx, rfl⟩ := List.mem_map.mp hn
    exact List.mem_range.mpr (h.sizes x hx).1
  simpa using (List.subperm_of_subset h.distinct hsub).length_le

theorem parseSpec_data {s : Specification} (h : s.Fits) : parseSpec s.data = .ok s.sizes := by
  have hfront : (specSignature ++ s.platform).length = countOffset := by
    rw [List.length_append, h.platform, countOffset]
  have hcount : fieldAt s.data countOffset 4 = .ok (Bytes.ofNatLE 4 s.sizes.length) := by
    have hfield := fieldAt_append (specSignature ++ s.platform) (Bytes.ofNatLE 4 s.sizes.length)
      (s.sizes.flatMap writeSize ++ s.vendor)
    rwa [hfront, Bytes.length_ofNatLE, ← List.append_assoc, ← s.data_eq] at hfield
  have hlt : s.sizes.length < 256 ^ 4 := lt_of_le_of_lt h.length_sizes_le (by decide)
  have hsizes := readSizes_append (specSignature ++ s.platform ++ Bytes.ofNatLE 4 s.sizes.length)
    s.vendor [] h.sizes h.distinct
  rw [← s.data_eq, List.length_append, hfront, Bytes.length_ofNatLE] at hsizes
  rw [parseSpec, hcount, ok_bind, Bytes.toNatLE_ofNatLE_of_lt hlt]
  exact hsizes

theorem Specification.Fits.record {s : Specification} (h : s.Fits) : s.record.Fits where
  pcr := show 0 < 2 ^ 32 by decide
  type := show EventType.noAction.code.toNat < 2 ^ 32 by decide
  digest := Bytes.length_zeros 20
  data := h.data

theorem Specification.declares_record (s : Specification) : s.record.Declares := by
  refine ⟨rfl, ?_⟩
  rw [List.isPrefixOf_iff_prefix, Specification.record, Specification.data, List.append_assoc,
    List.append_assoc, List.append_assoc]
  exact List.prefix_append _ _

theorem reads_counted {sizes : DigestSizes} {records : List AgileRecord}
    (h : ∀ r ∈ records, r.Fits sizes) (first : Bool) :
    Reads ⟨records.flatMap AgileRecord.bytes, some sizes, first⟩ (records.map .counted) none := by
  induction records with
  | nil => exact .ended rfl
  | cons r later ih =>
      exact .record (.counted (h r (by simp))) (ih fun r' hr' => h r' (by simp [hr']))

theorem reads_single {records : List LegacyRecord} {first : Bool} (h : ∀ r ∈ records, r.Fits)
    (hplain : ∀ r ∈ records.head?, ¬ (first = true ∧ r.Declares)) :
    Reads ⟨records.flatMap LegacyRecord.bytes, none, first⟩ (records.map .single) none := by
  induction records generalizing first with
  | nil => exact .ended rfl
  | cons r later ih =>
      refine .record (.single (h r (by simp)) (hplain r rfl)) (ih (fun r' hr' => h r' (by simp [hr'])) ?_)
      simp

/-- Reading gives back what was written. -/
theorem parse_written :
    (∀ (s : Specification) (records : List AgileRecord), s.Fits → (∀ r ∈ records, r.Fits s.sizes) →
      Returns (parse (writeAgile s records)) (s.event :: records.flatMap AgileRecord.events)) ∧
    (∀ records : List LegacyRecord, (∀ r ∈ records, r.Fits) → (∀ r ∈ records.head?, ¬ r.Declares) →
      Returns (parse (writeLegacy records)) (records.map LegacyRecord.event)) := by
  constructor
  · intro s records hs hrecords
    have hreads : Reads ⟨writeAgile s records, none, true⟩
        (.declaring s.record :: records.map .counted) none :=
      .record (.declaring hs.record s.declares_record (parseSpec_data hs)) (reads_counted hrecords false)
    have hparse := parse_of_reads hreads
    rwa [List.flatMap_cons, List.flatMap_map] at hparse
  · intro records hrecords hfirst
    have hparse := parse_of_reads (b := writeLegacy records)
      (reads_single hrecords fun r hr hdeclares => hfirst r hr hdeclares.2)
    rw [List.flatMap_map] at hparse
    rw [List.map_eq_flatMap]
    exact hparse

def sampleSpecification : Specification := ⟨Bytes.zeros 8, [(4, 20), (11, 32)], [0]⟩

def sampleAgile : List AgileRecord :=
  [⟨0, 3, [], [1]⟩, ⟨1, 8, [(11, Bytes.zeros 32), (4, Bytes.zeros 20)], [2, 3]⟩]

def sampleLegacy : List LegacyRecord := [⟨0, 3, Bytes.zeros 20, [7]⟩, ⟨2, 1, Bytes.zeros 20, []⟩]

theorem parse_written_sample :
    Returns (parse (writeAgile sampleSpecification sampleAgile))
      [sampleSpecification.event, ⟨0, ⟨3⟩, [1], none⟩, ⟨1, ⟨8⟩, [2, 3], some ⟨⟨11⟩, Bytes.zeros 32⟩⟩,
        ⟨1, ⟨8⟩, [2, 3], some ⟨⟨4⟩, Bytes.zeros 20⟩⟩] ∧
    Returns (parse (writeLegacy sampleLegacy))
      [⟨0, ⟨3⟩, [7], some ⟨.sha1, Bytes.zeros 20⟩⟩, ⟨2, ⟨1⟩, [], some ⟨.sha1, Bytes.zeros 20⟩⟩] := by
  have hspec : sampleSpecification.Fits := ⟨rfl, by decide, by decide, by decide⟩
  have hnone : (AgileRecord.mk 0 3 [] [1]).Fits sampleSpecification.sizes :=
    ⟨by decide, by decide, by decide, by simp, by decide⟩
  have hboth : (AgileRecord.mk 1 8 [(11, Bytes.zeros 32), (4, Bytes.zeros 20)] [2, 3]).Fits
      sampleSpecification.sizes := by
    refine ⟨by decide, by decide, by decide, ?_, by decide⟩
    rw [List.forall_mem_cons, List.forall_mem_singleton]
    exact ⟨⟨by decide, rfl⟩, by decide, rfl⟩
  have hagile : ∀ r ∈ sampleAgile, r.Fits sampleSpecification.sizes := by
    rw [sampleAgile, List.forall_mem_cons, List.forall_mem_singleton]
    exact ⟨hnone, hboth⟩
  have hlegacy : ∀ r ∈ sampleLegacy, r.Fits := by
    rw [sampleLegacy, List.forall_mem_cons, List.forall_mem_singleton]
    exact ⟨⟨by decide, by decide, rfl, by decide⟩, by decide, by decide, rfl, by decide⟩
  have hplain : ∀ r ∈ sampleLegacy.head?, ¬ r.Declares := by
    rintro r ⟨rfl⟩ ⟨-, hprefix⟩
    revert hprefix
    decide
  exact ⟨parse_written.1 _ _ hspec hagile, parse_written.2 _ hlegacy hplain⟩

end MeasuredBoot.BinaryLog
