import MeasuredBoot.Proofs.EventLog.Blobs
import MeasuredBoot.Proofs.Reference.Content
import MeasuredBoot.Proofs.Reference.Mapping
import MeasuredBoot.Reproduce.Explanation

/-!
# Which listed ranges are explained

An explanation reads the bytes that the data of an event list, one range after another as they were parsed, and
compares their digest with that of the event; failing that, it compares the digest of the data themselves. Every
range of the mapped image can be read, so an explanation always comes to an end, and its measurement is known: the
ranges, the data or nothing.

Ranges are parsed from the end of the data. So what is compared is the digest of the ranges from the last one listed
to the first, and ranges whose digest was made in the listed order are explained only if their bytes are the same
backwards, or digests collide.
-/
namespace MeasuredBoot

namespace Explanation
variable {s : State} {i : BiosImage} {e : ReportedEvent} {a : Algorithm} {f : HashFunction} {d : Bytes}
  {r : ByteRange} {ranges : ByteRanges}

/-! ## The bytes of mapped ranges -/

/-- The whole of an image, which is its BIOS region if it declares no regions. -/
abbrev whole (i : BiosImage) : ByteRange := ⟨0, i.content.size⟩

structure InImage (i : BiosImage) (r : ByteRange) : Prop where
  positive : 0 < r.length
  mapped : (AddressMap.window (whole i)).contains r = true

/-- The offsets of an image to which a physical range is mapped. -/
def place (i : BiosImage) (r : ByteRange) : ByteRange := ⟨r.offset - AddressMap.base (whole i), r.length⟩

def bytesAt (i : BiosImage) (r : ByteRange) : Bytes :=
  (ByteRanges.addresses (place i r)).map fun k => i.content[k]!

def rangeReference (i : BiosImage) (r : ByteRange) : Reference :=
  ⟨State.imageArtifact i, some .physical, [r]⟩

theorem InImage.fits (h : InImage i r) : EventData.Fits i.content.size r := by
  obtain ⟨hlow, hhigh⟩ := ByteRange.contains_iff.mp h.mapped
  rw [AddressMap.stop_window] at hhigh
  have hpos := h.positive
  simp only [AddressMap.window, AddressMap.base, ByteRange.stop] at hlow hhigh
  exact ⟨by omega, by omega, EventData.isMapped_iff.mpr ⟨by omega, by omega⟩⟩

theorem resolvedRanges_rangeReference (hregions : i.regions = none) (h : InImage i r) :
    (rangeReference i r).resolvedRanges = .ok [place i r] := by
  have hregion : AddressMap.regionOf (.image i) = .ok (whole i) := by
    rw [AddressMap.regionOf, BiosImage.biosRegion, hregions]
  have hplace : AddressMap.resolveIn (whole i) r = .ok (place i r) := by
    refine AddressMap.resolveIn_eq_ok_iff.mpr ⟨h.mapped, ?_⟩
    rw [place, Int.zero_add]
  exact (AddressMap.physical_resolve hregion [r]).trans (mapM_cons_eq_ok_iff.mpr ⟨_, _, hplace, rfl, rfl⟩)

theorem read_rangeReference (hregions : i.regions = none) (h : InImage i r) :
    (rangeReference i r).read = .ok (bytesAt i r) := by
  obtain ⟨hlow, hhigh⟩ := ByteRange.contains_iff.mp h.mapped
  rw [AddressMap.stop_window] at hhigh
  have hpos : 0 < (place i r).length := h.positive
  have hbytes : Reference.readRange (.image i) (place i r) = .ok (bytesAt i r) := by
    refine Reference.readRange_content (b := .image i) rfl ?_ (by omega) ?_
    · simp only [AddressMap.window, place] at hlow ⊢
      omega
    · simp only [AddressMap.base, ByteRange.stop, place] at hhigh ⊢
      omega
  rw [Reference.read, resolvedRanges_rangeReference hregions h, ok_bind, ByteRanges.normalize_singleton hpos.ne']
  exact bind_eq_ok_iff.mpr ⟨[bytesAt i r], mapM_cons_eq_ok_iff.mpr ⟨_, _, hbytes, rfl, rfl⟩, by simp; rfl⟩

theorem read_rangeReferences (hregions : i.regions = none) (h : ∀ r ∈ ranges, InImage i r) :
    References.read (ranges.map (rangeReference i)) = .ok (ranges.flatMap (bytesAt i)) := by
  have hread : ∀ r ∈ ranges, (Reference.read ∘ rangeReference i) r = .ok (bytesAt i r) :=
    fun r hr => read_rangeReference hregions (h r hr)
  rw [References.read, List.mapM_map, mapM_of_ok hread]
  rfl

theorem returns_rangeReferences (h : ∀ r ∈ ranges, InImage i r) :
    Returns (rangeReferences i ranges) (ranges.map (rangeReference i)) := by
  induction ranges with
  | nil => exact .pure []
  | cons r rest ih =>
      have hne : ¬ r.length = 0 := fun hzero => absurd (h r (by simp)).positive (by omega)
      rw [rangeReferences, if_neg hne]
      exact (ih fun p hp => h p (by simp [hp])).bind (.pure _)

/-! ## Trials -/

/-- What an event is measured by: data of a digest, if that is the digest of the event. -/
def conjectured (s : State) (a : Algorithm) (rs : References) (digest d : Bytes) : Option Evidence :=
  if digest = d then some (conjecture s (.referenced rs (some a))) else none

theorem returns_tryReferences (hf : a.function? = some f) (he : e.digest = some ⟨a, d⟩) {rs : References} {b : Bytes}
    (hread : rs.read = .ok b) :
    Returns (tryReferences s e rs)
      { measurement := conjectured s a rs (f.digest b) d, digest := some (f.digest b) } := by
  have hdigest : e.givenDigest "hash_algo" = .ok ⟨a, d⟩ := by rw [ReportedEvent.givenDigest, he]
  have hconverted : (Data.referenced rs (some a)).converted = .ok (f.digest b) :=
    Data.converted_referenced.mpr ⟨b, hread, by simp only [hashBytes, hf]⟩
  refine (Returns.attempt hdigest).bind ?_
  simp only [hconverted]
  exact .pure _

def dataReferences (data : Bytes) : References := [⟨eventArtifact data, none, [⟨0, data.length⟩]⟩]

theorem read_dataReferences {data : Bytes} (h : data ≠ []) : (dataReferences data).read = .ok data := by
  have hpos : (0 : Int) < data.length := Int.natCast_pos.mpr (List.length_pos_iff.mpr h)
  have hread : (eventArtifact data).blob.read 0 data.length = .ok data := by
    rw [eventArtifact, Blob.read, Blob.readContent, if_neg (by simp [ByteArray.size])]
    simp
  rw [dataReferences, References.read_cons, Reference.read_range hpos.ne' hread rfl]
  exact congrArg Except.ok (List.append_nil data)

theorem exists_returns_guessData (hf : a.function? = some f) (he : e.digest = some ⟨a, d⟩) {x : Explanation}
    (hx : x.event = e) (hnone : x.measurement = none) (hdata : e.data ≠ []) :
    ∃ y, Returns (guessData s x) y ∧ y.parsed = x.parsed ∧
      y.measurement = conjectured s a (dataReferences e.data) (f.digest e.data) d := by
  have htrial := returns_tryReferences (s := s) hf he (read_dataReferences hdata)
  have hnotEmpty : ¬ e.data.isEmpty = true := by simpa using hdata
  rw [guessData, hx]
  simp only [if_neg hnotEmpty]
  cases hm : conjectured s a (dataReferences e.data) (f.digest e.data) d with
  | none =>
      rw [hm] at htrial
      exact ⟨x, htrial.bind (.pure x), rfl, hnone⟩
  | some m =>
      rw [hm] at htrial
      exact ⟨_, htrial.bind (.pure _), rfl, rfl⟩

/-- What an event about firmware blobs is found to measure: the ranges, or else the data themselves. -/
def found (s : State) (i : BiosImage) (e : ReportedEvent) (a : Algorithm) (f : HashFunction) (d : Bytes)
    (ranges : ByteRanges) : Option Evidence :=
  (conjectured s a (ranges.map (rangeReference i)) (f.digest (ranges.flatMap (bytesAt i))) d).or
    (conjectured s a (dataReferences e.data) (f.digest e.data) d)

theorem exists_returns_guess (hregions : i.regions = none) (hf : a.function? = some f) (he : e.digest = some ⟨a, d⟩)
    (hdata : e.data ≠ []) (hne : ranges ≠ []) (h : ∀ r ∈ ranges, InImage i r) {p : EventData}
    (hp : p.ranges = ranges) :
    ∃ y, Returns (guess s i { event := e, parsed := some p }) y ∧ y.measurement = found s i e a f d ranges := by
  have hrefs := returns_rangeReferences h
  have htrial := returns_tryReferences (s := s) hf he (read_rangeReferences hregions h)
  have hnotEmpty : ¬ ranges.isEmpty = true := by simpa using hne
  rw [guess, found]
  simp only [Option.map_some, Option.getD_some, hp, if_neg hnotEmpty]
  cases hm : conjectured s a (ranges.map (rangeReference i)) (f.digest (ranges.flatMap (bytesAt i))) d with
  | some m =>
      rw [hm] at htrial
      exact ⟨_, hrefs.bind (htrial.bind (.pure _)), rfl⟩
  | none =>
      rw [hm] at htrial
      obtain ⟨y, hy, -, hmeasurement⟩ := exists_returns_guessData (s := s) hf he
        (x := { event := e, parsed := some p, guesses := [f.digest (ranges.flatMap (bytesAt i))] }) rfl rfl hdata
      exact ⟨y, hrefs.bind (htrial.bind hy), hmeasurement⟩

/-! ## Whole explanations -/

theorem returns_readData {p : EventData} (h : Returns (EventData.parse e i.content.size) p) :
    Returns (readData i e) { event := e, parsed := some p } := by
  intro j
  obtain ⟨t, ht⟩ := h j
  refine ⟨t, ?_⟩
  simp only [readData, tryCatch, tryCatchThe, MonadExceptOf.tryCatch, EStateM.tryCatch, Bind.bind, EStateM.bind, ht]
  rfl

theorem exists_returns_namedRanges (i : BiosImage) (p : EventData) : ∃ rs, Returns (namedRanges i p) rs := by
  unfold namedRanges
  split
  · exact ⟨_, .pure _⟩
  · exact ⟨_, (Returns.modify _).bind (.pure _)⟩

/-- The nodes around an explanation are found if its measurement resolves, and change nothing else. -/
theorem exists_returns_relate {x : Explanation}
    (h : ∀ m, x.measurement = some m → ∀ r ∈ m.data.references, r.artifact.number = State.imageNumber →
      ∃ rs, r.resolvedRanges = .ok rs) :
    ∃ y, Returns (relate i x) y ∧ y.measurement = x.measurement := by
  obtain ⟨resolved, hresolved⟩ : ∃ resolved, (((x.measurement.map fun m => m.data.references).getD []).filter
      fun r => r.artifact.number = State.imageNumber).mapM Reference.resolvedRanges = .ok resolved := by
    refine exists_mapM_of_ok fun r hr => ?_
    obtain ⟨hmem, hnumber⟩ := List.mem_filter.mp hr
    cases hm : x.measurement with
    | none =>
        rw [hm] at hmem
        cases hmem
    | some m =>
        rw [hm] at hmem
        exact h m hm r hmem (of_decide_eq_true hnumber)
  have hmeasured : x.measuredRanges = .ok resolved.flatten := bind_eq_ok_iff.mpr ⟨resolved, hresolved, rfl⟩
  have hattempt : Returns (attempt x.measuredRanges : Journal.Run ByteRanges) resolved.flatten := .attempt hmeasured
  unfold relate
  cases x.parsed with
  | none => exact ⟨_, hattempt.bind ((Returns.pure _).bind (.pure _)), rfl⟩
  | some p =>
      obtain ⟨named, hnamed⟩ := exists_returns_namedRanges i p
      exact ⟨_, hattempt.bind (Returns.bind (hnamed.bind (.pure _)) (.pure _)), rfl⟩

/-- A measurement that was found to have the digest of an event. -/
theorem conjectured_eq_some_iff {rs : References} {digest : Bytes} {m : Evidence} :
    conjectured s a rs digest d = some m ↔ digest = d ∧ m = conjecture s (.referenced rs (some a)) := by
  rw [conjectured, Option.ite_none_right_eq_some, Option.some.injEq, eq_comm (a := m)]

theorem found_eq_some_iff {m : Evidence} : found s i e a f d ranges = some m ↔
    (f.digest (ranges.flatMap (bytesAt i)) = d ∧
        m = conjecture s (.referenced (ranges.map (rangeReference i)) (some a))) ∨
      f.digest (ranges.flatMap (bytesAt i)) ≠ d ∧ f.digest e.data = d ∧
        m = conjecture s (.referenced (dataReferences e.data) (some a)) := by
  rw [found, Option.or_eq_some_iff, conjectured_eq_some_iff, conjectured_eq_some_iff]
  refine or_congr_right (and_congr_left' ?_)
  rw [conjectured]
  split <;> simp [*]

theorem exists_found_eq_some_iff : (∃ m, found s i e a f d ranges = some m) ↔
    f.digest (ranges.flatMap (bytesAt i)) = d ∨ f.digest e.data = d := by
  simp only [found_eq_some_iff]
  by_cases hlisted : f.digest (ranges.flatMap (bytesAt i)) = d
  · simp [hlisted]
  · simp [hlisted]

/-- A measurement that is found can be read, and its bytes have the digest of the event. -/
theorem raw_of_found (hregions : i.regions = none) (hdata : e.data ≠ []) (h : ∀ r ∈ ranges, InImage i r) {m : Evidence}
    (hm : found s i e a f d ranges = some m) : ∃ b, m.data.raw = .ok b ∧ f.digest b = d := by
  rcases found_eq_some_iff.mp hm with ⟨hdigest, rfl⟩ | ⟨-, hdigest, rfl⟩
  · exact ⟨_, read_rangeReferences hregions h, hdigest⟩
  · exact ⟨_, read_dataReferences hdata, hdigest⟩

theorem resolves_of_found (hregions : i.regions = none) (h : ∀ r ∈ ranges, InImage i r) {m : Evidence}
    (hm : found s i e a f d ranges = some m) {r : Reference} (hr : r ∈ m.data.references)
    (hnumber : r.artifact.number = State.imageNumber) : ∃ rs, r.resolvedRanges = .ok rs := by
  rcases found_eq_some_iff.mp hm with ⟨-, rfl⟩ | ⟨-, -, rfl⟩
  · obtain ⟨p, hp, rfl⟩ := List.mem_map.mp hr
    exact ⟨_, resolvedRanges_rangeReference hregions (h p hp)⟩
  · rw [List.mem_singleton.mp hr] at hnumber
    cases hnumber

/-- An event that lists ranges of the mapped image, and the digest that it reports. -/
structure Lists (i : BiosImage) (e : ReportedEvent) (description : Bytes) (ranges : ByteRanges) : Prop where
  isBlob : EventData.IsBlobEvent e
  short : description.length ≤ 255
  nulFree : 0 ∉ description
  nonempty : ranges ≠ []
  inImage : ∀ r ∈ ranges, InImage i r
  data : e.data = EventData.writeBlob description (ranges.map fun r => (true, r))

theorem Lists.data_ne_nil {description : Bytes} (h : Lists i e description ranges) : e.data ≠ [] := by
  rw [h.data]
  exact List.cons_ne_nil _ _

/-- An explanation of listed ranges finds the ranges from the last one to the first, or else the data. -/
theorem exists_returns_ofEvent (hi : s.biosImage = some i) (hregions : i.regions = none)
    (hsize : i.content.size < 0x80000000) (hf : a.function? = some f) (he : e.digest = some ⟨a, d⟩) {description : Bytes}
    (h : Lists i e description ranges) :
    ∃ x, Returns (ofEvent s e) x ∧ x.measurement = found s i e a f d ranges.reverse := by
  have hinside : ∀ r ∈ ranges.reverse, InImage i r := fun r hr => h.inImage r (List.mem_reverse.mp hr)
  have hne : ranges.reverse ≠ [] := fun hnil => h.nonempty (List.reverse_eq_nil_iff.mp hnil)
  have hdata : e.data ≠ [] := h.data_ne_nil
  have hfits : ∀ x ∈ ranges.map fun r => (true, r), EventData.Fits i.content.size x.2 := by
    intro x hx
    obtain ⟨r, hr, rfl⟩ := List.mem_map.mp hx
    exact (h.inImage r hr).fits
  have hsplit := EventData.splitRanges_writeBlob (by omega) h.nulFree hfits
  rw [List.map_map, ← h.data] at hsplit
  -- Here the order is lost: nothing after the parsing turns the ranges round again.
  have hranges : (EventData.splitRanges i.content.size e.data).1 = ranges.reverse := by
    rw [hsplit]
    simp [Function.comp_def]
  obtain ⟨p, hparse, hp⟩ : ∃ p, Returns (EventData.parse e i.content.size) p ∧ p.ranges = ranges.reverse := by
    rw [EventData.parse_of_isBlobEvent h.isBlob]
    exact ⟨_, EventData.returns_ofBlob i.content.size e.data, hranges⟩
  obtain ⟨x, hguess, hx⟩ := exists_returns_guess (s := s) hregions hf he hdata hne hinside hp
  obtain ⟨y, hrelate, hy⟩ := exists_returns_relate (i := i) (x := x) fun m hm r hr hnumber =>
    resolves_of_found hregions hinside (hx ▸ hm) hr hnumber
  refine ⟨y, ?_, hy.trans hx⟩
  rw [ofEvent, hi]
  exact (returns_readData hparse).bind (hguess.bind hrelate)

/-- An event that lists ranges of the mapped image is explained exactly if its digest is that of the bytes of these
ranges from the last one listed to the first, or that of its data. The measured bytes then have that digest. -/
theorem explained_iff_backwards (hi : s.biosImage = some i) (hregions : i.regions = none)
    (hsize : i.content.size < 0x80000000) (hf : a.function? = some f) (he : e.digest = some ⟨a, d⟩) {description : Bytes}
    (h : Lists i e description ranges) :
    ∃ x, Returns (ofEvent s e) x ∧
      ((∃ m, x.measurement = some m) ↔
        f.digest (ranges.reverse.flatMap (bytesAt i)) = d ∨ f.digest e.data = d) ∧
      ∀ m, x.measurement = some m → ∃ b, m.data.raw = .ok b ∧ hashBytes a b = .ok d := by
  have hinside : ∀ r ∈ ranges.reverse, InImage i r := fun r hr => h.inImage r (List.mem_reverse.mp hr)
  have hdata : e.data ≠ [] := h.data_ne_nil
  obtain ⟨x, hx, hmeasurement⟩ := exists_returns_ofEvent hi hregions hsize hf he h
  refine ⟨x, hx, ?_, fun m hm => ?_⟩
  · rw [hmeasurement]
    exact exists_found_eq_some_iff
  · obtain ⟨b, hread, hdigest⟩ := raw_of_found hregions hdata hinside (hmeasurement ▸ hm)
    refine ⟨b, hread, ?_⟩
    simp only [hashBytes, hf, hdigest]

def sampleImage : BiosImage := { BiosImage.empty with content := ⟨#[1, 2, 3, 4]⟩ }

def sampleState : State := { biosImage := some sampleImage }

def sampleRanges : ByteRanges := [⟨0xFFFFFFFC, 1⟩, ⟨0xFFFFFFFD, 1⟩]

/-- An event that lists the first two bytes and reports the digest of some bytes. -/
def sampleListing (measured : Bytes) : ReportedEvent :=
  ⟨0, .firmwareBlob2, EventData.writeBlob [] (sampleRanges.map fun r => (true, r)),
    some ⟨.sha1, HashFunction.sha1.digest measured⟩⟩

theorem lists_sampleListing (measured : Bytes) : Lists sampleImage (sampleListing measured) [] sampleRanges where
  isBlob := ⟨rfl, .inr rfl⟩
  short := by decide
  nulFree := by decide
  nonempty := by decide
  inImage := by
    intro r hr
    simp only [sampleRanges, List.mem_cons, List.not_mem_nil, or_false] at hr
    rcases hr with rfl | rfl
    · exact ⟨by decide, by decide⟩
    · exact ⟨by decide, by decide⟩
  data := rfl

/-- Two ranges are explained if their digest was made from the last one to the first. -/
theorem explained_iff_backwards_sample : sampleState.biosImage = some sampleImage ∧ sampleImage.regions = none ∧
    Lists sampleImage (sampleListing [2, 1]) [] sampleRanges ∧
    ∃ x, Returns (ofEvent sampleState (sampleListing [2, 1])) x ∧
      ∃ m b, x.measurement = some m ∧ m.data.raw = .ok b ∧
        hashBytes .sha1 b = .ok (HashFunction.sha1.digest [2, 1]) := by
  have hlists := lists_sampleListing [2, 1]
  obtain ⟨x, hx, hiff, hraw⟩ := explained_iff_backwards (s := sampleState) (i := sampleImage) (a := .sha1)
    (f := .sha1) rfl rfl (by decide) (by decide) rfl hlists
  have hbackwards : sampleRanges.reverse.flatMap (bytesAt sampleImage) = [2, 1] := by decide +kernel
  obtain ⟨m, hm⟩ := hiff.mpr (.inl (congrArg HashFunction.sha1.digest hbackwards))
  obtain ⟨b, hb, hdigest⟩ := hraw m hm
  exact ⟨rfl, rfl, hlists, x, hx, m, b, hm, hb, hdigest⟩

/-- Two ranges whose digest was made in the order in which they are listed are not explained. -/
theorem listedOrder_unexplained : ¬ ∀ (s : State) (i : BiosImage) (a : Algorithm) (f : HashFunction)
    (e : ReportedEvent) (description : Bytes) (ranges : ByteRanges), s.biosImage = some i → i.regions = none →
    i.content.size < 0x80000000 → a.function? = some f → Lists i e description ranges →
    e.digest = some ⟨a, f.digest (ranges.flatMap (bytesAt i))⟩ →
    ∃ x m b, Returns (ofEvent s e) x ∧ x.measurement = some m ∧ m.data.raw = .ok b ∧
      hashBytes a b = .ok (f.digest (ranges.flatMap (bytesAt i))) := by
  intro hclaim
  have hlisted : HashFunction.sha1.digest (sampleRanges.reverse.flatMap (bytesAt sampleImage)) ≠
      HashFunction.sha1.digest (sampleRanges.flatMap (bytesAt sampleImage)) := by decide +kernel
  have hlists := lists_sampleListing (sampleRanges.flatMap (bytesAt sampleImage))
  have hdata : HashFunction.sha1.digest (sampleListing (sampleRanges.flatMap (bytesAt sampleImage))).data ≠
      HashFunction.sha1.digest (sampleRanges.flatMap (bytesAt sampleImage)) := by decide +kernel
  obtain ⟨x, m, b, hx, hm, -⟩ := hclaim sampleState sampleImage .sha1 .sha1 _ [] sampleRanges rfl rfl (by decide)
    (by decide) hlists rfl
  obtain ⟨y, hy, hmeasurement⟩ := exists_returns_ofEvent (s := sampleState) (i := sampleImage) (a := .sha1)
    (f := .sha1) rfl rfl (by decide) (by decide) rfl hlists
  obtain ⟨t, ht⟩ := hx #[]
  obtain ⟨u, hu⟩ := hy #[]
  obtain rfl : x = y := by
    rw [ht] at hu
    exact (EStateM.Result.ok.inj hu).1
  rw [hmeasurement] at hm
  rcases exists_found_eq_some_iff.mp ⟨m, hm⟩ with hdigest | hdigest
  · exact hlisted hdigest
  · exact hdata hdigest

end Explanation
end MeasuredBoot
