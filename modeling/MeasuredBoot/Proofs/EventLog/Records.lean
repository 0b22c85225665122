import MeasuredBoot.Proofs.EventLog.Fields

/-!
# Records of a written log

A record fits if its numbers do not exceed their fields and its digests have the sizes that are read.
`Next` says which record a reader takes and how the reader stands afterwards. It is exact: reading gives
the events of a record and goes on after its bytes if and only if that record is next. What stands behind
the bytes of a record has no part in it, and no other record can be next in its place.
-/
namespace MeasuredBoot.BinaryLog

/-! ## Written records that can be read back -/

/-- A record whose numbers fit their fields, with a digest of the size of SHA-1. -/
structure LegacyRecord.Fits (r : LegacyRecord) : Prop where
  pcr : r.pcr < 2 ^ 32
  type : r.type < 2 ^ 32
  digest : r.digest.length = 20
  data : r.data.length < 2 ^ 32

/-- True of a record that declares the algorithms of a log, if it is the first one. -/
def LegacyRecord.Declares (r : LegacyRecord) : Prop :=
  (⟨r.type⟩ : EventType) = .noAction ∧ specSignature.isPrefixOf r.data

/-- The event of a record that declares algorithms. -/
def LegacyRecord.bareEvent (r : LegacyRecord) : ReportedEvent := ⟨r.pcr, ⟨r.type⟩, r.data, none⟩

/-- A record whose numbers fit their fields, with digests of the declared sizes. -/
structure AgileRecord.Fits (sizes : DigestSizes) (r : AgileRecord) : Prop where
  pcr : r.pcr < 2 ^ 32
  type : r.type < 2 ^ 32
  count : r.digests.length < 2 ^ 32
  digests : ∀ x ∈ r.digests, IsDeclared sizes x
  data : r.data.length < 2 ^ 32

theorem AgileRecord.bytes_eq (r : AgileRecord) : r.bytes =
    Bytes.ofNatLE 4 r.pcr ++ Bytes.ofNatLE 4 r.type ++ Bytes.ofNatLE 4 r.digests.length
      ++ r.digests.flatMap writeDigest ++ writeData r.data := rfl

theorem AgileRecord.events_eq (r : AgileRecord) :
    r.events = spread r.pcr ⟨r.type⟩ r.data (r.digests.map digestOf) := rfl

theorem spread_ne_nil (pcr : Int) (type : EventType) (data : Bytes) (digests : List Digest) :
    spread pcr type data digests ≠ [] := by
  cases digests with
  | nil => simp [spread]
  | cons d later => simp [spread]

/-! ## Headers -/

theorem exists_number_of_le_length {b : Bytes} (h : 4 ≤ b.length) :
    ∃ n later, n < 2 ^ 32 ∧ b = Bytes.ofNatLE 4 n ++ later := by
  have hlength : (b.take 4).length = 4 := by simp [h]
  have hlt := Bytes.toNatLE_lt (b.take 4)
  have heq := Bytes.ofNatLE_toNatLE (b.take 4)
  rw [hlength] at hlt heq
  exact ⟨Bytes.toNatLE (b.take 4), b.drop 4, hlt, by rw [heq, List.take_append_drop]⟩

theorem number_in_middle {front back : Bytes} {place n : Nat} (hplace : front.length = place)
    (hn : n < 2 ^ 32) :
    Bytes.toNatLE (((front ++ (Bytes.ofNatLE 4 n ++ back)).drop place).take 4) = n := by
  rw [List.drop_left' hplace, List.take_left' (Bytes.length_ofNatLE 4 n), Bytes.toNatLE_ofNatLE_of_lt hn]

theorem isEmpty_header {header : Bytes} {n : Nat} (h : header.length = n + 1) (later : Bytes) :
    (header ++ later).isEmpty = false := by
  rw [List.isEmpty_eq_false_iff]
  exact List.append_ne_nil_of_left_ne_nil (List.ne_nil_of_length_eq_add_one h) later

theorem length_take_ne {b : Bytes} {size : Nat} (h : b.length < size) : (b.take size).length ≠ size := by
  rw [List.length_take]
  omega

theorem readLegacy_header {pcr type size : Nat} {digest : Bytes} (hpcr : pcr < 2 ^ 32)
    (htype : type < 2 ^ 32) (hdigest : digest.length = 20) (hsize : size < 2 ^ 32) (later : Bytes)
    (sizes : Option DigestSizes) (first : Bool) :
    readLegacy ⟨Bytes.ofNatLE 4 pcr ++ (Bytes.ofNatLE 4 type ++ (digest ++ Bytes.ofNatLE 4 size)) ++ later,
        sizes, first⟩ = (do
      let (data, rest) ← take size later
      if first && (⟨type⟩ : EventType) = .noAction && specSignature.isPrefixOf data then
        let declared ← parseSpec data
        return ([⟨pcr, ⟨type⟩, data, none⟩], ⟨rest, some declared, false⟩)
      return ([⟨pcr, ⟨type⟩, data, some ⟨.sha1, digest⟩⟩], ⟨rest, none, false⟩)) := by
  let numbers := Bytes.ofNatLE 4 pcr ++ Bytes.ofNatLE 4 type
  have hnumbers : numbers.length = 8 := by simp [numbers]
  obtain ⟨header, hheader⟩ : ∃ header : Bytes, header =
      Bytes.ofNatLE 4 pcr ++ (Bytes.ofNatLE 4 type ++ (digest ++ Bytes.ofNatLE 4 size)) := ⟨_, rfl⟩
  have hparts : header = numbers ++ (digest ++ Bytes.ofNatLE 4 size) := by
    simp [hheader, numbers, List.append_assoc]
  have hlength : header.length = 32 := by simp [hheader, hdigest]
  have hne : (header ++ later).isEmpty = false := isEmpty_header hlength later
  have hfirst : Bytes.toNatLE (header.take 4) = pcr := by
    rw [hheader, List.take_left' (Bytes.length_ofNatLE 4 pcr), Bytes.toNatLE_ofNatLE_of_lt hpcr]
  have hsecond : Bytes.toNatLE ((header.drop 4).take 4) = type := by
    rw [hheader, number_in_middle (Bytes.length_ofNatLE 4 pcr) htype]
  have hthird : (header.drop 8).take 20 = digest := by
    rw [hparts, List.drop_left' hnumbers, List.take_left' hdigest]
  have hlast : Bytes.toNatLE (header.drop 28) = size := by
    rw [hparts, ← List.append_assoc, List.drop_left' (by simp [hnumbers, hdigest]),
      Bytes.toNatLE_ofNatLE_of_lt hsize]
  rw [← hheader, readLegacy]
  simp only [hne, List.take_left' hlength, List.drop_left' hlength, hlength, hfirst, hsecond, hthird,
    hlast]
  rfl

theorem readAgile_header {pcr type count : Nat} (hpcr : pcr < 2 ^ 32) (htype : type < 2 ^ 32)
    (hcount : count < 2 ^ 32) (later : Bytes) (known : Option DigestSizes) (first : Bool)
    (sizes : DigestSizes) :
    readAgile ⟨Bytes.ofNatLE 4 pcr ++ (Bytes.ofNatLE 4 type ++ Bytes.ofNatLE 4 count) ++ later, known,
        first⟩ sizes = (do
      let (digests, b) ← readDigests sizes count later
      let (data, rest) ← takeData b
      return (spread pcr ⟨type⟩ data digests, ⟨rest, known, first⟩)) := by
  obtain ⟨header, hheader⟩ : ∃ header : Bytes, header =
      Bytes.ofNatLE 4 pcr ++ (Bytes.ofNatLE 4 type ++ Bytes.ofNatLE 4 count) := ⟨_, rfl⟩
  have hlength : header.length = 12 := by simp [hheader]
  have hne : (header ++ later).isEmpty = false := isEmpty_header hlength later
  have hfirst : Bytes.toNatLE (header.take 4) = pcr := by
    rw [hheader, List.take_left' (Bytes.length_ofNatLE 4 pcr), Bytes.toNatLE_ofNatLE_of_lt hpcr]
  have hsecond : Bytes.toNatLE ((header.drop 4).take 4) = type := by
    rw [hheader, number_in_middle (Bytes.length_ofNatLE 4 pcr) htype]
  have hlast : Bytes.toNatLE (header.drop 8) = count := by
    rw [hheader, ← List.append_assoc, List.drop_left' (by simp), Bytes.toNatLE_ofNatLE_of_lt hcount]
  rw [← hheader, readAgile]
  simp only [hne, List.take_left' hlength, List.drop_left' hlength, hlength, hfirst, hsecond, hlast]
  rfl

/-! ## Reading a written record -/

theorem LegacyRecord.bytes_append (r : LegacyRecord) (rest : Bytes) : r.bytes ++ rest =
    Bytes.ofNatLE 4 r.pcr ++ (Bytes.ofNatLE 4 r.type ++ (r.digest ++ Bytes.ofNatLE 4 r.data.length))
      ++ (r.data ++ rest) := by
  simp only [LegacyRecord.bytes, writeData, List.append_assoc]

theorem LegacyRecord.declares_iff (r : LegacyRecord) (first : Bool) :
    (first && (⟨r.type⟩ : EventType) = .noAction && specSignature.isPrefixOf r.data) = true ↔
      first = true ∧ r.Declares := by
  simp only [LegacyRecord.Declares, Bool.and_eq_true, decide_eq_true_eq, and_assoc]

theorem readLegacy_declaring {r : LegacyRecord} (h : r.Fits) (hdeclares : r.Declares) (rest : Bytes)
    (sizes : Option DigestSizes) : readLegacy ⟨r.bytes ++ rest, sizes, true⟩ =
      (fun declared => ([r.bareEvent], ⟨rest, some declared, false⟩)) <$> parseSpec r.data := by
  have hdata : take r.data.length (r.data ++ rest) = .ok (r.data, rest) := take_eq_ok_iff.mpr ⟨rfl, rfl⟩
  rw [r.bytes_append, readLegacy_header h.pcr h.type h.digest h.data, hdata, ok_bind]
  simp only [if_pos ((r.declares_iff true).mpr ⟨rfl, hdeclares⟩), map_eq_pure_bind]
  rfl

theorem readLegacy_single {r : LegacyRecord} (h : r.Fits) {first : Bool}
    (hdeclares : ¬ (first = true ∧ r.Declares)) (rest : Bytes) (sizes : Option DigestSizes) :
    readLegacy ⟨r.bytes ++ rest, sizes, first⟩ = .ok ([r.event], ⟨rest, none, false⟩) := by
  have hdata : take r.data.length (r.data ++ rest) = .ok (r.data, rest) := take_eq_ok_iff.mpr ⟨rfl, rfl⟩
  rw [r.bytes_append, readLegacy_header h.pcr h.type h.digest h.data, hdata, ok_bind]
  simp only [if_neg ((r.declares_iff first).not.mpr hdeclares)]
  rfl

theorem readLegacy_of_short {b : Bytes} (hne : b ≠ []) (h : b.length < 32) (sizes : Option DigestSizes)
    (first : Bool) : readLegacy ⟨b, sizes, first⟩ = .error (.log .truncatedHeader) := by
  have hempty : b.isEmpty = false := List.isEmpty_eq_false_iff.mpr hne
  rw [readLegacy]
  simp only [hempty, if_pos (length_take_ne h)]
  rfl

/-- What was read with a single digest is the written form of a record that fits. -/
theorem exists_of_readLegacy {b : Bytes} {sizes : Option DigestSizes} {first : Bool}
    {events : List ReportedEvent} {next : Reader} (hne : b ≠ [])
    (h : readLegacy ⟨b, sizes, first⟩ = .ok (events, next)) :
    ∃ (r : LegacyRecord) (rest : Bytes), r.Fits ∧ b = r.bytes ++ rest := by
  by_cases hshort : b.length < 32
  · rw [readLegacy_of_short hne hshort] at h
    cases h
  obtain ⟨pcr, b₁, hpcr, rfl⟩ := exists_number_of_le_length (b := b) (by omega)
  simp only [List.length_append, Bytes.length_ofNatLE] at hshort
  obtain ⟨type, b₂, htype, rfl⟩ := exists_number_of_le_length (b := b₁) (by omega)
  simp only [List.length_append, Bytes.length_ofNatLE] at hshort
  obtain ⟨digest, b₃, hdigest, rfl⟩ : ∃ digest b₃ : Bytes, digest.length = 20 ∧ b₂ = digest ++ b₃ :=
    ⟨b₂.take 20, b₂.drop 20, by rw [List.length_take]; omega, (List.take_append_drop 20 b₂).symm⟩
  simp only [List.length_append] at hshort
  obtain ⟨size, b₄, hsize, rfl⟩ := exists_number_of_le_length (b := b₃) (by omega)
  have hbytes : Bytes.ofNatLE 4 pcr ++ (Bytes.ofNatLE 4 type ++ (digest ++ (Bytes.ofNatLE 4 size ++ b₄))) =
      Bytes.ofNatLE 4 pcr ++ (Bytes.ofNatLE 4 type ++ (digest ++ Bytes.ofNatLE 4 size)) ++ b₄ := by
    simp only [List.append_assoc]
  rw [hbytes, readLegacy_header hpcr htype hdigest hsize] at h
  obtain ⟨⟨data, rest⟩, hdata, -⟩ := bind_eq_ok_iff.mp h
  obtain ⟨rfl, rfl⟩ := take_eq_ok_iff.mp hdata
  refine ⟨⟨pcr, type, digest, data⟩, rest, ⟨hpcr, htype, hdigest, hsize⟩, ?_⟩
  rw [hbytes, LegacyRecord.bytes_append]

theorem AgileRecord.bytes_append (r : AgileRecord) (rest : Bytes) : r.bytes ++ rest =
    Bytes.ofNatLE 4 r.pcr ++ (Bytes.ofNatLE 4 r.type ++ Bytes.ofNatLE 4 r.digests.length)
      ++ (r.digests.flatMap writeDigest ++ (writeData r.data ++ rest)) := by
  simp only [AgileRecord.bytes_eq, List.append_assoc]

theorem readAgile_append {sizes : DigestSizes} {r : AgileRecord} (h : r.Fits sizes) (rest : Bytes)
    (known : Option DigestSizes) (first : Bool) :
    readAgile ⟨r.bytes ++ rest, known, first⟩ sizes = .ok (r.events, ⟨rest, known, first⟩) := by
  rw [r.bytes_append, readAgile_header h.pcr h.type h.count, readDigests_append h.digests, ok_bind]
  simp only [takeData_eq_ok_iff.mpr ⟨h.data, rfl⟩, ok_bind]
  rfl

theorem readAgile_of_short {b : Bytes} (hne : b ≠ []) (h : b.length < 12) (known : Option DigestSizes)
    (first : Bool) (sizes : DigestSizes) :
    readAgile ⟨b, known, first⟩ sizes = .error (.log .truncatedHeader) := by
  have hempty : b.isEmpty = false := List.isEmpty_eq_false_iff.mpr hne
  rw [readAgile]
  simp only [hempty, if_pos (length_take_ne h)]
  rfl

theorem exists_of_readAgile {b : Bytes} {known : Option DigestSizes} {first : Bool} {sizes : DigestSizes}
    {events : List ReportedEvent} {next : Reader} (hne : b ≠ [])
    (h : readAgile ⟨b, known, first⟩ sizes = .ok (events, next)) :
    ∃ (r : AgileRecord) (rest : Bytes), r.Fits sizes ∧ b = r.bytes ++ rest := by
  by_cases hshort : b.length < 12
  · rw [readAgile_of_short hne hshort] at h
    cases h
  obtain ⟨pcr, b₁, hpcr, rfl⟩ := exists_number_of_le_length (b := b) (by omega)
  simp only [List.length_append, Bytes.length_ofNatLE] at hshort
  obtain ⟨type, b₂, htype, rfl⟩ := exists_number_of_le_length (b := b₁) (by omega)
  simp only [List.length_append, Bytes.length_ofNatLE] at hshort
  obtain ⟨count, b₃, hcount, rfl⟩ := exists_number_of_le_length (b := b₂) (by omega)
  have hbytes : Bytes.ofNatLE 4 pcr ++ (Bytes.ofNatLE 4 type ++ (Bytes.ofNatLE 4 count ++ b₃)) =
      Bytes.ofNatLE 4 pcr ++ (Bytes.ofNatLE 4 type ++ Bytes.ofNatLE 4 count) ++ b₃ := by
    simp only [List.append_assoc]
  rw [hbytes, readAgile_header hpcr htype hcount] at h
  obtain ⟨⟨found, b₄⟩, hdigests, hlater⟩ := bind_eq_ok_iff.mp h
  obtain ⟨⟨data, rest⟩, hdata, -⟩ := bind_eq_ok_iff.mp hlater
  obtain ⟨digests, rfl, rfl, hdeclared, hread⟩ := exists_of_readDigests hdigests
  obtain ⟨hlt, hwritten⟩ := takeData_eq_ok_iff.mp hdata
  refine ⟨⟨pcr, type, digests, data⟩, rest, ⟨hpcr, htype, hcount, hdeclared, hlt⟩, ?_⟩
  rw [hbytes, AgileRecord.bytes_append, hread]
  simp only at hwritten ⊢
  rw [hwritten]

/-! ## The record that is next -/

/-- A record of either layout; the first record of a log may declare the algorithms of the others. -/
inductive Record where
  | single (r : LegacyRecord)
  | declaring (r : LegacyRecord)
  | counted (r : AgileRecord)

namespace Record

def bytes : Record → Bytes
  | single r => r.bytes
  | declaring r => r.bytes
  | counted r => r.bytes

def events : Record → List ReportedEvent
  | single r => [r.event]
  | declaring r => [r.bareEvent]
  | counted r => r.events

theorem bytes_ne_nil (w : Record) : w.bytes ≠ [] := by
  apply List.ne_nil_of_length_pos
  cases w with
  | single r =>
      rw [bytes, LegacyRecord.length_bytes]
      omega
  | declaring r =>
      rw [bytes, LegacyRecord.length_bytes]
      omega
  | counted r =>
      simp only [bytes, AgileRecord.bytes, List.length_append, Bytes.length_ofNatLE]
      omega

theorem events_ne_nil (w : Record) : w.events ≠ [] := by
  cases w with
  | single r => simp [events]
  | declaring r => simp [events]
  | counted r => exact spread_ne_nil _ _ _ _

end Record

/-- A record is next for a reader, which goes on after it with what the record may have declared. -/
inductive Next : Reader → Record → Reader → Prop
  | single {r : LegacyRecord} {rest : Bytes} {first : Bool} (fits : r.Fits)
      (plain : ¬ (first = true ∧ r.Declares)) :
      Next ⟨r.bytes ++ rest, none, first⟩ (.single r) ⟨rest, none, false⟩
  | declaring {r : LegacyRecord} {rest : Bytes} {sizes : DigestSizes} (fits : r.Fits)
      (declares : r.Declares) (spec : parseSpec r.data = .ok sizes) :
      Next ⟨r.bytes ++ rest, none, true⟩ (.declaring r) ⟨rest, some sizes, false⟩
  | counted {r : AgileRecord} {rest : Bytes} {sizes : DigestSizes} {first : Bool} (fits : r.Fits sizes) :
      Next ⟨r.bytes ++ rest, some sizes, first⟩ (.counted r) ⟨rest, some sizes, first⟩

namespace Next
variable {r next : Reader} {w : Record}

theorem rest_eq (h : Next r w next) : r.rest = w.bytes ++ next.rest := by
  cases h with
  | single => rfl
  | declaring => rfl
  | counted => rfl

theorem frame (h : Next r w next) (rest : Bytes) :
    Next { r with rest := w.bytes ++ rest } w { next with rest := rest } := by
  cases h with
  | single fits plain => exact .single fits plain
  | declaring fits declares spec => exact .declaring fits declares spec
  | counted fits => exact .counted fits

theorem of_prefix {p : Bytes} (h : Next { r with rest := p } w next) (hp : p <+: r.rest) :
    ∃ later, Next r w later := by
  obtain ⟨suffix, hrest⟩ := hp
  have hframe := h.frame (next.rest ++ suffix)
  rw [← List.append_assoc, ← h.rest_eq, hrest] at hframe
  exact ⟨_, hframe⟩

theorem length_lt (h : Next r w next) : next.rest.length < r.rest.length := by
  have hpos := List.length_pos_iff.mpr w.bytes_ne_nil
  rw [h.rest_eq, List.length_append]
  omega

theorem readRecord_eq (h : Next r w next) : readRecord r = .ok (w.events, next) := by
  cases h with
  | single fits plain => exact readLegacy_single fits plain _ _
  | declaring fits declares spec =>
      refine (readLegacy_declaring fits declares _ _).trans ?_
      rw [spec]
      rfl
  | counted fits => exact readAgile_append fits _ _ _

/-- Two records that are next have the same bytes. -/
theorem bytes_eq {w' : Record} {next' : Reader} (h : Next r w next) (h' : Next r w' next') :
    w'.bytes = w.bytes := by
  have hread := h.readRecord_eq.symm.trans h'.readRecord_eq
  have hnext : next' = next := by
    injection hread with hpair
    injection hpair with _ hnext
    exact hnext.symm
  have hrest := h'.rest_eq.symm.trans h.rest_eq
  rw [hnext] at hrest
  exact List.append_cancel_right hrest

end Next

theorem readRecord_nil (sizes : Option DigestSizes) (first : Bool) :
    readRecord ⟨[], sizes, first⟩ = .ok ([], ⟨[], sizes, first⟩) := by
  cases sizes with
  | none => rfl
  | some sizes => rfl

/-- Ahead of bytes, reading succeeds only if a record is next. -/
theorem exists_next_of_readRecord {r next : Reader} {events : List ReportedEvent} (hne : r.rest ≠ [])
    (h : readRecord r = .ok (events, next)) : ∃ w, Next r w next ∧ events = w.events := by
  have agree {w : Record} {later : Reader} (hnext : Next r w later) :
      ∃ w, Next r w next ∧ events = w.events := by
    have hread := h.symm.trans hnext.readRecord_eq
    cases hread
    exact ⟨w, hnext, rfl⟩
  obtain ⟨b, sizes, first⟩ := r
  cases sizes with
  | some sizes =>
      obtain ⟨r, rest, hfits, rfl⟩ := exists_of_readAgile hne h
      exact agree (.counted hfits)
  | none =>
      obtain ⟨r, rest, hfits, rfl⟩ := exists_of_readLegacy hne h
      by_cases hdeclares : first = true ∧ r.Declares
      · obtain ⟨rfl, hdeclares⟩ := hdeclares
        have hspec := (readLegacy_declaring hfits hdeclares rest none).symm.trans h
        cases hparse : parseSpec r.data with
        | error f =>
            rw [hparse] at hspec
            cases hspec
        | ok declared => exact agree (.declaring hfits hdeclares hparse)
      · exact agree (.single hfits hdeclares)

theorem onLog_readLegacy (r : Reader) : OnLog (readLegacy r) := by
  rw [readLegacy]
  split
  · exact .ok _
  · dsimp only
    split
    · exact .error ⟨_, rfl⟩
    · refine (onLog_take _ _).bind fun _ _ => ?_
      split
      · exact (onLog_parseSpec _).bind fun _ _ => .ok _
      · exact .ok _

theorem onLog_readAgile (r : Reader) (sizes : DigestSizes) : OnLog (readAgile r sizes) := by
  rw [readAgile]
  split
  · exact .ok _
  · dsimp only
    split
    · exact .error ⟨_, rfl⟩
    · exact (onLog_readDigests _ _ _).bind fun _ _ => (onLog_takeData _).bind fun _ _ => .ok _

theorem onLog_readRecord (r : Reader) : OnLog (readRecord r) := by
  rw [readRecord]
  split
  · exact onLog_readLegacy r
  · exact onLog_readAgile r _

end MeasuredBoot.BinaryLog
