import MeasuredBoot.Proofs.Reproduce.Recorded

/-!
# Logs that need no correction

If all measurements of a log lead to the expected digest just as they are, the search has an answer,
unless the first measurement is that of the data with the register and the bounds leave not even the
recorded value to be tried: with no countdown and no flipped bits the first measurement can only be
disabled.
-/
namespace MeasuredBoot.Pcr0

/-! ## The recorded value of the register -/

/-- The recorded value is among those that are tried, if a value is searched at all. -/
def TriesRecorded (flows : FlowCatalog) (bounds : RegisterBounds) (ms : List CommandRecord) : Prop :=
  ∀ r, ms.head? = some r → isDataMeasurement flows r = .ok true →
    0 < bounds.maxCountdown ∨ bounds.combinatorial = true

/-- With the recorded value of the register the digest of the data is the recorded one. -/
theorem withValue_recorded {a : Algorithm} {r : CommandRecord} (hextend : IsExtend a r.command)
    {data register digest : Bytes} (hcommand : ∃ b, r.command = .extend 0 b digest ∧
      hashBytes b data = .ok digest) (hdata : dataOf r = .ok (data, register))
    (h8 : register.length = 8) (htake : data.take 8 = register) (rest : List CommandRecord) :
    withValue a (r :: rest) (some register.toNatLE) =
      .ok ((r :: rest).map CommandRecord.command) := by
  obtain ⟨b, hb, hhash⟩ := hcommand
  obtain ⟨digest', ha⟩ := hextend
  obtain ⟨-, rfl, rfl⟩ := Command.extend.inj (ha.symm.trans hb)
  have hdigest : RegisterSearch.dataDigest data (RegisterSearch.bytes register.toNatLE) a =
      .ok digest' := by
    rw [RegisterSearch.dataDigest, RegisterSearch.bytes_toNatLE h8, ← htake, List.take_append_drop]
    exact hhash
  rw [withValue_some hdata hdigest, List.map_cons, ha]

section Recorded
variable {flows : FlowCatalog} {records : List CommandRecord} {a : Algorithm} {bounds : Pcr0Bounds}

theorem exists_value_unmodified (hms : LegibleAll flows a (measurements records a))
    (hflips : bounds.combinatorial = true → 0 ≤ bounds.maxFlips)
    (htries : TriesRecorded flows bounds.toRegisterBounds (measurements records a)) :
    ∃ v, AdmitsValue flows bounds.toRegisterBounds (measurements records a) v ∧
      withValue a (measurements records a) v =
        .ok ((measurements records a).map CommandRecord.command) := by
  cases hmeasured : measurements records a with
  | nil => exact ⟨none, rfl, rfl⟩
  | cons r rest =>
      rw [hmeasured] at hms htries
      obtain ⟨hextend, hlegible⟩ := hms r (by simp)
      obtain his | ⟨his, b, data, register, digest, hb, hdata, h8, htake, hhash⟩ := hlegible
      · exact ⟨none, (admitsValue_of_other his rest).mpr rfl, withValue_none a (r :: rest)⟩
      · refine ⟨some register.toNatLE, (admitsValue_of_data his hdata rest).mpr ⟨_, rfl, ?_⟩,
          withValue_recorded hextend ⟨b, hb, hhash⟩ hdata h8 htake rest⟩
        exact (RegisterSearch.admissible_self (RegisterSearch.toNatLE_lt_of_length h8) hflips).mpr
          (htries r rfl his)

/-- If the recorded value is not tried, admissible corrections disable the first measurement. -/
theorem zero_mem_disabled {c : Corrections} (hc : Admissible flows bounds records a c)
    (htries : ¬ TriesRecorded flows bounds.toRegisterBounds (measurements records a)) :
    0 ∈ c.disabled := by
  by_contra hkept
  simp only [TriesRecorded, not_forall, not_or] at htries
  obtain ⟨r, hfirst, his, hcountdown, hcombinatorial⟩ := htries
  have henabled : firstEnabled (measurements records a) c.disabled = some r := by
    cases hmeasured : measurements records a with
    | nil =>
        rw [hmeasured] at hfirst
        cases hfirst
    | cons q rest =>
        rw [hmeasured] at hfirst
        cases hfirst
        simp [firstEnabled, List.zipIdx_cons, hkept]
  have hregister := hc.register
  rw [henabled, AdmitsRegister] at hregister
  simp only [his] at hregister
  obtain ⟨data, recorded, -, v, -, -, hlt | ⟨hon, -⟩⟩ := hregister
  · have hnonneg : (0 : Int) ≤ RegisterSearch.countdown recorded.toNatLE v := Int.natCast_nonneg _
    omega
  · exact hcombinatorial hon

/-- If the recorded value is not tried and no measurement may be disabled, the search answers nothing. -/
theorem reproduce_untried (hms : LegibleAll flows a (measurements records a)) {f : HashFunction}
    (hf : a.function? = some f) (hflips : bounds.combinatorial = true → 0 ≤ bounds.maxFlips)
    (htries : ¬ TriesRecorded flows bounds.toRegisterBounds (measurements records a))
    (hdisabled : bounds.maxDisabled = 0) (expected : Bytes) :
    Returns (reproduce flows records a expected bounds) none := by
  obtain ⟨found, hreturns, -, hfirst⟩ := reproduce_of_legible hf hflips hms expected
  cases found with
  | none => exact hreturns
  | some c =>
      have hadmissible := (hfirst c rfl).admissible
      have hfew := hadmissible.disabled_few
      have hlength := List.length_pos_of_mem (zero_mem_disabled hadmissible htries)
      omega

/-- If the measurements of a recorded log lead to the expected digest as they are, from a start at one of
the localities, the search has an answer provided that it tries the recorded value of the register; if it
does not try it, every answer leaves out the first measurement. -/
theorem reproduce_unmodified (h : Recorded flows records) {f : HashFunction} (hf : a.function? = some f)
    (hdisabled : 0 ≤ bounds.maxDisabled) (hswaps : 0 ≤ bounds.maxSwaps) (hflips : 0 ≤ bounds.maxFlips)
    {locality : Int} (hl : locality = 0 ∨ locality = 3) {expected : Bytes}
    (hreplay : Tpm.replay ((measurements records a).map CommandRecord.command) locality a =
      .ok expected) :
    ∃ found, Returns (reproduce flows records a expected bounds) found ∧
      (TriesRecorded flows bounds.toRegisterBounds (measurements records a) → found ≠ none) ∧
      (¬ TriesRecorded flows bounds.toRegisterBounds (measurements records a) →
        ∀ c, found = some c → 0 ∈ c.disabled) := by
  have hms := legibleAll_of_recorded h a
  obtain ⟨found, hreturns, hnone, hfirst⟩ := reproduce_of_legible hf (fun _ => hflips) hms expected
  refine ⟨found, hreturns, fun htries hnot => ?_, fun htries c hc => ?_⟩
  · obtain ⟨v, hv, hcs⟩ := exists_value_unmodified hms (fun _ => hflips) htries
    exact hnone.mp hnot _ (admissible_inOrder hl hdisabled hswaps hv) (reproduces_inOrder hcs hreplay)
  · exact zero_mem_disabled (hfirst c hc).admissible htries

end Recorded

theorem exists_sample_digest : ∃ expected,
    Tpm.replay ((measurements sampleRecords .sha1).map CommandRecord.command) 3 .sha1 = .ok expected := by
  have hok : (Tpm.replay ((measurements sampleRecords .sha1).map CommandRecord.command) 3
      .sha1).toBool = true := by decide +kernel
  cases hreplay : Tpm.replay ((measurements sampleRecords .sha1).map CommandRecord.command) 3 .sha1 with
  | ok expected => exact ⟨expected, rfl⟩
  | error f =>
      rw [hreplay] at hok
      cases hok

theorem reproduce_unmodified_sample : ∃ expected,
    Tpm.replay ((measurements sampleRecords .sha1).map CommandRecord.command) 3 .sha1 = .ok expected ∧
      ∃ found, Returns (reproduce sampleFlows sampleRecords .sha1 expected {}) found ∧
        (TriesRecorded sampleFlows {} (measurements sampleRecords .sha1) → found ≠ none) ∧
        (¬ TriesRecorded sampleFlows {} (measurements sampleRecords .sha1) →
          ∀ c, found = some c → 0 ∈ c.disabled) := by
  obtain ⟨expected, hreplay⟩ := exists_sample_digest
  exact ⟨expected, hreplay, reproduce_unmodified recorded_sample (by rfl) (by decide) (by decide)
    (by decide) (Or.inr rfl) hreplay⟩

/-- The bounds that leave no value of the register to be tried, and no measurement to be disabled. -/
def noBounds : Pcr0Bounds := { maxCountdown := 0, maxDisabled := 0 }

/-- The measurement of the sample log leads to the expected digest as it is, yet the search has no
answer. -/
theorem unmodified_not_found : Recorded sampleFlows sampleRecords ∧ ∃ expected,
    Tpm.replay ((measurements sampleRecords .sha1).map CommandRecord.command) 3 .sha1 = .ok expected ∧
      Returns (reproduce sampleFlows sampleRecords .sha1 expected noBounds) none := by
  obtain ⟨expected, hreplay⟩ := exists_sample_digest
  refine ⟨recorded_sample, expected, hreplay, ?_⟩
  have htries : ¬ TriesRecorded sampleFlows noBounds.toRegisterBounds
      (measurements sampleRecords .sha1) := by
    intro htries
    obtain ⟨r, data, register, hr, his, -, -⟩ := exists_sample_measurement
    rcases htries r (by rw [hr]; rfl) his with hlt | hon
    · cases hlt
    · cases hon
  exact reproduce_untried (legibleAll_of_recorded recorded_sample _) (by rfl) (by rintro ⟨⟩) htries rfl
    expected

end MeasuredBoot.Pcr0
