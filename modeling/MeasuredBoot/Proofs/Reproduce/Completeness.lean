import MeasuredBoot.Proofs.Reproduce.Admissible
import MeasuredBoot.Proofs.Reproduce.Legible

/-!
# The search misses nothing

Over legible measurements the search answers the first admissible corrections that lead to the expected
digest, and it answers nothing only if there are none. The search is nested: localities, lists of disabled
measurements, register values, exchanges. Each level goes through a list in a strict order, except that a
register value may come up twice, so the answer is the least one level by level.
-/
namespace MeasuredBoot.Pcr0

theorem map_ofNat_lt {D E : Combination} (h : D < E) : D.map Int.ofNat < E.map Int.ofNat := by
  induction h with
  | nil => exact .nil
  | rel h => exact .rel (Int.ofNat_lt.mpr h)
  | cons _ ih => exact .cons ih

def LegibleAll (flows : FlowCatalog) (a : Algorithm) (rs : List CommandRecord) : Prop :=
  ∀ r ∈ rs, IsExtend a r.command ∧ Legible flows r

namespace Job

/-- What the search answers for enabled measurements: the first register value and, with it, the first
exchanges that lead to the expected digest, or nothing if none do. -/
def Answers (j : Job) (rs : List CommandRecord) : Option (List (Nat × Nat) × Option Nat) → Prop
  | none => ∀ v, AdmitsValue j.flows j.bounds.toRegisterBounds rs v →
      ∀ s ∈ Reorder.trials j.bounds.maxSwaps rs.length, ¬ j.Reaches rs s v
  | some (s, v) => AdmitsValue j.flows j.bounds.toRegisterBounds rs v ∧
      s ∈ Reorder.trials j.bounds.maxSwaps rs.length ∧ j.Reaches rs s v ∧
      ∀ w, AdmitsValue j.flows j.bounds.toRegisterBounds rs w →
        ∀ t ∈ Reorder.trials j.bounds.maxSwaps rs.length, j.Reaches rs t w →
          RegisterPrecedes j.bounds.toRegisterBounds rs.head? (v.map Int.ofNat) (w.map Int.ofNat) ∨
            v = w ∧ (s = t ∨ Reorder.Before s t)

def changed (j : Job) (f : HashFunction) (data : Bytes) (cs : List Command) (register : Bytes) :
    List Command :=
  .extend 0 j.algorithm (f.digest (register ++ data.drop 8)) :: cs.drop 1

theorem isExtend_of_mem_changed {j : Job} {f : HashFunction} {data register : Bytes}
    {cs : List Command}
    (hcs : ∀ c ∈ cs, IsExtend j.algorithm c) :
    ∀ c ∈ j.changed f data cs register, IsExtend j.algorithm c := by
  intro c hc
  rcases List.mem_cons.mp hc with rfl | hc
  · exact ⟨_, rfl⟩
  · exact hcs c (List.mem_of_mem_drop hc)

section Verify
variable {j : Job} {f : HashFunction} (hj : j.Able f)
include hj

theorem reaches_iff_leads {rs : List CommandRecord} {v : Option Nat} {cs : List Command}
    (hcs : withValue j.algorithm rs v = .ok cs) (hextend : ∀ c ∈ cs, IsExtend j.algorithm c)
    {s : List (Nat × Nat)} (hs : s ∈ Reorder.trials j.bounds.maxSwaps rs.length) :
    j.Reaches rs s v ↔ j.leads (Reorder.exchangeAll cs s) = true := by
  have hmem : ∀ c ∈ Reorder.exchangeAll cs s, IsExtend j.algorithm c := fun c hc =>
    hextend c (Reorder.mem_of_mem_exchangeAll hc)
  have hpos : ∀ p ∈ s, p.1 < rs.length ∧ p.2 < rs.length := by
    intro p hp
    have := (Reorder.mem_trials.mp hs).2.1 p hp
    omega
  rw [Reaches, hcs, ok_bind, isReached_eq_leads hj hmem]
  constructor
  · exact fun h => Except.ok.inj h.2
  · exact fun h => ⟨hpos, by rw [h]⟩

theorem verifyUnchanged_returns {rs : List CommandRecord}
    (hrs : ∀ r ∈ rs, IsExtend j.algorithm r.command)
    (hnone : ∀ v, AdmitsValue j.flows j.bounds.toRegisterBounds rs v ↔ v = none) :
    ∃ found, Returns (j.verifyUnchanged (rs.map CommandRecord.command)) found ∧ j.Answers rs found := by
  have hextend : ∀ c ∈ rs.map CommandRecord.command, IsExtend j.algorithm c := by
    intro c hc
    obtain ⟨r, hr, rfl⟩ := List.mem_map.mp hc
    exact hrs r hr
  have hcs := withValue_none j.algorithm rs
  have hlen : (rs.map CommandRecord.command).length = rs.length := List.length_map _
  refine ⟨(j.orders (rs.map CommandRecord.command)).map fun s => (s, none), ?_, ?_⟩
  · exact (Returns.attempt (swaps_eq_orders hj hextend)).bind (.pure _)
  · cases horders : j.orders (rs.map CommandRecord.command) with
    | none =>
        intro v hv s hs hreaches
        obtain rfl := (hnone v).mp hv
        have hleads := leads_of_orders_eq_none horders (hlen ▸ hs)
        rw [(reaches_iff_leads hj hcs hextend hs).mp hreaches] at hleads
        cases hleads
    | some s =>
        obtain ⟨hs, hleads, hleast⟩ := least_of_orders horders
        rw [hlen] at hs hleast
        refine ⟨(hnone none).mpr rfl, hs, (reaches_iff_leads hj hcs hextend hs).mpr hleads, ?_⟩
        intro w hw t ht hreaches
        obtain rfl := (hnone w).mp hw
        exact Or.inr ⟨rfl, hleast t ht ((reaches_iff_leads hj hcs hextend ht).mp hreaches)⟩

theorem withRegister_eq_changed (data register : Bytes) (cs : List Command) :
    j.withRegister data register cs = .ok (j.changed f data cs register) := by
  rw [withRegister, RegisterSearch.dataDigest, Tpm.hashBytes_eq hj.hash, ok_bind, changed]
  rfl

theorem checkRegister_eq (data : Bytes) {cs : List Command} (hcs : ∀ c ∈ cs, IsExtend j.algorithm c)
    (register : Bytes) :
    j.checkRegister data cs register = .ok (j.orders (j.changed f data cs register)).isSome := by
  rw [checkRegister, withRegister_eq_changed hj, ok_bind,
    swaps_eq_orders hj (isExtend_of_mem_changed hcs), ok_bind]
  rfl

/-- If a register value is searched, the answer is the first one with which some order leads to the
digest, and the first such order. -/
theorem verifyRegister_returns
    (hflips : j.bounds.combinatorial = true → 0 ≤ j.bounds.maxFlips) {r : CommandRecord}
    {rest : List CommandRecord} (hrs : ∀ x ∈ r :: rest, IsExtend j.algorithm x.command)
    (his : isDataMeasurement j.flows r = .ok true) {data register : Bytes}
    (hdata : dataOf r = .ok (data, register)) (h8 : register.length = 8) :
    ∃ found, Returns (j.verifyRegister ((r :: rest).map CommandRecord.command) data register) found ∧
      j.Answers (r :: rest) found := by
  have hextend : ∀ c ∈ (r :: rest).map CommandRecord.command, IsExtend j.algorithm c := by
    intro c hc
    obtain ⟨x, hx, rfl⟩ := List.mem_map.mp hc
    exact hrs x hx
  have hadmits {v : Option Nat} : AdmitsValue j.flows j.bounds.toRegisterBounds (r :: rest) v ↔
      ∃ w, v = some w ∧ RegisterSearch.Admissible j.bounds.toRegisterBounds register.toNatLE w :=
    admitsValue_of_data his hdata rest
  have hvalue (v : Nat) : withValue j.algorithm (r :: rest) (some v) = .ok (j.changed f data
      ((r :: rest).map CommandRecord.command) (RegisterSearch.bytes v)) := by
    rw [← withRegister_eq_withValue hdata, withRegister_eq_changed hj]
  have hlen (v : Nat) : (j.changed f data ((r :: rest).map CommandRecord.command)
      (RegisterSearch.bytes v)).length = (r :: rest).length := length_of_withValue (hvalue v)
  have hreaches (v : Nat) {s : List (Nat × Nat)}
      (hs : s ∈ Reorder.trials j.bounds.maxSwaps (r :: rest).length) :=
    reaches_iff_leads hj (hvalue v) (isExtend_of_mem_changed hextend) hs
  have hordered {w : Nat} {t : List (Nat × Nat)}
      (ht : t ∈ Reorder.trials j.bounds.maxSwaps (r :: rest).length)
      (hreach : j.Reaches (r :: rest) t (some w)) :
      (j.orders (j.changed f data ((r :: rest).map CommandRecord.command)
        (RegisterSearch.bytes w))).isSome = true :=
    isSome_orders_iff.mpr ⟨t, by rwa [hlen], (hreaches w ht).mp hreach⟩
  have hrun := RegisterSearch.run_outcome (checkRegister_eq hj data hextend) h8 hflips
  cases hfind : (RegisterSearch.values register j.bounds.toRegisterBounds).find? fun v : Nat =>
      (j.orders (j.changed f data ((r :: rest).map CommandRecord.command)
        (RegisterSearch.bytes v))).isSome with
  | none =>
      rw [hfind] at hrun
      refine ⟨none, ?_, ?_⟩
      · exact (Returns.modify _).bind ((Returns.attempt hrun).bind (.pure _))
      · intro v hv s hs hreach
        obtain ⟨w, rfl, hw⟩ := hadmits.mp hv
        have hnone := List.find?_eq_none.mp hfind w ((RegisterSearch.mem_values h8 hflips).mpr hw)
        exact hnone (hordered hs hreach)
  | some v =>
      rw [hfind] at hrun
      have hsome := List.find?_some hfind
      obtain ⟨s, horders⟩ := Option.isSome_iff_exists.mp hsome
      obtain ⟨hs, hleads, hleast⟩ := least_of_orders horders
      rw [hlen] at hs hleast
      refine ⟨some (s, some v), ?_, ?_, hs, (hreaches v hs).mpr hleads, ?_⟩
      · refine (Returns.modify _).bind ((Returns.attempt hrun).bind ?_)
        apply (Returns.attempt (withRegister_eq_changed hj data _ _)).bind
        apply (Returns.attempt (swaps_eq_orders hj (isExtend_of_mem_changed hextend))).bind
        rw [horders]
        exact .pure _
      · have hmem := (RegisterSearch.mem_values h8 hflips).mp (List.mem_of_find?_eq_some hfind)
        exact hadmits.mpr ⟨v, rfl, hmem⟩
      · intro x hx t ht hreach
        obtain ⟨w, rfl, hw⟩ := hadmits.mp hx
        rcases RegisterSearch.least_of_find?_values h8 hflips hfind hw (hordered ht hreach) with
          rfl | hprecedes
        · exact Or.inr ⟨rfl, hleast t ht ((hreaches v ht).mp hreach)⟩
        · exact Or.inl ⟨r, data, register, rfl, hdata, v, w, rfl, rfl, hprecedes⟩

theorem verify_returns (hflips : j.bounds.combinatorial = true → 0 ≤ j.bounds.maxFlips)
    {rs : List CommandRecord} (hrs : LegibleAll j.flows j.algorithm rs) :
    ∃ found, Returns (j.verify rs) found ∧ j.Answers rs found := by
  have hextend : ∀ r ∈ rs, IsExtend j.algorithm r.command := fun r hr => (hrs r hr).1
  cases rs with
  | nil =>
      exact verifyUnchanged_returns hj hextend fun v => admitsValue_nil
  | cons r rest =>
      simp only [verify_cons]
      obtain his | ⟨his, _, data, register, _, -, hdata, h8, -⟩ := (hrs r (by simp)).2
      · have hfirst : j.registerData r = .ok none := by
          rw [registerData, his]
          rfl
        obtain ⟨found, hreturns, hanswers⟩ :=
          verifyUnchanged_returns hj hextend fun v => admitsValue_of_other his rest
        exact ⟨found, (Returns.attempt hfirst).bind hreturns, hanswers⟩
      · have hfirst : j.registerData r = .ok (some (data, register)) := by
          rw [registerData, his, ok_bind, if_pos rfl, hdata]
          rfl
        obtain ⟨found, hreturns, hanswers⟩ :=
          verifyRegister_returns hj hflips hextend his hdata h8
        exact ⟨found, (Returns.attempt hfirst).bind hreturns, hanswers⟩

end Verify
theorem tryDisabled_returns {j : Job} {f : HashFunction} (hj : j.Able f)
    (hflips : j.bounds.combinatorial = true → 0 ≤ j.bounds.maxFlips) {ms : List CommandRecord}
    (hms : LegibleAll j.flows j.algorithm ms) (disabled : Combination) :
    ∃ found, j.Answers (enabledOf ms disabled) found ∧ Returns (j.tryDisabled ms disabled)
      (found.map fun x => corrections j.algorithm j.locality ms.length disabled x.2 x.1) := by
  obtain ⟨found, hreturns, hanswers⟩ := verify_returns hj hflips fun r hr =>
    hms r (mem_of_mem_enabledOf hr : r ∈ ms)
  refine ⟨found, hanswers, hreturns.bind ?_⟩
  cases found with
  | none => exact .pure none
  | some x => exact .pure _

theorem run_eq_firstAnswer (j : Job) (ms : List CommandRecord) :
    j.run ms = firstAnswer (j.tryDisabled ms) (disabledLists j.bounds.maxDisabled ms.length) := by
  rw [disabledLists, Combination.between, firstAnswer_flatMap, run, List.range_eq_range']
  exact firstAnswer_congr fun count _ => Combination.first_eq_firstAnswer count ms.length _

/-- What the search for one locality answers: the first admissible corrections with that locality that are
confirmed, or nothing if there are none. -/
def LocalAnswer (j : Job) (records : List CommandRecord) : Option Corrections → Prop
  | none => ∀ c, Admissible j.flows j.bounds records j.algorithm c → c.locality = j.locality →
      isConfirmed c records j.expected ≠ .ok true
  | some c => Admissible j.flows j.bounds records j.algorithm c ∧ c.locality = j.locality ∧
      isConfirmed c records j.expected = .ok true ∧
      ∀ d, Admissible j.flows j.bounds records j.algorithm d → d.locality = j.locality →
        isConfirmed d records j.expected = .ok true →
          c = d ∨ Precedes j.bounds.toRegisterBounds (measurements records j.algorithm) c d

/-- Corrections by position are confirmed just if their register value and exchanges reach the digest. -/
theorem isConfirmed_iff_reaches (j : Job) (records : List CommandRecord) (disabled : Combination)
    (v : Option Nat) {s : List (Nat × Nat)}
    (hs : s ∈ Reorder.trials j.bounds.maxSwaps
      (enabledOf (measurements records j.algorithm) disabled).length) :
    isConfirmed (corrections j.algorithm j.locality (measurements records j.algorithm).length disabled v s)
        records j.expected = .ok true ↔
      j.Reaches (enabledOf (measurements records j.algorithm) disabled) s v := by
  have hpos : ∀ p ∈ s, p.1 < (enabledOf (measurements records j.algorithm) disabled).length ∧
      p.2 < (enabledOf (measurements records j.algorithm) disabled).length := by
    intro p hp
    have := (Reorder.mem_trials.mp hs).2.1 p hp
    omega
  rw [isConfirmed_corrections j records disabled v hpos, Reaches]
  exact ⟨fun h => ⟨hpos, h⟩, And.right⟩

/-- Confirmed corrections, by position. -/
theorem exists_reaches {j : Job} {records : List CommandRecord} {d : Corrections}
    (hd : Admissible j.flows j.bounds records j.algorithm d) (hl : d.locality = j.locality)
    (hconfirmed : isConfirmed d records j.expected = .ok true) :
    ∃ disabled ∈ disabledLists j.bounds.maxDisabled (measurements records j.algorithm).length, ∃ w t,
      d = corrections j.algorithm j.locality (measurements records j.algorithm).length disabled w t ∧
      AdmitsValue j.flows j.bounds.toRegisterBounds
        (enabledOf (measurements records j.algorithm) disabled) w ∧
      t ∈ Reorder.trials j.bounds.maxSwaps
        (enabledOf (measurements records j.algorithm) disabled).length ∧
      j.Reaches (enabledOf (measurements records j.algorithm) disabled) t w := by
  obtain ⟨disabled, hmem, w, t, hw, ht, hdt⟩ := exists_corrections hd
  rw [hl] at hdt
  rw [hdt, isConfirmed_iff_reaches j records disabled w ht] at hconfirmed
  exact ⟨disabled, hmem, w, t, hdt, hw, ht, hconfirmed⟩

theorem Answers.isSome {j : Job} {rs : List CommandRecord}
    {found : Option (List (Nat × Nat) × Option Nat)} (h : j.Answers rs found) {w : Option Nat}
    (hw : AdmitsValue j.flows j.bounds.toRegisterBounds rs w) {t : List (Nat × Nat)}
    (ht : t ∈ Reorder.trials j.bounds.maxSwaps rs.length) (hreach : j.Reaches rs t w) :
    found.isSome = true := by
  cases found with
  | none => exact absurd hreach (h w hw t ht)
  | some x => rfl

theorem precedes_of_answer {j : Job} {ms : List CommandRecord} {disabled : Combination}
    {v w : Option Nat} {s t : List (Nat × Nat)}
    (hs : s ∈ Reorder.trials j.bounds.maxSwaps (enabledOf ms disabled).length)
    (ht : t ∈ Reorder.trials j.bounds.maxSwaps (enabledOf ms disabled).length)
    (h : RegisterPrecedes j.bounds.toRegisterBounds (enabledOf ms disabled).head?
        (v.map Int.ofNat) (w.map Int.ofNat) ∨ v = w ∧ (s = t ∨ Reorder.Before s t)) :
    corrections j.algorithm j.locality ms.length disabled v s =
        corrections j.algorithm j.locality ms.length disabled w t ∨
      Precedes j.bounds.toRegisterBounds ms
        (corrections j.algorithm j.locality ms.length disabled v s)
        (corrections j.algorithm j.locality ms.length disabled w t) := by
  obtain hregister | ⟨rfl, rfl | hlt | ⟨heq, hlex⟩⟩ := h
  · refine Or.inr (.register rfl rfl ?_)
    rw [corrections, firstEnabled_map]
    exact hregister
  · exact Or.inl rfl
  · exact Or.inr (.fewerSwaps rfl rfl rfl (by simpa [corrections, orderSwaps] using hlt))
  · refine Or.inr (.swaps rfl rfl rfl (by simpa [corrections, orderSwaps] using heq) ?_)
    have hswithin := within_of_mem_trials hs
    have htwithin := within_of_mem_trials ht
    have horder := lex_orderSwaps hlex (fun p hp => hswithin p (List.mem_reverse.mp hp))
      fun p hp => htwithin p (List.mem_reverse.mp hp)
    simpa only [corrections, orderSwaps, List.map_reverse] using horder

theorem precedes_of_before {j : Job} {count : Nat} (ms : List CommandRecord) {D E : Combination}
    (h : Combination.Before D E) (v w : Option Nat) (s t : List (Nat × Nat)) :
    Precedes j.bounds.toRegisterBounds ms (corrections j.algorithm j.locality count D v s)
      (corrections j.algorithm j.locality count E w t) := by
  obtain hlt | ⟨heq, hlex⟩ := h
  · exact .fewerDisabled rfl (by simpa [corrections] using hlt)
  · exact .disabled rfl (by simpa [corrections] using heq) (map_ofNat_lt hlex)

theorem run_returns {j : Job} {f : HashFunction} (hj : j.Able f)
    (hl : j.locality = 0 ∨ j.locality = 3)
    (hflips : j.bounds.combinatorial = true → 0 ≤ j.bounds.maxFlips) {records : List CommandRecord}
    (hms : LegibleAll j.flows j.algorithm (measurements records j.algorithm)) :
    ∃ found, Returns (j.run (measurements records j.algorithm)) found ∧ j.LocalAnswer records found := by
  choose answer hanswers hreturns using tryDisabled_returns hj hflips hms
  have hsearch := Returns.firstAnswer fun disabled (_ : disabled ∈ disabledLists
    j.bounds.maxDisabled (measurements records j.algorithm).length) => hreturns disabled
  rw [← run_eq_firstAnswer] at hsearch
  refine ⟨_, hsearch, ?_⟩
  cases hfind : (disabledLists j.bounds.maxDisabled (measurements records j.algorithm).length).findSome?
      fun disabled => (answer disabled).map fun x => corrections j.algorithm j.locality
        (measurements records j.algorithm).length disabled x.2 x.1 with
  | none =>
      intro d hd hld hconfirmed
      obtain ⟨disabled, hmem, w, t, -, hw, ht, hreach⟩ := exists_reaches hd hld hconfirmed
      have hnone := List.findSome?_eq_none_iff.mp hfind disabled hmem
      have hsome := (hanswers disabled).isSome hw ht hreach
      rw [Option.map_eq_none_iff.mp hnone] at hsome
      cases hsome
  | some c =>
      obtain ⟨D, hD, hc, hleast⟩ := exists_least_of_findSome? (Combination.pairwise_between _ _ _) hfind
      obtain ⟨⟨s, v⟩, hanswer, rfl⟩ := Option.map_eq_some_iff.mp hc
      have hD' := hanswers D
      rw [hanswer] at hD'
      obtain ⟨hv, hs, hreach, hfirst⟩ := hD'
      refine ⟨admissible_corrections hl hD hv hs, rfl,
        (isConfirmed_iff_reaches j records D v hs).mpr hreach, ?_⟩
      intro d hd hld hconfirmed
      obtain ⟨E, hE, w, t, rfl, hw, ht, hreacht⟩ := exists_reaches hd hld hconfirmed
      have hsome := (hanswers E).isSome hw ht hreacht
      rcases hleast E hE (by simpa using hsome) with rfl | hbefore
      · exact precedes_of_answer hs ht (hfirst w hw t ht hreacht)
      · exact Or.inr (precedes_of_before _ hbefore v w s t)

end Job

/-- Admissible corrections that lead to the expected digest and precede all others that do. -/
structure IsFirst (flows : FlowCatalog) (bounds : Pcr0Bounds) (records : List CommandRecord)
    (a : Algorithm) (expected : Bytes) (c : Corrections) : Prop where
  admissible : Admissible flows bounds records a c
  reproduces : Reproduces records a expected c
  first : ∀ d, Admissible flows bounds records a d → Reproduces records a expected d →
    c = d ∨ Precedes bounds.toRegisterBounds (measurements records a) c d

section Reproduce
variable {flows : FlowCatalog} {records : List CommandRecord} {a : Algorithm} {f : HashFunction}
  {bounds : Pcr0Bounds} (hf : a.function? = some f)
  (hflips : bounds.combinatorial = true → 0 ≤ bounds.maxFlips)
  (hms : LegibleAll flows a (measurements records a)) (expected : Bytes)
include hf hflips hms

theorem tryLocality_returns {locality : Int} (hl : locality = 0 ∨ locality = 3) :
    ∃ found, Returns (tryLocality flows records a expected bounds locality) found ∧
      Job.LocalAnswer ⟨flows, a, expected, locality, bounds⟩ records found := by
  have hj : Job.Able ⟨flows, a, expected, locality, bounds⟩ f := by
    refine ⟨hf, ?_, ?_⟩
    · simp only
      omega
    · simp only
      omega
  obtain ⟨found, hreturns, hanswer⟩ := Job.run_returns hj hl hflips hms
  refine ⟨found, hreturns.bind ?_, hanswer⟩
  cases found with
  | none => exact (Returns.modify _).bind (.pure none)
  | some c =>
      simp only [hanswer.2.2.1, attempt_ok, pure_bind]
      exact (Returns.modify _).bind (.pure (some c))

theorem localities_return :
    ∃ zero three, Returns (firstAnswer (tryLocality flows records a expected bounds) localities)
        (zero.or three) ∧
      Job.LocalAnswer ⟨flows, a, expected, 0, bounds⟩ records zero ∧
      Job.LocalAnswer ⟨flows, a, expected, 3, bounds⟩ records three := by
  obtain ⟨zero, hzero, hanswer⟩ := tryLocality_returns hf hflips hms expected (Or.inl rfl)
  obtain ⟨three, hthree, hother⟩ := tryLocality_returns hf hflips hms expected (Or.inr rfl)
  refine ⟨zero, three, ?_, hanswer, hother⟩
  rw [localities, firstAnswer_cons]
  apply hzero.bind
  cases zero with
  | none => rwa [firstAnswer_singleton, Option.none_or]
  | some c => exact .pure (some c)

/-- Over legible measurements the search does not fail. It answers nothing just if no admissible
corrections lead to the expected digest, and otherwise the first ones that do. -/
theorem reproduce_of_legible :
    ∃ found, Returns (reproduce flows records a expected bounds) found ∧
      (found = none ↔ ∀ c, Admissible flows bounds records a c → ¬ Reproduces records a expected c) ∧
      ∀ c, found = some c → IsFirst flows bounds records a expected c := by
  obtain ⟨zero, three, hreturns, hzero, hthree⟩ := localities_return hf hflips hms expected
  have hconfirmed {c : Corrections} (hc : Admissible flows bounds records a c) :=
    isConfirmed_iff_reproduces records a expected hc.algorithm
  refine ⟨zero.or three, ?_, ?_⟩
  · refine (Returns.modify _).bind (hreturns.bind ?_)
    cases zero.or three with
    | none => exact (Returns.modify _).bind (.pure none)
    | some c => exact .pure (some c)
  cases zero with
  | some c =>
      obtain ⟨hadmissible, hl, hc, hleast⟩ := hzero
      have hl : c.locality = 0 := hl
      have hreproduces := (hconfirmed hadmissible).mp hc
      refine ⟨⟨by simp, fun h => absurd hreproduces (h c hadmissible)⟩, ?_⟩
      rintro _ ⟨⟩
      refine ⟨hadmissible, hreproduces, fun d hd hreproduced => ?_⟩
      rcases hd.locality with hd0 | hd3
      · exact hleast d hd hd0 ((hconfirmed hd).mpr hreproduced)
      · refine Or.inr (.locality ?_)
        omega
  | none =>
      rw [Option.none_or]
      have hnot {d : Corrections} (hd : Admissible flows bounds records a d)
          (hreproduced : Reproduces records a expected d) : d.locality = 3 := by
        rcases hd.locality with hd0 | hd3
        · exact absurd ((hconfirmed hd).mpr hreproduced) (hzero d hd hd0)
        · exact hd3
      cases three with
      | none =>
          refine ⟨⟨fun _ d hd hreproduced => ?_, fun _ => rfl⟩, by simp⟩
          exact hthree d hd (hnot hd hreproduced) ((hconfirmed hd).mpr hreproduced)
      | some c =>
          obtain ⟨hadmissible, -, hc, hleast⟩ := hthree
          have hreproduces := (hconfirmed hadmissible).mp hc
          refine ⟨⟨by simp, fun h => absurd hreproduces (h c hadmissible)⟩, ?_⟩
          rintro _ ⟨⟩
          refine ⟨hadmissible, hreproduces, fun d hd hreproduced => ?_⟩
          exact hleast d hd (hnot hd hreproduced) ((hconfirmed hd).mpr hreproduced)

end Reproduce

/-! ## Corrections that keep all measurements -/

def inOrder (a : Algorithm) (locality : Int) (v : Option Nat) : Corrections where
  algorithm := a
  locality := locality
  register := v.map Int.ofNat
  disabled := []
  swaps := []

section InOrder
variable {flows : FlowCatalog} {bounds : Pcr0Bounds} {records : List CommandRecord} {a : Algorithm}
  {locality : Int}

theorem enabledOf_nil (ms : List CommandRecord) : enabledOf ms [] = ms := by
  have hpairs : enabledPairs ms [] = ms.zipIdx := by simp [enabledPairs]
  rw [← fst_enabledPairs, hpairs, List.zipIdx_map_fst]

theorem admissible_inOrder (hl : locality = 0 ∨ locality = 3) (hdisabled : 0 ≤ bounds.maxDisabled)
    (hswaps : 0 ≤ bounds.maxSwaps) {v : Option Nat}
    (hv : AdmitsValue flows bounds.toRegisterBounds (measurements records a) v) :
    Admissible flows bounds records a (inOrder a locality v) := by
  have hnone : [] ∈ disabledLists bounds.maxDisabled (measurements records a).length :=
    mem_disabledLists.mpr ⟨hdisabled, .nil, by simp⟩
  have hkept : [] ∈ Reorder.trials bounds.maxSwaps (enabledOf (measurements records a) []).length :=
    Reorder.mem_trials.mpr ⟨hswaps, by simp, .nil⟩
  rw [← enabledOf_nil (measurements records a)] at hv
  exact admissible_corrections hl hnone hv hkept

/-- Keeping the measurements in order replays their commands, the first with another register value if
there is one. -/
theorem reproduces_inOrder {v : Option Nat} {cs : List Command}
    (hcs : withValue a (measurements records a) v = .ok cs) {expected : Bytes}
    (hreplay : Tpm.replay cs locality a = .ok expected) :
    Reproduces records a expected (inOrder a locality v) := by
  have hconfirmed := isConfirmed_corrections ⟨{}, a, expected, locality, {}⟩ records [] v
    (fun p (hp : p ∈ []) => absurd hp List.not_mem_nil)
  simp only [enabledOf_nil, hcs, ok_bind, Reorder.exchangeAll] at hconfirmed
  refine (isConfirmed_iff_reproduces records a expected rfl).mp (hconfirmed.trans ?_)
  simp only [Job.isReached, List.foldl_nil, hreplay, ok_bind]
  exact congrArg Except.ok (beq_self_eq_true expected)

end InOrder

end MeasuredBoot.Pcr0
