import MeasuredBoot.Proofs.Action.Evidenced
import MeasuredBoot.Proofs.Tpm.Calls

/-!
# Failed actions and the state

An action that fails has changed the TPM at most. In most cases the change is that the command which was
refused has been logged. Two actions work algorithm by algorithm, and they differ: a start and a measurement
that have served the first algorithm before a later one is refused keep what they wrote. Both need an
algorithm that cannot be computed, so on a TPM with computable algorithms every failed action leaves the state
as it was, but for the log.
-/
namespace MeasuredBoot.Action
variable {cause : IssuedAction} {s u : State} {t : Tpm} {f : Fault} {c : Command}

/-- A state that is as it was, but for a log that has grown by the one command of an action. -/
def OnlyLogs (cause : IssuedAction) (s u : State) : Prop :=
  u = s ∨ ∃ t c, s.tpm = some t ∧ issues s cause.action = [c] ∧
    u = { s with tpm := some { t with commands := t.commands.push ⟨c, some s.coordinates, some cause⟩ } }

/-- An action that serves the first algorithm of a TPM before it comes to the others. -/
def ServesFirst (s : State) : Action → Prop
  | .tpmInit locality => ∃ t, s.tpm = some t ∧ t.values = [] ∧ Tpm.FirstStarts locality t.algorithms
  | .measure pcr source _ _ => ∃ t d b a rest, s.tpm = some t ∧ source.resolve s = .ok d ∧
      d.converted = .ok b ∧ t.algorithms = a :: rest ∧ a.function?.isSome = true ∧
      t.canExtend pcr a = true
  | _ => False

/-! ## Refused commands -/

theorem command_error (h : command cause c s = .error f u) :
    (s.tpm = none ∧ u = s) ∨ ∃ t v, s.tpm = some t ∧
      Tpm.execute ⟨c, some s.coordinates, some cause⟩ t = .error f v ∧ u = { s with tpm := some v } := by
  rw [command, get_bind_run] at h
  unfold onTpm at h
  split at h
  · rename_i hnone
    cases h
    exact .inl ⟨hnone, rfl⟩
  · rename_i t ht
    split at h
    · cases h
    · rename_i g v hv
      cases h
      exact .inr ⟨t, v, ht, hv, rfl⟩

theorem onlyLogs_of_command_error (hissued : s.tpm.isSome = true → issues s cause.action = [c])
    (hlogged : ∀ t v, Tpm.execute ⟨c, some s.coordinates, some cause⟩ t = .error f v →
      v = { t with commands := t.commands.push ⟨c, some s.coordinates, some cause⟩ })
    (h : command cause c s = .error f u) : OnlyLogs cause s u := by
  obtain ⟨-, hsame⟩ | ⟨t, v, ht, hv, hu⟩ := command_error h
  · exact .inl hsame
  · refine .inr ⟨t, c, ht, hissued (by rw [ht]; rfl), ?_⟩
    rw [hu, hlogged t v hv]

theorem OnlyLogs.values_eq {v : Tpm} (h : OnlyLogs cause s u) (ht : s.tpm = some t)
    (hv : u.tpm = some v) : v.values = t.values := by
  obtain rfl | ⟨t', c, ht', -, rfl⟩ := h
  · obtain rfl := Option.some.inj (ht.symm.trans hv)
    rfl
  · obtain rfl := Option.some.inj (ht.symm.trans ht')
    cases hv
    rfl

theorem OnlyLogs.length_commandLog_le (h : OnlyLogs cause s u) :
    u.commandLog.length ≤ s.commandLog.length + 1 := by
  obtain rfl | ⟨t, c, ht, -, rfl⟩ := h
  · omega
  · simp [State.commandLog, ht]

/-! ## Starts -/

/-- A start that is refused is only logged, unless it has written the first algorithm. -/
theorem tpmInit_error {locality : Int} (haction : cause.action = .tpmInit locality)
    (h : command cause (.init locality) s = .error f u) :
    OnlyLogs cause s u ↔ ¬ ServesFirst s (.tpmInit locality) := by
  obtain ⟨hnone, hsame⟩ | ⟨t, v, ht, hv, rfl⟩ := command_error h
  · refine iff_of_true (.inl hsame) ?_
    rintro ⟨t, ht, -⟩
    cases hnone.symm.trans ht
  · obtain ⟨hempty, hfirst, hheld⟩ | ⟨hnot, hsame⟩ := Tpm.execute_init_error rfl hv
    · refine iff_of_false (fun honly => hheld ?_) fun hnot => hnot ⟨t, ht, hempty, hfirst⟩
      rw [honly.values_eq ht rfl, hempty]
    · refine iff_of_true (.inr ⟨t, .init locality, ht, ?_, by rw [hsame]⟩) ?_
      · rw [haction, issues, ht, Option.isSome_some, if_pos rfl]
      · rintro ⟨t', ht', hempty, hfirst⟩
        obtain rfl := Option.some.inj (ht.symm.trans ht')
        exact hnot ⟨hempty, hfirst⟩

/-! ## Measurements -/

section Measurement
variable {pcr : Int} {source : Source} {type : EventType} {data : Option Bytes} {d : Data} {b : Bytes}

theorem issues_measure (haction : cause.action = .measure pcr source type data) (ht : s.tpm = some t)
    (hd : source.resolve s = .ok d) (hb : d.converted = .ok b) :
    issues s cause.action = measurementCommands t pcr type data b t.algorithms := by
  have htpm : s.theTpm = .ok t := by rw [State.theTpm, ht]; rfl
  rw [haction, issues, hd, ok_bind, htpm, ok_bind, hb]
  rfl

theorem error_of_measure {identity : ActionIdentity}
    (h : apply ⟨identity, .measure pcr source type data⟩ s = .error f u) :
    (u = s ∧ ¬ ∃ t d b, s.tpm = some t ∧ source.resolve s = .ok d ∧ d.converted = .ok b) ∨
      ∃ t d b, s.tpm = some t ∧ source.resolve s = .ok d ∧ d.converted = .ok b ∧
        t.algorithms.forM (measureWith ⟨identity, .measure pcr source type data⟩ pcr type data b) s =
          .error f u := by
  obtain ⟨e, he, rfl⟩ | ⟨d, hd, h⟩ := attempt_bind_error h
  · refine .inl ⟨rfl, ?_⟩
    rintro ⟨t, d, b, -, hd, -⟩
    cases he.symm.trans hd
  obtain ⟨e, he, rfl⟩ | ⟨t, htpm, h⟩ := attempt_bind_error h
  · refine .inl ⟨rfl, ?_⟩
    rintro ⟨t, d, b, ht, -⟩
    rw [State.theTpm, ht] at he
    cases he
  obtain ⟨e, he, rfl⟩ | ⟨b, hb, h⟩ := attempt_bind_error h
  · refine .inl ⟨rfl, ?_⟩
    rintro ⟨t', d', b, -, hd', hb⟩
    obtain rfl := Except.ok.inj (hd.symm.trans hd')
    cases he.symm.trans hb
  exact .inr ⟨t, d, b, State.tpm_of_theTpm htpm, hd, hb, error_of_recorded h⟩

theorem measureWith_error_of_cannot (cause : IssuedAction) (type : EventType) (data : Option Bytes)
    {a : Algorithm} {digest : Bytes} (ht : s.tpm = some t)
    (hdigest : hashBytes a b = .ok digest) (hcan : t.canExtend pcr a = false) :
    ∃ f, measureWith cause pcr type data b a s = .error f { s with
      tpm := some { t with
        commands := t.commands.push ⟨.extend pcr a digest, some s.coordinates, some cause⟩ } } := by
  obtain ⟨f, v, hv⟩ := Tpm.execute_extend_of_cannot
    (r := ⟨.extend pcr a digest, some s.coordinates, some cause⟩) rfl hcan
  have hcommand := command_of_refused ht hv
  rw [Tpm.execute_extend_error rfl hv] at hcommand
  exact ⟨f, by rw [measureWith, hdigest, attempt_ok, pure_bind, bind_of_error hcommand]⟩

theorem servesFirst_measure_iff {a : Algorithm} {rest : List Algorithm} (ht : s.tpm = some t)
    (hd : source.resolve s = .ok d) (hb : d.converted = .ok b) (halgorithms : t.algorithms = a :: rest) :
    ServesFirst s (.measure pcr source type data) ↔
      a.function?.isSome = true ∧ t.canExtend pcr a = true := by
  constructor
  · rintro ⟨t', d', b', a', rest', ht', -, -, halgorithms', hfirst⟩
    obtain rfl := Option.some.inj (ht.symm.trans ht')
    obtain ⟨rfl, -⟩ := List.cons.inj (halgorithms.symm.trans halgorithms')
    exact hfirst
  · intro hfirst
    exact ⟨t, d, b, a, rest, ht, hd, hb, halgorithms, hfirst⟩

/-- A measurement that fails is only logged, unless it has served the first algorithm. -/
theorem measure_error (haction : cause.action = .measure pcr source type data) (ht : s.tpm = some t)
    (hd : source.resolve s = .ok d) (hb : d.converted = .ok b)
    (h : t.algorithms.forM (measureWith cause pcr type data b) s = .error f u) :
    OnlyLogs cause s u ↔ ¬ ServesFirst s (.measure pcr source type data) := by
  have hissues := issues_measure haction ht hd hb
  have hwrites : Writes cause (measurementCommands t pcr type data b t.algorithms) s
      (after (t.algorithms.forM (measureWith cause pcr type data b)) s) :=
    writes_measurement ht fun _ _ => rfl
  rw [after_of_error h] at hwrites
  cases halgorithms : t.algorithms with
  | nil =>
      rw [halgorithms] at h
      cases h
  | cons a rest =>
      rw [halgorithms, measurementCommands] at hissues hwrites
      rw [halgorithms] at h
      rw [servesFirst_measure_iff ht hd hb halgorithms]
      cases hdigest : hashBytes a b with
      | error e =>
          have hfailed : measureWith cause pcr type data b a s = .error e s := by
            rw [measureWith, hdigest]
            rfl
          cases (bind_of_error hfailed _).symm.trans h
          refine iff_of_true (.inl rfl) ?_
          rintro ⟨hhashable, -⟩
          obtain ⟨g, hg⟩ := Option.isSome_iff_exists.mp hhashable
          rw [Tpm.hashBytes_eq hg] at hdigest
          cases hdigest
      | ok digest =>
          obtain ⟨g, hg, -⟩ := Tpm.function_of_hashBytes hdigest
          have hhashable : a.function?.isSome = true := by rw [hg, Option.isSome_some]
          simp only [hdigest] at hissues hwrites
          cases hcan : t.canExtend pcr a with
          | false =>
              rw [hcan, if_neg Bool.false_ne_true] at hissues
              obtain ⟨e, he⟩ := measureWith_error_of_cannot cause type data ht hdigest hcan
              cases (bind_of_error he _).symm.trans h
              exact iff_of_true (.inr ⟨t, _, ht, hissues, rfl⟩) fun hfirst => Bool.false_ne_true hfirst.2
          | true =>
              rw [hcan, if_pos rfl] at hwrites
              refine iff_of_false (fun honly => ?_) fun hnot => hnot ⟨hhashable, rfl⟩
              have hlength := honly.length_commandLog_le
              rw [hwrites.log, recordsOf] at hlength
              simp only [List.length_append, List.length_map, List.length_cons] at hlength
              omega

end Measurement

/-! ## Whole actions -/

/-- An action that fails has served the first algorithm, or the state is as it was but for the log. -/
theorem onlyLogs_iff (h : apply cause s = .error f u) :
    OnlyLogs cause s u ↔ ¬ ServesFirst s cause.action := by
  obtain ⟨identity, action⟩ := cause
  cases action with
  | setActor a => cases h
  | setFlow g => cases h
  | panic reason =>
      cases h
      exact iff_of_true (.inl rfl) id
  | tpmInit locality => exact tpmInit_error rfl h
  | logEvent pcr a digest type data =>
      refine iff_of_true (onlyLogs_of_command_error (fun hs => ?_) (fun t v hv => ?_) h) id
      · simp only [issues, hs, if_true]
      · obtain ⟨w, hw, -⟩ := Tpm.execute_logEvent (r := ⟨.logEvent ⟨pcr, a, digest, type, data⟩,
          some s.coordinates, some _⟩) rfl t
        cases hw.symm.trans hv
  | tpmExtend pcr source a =>
      refine iff_of_true ?_ id
      obtain ⟨-, -, hsame⟩ | ⟨d, hd, h⟩ := attempt_bind_error h
      · exact .inl hsame
      obtain ⟨-, -, hsame⟩ | ⟨t, htpm, h⟩ := attempt_bind_error h
      · exact .inl hsame
      obtain ⟨-, -, hsame⟩ | ⟨digest, hdigest, h⟩ := attempt_bind_error h
      · exact .inl hsame
      refine onlyLogs_of_command_error (fun _ => ?_) (fun t v hv => Tpm.execute_extend_error rfl hv)
        (error_of_recorded h)
      rw [issues, hd, ok_bind, htpm, ok_bind, hdigest]
      rfl
  | measure pcr source type data =>
      obtain ⟨hsame, hnot⟩ | ⟨t, d, b, ht, hd, hb, hrun⟩ := error_of_measure h
      · refine iff_of_true (.inl hsame) ?_
        rintro ⟨t, d, b, a, rest, ht, hd, hb, -⟩
        exact hnot ⟨t, d, b, ht, hd, hb⟩
      · exact measure_error rfl ht hd hb hrun
  | verifyByPch source =>
      refine iff_of_true (.inl ?_) id
      obtain ⟨-, -, hsame⟩ | ⟨d, -, h⟩ := attempt_bind_error h
      · exact hsame
      obtain ⟨-, -, hsame⟩ | ⟨-, -, h⟩ := attempt_bind_error h
      · exact hsame
      · cases h
  | verifyByPsp source =>
      refine iff_of_true (.inl ?_) id
      obtain ⟨-, -, hsame⟩ | ⟨d, -, h⟩ := attempt_bind_error h
      · exact hsame
      obtain ⟨-, -, hsame⟩ | ⟨-, -, h⟩ := attempt_bind_error h
      · exact hsame
      · cases h

/-! ## Computable algorithms -/

/-- A TPM that was built with computable algorithms and given any calls since. -/
def Operated (t : Tpm) : Prop :=
  ∃ algorithms calls, Tpm.Computable algorithms ∧ t = Tpm.afterCalls (Tpm.fresh algorithms) calls

theorem Operated.computable (h : Operated t) : Tpm.Computable t.algorithms := by
  obtain ⟨algorithms, calls, hcomputable, rfl⟩ := h
  rwa [(Tpm.algorithms_afterCalls algorithms calls).2]

/-- Such a TPM can extend a register with all of its algorithms or with none. -/
theorem Operated.canExtend (h : Operated t) {pcr : Int} {a b : Algorithm}
    (ha : t.canExtend pcr a = true) (hb : b ∈ t.algorithms) : t.canExtend pcr b = true := by
  obtain ⟨algorithms, calls, hcomputable, rfl⟩ := h
  have halgorithms := (Tpm.algorithms_afterCalls algorithms calls).2
  obtain ⟨-, v, hv⟩ := Tpm.exists_value_of_canExtend ha
  have hlookup := Tpm.lookup_of_value hv
  obtain hempty | ⟨_, _, _, -, -, -, hfilled⟩ := Tpm.grown_afterCalls hcomputable calls
  · rw [hempty] at hlookup
    cases hlookup
  · have hheld : (⟨pcr, a⟩ : Bank) ∈ Tpm.banks (Tpm.afterCalls (Tpm.fresh algorithms) calls).values := by
      rw [← Tpm.isSome_lookup_iff, hlookup, Option.isSome_some]
    have hregister := ((hfilled.held_iff _).mp hheld).1
    have hsupported : Tpm.Supports algorithms ⟨pcr, b⟩ := ⟨hregister, halgorithms ▸ hb⟩
    exact hfilled.canExtend halgorithms ((hfilled.held_iff _).mpr hsupported)

theorem exists_measured (cause : IssuedAction) (pcr : Int) (type : EventType) (data : Option Bytes)
    (b : Bytes) {algorithms : List Algorithm} (ht : s.tpm = some t)
    (hcomputable : Tpm.Computable algorithms) (hcan : ∀ a ∈ algorithms, t.canExtend pcr a = true) :
    ∃ u, algorithms.forM (measureWith cause pcr type data b) s = .ok () u := by
  induction algorithms generalizing s t with
  | nil => exact ⟨s, rfl⟩
  | cons a rest ih =>
      obtain ⟨g, hg⟩ := Option.isSome_iff_exists.mp (hcomputable a (by simp))
      obtain ⟨v, hfirst, hbanks, -⟩ :=
        measureWith_of_can cause type data ht (Tpm.hashBytes_eq hg b) (hcan a (by simp))
      have hheld : ({ s with tpm := some v } : State).tpm = some v := rfl
      obtain ⟨u, hu⟩ := ih hheld (fun x hx => hcomputable x (by simp [hx]))
        fun x hx => (hbanks pcr x).trans (hcan x (by simp [hx]))
      exact ⟨u, (forM_cons_of_ok hfirst rest).trans hu⟩

theorem not_servesFirst_of_operated (hoperated : ∀ t, s.tpm = some t → Operated t)
    (h : apply cause s = .error f u) : ¬ ServesFirst s cause.action := by
  obtain ⟨identity, action⟩ := cause
  cases action with
  | tpmInit locality =>
      rintro ⟨t, ht, hempty, hfirst⟩
      obtain ⟨hnone, -⟩ | ⟨t', v, ht', hv, -⟩ := command_error h
      · cases hnone.symm.trans ht
      · obtain rfl := Option.some.inj (ht.symm.trans ht')
        have hlogged := Tpm.execute_error (hoperated t ht).computable hv
        obtain ⟨-, -, hheld⟩ | ⟨hnot, -⟩ := Tpm.execute_init_error rfl hv
        · rw [hlogged] at hheld
          exact hheld hempty
        · exact hnot ⟨hempty, hfirst⟩
  | measure pcr source type data =>
      rintro ⟨t, d, b, a, rest, ht, hd, hb, halgorithms, -, hcan⟩
      have hall : ∀ x ∈ t.algorithms, t.canExtend pcr x = true := fun x hx =>
        (hoperated t ht).canExtend hcan hx
      obtain ⟨v, hv⟩ := exists_measured ⟨identity, .measure pcr source type data⟩ pcr type data b ht
        (hoperated t ht).computable hall
      obtain ⟨-, hnot⟩ | ⟨t', d', b', ht', hd', hb', hrun⟩ := error_of_measure h
      · exact hnot ⟨t, d, b, ht, hd, hb⟩
      · obtain rfl := Option.some.inj (ht.symm.trans ht')
        obtain rfl := Except.ok.inj (hd.symm.trans hd')
        obtain rfl := Except.ok.inj (hb.symm.trans hb')
        cases hv.symm.trans hrun
  | _ => exact id

/-- An action that fails leaves the state as it was but for the log, exactly if it has not served the first
algorithm of the TPM before a later one is refused; with computable algorithms it never has. -/
theorem failed_action_atomic (h : apply cause s = .error f u) :
    (OnlyLogs cause s u ↔ ¬ ServesFirst s cause.action) ∧
      ((∀ t, s.tpm = some t → Operated t) → OnlyLogs cause s u) :=
  ⟨onlyLogs_iff h, fun hoperated => (onlyLogs_iff h).mpr (not_servesFirst_of_operated hoperated h)⟩

def earlyExtend : IssuedAction := ⟨.issued 0, .tpmExtend 0 (.bytes [1]) .sha1⟩

theorem failed_action_atomic_early :
    ∃ f u, apply earlyExtend { tpm := some (Tpm.fresh [.sha1]) } = .error f u ∧
      OnlyLogs earlyExtend { tpm := some (Tpm.fresh [.sha1]) } u := by
  have hfailed : apply earlyExtend { tpm := some (Tpm.fresh [.sha1]) } = .error
      (.tpm (.notInitialized 0 .sha1)) { tpm := some { Tpm.fresh [.sha1] with
        commands := #[⟨.extend 0 .sha1 [1], some ⟨none, -1, 0⟩, some earlyExtend⟩] } } := rfl
  refine ⟨_, _, hfailed, (failed_action_atomic hfailed).2 ?_⟩
  intro t ht
  cases ht
  refine ⟨[.sha1], [], ?_, rfl⟩
  intro a ha
  rw [List.mem_singleton.mp ha]
  rfl

/-- A TPM that is started with an algorithm that can be computed and one that cannot. -/
def halfStart : IssuedAction := ⟨.issued 0, .tpmInit 0⟩

/-- The start fails, and yet the values of the first algorithm have been written. -/
theorem halfStart_not_atomic : ∃ f u t v,
    apply halfStart { tpm := some (Tpm.fresh [.sha1, .sm3]) } = .error f u ∧
      t = Tpm.fresh [.sha1, .sm3] ∧ u.tpm = some v ∧ t.values = [] ∧ v.values.length = 2 :=
  ⟨_, _, _, _, rfl, rfl, rfl, rfl, rfl⟩

end MeasuredBoot.Action
