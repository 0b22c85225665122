import MeasuredBoot.Proofs.Reproduce.Staged

/-!
# Two runs that differ in the public space

Two root runs over the same image whose public spaces differ go through the same steps. Their command logs
match entry by entry: the commands are the same, except that the step which measures the data extends the
register as each machine has it, followed by the same bytes of the image.
-/
namespace MeasuredBoot.Pcr0

/-- A record of one run and its counterpart in the other. -/
inductive Matches (flows : FlowCatalog) (p p' : TxtPublic) : CommandRecord → CommandRecord → Prop
  | same {r r' : CommandRecord} : isDataMeasurement flows r = .ok false → r'.command = r.command →
      Matches flows p p' r r'
  | event {r r' : CommandRecord} {e e' : EventEntry} : isDataMeasurement flows r = .ok true →
      r.command = .logEvent e → r'.command = .logEvent e' → Matches flows p p' r r'
  | data {r r' : CommandRecord} {a : Algorithm} {register register' rest digest digest' : Bytes} :
      isDataMeasurement flows r = .ok true → dataOf r = .ok (register ++ rest, register) →
      (Step.policyStatus p).read = .ok register → (Step.policyStatus p').read = .ok register' →
      hashBytes a (register' ++ rest) = .ok digest' → r.command = .extend 0 a digest →
      r'.command = .extend 0 a digest' → Matches flows p p' r r'

/-- An action of one run and its counterpart in the other; the flag tells whether the step at hand is the
one that measures the data. -/
inductive Counterpart (p p' : TxtPublic) : Bool → Action → Action → Prop
  | same {l : Limits} {x : Action} : x.within l = true → Counterpart p p' false x x
  | panic (reason : String) : Counterpart p p' true (.panic reason) (.panic reason)
  | extend (rs : References) (a : Algorithm) : Counterpart p p' true
      (.tpmExtend 0 (.fixed (.referenced (Step.policyStatus p :: rs) (some a))) a)
      (.tpmExtend 0 (.fixed (.referenced (Step.policyStatus p' :: rs) (some a))) a)
  | event (a : Algorithm) (digest digest' : Bytes) (data : Option Bytes) : Counterpart p p' true
      (.logEvent 0 a digest .crtmContents data) (.logEvent 0 a digest' .crtmContents data)

/-- States of the two runs after the same steps. -/
structure Tandem (flows : FlowCatalog) (p p' : TxtPublic) (s s' : State) : Prop where
  alike : s.Alike s'
  txt : s.txtPublic = some p
  txt' : s'.txtPublic = some p'
  flow : s'.flow = s.flow
  step : s'.step = s.step
  logs : ∃ t t', s.tpm = some t ∧ s'.tpm = some t' ∧
    List.Forall₂ (Matches flows p p') t.commands.toList t'.commands.toList

section Tandem
variable {flows : FlowCatalog} {p p' : TxtPublic}

/-! ## Commands -/

theorem isInitialized_of_matches {r r' : CommandRecord} (h : Matches flows p p' r r') {t t' u u' : Tpm}
    (halgorithms : t'.algorithms = t.algorithms) (hinitialized : t'.isInitialized = t.isInitialized)
    (hfollows : Tpm.Follows t u r.command) (hfollows' : Tpm.Follows t' u' r'.command) :
    u'.isInitialized = u.isInitialized := by
  rw [Tpm.isInitialized_of_follows hfollows, Tpm.isInitialized_of_follows hfollows']
  cases h with
  | same _ heq =>
      rw [heq]
      cases r.command with
      | init locality => simp only [Tpm.initializedAfter, halgorithms]
      | extend pcr a digest => rfl
      | logEvent e => exact hinitialized
  | event _ he he' =>
      rw [he, he']
      exact hinitialized
  | data _ _ _ _ _ he he' =>
      rw [he, he']
      rfl

theorem isInitialized_of_matching {rs rs' : List CommandRecord}
    (h : List.Forall₂ (Matches flows p p') rs rs') {t t' u u' : Tpm}
    (halgorithms : t'.algorithms = t.algorithms) (hinitialized : t'.isInitialized = t.isInitialized)
    (haccepts : Tpm.Accepts t rs u) (haccepts' : Tpm.Accepts t' rs' u') :
    u'.isInitialized = u.isInitialized := by
  induction h generalizing t t' with
  | nil =>
      cases haccepts
      cases haccepts'
      exact hinitialized
  | cons hr _ ih =>
      obtain ⟨v, hexecuted, hrest⟩ := Tpm.accepts_cons.mp haccepts
      obtain ⟨v', hexecuted', hrest'⟩ := Tpm.accepts_cons.mp haccepts'
      obtain ⟨-, hkept, hfollows⟩ := Tpm.execute_of_ok hexecuted
      obtain ⟨-, hkept', hfollows'⟩ := Tpm.execute_of_ok hexecuted'
      refine ih ?_ (isInitialized_of_matches hr halgorithms hinitialized hfollows hfollows') hrest hrest'
      rw [hkept, hkept', halgorithms]

/-! ## Actions -/

theorem commands_eq {s s' : State} (h : s.Alike s') {l : Limits} {x : Action}
    (hwithin : x.within l = true) (algorithms : List Algorithm) :
    Action.commands s' algorithms x = Action.commands s algorithms x := by
  cases x with
  | tpmExtend pcr source a =>
      have hblind := Source.isBlind_of_isPlain (Bool.and_eq_true_iff.mp hwithin).2
      rw [Action.commands, Action.commands, Source.resolve_eq h source hblind]
  | measure pcr source type data =>
      have hblind := Source.isBlind_of_isPlain (Bool.and_eq_true_iff.mp hwithin).2
      rw [Action.commands, Action.commands, Source.resolve_eq h source hblind]
  | _ => rfl

theorem matches_of_counterpart {s s' : State} (halike : s.Alike s') {isData : Bool}
    (hplace : ∀ c cause, isDataMeasurement flows ⟨c, some s.coordinates, cause⟩ = .ok isData)
    {x x' : IssuedAction} (h : Counterpart p p' isData x.action x'.action) {algorithms : List Algorithm}
    {cs cs' : List Command} (hcs : Action.commands s algorithms x.action = .ok cs)
    (hcs' : Action.commands s' algorithms x'.action = .ok cs') :
    List.Forall₂ (Matches flows p p') (Action.recordsOf s x cs) (Action.recordsOf s' x' cs') := by
  obtain ⟨identity, action⟩ := x
  obtain ⟨identity', action'⟩ := x'
  cases h with
  | same hwithin =>
      rw [commands_eq halike hwithin, hcs] at hcs'
      cases hcs'
      simp only [Action.recordsOf, List.forall₂_map_left_iff, List.forall₂_map_right_iff,
        List.forall₂_same]
      exact fun c _ => .same (hplace c _) rfl
  | panic reason =>
      cases hcs
      cases hcs'
      exact .nil
  | event a digest digest' data =>
      cases hcs
      cases hcs'
      exact .cons (.event (hplace _ _) rfl rfl) .nil
  | extend rs a =>
      obtain ⟨_, ⟨⟩, hcs⟩ := bind_eq_ok_iff.mp hcs
      obtain ⟨digest, hdigest, hcs⟩ := bind_eq_ok_iff.mp hcs
      obtain ⟨_, ⟨⟩, hcs'⟩ := bind_eq_ok_iff.mp hcs'
      obtain ⟨digest', hdigest', hcs'⟩ := bind_eq_ok_iff.mp hcs'
      cases hcs
      cases hcs'
      obtain ⟨data, hdata, hhash⟩ := Data.converted_referenced.mp hdigest
      obtain ⟨data', hdata', hhash'⟩ := Data.converted_referenced.mp hdigest'
      obtain ⟨register, rest, hregister, hrest, rfl⟩ := References.read_cons_eq_ok_iff.mp hdata
      obtain ⟨register', rest', hregister', hrest', rfl⟩ := References.read_cons_eq_ok_iff.mp hdata'
      obtain rfl := Except.ok.inj (hrest.symm.trans hrest')
      refine .cons (.data (hplace _ _) ?_ hregister hregister' hhash' rfl rfl) .nil
      simp only [dataOf, Option.map_some, Data.references, Data.raw, hdata, hregister, ok_bind]
      rfl

theorem Tandem.withAction {s s' : State} (h : Tandem flows p p' s s') (index : Int) :
    Tandem flows p p' { s with action := index } { s' with action := index } where
  alike := ⟨h.alike.1, h.alike.2, h.alike.3, h.alike.4⟩
  txt := h.txt
  txt' := h.txt'
  flow := h.flow
  step := h.step
  logs := h.logs

theorem Tandem.advanced {s s' : State} (h : Tandem flows p p' s s') :
    Tandem flows p p' s.advanced s'.advanced where
  alike := ⟨h.alike.1, h.alike.2, h.alike.3, h.alike.4⟩
  txt := h.txt
  txt' := h.txt'
  flow := h.flow
  step := by rw [State.advanced, State.advanced, h.step]
  logs := h.logs

theorem moves_of_counterpart {s s' u u' : State} {isData : Bool} {x x' : Action}
    (h : Counterpart p p' isData x x') (hflow : s'.flow = s.flow) (hstep : s'.step = s.step)
    (hmoves : Action.Moves s u x) (hmoves' : Action.Moves s' u' x') :
    u'.flow = u.flow ∧ u'.step = u.step := by
  have hstays (hkept : u.flow = s.flow ∧ u.step = s.step) (hkept' : u'.flow = s'.flow ∧ u'.step = s'.step) :
      u'.flow = u.flow ∧ u'.step = u.step := by
    rw [hkept.1, hkept.2, hkept'.1, hkept'.2]
    exact ⟨hflow, hstep⟩
  cases h with
  | same _ =>
      cases x with
      | setFlow f => exact ⟨hmoves'.1.trans hmoves.1.symm, hmoves'.2.trans hmoves.2.symm⟩
      | _ => exact hstays hmoves hmoves'
  | _ => exact hstays hmoves hmoves'

/-- Counterparts keep two runs in tandem. -/
theorem tandem_apply {s s' u u' : State} (hs : Tandem flows p p' s s') {isData : Bool}
    (hplace : ∀ c cause, isDataMeasurement flows ⟨c, some s.coordinates, cause⟩ = .ok isData)
    {x x' : IssuedAction} (hpair : Counterpart p p' isData x.action x'.action)
    (h : Action.apply x s = .ok () u) (h' : Action.apply x' s' = .ok () u') :
    Tandem flows p p' u u' := by
  obtain ⟨t, t', ht, ht', hlogs⟩ := hs.logs
  have halgorithms : t'.algorithms = t.algorithms := by
    have := hs.alike.algorithms
    rw [ht, ht'] at this
    exact Option.some.inj this
  have hinitialized : t'.isInitialized = t.isInitialized := by
    have := hs.alike.initialized
    rwa [ht, ht'] at this
  obtain ⟨⟨cs, v, hcs, haccepts, hv⟩, hparts, hmoves⟩ := Action.apply_of_ok h ht
  obtain ⟨⟨cs', v', hcs', haccepts', hv'⟩, hparts', hmoves'⟩ := Action.apply_of_ok h' ht'
  rw [halgorithms] at hcs'
  have hmatches := matches_of_counterpart hs.alike hplace hpair hcs hcs'
  obtain ⟨hcommands, hkept⟩ := Tpm.commands_of_accepts haccepts
  obtain ⟨hcommands', hkept'⟩ := Tpm.commands_of_accepts haccepts'
  obtain ⟨hflow, hstep⟩ := moves_of_counterpart hpair hs.flow hs.step hmoves hmoves'
  refine ⟨⟨?_, ?_, ?_, ?_⟩, hparts.txt.trans hs.txt, hparts'.txt.trans hs.txt', hflow, hstep,
    v, v', hv, hv', ?_⟩
  · rw [hparts'.image, hparts.image, hs.alike.image]
  · rw [hparts'.registers, hparts.registers, hs.alike.registers]
  · rw [hv, hv', Option.map_some, Option.map_some, hkept, hkept', halgorithms]
  · rw [hv, hv']
    exact isInitialized_of_matching hmatches halgorithms hinitialized haccepts haccepts'
  · rw [hcommands, hcommands']
    exact List.rel_append hlogs hmatches

theorem tandem_performs {isData : Bool} {index : Nat} {actions actions' : List IssuedAction}
    {s s' u u' : State} (h : Boot.Performs index actions s u) (h' : Boot.Performs index actions' s' u')
    (hpairs : List.Forall₂ (fun x x' => Counterpart p p' isData x.action x'.action) actions actions')
    (hplace : ∀ c i cause, isDataMeasurement flows ⟨c, some ⟨s.flow, s.step, i⟩, cause⟩ = .ok isData)
    (hs : Tandem flows p p' s s') : Tandem flows p p' u u' := by
  induction hpairs generalizing index s s' with
  | nil =>
      cases h
      cases h'
      exact hs
  | cons hpair _ ih =>
      obtain ⟨v, hx, hcase⟩ := Boot.exists_of_performs_cons h
      obtain ⟨v', hx', hcase'⟩ := Boot.exists_of_performs_cons h'
      have hone := tandem_apply (hs.withAction index) (fun c => hplace c _) hpair hx hx'
      rcases hcase with ⟨hswitched, rfl⟩ | ⟨hstayed, hrest⟩
      · rcases hcase' with ⟨-, rfl⟩ | ⟨hstayed', -⟩
        · exact hone
        · exact absurd (hone.step.trans hswitched) hstayed'
      · rcases hcase' with ⟨hswitched', -⟩ | ⟨-, hrest'⟩
        · exact absurd (hone.step.symm.trans hswitched') hstayed
        · obtain ⟨t, -, ht, -, -⟩ := hs.logs
          obtain ⟨hflow, hstep⟩ :=
            (Boot.traced_of_performed (Action.apply_of_ok hx ht)).stays hstayed
          refine ih hrest hrest' ?_ hone
          rwa [hflow, hstep]

/-! ## Steps -/

theorem counterparts_of_pcr0Actions {i : BiosImage} {acm : CodeModule} {km : KeyManifest}
    {bpm : BootPolicy} {a : Algorithm} {actions actions' : List Action}
    (h : Step.pcr0Actions i (Step.pcr0References p i acm km bpm) bpm a = .ok actions)
    (h' : Step.pcr0Actions i (Step.pcr0References p' i acm km bpm) bpm a = .ok actions') :
    List.Forall₂ (Counterpart p p' true) actions actions' := by
  cases hd : bpm.ibbDigest? a with
  | none =>
      simp only [Step.pcr0Actions, hd] at h h'
      cases h
      cases h'
      exact .cons (.panic _) .nil
  | some d =>
      have hactions := Step.pcr0Actions_eq_ok h
      have hactions' := Step.pcr0Actions_eq_ok h'
      rw [hd] at hactions hactions'
      obtain ⟨digest, -, rfl⟩ := hactions
      obtain ⟨digest', -, rfl⟩ := hactions'
      exact .cons (.extend _ a) (.cons (.event a digest digest' _) .nil)

/-- Unless one of the steps panics, the measurements of the data are counterparts. -/
theorem counterparts_of_data {s s' : State} (hs : Tandem flows p p' s s') {actions actions' : List Action}
    (h : Step.pcr0DataActions s = .ok actions) (h' : Step.pcr0DataActions s' = .ok actions')
    (hperforms : ∀ reason, actions ≠ [.panic reason])
    (hperforms' : ∀ reason, actions' ≠ [.panic reason]) :
    List.Forall₂ (Counterpart p p' true) actions actions' := by
  obtain ⟨reason, hpanic⟩ | ⟨i, t, acm, km, bpm, one, two, hi, ht, hfound, hone, htwo, rfl⟩ :=
    Step.pcr0DataActions_eq_ok h
  · exact absurd hpanic (hperforms reason)
  obtain ⟨reason, hpanic⟩ | ⟨i', t', acm', km', bpm', one', two', hi', ht', hfound', hone', htwo', rfl⟩ :=
    Step.pcr0DataActions_eq_ok h'
  · exact absurd hpanic (hperforms' reason)
  rw [State.image, hs.alike.image] at hi'
  rw [State.txt, hs.txt] at ht
  rw [State.txt, hs.txt'] at ht'
  obtain rfl := Except.ok.inj (hi.symm.trans hi')
  obtain ⟨rfl, rfl, rfl⟩ : acm = acm' ∧ km = km' ∧ bpm = bpm' := by
    simpa using hfound.symm.trans hfound'
  cases ht
  cases ht'
  exact List.rel_append (counterparts_of_pcr0Actions hone hone')
    (counterparts_of_pcr0Actions htwo htwo')

/-- A step of both runs keeps them in tandem. -/
theorem tandem_step {flow flow' : FlowRef} {step step' : Step} {s s' u u' : State}
    (h : Boot.CleanStep flows flow step s u) (h' : Boot.CleanStep flows flow' step' s' u')
    (hbound : -1 ≤ s.step) (hkind : (∃ l, step.within l = true) ∨ step = .measurePcr0Data)
    (hs : Tandem flows p p' s s') : Tandem flows p p' u u' := by
  obtain ⟨hflow, hfound, produced, n, hproduced, hperforms⟩ := h
  obtain ⟨hflow', hfound', produced', n', hproduced', hperforms'⟩ := h'
  have hnext := hs.advanced
  obtain rfl : flow = flow' := Option.some.inj (hflow.symm.trans (hs.flow.symm.trans hflow'))
  rw [hs.step] at hfound'
  obtain rfl := Option.some.inj (hfound.symm.trans hfound')
  have hk : s.advanced.step = ((s.step + 1).toNat : Int) := by
    rw [State.advanced, Int.toNat_of_nonneg (by omega)]
  have hplace : ∀ c i cause, isDataMeasurement flows ⟨c, some ⟨s.advanced.flow, s.advanced.step, i⟩,
      cause⟩ = .ok step.isMeasurePcr0Data := by
    intro c i cause
    rw [hk, show s.advanced.flow = some flow from hflow]
    exact isDataMeasurement_of_step hfound c i cause
  obtain ⟨l, hwithin⟩ | rfl := hkind
  · rw [Step.actions_eq hnext.alike hwithin] at hproduced'
    obtain rfl := Except.ok.inj (hproduced.symm.trans hproduced')
    rw [Step.isMeasurePcr0Data_of_within hwithin] at hplace
    refine tandem_performs hperforms hperforms' (Boot.forall₂_identify ?_ n n') hplace hnext
    refine List.forall₂_same.mpr fun x hx => ?_
    obtain ⟨y, hy, rfl⟩ := List.mem_map.mp hx
    exact .same (Step.actions_within hwithin hproduced y hy)
  · obtain ⟨actions, hactions, hmap, -⟩ := Boot.isDataAction_of_identify (n := n) hproduced
    obtain ⟨actions', hactions', hmap', -⟩ := Boot.isDataAction_of_identify (n := n') hproduced'
    have hpairs := counterparts_of_data hnext hactions hactions'
      (fun reason => hmap ▸ Boot.ne_panic_of_performs hperforms reason)
      (fun reason => hmap' ▸ Boot.ne_panic_of_performs hperforms' reason)
    rw [← hmap, ← hmap', Boot.map_action_identify, Boot.map_action_identify] at hpairs
    exact tandem_performs hperforms hperforms' (Boot.forall₂_identify hpairs n n') hplace hnext

theorem halts_iff_of_tandem {s s' : State} (h : Tandem flows p p' s s') :
    Boot.Halts flows s' ↔ Boot.Halts flows s := by
  rw [Boot.Halts, Boot.Halts, h.flow, h.step]

/-- Two root runs end in tandem. -/
theorem tandem_run {a : Algorithm} {s s' u u' : State} {t : Tpm} (h : Boot.CleanRun flows s u)
    (h' : Boot.CleanRun flows s' u') (hstaged : Staged flows a s t) (hs : Tandem flows p p' s s') :
    Tandem flows p p' u u' := by
  induction h generalizing s' t with
  | halt hhalts =>
      cases h' with
      | halt _ => exact hs
      | step hstep _ => exact absurd ((halts_iff_of_tandem hs).mpr hhalts) hstep.not_halts
  | step hstep _ ih =>
      cases h' with
      | halt hhalts => exact absurd ((halts_iff_of_tandem hs).mp hhalts) hstep.not_halts
      | step hstep' hrun' =>
          have hnext := tandem_step hstep hstep' hstaged.bound (hstaged.kind hstep) hs
          obtain ⟨t', hstaged'⟩ := staged_step hstep hstaged
          exact ih hrun' hstaged' hnext

end Tandem
end MeasuredBoot.Pcr0
