import MeasuredBoot.Action.Apply
import MeasuredBoot.Proofs.Tpm.Accepted
import MeasuredBoot.Proofs.Tpm.Faults

/-!
# The commands of an action

Which commands an action gives the TPM, whether it fails or not. They are read off the state before it: a
source that does not resolve or a digest that cannot be computed gives none, and a measurement goes on from
one algorithm to the next until an extend is refused. An action writes just these into the command log, in
order, each at the place of the boot and caused by the action; and it leaves that place only if it switches
the flow.
-/
namespace MeasuredBoot

def State.commandLog (s : State) : List CommandRecord :=
  match s.tpm with
  | none => []
  | some t => t.commands.toList

theorem State.tpm_of_theTpm {s : State} {t : Tpm} (h : s.theTpm = .ok t) : s.tpm = some t := by
  unfold State.theTpm at h
  cases htpm : s.tpm with
  | none =>
      rw [htpm] at h
      cases h
  | some u =>
      rw [htpm] at h
      cases h
      rfl

/-! ## Banks that can be extended -/

namespace Tpm
variable {t u : Tpm} {pcr : Int} {a : Algorithm} {digest : Bytes} {r : CommandRecord}

def canExtend (t : Tpm) (pcr : Int) (a : Algorithm) : Bool :=
  (t.obstacle? pcr a).isNone && (t.values.lookup ⟨pcr, a⟩).isSome

def SameBanks (t u : Tpm) : Prop := ∀ pcr a, u.canExtend pcr a = t.canExtend pcr a

theorem exists_value_of_canExtend (h : t.canExtend pcr a = true) :
    t.obstacle? pcr a = none ∧ ∃ v, t.value pcr a = .ok v := by
  obtain ⟨hfree, hheld⟩ := Bool.and_eq_true_iff.mp h
  have hfree : t.obstacle? pcr a = none := Option.isNone_iff_eq_none.mp hfree
  obtain ⟨v, hv⟩ := Option.isSome_iff_exists.mp hheld
  exact ⟨hfree, v, by rw [value, hfree, hv]⟩

theorem exists_fault_of_not_canExtend (h : t.canExtend pcr a = false) :
    ∃ f, t.value pcr a = .error f := by
  cases hvalue : t.value pcr a with
  | error f => exact ⟨f, rfl⟩
  | ok v =>
      have hheld := lookup_of_value hvalue
      rw [canExtend, hheld, Option.isSome_some, Bool.and_true] at h
      obtain ⟨f, hf⟩ := Option.isSome_iff_exists.mp (Option.isNone_eq_false_iff.mp h)
      rw [value, hf] at hvalue
      cases hvalue

theorem sameBanks_of_extend (halgorithms : u.algorithms = t.algorithms)
    (h : Follows t u (.extend pcr a digest)) : SameBanks t u := by
  have hinitialized := isInitialized_of_follows h
  obtain ⟨hheld, f, old, -, hold, hvalues⟩ := h
  intro other b
  have hobstacle : u.obstacle? other b = t.obstacle? other b := by
    have hbefore : t.isInitialized = true := by simpa [isInitialized] using hheld
    rw [obstacle?, obstacle?, halgorithms, hinitialized, hbefore, initializedAfter]
  rw [canExtend, canExtend, hobstacle, hvalues]
  by_cases hsame : (⟨other, b⟩ : Bank) = ⟨pcr, a⟩
  · rw [hsame, lookup_put_self, hold, Option.isSome_some, Option.isSome_some]
  · rw [lookup_put_of_ne hsame]

theorem execute_extend_of_can {f : HashFunction} (hcommand : r.command = .extend pcr a digest)
    (hf : a.function? = some f) (hcan : t.canExtend pcr a = true) :
    ∃ u, execute r t = .ok () u ∧ u.commands = t.commands.push r ∧ SameBanks t u := by
  obtain ⟨hfree, old, hold⟩ := exists_value_of_canExtend hcan
  have hexecuted : ∃ u, execute r t = .ok () u := by
    have hvalue : ({ t with commands := t.commands.push r } : Tpm).value pcr a = .ok old := hold
    have hhash : hashBytes a (old ++ digest) = .ok (f.digest (old ++ digest)) := by
      rw [hashBytes, hf]
    have hfree : ({ t with commands := t.commands.push r } : Tpm).obstacle? pcr a = none := hfree
    have heq : execute r t = apply (.extend pcr a digest) { t with commands := t.commands.push r } := by
      rw [← hcommand]
      rfl
    rw [heq, apply, get_bind_run, hvalue, attempt_ok, pure_bind, hhash, attempt_ok, pure_bind, setValue,
      get_bind_run]
    simp only [hfree]
    exact ⟨_, rfl⟩
  obtain ⟨u, hu⟩ := hexecuted
  obtain ⟨hcommands, halgorithms, hfollows⟩ := execute_of_ok hu
  rw [hcommand] at hfollows
  exact ⟨u, hu, hcommands, sameBanks_of_extend halgorithms hfollows⟩

theorem execute_extend_of_cannot (hcommand : r.command = .extend pcr a digest)
    (hcan : t.canExtend pcr a = false) : ∃ f u, execute r t = .error f u := by
  obtain ⟨f, hf⟩ := exists_fault_of_not_canExtend hcan
  have hvalue : ({ t with commands := t.commands.push r } : Tpm).value pcr a = .error f := hf
  have heq : execute r t = apply (.extend pcr a digest) { t with commands := t.commands.push r } := by
    rw [← hcommand]
    rfl
  rw [heq, apply, get_bind_run, hvalue]
  exact ⟨f, _, rfl⟩

theorem stays_apply {Inv : Tpm → Prop} {c : Command}
    (hvalues : ∀ (t : Tpm) (values : List (Bank × Bytes)), Inv t → Inv { t with values := values })
    (hevent : ∀ (t : Tpm) (e : EventEntry), c = .logEvent e → Inv t →
      Inv { t with events := t.events.push e }) : Stays Inv (apply c) := by
  cases c with
  | init locality =>
      refine Stays.get_bind fun t _ => ?_
      have hinit : Stays Inv (do (← get).algorithms.forM (initAlgorithm locality)) := by
        refine Stays.get_bind fun t _ => .forM fun a _ => ?_
        refine (Stays.attempt _).bind fun size => .forM fun pcr _ => ?_
        unfold initBank
        simp only
        split
        · exact (Stays.attempt _).bind fun value => .modify fun t ht => hvalues t _ ht
        · exact Stays.modify fun t ht => hvalues t _ ht
      split
      · exact .throw _
      · exact hinit
  | extend pcr a digest =>
      refine Stays.get_bind fun t _ => ?_
      refine (Stays.attempt _).bind fun old => (Stays.attempt _).bind fun new => ?_
      refine Stays.get_bind fun t _ => ?_
      split
      · exact .throw _
      · exact .modify fun t ht => hvalues t _ ht
  | logEvent e => exact .modify fun t ht => hevent t e rfl ht

theorem commands_after_execute (r : CommandRecord) (t : Tpm) :
    (after (execute r) t).commands = t.commands.push r := by
  have h : Stays (fun u : Tpm => u.commands = t.commands.push r) (apply r.command) :=
    stays_apply (fun _ _ hu => hu) fun _ _ _ hu => hu
  exact h { t with commands := t.commands.push r } rfl

theorem algorithms_after_execute (r : CommandRecord) (t : Tpm) :
    (after (execute r) t).algorithms = t.algorithms := by
  have h : Stays (fun u : Tpm => u.algorithms = t.algorithms) (apply r.command) :=
    stays_apply (fun _ _ hu => hu) fun _ _ _ hu => hu
  exact h { t with commands := t.commands.push r } rfl

theorem execute_logEvent {e : EventEntry} (hcommand : r.command = .logEvent e) (t : Tpm) :
    ∃ u, execute r t = .ok () u ∧ u.commands = t.commands.push r ∧ SameBanks t u := by
  refine ⟨{ t with commands := t.commands.push r, events := t.events.push e }, ?_, rfl,
    fun _ _ => rfl⟩
  rw [execute]
  simp only [hcommand]
  rfl

end Tpm

namespace Action
variable {cause : IssuedAction} {s u : State}

/-! ## What an action issues -/

/-- The commands of a measurement with several algorithms, up to an extend that is refused or an algorithm
that cannot be computed. -/
def measurementCommands (t : Tpm) (pcr : Int) (type : EventType) (data : Option Bytes) (b : Bytes) :
    List Algorithm → List Command
  | [] => []
  | a :: rest =>
    match hashBytes a b with
    | .error _ => []
    | .ok digest =>
      if t.canExtend pcr a then
        .extend pcr a digest :: .logEvent ⟨pcr, a, digest, type, data⟩ ::
          measurementCommands t pcr type data b rest
      else [.extend pcr a digest]

def orNone : Except Fault (List Command) → List Command
  | .ok cs => cs
  | .error _ => []

/-- The commands that an action gives the TPM of a state, refused ones included. -/
def issues (s : State) : Action → List Command
  | tpmInit locality => if s.tpm.isSome then [.init locality] else []
  | tpmExtend pcr source a => orNone do
    let d ← source.resolve s
    let _ ← s.theTpm
    let digest ← d.converted
    return [.extend pcr a digest]
  | logEvent pcr a digest type data =>
    if s.tpm.isSome then [.logEvent ⟨pcr, a, digest, type, data⟩] else []
  | measure pcr source type data => orNone do
    let d ← source.resolve s
    let t ← s.theTpm
    let b ← d.converted
    return measurementCommands t pcr type data b t.algorithms
  | _ => []

/-- The commands that an action may give the TPM: data that are fixed determine what is extended. -/
def MayIssue (a : Action) (c : Command) : Prop :=
  match a with
  | .tpmInit locality => c = .init locality
  | .tpmExtend pcr source b => ∃ digest, c = .extend pcr b digest ∧
      ∀ d, source = .fixed d → d.converted = .ok digest
  | .logEvent pcr b digest type data => c = .logEvent ⟨pcr, b, digest, type, data⟩
  | .measure pcr _ type data => ∃ b digest, c = .extend pcr b digest ∨
      c = .logEvent ⟨pcr, b, digest, type, data⟩
  | _ => False

theorem mem_of_mem_orNone {x : Except Fault (List Command)} {c : Command} (h : c ∈ orNone x) :
    ∃ cs, x = .ok cs ∧ c ∈ cs := by
  cases x with
  | error f => cases h
  | ok cs => exact ⟨cs, rfl, h⟩

theorem exists_of_mem_measurementCommands {t : Tpm} {pcr : Int} {type : EventType} {data : Option Bytes}
    {b : Bytes} {algorithms : List Algorithm} {c : Command}
    (h : c ∈ measurementCommands t pcr type data b algorithms) :
    ∃ a digest, c = .extend pcr a digest ∨ c = .logEvent ⟨pcr, a, digest, type, data⟩ := by
  induction algorithms with
  | nil => cases h
  | cons a rest ih =>
      rw [measurementCommands] at h
      split at h
      · cases h
      · rename_i digest _
        split at h
        · rcases List.mem_cons.mp h with rfl | h
          · exact ⟨a, digest, Or.inl rfl⟩
          · rcases List.mem_cons.mp h with rfl | h
            · exact ⟨a, digest, Or.inr rfl⟩
            · exact ih h
        · exact ⟨a, digest, Or.inl (List.mem_singleton.mp h)⟩

theorem mayIssue_of_mem_issues {a : Action} {c : Command} (h : c ∈ issues s a) : a.MayIssue c := by
  cases a with
  | tpmInit locality =>
      rw [issues] at h
      split at h
      · exact List.mem_singleton.mp h
      · cases h
  | logEvent pcr b digest type data =>
      rw [issues] at h
      split at h
      · exact List.mem_singleton.mp h
      · cases h
  | tpmExtend pcr source b =>
      obtain ⟨cs, hcs, hc⟩ := mem_of_mem_orNone h
      obtain ⟨d, hd, hcs⟩ := bind_eq_ok_iff.mp hcs
      obtain ⟨t, -, hcs⟩ := bind_eq_ok_iff.mp hcs
      obtain ⟨digest, hdigest, hcs⟩ := bind_eq_ok_iff.mp hcs
      cases hcs
      refine ⟨digest, List.mem_singleton.mp hc, ?_⟩
      rintro d' rfl
      cases hd
      exact hdigest
  | measure pcr source type data =>
      obtain ⟨cs, hcs, hc⟩ := mem_of_mem_orNone h
      obtain ⟨d, -, hcs⟩ := bind_eq_ok_iff.mp hcs
      obtain ⟨t, -, hcs⟩ := bind_eq_ok_iff.mp hcs
      obtain ⟨b, -, hcs⟩ := bind_eq_ok_iff.mp hcs
      cases hcs
      exact exists_of_mem_measurementCommands hc
  | _ => cases h

def recordsOf (s : State) (cause : IssuedAction) (cs : List Command) : List CommandRecord :=
  cs.map fun c => ⟨c, some s.coordinates, some cause⟩

/-! ## What an action logs -/

theorem after_command (cause : IssuedAction) (c : Command) (s : State) :
    after (command cause c) s =
      { s with tpm := s.tpm.map (after (Tpm.execute ⟨c, some s.coordinates, some cause⟩)) } := by
  have hget : after (command cause c) s =
      after (onTpm (Tpm.execute ⟨c, some s.coordinates, some cause⟩)) s := rfl
  rw [hget]
  cases ht : s.tpm with
  | none =>
      simp only [after, onTpm, ht, Option.map_none]
      rw [← ht]
  | some t =>
      simp only [after, onTpm, ht, Option.map_some]
      cases Tpm.execute ⟨c, some s.coordinates, some cause⟩ t <;> rfl

/-- A state at the same place as another, the log of which has grown by the commands of an action. -/
structure Writes (cause : IssuedAction) (cs : List Command) (s u : State) : Prop where
  place : u.coordinates = s.coordinates
  log : u.commandLog = s.commandLog ++ recordsOf s cause cs

theorem Writes.nil (h : u.coordinates = s.coordinates) (hlog : u.commandLog = s.commandLog) :
    Writes cause [] s u where
  place := h
  log := by rw [hlog, recordsOf, List.map_nil, List.append_nil]

theorem Writes.append {cs ds : List Command} {v : State} (h : Writes cause cs s v)
    (h' : Writes cause ds v u) : Writes cause (cs ++ ds) s u where
  place := h'.place.trans h.place
  log := by
    rw [h'.log, h.log, recordsOf, recordsOf, recordsOf, h.place, List.map_append, List.append_assoc]

/-- What an action does besides giving commands does not show in the log. -/
theorem Writes.frame {cs : List Command} {v : State} (h : Writes cause cs s v)
    (hplace : u.coordinates = v.coordinates) (hlog : u.commandLog = v.commandLog) :
    Writes cause cs s u where
  place := hplace.trans h.place
  log := hlog.trans h.log

theorem writes_tpm {t u : Tpm} {c : Command} (ht : s.tpm = some t)
    (hu : u.commands = t.commands.push ⟨c, some s.coordinates, some cause⟩) :
    Writes cause [c] s { s with tpm := some u } where
  place := rfl
  log := by
    simp only [State.commandLog, ht, hu, Array.toList_push]
    rfl

theorem writes_command (cause : IssuedAction) (c : Command) (s : State) :
    Writes cause (if s.tpm.isSome then [c] else []) s (after (command cause c) s) := by
  rw [after_command]
  cases ht : s.tpm with
  | none => exact .nil rfl (by rw [State.commandLog, State.commandLog, ht]; rfl)
  | some t => exact writes_tpm ht (Tpm.commands_after_execute _ t)

section Measurement
variable {pcr : Int} {type : EventType} {data : Option Bytes} {b : Bytes} {a : Algorithm} {t : Tpm}

theorem command_of_executed {c : Command} {u : Tpm} (ht : s.tpm = some t)
    (hu : Tpm.execute ⟨c, some s.coordinates, some cause⟩ t = .ok () u) :
    command cause c s = .ok () { s with tpm := some u } := by
  rw [command, get_bind_run]
  simp only [onTpm, ht, hu]

theorem command_of_refused {c : Command} {f : Fault} {u : Tpm} (ht : s.tpm = some t)
    (hu : Tpm.execute ⟨c, some s.coordinates, some cause⟩ t = .error f u) :
    command cause c s = .error f { s with tpm := some u } := by
  rw [command, get_bind_run]
  simp only [onTpm, ht, hu]

theorem measureWith_of_can (cause : IssuedAction) (type : EventType) (data : Option Bytes) {digest : Bytes}
    (ht : s.tpm = some t) (hdigest : hashBytes a b = .ok digest) (hcan : t.canExtend pcr a = true) :
    ∃ u, measureWith cause pcr type data b a s = .ok () { s with tpm := some u } ∧ t.SameBanks u ∧
      Writes cause [.extend pcr a digest, .logEvent ⟨pcr, a, digest, type, data⟩] s
        { s with tpm := some u } := by
  obtain ⟨f, hf, -⟩ := Tpm.function_of_hashBytes hdigest
  obtain ⟨v, hv, hextended, hbanks⟩ := Tpm.execute_extend_of_can
    (r := ⟨.extend pcr a digest, some s.coordinates, some cause⟩) rfl hf hcan
  obtain ⟨u, hu, hlogged, hbanks'⟩ := Tpm.execute_logEvent
    (r := ⟨.logEvent ⟨pcr, a, digest, type, data⟩, some s.coordinates, some cause⟩) rfl v
  refine ⟨u, ?_, fun other c => (hbanks' other c).trans (hbanks other c), ?_⟩
  · rw [measureWith, hdigest, attempt_ok, pure_bind, bind_of_ok (command_of_executed ht hv)]
    exact command_of_executed rfl hu
  · exact (writes_tpm ht hextended).append (writes_tpm rfl hlogged)

/-- A measurement writes the commands of the algorithms up to the one that ends it. -/
theorem writes_measurement {algorithms : List Algorithm} {t₀ : Tpm} (ht : s.tpm = some t)
    (hbanks : t₀.SameBanks t) :
    Writes cause (measurementCommands t₀ pcr type data b algorithms) s
      (after (algorithms.forM (measureWith cause pcr type data b)) s) := by
  induction algorithms generalizing s t with
  | nil => exact .nil rfl rfl
  | cons a rest ih =>
      rw [measurementCommands]
      cases hdigest : hashBytes a b with
      | error f =>
          have hfailed : measureWith cause pcr type data b a s = .error f s := by
            rw [measureWith, hdigest]
            rfl
          have hafter : after ((a :: rest).forM (measureWith cause pcr type data b)) s = s :=
            after_bind_of_error hfailed _
          rw [hafter]
          exact .nil rfl rfl
      | ok digest =>
          simp only [← hbanks pcr a]
          cases hcan : t.canExtend pcr a with
          | true =>
              obtain ⟨u, hmeasured, hsame, hwrites⟩ := measureWith_of_can cause type data ht hdigest hcan
              have hafter : after ((a :: rest).forM (measureWith cause pcr type data b)) s =
                  after (rest.forM (measureWith cause pcr type data b)) { s with tpm := some u } :=
                after_bind_of_ok hmeasured _
              rw [hafter]
              exact hwrites.append (ih rfl fun other c => (hsame other c).trans (hbanks other c))
          | false =>
              obtain ⟨f, u, hrefused⟩ := Tpm.execute_extend_of_cannot
                (r := ⟨.extend pcr a digest, some s.coordinates, some cause⟩) rfl hcan
              have hcommand := command_of_refused ht hrefused
              have hfailed : measureWith cause pcr type data b a s =
                  .error f { s with tpm := some u } := by
                rw [measureWith, hdigest, attempt_ok, pure_bind, bind_of_error hcommand]
              have hafter : after ((a :: rest).forM (measureWith cause pcr type data b)) s =
                  { s with tpm := some u } := after_bind_of_error hfailed _
              have hwrites := writes_command cause (.extend pcr a digest) s
              rw [after_of_error hcommand, ht] at hwrites
              rw [hafter]
              exact hwrites

end Measurement

/-! ## Whole actions -/

def switches : Action → Bool
  | setFlow _ => true
  | _ => false

/-- Where a boot is after an action: at the beginning of another flow, or where it was. -/
def placeAfter (place : Coordinates) : Action → Coordinates
  | setFlow f => ⟨some f, -1, place.action⟩
  | _ => place

/-- What follows a computation without a state is written if the computation has an answer. -/
theorem writes_attempt {α : Type} {x : Except Fault α} {g : α → Run Unit}
    {k : α → Except Fault (List Command)}
    (h : ∀ a, x = .ok a → Writes cause (orNone (k a)) s (after (g a) s)) :
    Writes cause (orNone (x >>= k)) s (after (attempt x >>= g) s) := by
  cases x with
  | error f => exact .nil rfl rfl
  | ok a => exact h a rfl

theorem writes_nothing {α : Type} {x : Except Fault α} {g : α → Run Unit}
    (h : ∀ a, Writes cause [] s (after (g a) s)) : Writes cause [] s (after (attempt x >>= g) s) := by
  cases x with
  | error f => exact .nil rfl rfl
  | ok a => exact h a

theorem Writes.recorded {cs : List Command} {x : Run Unit} (h : Writes cause cs s (after x s))
    (source : Source) (d : Data) : Writes cause cs s (after (x >>= fun _ => recordMeasured cause source d) s) := by
  cases hx : x s with
  | ok _ v =>
      rw [after_of_ok hx] at h
      rw [after_bind_of_ok hx]
      exact h.frame rfl rfl
  | error f v =>
      rw [after_of_error hx] at h
      rw [after_bind_of_error hx]
      exact h

/-- An action that does not switch the flow writes the commands which it issues, and nothing else. -/
theorem writes_apply (hstays : cause.action.switches = false) :
    Writes cause (issues s cause.action) s (after (apply cause) s) := by
  obtain ⟨identity, action⟩ := cause
  cases action with
  | setActor a => exact .nil rfl rfl
  | setFlow f => cases hstays
  | panic reason => exact .nil rfl rfl
  | tpmInit locality => exact writes_command _ _ s
  | logEvent pcr a digest type data => exact writes_command _ _ s
  | tpmExtend pcr source a =>
      refine writes_attempt fun d _ => writes_attempt fun t ht => writes_attempt fun digest _ => ?_
      have hcommand := writes_command ⟨identity, .tpmExtend pcr source a⟩ (.extend pcr a digest) s
      rw [State.tpm_of_theTpm ht] at hcommand
      exact hcommand.recorded source d
  | measure pcr source type data =>
      refine writes_attempt fun d _ => writes_attempt fun t ht => writes_attempt fun b _ => ?_
      exact (writes_measurement (State.tpm_of_theTpm ht) fun _ _ => rfl).recorded source d
  | verifyByPch source => exact writes_nothing fun d => writes_nothing fun _ => .nil rfl rfl
  | verifyByPsp source => exact writes_nothing fun d => writes_nothing fun _ => .nil rfl rfl

theorem commandLog_after_apply (cause : IssuedAction) (s : State) :
    (after (apply cause) s).commandLog = s.commandLog ++ recordsOf s cause (issues s cause.action) := by
  obtain ⟨identity, action⟩ := cause
  cases action with
  | setFlow f => exact (Writes.nil rfl rfl : Writes ⟨identity, .setFlow f⟩ [] s s).log
  | _ => exact (writes_apply rfl).log

theorem coordinates_after_apply (cause : IssuedAction) (s : State) :
    (after (apply cause) s).coordinates = placeAfter s.coordinates cause.action := by
  obtain ⟨identity, action⟩ := cause
  cases action with
  | setFlow f => rfl
  | _ => exact (writes_apply rfl).place

/-! ## Panics -/

def panics : Action → Bool
  | panic _ => true
  | _ => false

theorem exists_reason_of_panics {a : Action} (h : a.panics = true) : ∃ reason, a = .panic reason := by
  cases a with
  | panic reason => exact ⟨reason, rfl⟩
  | _ => cases h

/-- A change that fails only as a command of a TPM, or for lack of data. -/
abbrev MayFail (x : Run Unit) : Prop := Ensures x (fun _ => True) Fault.OfCommand

theorem mayFail_command (cause : IssuedAction) (c : Command) : MayFail (command cause c) := by
  refine Ensures.get.bind fun s _ t => ?_
  unfold onTpm
  cases ht : t.tpm with
  | none => exact trivial
  | some u =>
      have hrefuses := Tpm.mayRefuse_apply c
        { u with commands := u.commands.push ⟨c, some s.coordinates, some cause⟩ }
      have heq : Tpm.execute ⟨c, some s.coordinates, some cause⟩ u = Tpm.apply c
        { u with commands := u.commands.push ⟨c, some s.coordinates, some cause⟩ } := rfl
      simp only [heq]
      cases hcase : Tpm.apply c
          { u with commands := u.commands.push ⟨c, some s.coordinates, some cause⟩ } with
      | ok _ v => trivial
      | error f v =>
          rw [hcase] at hrefuses
          exact hrefuses

theorem mayFail_attempt {α : Type} {x : Except Fault α} {g : α → Run Unit} (hx : OnData x)
    (hg : ∀ a, MayFail (g a)) : MayFail (attempt x >>= g) :=
  (Ensures.attempt (hx.mono fun _ => .of_ofData) fun _ _ => trivial).bind fun a (_ : True) => hg a

theorem mayFail_apply (hcalm : cause.action.panics = false) : MayFail (apply cause) := by
  obtain ⟨identity, action⟩ := cause
  cases action with
  | setActor a => exact .modify _
  | setFlow f => exact .modify _
  | panic reason => cases hcalm
  | tpmInit locality => exact mayFail_command _ _
  | logEvent pcr a digest type data => exact mayFail_command _ _
  | tpmExtend pcr source a =>
      refine Ensures.get.bind fun s _ => mayFail_attempt (Source.onData_resolve s source) fun d => ?_
      refine Ensures.get.bind fun s _ => mayFail_attempt s.onData_theTpm fun t => ?_
      refine mayFail_attempt d.onData_converted fun digest => ?_
      exact (mayFail_command _ _).bind fun _ _ => .modify _
  | measure pcr source type data =>
      refine Ensures.get.bind fun s _ => mayFail_attempt (Source.onData_resolve s source) fun d => ?_
      refine Ensures.get.bind fun s _ => mayFail_attempt s.onData_theTpm fun t => ?_
      refine mayFail_attempt d.onData_converted fun b => ?_
      refine Ensures.bind (.forM fun a _ => ?_) fun _ _ => .modify _
      refine mayFail_attempt (onData_hashBytes a b) fun digest => ?_
      exact (mayFail_command _ _).bind fun _ _ => mayFail_command _ _
  | verifyByPch source =>
      refine Ensures.get.bind fun s _ => mayFail_attempt (Source.onData_resolve s source) fun d => ?_
      exact Ensures.get.bind fun s _ => mayFail_attempt s.onData_thePch fun _ => .modify _
  | verifyByPsp source =>
      refine Ensures.get.bind fun s _ => mayFail_attempt (Source.onData_resolve s source) fun d => ?_
      exact Ensures.get.bind fun s _ => mayFail_attempt s.onData_thePsp fun _ => .modify _

theorem isPanic_of_error {f : Fault} (h : apply cause s = .error f u) :
    f.isPanic = cause.action.panics := by
  cases hcalm : cause.action.panics with
  | false =>
      have hfails := mayFail_apply hcalm s
      rw [h] at hfails
      exact hfails.not_isPanic
  | true =>
      obtain ⟨identity, action⟩ := cause
      cases action with
      | panic reason =>
          cases h
          rfl
      | _ => cases hcalm

end Action
end MeasuredBoot
