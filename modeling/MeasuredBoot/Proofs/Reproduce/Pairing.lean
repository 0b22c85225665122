import MeasuredBoot.Proofs.Reproduce.DataStep

/-!
# What the entries of a run were measured from

The event log of a root run without issues is traced entry by entry. A step that starts the TPM measures nothing, so
its announcements are traced to no measurement. In every other step each extend has its event right behind it, and
the evidence under which the extend is known explains the digest of the event: either the action that has logged it
has measured these data and hashed them, or the action just before it has extended the register with them as they
are. The two lists of a step are therefore paired as they were written.
-/
namespace MeasuredBoot
open Boot (Application Execution applied applications)

/-! ## Records and applications -/

namespace Boot
variable {flow : FlowRef} {step : Int} {index : Nat} {actions : List IssuedAction} {s : State}

theorem flatMap_records_applications (hflow : s.flow = some flow) (hstep : s.step = step) :
    (applications index (applied actions) s).flatMap Application.records =
      written flow step index (applied actions) s := by
  induction actions generalizing index s with
  | nil => rfl
  | cons a rest ih =>
      have hfirst : Application.records ⟨a, { s with action := index }⟩ =
          (Action.issues { s with action := index } a.action).map fun c =>
            ⟨c, some ⟨some flow, step, index⟩, some a⟩ := by
        rw [Application.records, Action.recordsOf, State.coordinates]
        simp only [hflow, hstep]
      rw [applied, applications, written, List.flatMap_cons, hfirst]
      congr 1
      cases hends : a.action.ends with
      | true => rfl
      | false =>
          obtain ⟨hflow', hstep'⟩ := place_after_apply index s (switches_of_ends hends)
          exact ih (hflow'.trans hflow) (hstep'.trans hstep)

theorem Execution.Attributed.records_applications {flows : FlowCatalog} {e : Execution} {o : Option Fault}
    (h : e.Attributed flows o) : e.applications.flatMap Application.records = e.records := by
  unfold Execution.applications Execution.records
  cases happlied : e.applied with
  | nil => rfl
  | cons x rest =>
      have hplace := h.place 0 (by simp [happlied])
      rw [← happlied]
      exact flatMap_records_applications hplace.1 hplace.2

theorem Application.records_of_logEvent {x : Application} (hfault : x.fault? = none) {pcr : Int}
    {a : Algorithm} {digest : Bytes} {type : EventType} {data : Option Bytes}
    (hx : x.cause.action = .logEvent pcr a digest type data) :
    x.records = Action.recordsOf x.state x.cause [.logEvent ⟨pcr, a, digest, type, data⟩] := by
  obtain ⟨⟨identity, action⟩, s⟩ := x
  obtain rfl : action = .logEvent pcr a digest type data := hx
  have hheld : s.tpm.isSome = true := by
    cases hrun : Action.apply ⟨identity, .logEvent pcr a digest type data⟩ s with
    | error f u =>
        rw [fault?, hrun] at hfault
        cases hfault
    | ok _ u =>
        obtain ⟨t, t', ht, -, -⟩ := Action.command_of_ok hrun
        rw [ht]
        rfl
  rw [records, Action.issues, if_pos hheld]

end Boot

namespace TracedEntry
variable {known : Causes} {s : State} {algorithms : List Algorithm} {a b : Algorithm} {digest : Bytes}
  {x y z : IssuedAction} {m : Evidence} {actions more : List IssuedAction} {rs qs : List CommandRecord}

/-! ## Justified events -/

/-- Evidence for the digest of an event: the action that has logged it has measured the data and hashed them, or it
follows an action that has extended the register with the data. -/
inductive Justifies (actions : List IssuedAction) (a : Algorithm) (digest : Bytes) (y : IssuedAction)
    (m : Evidence) : Prop
  | hashed {pcr : Int} {source : Source} {type : EventType} {data : Option Bytes} {bytes : Bytes} :
      y.action = .measure pcr source type data → m.action = some y → m.data.converted = .ok bytes →
      hashBytes a bytes = .ok digest → Justifies actions a digest y m
  | converted {x : IssuedAction} {pcr : Int} {source : Source} {type : EventType} {data : Option Bytes} :
      [x, y] <:+: actions → x.action = .tpmExtend pcr source a → y.action = .logEvent pcr a digest type data →
      m.action = some x → m.data.converted = .ok digest → Justifies actions a digest y m

theorem Justifies.mono (h : Justifies actions a digest y m) (hsub : actions <:+: more) :
    Justifies more a digest y m := by
  cases h with
  | hashed hy hm hconverted hhash => exact .hashed hy hm hconverted hhash
  | converted hpair hx hy hm hconverted => exact .converted (hpair.trans hsub) hx hy hm hconverted

/-- Records in which, starts aside, every extend has its event right behind it, and is known by its action as
evidence that justifies the event. -/
inductive Justified (known : Causes) (s : State) (actions : List IssuedAction) : List CommandRecord → Prop
  | nil : Justified known s actions []
  | start {locality : Int} {place : Option Coordinates} {cause : Option IssuedAction}
      {rest : List CommandRecord} : Justified known s actions rest →
      Justified known s actions (⟨.init locality, place, cause⟩ :: rest)
  | pair {pcr : Int} {a : Algorithm} {digest : Bytes} {type : EventType} {data : Option Bytes}
      {place place' : Option Coordinates} {x y : IssuedAction} {m : Evidence} {rest : List CommandRecord} :
      known.lookup x.identity = some m → m ∈ s.measured.toList → m.chain = some .tpm → type ≠ .noAction →
      Justifies actions a digest y m → Justified known s actions rest →
      Justified known s actions (⟨.extend pcr a digest, place, some x⟩ ::
        ⟨.logEvent ⟨pcr, a, digest, type, data⟩, place', some y⟩ :: rest)

namespace Justified

theorem append (h : Justified known s actions rs) (h' : Justified known s actions qs) :
    Justified known s actions (rs ++ qs) := by
  induction h with
  | nil => exact h'
  | start _ ih => exact .start ih
  | pair hknown hm hchain htype hjustifies _ ih => exact .pair hknown hm hchain htype hjustifies ih

theorem mono (h : Justified known s actions rs) (hsub : actions <:+: more) : Justified known s more rs := by
  induction h with
  | nil => exact .nil
  | start _ ih => exact .start ih
  | pair hknown hm hchain htype hjustifies _ ih =>
      exact .pair hknown hm hchain htype (hjustifies.mono hsub) ih

theorem of_measure {st : State} {pcr : Int} {source : Source} {type : EventType} {data : Option Bytes}
    {bytes : Bytes} {digest : Algorithm → Bytes} (hy : y.action = .measure pcr source type data)
    (htype : type ≠ .noAction) (hknown : known.lookup y.identity = some m) (hm : m ∈ s.measured.toList)
    (hchain : m.chain = some .tpm) (haction : m.action = some y) (hconverted : m.data.converted = .ok bytes)
    (hdigest : ∀ a ∈ algorithms, hashBytes a bytes = .ok (digest a)) :
    Justified known s actions (Action.recordsOf st y (algorithms.flatMap fun a =>
      [.extend pcr a (digest a), .logEvent ⟨pcr, a, digest a, type, data⟩])) := by
  induction algorithms with
  | nil => exact .nil
  | cons a rest ih =>
      obtain ⟨ha, hrest⟩ := List.forall_mem_cons.mp hdigest
      exact .pair hknown hm hchain htype (.hashed hy haction hconverted ha) (ih hrest)

end Justified

/-- An action that mirrors its extends and announces nothing has written justified records, if its measurement is
among the evidence. -/
theorem justified_application {w : Application} (hknown : causes s = .ok known)
    (hmirrored : w.cause.action.isMirrored = true) (hquiet : w.cause.action.isQuiet = true)
    (hshown : w.cause.action.measuredSource?.isSome = true →
      ∃ m ∈ s.measured.toList, ∃ u, w.Shows algorithms u m) : Justified known s actions w.records := by
  obtain ⟨y, st⟩ := w
  simp only at hmirrored hquiet hshown
  cases haction : y.action with
  | tpmInit locality =>
      rw [Application.records, haction, Action.issues]
      split
      · exact .start .nil
      · exact .nil
  | tpmExtend pcr source a =>
      rw [haction] at hmirrored
      cases hmirrored
  | logEvent pcr a digest type data =>
      rw [haction] at hmirrored hquiet
      exact absurd (of_decide_eq_true hmirrored) (of_decide_eq_true hquiet)
  | measure pcr source type data =>
      obtain ⟨m, hm, u, hcause, hchain, -, -, cs, -, hmeasures, hrecords, -⟩ := hshown (by rw [haction]; rfl)
      rw [haction] at hmirrored hmeasures
      cases hmeasures with
      | event hconverted hdigest =>
          rw [hrecords]
          exact .of_measure haction (of_decide_eq_true hmirrored) (lookup_of_causes hknown hm hchain hcause) hm
            hchain hcause hconverted hdigest
  | _ =>
      rw [Application.records, haction]
      exact .nil

theorem justified_pair {w w' : Application} (hknown : causes s = .ok known) {pcr : Int} {d : Data}
    {type : EventType} {data : Option Bytes} (hx : w.cause.action = .tpmExtend pcr (.fixed d) a)
    (hy : w'.cause.action = .logEvent pcr a digest type data) (hdigest : d.converted = .ok digest)
    (htype : type ≠ .noAction) (hfault : w'.fault? = none)
    (hshown : ∃ m ∈ s.measured.toList, ∃ u, w.Shows algorithms u m)
    (hpair : [w.cause, w'.cause] <:+: actions) : Justified known s actions (w.records ++ w'.records) := by
  obtain ⟨m, hm, u, hcause, hchain, hsource, hdata, cs, -, hmeasures, hrecords, -⟩ := hshown
  rw [hx] at hmeasures hsource
  -- The extended digest is that of the fixed data, as is the one in the event.
  obtain rfl : d = m.data := by
    rw [← Option.some.inj hsource] at hdata
    exact Except.ok.inj hdata
  cases hmeasures with
  | extend hconverted =>
      obtain rfl := Except.ok.inj (hdigest.symm.trans hconverted)
      rw [hrecords, w'.records_of_logEvent hfault hy]
      exact .pair (lookup_of_causes hknown hm hchain hcause) hm hchain htype
        (.converted hpair hx hy hcause hconverted) .nil

/-- The applications of actions that mirror their extends and announce nothing have written justified records, if
none has failed and all that have measured are among the evidence. -/
theorem justified_applications {index : Nat} {st : State} (hknown : causes s = .ok known)
    (hactions : Mirroring (actions.map IssuedAction.action)) (hquiet : ∀ x ∈ actions, x.action.isQuiet = true)
    (hfault : ∀ x ∈ applications index (applied actions) st, x.fault? = none)
    (hshown : ∀ x ∈ applications index (applied actions) st, x.cause.action.measuredSource?.isSome = true →
      ∃ m ∈ s.measured.toList, ∃ u, x.Shows algorithms u m) :
    Justified known s (applied actions)
      ((applications index (applied actions) st).flatMap Application.records) := by
  generalize hmap : actions.map IssuedAction.action = as at hactions
  induction hactions generalizing index actions st with
  | nil =>
      obtain rfl := List.map_eq_nil_iff.mp hmap
      exact .nil
  | @single action rest hmirrored _ ih =>
      obtain ⟨x, later, rfl, rfl, rfl⟩ := List.map_eq_cons_iff.mp hmap
      obtain ⟨hx, hlaterQuiet⟩ := List.forall_mem_cons.mp hquiet
      rw [applied, applications] at hfault hshown ⊢
      obtain ⟨-, hlaterFault⟩ := List.forall_mem_cons.mp hfault
      obtain ⟨hfirstShown, hlaterShown⟩ := List.forall_mem_cons.mp hshown
      rw [List.flatMap_cons]
      refine (justified_application hknown hmirrored hx hfirstShown).append ?_
      split
      · exact .nil
      · rename_i hends
        rw [if_neg hends] at hlaterFault hlaterShown
        exact (ih hlaterQuiet hlaterFault hlaterShown rfl).mono (List.suffix_cons _ _).isInfix
  | @pair pcr d a digest type data rest hdigest htype _ ih =>
      obtain ⟨x, rest, rfl, hx, hrest⟩ := List.map_eq_cons_iff.mp hmap
      obtain ⟨y, later, rfl, hy, rfl⟩ := List.map_eq_cons_iff.mp hrest
      have hboth : applied (x :: y :: later) = x :: y :: applied later := by
        rw [applied, applied, hx, hy]
        rfl
      rw [hboth, applications, applications] at hfault hshown
      obtain ⟨-, hfault⟩ := List.forall_mem_cons.mp hfault
      obtain ⟨hevent, hlaterFault⟩ := List.forall_mem_cons.mp hfault
      obtain ⟨hmeasured, hshown⟩ := List.forall_mem_cons.mp hshown
      have hlater := ih (fun z hz => hquiet z (by simp [hz])) hlaterFault (List.forall_mem_cons.mp hshown).2 rfl
      rw [hboth, applications, applications, List.flatMap_cons, List.flatMap_cons, ← List.append_assoc]
      refine (justified_pair hknown hx hy hdigest htype hevent (hmeasured ?_) ?_).append
        (hlater.mono (List.suffix_append [x, y] _).isInfix)
      · rw [hx]
        rfl
      · exact (List.prefix_append [x, y] _).isInfix

/-! ## The entries of a step -/

def logsFor (a : Algorithm) (r : CommandRecord) : Bool :=
  match r.command with
  | .logEvent e => e.pcr = 0 && e.algorithm = a
  | _ => false

section Bank
variable {place : Option Coordinates} {cause : Option IssuedAction} {pcr : Int} {e : EventEntry}

theorem effectOf_extend (h : pcr = 0 ∧ b = a) : effectOf known 0 a ⟨.extend pcr b digest, place, cause⟩ =
    (place, .extended (cause.bind fun x => known.lookup x.identity)) := by
  simp [effectOf, h]

theorem effectOf_extend_of_not (h : ¬ (pcr = 0 ∧ b = a)) :
    effectOf known 0 a ⟨.extend pcr b digest, place, cause⟩ = (place, .nothing) := by
  simp [effectOf, h]

theorem effectOf_logEvent (h : e.pcr = 0 ∧ e.algorithm = a) :
    effectOf known 0 a ⟨.logEvent e, place, cause⟩ = (place, .logged e) := by
  simp [effectOf, h]

theorem effectOf_logEvent_of_not (h : ¬ (e.pcr = 0 ∧ e.algorithm = a)) :
    effectOf known 0 a ⟨.logEvent e, place, cause⟩ = (place, .nothing) := by
  simp [effectOf, h]

theorem logsFor_logEvent : logsFor a ⟨.logEvent e, place, cause⟩ = true ↔ e.pcr = 0 ∧ e.algorithm = a := by
  simp [logsFor]

end Bank

theorem forall₂_entries {whole : List CommandRecord} (hsub : rs ⊆ whole) (known : Causes) (a : Algorithm) :
    List.Forall₂ (fun r e => r ∈ whole ∧ r.command = .logEvent e ∧ e.algorithm = a) (rs.filter (logsFor a))
      (entries (rs.map (effectOf known 0 a))) := by
  induction rs with
  | nil => exact .nil
  | cons r rest ih =>
      obtain ⟨hr, hrest⟩ := List.cons_subset.mp hsub
      have hlater := ih hrest
      obtain ⟨c, place, cause⟩ := r
      rw [List.map_cons]
      cases c with
      | init locality => exact hlater
      | extend pcr b digest =>
          by_cases hbank : pcr = 0 ∧ b = a
          · rw [effectOf_extend hbank]
            exact hlater
          · rw [effectOf_extend_of_not hbank]
            exact hlater
      | logEvent e =>
          by_cases hbank : e.pcr = 0 ∧ e.algorithm = a
          · rw [effectOf_logEvent hbank, List.filter_cons_of_pos (logsFor_logEvent.mpr hbank)]
            exact .cons ⟨hr, rfl, hbank.2⟩ hlater
          · rw [effectOf_logEvent_of_not hbank, List.filter_cons_of_neg (mt logsFor_logEvent.mp hbank)]
            exact hlater

/-- An entry whose evidence justifies its digest, with the record of the event. -/
structure Sourced (s : State) (actions : List IssuedAction) (a : Algorithm) (whole : List CommandRecord)
    (place : Option Coordinates) (r : CommandRecord) (x : TracedEntry) : Prop where
  mem : r ∈ whole
  command : r.command = .logEvent x.entry
  place : x.place = place
  type : x.entry.type ≠ .noAction
  source : ∃ m y, x.measurement = some m ∧ m ∈ s.measured.toList ∧ m.chain = some .tpm ∧ r.action = some y ∧
    Justifies actions a x.entry.digest y m

/-- Justified records have as many entries as measurements, and each entry is paired with its own. -/
theorem Justified.forall₂ {whole : List CommandRecord} (h : Justified known s actions rs) (hsub : rs ⊆ whole)
    (a : Algorithm) (place : Option Coordinates) :
    (entries (rs.map (effectOf known 0 a))).length = (measurements (rs.map (effectOf known 0 a))).length ∧
    List.Forall₂ (Sourced s actions a whole place) (rs.filter (logsFor a))
      (List.zipWith (fun e m => ⟨e, m, place⟩) (entries (rs.map (effectOf known 0 a)))
        (measurements (rs.map (effectOf known 0 a)))) := by
  induction h with
  | nil => exact ⟨rfl, .nil⟩
  | start _ ih => exact ih (List.cons_subset.mp hsub).2
  | @pair pcr b digest type data before behind x y m rest hlookup hm hchain htype hjustifies _ ih =>
      obtain ⟨-, hrest⟩ := List.cons_subset.mp hsub
      obtain ⟨hmem, hrest⟩ := List.cons_subset.mp hrest
      obtain ⟨hlength, hlater⟩ := ih hrest
      have hextend : logsFor a ⟨.extend pcr b digest, before, some x⟩ = false := rfl
      rw [List.map_cons, List.map_cons, List.filter_cons_of_neg (by simp [hextend])]
      by_cases hbank : pcr = 0 ∧ b = a
      · rw [effectOf_extend hbank, effectOf_logEvent hbank, Option.bind_some, hlookup,
          List.filter_cons_of_pos (logsFor_logEvent.mpr hbank)]
        obtain ⟨rfl, rfl⟩ := hbank
        exact ⟨congrArg (· + 1) hlength,
          .cons ⟨hmem, rfl, rfl, htype, m, y, rfl, hm, hchain, rfl, hjustifies⟩ hlater⟩
      · rw [effectOf_extend_of_not hbank, effectOf_logEvent_of_not hbank,
          List.filter_cons_of_neg (mt logsFor_logEvent.mp hbank)]
        exact ⟨hlength, hlater⟩

/-! ## Executed steps -/

/-- What an entry is traced to if a step has logged it. The entry names the step, and it is without a measurement
only if it announces a start. Otherwise its measurement is among the evidence and justifies its digest. -/
structure Tells (flows : FlowCatalog) (s : State) (a : Algorithm) (e : Execution) (r : CommandRecord)
    (x : TracedEntry) : Prop where
  command : r.command = .logEvent x.entry
  found : (flows.steps e.flow)[e.index]? = some e.step
  place : ∃ k : Nat, x.place = some ⟨some e.flow, e.index, k⟩
  unpaired : x.measurement = none ↔ ∃ locality, x.entry = Tpm.announcement locality a
  cause : ∃ y ∈ e.applied, r.action = some y ∧
    (y.action.measuredSource?.isSome = true → x.measurement.isSome = true) ∧
    ∀ m, x.measurement = some m →
      m ∈ s.measured.toList ∧ m.chain = some .tpm ∧ Justifies e.applied a x.entry.digest y m

section Step
variable {flows : FlowCatalog} {o : Option Fault} {e : Execution} {r : CommandRecord} {entry : EventEntry}
  {x : TracedEntry}

theorem exists_place (hr : r ∈ e.records) :
    ∃ k : Nat, (e.records.map (effectOf known 0 a)).head?.bind Prod.fst = some ⟨some e.flow, e.index, k⟩ := by
  cases hrecords : e.records with
  | nil =>
      rw [hrecords] at hr
      cases hr
  | cons q rest =>
      obtain ⟨k, -, -, -, hplace, -⟩ := Boot.exists_cause_of_mem_records (hrecords ▸ List.mem_cons_self (a := q))
      exact ⟨k, hplace⟩

theorem Sourced.tells (he : e.Attributed flows o)
    (h : Sourced s e.applied a e.records ((e.records.map (effectOf known 0 a)).head?.bind Prod.fst) r x) :
    Tells flows s a e r x where
  command := h.command
  found := he.found
  place := h.place ▸ exists_place h.mem
  unpaired := by
    obtain ⟨m, -, hm, -⟩ := h.source
    refine ⟨fun hnone => ?_, fun ⟨locality, hannounced⟩ => ?_⟩
    · rw [hm] at hnone
      cases hnone
    · exact absurd (congrArg EventEntry.type hannounced) h.type
  cause := by
    obtain ⟨m, y, hm, hmem, hchain, hy, hjustifies⟩ := h.source
    obtain ⟨k, z, hz, -, -, hcause⟩ := Boot.exists_cause_of_mem_records h.mem
    obtain rfl : z = y := Option.some.inj (hcause.symm.trans hy)
    refine ⟨z, List.mem_of_getElem? hz, hy, fun _ => by rw [hm]; rfl, fun n hn => ?_⟩
    obtain rfl : m = n := Option.some.inj (hm.symm.trans hn)
    exact ⟨hmem, hchain, hjustifies⟩

/-- Nothing that an announced start does is a measurement. -/
theorem not_measures_of_announced {locality : Int} (hstep : e.step = .initTpm locality true)
    (hy : y ∈ e.applied) : y.action.measuredSource? = none := by
  obtain ⟨produced, hactions, z, hz, heq⟩ :=
    Boot.exists_of_mem_issuedBy ((Boot.isPrefix_applied e.produced).subset hy)
  have hproduces := Step.produces_of_mem hactions z hz
  rw [hstep, heq] at hproduces
  generalize y.action = action at hproduces
  cases hproduces <;> rfl

theorem tells_of_announced {locality : Int} (he : e.Attributed flows o)
    (hstep : e.step = .initTpm locality true)
    (hcommands : e.records.map CommandRecord.command = Tpm.announcedStart locality algorithms)
    (hr : r ∈ e.records) (hlogs : r.command = .logEvent entry) (ha : entry.algorithm = a) :
    Tells flows s a e r ⟨entry, none, (e.records.map (effectOf known 0 a)).head?.bind Prod.fst⟩ where
  command := hlogs
  found := he.found
  place := exists_place hr
  unpaired := by
    have hmem := List.mem_map_of_mem (f := CommandRecord.command) hr
    rw [hlogs, hcommands, ← Tpm.mem_logged_iff, Tpm.logged_announcedStart] at hmem
    obtain ⟨b, -, hannounced⟩ := List.mem_map.mp hmem
    have hb : b = a := (congrArg EventEntry.algorithm hannounced).trans ha
    exact ⟨fun _ => ⟨locality, hb ▸ hannounced.symm⟩, fun _ => rfl⟩
  cause := by
    obtain ⟨k, y, hy, -, -, hcause⟩ := Boot.exists_cause_of_mem_records hr
    have hmem := List.mem_of_getElem? hy
    refine ⟨y, hmem, hcause, fun hmeasures => ?_, fun m hm => ?_⟩
    · rw [not_measures_of_announced hstep hmem] at hmeasures
      cases hmeasures
    · cases hm

/-- The entries of a clean step are traced to what its actions have measured. -/
theorem exists_tells {t : Tpm} {measured : List Evidence} {xs : List Application} (he : e.Attributed flows o)
    (hclean : e.Clean) (hregular : e.Regular algorithms)
    (hstep : e.step.isQuiet = true ∨ e.step.announcesStart = true) (hs : Boot.Accounted t measured xs s)
    (hsub : e.applications ⊆ xs) (hknown : causes s = .ok known) (a : Algorithm) :
    ∃ traced, ofGroup known a e.records = .ok traced ∧
      List.Forall₂ (Tells flows s a e) (e.records.filter (logsFor a)) traced := by
  rcases hstep with hquiet | hannounces
  · have hmirroring := Step.mirroring_actions hregular.mirrored hclean.actions
    rw [← Boot.map_action_identify e.start.issued] at hmirroring
    have hall : ∀ x ∈ e.produced, x.action.isQuiet = true := by
      intro x hx
      obtain ⟨produced, hactions, y, hy, heq⟩ := Boot.exists_of_mem_issuedBy hx
      exact heq ▸ Step.isQuiet_of_produces (Step.produces_of_mem hactions y hy) hquiet
    have hfault := hclean.fault? he
    have hjustified : Justified known s e.applied e.records := by
      rw [← he.records_applications]
      exact justified_applications hknown hmirroring hall hfault fun x hx =>
        hs.exists_shows (hsub hx) (hfault x hx)
    obtain ⟨hlength, htells⟩ := hjustified.forall₂ (List.Subset.refl _) a _
    exact ⟨_, ofStep_of_paired hlength, htells.imp fun _ _ h => h.tells he⟩
  · obtain ⟨locality, hinit⟩ := Step.exists_of_announcesStart hannounces
    have hcommands := hregular.start locality hinit
    have hnone : measurements (e.records.map (effectOf known 0 a)) = [] := by
      rw [← List.length_eq_zero_iff, length_measurements, hcommands, Tpm.extended_announcedStart]
      rfl
    refine ⟨_, if_pos (List.isEmpty_iff.mpr hnone), List.forall₂_map_right_iff.mpr ?_⟩
    exact (forall₂_entries (List.Subset.refl _) known a).imp fun _ _ ⟨hr, hlogs, ha⟩ =>
      tells_of_announced he hinit hcommands hr hlogs ha

end Step

/-! ## Whole runs -/

/-- The records of executed steps which log an event of register zero for an algorithm, each with its step. -/
def loggedBy (a : Algorithm) (es : List Execution) : List (Execution × CommandRecord) :=
  es.flatMap fun e => (e.records.filter (logsFor a)).map fun r => (e, r)

theorem forall₂_flatten {flows : FlowCatalog} {es : List Execution} {groups : List (List TracedEntry)}
    (h : (es.map Execution.records).mapM (ofGroup known a) = .ok groups)
    (hall : ∀ e ∈ es, ∃ traced, ofGroup known a e.records = .ok traced ∧
      List.Forall₂ (Tells flows s a e) (e.records.filter (logsFor a)) traced) :
    List.Forall₂ (fun p x => Tells flows s a p.1 p.2 x) (loggedBy a es) groups.flatten := by
  induction es generalizing groups with
  | nil =>
      cases h
      exact .nil
  | cons e rest ih =>
      obtain ⟨⟨traced, htraced, htells⟩, hlater⟩ := List.forall_mem_cons.mp hall
      rw [List.map_cons, List.mapM_cons, htraced, ok_bind] at h
      obtain ⟨later, hrest, h⟩ := bind_eq_ok_iff.mp h
      cases h
      rw [loggedBy, List.flatMap_cons, List.flatten_cons]
      refine List.rel_append ?_ (ih hrest hlater)
      exact List.forall₂_map_left_iff.mpr htells

/-- The log of a root run without issues is traced, for every algorithm of the TPM. The entries are those of
register zero in the event log, in order, each with the step that has logged it and the evidence of its digest.
Only announcements of a start are without evidence. -/
theorem root_run_paired {flows : FlowCatalog} {s : State} {algorithms : List Algorithm} {maxSteps : Int}
    {last : Boot} {a : Algorithm} (hfresh : s.tpm = some (Tpm.fresh algorithms))
    (hunmeasured : ∀ m ∈ s.measured.toList, m.chain ≠ some .tpm)
    (hrun : Boot.complete flows (Boot.ofFlow s (Shipped.ref "Root") maxSteps) = (none, last))
    (hclean : ∀ r ∈ last.log.toList, r.issues = []) (ha : a ∈ algorithms) :
    ∃ es last' t traced,
      Boot.Executes flows (Boot.ofFlow s (Shipped.ref "Root") maxSteps) es none last' ∧
      last.state = last'.state ∧ last.state.tpm = some t ∧
      t.commands.toList = es.flatMap Execution.records ∧
      ofState last.state 0 a = .ok traced ∧
      traced.map entry = EventLog.entriesOf t.events.toList 0 a ∧
      List.Forall₂ (fun p x => Tells flows last.state a p.1 p.2 x) (loggedBy a es) traced := by
  obtain ⟨es, last', hexecutes, hstate, hlog⟩ :=
    Boot.exists_executes flows (Boot.ofFlow s (Shipped.ref "Root") maxSteps)
  rw [hrun] at hexecutes hstate hlog
  rw [hlog] at hclean
  have hstart := Boot.onward_root flows s maxSteps
  have hsteps := Boot.clean_of_executes hexecutes hclean
  obtain ⟨t, haccepts, ht, hregular⟩ := Boot.regular_of_executes hexecutes hstart hsteps hfresh
  obtain ⟨known, groups, hknown, hgroups, htraced, hentries⟩ :=
    Boot.exists_traced hexecutes hstart hfresh hunmeasured haccepts ht hregular ha
  have haccounted := Boot.accounted_of_executes hexecutes hstart.bound (Boot.accounted_start hfresh)
  rw [List.nil_append] at haccounted
  have hshipped := Boot.shipped_of_executes hexecutes hstart
  have hattributed := (Boot.attributed_of_executes hexecutes hstart.bound).2
  refine ⟨es, last', t, groups.flatten, hexecutes, hstate, hstate ▸ ht, ?_, hstate ▸ htraced, hentries, ?_⟩
  · exact (Tpm.commands_of_accepts haccepts).1
  · rw [hstate]
    refine forall₂_flatten hgroups fun e he => ?_
    obtain ⟨f, hf, -, hfound⟩ := Shipped.steps_of_isShipped (hshipped e he) flows
    have hmem : e.step ∈ f.steps := hfound ▸ List.mem_of_getElem? (hattributed e he).found
    exact exists_tells (hattributed e he) (hsteps e he) (hregular e he) (Shipped.steps_regular f hf e.step hmem).2
      haccounted (fun x hx => List.mem_flatMap.mpr ⟨e, he, hx⟩) hknown a

def loggedCount (a : Algorithm) (b : Boot) : Nat :=
  b.state.tpm.elim 0 fun t => (EventLog.entriesOf t.events.toList 0 a).length

/-- On the machine of two algorithms, fifteen entries are traced. -/
theorem root_run_paired_sample :
    ∃ last es t traced,
      Boot.complete {} (Boot.ofFlow Reconciliation.announcingMachine (Shipped.ref "Root") Boot.usualMaxSteps) =
        (none, last) ∧
      last.state.tpm = some t ∧ t.commands.toList = es.flatMap Execution.records ∧
      ofState last.state 0 .sha256 = .ok traced ∧ traced.length = 15 ∧
      traced.map entry = EventLog.entriesOf t.events.toList 0 .sha256 ∧
      List.Forall₂ (fun p x => Tells {} last.state .sha256 p.1 p.2 x) (loggedBy .sha256 es) traced := by
  have hends : Reconciliation.endsAnnounced (Boot.complete {}
        (Boot.ofFlow Reconciliation.announcingMachine (Shipped.ref "Root") Boot.usualMaxSteps)) = true ∧
      loggedCount .sha256 (Boot.complete {}
        (Boot.ofFlow Reconciliation.announcingMachine (Shipped.ref "Root") Boot.usualMaxSteps)).2 = 15 := by
    decide +kernel
  cases hcomplete : Boot.complete {}
      (Boot.ofFlow Reconciliation.announcingMachine (Shipped.ref "Root") Boot.usualMaxSteps) with
  | mk fault last =>
      rw [hcomplete] at hends
      simp only [Reconciliation.endsAnnounced, Bool.and_eq_true, List.all_eq_true, List.isEmpty_iff] at hends
      obtain ⟨⟨⟨⟨hnone, hclean⟩, -⟩, -⟩, hcount⟩ := hends
      obtain rfl := Option.isNone_iff_eq_none.mp hnone
      obtain ⟨es, -, t, traced, -, -, ht, hcommands, htraced, hentries, htells⟩ :=
        root_run_paired (s := Reconciliation.announcingMachine) rfl (fun m hm => absurd hm List.not_mem_nil)
          hcomplete hclean (a := .sha256) (by decide)
      have hlength : traced.length = 15 := by
        rw [loggedCount, ht, Option.elim_some, ← hentries, List.length_map] at hcount
        exact hcount
      exact ⟨last, es, t, traced, rfl, ht, hcommands, htraced, hlength, hentries, htells⟩

end TracedEntry
end MeasuredBoot
