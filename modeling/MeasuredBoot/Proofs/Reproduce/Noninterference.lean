import MeasuredBoot.Proofs.Reproduce.Recovery
import MeasuredBoot.Proofs.Step.Twin

/-!
# The register does not interfere

Two root runs on machines that differ in the value of the policy status register only execute the same steps,
with the same issues, to the same end, whether they finish, panic or exceed their budget. Their command logs
match entry by entry, and only what the step that measures the data has written differs: the digests are those
of one byte string, with the bytes of the one register and of the other in front.
-/
namespace MeasuredBoot

namespace Boot
variable {p p' : TxtPublic} {register register' : Bytes}

/-! ## Steps in lockstep -/

section Run
variable (h : (Step.policyStatus p).read = .ok register) (h' : (Step.policyStatus p').read = .ok register')
include h h'

theorem lockstep_executeStep (flow : FlowRef) {step : Step} (hstep : step.IsTame) :
    Lockstep (Boot.Twin p p') (executeStep flow step) (executeStep flow step) := by
  refine .get_bind fun b b' hb => .bind (relates_twin.lockstep_note _ _ _) fun _ => ?_
  obtain ⟨hissues, hproduced⟩ := twin_produce h h' hb.state hstep
  cases hx : produce step b.state with
  | mk produced failed =>
      cases hy : produce step b'.state with
      | mk produced' failed' =>
          rw [hx, hy] at hissues hproduced
          obtain rfl : failed' = failed := hissues
          refine .get_bind fun c c' hc => ?_
          rw [hc.issued]
          refine Lockstep.bind (.modify fun d d' hd => ⟨hd.state, hd.maxSteps, ?_, hd.log⟩) fun _ => ?_
          · have hlength : produced.length = produced'.length := by simpa using hproduced.length_eq
            rw [hd.issued, hlength]
          · refine (lockstep_applyActions flow 0 (forall₂_identify hproduced _ _)).bind fun issues => ?_
            refine .get_bind fun d d' hd => ?_
            simp only [actorCode_eq hd.state]
            refine .modify fun e e' he => ⟨he.state, he.maxSteps, he.issued, ?_⟩
            rw [Array.toList_push, Array.toList_push]
            exact List.rel_append he.log (.cons ⟨rfl, hd.state.actor_eq, rfl, rfl⟩ .nil)

theorem lockstep_nextStep (flows : FlowCatalog) :
    Lockstep (Boot.Twin p p') (nextStep flows) (nextStep flows) := by
  refine .get_bind fun b b' hb => ?_
  rw [hb.state.flow_eq]
  obtain ⟨flow, hflow, hshipped⟩ := hb.state.shipped
  rw [hflow]
  refine Lockstep.bind (.modify fun c c' hc => hc.withState hc.state.nextStep) fun _ => ?_
  refine .get_bind fun c c' hc => ?_
  rw [hc.state.step_eq]
  cases hfound : (flows.steps flow)[c.state.step.toNat]? with
  | none => exact .pure false
  | some step =>
      have hsize : c'.log.size = c.log.size := hc.log.length_eq.symm
      rw [hc.maxSteps, hsize]
      have hexecute := (lockstep_executeStep h h' flow (Shipped.isTame_of_isShipped hshipped hfound)).bind
        fun _ => Lockstep.pure true
      simp only
      split
      · exact .bind (.throw _) fun _ => hexecute
      · exact hexecute

end Run

end Boot

namespace Command

def digested? : Command → Option (Algorithm × Bytes)
  | init _ => none
  | extend _ a digest => some (a, digest)
  | logEvent e => some (e.algorithm, e.digest)

end Command

namespace Pcr0

abbrev space (v : UInt64) : TxtPublic := .ofList [Register.acmPolicyStatus v.toNat]

/-- Among the records of a step, one extends register zero with the digest of the data, which begin with the
bytes of a register. -/
def MeasuredWith (log : List CommandRecord) (r : CommandRecord) (a : Algorithm) (data register : Bytes) :
    Prop :=
  ∃ q ∈ log, Coordinates.sameStep q.place r.place = true ∧ (∃ digest, q.command = .extend 0 a digest) ∧
    dataOf q = .ok (data, register)

/-- Two actions of the step that measures the data, on machines with either value: extends with the same
references behind those to the register, or events that are the same up to their digests. -/
inductive DataCauses (v v' : UInt64) : Action → Action → Prop
  | extend (rs : References) (a : Algorithm) : DataCauses v v'
      (.tpmExtend 0 (.fixed (.referenced (Step.policyStatus (space v) :: rs) (some a))) a)
      (.tpmExtend 0 (.fixed (.referenced (Step.policyStatus (space v') :: rs) (some a))) a)
  | event (a : Algorithm) (digest digest' : Bytes) (type : EventType) (data : Option Bytes) :
      DataCauses v v' (.logEvent 0 a digest type data) (.logEvent 0 a digest' type data)

/-- Two records of the step that measures the data, issued under one number at one place, which are the same up
to their digests. These are the digests of the data that were measured in the first log, with the bytes of
either value in front. -/
structure DataRecords (v v' : UInt64) (log : List CommandRecord) (r r' : CommandRecord) : Prop where
  place : r'.place = r.place
  cause : ∃ identity x x', r.action = some ⟨identity, x⟩ ∧ r'.action = some ⟨identity, x'⟩ ∧
    DataCauses v v' x x'
  shape : r.command.SameShape r'.command
  digests : ∃ a data digest digest', r.command.digested? = some (a, digest) ∧
    r'.command.digested? = some (a, digest') ∧
    MeasuredWith log r a data (RegisterSearch.bytes v.toNat) ∧
    RegisterSearch.dataDigest data (RegisterSearch.bytes v.toNat) a = .ok digest ∧
    RegisterSearch.dataDigest data (RegisterSearch.bytes v'.toNat) a = .ok digest'

/-- A record of one log and that of the other in its place: they are equal, unless the step that measures the
data has issued them. -/
inductive Corresponds (flows : FlowCatalog) (v v' : UInt64) (log : List CommandRecord) :
    CommandRecord → CommandRecord → Prop
  | same {r : CommandRecord} : isDataMeasurement flows r = .ok false → Corresponds flows v v' log r r
  | data {r r' : CommandRecord} : isDataMeasurement flows r = .ok true → DataRecords v v' log r r' →
      Corresponds flows v v' log r r'

section Log
variable {flows : FlowCatalog} {v v' : UInt64} {log log' : List CommandRecord}

theorem read_space (v : UInt64) :
    (Step.policyStatus (space v)).read = .ok (RegisterSearch.bytes v.toNat) := by
  rw [RegisterSearch.bytes, RegisterSearch.wrapped_of_lt v.toNat_lt]
  exact Step.read_policyStatus v.toNat_lt

theorem Corresponds.mono {r r' : CommandRecord} (h : Corresponds flows v v' log r r') (hsub : log ⊆ log') :
    Corresponds flows v v' log' r r' := by
  cases h with
  | same hother => exact .same hother
  | data hdata hrecords =>
      obtain ⟨a, data, digest, digest', hd, hd', ⟨q, hq, hmeasured⟩, hdigests⟩ := hrecords.digests
      exact .data hdata ⟨hrecords.place, hrecords.cause, hrecords.shape, a, data, digest, digest', hd, hd',
        ⟨q, hsub hq, hmeasured⟩, hdigests⟩

theorem issues_extend {s : State} (hs : s.tpm.isSome = true) {d : Data} {digest : Bytes}
    (hdigest : d.converted = .ok digest) (pcr : Int) (a : Algorithm) :
    Action.issues s (.tpmExtend pcr (.fixed d) a) = [.extend pcr a digest] := by
  obtain ⟨t, ht⟩ := Option.isSome_iff_exists.mp hs
  rw [Action.issues, Source.resolve, ok_bind, State.theTpm, ht, hdigest]
  rfl

theorem issues_event {s : State} (hs : s.tpm.isSome = true) (pcr : Int) (a : Algorithm) (digest : Bytes)
    (type : EventType) (data : Option Bytes) :
    Action.issues s (.logEvent pcr a digest type data) = [.logEvent ⟨pcr, a, digest, type, data⟩] :=
  if_pos hs

variable {flow : FlowRef} {step : Int} {index n : Nat} {s s' : State}

theorem written_cons {x : IssuedAction} (hends : x.action.ends = false) {c : Command}
    (hissues : Action.issues { s with action := index } x.action = [c]) (rest : List IssuedAction) :
    Boot.written flow step index (Boot.applied (x :: rest)) s =
      ⟨c, some ⟨some flow, step, index⟩, some x⟩ ::
        Boot.written flow step (index + 1) (Boot.applied rest)
          (after (Action.apply x) { s with action := index }) := by
  rw [Boot.applied, hends, Boot.written, hissues]
  rfl

theorem dataDigest_append {front register rest : Bytes} (h : front.length = 8) (a : Algorithm) :
    RegisterSearch.dataDigest (front ++ rest) register a = hashBytes a (register ++ rest) := by
  rw [RegisterSearch.dataDigest, List.drop_left' h]

theorem dataOf_extend {t : TxtPublic} {rs : References} {register rest : Bytes}
    (hregister : (Step.policyStatus t).read = .ok register) (hrest : References.read rs = .ok rest)
    (a : Algorithm) (c : Command) (place : Option Coordinates) (identity : ActionIdentity) :
    dataOf ⟨c, place, some ⟨identity,
      .tpmExtend 0 (.fixed (.referenced (Step.policyStatus t :: rs) (some a))) a⟩⟩ =
        .ok (register ++ rest, register) := by
  have hread : References.read (Step.policyStatus t :: rs) = .ok (register ++ rest) := by
    rw [References.read_cons, hregister, hrest]
    rfl
  simp only [dataOf, Option.map_some, Data.references, Data.raw, hread, hregister, ok_bind]
  rfl

def extending (t : TxtPublic) (rs : References) (a : Algorithm) (n : Nat) : IssuedAction :=
  ⟨.issued n, .tpmExtend 0 (.fixed (.referenced (Step.policyStatus t :: rs) (some a))) a⟩

def reporting (a : Algorithm) (digest : Bytes) (n : Nat) : IssuedAction :=
  ⟨.issued n, .logEvent 0 a digest .crtmContents (some (Bytes.ofLatin (Step.pcr0Description ++ a.name)))⟩

def extendRecord (t : TxtPublic) (rs : References) (a : Algorithm) (digest : Bytes) (place : Coordinates)
    (n : Nat) : CommandRecord := ⟨.extend 0 a digest, some place, some (extending t rs a n)⟩

def eventRecord (a : Algorithm) (digest : Bytes) (place : Coordinates) (n : Nat) : CommandRecord :=
  ⟨.logEvent ⟨0, a, digest, .crtmContents, some (Bytes.ofLatin (Step.pcr0Description ++ a.name))⟩,
    some place, some (reporting a digest n)⟩

theorem written_measuring {t : TxtPublic} {rs : References} {a : Algorithm} {digest : Bytes}
    (hs : s.tpm.isSome = true)
    (hdigest : (Data.referenced (Step.policyStatus t :: rs) (some a)).converted = .ok digest)
    (hbetween : (after (Action.apply (extending t rs a n)) { s with action := index }).tpm.isSome = true)
    (later : List Action) :
    Boot.written flow step index
        (Boot.applied (Boot.identify n (Step.newly (Step.measuring t rs a digest ++ later)))) s =
      extendRecord t rs a digest ⟨some flow, step, index⟩ n ::
      eventRecord a digest ⟨some flow, step, (index + 1 : Nat)⟩ (n + 1) ::
      Boot.written flow step (index + 2) (Boot.applied (Boot.identify (n + 2) (Step.newly later)))
        (after (Action.apply (reporting a digest (n + 1)))
          { after (Action.apply (extending t rs a n)) { s with action := index } with
            action := (index + 1 : Nat) }) := by
  have hlist : Boot.identify n (Step.newly (Step.measuring t rs a digest ++ later)) =
      extending t rs a n :: reporting a digest (n + 1) :: Boot.identify (n + 2) (Step.newly later) := rfl
  rw [hlist, written_cons rfl (issues_extend hs hdigest 0 a),
    written_cons rfl (issues_event hbetween _ _ _ _ _)]
  rfl

theorem sameStep_self (flow : Option FlowRef) (step i j : Int) :
    Coordinates.sameStep (some ⟨flow, step, i⟩) (some ⟨flow, step, j⟩) = true := by
  simp [Coordinates.sameStep]

/-- Records with the digests of data that were measured at their step, up to the register. -/
theorem DataRecords.of_measured {rs : References} {a : Algorithm} {rest digest digest' : Bytes}
    {place : Coordinates} {r r' : CommandRecord} (hrest : References.read rs = .ok rest)
    (hdigest : hashBytes a (RegisterSearch.bytes v.toNat ++ rest) = .ok digest)
    (hdigest' : hashBytes a (RegisterSearch.bytes v'.toNat ++ rest) = .ok digest')
    (hmeasured : extendRecord (space v) rs a digest place n ∈ log)
    (hsame : Coordinates.sameStep (some place) r.place = true)
    (hr : r.command.digested? = some (a, digest)) (hr' : r'.command.digested? = some (a, digest'))
    (hplace : r'.place = r.place) (hshape : r.command.SameShape r'.command)
    (hcause : ∃ identity x x', r.action = some ⟨identity, x⟩ ∧ r'.action = some ⟨identity, x'⟩ ∧
      DataCauses v v' x x') : DataRecords v v' log r r' where
  place := hplace
  cause := hcause
  shape := hshape
  digests := by
    have hfront := RegisterSearch.length_bytes v.toNat
    exact ⟨a, RegisterSearch.bytes v.toNat ++ rest, digest, digest', hr, hr',
      ⟨_, hmeasured, hsame, ⟨digest, rfl⟩, dataOf_extend (read_space v) hrest a _ _ _⟩,
      (dataDigest_append hfront a).trans hdigest, (dataDigest_append hfront a).trans hdigest'⟩

theorem corresponds_blocks {parts parts' : List (List Action)}
    (h : List.Forall₂ (Step.Block (space v) (space v') (RegisterSearch.bytes v.toNat)
      (RegisterSearch.bytes v'.toNat)) parts parts')
    (hs : s.Twin (space v) (space v') s')
    (hplace : ∀ c i cause, isDataMeasurement flows ⟨c, some ⟨some flow, step, i⟩, cause⟩ = .ok true) :
    List.Forall₂ (Corresponds flows v v'
        (Boot.written flow step index (Boot.applied (Boot.identify n (Step.newly parts.flatten))) s))
      (Boot.written flow step index (Boot.applied (Boot.identify n (Step.newly parts.flatten))) s)
      (Boot.written flow step index (Boot.applied (Boot.identify n (Step.newly parts'.flatten))) s') := by
  induction h generalizing index n s s' with
  | nil => exact .nil
  | @cons block block' rest rest' hblock _ ih =>
      cases hblock with
      | panic reason => exact .nil
      | @measuring rs a bytes digest digest' hbytes hdigest hdigest' =>
          have hblock : Step.Block (space v) (space v') _ _ _ _ := .measuring hbytes hdigest hdigest'
          obtain ⟨hextend, hlast⟩ := List.forall₂_cons.mp (hblock.twin (read_space v) (read_space v'))
          obtain ⟨hevent, -⟩ := List.forall₂_cons.mp hlast
          -- The boots stay twins while the extend and its event are applied.
          have hbetween : State.Twin _ _ (after (Action.apply (extending (space v) rs a n)) _)
              (after (Action.apply (extending (space v') rs a n)) _) :=
            (Action.lockstep_apply hextend).after (hs.withAction index)
          have hend : State.Twin _ _ (after (Action.apply (reporting a digest (n + 1))) _)
              (after (Action.apply (reporting a digest' (n + 1))) _) :=
            (Action.lockstep_apply hevent).after (hbetween.withAction (index + 1 : Nat))
          rw [List.flatten_cons, List.flatten_cons,
            written_measuring hs.isSome_tpm.1 (Step.converted_of_read (read_space v) hbytes hdigest)
              hbetween.isSome_tpm.1,
            written_measuring hs.isSome_tpm.2 (Step.converted_of_read (read_space v') hbytes hdigest')
              hbetween.isSome_tpm.2]
          refine .cons (.data (hplace _ _ _) ?_) (.cons (.data (hplace _ _ _) ?_) ?_)
          · exact .of_measured hbytes hdigest hdigest' List.mem_cons_self (sameStep_self _ _ _ _)
              rfl rfl rfl (.extend _ _ _ _) ⟨_, _, _, rfl, rfl, .extend rs a⟩
          · exact .of_measured hbytes hdigest hdigest' List.mem_cons_self (sameStep_self _ _ _ _)
              rfl rfl rfl (.logEvent _ _) ⟨_, _, _, rfl, rfl, .event a _ _ _ _⟩
          · exact (ih hend).imp fun _ _ hr => hr.mono fun q hq =>
              List.mem_cons_of_mem _ (List.mem_cons_of_mem _ hq)

/-- The records of a step that does not see the register are equal. -/
theorem corresponds_blind {actions : List IssuedAction} (hs : s.Twin (space v) (space v') s')
    (hall : Boot.AllBlind actions)
    (hplace : ∀ c i cause, isDataMeasurement flows ⟨c, some ⟨some flow, step, i⟩, cause⟩ = .ok false) :
    List.Forall₂ (Corresponds flows v v' log) (Boot.written flow step index actions s)
      (Boot.written flow step index actions s') := by
  rw [Boot.written_eq hs hall]
  refine List.forall₂_same.mpr fun r hr => .same ?_
  obtain ⟨k, a, -, hr, -, -⟩ := Boot.exists_cause_of_mem_written hr
  obtain ⟨c, place, cause⟩ := r
  obtain rfl := hr
  exact hplace c _ cause

theorem isDataMeasurement_at {k : Int} (hk : 0 ≤ k) {x : Step} (h : (flows.steps flow)[k.toNat]? = some x)
    (c : Command) (i : Int) (cause : Option IssuedAction) :
    isDataMeasurement flows ⟨c, some ⟨some flow, k, i⟩, cause⟩ = .ok x.isMeasurePcr0Data := by
  have hstep := isDataMeasurement_of_step h c i cause
  rwa [Int.toNat_of_nonneg hk] at hstep

/-- What the next steps of boots on twins write corresponds. -/
theorem corresponds_nextStep {b b' : Boot} (hb : b.Twin (space v) (space v') b')
    (hflow : b.state.flow = some flow) :
    let w := Boot.written flow (Boot.moved b).state.step 0 (Boot.applied (Boot.nextIssued flows flow b))
      (Boot.moved b).state
    let w' := Boot.written flow (Boot.moved b').state.step 0 (Boot.applied (Boot.nextIssued flows flow b'))
      (Boot.moved b').state
    List.Forall₂ (Corresponds flows v v' w) w w' := by
  obtain ⟨flow', hflow', hshipped⟩ := hb.state.shipped
  obtain rfl : flow' = flow := Option.some.inj (hflow'.symm.trans hflow)
  have hmoved : (Boot.moved b).state.Twin (space v) (space v') (Boot.moved b').state := hb.state.nextStep
  have hat : 0 ≤ (Boot.moved b).state.step := by
    have hbound := hb.state.bound
    simp only [Boot.moved]
    omega
  have hsize : b'.log.size = b.log.size := hb.log.length_eq.symm
  simp only [Boot.nextIssued, hmoved.step_eq, hb.maxSteps, hsize]
  cases hfound : (flows.steps flow')[(Boot.moved b).state.step.toNat]? with
  | none => exact .nil
  | some step =>
      simp only
      split
      · exact .nil
      · have hplace := isDataMeasurement_at hat hfound
        have hissued : (Boot.moved b').issued = (Boot.moved b).issued := hb.issued
        rcases Shipped.isTame_of_isShipped hshipped hfound with ⟨hblind, hwithin⟩ | rfl
        · have hproduced := Boot.allBlind_of_produce hblind hwithin (Boot.moved b).state
          have hall : Boot.AllBlind (Boot.applied (Boot.issuedBy step (Boot.moved b))) := by
            intro a ha
            obtain ⟨x, hx, heq⟩ := Boot.exists_of_mem_identify ((Boot.isPrefix_applied _).subset ha)
            rw [← heq]
            exact hproduced x hx
          have hsame : Boot.issuedBy step (Boot.moved b') = Boot.issuedBy step (Boot.moved b) := by
            rw [Boot.issuedBy, Boot.issuedBy, Boot.produce_eq hmoved hwithin, hissued]
          rw [hsame]
          refine corresponds_blind hmoved hall fun c i cause => ?_
          rw [hplace, Step.isMeasurePcr0Data_of_within hwithin]
        · obtain ⟨-, parts, parts', hparts, hparts', hblocks⟩ :=
            Boot.exists_blocks (read_space v) (read_space v') hmoved
          rw [Boot.issuedBy, Boot.issuedBy, hissued, hparts, hparts']
          exact corresponds_blocks hblocks hmoved hplace

/-! ## Whole runs -/

/-- Two boots on twins whose command logs correspond. -/
def Linked (flows : FlowCatalog) (v v' : UInt64) (b b' : Boot) : Prop :=
  b.Twin (space v) (space v') b' ∧
    List.Forall₂ (Corresponds flows v v' b.state.commandLog) b.state.commandLog b'.state.commandLog

theorem lockstep_nextStep : Lockstep (Linked flows v v') (Boot.nextStep flows) (Boot.nextStep flows) := by
  refine (Boot.lockstep_nextStep (read_space v) (read_space v') flows).and fun b b' hb hlogs => ?_
  obtain ⟨flow, hflow, -⟩ := hb.state.shipped
  have hbound := hb.state.bound
  rw [Boot.commandLog_nextStep hflow hbound,
    Boot.commandLog_nextStep (hb.state.flow_eq.trans hflow) (hb.state.step_eq.symm ▸ hbound)]
  refine List.rel_append ?_ ?_
  · exact hlogs.imp fun _ _ hr => hr.mono (List.subset_append_left _ _)
  · exact (corresponds_nextStep hb hflow).imp fun _ _ hr => hr.mono (List.subset_append_right _ _)

theorem lockstep_steps (fuel : Nat) :
    Lockstep (Linked flows v v') (Boot.steps flows fuel) (Boot.steps flows fuel) := by
  induction fuel with
  | zero => exact .pure ()
  | succ fuel ih =>
      refine lockstep_nextStep.bind fun more => ?_
      cases more with
      | false => exact .pure ()
      | true => exact ih

theorem lockstep_finish : Lockstep (Linked flows v v') (Boot.finish flows) (Boot.finish flows) := by
  refine .get_bind fun b b' hb => ?_
  have hsize : b'.log.size = b.log.size := hb.1.log.length_eq.symm
  rw [hb.1.maxSteps, hsize]
  refine (lockstep_steps _).bind fun _ => .get_bind fun c c' _ => .modify fun d d' hd => ⟨?_, hd.2⟩
  exact ⟨hd.1.state, hd.1.maxSteps, hd.1.issued, hd.1.log⟩

/-- Runs from linked boots have the same outcome and end in linked boots. -/
theorem linked_complete {b b' : Boot} (hb : Linked flows v v' b b') :
    (Boot.complete flows b').1 = (Boot.complete flows b).1 ∧
      Linked flows v v' (Boot.complete flows b).2 (Boot.complete flows b').2 := by
  have hends := lockstep_finish b b' hb
  simp only [Boot.complete]
  cases hx : Boot.finish flows b <;> cases hy : Boot.finish flows b' <;> rw [hx, hy] at hends
  · exact ⟨rfl, hends.2⟩
  · cases hends
  · cases hends
  · exact ⟨congrArg some hends.1, hends.2⟩

theorem linked_start (i : BiosImage) (registers : Option AmdRegisters) (pch psp : Bool)
    (algorithms : List Algorithm) (maxSteps : Int) : Linked flows v v'
      (Boot.ofFlow (machine i registers pch psp algorithms v.toNat) (Shipped.ref "Root") maxSteps)
      (Boot.ofFlow (machine i registers pch psp algorithms v'.toNat) (Shipped.ref "Root") maxSteps) := by
  refine ⟨⟨⟨rfl, rfl, ⟨_, _, rfl, rfl, ?_⟩, ⟨_, rfl, ?_⟩, Int.le_refl _⟩, rfl, rfl, .nil⟩, .nil⟩
  · exact ⟨rfl, rfl⟩
  · decide

end Log

/-- The root runs of two machines that differ in nothing but the value of the policy status register have the
same outcome. They execute the same steps with the same issues and end at the same place, and their command
logs correspond: the records are equal, but for the digests that the step that measures the data has written. -/
theorem root_noninterference (flows : FlowCatalog) (i : BiosImage) (registers : Option AmdRegisters)
    (pch psp : Bool) (algorithms : List Algorithm) (v v' : UInt64) (maxSteps : Int) :
    let run (w : UInt64) := Boot.complete flows (Boot.ofFlow
      (machine i registers pch psp algorithms w.toNat) (Shipped.ref "Root") maxSteps)
    (run v').1 = (run v).1 ∧
      (run v').2.state.coordinates = (run v).2.state.coordinates ∧
      List.Forall₂ StepRecord.Agrees (run v).2.log.toList (run v').2.log.toList ∧
      List.Forall₂ (Corresponds flows v v' (run v).2.state.commandLog)
        (run v).2.state.commandLog (run v').2.state.commandLog := by
  intro run
  have hstart : Linked flows v v' _ _ := linked_start i registers pch psp algorithms maxSteps
  obtain ⟨houtcome, hend, hlogs⟩ := linked_complete hstart
  exact ⟨houtcome, hend.state.coordinates_eq, hend.log, hlogs⟩

end Pcr0
end MeasuredBoot
