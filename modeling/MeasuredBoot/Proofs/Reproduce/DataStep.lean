import MeasuredBoot.Proofs.Reproduce.Noninterference
import MeasuredBoot.Proofs.Reproduce.RoundTrip

/-!
# The measurement of the data in a run

A root run executes the step that measures the data at most once. If the run has no issue, then this step
extends register zero of an algorithm at most once and logs just as much; the measurement is known by its
action, and it is one of the register and of other data. On a machine with another value of the register all
other steps write the same, and this one the same up to its digests.
-/
namespace MeasuredBoot

/-! ## Related lists -/

section Lists
variable {α β : Type} {R : α → β → Prop}

theorem exists_of_forall₂_append {xs ys : List α} {zs : List β} (h : List.Forall₂ R (xs ++ ys) zs) :
    ∃ front back, zs = front ++ back ∧ List.Forall₂ R xs front ∧ List.Forall₂ R ys back := by
  induction xs generalizing zs with
  | nil => exact ⟨[], zs, rfl, .nil, h⟩
  | cons x rest ih =>
      cases h with
      | cons hx hrest =>
          obtain ⟨front, back, rfl, hfront, hback⟩ := ih hrest
          exact ⟨_ :: front, back, rfl, .cons hx hfront, hback⟩

theorem exists_of_mapM_middle {f : α → Except Fault β} {before behind : List α} {x : α} {ys : List β}
    (h : (before ++ x :: behind).mapM f = .ok ys) :
    ∃ front y back, before.mapM f = .ok front ∧ f x = .ok y ∧ behind.mapM f = .ok back ∧
      ys = front ++ y :: back := by
  rw [List.mapM_append, List.mapM_cons] at h
  obtain ⟨front, hfront, h⟩ := bind_eq_ok_iff.mp h
  obtain ⟨rest, hrest, h⟩ := bind_eq_ok_iff.mp h
  obtain ⟨y, hy, hrest⟩ := bind_eq_ok_iff.mp hrest
  obtain ⟨back, hback, hrest⟩ := bind_eq_ok_iff.mp hrest
  cases hrest
  cases h
  exact ⟨front, y, back, hfront, hy, hback, rfl⟩

theorem exists_of_mem_of_forall₂ {xs : List α} {ys : List β} (h : List.Forall₂ R xs ys) {x : α}
    (hx : x ∈ xs) : ∃ y ∈ ys, R x y := by
  obtain ⟨earlier, later, rfl⟩ := List.append_of_mem hx
  obtain ⟨front, back, rfl, -, hback⟩ := exists_of_forall₂_append h
  cases hback with
  | cons hy _ => exact ⟨_, List.mem_append_right _ List.mem_cons_self, hy⟩

end Lists

/-! ## Evidence of clean steps -/

namespace Boot

theorem fault?_of_performs {index : Nat} {actions : List IssuedAction} {s u : State}
    (h : Performs index actions s u) (hs : 0 ≤ s.step) :
    ∀ x ∈ applications index (applied actions) s, x.fault? = none := by
  induction h with
  | done index s => exact fun x hx => absurd hx List.not_mem_nil
  | @switch index a rest s u happly hswitched =>
      have hends : a.action.ends = true := by
        rw [Action.ends, (step_after_apply a index hs).mp (by rw [after_of_ok happly, hswitched]), Bool.true_or]
      rw [applied, if_pos hends]
      refine List.forall_mem_singleton.mpr ?_
      rw [Application.fault?, happly]
  | @next index a rest s v u happly hstayed _ ih =>
      have hswitches : a.action.switches = false := by
        rw [← Bool.not_eq_true, ← step_after_apply a index hs, after_of_ok happly]
        exact hstayed
      have hcalm : a.action.panics = false := by
        rw [← Bool.not_eq_true]
        intro hpanics
        obtain ⟨reason, hreason⟩ := Action.exists_reason_of_panics hpanics
        rw [Action.apply, hreason] at happly
        cases happly
      have hends : ¬ a.action.ends = true := by simp [Action.ends, hswitches, hcalm]
      have hplace := (place_after_apply (a := a) index s hswitches).2
      rw [after_of_ok happly] at hplace
      rw [applied, if_neg hends, applications, after_of_ok happly]
      refine List.forall_mem_cons.mpr ⟨?_, ih (hplace ▸ hs)⟩
      rw [Application.fault?, happly]

theorem Execution.Clean.fault? {flows : FlowCatalog} {o : Option Fault} {e : Execution} (hclean : e.Clean)
    (he : e.Attributed flows o) : ∀ x ∈ e.applications, x.fault? = none := by
  intro x hx
  have happlied : e.applied ≠ [] := by
    intro hnone
    rw [Execution.applications, hnone] at hx
    cases hx
  have hplace := (he.place 0 (List.length_pos_of_ne_nil happlied)).2
  have hbound : 0 ≤ e.start.state.step := hplace ▸ Int.natCast_nonneg e.index
  exact fault?_of_performs hclean.performs hbound x hx

theorem Accounted.exists_evidence {t : Tpm} {measured : List Evidence} {xs : List Application} {s : State}
    (h : Accounted t measured xs s) {x : Application} (hx : x ∈ xs) (hfault : x.fault? = none) {d : Data}
    (hsource : x.cause.action.measuredSource? = some (.fixed d)) :
    ∃ m ∈ s.measured.toList, m.action = some x.cause ∧ m.chain = some .tpm ∧ m.data = d := by
  obtain ⟨m, hm, u, haction, hchain, hfrom, hdata, -⟩ := h.exists_shows hx hfault (by rw [hsource]; rfl)
  refine ⟨m, hm, haction, hchain, ?_⟩
  rw [Option.some.inj (hfrom.symm.trans hsource)] at hdata
  exact (Except.ok.inj hdata).symm

end Boot

/-! ## The one step -/

namespace Shipped

/-- The data are measured by one step only. -/
theorem place_of_data : ∀ f ∈ flows, ∀ p ∈ f.steps.zipIdx, p.1.isMeasurePcr0Data = true →
    f.name = intelVerified.name ∧ p.2 = dataIndex := by
  decide

end Shipped

namespace Boot
open Shipped (isShipped position)

section Run
variable {flows : FlowCatalog} {b last : Boot} {es : List Execution} {o : Option Fault} {next : Nat}

theorem shipped_of_executes (h : Executes flows b es o last) (hb : Onward flows b.state next) :
    ∀ e ∈ es, isShipped e.flow = true := by
  have hfirst {b : Boot} {e : Execution} {next : Nat} (hbegins : e.Begins flows b)
      (hb : Onward flows b.state next) : isShipped e.flow = true := by
    obtain ⟨flow, hflow, hshipped, -⟩ := hb.place
    rwa [Option.some.inj (hbegins.current.symm.trans hflow)]
  induction h generalizing next with
  | ended _ => exact fun e he => absurd he List.not_mem_nil
  | spent _ _ => exact fun e he => absurd he List.not_mem_nil
  | broke hbegins _ _ => exact List.forall_mem_singleton.mpr (hfirst hbegins hb)
  | step hbegins hnext _ ih =>
      obtain ⟨later, -, hlater⟩ := onward_step hbegins hb hnext
      exact List.forall_mem_cons.mpr ⟨hfirst hbegins hb, ih hlater⟩

theorem position_of_data {e : Execution} (hshipped : isShipped e.flow = true) (he : e.Attributed flows o)
    (hdata : e.step.isMeasurePcr0Data = true) :
    position e.flow e.index = position (Shipped.ref Shipped.intelVerified.name) Shipped.dataIndex := by
  obtain ⟨f, hf, hname, hsteps⟩ := Shipped.steps_of_isShipped hshipped flows
  have hfound := he.found
  rw [hsteps] at hfound
  obtain ⟨hverified, hindex⟩ :=
    Shipped.place_of_data f hf (e.step, e.index) (List.mem_zipIdx_iff_getElem?.mpr hfound) hdata
  simp only at hindex
  rw [position, position, ← hname, hverified, hindex]
  rfl

/-- A run from a shipped flow measures the data once at most. -/
theorem exists_dataStep (h : Executes flows b es o last) (hb : Onward flows b.state next) :
    (∀ e ∈ es, e.step.isMeasurePcr0Data = false) ∨
      ∃ before d behind, es = before ++ d :: behind ∧ d.step.isMeasurePcr0Data = true ∧
        ∀ e ∈ before ++ behind, e.step.isMeasurePcr0Data = false := by
  by_cases hnone : ∀ e ∈ es, e.step.isMeasurePcr0Data = false
  · exact .inl hnone
  · simp only [not_forall, Bool.not_eq_false] at hnone
    obtain ⟨d, hd, hdata⟩ := hnone
    have hplace : ∀ e ∈ es, e.step.isMeasurePcr0Data = true →
        position e.flow e.index = position d.flow d.index := by
      have hall := shipped_of_executes h hb
      have hattributed := (attributed_of_executes h hb.bound).2
      intro e he hother
      rw [position_of_data (hall e he) (hattributed e he) hother,
        position_of_data (hall d hd) (hattributed d hd) hdata]
    have hrising := List.pairwise_map.mp (rising_of_executes h hb).2
    obtain ⟨before, behind, rfl⟩ := List.append_of_mem hd
    obtain ⟨-, hlater, hearlier⟩ := List.pairwise_append.mp hrising
    refine .inr ⟨before, d, behind, rfl, hdata, fun e he => ?_⟩
    by_contra hother
    rw [Bool.not_eq_false] at hother
    rcases List.mem_append.mp he with he | he
    · have hlt := hearlier e he d List.mem_cons_self
      have := hplace e (List.mem_append_left _ he) hother
      omega
    · have hlt := (List.pairwise_cons.mp hlater).1 e he
      have := hplace e (List.mem_append_right _ (List.mem_cons_of_mem _ he)) hother
      omega

/-- A record tells whether the step that has written it measures the data. -/
theorem isDataMeasurement_of_mem_records {e : Execution} (he : e.Attributed flows o) {r : CommandRecord}
    (hr : r ∈ e.records) : Pcr0.isDataMeasurement flows r = .ok e.step.isMeasurePcr0Data := by
  obtain ⟨k, x, -, -, hplace, -⟩ := exists_cause_of_mem_records hr
  obtain ⟨c, place, cause⟩ := r
  obtain rfl := hplace
  exact Pcr0.isDataMeasurement_of_step he.found c k cause

end Run
end Boot

/-! ## What the step has measured -/

theorem Reconciliation.measuresRegister_of_isPcr0Data {m : Evidence} {a : Algorithm}
    (h : Step.IsPcr0Data a m.data) : measuresRegister m = true := by
  obtain ⟨t, i, acm, km, bpm, d, hdata⟩ := h
  rw [measuresRegister, hdata]
  rfl

namespace Pcr0
open Boot (Execution)

theorem exists_of_dataOf {r : CommandRecord} {pcr : Int} {first : Reference} {rs : References}
    {hash : Option Algorithm} {a : Algorithm} {data register : Bytes}
    (hr : r.action.map IssuedAction.action = some (.tpmExtend pcr (.fixed (.referenced (first :: rs) hash)) a))
    (h : dataOf r = .ok (data, register)) :
    ∃ rest, first.read = .ok register ∧ References.read rs = .ok rest ∧ data = register ++ rest := by
  simp only [dataOf, hr, Data.references, Data.raw] at h
  obtain ⟨whole, hwhole, h⟩ := bind_eq_ok_iff.mp h
  obtain ⟨front, hfront, h⟩ := bind_eq_ok_iff.mp h
  cases h
  obtain ⟨front', rest, hfront', hrest, rfl⟩ := References.read_cons_eq_ok_iff.mp hwhole
  obtain rfl := Except.ok.inj (hfront.symm.trans hfront')
  exact ⟨rest, hfront, hrest, rfl⟩

/-- A record of an extend of register zero with the register and references to an image, and the evidence under
which its action is known. -/
structure KnownExtend (known : TracedEntry.Causes) (a : Algorithm) (r : CommandRecord) (m : Evidence) :
    Prop where
  cause : ∃ x, r.action = some x ∧ x.action = .tpmExtend 0 (.fixed m.data) a ∧
    known.lookup x.identity = some m
  data : Step.IsPcr0Data a m.data

/-- The data of the record are those of its evidence, and they begin with the register. -/
theorem KnownExtend.data_eq {known : TracedEntry.Causes} {a : Algorithm} {r : CommandRecord} {m : Evidence}
    (h : KnownExtend known a r m) {data register : Bytes} (hdata : dataOf r = .ok (data, register)) :
    m.data.raw = .ok data ∧ ∃ rest, data = register ++ rest := by
  obtain ⟨x, hx, haction, -⟩ := h.cause
  obtain ⟨t, i, acm, km, bpm, d, hreferences⟩ := h.data
  have hr := congrArg (Option.map IssuedAction.action) hx
  rw [Option.map_some, haction, hreferences] at hr
  obtain ⟨rest, hfirst, hrest, rfl⟩ := exists_of_dataOf hr hdata
  rw [hreferences]
  exact ⟨References.read_cons_eq_ok_iff.mpr ⟨register, rest, hfirst, hrest, rfl⟩, rest, rfl⟩

theorem exists_knownExtend {d : Execution} {flows : FlowCatalog} {o : Option Fault}
    (hattributed : d.Attributed flows o) (hclean : d.Clean) (hstep : d.step = .measurePcr0Data) {t : Tpm}
    {measured : List Evidence} {xs : List Boot.Application} {s : State}
    (hs : Boot.Accounted t measured xs s) (hsub : d.applications ⊆ xs) {known : TracedEntry.Causes}
    (hknown : TracedEntry.causes s = .ok known) {r : CommandRecord} (hr : r ∈ d.records) {a : Algorithm}
    (hextend : IsExtend a r.command) : ∃ m, KnownExtend known a r m := by
  obtain ⟨digest, hcommand⟩ := hextend
  obtain ⟨k, x, hk, -, hx, hissue⟩ := Boot.exists_cause_of_mem_written hr
  have happlied : x ∈ d.applied := List.mem_of_getElem? hk
  have hactions := hclean.actions
  rw [hstep] at hactions
  obtain ⟨actions, hproduced, hmap, hall⟩ := Boot.isDataAction_of_identify (n := d.start.issued) hactions
  have hsame : d.produced = Boot.identify d.start.issued (Boot.produce d.step d.start.state).1 := rfl
  rw [hstep] at hsame
  rw [← hsame] at hmap hall
  have hmem : x ∈ d.produced := (Boot.isPrefix_applied d.produced).subset happlied
  have hkind := hall x hmem
  have haction : x.action ∈ actions := hmap ▸ List.mem_map_of_mem hmem
  rw [hcommand] at hissue
  cases hxa : x.action with
  | tpmExtend pcr source b =>
      rw [hxa] at hissue haction hkind
      obtain ⟨digest', heq, -⟩ := hissue
      obtain ⟨rfl, rfl, -⟩ := Command.extend.inj heq
      obtain ⟨data, rfl, hdata⟩ := Step.exists_of_extend_mem hproduced haction
      obtain ⟨y, hy, rfl⟩ := List.mem_map.mp
        ((Boot.map_cause_applications 0 d.applied d.start.state).symm ▸ happlied)
      obtain ⟨m, hm, hcause, hchain, rfl⟩ := hs.exists_evidence (hsub hy)
        (hclean.fault? hattributed y hy) (by rw [hxa]; rfl)
      exact ⟨m, ⟨y.cause, hx, hxa, TracedEntry.lookup_of_causes hknown hm hchain hcause⟩, hdata⟩
  | panic reason =>
      rw [hxa] at hissue
      cases hissue
  | logEvent pcr b digest' type data =>
      rw [hxa] at hissue
      cases hissue
  | _ =>
      rw [hxa] at hkind
      cases hkind

/-! ## The step on two machines -/

section Pair
variable {v v' : UInt64} {log g g' : List CommandRecord} {a : Algorithm}

/-- An event of the step and that of the other machine, which is the same up to its digest. This is the digest
of the data that were measured beside the event, with the bytes of the other value in front. -/
structure Redigested (v v' : UInt64) (log g : List CommandRecord) (e e' : EventEntry) : Prop where
  type : e'.type = e.type
  digest : ∃ r ∈ g, ∃ data, MeasuredWith log r e.algorithm data (RegisterSearch.bytes v.toNat) ∧
    RegisterSearch.dataDigest data (RegisterSearch.bytes v'.toNat) e.algorithm = .ok e'.digest

theorem redigested_entries {whole : List CommandRecord} (h : List.Forall₂ (DataRecords v v' log) g g')
    (hsub : g ⊆ whole) (a : Algorithm) : List.Forall₂ (Redigested v v' log whole)
      (EventLog.entriesOf (Tpm.logged (g.map CommandRecord.command)) 0 a)
      (EventLog.entriesOf (Tpm.logged (g'.map CommandRecord.command)) 0 a) := by
  induction h with
  | nil => exact .nil
  | @cons r r' rest rest' hr _ ih =>
      obtain ⟨hmem, hlater⟩ := List.cons_subset.mp hsub
      have hrest := ih hlater
      obtain ⟨c, place, cause⟩ := r
      obtain ⟨c', place', cause'⟩ := r'
      cases hr.shape with
      | init locality => exact hrest
      | extend pcr b digest digest' => exact hrest
      | logEvent e digest' =>
          obtain ⟨b, data, -, -, ⟨⟩, ⟨⟩, hmeasured, -, hdigest⟩ := hr.digests
          change List.Forall₂ _ (EventLog.entriesOf (e :: Tpm.logged (rest.map CommandRecord.command)) 0 a)
            (EventLog.entriesOf ({ e with digest := digest' } ::
              Tpm.logged (rest'.map CommandRecord.command)) 0 a)
          rw [EventLog.entriesOf_cons, EventLog.entriesOf_cons]
          split
          · exact .cons ⟨rfl, _, hmem, data, hmeasured, hdigest⟩ hrest
          · exact hrest

/-- The other machine has measured the same data with its own value in front. -/
theorem DataRecords.dataOf_eq {r r' : CommandRecord} (h : DataRecords v v' log r r') {rest : Bytes}
    (hdata : dataOf r = .ok (RegisterSearch.bytes v.toNat ++ rest, RegisterSearch.bytes v.toNat)) :
    dataOf r' = .ok (RegisterSearch.bytes v'.toNat ++ rest, RegisterSearch.bytes v'.toNat) := by
  obtain ⟨identity, x, x', hx, hx', hcauses⟩ := h.cause
  have hr := congrArg (Option.map IssuedAction.action) hx
  obtain ⟨c', place', cause'⟩ := r'
  obtain rfl := hx'
  cases hcauses with
  | event b digest digest' type data =>
      rw [dataOf, hr] at hdata
      cases hdata
  | extend rs b =>
      obtain ⟨rest', -, hrest, heq⟩ := exists_of_dataOf hr hdata
      rw [List.append_cancel_left heq]
      exact dataOf_extend (read_space v') hrest b c' place' identity

/-- An entry of the step in the log of one machine and the event of the other machine in its place: the entry
is traced to a measurement of the register and of other data, and the event has the digest of these data with
the other value, as the other machine has extended it. -/
structure Changed (v v' : UInt64) (a : Algorithm) (g' : List CommandRecord) (c : TracedEntry)
    (e : EventEntry) (data : Bytes) : Prop where
  type : e.type = c.entry.type
  measured : ∃ m, c.measurement.filter Reconciliation.measuresRegister = some m ∧ m.data.raw = .ok data
  front : data.take 8 = RegisterSearch.bytes v.toNat
  digest : RegisterSearch.dataDigest data (RegisterSearch.bytes v'.toNat) a = .ok e.digest
  extended : ∃ q ∈ g', q.command = .extend 0 a e.digest ∧
    dataOf q = .ok (RegisterSearch.bytes v'.toNat ++ data.drop 8, RegisterSearch.bytes v'.toNat)

/-- Records of one step among those of a run: whatever stands at their step is one of them. -/
def IsStep (log g : List CommandRecord) : Prop :=
  ∀ r ∈ g, ∀ q ∈ log, Coordinates.sameStep q.place r.place = true → q ∈ g

variable {known : TracedEntry.Causes} (h : List.Forall₂ (DataRecords v v' log) g g') (hstep : IsStep log g)
include h hstep

theorem exists_changed {r : CommandRecord} {m : Evidence} {e e' : EventEntry} (hr : measurements g a = [r])
    (hm : KnownExtend known a r m) (he : Redigested v v' log g e e') (ha : e.algorithm = a)
    (place : Option Coordinates) : ∃ data, Changed v v' a g' ⟨e, some m, place⟩ e' data := by
  have honly {q : CommandRecord} (hq : q ∈ g) (hextend : ∃ digest, q.command = .extend 0 a digest) : q = r := by
    obtain ⟨digest, hcommand⟩ := hextend
    have hmem : q ∈ measurements g a := List.mem_filter.mpr ⟨hq, by simp [isMeasurement, hcommand]⟩
    rwa [hr, List.mem_singleton] at hmem
  obtain ⟨hrm, hextends⟩ := List.mem_filter.mp (hr ▸ List.mem_singleton_self r)
  obtain ⟨original, hcommand⟩ := isExtend_of_isMeasurement hextends
  obtain ⟨r', hmem', hrecords⟩ := exists_of_mem_of_forall₂ h hrm
  -- Whatever the measured data of a record are said to be, they are those of the one extend.
  have hsole {r₁ : CommandRecord} (hr₁ : r₁ ∈ g) {data register : Bytes}
      (hdata : MeasuredWith log r₁ a data register) : dataOf r = .ok (data, register) := by
    obtain ⟨q, hq, hsame, hextend, hdata⟩ := hdata
    rwa [honly (hstep r₁ hr₁ q hq hsame) hextend] at hdata
  obtain ⟨htype, r₁, hr₁, data, hmeasured, hdigest⟩ := he
  rw [ha] at hmeasured hdigest
  have hdata := hsole hr₁ hmeasured
  obtain ⟨hraw, rest, rfl⟩ := hm.data_eq hdata
  obtain ⟨b, other, digest, digest', hd, hd', hother, -, hextended⟩ := hrecords.digests
  rw [hcommand] at hd
  cases hd
  obtain rfl := (Prod.mk.inj (Except.ok.inj ((hsole hrm hother).symm.trans hdata))).1
  obtain rfl := Except.ok.inj (hextended.symm.trans hdigest)
  have hfront := RegisterSearch.length_bytes v.toNat
  refine ⟨_, htype, ⟨m, ?_, hraw⟩, List.take_left' hfront, hdigest, r', hmem', ?_, ?_⟩
  · rw [Option.filter_some, if_pos (Reconciliation.measuresRegister_of_isPcr0Data hm.data)]
  · have hshape := hrecords.shape
    rw [hcommand] at hshape
    obtain ⟨c', place', cause'⟩ := r'
    cases hshape
    cases hd'
    rfl
  · rw [List.drop_left' hfront]
    exact hrecords.dataOf_eq hdata

/-- A step that has measured at most once has left nothing in either log, or one entry in each. -/
theorem pair_of_step (hmirrored : Tpm.Mirrored (g.map CommandRecord.command))
    (hquiet : Tpm.Quiet (g.map CommandRecord.command)) (hone : (measurements g a).length ≤ 1)
    (hknown : ∀ r ∈ g, IsExtend a r.command → ∃ m, KnownExtend known a r m) {traced : List TracedEntry}
    (htraced : TracedEntry.ofGroup known a g = .ok traced) :
    (traced = [] ∧ EventLog.entriesOf (Tpm.logged (g'.map CommandRecord.command)) 0 a = []) ∨
      ∃ c e data, traced = [c] ∧ EventLog.entriesOf (Tpm.logged (g'.map CommandRecord.command)) 0 a = [e] ∧
        Changed v v' a g' c e data := by
  have hredigested := redigested_entries h (List.Subset.refl g) a
  have hmeasurements := TracedEntry.measurements_map_effectOf known a g
  have hentries := TracedEntry.entries_map_effectOf known 0 a g
  have hlength : (EventLog.entriesOf (Tpm.logged (g.map CommandRecord.command)) 0 a).length =
      (measurements g a).length := by
    have hdigests := congrArg List.length (Tpm.digests_of_quiet hmirrored hquiet a)
    rwa [List.length_map, ← TracedEntry.length_measurements known, hmeasurements, List.length_map] at hdigests
  have hsame := htraced.symm.trans (TracedEntry.ofStep_of_paired
    (by rw [hentries, hmeasurements, hlength, List.length_map]))
  rw [hentries, hmeasurements] at hsame
  cases hms : measurements g a with
  | nil =>
      rw [hms, List.length_nil, List.length_eq_zero_iff] at hlength
      rw [hlength] at hsame hredigested
      exact .inl ⟨Except.ok.inj hsame, List.forall₂_nil_left_iff.mp hredigested⟩
  | cons r more =>
      obtain rfl : more = [] := by
        rw [hms, List.length_cons] at hone
        exact List.length_eq_zero_iff.mp (by omega)
      rw [hms] at hsame hlength
      obtain ⟨e, he⟩ := List.length_eq_one_iff.mp hlength
      have hbank := EventLog.mem_entriesOf_iff.mp (he ▸ List.mem_singleton_self e)
      rw [he] at hsame hredigested
      obtain ⟨e', _, hpair, hnone, hevents⟩ := List.forall₂_cons_left_iff.mp hredigested
      obtain rfl := List.forall₂_nil_left_iff.mp hnone
      obtain ⟨hr, hmeasured⟩ := List.mem_filter.mp (hms ▸ List.mem_singleton_self r)
      obtain ⟨m, hm⟩ := hknown r hr (isExtend_of_isMeasurement hmeasured)
      obtain ⟨x, hx, -, hlookup⟩ := hm.cause
      obtain ⟨data, hchanged⟩ := exists_changed h hstep hms hm hpair hbank.2.2 _
      refine .inr ⟨_, e', data, ?_, hevents, hchanged⟩
      have htraced := Except.ok.inj hsame
      rw [List.map_singleton, hx, Option.bind_some, hlookup] at htraced
      exact htraced

end Pair

end Pcr0
end MeasuredBoot
