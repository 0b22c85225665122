import MeasuredBoot.Boot.Run
import MeasuredBoot.Proofs.Reproduce.Aligned
import MeasuredBoot.Proofs.Reproduce.Tracing
import MeasuredBoot.Proofs.Search.Register

/-!
# What a reconciliation says

A reconciliation takes the aligned pairs one after another. What taking a pair can do is said once: the digests
are equal, or one of five things is told about the pair. It follows that nothing of either log is lost or
moved, that the verdicts are the right ones, that there is one issue for each entry about which something is
told, and that a register value leads to the reported digest.
-/
namespace MeasuredBoot

/-! ## Explanations -/

namespace Explanation

theorem ensures_nothing {α : Type} (x : Journal.Run α) : Ensures x (fun _ => True) fun _ => True := by
  intro j
  cases x j <;> trivial

theorem ensures_event_readData (i : BiosImage) (e : ReportedEvent) :
    Ensures (readData i e) (fun x => x.event = e) fun _ => True := by
  intro j
  cases h : EventData.parse e i.content.size j with
  | ok d t =>
      have hrun : readData i e j = .ok { event := e, parsed := some d } t := by
        simp only [readData, tryCatch, tryCatchThe, MonadExceptOf.tryCatch, EStateM.tryCatch, Bind.bind,
          EStateM.bind, h]
        rfl
      rw [hrun]
  | error f t =>
      have hrun : readData i e j =
          .ok { event := e } (t.push ⟨.debug, "[pcrbruteforcer] " ++ f.message⟩) := by
        simp only [readData, tryCatch, tryCatchThe, MonadExceptOf.tryCatch, EStateM.tryCatch, Bind.bind,
          EStateM.bind, h]
        rfl
      rw [hrun]

theorem ensures_event_guessData (s : State) (x : Explanation) :
    Ensures (guessData s x) (fun y => y.event = x.event) fun _ => True := by
  unfold guessData
  simp only
  split
  · exact .pure rfl
  · refine (ensures_nothing _).bind fun t _ => ?_
    split
    · exact .pure rfl
    · exact .pure rfl

theorem ensures_event_guess (s : State) (i : BiosImage) (x : Explanation) :
    Ensures (guess s i x) (fun y => y.event = x.event) fun _ => True := by
  unfold guess
  simp only
  split
  · exact ensures_event_guessData s x
  · refine (ensures_nothing _).bind fun rs _ => (ensures_nothing _).bind fun t _ => ?_
    split
    · exact .pure rfl
    · exact ensures_event_guessData s _

theorem ensures_event_relate (i : BiosImage) (x : Explanation) :
    Ensures (relate i x) (fun y => y.event = x.event) fun _ => True := by
  unfold relate
  refine (ensures_nothing _).bind fun measured _ => ?_
  simp only
  split
  · exact (ensures_nothing _).bind fun named _ => .pure rfl
  · exact (ensures_nothing _).bind fun named _ => .pure rfl

theorem ensures_event (s : State) (e : ReportedEvent) :
    Ensures (ofEvent s e) (fun x => x.event = e) fun _ => True := by
  unfold ofEvent
  split
  · exact .pure rfl
  · rename_i i hi
    refine (ensures_event_readData i e).bind fun x hx => ?_
    refine (ensures_event_guess s i x).bind fun y hy => ?_
    have hrelate := ensures_event_relate i y
    rwa [hy, hx] at hrelate

end Explanation

/-! ## Taking a pair -/

namespace Reconciled

/-- True of a pair with one digest, about which there is nothing to tell. -/
def isPlain : Reconciled → Bool
  | matched c e => e.digestValue = c.entry.digest
  | _ => false

end Reconciled

namespace Reconciliation
variable {s : State} {bounds : ReconciliationBounds} {a : Algorithm} {r r' : Reconciliation}
  {j j' : Journal}

/-- The digests of a pair differ, its entry records a measurement of the register and of other data, and this
is what the search for another register value says. -/
structure Searches (bounds : ReconciliationBounds) (a : Algorithm) (c : TracedEntry) (e : ReportedEvent)
    (data : Bytes) (found : Option Nat) : Prop where
  differs : e.digestValue ≠ c.entry.digest
  measured : ∃ m, c.measurement.filter measuresRegister = some m ∧ m.data.raw = .ok data
  outcome : (RegisterSearch.ofDigest data a e.digestValue bounds.toRegisterBounds).outcome = .ok found

/-- What is told about the entry at a position, and the register value that comes with it. -/
inductive Tells (bounds : ReconciliationBounds) (a : Algorithm) :
    Reconciled → Nat → Discrepancy → Option Nat → Prop
  | registerChanged {c e i data v} (h : Searches bounds a c e data (some v)) :
      Tells bounds a (.matched c e) i (.registerChanged (data.take 8) (RegisterSearch.bytes v)) (some v)
  | dataMismatch {c e i data} (h : Searches bounds a c e data none) :
      Tells bounds a (.mismatched c e) i (.dataMismatch c.entry.digest e) none
  | otherDigest {c e i x} (hdigest : e.digestValue ≠ c.entry.digest)
      (hother : c.measurement.filter measuresRegister = none) (hevent : x.event = e) :
      Tells bounds a (.mismatched c e) i (.otherDigest i c x) none
  | missing {c i} : Tells bounds a (.missing c) i (.missingEntry i c) none
  | unexpected {e i x} (hevent : x.event = e) : Tells bounds a (.unexpected e) i (.unexpectedEntry i x) none

theorem Searches.hashes {c : TracedEntry} {e : ReportedEvent} {data : Bytes} {v : Nat}
    (h : Searches bounds a c e data (some v)) :
    hashBytes a (RegisterSearch.bytes v ++ data.drop 8) = .ok e.digestValue := by
  have haccepted := RegisterSearch.run_accepted h.outcome
  obtain ⟨d, hd, hsame⟩ := bind_eq_ok_iff.mp haccepted
  rw [RegisterSearch.dataDigest] at hd
  rw [hd, ← beq_iff_eq.mp (Except.ok.inj hsame)]

theorem Searches.unique {c : TracedEntry} {e : ReportedEvent} {data data' : Bytes} {found found' : Option Nat}
    (h : Searches bounds a c e data found) (h' : Searches bounds a c e data' found') :
    data = data' ∧ found = found' := by
  obtain ⟨m, hm, hraw⟩ := h.measured
  obtain ⟨m', hm', hraw'⟩ := h'.measured
  obtain rfl := Option.some.inj (hm.symm.trans hm')
  obtain rfl := Except.ok.inj (hraw.symm.trans hraw')
  exact ⟨rfl, Except.ok.inj (h.outcome.symm.trans h'.outcome)⟩

/-- What taking a pair can do: its entry is added, and unless there is nothing to tell about it, what is told. -/
def Takes (bounds : ReconciliationBounds) (a : Algorithm) (r : Reconciliation) (x : Reconciled)
    (r' : Reconciliation) : Prop :=
  (x.isPlain = true ∧ r' = r.add x []) ∨
    ∃ d found, Tells bounds a x r.entries.length d found ∧
      r' = { r.add x [d] with register := found.or r.register }

theorem exists_of_compareData {c : TracedEntry} {e : ReportedEvent} {m : Evidence}
    (hdigest : e.digestValue ≠ c.entry.digest) (hm : c.measurement.filter measuresRegister = some m)
    (h : compareData bounds a r c e m j = .ok r' j') :
    ∃ x : Reconciled, x.calculated? = some c ∧ x.expected? = some e ∧ Takes bounds a r x r' := by
  obtain ⟨data, hdata, h⟩ := attempt_bind_run_eq_ok_iff.mp h
  obtain ⟨-, t, -, h⟩ := bind_run_eq_ok_iff.mp h
  obtain ⟨found, hfound, h⟩ := attempt_bind_run_eq_ok_iff.mp h
  have hsearch : Searches bounds a c e data found := ⟨hdigest, ⟨m, hm, hdata⟩, hfound⟩
  cases found with
  | none =>
      cases h
      exact ⟨.mismatched c e, rfl, rfl, .inr ⟨_, none, .dataMismatch hsearch, rfl⟩⟩
  | some v =>
      cases h
      exact ⟨.matched c e, rfl, rfl, .inr ⟨_, some v, .registerChanged hsearch, rfl⟩⟩

theorem exists_of_compare {c : TracedEntry} {e : ReportedEvent}
    (h : compare s bounds a r c e j = .ok r' j') :
    ∃ x : Reconciled, x.calculated? = some c ∧ x.expected? = some e ∧ Takes bounds a r x r' := by
  by_cases hdigest : e.digestValue = c.entry.digest
  · have heq : compare s bounds a r c e = pure (r.add (.matched c e) []) := if_pos hdigest
    rw [heq] at h
    cases h
    exact ⟨.matched c e, rfl, rfl, .inl ⟨decide_eq_true hdigest, rfl⟩⟩
  · rw [compare, if_neg hdigest] at h
    cases hm : c.measurement.filter measuresRegister with
    | some m =>
        rw [hm] at h
        exact exists_of_compareData hdigest hm h
    | none =>
        rw [hm] at h
        obtain ⟨x, t, hx, h⟩ := bind_run_eq_ok_iff.mp h
        have hevent := Explanation.ensures_event s e j
        rw [hx] at hevent
        cases h
        exact ⟨.mismatched c e, rfl, rfl, .inr ⟨_, none, .otherDigest hdigest hm hevent, rfl⟩⟩

/-- Taking a pair that is not empty adds an entry with its sides. -/
theorem exists_of_takePair {p : Option TracedEntry × Option ReportedEvent} (hp : p ≠ (none, none))
    (h : takePair s bounds a r p j = .ok r' j') :
    ∃ x : Reconciled, x.calculated? = p.1 ∧ x.expected? = p.2 ∧ Takes bounds a r x r' := by
  obtain ⟨c?, e?⟩ := p
  cases c? with
  | none =>
      cases e? with
      | none => exact absurd rfl hp
      | some e =>
          obtain ⟨x, t, hx, h⟩ := bind_run_eq_ok_iff.mp h
          have hevent := Explanation.ensures_event s e j
          rw [hx] at hevent
          cases h
          exact ⟨.unexpected e, rfl, rfl, .inr ⟨_, none, .unexpected hevent, rfl⟩⟩
  | some c =>
      cases e? with
      | none =>
          cases h
          exact ⟨.missing c, rfl, rfl, .inr ⟨_, none, .missing, rfl⟩⟩
      | some e => exact exists_of_compare h

/-! ## All pairs -/

/-- What the entries, the issues and the register value of a reconciliation are, for the items of both logs
that were taken. -/
structure Classified (bounds : ReconciliationBounds) (a : Algorithm) (calculated : List TracedEntry)
    (expected : List ReportedEvent) (r : Reconciliation) : Prop where
  calculated : r.entries.filterMap Reconciled.calculated? = calculated
  expected : r.entries.filterMap Reconciled.expected? = expected
  told : ∀ x ∈ r.entries, x.isPlain = true ∨ ∃ i d found, Tells bounds a x i d found
  /-- There is an issue for each entry that is not plain, and no other. -/
  issues : List.Forall₂ (fun p d => ∃ found, Tells bounds a p.1 p.2 d found)
    (r.entries.zipIdx.filter fun p => !p.1.isPlain) r.issues
  register : ∀ v, r.register = some v →
    ∃ c e data, .matched c e ∈ r.entries ∧ Searches bounds a c e data (some v)
  unchanged : r.register = none → ∀ c e, .matched c e ∈ r.entries → e.digestValue = c.entry.digest

variable {calculated : List TracedEntry} {expected : List ReportedEvent} {x : Reconciled}

theorem Tells.isPlain {i : Nat} {d : Discrepancy} {found : Option Nat} (h : Tells bounds a x i d found) :
    x.isPlain = false := by
  cases h with
  | registerChanged h => exact decide_eq_false h.differs
  | _ => rfl

theorem classified_start : Classified bounds a [] [] {} where
  calculated := rfl
  expected := rfl
  told := by rintro x ⟨⟩
  issues := .nil
  register := by rintro v ⟨⟩
  unchanged := by rintro - c e ⟨⟩

/-- Taking an entry adds its sides, and its issue if there is one. -/
theorem Classified.take (h : Classified bounds a calculated expected r) (htake : Takes bounds a r x r') :
    Classified bounds a (calculated ++ x.calculated?.toList) (expected ++ x.expected?.toList) r' := by
  have hentries : r'.entries = r.entries ++ [x] := by
    obtain ⟨-, rfl⟩ | ⟨d, found, -, rfl⟩ := htake <;> rfl
  have hfilter : (r'.entries.zipIdx.filter fun p => !p.1.isPlain) =
      (r.entries.zipIdx.filter fun p => !p.1.isPlain) ++ if x.isPlain then [] else [(x, r.entries.length)] := by
    rw [hentries, List.zipIdx_append, List.filter_append]
    cases hx : x.isPlain <;> simp [hx]
  have hkept : ∀ y, y ∈ r.entries → y ∈ r'.entries := by
    rw [hentries]
    exact fun y hy => List.mem_append_left _ hy
  refine ⟨?_, ?_, ?_, ?_, ?_, ?_⟩
  · rw [hentries, List.filterMap_append, h.calculated]
    cases hside : x.calculated? <;> simp [hside]
  · rw [hentries, List.filterMap_append, h.expected]
    cases hside : x.expected? <;> simp [hside]
  · intro y hy
    rw [hentries, List.mem_append, List.mem_singleton] at hy
    rcases hy with hy | rfl
    · exact h.told y hy
    · exact htake.imp And.left fun ⟨d, found, htells, _⟩ => ⟨_, d, found, htells⟩
  · rw [hfilter]
    obtain ⟨hplain, rfl⟩ | ⟨d, found, htells, rfl⟩ := htake
    · rw [if_pos hplain]
      exact List.rel_append h.issues .nil
    · rw [if_neg (by simp [htells.isPlain])]
      exact List.rel_append h.issues (.cons ⟨found, htells⟩ .nil)
  · intro v hv
    obtain ⟨hplain, rfl⟩ | ⟨d, found, htells, rfl⟩ := htake
    · obtain ⟨c, e, data, hmem, hsearch⟩ := h.register v hv
      exact ⟨c, e, data, hkept _ hmem, hsearch⟩
    · cases htells with
      | registerChanged hsearch =>
          cases hv
          exact ⟨_, _, _, hentries ▸ List.mem_append_right _ (List.mem_singleton_self _), hsearch⟩
      | _ =>
          obtain ⟨c, e, data, hmem, hsearch⟩ := h.register v hv
          exact ⟨c, e, data, hkept _ hmem, hsearch⟩
  · intro hv c e hmem
    rw [hentries, List.mem_append, List.mem_singleton] at hmem
    obtain ⟨hplain, rfl⟩ | ⟨d, found, htells, rfl⟩ := htake
    · rcases hmem with hmem | rfl
      · exact h.unchanged hv c e hmem
      · exact of_decide_eq_true hplain
    · obtain ⟨hnone, hbefore⟩ := Option.or_eq_none_iff.mp hv
      rcases hmem with hmem | rfl
      · exact h.unchanged hbefore c e hmem
      · cases htells
        cases hnone

/-- What the whole run over the pairs says, by induction on them: each adds its sides and its issue. -/
theorem Classified.foldlM {pairs : List (Option TracedEntry × Option ReportedEvent)}
    (h : Classified bounds a calculated expected r) (hpairs : (none, none) ∉ pairs)
    (hrun : pairs.foldlM (takePair s bounds a) r j = .ok r' j') :
    Classified bounds a (calculated ++ pairs.filterMap Prod.fst) (expected ++ pairs.filterMap Prod.snd) r' := by
  induction pairs generalizing calculated expected r j with
  | nil =>
      cases hrun
      simpa using h
  | cons p rest ih =>
      rw [List.foldlM_cons] at hrun
      obtain ⟨mid, t, htake, hrest⟩ := bind_run_eq_ok_iff.mp hrun
      obtain ⟨hp, hlater⟩ := not_or.mp fun hmem => hpairs (List.mem_cons.mpr hmem)
      obtain ⟨x, hc, he, hx⟩ := exists_of_takePair (Ne.symm hp) htake
      have hall := ih (h.take hx) hlater hrest
      rw [hc, he, List.append_assoc, List.append_assoc] at hall
      obtain ⟨c?, e?⟩ := p
      cases c? <;> cases e? <;> simpa using hall

theorem exists_classified_of_run {log : Option ReportedLog} (h : run s log a bounds j = .ok r j') :
    ∃ l traced, log = some l ∧ TracedEntry.ofState s 0 a = .ok traced ∧
      Classified bounds a traced (l.filterEvents 0 a) r := by
  cases log with
  | none => cases h
  | some l =>
      obtain ⟨traced, htraced, h⟩ := attempt_bind_run_eq_ok_iff.mp h
      obtain ⟨pairs, t, halign, h⟩ := bind_run_eq_ok_iff.mp h
      obtain ⟨r₁, t', hfold, h⟩ := bind_run_eq_ok_iff.mp h
      obtain ⟨-, t'', -, h⟩ := bind_run_eq_ok_iff.mp h
      cases h
      obtain ⟨best, -, halign⟩ := attempt_bind_run_eq_ok_iff.mp halign
      obtain ⟨-, t'', -, hpairs⟩ := bind_run_eq_ok_iff.mp halign
      cases hpairs
      rw [restore_pairs] at hfold
      obtain ⟨hcalculated, hexpected, hfull⟩ :=
        Alignment.pairFrom_whole best 0 (l.filterEvents 0 a) 0 traced
      have hall := classified_start.foldlM hfull hfold
      rw [hcalculated, hexpected] at hall
      exact ⟨l, traced, rfl, htraced, hall⟩

theorem Classified.issues_eq_nil_iff (h : Classified bounds a calculated expected r) :
    r.issues = [] ↔ ∀ x ∈ r.entries, x.isPlain = true := by
  rw [← List.length_eq_zero_iff, ← h.issues.length_eq, List.length_eq_zero_iff, List.filter_eq_nil_iff]
  constructor
  · intro hnone x hx
    obtain ⟨i, hi, rfl⟩ := List.mem_iff_getElem.mp hx
    have hplain := hnone (r.entries[i], i) (List.mk_mem_zipIdx_iff_getElem?.mpr (List.getElem?_eq_getElem hi))
    simpa using hplain
  · intro hplain p hp
    simp [hplain p.1 (List.fst_mem_of_mem_zipIdx hp)]

/-! ## Verdicts -/

section Verdicts
variable {c : TracedEntry} {e : ReportedEvent}

/-- A pair matches if its digests are equal or the search has found a register value, and otherwise it does not
match. -/
theorem verdict_iff (h : x.isPlain = true ∨ ∃ i d found, Tells bounds a x i d found)
    (hc : x.calculated? = some c) (he : x.expected? = some e) :
    (x.verdict = "MATCH" ↔
        e.digestValue = c.entry.digest ∨ ∃ data v, Searches bounds a c e data (some v)) ∧
      (x.verdict = "MISMATCH" ↔
        ¬ (e.digestValue = c.entry.digest ∨ ∃ data v, Searches bounds a c e data (some v))) := by
  cases x with
  | unexpected e' => cases hc
  | missing c' => cases he
  | matched c' e' =>
      cases hc
      cases he
      have hexplained : e.digestValue = c.entry.digest ∨ ∃ data v, Searches bounds a c e data (some v) := by
        rcases h with hplain | ⟨i, d, found, htells⟩
        · exact .inl (of_decide_eq_true hplain)
        · cases htells with
          | registerChanged hsearch => exact .inr ⟨_, _, hsearch⟩
      exact ⟨iff_of_true rfl hexplained, iff_of_false (by simp [Reconciled.verdict]) (not_not_intro hexplained)⟩
  | mismatched c' e' =>
      cases hc
      cases he
      have hunexplained : ¬ (e.digestValue = c.entry.digest ∨
          ∃ data v, Searches bounds a c e data (some v)) := by
        rintro (hsame | ⟨data, v, hsearch⟩)
        · rcases h with hplain | ⟨i, d, found, htells⟩
          · cases hplain
          · cases htells with
            | dataMismatch hsearch => exact hsearch.differs hsame
            | otherDigest hdigest => exact hdigest hsame
        · rcases h with hplain | ⟨i, d, found, htells⟩
          · cases hplain
          · cases htells with
            | dataMismatch hnone => cases (hnone.unique hsearch).2
            | otherDigest hdigest hother =>
                obtain ⟨m, hm, -⟩ := hsearch.measured
                cases hother.symm.trans hm
      exact ⟨iff_of_false (by simp [Reconciled.verdict]) hunexplained, iff_of_true rfl hunexplained⟩

end Verdicts

/-- A run of a reconciliation that ends with an answer has a log. The entries of the answer keep all traced
entries and all reported events of register zero, in order; the former are those of the event log of the TPM if
this logged what its commands say. Each entry has a side, keeps the measurement and the place of its traced
entry, and has the right verdict. A register value is that of a match, and leads to the reported digest. There
is one issue, in order, for each entry that is no match with equal digests, and so there is none if there is no
such entry. -/
theorem run_classified {log : Option ReportedLog} (h : run s log a bounds j = .ok r j') :
    ∃ l traced, log = some l ∧ TracedEntry.ofState s 0 a = .ok traced ∧
      (∀ t, s.tpm = some t → t.events.toList = Tpm.logged t.commandList →
        traced.map TracedEntry.entry = EventLog.entriesOf t.events.toList 0 a) ∧
      r.entries.filterMap Reconciled.calculated? = traced ∧
      r.entries.filterMap Reconciled.expected? = l.filterEvents 0 a ∧
      (∀ x ∈ r.entries, (x.calculated?.isSome = true ∨ x.expected?.isSome = true) ∧
        (x.verdict = "UNEXPECTED" ↔ x.calculated? = none) ∧ (x.verdict = "MISSING" ↔ x.expected? = none) ∧
        ∀ c, x.calculated? = some c → x.measurement? = c.measurement ∧ x.place? = c.place ∧
          ∀ e, x.expected? = some e →
            (x.verdict = "MATCH" ↔
              e.digestValue = c.entry.digest ∨ ∃ data v, Searches bounds a c e data (some v)) ∧
            (x.verdict = "MISMATCH" ↔
              ¬ (e.digestValue = c.entry.digest ∨ ∃ data v, Searches bounds a c e data (some v)))) ∧
      (∀ v, r.register = some v → ∃ c e data, .matched c e ∈ r.entries ∧
        Searches bounds a c e data (some v) ∧
        hashBytes a (RegisterSearch.bytes v ++ data.drop 8) = .ok e.digestValue) ∧
      List.Forall₂ (fun p d => ∃ found, Tells bounds a p.1 p.2 d found)
        (r.entries.zipIdx.filter fun p => !p.1.isPlain) r.issues ∧
      (r.issues = [] ↔ ∀ x ∈ r.entries, x.isPlain = true) := by
  obtain ⟨l, traced, hlog, htraced, hall⟩ := exists_classified_of_run h
  refine ⟨l, traced, hlog, htraced, ?_, hall.calculated, hall.expected, ?_, ?_, hall.issues,
    hall.issues_eq_nil_iff⟩
  · exact fun t ht hevents => TracedEntry.map_entry_of_ofState htraced ht hevents
  · intro x hx
    refine ⟨?_, ?_, ?_, fun c hc => ⟨?_, ?_, fun e he => verdict_iff (hall.told x hx) hc he⟩⟩
    · cases x <;> simp [Reconciled.calculated?, Reconciled.expected?]
    · cases x <;> simp [Reconciled.calculated?, Reconciled.verdict]
    · cases x <;> simp [Reconciled.expected?, Reconciled.verdict]
    · rw [Reconciled.measurement?, hc, Option.bind_some]
    · rw [Reconciled.place?, hc, Option.bind_some]
  · intro v hv
    obtain ⟨c, e, data, hmem, hsearch⟩ := hall.register v hv
    exact ⟨c, e, data, hmem, hsearch, hsearch.hashes⟩

/-! ### The boot of a register -/

def statusMachine : State where
  txtPublic := some (TxtPublic.ofList [Register.acmPolicyStatus 5])
  tpm := some (Tpm.fresh [.sha1])

def statusFlows : FlowCatalog :=
  ⟨[⟨"Status", [.initTpm 0 false, .measure 0 .postCode .acmPolicyStatus none]⟩]⟩

def statusBoot : State :=
  (Boot.complete statusFlows (Boot.ofFlow statusMachine ⟨.supplied, "Status"⟩ Boot.usualMaxSteps)).2.state

/-- The event of a machine whose register held one less. -/
def loweredEvent : ReportedEvent :=
  ⟨0, .postCode, [], some ⟨.sha1, Hash.Sha1.digest (RegisterSearch.bytes 4)⟩⟩

def foreignEvent : ReportedEvent := ⟨0, .separator, [], some ⟨.sha1, List.replicate 20 1⟩⟩

def answers (p : Reconciliation → Bool) (x : EStateM.Result Fault Journal Reconciliation) : Bool :=
  match x with
  | .ok r _ => p r
  | .error _ _ => false

theorem exists_of_answers {p : Reconciliation → Bool} {x : EStateM.Result Fault Journal Reconciliation}
    (h : answers p x = true) : ∃ r j, x = .ok r j ∧ p r = true := by
  cases x with
  | ok r j => exact ⟨r, j, rfl, h⟩
  | error f j => cases h

theorem run_classified_sample :
    ∃ r j, run statusBoot (some [loweredEvent, foreignEvent]) .sha1 {} #[] = .ok r j ∧
      r.entries.map Reconciled.verdict = ["MATCH", "UNEXPECTED"] ∧ r.register = some 4 ∧
      (∃ c e data, .matched c e ∈ r.entries ∧ Searches {} .sha1 c e data (some 4) ∧
        hashBytes .sha1 (RegisterSearch.bytes 4 ++ data.drop 8) = .ok e.digestValue) ∧
      List.Forall₂ (fun p d => ∃ found, Tells {} .sha1 p.1 p.2 d found)
        (r.entries.zipIdx.filter fun p => !p.1.isPlain) r.issues := by
  obtain ⟨r, j, hrun, hends⟩ := exists_of_answers
    (p := fun r => r.entries.map Reconciled.verdict = ["MATCH", "UNEXPECTED"] && r.register = some 4)
    (x := run statusBoot (some [loweredEvent, foreignEvent]) .sha1 {} #[]) (by decide +kernel)
  rw [Bool.and_eq_true, decide_eq_true_iff, decide_eq_true_iff] at hends
  obtain ⟨l, traced, -, -, -, -, -, -, hregister, hissues, -⟩ := run_classified hrun
  exact ⟨r, j, hrun, hends.1, hends.2, hregister 4 hends.2, hissues⟩

end Reconciliation

end MeasuredBoot
