import Mathlib.Data.List.SplitBy
import MeasuredBoot.Proofs.Tpm.Announced
import MeasuredBoot.Reproduce.Corrections
import MeasuredBoot.Reproduce.Traced

/-!
# Traced entries of regular commands

The entries of a log are traced group by group, where a group is what one step has written. If no two groups
stand at the same step, every action has measured at most once, and each group has measured as much as it has
logged or nothing at all, then tracing answers, and it neither loses nor moves an entry.
-/
namespace MeasuredBoot.TracedEntry

/-! ## Groups -/

section Groups
variable {α β ε : Type}

/-- Lists with related items each, no item of which is related to one of another list, are what their
concatenation is split into. -/
theorem splitBy_flatten_of_apart {r : α → α → Bool} {groups : List (List α)}
    (hsame : ∀ g ∈ groups, ∀ x ∈ g, ∀ y ∈ g, r x y = true)
    (hapart : groups.Pairwise fun g g' => ∀ x ∈ g, ∀ y ∈ g', r x y = false) :
    groups.flatten.splitBy r = groups.filter (!·.isEmpty) := by
  induction groups with
  | nil => rfl
  | cons g rest ih =>
      obtain ⟨hg, hrest⟩ := List.pairwise_cons.mp hapart
      have hlater := ih (fun x hx => hsame x (by simp [hx])) hrest
      have hborder : ∀ x ∈ g.getLast?, ∀ y ∈ rest.flatten.head?, r x y = false := by
        intro x hx y hy
        obtain ⟨g', hg', hy'⟩ := List.mem_flatten.mp (List.mem_of_mem_head? hy)
        exact hg g' hg' x (List.mem_of_getLast? hx) y hy'
      rw [List.flatten_cons, List.splitBy_append hborder, hlater]
      cases g with
      | nil => rfl
      | cons x more =>
          have hchain : (x :: more).IsChain fun x y => r x y = true :=
            (List.pairwise_of_forall_mem_list (hsame (x :: more) (by simp))).isChain
          rw [List.splitBy_of_isChain (List.cons_ne_nil x more) hchain]
          rfl

theorem flatten_mapM_filter {f : α → Except ε (List β)} {p : α → Bool} {xs : List α}
    (h : ∀ x, p x = false → f x = .ok []) :
    List.flatten <$> (xs.filter p).mapM f = List.flatten <$> xs.mapM f := by
  induction xs with
  | nil => rfl
  | cons x rest ih =>
      have hcons (ys : List β) : (fun yss => (ys :: yss).flatten) = (ys ++ ·) ∘ List.flatten := rfl
      rw [List.mapM_cons]
      cases hx : p x with
      | true =>
          rw [List.filter_cons_of_pos hx, List.mapM_cons]
          cases f x with
          | error e => rfl
          | ok ys =>
              simp only [ok_bind, bind_pure_comp, Functor.map_map, hcons]
              rw [comp_map, ih, comp_map]
      | false =>
          rw [List.filter_cons_of_neg (by simp [hx]), h x hx, ih, ok_bind, bind_pure_comp, Functor.map_map]
          rfl

end Groups

/-! ## Effects of commands -/

section Effects
variable {known : Causes} {a : Algorithm}

/-- The place and the effect of a command, of which a logging one tells its event itself. -/
def effectOf (known : Causes) (pcr : Int) (a : Algorithm) (r : CommandRecord) : Option Coordinates × Effect :=
  (r.place, match r.command with
    | .init _ => .nothing
    | .extend p b _ =>
      if p = pcr && b = a then .extended (r.action.bind fun x => known.lookup x.identity) else .nothing
    | .logEvent c => if c.pcr = pcr && c.algorithm = a then .logged c else .nothing)

theorem effects_logged (known : Causes) (pcr : Int) (a : Algorithm) (rs : List CommandRecord) :
    effects known pcr a rs (Tpm.logged (rs.map CommandRecord.command)) = rs.map (effectOf known pcr a) := by
  induction rs with
  | nil => rfl
  | cons r rest ih =>
      obtain ⟨c, place, action⟩ := r
      cases c with
      | init locality => exact congrArg (_ :: ·) ih
      | extend p b digest => exact congrArg (_ :: ·) ih
      | logEvent e => exact congrArg (_ :: ·) ih

theorem length_isLogging (rs : List CommandRecord) :
    (rs.filter isLogging).length = (Tpm.logged (rs.map CommandRecord.command)).length := by
  induction rs with
  | nil => rfl
  | cons r rest ih =>
      obtain ⟨c, place, action⟩ := r
      cases c with
      | init locality => exact ih
      | extend p b digest => exact ih
      | logEvent e => exact congrArg (· + 1) ih

def measurements (step : List (Option Coordinates × Effect)) : List (Option Evidence) :=
  step.filterMap fun (_, x) => x.measurement?

def entries (step : List (Option Coordinates × Effect)) : List EventEntry :=
  step.filterMap fun (_, x) => x.entry?

theorem entries_flatten (steps : List (List (Option Coordinates × Effect))) :
    entries steps.flatten = steps.flatMap entries := by
  rw [entries, List.filterMap_flatten, List.flatMap]
  rfl

theorem entries_map_effectOf (known : Causes) (pcr : Int) (a : Algorithm) (rs : List CommandRecord) :
    entries (rs.map (effectOf known pcr a)) =
      EventLog.entriesOf (Tpm.logged (rs.map CommandRecord.command)) pcr a := by
  rw [entries, EventLog.entriesOf, Tpm.logged, List.filterMap_map, List.filterMap_map, List.filter_filterMap]
  refine List.filterMap_congr fun r _ => ?_
  obtain ⟨c, place, action⟩ := r
  cases c with
  | init locality => rfl
  | extend p b digest => by_cases hbank : p = pcr ∧ b = a <;> simp [effectOf, hbank, Effect.entry?]
  | logEvent e =>
      by_cases hbank : e.pcr = pcr ∧ e.algorithm = a <;>
        simp [effectOf, hbank, Effect.entry?, Option.filter_some]

/-- The measurements of commands are those by the actions of their extends of the register. -/
theorem measurements_map_effectOf (known : Causes) (a : Algorithm) (rs : List CommandRecord) :
    measurements (rs.map (effectOf known 0 a)) =
      (Pcr0.measurements rs a).map fun r => r.action.bind fun x => known.lookup x.identity := by
  rw [measurements, Pcr0.measurements, List.filterMap_map, ← List.filterMap_eq_map, List.filterMap_filter]
  refine List.filterMap_congr fun r _ => ?_
  obtain ⟨c, place, action⟩ := r
  cases c with
  | init locality => rfl
  | extend p b digest =>
      by_cases hbank : p = 0 ∧ b = a <;> simp [Pcr0.isMeasurement, effectOf, hbank, Effect.measurement?]
  | logEvent e => by_cases hbank : e.pcr = 0 ∧ e.algorithm = a <;>
      simp [Pcr0.isMeasurement, effectOf, hbank, Effect.measurement?]

theorem length_measurements (known : Causes) (a : Algorithm) (rs : List CommandRecord) :
    (measurements (rs.map (effectOf known 0 a))).length =
      (Tpm.extended a (rs.map CommandRecord.command)).length := by
  rw [measurements, Tpm.extended, List.filterMap_map, List.filterMap_map, List.length_filterMap_eq_countP,
    List.length_filterMap_eq_countP]
  refine List.countP_congr fun r _ => ?_
  obtain ⟨c, place, action⟩ := r
  cases c with
  | init locality => rfl
  | extend p b digest => by_cases hbank : p = 0 ∧ b = a <;> simp [effectOf, hbank, Effect.measurement?]
  | logEvent e => by_cases hbank : e.pcr = 0 ∧ e.algorithm = a <;> simp [effectOf, hbank, Effect.measurement?]

theorem ofStep_of_paired {step : List (Option Coordinates × Effect)}
    (h : (entries step).length = (measurements step).length) :
    ofStep step = .ok (List.zipWith (fun e m => ⟨e, m, step.head?.bind Prod.fst⟩)
      (entries step) (measurements step)) := by
  by_cases hnone : measurements step = []
  · have hempty : (measurements step).isEmpty = true := List.isEmpty_iff.mpr hnone
    have hentries : entries step = [] := by rwa [hnone, List.length_nil, List.length_eq_zero_iff] at h
    rw [hentries, hnone, List.zipWith_nil_left]
    refine (if_pos hempty).trans ?_
    change Except.ok ((entries step).map _) = _
    rw [hentries, List.map_nil]
  · have hentries : entries step ≠ [] := by
      intro hempty
      rw [hempty, List.length_nil] at h
      exact hnone (List.length_eq_zero_iff.mp h.symm)
    have hmore : ¬ (measurements step).isEmpty = true := fun h => hnone (List.isEmpty_iff.mp h)
    have hlogged : ¬ (entries step).isEmpty = true := fun h => hentries (List.isEmpty_iff.mp h)
    exact (if_neg hmore).trans ((if_neg hlogged).trans (if_neg fun hne => hne h.symm))

/-- A step with as many entries as measurements, or without measurements, is traced. -/
theorem exists_ofStep {step : List (Option Coordinates × Effect)}
    (h : measurements step = [] ∨ (entries step).length = (measurements step).length) :
    ∃ traced, ofStep step = .ok traced := by
  rcases h with hnone | hpaired
  · have hempty : (measurements step).isEmpty = true := List.isEmpty_iff.mpr hnone
    exact ⟨_, if_pos hempty⟩
  · exact ⟨_, ofStep_of_paired hpaired⟩

theorem map_entry_of_ofStep {step : List (Option Coordinates × Effect)} {traced : List TracedEntry}
    (h : ofStep step = .ok traced) : traced.map entry = entries step := by
  unfold ofStep at h
  simp only at h
  split at h
  · cases h
    rw [List.map_map]
    exact List.map_id _
  · split at h
    · cases h
    · split at h
      · cases h
      · rename_i hlength
        cases h
        rw [← List.map_uncurry_zip_eq_zipWith, List.map_map]
        exact List.map_fst_zip (Nat.le_of_eq (not_not.mp hlength).symm)

theorem map_entry_of_mapM {steps : List (List (Option Coordinates × Effect))} {traced : List (List TracedEntry)}
    (h : steps.mapM ofStep = .ok traced) : traced.flatten.map entry = steps.flatMap entries := by
  induction steps generalizing traced with
  | nil =>
      cases h
      rfl
  | cons step rest ih =>
      rw [List.mapM_cons] at h
      obtain ⟨first, hfirst, h⟩ := bind_eq_ok_iff.mp h
      obtain ⟨later, hlater, h⟩ := bind_eq_ok_iff.mp h
      cases h
      rw [List.flatten_cons, List.map_append, map_entry_of_ofStep hfirst, ih hlater, List.flatMap_cons]

end Effects

/-! ## Whole logs -/

/-- If a TPM has logged what its commands say, then the traced entries are those in its event log. -/
theorem map_entry_of_ofState {s : State} {pcr : Int} {a : Algorithm} {traced : List TracedEntry}
    (h : ofState s pcr a = .ok traced) {t : Tpm} (ht : s.tpm = some t)
    (hevents : t.events.toList = Tpm.logged t.commandList) :
    traced.map entry = EventLog.entriesOf t.events.toList pcr a := by
  rw [ofState, State.theTpm, ht, State.require, ok_bind] at h
  obtain ⟨known, -, h⟩ := bind_eq_ok_iff.mp h
  simp only at h
  split at h
  · cases h
  · split at h
    · cases h
    · obtain ⟨steps, hsteps, h⟩ := bind_eq_ok_iff.mp h
      cases h
      rw [map_entry_of_mapM hsteps, ← entries_flatten, List.flatten_splitBy, hevents, Tpm.commandList,
        effects_logged, entries_map_effectOf]

/-- The traced entries of what one step has written. -/
def ofGroup (known : Causes) (a : Algorithm) (rs : List CommandRecord) : Except Fault (List TracedEntry) :=
  ofStep (rs.map (effectOf known 0 a))

theorem exists_ofGroup (known : Causes) {a : Algorithm} {rs : List CommandRecord}
    (hpaired : Tpm.extended a (rs.map CommandRecord.command) = [] ∨
      (EventLog.entriesOf (Tpm.logged (rs.map CommandRecord.command)) 0 a).length =
        (Tpm.extended a (rs.map CommandRecord.command)).length) :
    ∃ traced, ofGroup known a rs = .ok traced := by
  apply exists_ofStep
  rwa [← List.length_eq_zero_iff, length_measurements, entries_map_effectOf, List.length_eq_zero_iff]

/-- What was written at different steps is traced step by step. -/
theorem ofState_eq {s : State} {t : Tpm} {known : Causes} {groups : List (List CommandRecord)}
    (ht : s.tpm = some t) (hknown : causes s = .ok known)
    (hevents : t.events.toList = Tpm.logged t.commandList) (hgroups : t.commands.toList = groups.flatten)
    (hsame : ∀ g ∈ groups, ∀ x ∈ g, ∀ y ∈ g, Coordinates.sameStep x.place y.place = true)
    (hapart : groups.Pairwise fun g g' => ∀ x ∈ g, ∀ y ∈ g', Coordinates.sameStep x.place y.place = false)
    (a : Algorithm) : ofState s 0 a = List.flatten <$> groups.mapM (ofGroup known a) := by
  have hlogged : t.events.toList = Tpm.logged (groups.flatten.map CommandRecord.command) := by
    rw [hevents, Tpm.commandList, hgroups]
  have hseen : (groups.flatten.filter isLogging).length = t.events.size := by
    rw [length_isLogging, ← hlogged, Array.length_toList]
  -- What one step has written is one group of effects; a step that wrote nothing leaves none.
  have hsplit : (effects known 0 a groups.flatten t.events.toList).splitBy
      (fun x y => Coordinates.sameStep x.1 y.1) =
        (groups.map (List.map (effectOf known 0 a))).filter (!·.isEmpty) := by
    rw [hlogged, effects_logged, List.map_flatten]
    apply splitBy_flatten_of_apart
    · intro g hg x hx y hy
      obtain ⟨rs, hrs, rfl⟩ := List.mem_map.mp hg
      obtain ⟨r, hr, rfl⟩ := List.mem_map.mp hx
      obtain ⟨q, hq, rfl⟩ := List.mem_map.mp hy
      exact hsame rs hrs r hr q hq
    · refine List.pairwise_map.mpr (hapart.imp fun hborder x hx y hy => ?_)
      obtain ⟨r, hr, rfl⟩ := List.mem_map.mp hx
      obtain ⟨q, hq, rfl⟩ := List.mem_map.mp hy
      exact hborder r hr q hq
  have hnone : ∀ step : List (Option Coordinates × Effect), (!step.isEmpty) = false →
      ofStep step = .ok [] := by
    intro step hstep
    obtain rfl : step = [] := by simpa using hstep
    rfl
  have hfew : ¬ t.events.size < (groups.flatten.filter isLogging).length := by omega
  have hall : ¬ (groups.flatten.filter isLogging).length ≠ t.events.size := fun hne => hne hseen
  rw [ofState, State.theTpm, ht, State.require, ok_bind, hknown, ok_bind]
  simp only [hgroups, if_neg hfew, if_neg hall, hsplit]
  rw [bind_pure_comp, flatten_mapM_filter hnone, List.mapM_map]
  rfl

theorem map_entry_of_groups {known : Causes} {a : Algorithm} {groups : List (List CommandRecord)}
    {traced : List (List TracedEntry)} (h : groups.mapM (ofGroup known a) = .ok traced) :
    traced.flatten.map entry =
      EventLog.entriesOf (Tpm.logged (groups.flatten.map CommandRecord.command)) 0 a := by
  have hsteps : (groups.map (List.map (effectOf known 0 a))).mapM ofStep = .ok traced := by
    rwa [List.mapM_map]
  rw [map_entry_of_mapM hsteps, ← entries_flatten, ← List.map_flatten, entries_map_effectOf]

/-! ## Causes -/

/-- Measurements by different actions, none of which is known to have measured, are known afterwards. -/
theorem exists_foldlM_addCause {known : Causes} {ms : List Evidence} {as : List IssuedAction}
    (hactions : ms.map Evidence.action = as.map some)
    (hnodup : (known.map Prod.fst ++ as.map IssuedAction.identity).Nodup) :
    ∃ later, ms.foldlM addCause known = .ok later := by
  induction ms generalizing known as with
  | nil => exact ⟨known, rfl⟩
  | cons m rest ih =>
      obtain ⟨a, more, rfl, ha, hmore⟩ := List.map_eq_cons_iff.mp hactions.symm
      have hunknown : known.lookup a.identity = none := by
        rw [List.lookup_eq_none_iff]
        intro p hp
        have hdisjoint := (List.nodup_append.mp hnodup).2.2 p.1 (List.mem_map_of_mem hp) a.identity (by simp)
        simpa using hdisjoint.symm
      have hadd : addCause known m = .ok (known ++ [(a.identity, m)]) := by
        simp [addCause, ← ha, hunknown]
      rw [List.foldlM_cons, hadd]
      apply ih hmore.symm
      simpa using hnodup

theorem addCause_eq_ok {known later : Causes} {m : Evidence} (h : addCause known m = .ok later) :
    ∃ x, m.action = some x ∧ known.lookup x.identity = none ∧ later = known ++ [(x.identity, m)] := by
  unfold addCause at h
  split at h
  · cases h
  · rename_i x hx
    split at h
    · cases h
    · rename_i hunknown
      cases h
      exact ⟨x, hx, Option.not_isSome_iff_eq_none.mp hunknown, rfl⟩

theorem lookup_of_foldlM {known later : Causes} {ms : List Evidence} (h : ms.foldlM addCause known = .ok later) :
    (∀ i m, known.lookup i = some m → later.lookup i = some m) ∧
      ∀ m ∈ ms, ∀ x, m.action = some x → later.lookup x.identity = some m := by
  induction ms generalizing known with
  | nil =>
      cases h
      exact ⟨fun i m hm => hm, fun m hm => absurd hm List.not_mem_nil⟩
  | cons m rest ih =>
      rw [List.foldlM_cons] at h
      obtain ⟨next, hnext, h⟩ := bind_eq_ok_iff.mp h
      obtain ⟨y, hy, hunknown, rfl⟩ := addCause_eq_ok hnext
      obtain ⟨hstays, hrest⟩ := ih h
      refine ⟨fun i n hn => hstays i n ?_, List.forall_mem_cons.mpr ⟨fun x hx => hstays _ m ?_, hrest⟩⟩
      · rw [List.lookup_append, hn, Option.some_or]
      · obtain rfl := Option.some.inj (hy.symm.trans hx)
        rw [List.lookup_append, hunknown, Option.none_or, List.lookup_cons_self]

theorem lookup_of_causes {s : State} {known : Causes} (h : causes s = .ok known) {m : Evidence}
    (hm : m ∈ s.measured.toList) (hchain : m.chain = some .tpm) {x : IssuedAction} (hx : m.action = some x) :
    known.lookup x.identity = some m :=
  (lookup_of_foldlM h).2 m (List.mem_filter.mpr ⟨hm, decide_eq_true hchain⟩) x hx

end MeasuredBoot.TracedEntry
