import Mathlib.Algebra.GroupWithZero.Nat
import Mathlib.Data.List.Induction
import Mathlib.Data.Set.List
import MeasuredBoot.Proofs.Search.BitFlips
import MeasuredBoot.Proofs.Search.Flips

/-!
# Workers that share the combinations of one distance

Each chunk has a worker with data of its own. A worker looks whether a lower chunk has an answer, flips
the bits of its combination, asks the check, and either makes its answer known or flips the bits back and
goes on. All that workers share is the lowest chunk known to have an answer. They take steps in any order,
so a worker may give up late, early or never; when all have ended, the findings still hold the first
accepted combination of the distance, and it is the first finding of all.

A step is what no other worker can come between: reading what is known, asking the check, or writing what
is known under its lock. Nothing is said about how a step is carried out.
-/
namespace MeasuredBoot.BitFlips
open Combination (combinations flipAll Follows)

/-- Where a worker stands: with so many combinations left to begin, and at one of them. -/
inductive Stage where
  | looking (left : Nat) (c : Combination)
  | asking (left : Nat) (c : Combination)
  | restoring (left : Nat) (c : Combination)
  | publishing (c : Combination)
  | ended (r : Finding)

structure Worker where
  data : Bytes
  stage : Stage

/-- The lowest chunk known to have an answer, once this one has. -/
def withAnswer (known : Option Nat) (chunk : Nat) : Nat :=
  match known with
  | none => chunk
  | some lower => min lower chunk

/-- What the worker of a chunk does next, given what is known before and after it. -/
inductive Worker.Step (q : Query) (n chunk : Nat) : Option Nat → Worker → Option Nat → Worker → Prop
  | finish (known : Option Nat) (b : Bytes) (c : Combination) :
      Step q n chunk known ⟨b, .looking 0 c⟩ known ⟨b, .ended .exhausted⟩
  | giveUp (lower : Nat) (b : Bytes) (left : Nat) (c : Combination) :
      lower < chunk →
      Step q n chunk (some lower) ⟨b, .looking (left + 1) c⟩ (some lower) ⟨b, .ended .exhausted⟩
  | flip (known : Option Nat) (b : Bytes) (left : Nat) (c : Combination) :
      (∀ lower, known = some lower → chunk ≤ lower) →
      Step q n chunk known ⟨b, .looking (left + 1) c⟩ known ⟨flipAll b c, .asking left c⟩
  | fail (known : Option Nat) (b : Bytes) (left : Nat) (c : Combination) (f : Fault) :
      q.check b = .error f →
      Step q n chunk known ⟨b, .asking left c⟩ known ⟨b, .ended (.failed f)⟩
  | accept (known : Option Nat) (b : Bytes) (left : Nat) (c : Combination) :
      q.check b = .ok true →
      Step q n chunk known ⟨b, .asking left c⟩ known ⟨b, .publishing c⟩
  | reject (known : Option Nat) (b : Bytes) (left : Nat) (c : Combination) :
      q.check b = .ok false →
      Step q n chunk known ⟨b, .asking left c⟩ known ⟨b, .restoring left c⟩
  | publish (known : Option Nat) (b : Bytes) (c : Combination) :
      Step q n chunk known ⟨b, .publishing c⟩ (some (withAnswer known chunk)) ⟨b, .ended (.found c)⟩
  | advance (known : Option Nat) (b : Bytes) (left : Nat) (c d : Combination) :
      Combination.next n c = some d →
      Step q n chunk known ⟨b, .restoring left c⟩ known ⟨flipAll b c, .looking left d⟩
  | exhaust (known : Option Nat) (b : Bytes) (left : Nat) (c : Combination) :
      Combination.next n c = none →
      Step q n chunk known ⟨b, .restoring left c⟩ known ⟨flipAll b c, .ended .exhausted⟩

/-- The workers of one distance and what they share. -/
structure Pool where
  known : Option Nat := none
  workers : List Worker

inductive Pool.Step (q : Query) (n : Nat) : Pool → Pool → Prop
  | work {known known' : Option Nat} {workers : List Worker} {i : Nat} {w w' : Worker} :
      workers[i]? = some w → Worker.Step q n i known w known' w' →
      Step q n ⟨known, workers⟩ ⟨known', workers.set i w'⟩

def Pool.Ended (p : Pool) (rs : List Finding) : Prop := p.workers.map Worker.stage = rs.map Stage.ended

/-- The worker of each chunk, at its first combination. -/
def Pool.start (q : Query) (n distance : Nat) : Pool :=
  let total := Combination.binomial n distance
  { workers := (chunks total (workerCount q.workers total)).map fun bounds =>
      ⟨q.initial, .looking (bounds.2 - bounds.1) (Combination.unrankFrom n distance 0 bounds.1)⟩ }

/-! ## Every schedule ends -/

def Stage.remaining : Stage → Nat
  | .looking left _ => 4 * left + 1
  | .asking left _ => 4 * left + 4
  | .restoring left _ => 4 * left + 3
  | .publishing _ => 1
  | .ended _ => 0

def Pool.remaining (p : Pool) : Nat := (p.workers.map fun w => w.stage.remaining).sum

theorem Worker.Step.remaining_lt {q : Query} {n chunk : Nat} {known known' : Option Nat} {w w' : Worker}
    (h : Worker.Step q n chunk known w known' w') : w'.stage.remaining < w.stage.remaining := by
  cases h <;> simp only [Stage.remaining] <;> omega

theorem sum_map_set_lt {workers : List Worker} {i : Nat} {w w' : Worker} (hi : workers[i]? = some w)
    (hlt : w'.stage.remaining < w.stage.remaining) :
    ((workers.set i w').map fun w => w.stage.remaining).sum <
      (workers.map fun w => w.stage.remaining).sum := by
  induction workers generalizing i with
  | nil => cases hi
  | cons v rest ih =>
      cases i with
      | zero =>
          have hv : v = w := by simpa using hi
          rw [hv]
          simpa using hlt
      | succ i =>
          have hrest := ih (i := i) (by simpa using hi)
          simpa using hrest

theorem Pool.Step.remaining_lt {q : Query} {n : Nat} {p p' : Pool} (h : Pool.Step q n p p') :
    p'.remaining < p.remaining := by
  cases h with
  | work hi hstep => exact sum_map_set_lt hi hstep.remaining_lt

theorem Worker.exists_step (q : Query) (n chunk : Nat) (known : Option Nat) {w : Worker}
    (h : ∀ r, w.stage ≠ .ended r) : ∃ known' w', Worker.Step q n chunk known w known' w' := by
  obtain ⟨b, stage⟩ := w
  cases stage with
  | looking left c =>
      cases left with
      | zero => exact ⟨_, _, .finish known b c⟩
      | succ left =>
          cases known with
          | none => exact ⟨_, _, .flip none b left c fun lower hlower => by cases hlower⟩
          | some lower =>
              by_cases hlt : lower < chunk
              · exact ⟨_, _, .giveUp lower b left c hlt⟩
              · refine ⟨_, _, .flip (some lower) b left c fun other hother => ?_⟩
                have heq : lower = other := Option.some.inj hother
                omega
  | asking left c =>
      cases hcheck : q.check b with
      | error f => exact ⟨_, _, .fail known b left c f hcheck⟩
      | ok answer =>
          cases answer with
          | true => exact ⟨_, _, .accept known b left c hcheck⟩
          | false => exact ⟨_, _, .reject known b left c hcheck⟩
  | restoring left c =>
      cases hnext : Combination.next n c with
      | some d => exact ⟨_, _, .advance known b left c d hnext⟩
      | none => exact ⟨_, _, .exhaust known b left c hnext⟩
  | publishing c => exact ⟨_, _, .publish known b c⟩
  | ended r => exact absurd rfl (h r)

/-- Workers do not wait for each other: as long as one has not ended, one can go on. -/
theorem Pool.ended_or_exists_step (q : Query) (n : Nat) (p : Pool) :
    (∃ rs, p.Ended rs) ∨ ∃ p', Pool.Step q n p p' := by
  by_cases hall : ∀ w ∈ p.workers, ∃ r, w.stage = .ended r
  · left
    have hstages : p.workers.map Worker.stage ∈ Set.range (List.map Stage.ended) := by
      rw [Set.range_list_map]
      intro s hs
      obtain ⟨w, hw, rfl⟩ := List.mem_map.mp hs
      obtain ⟨r, hr⟩ := hall w hw
      exact ⟨r, hr.symm⟩
    obtain ⟨rs, hrs⟩ := hstages
    exact ⟨rs, hrs.symm⟩
  · right
    simp only [not_forall] at hall
    obtain ⟨w, hw, hrunning⟩ := hall
    obtain ⟨i, hi⟩ := List.getElem?_of_mem hw
    obtain ⟨known', w', hstep⟩ := Worker.exists_step q n i p.known (w := w) fun r hr => hrunning ⟨r, hr⟩
    exact ⟨_, .work hi hstep⟩

/-! ## What the workers find -/

section Total
variable {q : Query} {accepts : Bytes → Bool} {n : Nat} {first : Nat → Option Combination}

/-- The first accepted one among a number of combinations, from one on. -/
def FirstAhead (q : Query) (accepts : Bytes → Bool) (n left : Nat) (c : Combination)
    (a : Option Combination) : Prop :=
  ∃ rest, Follows n (c :: rest) ∧
    ((c :: rest).take left).find? (fun c => accepts (flipAll q.initial c)) = a

theorem FirstAhead.of_zero {c : Combination} {a : Option Combination}
    (h : FirstAhead q accepts n 0 c a) : a = none := by
  obtain ⟨rest, _, ha⟩ := h
  rw [← ha]
  rfl

theorem FirstAhead.of_accepted {left : Nat} {c : Combination} {a : Option Combination}
    (h : FirstAhead q accepts n (left + 1) c a) (hc : accepts (flipAll q.initial c) = true) :
    a = some c := by
  obtain ⟨rest, _, ha⟩ := h
  rw [← ha, List.take_succ_cons, List.find?_cons, hc]

theorem FirstAhead.of_rejected {left : Nat} {c d : Combination} {a : Option Combination}
    (h : FirstAhead q accepts n (left + 1) c a) (hc : accepts (flipAll q.initial c) = false)
    (hnext : Combination.next n c = some d) : FirstAhead q accepts n left d a := by
  obtain ⟨rest, hfollows, ha⟩ := h
  rw [List.take_succ_cons, List.find?_cons, hc] at ha
  cases hfollows with
  | last hlast => rw [hlast] at hnext; cases hnext
  | @step _ e rest hstep hrest =>
      have heq : e = d := Option.some.inj (hstep.symm.trans hnext)
      rw [heq] at hrest ha
      exact ⟨rest, hrest, ha⟩

theorem FirstAhead.of_last {left : Nat} {c : Combination} {a : Option Combination}
    (h : FirstAhead q accepts n (left + 1) c a) (hc : accepts (flipAll q.initial c) = false)
    (hnext : Combination.next n c = none) : a = none := by
  obtain ⟨rest, hfollows, ha⟩ := h
  rw [List.take_succ_cons, List.find?_cons, hc] at ha
  cases hfollows with
  | last hlast => rw [← ha, List.take_nil, List.find?_nil]
  | step hstep _ => rw [hnext] at hstep; cases hstep

/-- A worker is on the way to the first accepted combination of its chunk, or a lower chunk has one. Its
data is the initial one, with the bits of its combination flipped while these are being tried. -/
inductive Worker.Agrees (q : Query) (accepts : Bytes → Bool) (n : Nat)
    (first : Nat → Option Combination) (chunk : Nat) : Worker → Prop
  | looking {left : Nat} {c : Combination} :
      FirstAhead q accepts n left c (first chunk) →
      Agrees q accepts n first chunk ⟨q.initial, .looking left c⟩
  | asking {left : Nat} {c : Combination} :
      FirstAhead q accepts n (left + 1) c (first chunk) →
      Agrees q accepts n first chunk ⟨flipAll q.initial c, .asking left c⟩
  | restoring {left : Nat} {c : Combination} :
      FirstAhead q accepts n (left + 1) c (first chunk) → accepts (flipAll q.initial c) = false →
      Agrees q accepts n first chunk ⟨flipAll q.initial c, .restoring left c⟩
  | publishing {b : Bytes} {c : Combination} :
      first chunk = some c → Agrees q accepts n first chunk ⟨b, .publishing c⟩
  | found {b : Bytes} {c : Combination} :
      first chunk = some c → Agrees q accepts n first chunk ⟨b, .ended (.found c)⟩
  | exhausted {b : Bytes} :
      first chunk = none → Agrees q accepts n first chunk ⟨b, .ended .exhausted⟩
  | outrun {b : Bytes} {lower : Nat} :
      lower < chunk → (first lower).isSome = true →
      Agrees q accepts n first chunk ⟨b, .ended .exhausted⟩

/-- What workers know and find agrees with the first accepted combination of each chunk. -/
structure Pool.Agrees (q : Query) (accepts : Bytes → Bool) (n : Nat)
    (first : Nat → Option Combination) (p : Pool) : Prop where
  worker : ∀ (i : Nat) (w : Worker), p.workers[i]? = some w → w.Agrees q accepts n first i
  known : ∀ i, p.known = some i → (first i).isSome = true

theorem Worker.Agrees.step {chunk : Nat} {known known' : Option Nat} {w w' : Worker}
    (hcheck : ∀ b, q.check b = .ok (accepts b))
    (hknown : ∀ i, known = some i → (first i).isSome = true)
    (h : w.Agrees q accepts n first chunk) (hstep : Worker.Step q n chunk known w known' w') :
    w'.Agrees q accepts n first chunk := by
  cases hstep with
  | finish _ b c =>
      cases h with
      | looking hahead => exact .exhausted hahead.of_zero
  | giveUp lower b left c hlt => exact .outrun hlt (hknown lower rfl)
  | flip _ b left c _ =>
      cases h with
      | looking hahead => exact .asking hahead
  | fail _ b left c f hfail =>
      rw [hcheck] at hfail
      cases hfail
  | accept _ b left c htrue =>
      cases h with
      | asking hahead =>
          have haccepts : accepts (flipAll q.initial c) = true := by
            rw [hcheck] at htrue
            exact Except.ok.inj htrue
          exact .publishing (hahead.of_accepted haccepts)
  | reject _ b left c hfalse =>
      cases h with
      | asking hahead =>
          have hrejects : accepts (flipAll q.initial c) = false := by
            rw [hcheck] at hfalse
            exact Except.ok.inj hfalse
          exact .restoring hahead hrejects
  | publish _ b c =>
      cases h with
      | publishing hfirst => exact .found hfirst
  | advance _ b left c d hnext =>
      cases h with
      | restoring hahead hrejects =>
          rw [Combination.flipAll_flipAll]
          exact .looking (hahead.of_rejected hrejects hnext)
  | exhaust _ b left c hnext =>
      cases h with
      | restoring hahead hrejects => exact .exhausted (hahead.of_last hrejects hnext)

theorem Worker.Agrees.known_step {chunk : Nat} {known known' : Option Nat} {w w' : Worker}
    (hknown : ∀ i, known = some i → (first i).isSome = true)
    (h : w.Agrees q accepts n first chunk) (hstep : Worker.Step q n chunk known w known' w') :
    ∀ i, known' = some i → (first i).isSome = true := by
  cases hstep with
  | publish _ b c =>
      cases h with
      | publishing hfirst =>
          have hchunk : (first chunk).isSome = true := by rw [hfirst, Option.isSome_some]
          intro i hi
          have heq : withAnswer known chunk = i := Option.some.inj hi
          cases known with
          | none => exact heq ▸ hchunk
          | some lower =>
              have hlower := hknown lower rfl
              rcases Nat.le_total lower chunk with hle | hle
              · rwa [← heq, withAnswer, Nat.min_eq_left hle]
              · rwa [← heq, withAnswer, Nat.min_eq_right hle]
  | finish => exact hknown
  | giveUp => exact hknown
  | flip => exact hknown
  | fail => exact hknown
  | accept => exact hknown
  | reject => exact hknown
  | advance => exact hknown
  | exhaust => exact hknown

theorem Pool.Agrees.step {p p' : Pool} (hcheck : ∀ b, q.check b = .ok (accepts b))
    (h : p.Agrees q accepts n first) (hstep : Pool.Step q n p p') : p'.Agrees q accepts n first := by
  cases hstep with
  | @work known known' workers i w w' hi hw =>
      have hagrees := h.worker i w hi
      refine ⟨fun j v hj => ?_, hagrees.known_step h.known hw⟩
      rw [List.getElem?_set] at hj
      by_cases heq : i = j
      · rw [if_pos heq] at hj
        split at hj
        · have hv : w' = v := Option.some.inj hj
          rw [← hv, ← heq]
          exact hagrees.step hcheck h.known hw
        · cases hj
      · rw [if_neg heq] at hj
        exact h.worker j v hj

theorem Pool.Step.length_eq {p p' : Pool} (h : Pool.Step q n p p') :
    p'.workers.length = p.workers.length := by
  cases h with
  | work => exact List.length_set

def Finding.combination? : Finding → Option Combination
  | .found c => some c
  | _ => none

def Finding.fault? : Finding → Option Fault
  | .failed f => some f
  | _ => none

theorem Worker.Agrees.fault_eq_none {chunk : Nat} {w : Worker} {r : Finding}
    (h : w.Agrees q accepts n first chunk) (hr : w.stage = .ended r) : r.fault? = none := by
  cases h <;> cases hr <;> rfl

/-- A worker that has ended found what its chunk has first, unless a lower chunk has something. -/
theorem Worker.Agrees.combination_eq {chunk : Nat} {w : Worker} {r : Finding}
    (h : w.Agrees q accepts n first chunk) (hr : w.stage = .ended r) :
    r.combination? = first chunk ∨
      r.combination? = none ∧ ∃ lower, lower < chunk ∧ (first lower).isSome = true := by
  cases h with
  | looking => cases hr
  | asking => cases hr
  | restoring => cases hr
  | publishing => cases hr
  | found hfirst =>
      cases hr
      exact .inl hfirst.symm
  | exhausted hnone =>
      cases hr
      exact .inl hnone.symm
  | outrun hlt hsome =>
      cases hr
      exact .inr ⟨rfl, _, hlt, hsome⟩

theorem Pool.Ended.stage {p : Pool} {rs : List Finding} (h : p.Ended rs) {i : Nat} {r : Finding}
    (hr : rs[i]? = some r) : ∃ w, p.workers[i]? = some w ∧ w.stage = .ended r := by
  have hmap : (p.workers.map Worker.stage)[i]? = some (.ended r) := by
    rw [h, List.getElem?_map, hr, Option.map_some]
  rw [List.getElem?_map] at hmap
  exact Option.map_eq_some_iff.mp hmap

theorem Pool.Ended.length_eq {p : Pool} {rs : List Finding} (h : p.Ended rs) :
    rs.length = p.workers.length := by
  have hlen := congrArg List.length h
  rwa [List.length_map, List.length_map, eq_comm] at hlen

/-- Findings below which no chunk has anything are what the chunks have first. -/
theorem findSome?_combination_eq {rs : List Finding}
    (h : ∀ i r, rs[i]? = some r → r.combination? = first i ∨
      r.combination? = none ∧ ∃ lower, lower < i ∧ (first lower).isSome = true) :
    rs.findSome? Finding.combination? = (List.range rs.length).findSome? first := by
  induction rs using List.reverseRecOn with
  | nil => rfl
  | append_singleton rs r ih =>
      have hinit := ih fun i s hs => h i s (by
        have hlt := (List.getElem?_eq_some_iff.mp hs).1
        rwa [List.getElem?_append_left hlt])
      have hlast := h rs.length r (by simp)
      rw [List.findSome?_append, List.length_append, List.length_singleton, List.range_succ,
        List.findSome?_append, hinit]
      cases hfirst : (List.range rs.length).findSome? first with
      | some c => rfl
      | none =>
          -- Nothing was found below, so the last worker was not outrun.
          rcases hlast with heq | ⟨_, lower, hlt, hsome⟩
          · simp [heq]
          · have hnone := List.findSome?_eq_none_iff.mp hfirst lower (List.mem_range.mpr hlt)
            rw [hnone] at hsome
            cases hsome

/-- However the workers took turns, the first of their findings is that of the lowest chunk with one. -/
theorem Pool.Agrees.findSome?_eq {p : Pool} {rs : List Finding} (h : p.Agrees q accepts n first)
    (hended : p.Ended rs) :
    rs.findSome? Finding.combination? = (List.range p.workers.length).findSome? first := by
  rw [← hended.length_eq]
  apply findSome?_combination_eq
  intro i r hr
  obtain ⟨w, hw, hstage⟩ := hended.stage hr
  exact (h.worker i w hw).combination_eq hstage

theorem Pool.Agrees.faults_eq_nil {p : Pool} {rs : List Finding} (h : p.Agrees q accepts n first)
    (hended : p.Ended rs) : rs.filterMap Finding.fault? = [] := by
  apply List.filterMap_eq_nil_iff.mpr
  intro r hmem
  obtain ⟨i, hr⟩ := List.getElem?_of_mem hmem
  obtain ⟨w, hw, hstage⟩ := hended.stage hr
  exact (h.worker i w hw).fault_eq_none hstage

end Total

/-! ## The chunks of a distance -/

section Chunks
variable (q : Query) (accepts : Bytes → Bool) (n distance : Nat)

def Pool.bounds : List (Nat × Nat) :=
  chunks (combinations distance n).length (workerCount q.workers (combinations distance n).length)

/-- The first accepted combination of each chunk. -/
def Pool.firsts (i : Nat) : Option Combination :=
  (Pool.bounds q n distance)[i]?.bind fun b =>
    (slice (combinations distance n) b).find? fun c => accepts (flipAll q.initial c)

theorem Pool.start_workers : (Pool.start q n distance).workers =
    (Pool.bounds q n distance).map fun b =>
      ⟨q.initial, .looking (b.2 - b.1) (Combination.unrankFrom n distance 0 b.1)⟩ := by
  rw [Pool.start, Pool.bounds, Combination.binomial_eq_choose, Combination.length_combinations]

theorem Pool.agrees_start (hd : distance ≤ n) :
    (Pool.start q n distance).Agrees q accepts n (Pool.firsts q accepts n distance) := by
  refine ⟨fun i w hw => ?_, fun i hi => by cases hi⟩
  rw [Pool.start_workers, List.getElem?_map] at hw
  obtain ⟨b, hb, rfl⟩ := Option.map_eq_some_iff.mp hw
  have hpos : 0 < (combinations distance n).length := by
    rw [Combination.length_combinations]
    exact Nat.choose_pos hd
  have hlt : b.1 < (combinations distance n).length :=
    fst_lt_of_mem_chunks (workerCount_le q.workers hpos) (List.mem_of_getElem? hb)
  have hfollows := (Combination.follows_combinations hd).drop hlt
  have hcons := List.drop_eq_getElem_cons hlt
  rw [hcons] at hfollows
  have hfirst : Pool.firsts q accepts n distance i =
      (slice (combinations distance n) b).find? fun c => accepts (flipAll q.initial c) := by
    rw [Pool.firsts, hb, Option.bind_some]
  refine .looking ?_
  rw [Combination.unrankFrom_zero_eq_getElem hlt, hfirst, slice, hcons]
  exact ⟨_, hfollows, rfl⟩

theorem Pool.findSome?_firsts :
    (List.range (Pool.start q n distance).workers.length).findSome? (Pool.firsts q accepts n distance) =
      (combinations distance n).find? fun c => accepts (flipAll q.initial c) := by
  have hcover := flatMap_slice_chunks (combinations distance n)
    (workerCount_pos q.workers (combinations distance n).length)
  have hrange : (List.range (Pool.bounds q n distance).length).map (fun i =>
      (Pool.bounds q n distance)[i]?) = (Pool.bounds q n distance).map some := by
    apply List.ext_getElem
    · simp
    · intro i hi _
      have hlt : i < (Pool.bounds q n distance).length := by simpa using hi
      simp [hlt]
  calc (List.range (Pool.start q n distance).workers.length).findSome?
        (Pool.firsts q accepts n distance)
      = (List.range (Pool.bounds q n distance).length).findSome?
          (Pool.firsts q accepts n distance) := by rw [Pool.start_workers, List.length_map]
    _ = ((Pool.bounds q n distance).map some).findSome? (fun b => b.bind fun b =>
          (slice (combinations distance n) b).find? fun c => accepts (flipAll q.initial c)) := by
        rw [← hrange, List.findSome?_map]
        rfl
    _ = (Pool.bounds q n distance).findSome? (fun b =>
          (slice (combinations distance n) b).find? fun c => accepts (flipAll q.initial c)) := by
        rw [List.findSome?_map]
        rfl
    _ = ((Pool.bounds q n distance).flatMap (slice (combinations distance n))).find? (fun c =>
          accepts (flipAll q.initial c)) := by rw [List.find?_flatMap]
    _ = (combinations distance n).find? fun c => accepts (flipAll q.initial c) := by
        rw [Pool.bounds, hcover]

end Chunks

end MeasuredBoot.BitFlips
