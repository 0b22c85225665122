import Mathlib.Data.List.Forall2
import MeasuredBoot.Proofs.Runs

/-!
# Two computations side by side

What it means that two computations tell the same apart from some data. Two computations without a state are
parallel if both have answers, which are related, or both have the same fault. Two computations with a state
are in lockstep if from related states they end with the same answer or the same fault, and in related states
again. Both notions are closed under the ways in which computations are put together, so a program is compared
with its counterpart along its text.
-/
namespace MeasuredBoot

/-- Two computations end in the same way: with related answers, or with one fault. -/
def Parallel {α β : Type} (R : α → β → Prop) : Except Fault α → Except Fault β → Prop
  | .ok a, .ok b => R a b
  | .error f, .error g => g = f
  | _, _ => False

namespace Parallel
variable {α β γ δ : Type} {R : α → β → Prop} {S : γ → δ → Prop}

theorem refl {R : α → α → Prop} (h : ∀ a, R a a) (x : Except Fault α) : Parallel R x x := by
  cases x with
  | ok a => exact h a
  | error f => rfl

theorem bind {x : Except Fault α} {y : Except Fault β} {g : α → Except Fault γ} {k : β → Except Fault δ}
    (h : Parallel R x y) (hg : ∀ a b, R a b → Parallel S (g a) (k b)) : Parallel S (x >>= g) (y >>= k) := by
  cases x <;> cases y
  · exact h
  · cases h
  · cases h
  · exact hg _ _ h

theorem mapM {ι : Type} {g : ι → Except Fault α} {k : ι → Except Fault β} {xs : List ι}
    (h : ∀ x ∈ xs, Parallel R (g x) (k x)) : Parallel (List.Forall₂ R) (xs.mapM g) (xs.mapM k) := by
  induction xs with
  | nil => exact .nil
  | cons x rest ih =>
      rw [List.mapM_cons, List.mapM_cons]
      refine (h x (by simp)).bind fun a b hab => ?_
      exact (ih fun y hy => h y (by simp [hy])).bind fun as bs hrest => .cons hab hrest

theorem answers {x : Except Fault α} {y : Except Fault β} (h : Parallel R x y) :
    Parallel (fun a b => R a b ∧ x = .ok a ∧ y = .ok b) x y := by
  cases x <;> cases y
  · exact h
  · cases h
  · cases h
  · exact ⟨h, rfl, rfl⟩

end Parallel

/-- What two computations have ended with: one answer or one fault, in related states. -/
def EndAlike {σ α : Type} (R : σ → σ → Prop) : EStateM.Result Fault σ α → EStateM.Result Fault σ α → Prop
  | .ok a s, .ok b t => b = a ∧ R s t
  | .error f s, .error g t => g = f ∧ R s t
  | _, _ => False

namespace EndAlike
variable {σ α : Type} {R : σ → σ → Prop} {r r' : EStateM.Result Fault σ α} {s : σ}

theorem of_ok {a : α} (h : EndAlike R r r') (hr : r = .ok a s) : ∃ t, r' = .ok a t ∧ R s t := by
  subst hr
  cases r' with
  | ok b t =>
      obtain ⟨rfl, hst⟩ := h
      exact ⟨t, rfl, hst⟩
  | error g t => cases h

theorem of_error {f : Fault} (h : EndAlike R r r') (hr : r = .error f s) :
    ∃ t, r' = .error f t ∧ R s t := by
  subst hr
  cases r' with
  | ok b t => cases h
  | error g t =>
      obtain ⟨rfl, hst⟩ := h
      exact ⟨t, rfl, hst⟩

end EndAlike

/-- From related states, two computations end alike. -/
def Lockstep {σ α : Type} (R : σ → σ → Prop) (x y : EStateM Fault σ α) : Prop :=
  ∀ s t, R s t → EndAlike R (x s) (y t)

namespace Lockstep
variable {σ α β : Type} {R : σ → σ → Prop} {x y : EStateM Fault σ α}

theorem self (x : EStateM Fault σ α) : Lockstep Eq x x := by
  rintro s t rfl
  cases hx : x s <;> exact ⟨rfl, rfl⟩

theorem pure (a : α) : Lockstep R (Pure.pure a) (Pure.pure a) := fun _ _ h => ⟨rfl, h⟩

theorem throw (f : Fault) : Lockstep R (throw f : EStateM Fault σ α) (throw f) := fun _ _ h => ⟨rfl, h⟩

theorem modify {g k : σ → σ} (h : ∀ s t, R s t → R (g s) (k t)) :
    Lockstep R (modify g : EStateM Fault σ Unit) (modify k) := fun s t hst => ⟨rfl, h s t hst⟩

theorem set {s t : σ} (h : R s t) : Lockstep R (set s : EStateM Fault σ PUnit) (set t) := fun _ _ _ => ⟨rfl, h⟩

theorem bind {g k : α → EStateM Fault σ β} (h : Lockstep R x y) (hg : ∀ a, Lockstep R (g a) (k a)) :
    Lockstep R (x >>= g) (y >>= k) := by
  intro s t hst
  have hends := h s t hst
  cases hx : x s with
  | ok a u =>
      cases hy : y t with
      | ok b v =>
          rw [hx, hy] at hends
          obtain ⟨rfl, huv⟩ := hends
          rw [bind_of_ok hx, bind_of_ok hy]
          exact hg b u v huv
      | error f v =>
          rw [hx, hy] at hends
          cases hends
  | error f u =>
      cases hy : y t with
      | ok b v =>
          rw [hx, hy] at hends
          cases hends
      | error e v =>
          rw [hx, hy] at hends
          rw [bind_of_error hx, bind_of_error hy]
          exact hends

theorem get_bind {g k : σ → EStateM Fault σ β} (h : ∀ s t, R s t → Lockstep R (g s) (k t)) :
    Lockstep R (get >>= g) (get >>= k) := fun s t hst => h s t hst s t hst

theorem attempt_bind {γ δ : Type} {A : γ → δ → Prop} {x : Except Fault γ} {y : Except Fault δ}
    {g : γ → EStateM Fault σ β} {k : δ → EStateM Fault σ β} (h : Parallel A x y)
    (hg : ∀ a b, A a b → Lockstep R (g a) (k b)) : Lockstep R (attempt x >>= g) (attempt y >>= k) := by
  cases x <;> cases y
  · obtain rfl := h
    exact .throw _
  · cases h
  · cases h
  · exact hg _ _ h

theorem forM {ι : Type} {g k : ι → EStateM Fault σ Unit} {xs : List ι}
    (h : ∀ x ∈ xs, Lockstep R (g x) (k x)) : Lockstep R (xs.forM g) (xs.forM k) := by
  induction xs with
  | nil => exact pure ()
  | cons x rest ih => exact (h x (by simp)).bind fun _ => ih fun y hy => h y (by simp [hy])

theorem after (h : Lockstep R x y) {s t : σ} (hst : R s t) :
    R (MeasuredBoot.after x s) (MeasuredBoot.after y t) := by
  have hends := h s t hst
  rw [MeasuredBoot.after, MeasuredBoot.after]
  cases hx : x s <;> cases hy : y t <;> rw [hx, hy] at hends
  · exact hends.2
  · cases hends
  · cases hends
  · exact hends.2

/-- A relation that the states keep besides may be carried along. -/
theorem and {L : σ → σ → Prop} (h : Lockstep R x y)
    (hL : ∀ s t, R s t → L s t → L (MeasuredBoot.after x s) (MeasuredBoot.after y t)) :
    Lockstep (fun s t => R s t ∧ L s t) x y := by
  rintro s t ⟨hst, hkept⟩
  have hends := h s t hst
  have hlater := hL s t hst hkept
  rw [MeasuredBoot.after, MeasuredBoot.after] at hlater
  cases hx : x s <;> cases hy : y t <;> rw [hx, hy] at hends hlater
  · exact ⟨hends.1, hends.2, hlater⟩
  · cases hends
  · cases hends
  · exact ⟨hends.1, hends.2, hlater⟩

end Lockstep
end MeasuredBoot
