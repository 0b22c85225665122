import MeasuredBoot.Proofs.Search.Combinations

/-!
# What runs ensure

Judgements about computations that may fail. `FaultsWithin` bounds the faults of a computation without a
state; `Ensures` bounds the answers and the faults of one with a state, from every state; `Returns` says
that it does not fail and which answer it gives, whatever the state; `Stays` says that it keeps an
invariant of the state, even where it fails; and `Keeps` that it does so and fails with one kind of fault
only. Each is closed under the ways in which computations are put together here, searches included.
-/
namespace MeasuredBoot

section Except
variable {ε α β : Type}

@[simp] theorem ok_bind (a : α) (g : α → Except ε β) : (Except.ok a >>= g) = g a := rfl

@[simp] theorem error_bind (e : ε) (g : α → Except ε β) :
    ((Except.error e : Except ε α) >>= g) = .error e := rfl

@[simp] theorem map_ok (g : α → β) (a : α) : (g <$> (.ok a : Except ε α)) = .ok (g a) := rfl

@[simp] theorem map_error (g : α → β) (e : ε) : (g <$> (.error e : Except ε α)) = .error e := rfl

@[simp] theorem attempt_ok {σ : Type} (a : α) : (attempt (.ok a) : EStateM Fault σ α) = pure a := rfl

theorem bind_eq_ok_iff {x : Except ε α} {g : α → Except ε β} {b : β} :
    x >>= g = .ok b ↔ ∃ a, x = .ok a ∧ g a = .ok b := by
  cases x with
  | error e => simp
  | ok a => simp

theorem exists_of_mem_mapM {g : α → Except ε β} {xs : List α} {ys : List β} (h : xs.mapM g = .ok ys)
    {y : β} (hy : y ∈ ys) : ∃ x ∈ xs, g x = .ok y := by
  induction xs generalizing ys with
  | nil =>
      cases h
      cases hy
  | cons x rest ih =>
      rw [List.mapM_cons] at h
      obtain ⟨first, hfirst, h⟩ := bind_eq_ok_iff.mp h
      obtain ⟨later, hlater, h⟩ := bind_eq_ok_iff.mp h
      cases h
      rcases List.mem_cons.mp hy with rfl | hy
      · exact ⟨x, by simp, hfirst⟩
      · obtain ⟨z, hz, heq⟩ := ih hlater hy
        exact ⟨z, by simp [hz], heq⟩

theorem mem_of_mapM {g : α → Except ε β} {xs : List α} {ys : List β} (h : xs.mapM g = .ok ys) {x : α}
    (hx : x ∈ xs) : ∃ y ∈ ys, g x = .ok y := by
  induction xs generalizing ys with
  | nil => cases hx
  | cons z rest ih =>
      rw [List.mapM_cons] at h
      obtain ⟨first, hfirst, h⟩ := bind_eq_ok_iff.mp h
      obtain ⟨later, hlater, h⟩ := bind_eq_ok_iff.mp h
      cases h
      rcases List.mem_cons.mp hx with rfl | hx
      · exact ⟨first, by simp, hfirst⟩
      · obtain ⟨y, hy, heq⟩ := ih hlater hx
        exact ⟨y, by simp [hy], heq⟩

theorem exists_mapM_of_ok {g : α → Except ε β} {xs : List α} (h : ∀ x ∈ xs, ∃ y, g x = .ok y) :
    ∃ ys, xs.mapM g = .ok ys := by
  induction xs with
  | nil => exact ⟨[], rfl⟩
  | cons x rest ih =>
      obtain ⟨y, hy⟩ := h x (by simp)
      obtain ⟨ys, hys⟩ := ih fun z hz => h z (by simp [hz])
      refine ⟨y :: ys, ?_⟩
      rw [List.mapM_cons, hy, ok_bind, hys]
      rfl

theorem exists_mapM_ok_iff {g : α → Except ε β} {xs : List α} :
    (∃ ys, xs.mapM g = .ok ys) ↔ ∀ x ∈ xs, ∃ y, g x = .ok y := by
  constructor
  · rintro ⟨ys, hys⟩ x hx
    obtain ⟨y, -, hy⟩ := mem_of_mapM hys hx
    exact ⟨y, hy⟩
  · exact exists_mapM_of_ok

theorem mapM_of_ok {g : α → Except ε β} {f : α → β} {xs : List α} (h : ∀ x ∈ xs, g x = .ok (f x)) :
    xs.mapM g = .ok (xs.map f) := by
  induction xs with
  | nil => rfl
  | cons x rest ih =>
      rw [List.mapM_cons, h x (by simp), ok_bind, ih fun y hy => h y (by simp [hy])]
      rfl

theorem mapM_cons_eq_ok_iff {g : α → Except ε β} {x : α} {xs : List α} {ys : List β} :
    (x :: xs).mapM g = .ok ys ↔ ∃ y rest, g x = .ok y ∧ xs.mapM g = .ok rest ∧ ys = y :: rest := by
  rw [List.mapM_cons]
  constructor
  · intro h
    obtain ⟨y, hy, h⟩ := bind_eq_ok_iff.mp h
    obtain ⟨rest, hrest, h⟩ := bind_eq_ok_iff.mp h
    cases h
    exact ⟨y, rest, hy, hrest, rfl⟩
  · rintro ⟨y, rest, hy, hrest, rfl⟩
    rw [hy, ok_bind, hrest]
    rfl

/-- Where two computations undo each other, so do the lists of them. -/
theorem mapM_eq_ok_comm {g : α → Except ε β} {k : β → Except ε α} (h : ∀ x y, g x = .ok y ↔ k y = .ok x)
    {xs : List α} {ys : List β} : xs.mapM g = .ok ys ↔ ys.mapM k = .ok xs := by
  induction xs generalizing ys with
  | nil =>
      cases ys with
      | nil => exact iff_of_true rfl rfl
      | cons y rest =>
          refine iff_of_false (fun hnil => nomatch hnil) fun hcons => ?_
          obtain ⟨x, rest', -, -, hnil⟩ := mapM_cons_eq_ok_iff.mp hcons
          cases hnil
  | cons x xs ih =>
      cases ys with
      | nil =>
          refine iff_of_false (fun hcons => ?_) (fun hnil => nomatch hnil)
          obtain ⟨y, rest, -, -, hnil⟩ := mapM_cons_eq_ok_iff.mp hcons
          cases hnil
      | cons y ys =>
          rw [mapM_cons_eq_ok_iff, mapM_cons_eq_ok_iff]
          constructor
          · rintro ⟨y', rest, hy, hrest, heq⟩
            cases heq
            exact ⟨x, xs, (h x y).mp hy, ih.mp hrest, rfl⟩
          · rintro ⟨x', rest, hx, hrest, heq⟩
            cases heq
            exact ⟨y, ys, (h x y).mpr hx, ih.mpr hrest, rfl⟩

theorem eq_ok_of_toOption {x : Except ε α} {a : α} (h : x.toOption = some a) : x = .ok a := by
  cases x with
  | ok b => exact congrArg Except.ok (Option.some.inj h)
  | error e => cases h

/-- A fold none of whose steps fails is a plain fold. -/
theorem foldlM_of_ok {f : β → α → Except ε β} {g : β → α → β} {xs : List α}
    (h : ∀ x ∈ xs, ∀ b, f b x = .ok (g b x)) (b : β) : xs.foldlM f b = .ok (xs.foldl g b) := by
  induction xs generalizing b with
  | nil => rfl
  | cons x rest ih =>
      rw [List.foldlM_cons, h x (by simp), List.foldl_cons]
      exact ih (fun y hy => h y (by simp [hy])) (g b x)

/-- A fold fails if one of its items is refused and every item either is or keeps up what refuses that one. -/
theorem foldlM_of_error {f : β → α → Except ε β} {e : ε} {P : β → Prop} {xs : List α} {x : α} (hx : x ∈ xs)
    (hfails : ∀ b, P b → f b x = .error e)
    (hstep : ∀ y ∈ xs, ∀ b, P b → f b y = .error e ∨ ∃ b', f b y = .ok b' ∧ P b') {b : β} (hb : P b) :
    xs.foldlM f b = .error e := by
  induction xs generalizing b with
  | nil => cases hx
  | cons y rest ih =>
      rw [List.foldlM_cons]
      rcases hstep y (by simp) b hb with herror | ⟨b', hok, hb'⟩
      · rw [herror]
        rfl
      · have hrest : x ∈ rest := by
          rcases List.mem_cons.mp hx with rfl | hrest
          · rw [hfails b hb] at hok
            cases hok
          · exact hrest
        rw [hok]
        exact ih hrest (fun z hz => hstep z (by simp [hz])) hb'

end Except

section State
variable {σ α β : Type}

theorem bind_of_ok {x : EStateM Fault σ α} {s t : σ} {a : α} (h : x s = .ok a t)
    (g : α → EStateM Fault σ β) : (x >>= g) s = g a t := by
  simp only [Bind.bind, EStateM.bind, h]

theorem bind_of_error {x : EStateM Fault σ α} {s t : σ} {f : Fault} (h : x s = .error f t)
    (g : α → EStateM Fault σ β) : (x >>= g) s = .error f t := by
  simp only [Bind.bind, EStateM.bind, h]

theorem bind_run_eq_ok_iff {x : EStateM Fault σ α} {g : α → EStateM Fault σ β} {s u : σ} {b : β} :
    (x >>= g) s = .ok b u ↔ ∃ a t, x s = .ok a t ∧ g a t = .ok b u := by
  constructor
  · intro h
    cases hx : x s with
    | ok a t => exact ⟨a, t, rfl, (bind_of_ok hx g).symm.trans h⟩
    | error f t =>
        rw [bind_of_error hx] at h
        cases h
  · rintro ⟨a, t, hx, hg⟩
    rw [bind_of_ok hx, hg]

theorem attempt_run_eq_ok_iff {x : Except Fault α} {s t : σ} {a : α} :
    attempt x s = .ok a t ↔ x = .ok a ∧ s = t := by
  cases x with
  | ok b =>
      rw [attempt_ok]
      constructor
      · intro h
        cases h
        exact ⟨rfl, rfl⟩
      · rintro ⟨⟨⟩, rfl⟩
        rfl
  | error f =>
      constructor
      · intro h
        cases h
      · rintro ⟨⟨⟩, -⟩

/-- A computation without a state leaves the state to what follows it. -/
theorem attempt_bind_run_eq_ok_iff {x : Except Fault α} {g : α → EStateM Fault σ β} {s u : σ} {b : β} :
    (attempt x >>= g) s = .ok b u ↔ ∃ a, x = .ok a ∧ g a s = .ok b u := by
  rw [bind_run_eq_ok_iff]
  constructor
  · rintro ⟨a, t, hx, hg⟩
    obtain ⟨ha, rfl⟩ := attempt_run_eq_ok_iff.mp hx
    exact ⟨a, ha, hg⟩
  · rintro ⟨a, ha, hg⟩
    exact ⟨a, s, attempt_run_eq_ok_iff.mpr ⟨ha, rfl⟩, hg⟩

theorem get_bind_run (g : σ → EStateM Fault σ β) (s : σ) : (get >>= g) s = g s s := rfl

theorem forM_cons_of_ok {g : α → EStateM Fault σ Unit} {x : α} {s t : σ} (h : g x s = .ok () t)
    (xs : List α) : (x :: xs).forM g s = xs.forM g t := bind_of_ok h _

end State

/-- Every fault of a computation is of one kind. -/
def FaultsWithin {α : Type} (Kind : Fault → Prop) (x : Except Fault α) : Prop :=
  ∀ f, x = .error f → Kind f

/-- From every state, a computation ends with an answer of one kind or a fault of another. -/
def Ensures {σ α : Type} (x : EStateM Fault σ α) (Answer : α → Prop) (Kind : Fault → Prop) : Prop :=
  ∀ s, match x s with
    | .ok a _ => Answer a
    | .error f _ => Kind f

/-- From every state, a computation ends with one answer. -/
def Returns {σ α : Type} (x : EStateM Fault σ α) (a : α) : Prop := ∀ s, ∃ s', x s = .ok a s'

/-- The state after a computation, whether it fails or not. -/
def after {σ α : Type} (x : EStateM Fault σ α) (s : σ) : σ :=
  match x s with
  | .ok _ t => t
  | .error _ t => t

/-- An invariant is kept by a computation, whether it fails or not. -/
def Stays {σ α : Type} (Inv : σ → Prop) (x : EStateM Fault σ α) : Prop :=
  ∀ s, Inv s → Inv (after x s)

namespace FaultsWithin
variable {α β γ : Type} {Kind : Fault → Prop}

theorem ok (a : α) : FaultsWithin Kind (.ok a) := by
  rintro f ⟨⟩

theorem error {f : Fault} (h : Kind f) : FaultsWithin Kind (.error f : Except Fault α) := by
  rintro g ⟨⟩
  exact h

theorem mono {More : Fault → Prop} {x : Except Fault α} (hx : FaultsWithin Kind x)
    (h : ∀ f, Kind f → More f) : FaultsWithin More x := fun f hf => h f (hx f hf)

theorem exists_ok {x : Except Fault α} (hx : FaultsWithin (fun _ => False) x) : ∃ a, x = .ok a := by
  cases h : x with
  | ok a => exact ⟨a, rfl⟩
  | error f => exact (hx f h).elim

theorem bind {x : Except Fault α} {g : α → Except Fault β} (hx : FaultsWithin Kind x)
    (hg : ∀ a, x = .ok a → FaultsWithin Kind (g a)) : FaultsWithin Kind (x >>= g) := by
  intro f hf
  cases h : x with
  | error e =>
      rw [h] at hf
      cases hf
      exact hx f h
  | ok a =>
      rw [h] at hf
      exact hg a h f hf

theorem map {x : Except Fault α} (hx : FaultsWithin Kind x) (g : α → β) :
    FaultsWithin Kind (g <$> x) := by
  rw [map_eq_pure_bind]
  exact hx.bind fun a _ => ok (g a)

theorem mapM {g : α → Except Fault β} {xs : List α} (h : ∀ x ∈ xs, FaultsWithin Kind (g x)) :
    FaultsWithin Kind (xs.mapM g) := by
  induction xs with
  | nil => exact ok []
  | cons x xs ih =>
      rw [List.mapM_cons]
      refine (h x (by simp)).bind fun y _ => ?_
      exact (ih fun z hz => h z (by simp [hz])).bind fun ys _ => ok (y :: ys)

theorem forM {g : α → Except Fault Unit} {xs : List α} (h : ∀ x ∈ xs, FaultsWithin Kind (g x)) :
    FaultsWithin Kind (xs.forM g) := by
  induction xs with
  | nil => exact ok ()
  | cons x xs ih => exact (h x (by simp)).bind fun _ _ => ih fun z hz => h z (by simp [hz])

theorem firstAnswer {ask : α → Except Fault (Option β)} {xs : List α}
    (h : ∀ x ∈ xs, FaultsWithin Kind (ask x)) : FaultsWithin Kind (firstAnswer ask xs) := by
  intro f hf
  obtain ⟨x, hx, hask⟩ := exists_of_firstAnswer_error hf
  exact h x hx f hask

end FaultsWithin

namespace Ensures
variable {σ α β : Type} {Kind : Fault → Prop}

theorem pure {Answer : α → Prop} {a : α} (h : Answer a) :
    Ensures (Pure.pure a : EStateM Fault σ α) Answer Kind := fun _ => h

theorem throw {Answer : α → Prop} {f : Fault} (h : Kind f) :
    Ensures (throw f : EStateM Fault σ α) Answer Kind := fun _ => h

theorem attempt {Answer : α → Prop} {x : Except Fault α} (hx : FaultsWithin Kind x)
    (h : ∀ a, x = .ok a → Answer a) : Ensures (attempt x : EStateM Fault σ α) Answer Kind := by
  intro s
  cases hcase : x with
  | ok a => exact h a hcase
  | error f => exact hx f hcase

theorem modify (g : σ → σ) : Ensures (modify g) (fun _ => True) Kind := fun _ => trivial

theorem get : Ensures (get : EStateM Fault σ σ) (fun _ => True) Kind := fun _ => trivial

theorem bind {Answer : α → Prop} {Last : β → Prop} {x : EStateM Fault σ α}
    {g : α → EStateM Fault σ β} (hx : Ensures x Answer Kind)
    (hg : ∀ a, Answer a → Ensures (g a) Last Kind) : Ensures (x >>= g) Last Kind := by
  intro s
  have h := hx s
  cases hcase : x s with
  | ok a t =>
      rw [hcase] at h
      rw [bind_of_ok hcase]
      exact hg a h t
  | error f t =>
      rw [hcase] at h
      rw [bind_of_error hcase]
      exact h

theorem forM {g : α → EStateM Fault σ Unit} {xs : List α}
    (h : ∀ x ∈ xs, Ensures (g x) (fun _ => True) Kind) : Ensures (xs.forM g) (fun _ => True) Kind := by
  induction xs with
  | nil => exact pure trivial
  | cons x xs ih => exact (h x (by simp)).bind fun _ _ => ih fun y hy => h y (by simp [hy])

theorem firstAnswer {Answer : β → Prop} {ask : α → EStateM Fault σ (Option β)} {xs : List α}
    (h : ∀ x ∈ xs, Ensures (ask x) (fun o => ∀ b, o = some b → Answer b) Kind) :
    Ensures (firstAnswer ask xs) (fun o => ∀ b, o = some b → Answer b) Kind := by
  induction xs with
  | nil => exact pure (by rintro b ⟨⟩)
  | cons x xs ih =>
      rw [firstAnswer_cons]
      refine (h x (by simp)).bind fun found hfound => ?_
      cases found with
      | none => exact ih fun y hy => h y (by simp [hy])
      | some b => exact pure hfound

end Ensures

namespace Returns
variable {σ α β : Type}

theorem pure (a : α) : Returns (Pure.pure a : EStateM Fault σ α) a := fun s => ⟨s, rfl⟩

theorem attempt {x : Except Fault α} {a : α} (h : x = .ok a) :
    Returns (attempt x : EStateM Fault σ α) a := by
  subst h
  exact pure a

theorem modify (g : σ → σ) : Returns (modify g : EStateM Fault σ Unit) () := fun s => ⟨g s, rfl⟩

theorem bind {x : EStateM Fault σ α} {g : α → EStateM Fault σ β} {a : α} {b : β} (hx : Returns x a)
    (hg : Returns (g a) b) : Returns (x >>= g) b := by
  intro s
  obtain ⟨t, ht⟩ := hx s
  obtain ⟨u, hu⟩ := hg t
  exact ⟨u, (bind_of_ok ht g).trans hu⟩

theorem forM {g : α → EStateM Fault σ Unit} {xs : List α} (h : ∀ x ∈ xs, Returns (g x) ()) :
    Returns (xs.forM g) () := by
  induction xs with
  | nil => exact pure ()
  | cons x xs ih => exact (h x (by simp)).bind (ih fun y hy => h y (by simp [hy]))

theorem firstAnswer {ask : α → EStateM Fault σ (Option β)} {answer : α → Option β} {xs : List α}
    (h : ∀ x ∈ xs, Returns (ask x) (answer x)) :
    Returns (firstAnswer ask xs) (xs.findSome? answer) := by
  induction xs with
  | nil => exact pure none
  | cons x xs ih =>
      rw [firstAnswer_cons, List.findSome?_cons]
      apply (h x (by simp)).bind
      cases answer x with
      | none => exact ih fun y hy => h y (by simp [hy])
      | some b => exact pure (some b)

end Returns

section After
variable {σ α β : Type} {x : EStateM Fault σ α} {s t : σ}

theorem after_of_ok {a : α} (h : x s = .ok a t) : after x s = t := by
  rw [after, h]

theorem after_of_error {f : Fault} (h : x s = .error f t) : after x s = t := by
  rw [after, h]

theorem after_bind_of_ok {a : α} (h : x s = .ok a t) (g : α → EStateM Fault σ β) :
    after (x >>= g) s = after (g a) t := by
  rw [after, bind_of_ok h, after]

theorem after_bind_of_error {f : Fault} (h : x s = .error f t) (g : α → EStateM Fault σ β) :
    after (x >>= g) s = t := by
  rw [after, bind_of_error h]

end After

namespace Stays
variable {σ α β : Type} {Inv : σ → Prop}

theorem pure (a : α) : Stays Inv (Pure.pure a : EStateM Fault σ α) := fun _ h => h

theorem throw (f : Fault) : Stays Inv (throw f : EStateM Fault σ α) := fun _ h => h

theorem attempt (x : Except Fault α) : Stays Inv (attempt x : EStateM Fault σ α) := by
  cases x with
  | ok a => exact pure a
  | error f => exact throw f

theorem modify {g : σ → σ} (h : ∀ s, Inv s → Inv (g s)) :
    Stays Inv (modify g : EStateM Fault σ Unit) := h

theorem bind {x : EStateM Fault σ α} {g : α → EStateM Fault σ β} (hx : Stays Inv x)
    (hg : ∀ a, Stays Inv (g a)) : Stays Inv (x >>= g) := by
  intro s hs
  have ht := hx s hs
  cases hcase : x s with
  | ok a t =>
      rw [after, hcase] at ht
      rw [after, bind_of_ok hcase]
      exact hg a t ht
  | error f t =>
      rw [after, hcase] at ht
      rw [after, bind_of_error hcase]
      exact ht

theorem get_bind {g : σ → EStateM Fault σ α} (h : ∀ s, Inv s → Stays Inv (g s)) :
    Stays Inv (get >>= g) := fun s hs => h s hs s hs

theorem forM {g : α → EStateM Fault σ Unit} {xs : List α} (h : ∀ x ∈ xs, Stays Inv (g x)) :
    Stays Inv (xs.forM g) := by
  induction xs with
  | nil => exact pure ()
  | cons x xs ih => exact (h x (by simp)).bind fun _ => ih fun y hy => h y (by simp [hy])

end Stays

/-- From a state with an invariant, a computation keeps the invariant, and its fault is of one kind. -/
structure Keeps {σ α : Type} (Inv : σ → Prop) (Kind : Fault → Prop) (x : EStateM Fault σ α) : Prop where
  stays : Stays Inv x
  faults : ∀ s, Inv s → ∀ f t, x s = .error f t → Kind f

namespace Keeps
variable {σ α β : Type} {Inv : σ → Prop} {Kind : Fault → Prop}

theorem pure (a : α) : Keeps Inv Kind (Pure.pure a : EStateM Fault σ α) where
  stays := .pure a
  faults := by
    rintro s - f t ⟨⟩

theorem throw {f : Fault} (h : Kind f) : Keeps Inv Kind (throw f : EStateM Fault σ α) where
  stays := .throw f
  faults := by
    rintro s - g t ⟨⟩
    exact h

theorem modify {g : σ → σ} (h : ∀ s, Inv s → Inv (g s)) :
    Keeps Inv Kind (modify g : EStateM Fault σ Unit) where
  stays := .modify h
  faults := by
    rintro s - f t ⟨⟩

theorem bind {x : EStateM Fault σ α} {g : α → EStateM Fault σ β} (hx : Keeps Inv Kind x)
    (hg : ∀ a, Keeps Inv Kind (g a)) : Keeps Inv Kind (x >>= g) where
  stays := hx.stays.bind fun a => (hg a).stays
  faults := by
    intro s hs f t hf
    cases hcase : x s with
    | ok a u =>
        have hu := hx.stays s hs
        rw [after_of_ok hcase] at hu
        rw [bind_of_ok hcase] at hf
        exact (hg a).faults u hu f t hf
    | error e u =>
        rw [bind_of_error hcase] at hf
        cases hf
        exact hx.faults s hs f t hcase

theorem get_bind {g : σ → EStateM Fault σ α} (h : ∀ s, Inv s → Keeps Inv Kind (g s)) :
    Keeps Inv Kind (get >>= g) where
  stays := .get_bind fun s hs => (h s hs).stays
  faults s hs f t hf := (h s hs).faults s hs f t hf

/-- What follows a computation without a state may use its answer. -/
theorem attempt_bind {x : Except Fault α} {g : α → EStateM Fault σ β} (hx : FaultsWithin Kind x)
    (h : ∀ a, x = .ok a → Keeps Inv Kind (g a)) : Keeps Inv Kind (MeasuredBoot.attempt x >>= g) := by
  cases x with
  | ok a => exact h a rfl
  | error f => exact .throw (hx f rfl)

theorem forM {g : α → EStateM Fault σ Unit} {xs : List α} (h : ∀ x ∈ xs, Keeps Inv Kind (g x)) :
    Keeps Inv Kind (xs.forM g) := by
  induction xs with
  | nil => exact pure ()
  | cons x xs ih => exact (h x (by simp)).bind fun _ => ih fun y hy => h y (by simp [hy])

end Keeps
end MeasuredBoot
