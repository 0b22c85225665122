import MeasuredBoot.Search.Reorder

/-!
# First answers

Every search of this library asks items one after another and keeps the first answer. In any lawful
monad such a search may be flattened, carried along a map of its items, and carried along a map of its
answers. Where asking may fail, an answer or a fault of the search is one of a single item; where no item
fails, the search is the pure search for the first answer, and over items in a strict order its answer is
that of the least item that has one.
-/
namespace MeasuredBoot

section Monad
variable {m : Type → Type} [Monad m] {α β γ : Type}

@[simp] theorem firstAnswer_nil (ask : α → m (Option β)) : firstAnswer ask [] = pure none := rfl

theorem firstAnswer_cons (ask : α → m (Option β)) (x : α) (xs : List α) :
    firstAnswer ask (x :: xs) = ask x >>= fun found =>
      match found with
      | some b => pure (some b)
      | none => firstAnswer ask xs := rfl

theorem firstAnswer_congr {ask other : α → m (Option β)} {xs : List α}
    (h : ∀ x ∈ xs, ask x = other x) : firstAnswer ask xs = firstAnswer other xs := by
  induction xs with
  | nil => rfl
  | cons x xs ih =>
      rw [firstAnswer_cons, firstAnswer_cons, h x (by simp), ih fun y hy => h y (by simp [hy])]

theorem firstAnswer_map (ask : β → m (Option γ)) (f : α → β) (xs : List α) :
    firstAnswer ask (xs.map f) = firstAnswer (fun x => ask (f x)) xs := by
  induction xs with
  | nil => rfl
  | cons x xs ih => rw [List.map_cons, firstAnswer_cons, firstAnswer_cons, ih]

variable [LawfulMonad m]

theorem firstAnswer_singleton (ask : α → m (Option β)) (x : α) : firstAnswer ask [x] = ask x := by
  rw [firstAnswer_cons]
  refine Eq.trans ?_ (bind_pure (ask x))
  congr 1
  funext found
  cases found <;> rfl

theorem firstAnswer_append (ask : α → m (Option β)) (xs ys : List α) :
    firstAnswer ask (xs ++ ys) = firstAnswer ask xs >>= fun found =>
      match found with
      | some b => pure (some b)
      | none => firstAnswer ask ys := by
  induction xs with
  | nil => simp
  | cons x xs ih =>
      rw [List.cons_append, firstAnswer_cons, firstAnswer_cons, bind_assoc]
      congr 1
      funext found
      cases found with
      | none => exact ih
      | some b => simp

theorem firstAnswer_flatMap (ask : β → m (Option γ)) (f : α → List β) (xs : List α) :
    firstAnswer ask (xs.flatMap f) = firstAnswer (fun x => firstAnswer ask (f x)) xs := by
  induction xs with
  | nil => rfl
  | cons x xs ih => rw [List.flatMap_cons, firstAnswer_append, firstAnswer_cons, ih]

/-- A search whose answers are carried along a map answers the image of the first answer. -/
theorem firstAnswer_mapped (ask : α → m (Option β)) (g : β → γ) (xs : List α) :
    firstAnswer (fun x => Option.map g <$> ask x) xs = Option.map g <$> firstAnswer ask xs := by
  induction xs with
  | nil => simp
  | cons x xs ih =>
      rw [firstAnswer_cons, firstAnswer_cons, ih, map_bind, bind_map_left]
      congr 1
      funext found
      cases found <;> simp

end Monad

section Except
variable {ε α β : Type}

theorem firstAnswer_eq_findSome? {ask : α → Except ε (Option β)} {answer : α → Option β}
    {xs : List α} (h : ∀ x ∈ xs, ask x = .ok (answer x)) :
    firstAnswer ask xs = .ok (xs.findSome? answer) := by
  induction xs with
  | nil => rfl
  | cons x xs ih =>
      rw [firstAnswer_cons, h x (by simp), ih fun y hy => h y (by simp [hy]), List.findSome?_cons]
      cases answer x <;> rfl

theorem exists_of_firstAnswer_some {ask : α → Except ε (Option β)} {xs : List α} {b : β}
    (h : firstAnswer ask xs = .ok (some b)) : ∃ x ∈ xs, ask x = .ok (some b) := by
  induction xs with
  | nil => cases h
  | cons x xs ih =>
      rw [firstAnswer_cons] at h
      cases hx : ask x with
      | error f => rw [hx] at h; cases h
      | ok found =>
          rw [hx] at h
          cases found with
          | some c => cases h; exact ⟨x, by simp, hx⟩
          | none =>
              obtain ⟨y, hy, hb⟩ := ih h
              exact ⟨y, by simp [hy], hb⟩

theorem exists_of_firstAnswer_error {ask : α → Except ε (Option β)} {xs : List α} {f : ε}
    (h : firstAnswer ask xs = .error f) : ∃ x ∈ xs, ask x = .error f := by
  induction xs with
  | nil => cases h
  | cons x xs ih =>
      rw [firstAnswer_cons] at h
      cases hx : ask x with
      | error g => rw [hx] at h; cases h; exact ⟨x, by simp, hx⟩
      | ok found =>
          rw [hx] at h
          cases found with
          | some c => cases h
          | none =>
              obtain ⟨y, hy, hb⟩ := ih h
              exact ⟨y, by simp [hy], hb⟩

end Except

section Order
variable {α β : Type} {R : α → α → Prop}

/-- Over items in a strict order, the first answer is that of the least item with an answer. -/
theorem exists_least_of_findSome? {answer : α → Option β} {xs : List α} {b : β}
    (hs : xs.Pairwise R) (h : xs.findSome? answer = some b) :
    ∃ x ∈ xs, answer x = some b ∧ ∀ y ∈ xs, (answer y).isSome → x = y ∨ R x y := by
  obtain ⟨before, x, after, rfl, hx, hb⟩ := List.findSome?_eq_some_iff.mp h
  refine ⟨x, by simp, hx, ?_⟩
  intro y hy hsome
  rcases List.mem_append.mp hy with hy | hy
  · simp [hb y hy] at hsome
  · rcases List.mem_cons.mp hy with rfl | hy
    · exact Or.inl rfl
    · exact Or.inr ((List.pairwise_cons.mp (List.pairwise_append.mp hs).2.1).1 y hy)

theorem exists_least_of_find? {accepts : α → Bool} {xs : List α} {x : α}
    (hs : xs.Pairwise R) (h : xs.find? accepts = some x) :
    x ∈ xs ∧ accepts x = true ∧ ∀ y ∈ xs, accepts y = true → x = y ∨ R x y := by
  rw [← List.findSome?_guard] at h
  obtain ⟨z, hz, hx, hleast⟩ := exists_least_of_findSome? hs h
  obtain ⟨rfl, hacc⟩ := Option.guard_eq_some_iff.mp hx
  exact ⟨hz, hacc, fun y hy ha => hleast y hy (by simp [Option.guard, ha])⟩

end Order
end MeasuredBoot
