import Mathlib.Data.List.Pairwise
import Mathlib.Data.List.Sort
import MeasuredBoot.Proofs.Reference.Covering
import MeasuredBoot.Proofs.Runs
import MeasuredBoot.Source.Resolve

/-!
# Merged references and the numbers of artifacts

The number of an artifact only tells it from others; which number it has is arbitrary. Numbering the artifacts
anew gives the same merged references with the same ranges, but in which order depends on the numbers wherever two
of the references go to different artifacts of one kind under one map. So the order, and with it the bytes that are
measured, is the same under all numberings exactly if there are no two such references.
-/
namespace MeasuredBoot

namespace Reference
variable {f : Nat → Nat} {r s t : Reference}

def renumber (f : Nat → Nat) (r : Reference) : Reference :=
  { r with artifact := ⟨f r.artifact.number, r.artifact.blob⟩ }

@[simp] theorem renumber_id (r : Reference) : r.renumber id = r := rfl

@[simp] theorem number_renumber : (r.renumber f).artifact.number = f r.artifact.number := rfl

@[simp] theorem blob_renumber : (r.renumber f).artifact.blob = r.artifact.blob := rfl

@[simp] theorem mapName_renumber : (r.renumber f).mapName = r.mapName := rfl

@[simp] theorem ranges_renumber : (r.renumber f).ranges = r.ranges := rfl

@[simp] theorem read_renumber : (r.renumber f).read = r.read := rfl

theorem sameTarget_renumber (hf : Function.Injective f) (r s : Reference) :
    (r.renumber f).sameTarget (s.renumber f) = r.sameTarget s := by
  rw [Bool.eq_iff_iff, sameTarget_iff, sameTarget_iff]
  simp [target, hf.eq_iff]

/-- Two references that differ in neither kind nor map, but go to different artifacts. -/
def Rivals (r s : Reference) : Prop :=
  r.artifact.blob.kindName = s.artifact.blob.kindName ∧ r.mapName = s.mapName ∧
    r.artifact.number ≠ s.artifact.number

theorem Rivals.symm (h : Rivals r s) : Rivals s r := ⟨h.1.symm, h.2.1.symm, h.2.2.symm⟩

theorem Rivals.renumber (h : Rivals r s) (hf : Function.Injective f) :
    Rivals (r.renumber f) (s.renumber f) := ⟨h.1, h.2.1, hf.ne h.2.2⟩

/-! ## The order of references -/

theorem precedes_iff : r.precedes s = true ↔
    r.artifact.blob.kindName < s.artifact.blob.kindName ∨
      (r.artifact.blob.kindName = s.artifact.blob.kindName ∧
        (r.mapName < s.mapName ∨
          (r.mapName = s.mapName ∧ r.artifact.number ≤ s.artifact.number))) := by
  simp [precedes]

theorem precedes_trans (r s t : Reference) (h : r.precedes s = true) (h' : s.precedes t = true) :
    r.precedes t = true := by
  rw [precedes_iff] at *
  rcases h with hkind | ⟨hkind, hmap | ⟨hmap, hnumber⟩⟩
  · rcases h' with hkind' | ⟨hkind', -⟩
    · exact Or.inl (String.lt_trans hkind hkind')
    · exact Or.inl (hkind' ▸ hkind)
  · rw [hkind]
    refine h'.imp_right fun ⟨hkind', hrest⟩ => ⟨hkind', Or.inl ?_⟩
    rcases hrest with hmap' | ⟨hmap', -⟩
    · exact String.lt_trans hmap hmap'
    · exact hmap' ▸ hmap
  · rw [hkind, hmap]
    exact h'.imp_right fun ⟨hkind', hrest⟩ =>
      ⟨hkind', hrest.imp_right fun ⟨hmap', hnumber'⟩ => ⟨hmap', Nat.le_trans hnumber hnumber'⟩⟩

theorem precedes_total (r s : Reference) : (r.precedes s || s.precedes r) = true := by
  rw [Bool.or_eq_true, precedes_iff, precedes_iff]
  rcases Std.lt_trichotomy r.artifact.blob.kindName s.artifact.blob.kindName with hkind | hkind | hkind
  · exact Or.inl (Or.inl hkind)
  · rcases Std.lt_trichotomy r.mapName s.mapName with hmap | hmap | hmap
    · exact Or.inl (Or.inr ⟨hkind, Or.inl hmap⟩)
    · rcases Nat.le_total r.artifact.number s.artifact.number with hnumber | hnumber
      · exact Or.inl (Or.inr ⟨hkind, Or.inr ⟨hmap, hnumber⟩⟩)
      · exact Or.inr (Or.inr ⟨hkind.symm, Or.inr ⟨hmap.symm, hnumber⟩⟩)
    · exact Or.inr (Or.inr ⟨hkind.symm, Or.inl hmap⟩)
  · exact Or.inr (Or.inl hkind)

/-- References that precede each other have one target. -/
theorem target_eq_of_precedes (h : r.precedes s = true) (h' : s.precedes r = true) :
    r.target = s.target := by
  rw [precedes_iff] at h h'
  rcases h with hkind | ⟨hkind, hrest⟩
  · rcases h' with hkind' | ⟨hkind', -⟩
    · exact absurd hkind' (String.lt_asymm hkind)
    · exact absurd (hkind' ▸ hkind) (String.lt_irrefl _)
  · rw [hkind] at h'
    obtain ⟨-, hrest'⟩ := h'.resolve_left (String.lt_irrefl _)
    rcases hrest with hmap | ⟨hmap, hnumber⟩
    · rcases hrest' with hmap' | ⟨hmap', -⟩
      · exact absurd hmap' (String.lt_asymm hmap)
      · exact absurd (hmap' ▸ hmap) (String.lt_irrefl _)
    · rw [hmap] at hrest'
      have hnumber' := (hrest'.resolve_left (String.lt_irrefl _)).2
      rw [target, target, hkind, hmap, Nat.le_antisymm hnumber hnumber']

/-- Numbers count only between rivals. -/
theorem precedes_renumber (hnot : ¬ Rivals r s) (h : r.precedes s = true) :
    (r.renumber f).precedes (s.renumber f) = true := by
  rw [precedes_iff] at h ⊢
  refine h.imp_right fun ⟨hkind, hrest⟩ => ⟨hkind, hrest.imp_right fun ⟨hmap, _⟩ => ⟨hmap, ?_⟩⟩
  have hsame : r.artifact.number = s.artifact.number := by
    by_contra hne
    exact hnot ⟨hkind, hmap, hne⟩
  rw [number_renumber, number_renumber, hsame]

theorem Rivals.number_lt (h : Rivals r s) (hprecedes : r.precedes s = true) :
    r.artifact.number < s.artifact.number := by
  obtain ⟨hkind, hmap, hne⟩ := h
  rw [precedes_iff, hkind, hmap] at hprecedes
  have hrest := (hprecedes.resolve_left (String.lt_irrefl _)).2
  have hle := (hrest.resolve_left (String.lt_irrefl _)).2
  omega

end Reference

namespace References
variable {f g : Nat → Nat} {rs ms : References} {r s : Reference}

def renumber (f : Nat → Nat) (rs : References) : References := rs.map (Reference.renumber f)

@[simp] theorem renumber_id (rs : References) : renumber id rs = rs := List.map_id'' (fun _ => rfl) rs

@[simp] theorem read_renumber : (renumber f rs).read = rs.read := by
  rw [read, read, renumber, List.mapM_map]
  rfl

/-! ## Groups under other numbers -/

theorem addToGroup_renumber (hf : Function.Injective f) (r : Reference) (gs : References) :
    addToGroup (r.renumber f) (renumber f gs) = renumber f (addToGroup r gs) := by
  induction gs with
  | nil => rfl
  | cons g rest ih =>
      simp only [renumber, List.map_cons] at ih ⊢
      rw [addToGroup, addToGroup, Reference.sameTarget_renumber hf]
      split
      · rfl
      · rw [ih, List.map_cons]

theorem grouped_renumber (hf : Function.Injective f) (rs : References) :
    grouped (renumber f rs) = renumber f (grouped rs) := by
  have hfold : ∀ gs : References,
      (renumber f rs).foldl (fun gs r => addToGroup r gs) (renumber f gs) =
        renumber f (rs.foldl (fun gs r => addToGroup r gs) gs) := by
    induction rs with
    | nil => exact fun gs => rfl
    | cons r rest ih =>
        intro gs
        have hstep := ih (addToGroup r gs)
        rwa [← addToGroup_renumber hf] at hstep
  exact hfold []

/-! ## Merged references under other numbers -/

/-- A group with its ranges normalised, unless nothing is left of them. -/
def joined (g : Reference) : Option Reference :=
  if g.ranges.normalize.isEmpty then none else some { g with ranges := g.ranges.normalize }

theorem merge_eq (rs : References) :
    merge rs = ((grouped rs).mergeSort Reference.precedes).filterMap joined := rfl

theorem joined_renumber (r : Reference) : joined (r.renumber f) = (joined r).map (·.renumber f) := by
  rw [joined, joined, Reference.ranges_renumber]
  split <;> rfl

theorem eq_of_joined (h : joined r = some s) : s = { r with ranges := r.ranges.normalize } :=
  (Reference.withRanges?_eq_some_iff.mp h).2

theorem sorted_merge (rs : References) : (merge rs).Pairwise fun r s => r.precedes s = true := by
  rw [merge_eq]
  have hsorted := List.pairwise_mergeSort Reference.precedes_trans Reference.precedes_total (grouped rs)
  refine hsorted.filterMap joined fun r r' hprecedes s hs s' hs' => ?_
  rw [eq_of_joined hs, eq_of_joined hs']
  exact hprecedes

theorem merge_perm (rs : References) : (merge rs).Perm ((grouped rs).filterMap joined) :=
  (List.mergeSort_perm _ _).filterMap joined

/-- The same references with the same ranges are merged under all numbers. -/
theorem merge_renumber_perm (hf : Function.Injective f) (rs : References) :
    (merge (renumber f rs)).Perm (renumber f (merge rs)) := by
  have hgroups : (grouped (renumber f rs)).filterMap joined =
      renumber f ((grouped rs).filterMap joined) := by
    rw [grouped_renumber hf, renumber, renumber, List.filterMap_map, List.map_filterMap]
    exact List.filterMap_congr fun r _ => joined_renumber r
  have hgathered := merge_perm (renumber f rs)
  rw [hgroups] at hgathered
  exact hgathered.trans ((merge_perm rs).map _).symm

/-- The merged references are the one list of them that is in order. -/
theorem eq_merge_of_sorted (hperm : ms.Perm (merge rs))
    (hsorted : ms.Pairwise fun r s => r.precedes s = true) : ms = merge rs := by
  refine hperm.eq_of_pairwise (fun r s hr hs h h' => ?_) hsorted (sorted_merge rs)
  exact eq_of_mem_merge (hperm.mem_iff.mp hr) hs (Reference.target_eq_of_precedes h h')

/-- The merged references keep their order under other numbers exactly if they are still in order. -/
theorem merge_renumber_eq_iff (hf : Function.Injective f) (rs : References) :
    merge (renumber f rs) = renumber f (merge rs) ↔
      (merge rs).Pairwise fun r s => (r.renumber f).precedes (s.renumber f) = true := by
  constructor
  · intro heq
    have hsorted := sorted_merge (renumber f rs)
    rw [heq] at hsorted
    exact List.pairwise_map.mp hsorted
  · intro hsorted
    exact (eq_merge_of_sorted (merge_renumber_perm hf rs).symm (List.pairwise_map.mpr hsorted)).symm

/-- References of which no two are rivals. -/
def Unrivalled (rs : References) : Prop := ∀ r ∈ rs, ∀ s ∈ rs, ¬ Reference.Rivals r s

theorem merge_renumber (h : Unrivalled (merge rs)) (hf : Function.Injective f) :
    merge (renumber f rs) = renumber f (merge rs) := by
  rw [merge_renumber_eq_iff hf]
  exact (sorted_merge rs).imp_of_mem fun hr hs => Reference.precedes_renumber (h _ hr _ hs)

/-- Two numberings under which the merged references stand in the same order. -/
def SameOrder (f g : Nat → Nat) (rs : References) : Prop :=
  ∃ ms, merge (renumber f rs) = renumber f ms ∧ merge (renumber g rs) = renumber g ms

def exchange (m n k : Nat) : Nat := if k = m then n else if k = n then m else k

theorem exchange_injective (m n : Nat) : Function.Injective (exchange m n) := by
  intro k l h
  unfold exchange at h
  grind

@[simp] theorem exchange_left (m n : Nat) : exchange m n m = n := by simp [exchange]

@[simp] theorem exchange_right (m n : Nat) : exchange m n n = m := by
  by_cases h : n = m <;> simp [exchange, h]

theorem not_precedes_exchange (hrivals : Reference.Rivals r s) (h : r.precedes s = true) :
    ¬ (r.renumber (exchange r.artifact.number s.artifact.number)).precedes
      (s.renumber (exchange r.artifact.number s.artifact.number)) = true := by
  intro hexchanged
  have hless := hrivals.number_lt h
  have hmore := (hrivals.renumber (exchange_injective _ _)).number_lt hexchanged
  rw [Reference.number_renumber, Reference.number_renumber, exchange_left, exchange_right] at hmore
  exact Nat.lt_asymm hless hmore

/-- References that are merged in the same order under all numbers have no rivals: exchanging the numbers of two of
them would exchange their places. -/
theorem unrivalled_of_sameOrder
    (h : ∀ f g, Function.Injective f → Function.Injective g → SameOrder f g rs) : Unrivalled (merge rs) := by
  have hkept : ∀ m n, (merge rs).Pairwise fun r s =>
      (r.renumber (exchange m n)).precedes (s.renumber (exchange m n)) = true := by
    intro m n
    obtain ⟨ms, hid, hother⟩ := h id (exchange m n) Function.injective_id (exchange_injective m n)
    rw [renumber_id, renumber_id] at hid
    rw [← hid] at hother
    exact (merge_renumber_eq_iff (exchange_injective m n) rs).mp hother
  -- In a list that is in order before and after the exchange, the first of two rivals is named by its place.
  have hpairs : (merge rs).Pairwise fun r s => ¬ Reference.Rivals r s := by
    rw [List.pairwise_iff_forall_sublist]
    intro r s hsub hrivals
    have hbefore := List.pairwise_iff_forall_sublist.mp (sorted_merge rs) hsub
    have hafter := List.pairwise_iff_forall_sublist.mp (hkept r.artifact.number s.artifact.number) hsub
    exact not_precedes_exchange hrivals hbefore hafter
  have hsymm : Std.Symm fun r s => ¬ Reference.Rivals r s := ⟨fun _ _ hnot h => hnot h.symm⟩
  exact fun r hr s hs => hpairs.forall_of_forall (fun _ _ h => h.2.2 rfl) hr hs

def mergedBytes (s : State) (inner : Source) : Except Fault Bytes := (Source.merged inner).resolve s >>= Data.raw

theorem mergedBytes_eq {s : State} {inner : Source} (h : inner.resolve s = .ok (.referenced rs none)) :
    mergedBytes s inner = (merge rs).read := by
  rw [mergedBytes, Source.resolve, h]
  rfl

/-- Under any numbering, the same references with the same ranges are merged. They stand in the same order under
all numberings exactly if no two of them are rivals; then two runs that number the artifacts differently read the
same bytes from the merged references of a source. -/
theorem merged_order_iff (rs : References) :
    (∀ f, Function.Injective f → (merge (renumber f rs)).Perm (renumber f (merge rs))) ∧
    ((∀ f g, Function.Injective f → Function.Injective g → SameOrder f g rs) ↔ Unrivalled (merge rs)) ∧
    (Unrivalled (merge rs) → ∀ f g, Function.Injective f → Function.Injective g →
      ∀ (s t : State) (x y : Source), x.resolve s = .ok (.referenced (renumber f rs) none) →
        y.resolve t = .ok (.referenced (renumber g rs) none) → mergedBytes s x = mergedBytes t y) := by
  have hsame : Unrivalled (merge rs) → ∀ f g, Function.Injective f → Function.Injective g →
      SameOrder f g rs :=
    fun h f g hf hg => ⟨merge rs, merge_renumber h hf, merge_renumber h hg⟩
  refine ⟨fun f hf => merge_renumber_perm hf rs, ⟨unrivalled_of_sameOrder, hsame⟩, ?_⟩
  intro h f g hf hg s t x y hx hy
  rw [mergedBytes_eq hx, mergedBytes_eq hy, merge_renumber h hf, merge_renumber h hg, read_renumber,
    read_renumber]

def sampleByte (number : Nat) (byte : UInt8) : Reference :=
  ⟨⟨number, .raw Blob.plainName (ByteArray.mk #[byte])⟩, none, [⟨0, 1⟩]⟩

def samplePair : References := [sampleByte 3 0xAA, sampleByte 4 0xBB]

theorem joined_sampleByte (n : Nat) (x : UInt8) : joined (sampleByte n x) = some (sampleByte n x) := by
  simp [joined, sampleByte, ByteRanges.normalize, ByteRanges.coalesce]

theorem read_sampleBytes (m n : Nat) (x y : UInt8) : read [sampleByte m x, sampleByte n y] = .ok [x, y] := by
  have hone : ∀ k z, (sampleByte k z).read = .ok [z] := by
    intro k z
    have hsize : (ByteArray.mk #[z]).size = 1 := rfl
    simp [Reference.read, Reference.resolvedRanges, sampleByte, ByteRanges.normalize, ByteRanges.coalesce,
      Reference.readRange, Blob.read, Blob.readContent, hsize, pure, Except.pure]
  simp [read, hone]

theorem merge_sampleBytes {m n : Nat} (h : m < n) (x y : UInt8) :
    merge [sampleByte m x, sampleByte n y] = [sampleByte m x, sampleByte n y] ∧
      merge [sampleByte n y, sampleByte m x] = [sampleByte m x, sampleByte n y] := by
  have hperm : ∀ k l z w, k ≠ l →
      (merge [sampleByte k z, sampleByte l w]).Perm [sampleByte k z, sampleByte l w] := by
    intro k l z w hne
    have hapart : (sampleByte k z).sameTarget (sampleByte l w) = false := by
      simp [Reference.sameTarget, sampleByte, hne]
    have hgathered := merge_perm [sampleByte k z, sampleByte l w]
    simpa [grouped, addToGroup, hapart, joined_sampleByte] using hgathered
  have hsorted : [sampleByte m x, sampleByte n y].Pairwise fun r s => r.precedes s = true := by
    rw [List.pairwise_pair, Reference.precedes_iff]
    exact Or.inr ⟨rfl, Or.inr ⟨rfl, Nat.le_of_lt h⟩⟩
  constructor
  · have hsame := hperm m n x y (Nat.ne_of_lt h)
    exact (eq_merge_of_sorted hsame.symm hsorted).symm
  · have hsame := hperm n m y x (Nat.ne_of_gt h)
    exact (eq_merge_of_sorted ((List.Perm.swap _ _ _).trans hsame.symm) hsorted).symm

/-- One byte has no rivals and is read alike under all numbers; two bytes of different artifacts are not. -/
theorem merged_order_iff_sample : Unrivalled (merge [sampleByte 3 0xAA]) ∧
    (∀ f g, Function.Injective f → Function.Injective g → SameOrder f g [sampleByte 3 0xAA]) ∧
    ¬ ∀ f g, Function.Injective f → Function.Injective g → SameOrder f g samplePair := by
  have hone : merge [sampleByte 3 0xAA] = [sampleByte 3 0xAA] := by
    have hgathered := merge_perm [sampleByte 3 0xAA]
    rw [← List.perm_singleton]
    simpa [grouped, addToGroup, joined_sampleByte] using hgathered
  have halone : Unrivalled (merge [sampleByte 3 0xAA]) := by
    rw [hone]
    intro r hr s hs hrivals
    rw [List.mem_singleton.mp hr, List.mem_singleton.mp hs] at hrivals
    exact hrivals.2.2 rfl
  refine ⟨halone, (merged_order_iff _).2.1.mpr halone, fun hall => ?_⟩
  have hpair := (merged_order_iff samplePair).2.1.mp hall
  rw [samplePair, (merge_sampleBytes (by decide) _ _).1] at hpair
  exact hpair (sampleByte 3 0xAA) (by simp) (sampleByte 4 0xBB) (by simp) ⟨rfl, rfl, by decide⟩

/-- The two bytes change places with the numbers of the artifacts, so merged references do not stand in the same
order under all numberings. -/
theorem samplePair_not_sameOrder : Function.Injective (exchange 3 4) ∧
    mergedBytes {} (.fixed (.referenced samplePair none)) = .ok [0xAA, 0xBB] ∧
    mergedBytes {} (.fixed (.referenced (renumber (exchange 3 4) samplePair) none)) = .ok [0xBB, 0xAA] ∧
    ¬ SameOrder id (exchange 3 4) samplePair := by
  have hbefore : (merge samplePair).read = .ok [0xAA, 0xBB] := by
    rw [samplePair, (merge_sampleBytes (by decide) _ _).1, read_sampleBytes]
  have hafter : (merge (renumber (exchange 3 4) samplePair)).read = .ok [0xBB, 0xAA] := by
    have hnumbers : renumber (exchange 3 4) samplePair = [sampleByte 4 0xAA, sampleByte 3 0xBB] := rfl
    rw [hnumbers, (merge_sampleBytes (by decide) _ _).2, read_sampleBytes]
  refine ⟨exchange_injective 3 4, ?_, ?_, ?_⟩
  · rw [mergedBytes_eq rfl, hbefore]
  · rw [mergedBytes_eq rfl, hafter]
  · rintro ⟨ms, hid, hother⟩
    rw [renumber_id, renumber_id] at hid
    rw [hid] at hbefore
    rw [hother, read_renumber, hbefore] at hafter
    cases hafter

end References
end MeasuredBoot
