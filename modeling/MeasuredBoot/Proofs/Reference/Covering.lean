import Mathlib.Data.List.Induction
import Mathlib.Data.List.Nodup
import MeasuredBoot.Proofs.Reference.Canonical
import MeasuredBoot.Reference

/-!
# What references cover

References cover addresses of artifacts, each in the coordinates of a map or as offsets; an artifact is known by its
kind and number. Merging groups the references by artifact and map and joins their ranges, so that each of these
targets occurs once and the covered addresses stay the same; excluding others leaves the addresses which these do
not cover. Where all references hold offsets, the artifact is the target, and nothing is left exactly if the others
cover every byte.
-/
namespace MeasuredBoot

def Artifact.Same (x y : Artifact) : Prop := x.blob.kindName = y.blob.kindName ∧ x.number = y.number

instance (x y : Artifact) : Decidable (x.Same y) :=
  inferInstanceAs (Decidable (x.blob.kindName = y.blob.kindName ∧ x.number = y.number))

theorem Artifact.Same.symm {x y : Artifact} (h : x.Same y) : y.Same x := ⟨h.1.symm, h.2.symm⟩

theorem Artifact.Same.trans {x y z : Artifact} (h : x.Same y) (h' : y.Same z) : x.Same z :=
  ⟨h.1.trans h'.1, h.2.trans h'.2⟩

/-- What references must agree on to be merged. -/
def Reference.target (r : Reference) : String × Nat × String :=
  (r.artifact.blob.kindName, r.artifact.number, r.mapName)

theorem Reference.sameTarget_iff {r s : Reference} : r.sameTarget s = true ↔ r.target = s.target := by
  simp [sameTarget, target, and_assoc]

theorem Reference.mapName_eq_iff {r s : Reference} : r.mapName = s.mapName ↔ r.map = s.map := by
  constructor
  · intro h
    unfold mapName at h
    cases hr : r.map with
    | none =>
        cases hs : s.map with
        | none => rfl
        | some m => cases m <;> simp [hr, hs, AddressMap.name] at h
    | some l =>
        cases hs : s.map with
        | none => cases l <;> simp [hr, hs, AddressMap.name] at h
        | some m => cases l <;> cases m <;> simp [hr, hs, AddressMap.name] at h ⊢
  · intro h
    rw [mapName, mapName, h]

theorem Reference.target_eq_iff {r s : Reference} :
    r.target = s.target ↔ r.artifact.Same s.artifact ∧ r.map = s.map := by
  simp [target, Artifact.Same, mapName_eq_iff, and_assoc]

def Reference.withRanges? (r : Reference) (ranges : ByteRanges) : Option Reference :=
  if ranges.isEmpty then none else some { r with ranges := ranges }

theorem Reference.withRanges?_eq_some_iff {r p : Reference} {ranges : ByteRanges} :
    r.withRanges? ranges = some p ↔ ranges ≠ [] ∧ p = { r with ranges := ranges } := by
  rw [withRanges?, Option.ite_none_left_eq_some, List.isEmpty_iff, Option.some.injEq, eq_comm (a := p)]

namespace References
variable {rs gs others : References} {r g : Reference} {x : Artifact} {m : Option AddressMap} {a : Int}

/-- True of an address of an artifact that some reference covers. -/
def Covers (rs : References) (x : Artifact) (a : Int) : Prop :=
  ∃ r ∈ rs, r.artifact.Same x ∧ ByteRanges.Covers r.ranges a

/-- True of an address of an artifact, in the coordinates of a map, that some reference covers. -/
def CoversAt (rs : References) (x : Artifact) (m : Option AddressMap) (a : Int) : Prop :=
  ∃ r ∈ rs, r.artifact.Same x ∧ r.map = m ∧ ByteRanges.Covers r.ranges a

instance (rs : References) (x : Artifact) (m : Option AddressMap) (a : Int) : Decidable (CoversAt rs x m a) :=
  inferInstanceAs (Decidable (∃ r ∈ rs, r.artifact.Same x ∧ r.map = m ∧ ByteRanges.Covers r.ranges a))

/-- References that hold offsets, and no negative length. -/
structure Offsets (rs : References) : Prop where
  unmapped : ∀ r ∈ rs, r.map = none
  sized : ∀ r ∈ rs, ByteRanges.Sized r.ranges

theorem Offsets.append (h : Offsets rs) (h' : Offsets gs) : Offsets (rs ++ gs) where
  unmapped r hr := (List.mem_append.mp hr).elim (h.unmapped r) (h'.unmapped r)
  sized r hr := (List.mem_append.mp hr).elim (h.sized r) (h'.sized r)

theorem covers_append : Covers (rs ++ gs) x a ↔ Covers rs x a ∨ Covers gs x a := by
  simp [Covers, or_and_right, exists_or]

theorem covers_cons : Covers (r :: rs) x a ↔
    (r.artifact.Same x ∧ ByteRanges.Covers r.ranges a) ∨ Covers rs x a := by
  simp [Covers]

theorem coversAt_cons : CoversAt (r :: rs) x m a ↔
    (r.artifact.Same x ∧ r.map = m ∧ ByteRanges.Covers r.ranges a) ∨ CoversAt rs x m a := by
  simp [CoversAt]

theorem coversAt_congr (hsame : r.artifact.Same x) (hmap : r.map = m) :
    CoversAt rs r.artifact r.map a ↔ CoversAt rs x m a := by
  refine exists_congr fun s => and_congr_right fun _ => ?_
  rw [hmap]
  exact and_congr_left' ⟨fun h => h.trans hsame, fun h => h.trans hsame.symm⟩

theorem covers_iff_of_unmapped (h : ∀ r ∈ rs, r.map = none) : Covers rs x a ↔ CoversAt rs x none a := by
  refine exists_congr fun r => and_congr_right fun hr => and_congr_right fun _ => ?_
  exact (and_iff_right (h r hr)).symm

/-! ## Groups -/

def grouped (rs : References) : References := rs.foldl (fun gs r => addToGroup r gs) []

theorem map_target_addToGroup (r : Reference) (gs : References) :
    (addToGroup r gs).map Reference.target =
      if r.target ∈ gs.map Reference.target then gs.map Reference.target
      else gs.map Reference.target ++ [r.target] := by
  induction gs with
  | nil => rfl
  | cons g rest ih =>
      rw [addToGroup]
      by_cases h : g.sameTarget r = true
      · have htarget := Reference.sameTarget_iff.mp h
        rw [if_pos h, if_pos (by simp [htarget])]
        rfl
      · have htarget : r.target ≠ g.target := fun heq => h (Reference.sameTarget_iff.mpr heq.symm)
        rw [if_neg h, List.map_cons, ih]
        simp only [List.map_cons, List.mem_cons, htarget, false_or]
        split <;> rfl

theorem nodup_addToGroup (r : Reference) (h : (gs.map Reference.target).Nodup) :
    ((addToGroup r gs).map Reference.target).Nodup := by
  rw [map_target_addToGroup]
  split
  · exact h
  · rename_i hnew
    rw [← List.concat_eq_append]
    exact (List.nodup_concat _ _).mpr ⟨hnew, h⟩

/-- A group after an addition stood there before, is the added reference, or has its ranges added. -/
theorem mem_addToGroup (hg : g ∈ addToGroup r gs) :
    g ∈ gs ∨ g = r ∨ ∃ old ∈ gs, g = { old with ranges := old.ranges ++ r.ranges } := by
  induction gs with
  | nil => exact Or.inr (Or.inl (List.mem_singleton.mp hg))
  | cons first rest ih =>
      rw [addToGroup] at hg
      split at hg
      · rcases List.mem_cons.mp hg with rfl | hg
        · exact Or.inr (Or.inr ⟨first, by simp, rfl⟩)
        · exact Or.inl (by simp [hg])
      · rcases List.mem_cons.mp hg with rfl | hg
        · exact Or.inl (by simp)
        · rcases ih hg with hold | hnew | ⟨old, hold, hjoined⟩
          · exact Or.inl (by simp [hold])
          · exact Or.inr (Or.inl hnew)
          · exact Or.inr (Or.inr ⟨old, by simp [hold], hjoined⟩)

theorem coversAt_addToGroup (r : Reference) (gs : References) :
    CoversAt (addToGroup r gs) x m a ↔ CoversAt (r :: gs) x m a := by
  induction gs with
  | nil => rfl
  | cons g rest ih =>
      rw [addToGroup]
      split
      · rename_i h
        obtain ⟨hsame, hmap⟩ := Reference.target_eq_iff.mp (Reference.sameTarget_iff.mp h)
        have hiff : g.artifact.Same x ↔ r.artifact.Same x := ⟨hsame.symm.trans, hsame.trans⟩
        simp only [coversAt_cons, ByteRanges.covers_append, hiff, hmap]
        tauto
      · rw [coversAt_cons, ih, coversAt_cons, coversAt_cons, coversAt_cons]
        tauto

theorem nodup_grouped (rs : References) : ((grouped rs).map Reference.target).Nodup :=
  List.foldlRecOn (motive := fun gs : References => (gs.map Reference.target).Nodup) rs _ List.nodup_nil
    fun _ h r _ => nodup_addToGroup r h

theorem coversAt_grouped (rs : References) : CoversAt (grouped rs) x m a ↔ CoversAt rs x m a := by
  have hfold : ∀ gs : References,
      CoversAt (rs.foldl (fun gs r => addToGroup r gs) gs) x m a ↔ CoversAt gs x m a ∨ CoversAt rs x m a := by
    induction rs with
    | nil => simp [CoversAt]
    | cons r rest ih =>
        intro gs
        rw [List.foldl_cons, ih, coversAt_addToGroup, coversAt_cons, coversAt_cons]
        tauto
  have hgroups := hfold []
  rw [or_iff_right (by simp [CoversAt])] at hgroups
  exact hgroups

theorem unmapped_grouped (h : ∀ r ∈ rs, r.map = none) : ∀ g ∈ grouped rs, g.map = none := by
  refine List.foldlRecOn (motive := fun gs : References => ∀ g ∈ gs, g.map = none) rs _ (by simp) ?_
  intro gs hgs r hr g hg
  obtain hold | rfl | ⟨old, hold, rfl⟩ := mem_addToGroup hg
  · exact hgs g hold
  · exact h g hr
  · exact hgs old hold

theorem sized_grouped (h : ∀ r ∈ rs, ByteRanges.Sized r.ranges) :
    ∀ g ∈ grouped rs, ByteRanges.Sized g.ranges := by
  refine List.foldlRecOn (motive := fun gs : References => ∀ g ∈ gs, ByteRanges.Sized g.ranges) rs _
    (by simp) ?_
  intro gs hgs r hr g hg
  obtain hold | rfl | ⟨old, hold, rfl⟩ := mem_addToGroup hg
  · exact hgs g hold
  · exact h g hr
  · intro p hp
    exact (List.mem_append.mp hp).elim (hgs old hold p) (h r hr p)

/-! ## Merged references -/

/-- References to different targets, each with ranges that cover something. -/
structure Merged (rs : References) : Prop where
  unmapped : ∀ r ∈ rs, r.map = none
  positive : ∀ r ∈ rs, ByteRanges.Positive r.ranges
  distinct : ∀ r ∈ rs, ∀ s ∈ rs, r.target = s.target → r = s

theorem Merged.offsets (h : Merged rs) : Offsets rs where
  unmapped := h.unmapped
  sized r hr := (h.positive r hr).sized

theorem mem_merge : r ∈ merge rs ↔
    ∃ g ∈ grouped rs, g.ranges.normalize ≠ [] ∧ r = { g with ranges := g.ranges.normalize } := by
  have hmerge : merge rs = ((grouped rs).mergeSort Reference.precedes).filterMap fun g =>
      g.withRanges? g.ranges.normalize := rfl
  rw [hmerge, List.mem_filterMap]
  simp only [List.mem_mergeSort, Reference.withRanges?_eq_some_iff]

/-- Merged references with one target are one. -/
theorem eq_of_mem_merge {s : Reference} (hr : r ∈ merge rs) (hs : s ∈ merge rs)
    (htarget : r.target = s.target) : r = s := by
  obtain ⟨g, hg, -, rfl⟩ := mem_merge.mp hr
  obtain ⟨g', hg', -, rfl⟩ := mem_merge.mp hs
  have hsame : g = g' := List.inj_on_of_nodup_map (nodup_grouped rs) hg hg' htarget
  rw [hsame]

theorem normal_of_mem_merge (h : ∀ r ∈ rs, ByteRanges.Sized r.ranges) (hr : r ∈ merge rs) :
    ByteRanges.Normal r.ranges := by
  obtain ⟨g, hg, -, rfl⟩ := mem_merge.mp hr
  exact ByteRanges.normal_normalize (sized_grouped h g hg)

theorem unmapped_merge (h : ∀ r ∈ rs, r.map = none) : ∀ r ∈ merge rs, r.map = none := by
  intro r hr
  obtain ⟨g, hg, -, rfl⟩ := mem_merge.mp hr
  exact unmapped_grouped h g hg

/-- Merging keeps the addresses, whatever the lengths. -/
theorem coversAt_merge (rs : References) : CoversAt (merge rs) x m a ↔ CoversAt rs x m a := by
  rw [← coversAt_grouped rs]
  constructor
  · rintro ⟨r, hr, hsame, hmap, ha⟩
    obtain ⟨g, hg, -, rfl⟩ := mem_merge.mp hr
    exact ⟨g, hg, hsame, hmap, ByteRanges.covers_normalize_iff.mp ha⟩
  · rintro ⟨g, hg, hsame, hmap, ha⟩
    have hcovered := ByteRanges.covers_normalize_iff.mpr ha
    refine ⟨_, mem_merge.mpr ⟨g, hg, fun hnil => ?_, rfl⟩, hsame, hmap, hcovered⟩
    rw [hnil] at hcovered
    exact ByteRanges.covers_nil a hcovered

theorem covers_of_mem_merge (hr : r ∈ merge rs) :
    ByteRanges.Covers r.ranges a ↔ CoversAt rs r.artifact r.map a := by
  rw [← coversAt_merge rs]
  constructor
  · exact fun ha => ⟨r, hr, ⟨rfl, rfl⟩, rfl, ha⟩
  · rintro ⟨p, hp, hsame, hmap, ha⟩
    obtain rfl := eq_of_mem_merge hp hr (Reference.target_eq_iff.mpr ⟨hsame, hmap⟩)
    exact ha

theorem merge_spec (h : Offsets rs) : Merged (merge rs) ∧ ∀ x a, Covers (merge rs) x a ↔ Covers rs x a := by
  have hunmapped := unmapped_merge h.unmapped
  refine ⟨⟨hunmapped, ?_, fun r hr s hs => eq_of_mem_merge hr hs⟩, fun x a => ?_⟩
  · exact fun r hr => (normal_of_mem_merge h.sized hr).positive
  · rw [covers_iff_of_unmapped hunmapped, covers_iff_of_unmapped h.unmapped, coversAt_merge]

/-! ## Excluded references -/

/-- What is left of the ranges of a reference outside merged references. -/
def leftOf (merged : References) (r : Reference) : ByteRanges :=
  match merged.find? (·.sameTarget r) with
  | none => r.ranges
  | some o => ByteRanges.exclude r.ranges o.ranges

theorem positive_leftOf (h : ByteRanges.Positive r.ranges) (merged : References) :
    ByteRanges.Positive (leftOf merged r) := by
  unfold leftOf
  split
  · exact h
  · exact h.exclude _

theorem covers_leftOf (others : References) (r : Reference) : ByteRanges.Covers (leftOf (merge others) r) a ↔
    ByteRanges.Covers r.ranges a ∧ ¬ CoversAt others r.artifact r.map a := by
  unfold leftOf
  split
  · rename_i hnone
    rw [← coversAt_merge others]
    refine (and_iff_left ?_).symm
    rintro ⟨o, ho, hsame, hmap, -⟩
    have htarget := Reference.target_eq_iff.mpr ⟨hsame, hmap⟩
    exact List.find?_eq_none.mp hnone o ho (Reference.sameTarget_iff.mpr htarget)
  · rename_i o hfound
    have hfits := List.find?_some hfound
    obtain ⟨hsame, hmap⟩ := Reference.target_eq_iff.mp (Reference.sameTarget_iff.mp hfits)
    rw [ByteRanges.covers_exclude, covers_of_mem_merge (List.mem_of_find?_eq_some hfound),
      coversAt_congr hsame hmap]

theorem exclude_eq (rs others : References) :
    exclude rs others = (merge rs).filterMap fun r => r.withRanges? (leftOf (merge others) r) := rfl

theorem mem_exclude {p : Reference} : p ∈ exclude rs others ↔ ∃ r ∈ merge rs,
    leftOf (merge others) r ≠ [] ∧ p = { r with ranges := leftOf (merge others) r } := by
  simp only [exclude_eq, List.mem_filterMap, Reference.withRanges?_eq_some_iff]

/-- Excluding references leaves, for each artifact and map, the addresses that they do not cover. -/
theorem coversAt_exclude (rs others : References) :
    CoversAt (exclude rs others) x m a ↔ CoversAt rs x m a ∧ ¬ CoversAt others x m a := by
  rw [← coversAt_merge rs]
  constructor
  · rintro ⟨p, hp, hsame, hmap, ha⟩
    obtain ⟨r, hr, -, rfl⟩ := mem_exclude.mp hp
    obtain ⟨hin, hout⟩ := (covers_leftOf others r).mp ha
    rw [coversAt_congr hsame hmap] at hout
    exact ⟨⟨r, hr, hsame, hmap, hin⟩, hout⟩
  · rintro ⟨⟨r, hr, hsame, hmap, hin⟩, hout⟩
    rw [← coversAt_congr hsame hmap] at hout
    have hleft := (covers_leftOf others r).mpr ⟨hin, hout⟩
    refine ⟨_, mem_exclude.mpr ⟨r, hr, fun hnil => ?_, rfl⟩, hsame, hmap, hleft⟩
    rw [hnil] at hleft
    exact ByteRanges.covers_nil a hleft

/-- Excluding references leaves the bytes that they do not cover. -/
theorem covers_exclude (h : Offsets rs) (h' : Offsets others) (x : Artifact) (a : Int) :
    Covers (exclude rs others) x a ↔ Covers rs x a ∧ ¬ Covers others x a := by
  have hunmapped : ∀ p ∈ exclude rs others, p.map = none := by
    intro p hp
    obtain ⟨r, hr, -, rfl⟩ := mem_exclude.mp hp
    exact unmapped_merge h.unmapped r hr
  rw [covers_iff_of_unmapped hunmapped, covers_iff_of_unmapped h.unmapped, covers_iff_of_unmapped h'.unmapped,
    coversAt_exclude]

theorem exclude_eq_nil_iff (h : Offsets rs) (h' : Offsets others) :
    exclude rs others = [] ↔ ∀ x a, Covers rs x a → Covers others x a := by
  constructor
  · intro hnil x a hin
    by_contra hout
    obtain ⟨p, hp, -⟩ := (covers_exclude h h' x a).mpr ⟨hin, hout⟩
    rw [hnil] at hp
    cases hp
  · intro hall
    rw [List.eq_nil_iff_forall_not_mem]
    intro p hp
    obtain ⟨r, hr, hne, rfl⟩ := mem_exclude.mp hp
    have hpositive := positive_leftOf ((merge_spec h).1.positive r hr) (merge others)
    apply hne
    rw [hpositive.eq_nil_iff]
    intro a ha
    obtain ⟨hin, hout⟩ := (covers_exclude h h' r.artifact a).mp ⟨_, hp, ⟨rfl, rfl⟩, ha⟩
    exact hout (hall r.artifact a hin)

end References
end MeasuredBoot
