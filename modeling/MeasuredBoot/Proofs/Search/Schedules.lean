import Mathlib.Data.Prod.Lex
import Mathlib.Logic.Relation
import MeasuredBoot.Proofs.Search.Workers

/-!
# Every schedule finds the same

A session searches distance after distance. At each one a pool of workers runs until all have ended, in
any order of their steps; only then are the findings read, the lowest chunk first. No session goes on for
ever and none is stuck before it has an answer, and for a check that does not fail all of them have the
same one, that of the search that tries one chunk after another: the bits in which the nearest accepted
byte string differs from the initial one, or nothing if none is accepted within the distances asked for.
-/
namespace MeasuredBoot.BitFlips
open Combination (combinations flipAll)

/-- A search at some distance, with others left for later, or its answer. -/
inductive Session where
  | trying (later distance : Nat) (p : Pool)
  | answered (outcome : Except Fault (Option Combination))

namespace Session

/-- Goes on with `count` distances from one on. -/
def atDistance (q : Query) (n : Nat) : (count distance : Nat) → Session
  | 0, _ => .answered (.ok none)
  | later + 1, distance =>
    if combinationLimit ≤ Combination.binomial n distance then
      .answered (.error (.search .tooManyCombinations))
    else .trying later distance (Pool.start q n distance)

/-- Reads the findings of the workers of a distance. -/
def conclude (q : Query) (n later distance : Nat) (rs : List Finding) : Session :=
  if (rs.filterMap Finding.fault?).isEmpty then
    match rs.findSome? Finding.combination? with
    | some c => .answered (.ok (some c))
    | none => atDistance q n later (distance + 1)
  else
    .answered (.error (.search (.workers
      (Text.bracketed ((rs.filterMap Finding.fault?).map Fault.text)))))

def start (q : Query) : Session :=
  match obstacle? q with
  | some f => .answered (.error f)
  | none =>
    let n := 8 * q.initial.length
    let first := max q.lowest.toNat 1
    let later := atDistance q n (min q.highest.toNat n + 1 - first) first
    if q.lowest = 0 then
      match q.check q.initial with
      | .error f => .answered (.error f)
      | .ok true => .answered (.ok (some []))
      | .ok false => later
    else later

/-- A worker takes a step, or all have ended and their findings are read. -/
inductive Step (q : Query) : Session → Session → Prop
  | work {later distance : Nat} {p p' : Pool} :
      Pool.Step q (8 * q.initial.length) p p' →
      Step q (.trying later distance p) (.trying later distance p')
  | conclude {later distance : Nat} {p : Pool} {rs : List Finding} :
      p.Ended rs →
      Step q (.trying later distance p) (conclude q (8 * q.initial.length) later distance rs)

/-! ## No schedule is endless or stuck -/

/-- The distances and then the steps of workers that a session has left, at most. -/
def remaining : Session → Nat ×ₗ Nat
  | .trying later _ p => toLex (later + 1, p.remaining)
  | .answered _ => toLex (0, 0)

theorem remaining_atDistance_lt (q : Query) (n count distance m : Nat) :
    (atDistance q n count distance).remaining < toLex (count + 1, m) := by
  cases count with
  | zero => exact Prod.Lex.toLex_lt_toLex.mpr (.inl Nat.one_pos)
  | succ later =>
      rw [atDistance]
      split
      · exact Prod.Lex.toLex_lt_toLex.mpr (.inl (Nat.succ_pos _))
      · exact Prod.Lex.toLex_lt_toLex.mpr (.inl (Nat.lt_succ_self _))

theorem Step.remaining_lt {q : Query} {s s' : Session} (h : Step q s s') :
    s'.remaining < s.remaining := by
  cases h with
  | work hstep => exact Prod.Lex.toLex_lt_toLex.mpr (.inr ⟨rfl, hstep.remaining_lt⟩)
  | conclude _ =>
      rw [Session.conclude]
      split
      · split
        · exact Prod.Lex.toLex_lt_toLex.mpr (.inl (Nat.succ_pos _))
        · exact remaining_atDistance_lt q _ _ _ _
      · exact Prod.Lex.toLex_lt_toLex.mpr (.inl (Nat.succ_pos _))

theorem wellFounded_step (q : Query) : WellFounded fun s' s => Step q s s' :=
  Subrelation.wf (fun h => Step.remaining_lt h) (InvImage.wf remaining wellFounded_lt)

theorem answered_or_exists_step (q : Query) (s : Session) :
    (∃ o, s = .answered o) ∨ ∃ s', Step q s s' := by
  cases s with
  | answered o => exact .inl ⟨o, rfl⟩
  | trying later distance p =>
      rcases p.ended_or_exists_step q (8 * q.initial.length) with ⟨rs, hended⟩ | ⟨p', hstep⟩
      · exact .inr ⟨_, .conclude hended⟩
      · exact .inr ⟨_, .work hstep⟩

/-! ## What every schedule answers -/

section Total
variable {q : Query} {accepts : Bytes → Bool}

/-- Either the distance is one that the search comes to and its workers agree with the combinations
there, or the answer is the first accepted candidate. -/
inductive Agrees (q : Query) (accepts : Bytes → Bool) : Session → Prop
  | trying {later distance : Nat} {p : Pool} :
      Pending q accepts (later + 1) distance →
      p.workers.length = (Pool.start q (8 * q.initial.length) distance).workers.length →
      p.Agrees q accepts (8 * q.initial.length) (Pool.firsts q accepts (8 * q.initial.length) distance) →
      Agrees q accepts (.trying later distance p)
  | answered : Agrees q accepts
      (.answered (.ok ((candidates q).find? fun c => accepts (flipAll q.initial c))))

/-- No distance that the search comes to has too many combinations. -/
def Countable (q : Query) (accepts : Bytes → Bool) : Prop :=
  ∀ d, q.lowest.toNat ≤ d → d ≤ q.highest.toNat →
    (∀ c ∈ candidates q, c.length < d → accepts (flipAll q.initial c) = false) →
      (8 * q.initial.length).choose d < combinationLimit

theorem agrees_atDistance (hlimit : Countable q accepts) {count distance : Nat}
    (h : Pending q accepts count distance) :
    Agrees q accepts (atDistance q (8 * q.initial.length) count distance) := by
  cases count with
  | zero =>
      rw [atDistance, ← h.answer_of_zero]
      exact .answered
  | succ later =>
      have hhigh := h.highest
      have hfits := h.fits
      have hlt := hlimit distance h.lowest (by omega) h.passed
      rw [atDistance, Combination.binomial_eq_choose, if_neg (Nat.not_le.mpr hlt)]
      exact .trying h rfl (Pool.agrees_start q accepts _ _ (by omega))

theorem agrees_conclude (hlimit : Countable q accepts) {later distance : Nat} {p : Pool}
    {rs : List Finding} (h : Agrees q accepts (.trying later distance p)) (hended : p.Ended rs) :
    Agrees q accepts (conclude q (8 * q.initial.length) later distance rs) := by
  cases h with
  | trying hpending hlen hagrees =>
      have hfound : rs.findSome? Finding.combination? =
          (combinations distance (8 * q.initial.length)).find? fun c =>
            accepts (flipAll q.initial c) := by
        rw [hagrees.findSome?_eq hended, hlen, Pool.findSome?_firsts]
      rw [conclude, hagrees.faults_eq_nil hended, if_pos List.isEmpty_nil, hfound]
      cases hfirst : (combinations distance (8 * q.initial.length)).find? fun c =>
          accepts (flipAll q.initial c) with
      | some c =>
          show Agrees q accepts (.answered (.ok (some c)))
          rw [← hpending.answer_of_find? hfirst]
          exact .answered
      | none => exact agrees_atDistance hlimit (hpending.next hfirst)

theorem agrees_start (hq : obstacle? q = none) (hlimit : Countable q accepts)
    (hcheck : ∀ b, q.check b = .ok (accepts b)) : Agrees q accepts (start q) := by
  rw [start, hq]
  by_cases h0 : q.lowest = 0
  · simp only [h0, if_true, hcheck]
    cases haccepts : accepts q.initial with
    | true =>
        have hfirst : ((candidates q).find? fun c => accepts (flipAll q.initial c)) = some [] := by
          have hinitial : accepts (flipAll q.initial []) = true := haccepts
          rw [candidates_of_zero h0, List.find?_cons, hinitial]
        rw [← hfirst]
        exact .answered
    | false =>
        have hpending := pending_first hq fun _ => haccepts
        rw [h0] at hpending
        exact agrees_atDistance hlimit hpending
  · simp only [h0, if_false]
    exact agrees_atDistance hlimit (pending_first hq fun hzero => absurd hzero h0)

theorem Agrees.step (hlimit : Countable q accepts) (hcheck : ∀ b, q.check b = .ok (accepts b))
    {s s' : Session} (h : Agrees q accepts s) (hstep : Step q s s') : Agrees q accepts s' := by
  cases hstep with
  | work hwork =>
      cases h with
      | trying hpending hlen hagrees =>
          exact .trying hpending (hwork.length_eq.trans hlen) (hagrees.step hcheck hwork)
  | conclude hended => exact agrees_conclude hlimit h hended

theorem Agrees.run (hlimit : Countable q accepts) (hcheck : ∀ b, q.check b = .ok (accepts b))
    {s s' : Session} (h : Agrees q accepts s) (hsteps : Relation.ReflTransGen (Step q) s s') :
    Agrees q accepts s' := by
  induction hsteps with
  | refl => exact h
  | tail _ hstep ih => exact ih.step hlimit hcheck hstep

end Total

end Session

/-! ## Byte strings and the bits in which they differ -/

/-- The bits in which a byte string differs from the initial one, in increasing order. -/
def Query.flips (q : Query) (b : Bytes) : Combination :=
  Combination.differing (8 * q.initial.length) q.initial.toNatLE b.toNatLE

/-- A query asks about a byte string of the length of the initial one if it differs from that in a number
of bits between the lowest distance and the highest one. -/
structure Query.AsksAbout (q : Query) (b : Bytes) : Prop where
  length_eq : b.length = q.initial.length
  lowest_le : q.lowest ≤ (q.flips b).length
  le_highest : (q.flips b).length ≤ min q.highest (8 * q.initial.length : Nat)

theorem flipAll_flips {q : Query} {b : Bytes} (h : b.length = q.initial.length) :
    flipAll q.initial (q.flips b) = b := by
  have hlt : b.toNatLE < 256 ^ q.initial.length := h ▸ Bytes.toNatLE_lt b
  have hflip := Combination.toNatLE_flipAll_differing hlt
  have hlen : (flipAll q.initial (q.flips b)).length = b.length := by
    rw [Combination.length_flipAll, h]
  calc flipAll q.initial (q.flips b)
      = Bytes.ofNatLE b.length (flipAll q.initial (q.flips b)).toNatLE := by
        rw [← hlen, Bytes.ofNatLE_toNatLE]
    _ = b := by rw [Query.flips, hflip, Bytes.ofNatLE_toNatLE]

theorem flips_flipAll {q : Query} {c : Combination} (h : c ∈ candidates q) :
    q.flips (flipAll q.initial c) = c := by
  obtain ⟨_, _, hs, hmem⟩ := mem_candidates.mp h
  exact Combination.differing_flipAll hs hmem

theorem Query.AsksAbout.mem_candidates {q : Query} {b : Bytes} (h : q.AsksAbout b) :
    q.flips b ∈ candidates q := by
  have hlow := h.lowest_le
  have hhigh := h.le_highest
  have hs := Combination.pairwise_differing (8 * q.initial.length) q.initial.toNatLE b.toNatLE
  refine BitFlips.mem_candidates.mpr ⟨by omega, by omega, hs, fun i hi => ?_⟩
  exact (Combination.mem_differing.mp hi).1

theorem asksAbout_flipAll {q : Query} {c : Combination} (hlow : 0 ≤ q.lowest)
    (hhigh : q.lowest ≤ q.highest) (h : c ∈ candidates q) : q.AsksAbout (flipAll q.initial c) := by
  obtain ⟨hmin, hmax, hs, hmem⟩ := mem_candidates.mp h
  have hle := Combination.length_le_of_forall_lt hs hmem
  refine ⟨Combination.length_flipAll q.initial c, ?_, ?_⟩
  · rw [flips_flipAll h]
    omega
  · rw [flips_flipAll h]
    omega

theorem obstacle?_eq_none {q : Query} (hlow : 0 ≤ q.lowest) (hhigh : q.lowest ≤ q.highest)
    (hbits : q.lowest ≤ (8 * q.initial.length : Nat))
    (hitems : 0 < q.itemWidth ∧ (8 * q.initial.length : Nat) % q.itemWidth = 0) :
    obstacle? q = none := by
  have hwidth : ¬ (q.itemWidth ≤ 0 ∨ ((8 * q.initial.length : Nat) : Int) % q.itemWidth ≠ 0) := by
    intro hbad
    rcases hbad with hle | hne
    · omega
    · exact hne hitems.2
  simp only [obstacle?, if_neg (Int.not_lt.mpr hhigh), if_neg hwidth]
  rw [if_neg (by omega)]

section Nearest
variable {q : Query} {accepts : Bytes → Bool}

theorem find?_candidates_eq_none (hlow : 0 ≤ q.lowest) (hhigh : q.lowest ≤ q.highest) :
    ((candidates q).find? fun c => accepts (flipAll q.initial c)) = none ↔
      ∀ b, q.AsksAbout b → accepts b = false := by
  rw [List.find?_eq_none]
  constructor
  · intro h b hb
    have hreject := h _ hb.mem_candidates
    rw [flipAll_flips hb.length_eq] at hreject
    simpa using hreject
  · intro h c hc
    have hreject := h _ (asksAbout_flipAll hlow hhigh hc)
    simp [hreject]

/-- The first accepted candidate leads to an accepted byte string that no other one comes before. -/
theorem exists_nearest_of_find? (hlow : 0 ≤ q.lowest) (hhigh : q.lowest ≤ q.highest) {c : Combination}
    (h : ((candidates q).find? fun c => accepts (flipAll q.initial c)) = some c) :
    ∃ b, q.AsksAbout b ∧ accepts b = true ∧ q.flips b = c ∧
      ∀ b', q.AsksAbout b' → accepts b' = true →
        b = b' ∨ Combination.Before (q.flips b) (q.flips b') := by
  obtain ⟨hc, haccepts, hleast⟩ := exists_least_of_find? (pairwise_candidates q) h
  have hflips := flips_flipAll hc
  refine ⟨flipAll q.initial c, asksAbout_flipAll hlow hhigh hc, haccepts, hflips, ?_⟩
  intro b' hb' haccepts'
  have hback := flipAll_flips hb'.length_eq
  have hleast := hleast _ hb'.mem_candidates (by rwa [hback])
  rw [hflips]
  rcases hleast with heq | hbefore
  · left
    rw [heq, hback]
  · exact .inr hbefore

end Nearest

/-- A search by any number of workers, whatever their schedule, comes to an end with the answer of the
search without a schedule. It is nothing if and only if no byte string within the distances asked for is
accepted, and else the bits in which an accepted one differs from the initial one: one of the smallest
distance, and of these the lexicographically first. -/
theorem every_schedule_finds_first (q : Query) (accepts : Bytes → Bool)
    (hcheck : ∀ b, q.check b = .ok (accepts b)) (hlow : 0 ≤ q.lowest) (hhigh : q.lowest ≤ q.highest)
    (hbits : q.lowest ≤ (8 * q.initial.length : Nat))
    (hitems : 0 < q.itemWidth ∧ (8 * q.initial.length : Nat) % q.itemWidth = 0)
    (hlimit : ∀ d : Nat, q.lowest ≤ d → d ≤ q.highest →
      (∀ b, q.AsksAbout b → (q.flips b).length < d → accepts b = false) →
        (8 * q.initial.length).choose d < combinationLimit) :
    (WellFounded fun s' s => Session.Step q s s') ∧
      ∀ s, Relation.ReflTransGen (Session.Step q) (Session.start q) s →
        (∃ s', Session.Step q s s') ∨
          ∃ o, s = .answered o ∧ o = (run q).outcome ∧
            (o = .ok none ↔ ∀ b, q.AsksAbout b → accepts b = false) ∧
            (o = .ok none ∨ ∃ b, q.AsksAbout b ∧ accepts b = true ∧ o = .ok (some (q.flips b)) ∧
              ∀ b', q.AsksAbout b' → accepts b' = true →
                b = b' ∨ Combination.Before (q.flips b) (q.flips b')) := by
  have hq := obstacle?_eq_none hlow hhigh hbits hitems
  have hcountable : Session.Countable q accepts := by
    intro d hmin hmax hrejected
    refine hlimit d (by omega) (by omega) fun b hb hshort => ?_
    have hreject := hrejected _ hb.mem_candidates hshort
    rwa [flipAll_flips hb.length_eq] at hreject
  have hagrees := Session.agrees_start hq hcountable hcheck
  refine ⟨Session.wellFounded_step q, fun s hs => ?_⟩
  rcases s.answered_or_exists_step q with ⟨o, rfl⟩ | hstep
  · right
    have hagrees := hagrees.run hcountable hcheck hs
    cases hagrees with
    | answered =>
        refine ⟨_, rfl, (run_outcome_of_reached hq hcountable hcheck).symm, ?_, ?_⟩
        · rw [Except.ok.injEq]
          exact find?_candidates_eq_none hlow hhigh
        · cases hfirst : (candidates q).find? fun c => accepts (flipAll q.initial c) with
          | none => exact .inl rfl
          | some c =>
              obtain ⟨b, hb, haccepts, hflips, hleast⟩ := exists_nearest_of_find? hlow hhigh hfirst
              refine .inr ⟨b, hb, haccepts, ?_, hleast⟩
              rw [hflips]
  · exact .inl hstep

/-- Thirty-two bytes, all of them zero but one. -/
def marked (i : Nat) (x : UInt8) : Bytes := (Bytes.zeros 32).set i x

/-- A search at a distance at which several workers share the combinations: one accepted byte string is found by the
second worker, the other one by the third. -/
def sampleQuery : Query where
  initial := Bytes.zeros 32
  lowest := 2
  highest := 2
  workers := 4
  check b := .ok (b == marked 12 0x30 || b == marked 31 0xC0)

/-- Three workers start, and whichever of them is the first to find something, the answer is that of the second. -/
theorem every_schedule_finds_first_sample :
    (Pool.start sampleQuery 256 2).workers.length = 3 ∧
      ∀ s, Relation.ReflTransGen (Session.Step sampleQuery) (Session.start sampleQuery) s →
        (∃ s', Session.Step sampleQuery s s') ∨
          s = .answered (.ok (some [100, 101])) ∧ (run sampleQuery).outcome = .ok (some [100, 101]) := by
  have hlimit : ∀ d : Nat, (2 : Int) ≤ d → (d : Int) ≤ 2 → Nat.choose 256 d < combinationLimit := by
    intro d hlow hhigh
    obtain rfl : d = 2 := by omega
    rw [Nat.choose_two_right]
    decide
  have hfirst := (every_schedule_finds_first sampleQuery
    (fun b => b == marked 12 0x30 || b == marked 31 0xC0) (fun _ => rfl) (by decide) (by decide) (by decide)
    (by decide) fun d hlow hhigh _ => hlimit d hlow hhigh).2
  have hnear : sampleQuery.flips (marked 12 0x30) = [100, 101] := by decide +kernel
  have hfar : sampleQuery.flips (marked 31 0xC0) = [254, 255] := by decide +kernel
  have hasks : sampleQuery.AsksAbout (marked 12 0x30) := ⟨rfl, by rw [hnear]; decide, by rw [hnear]; decide⟩
  refine ⟨rfl, fun s hs => ?_⟩
  rcases hfirst s hs with hstep | ⟨o, hs, ho, hnone, hfound⟩
  · exact .inl hstep
  · right
    have hsome : o ≠ .ok none := fun h => absurd (hnone.mp h _ hasks) (by decide)
    obtain ⟨b, -, haccepts, hb, hleast⟩ := hfound.resolve_left hsome
    have hanswer : b = marked 12 0x30 := by
      rcases hleast _ hasks (by decide) with heq | hbefore
      · exact heq
      · have heither : b = marked 12 0x30 ∨ b = marked 31 0xC0 := by simpa using haccepts
        refine heither.resolve_right fun hother => ?_
        rw [hother, hnear, hfar] at hbefore
        exact hbefore.asymm (.inr ⟨rfl, by decide⟩)
    rw [hanswer, hnear] at hb
    exact ⟨by rw [hs, hb], by rw [← ho, hb]⟩

end MeasuredBoot.BitFlips
