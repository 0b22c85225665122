import MeasuredBoot.Proofs.Search.Register
import MeasuredBoot.Proofs.Search.Schedules

/-!
# The nearest accepted register value

What a search for a register value finds is said here in numbers, without the lists that it goes through: an accepted
value that lies below the recorded one by the fewest steps, around zero too; and if there is none within the countdown,
one that differs from the recorded value in the fewest bits, of these the one whose bits come first. With a check that
does not fail a search always has this answer and no other one, and the bits that have to be flipped are the same
however many workers look for them in whatever order.
-/
namespace MeasuredBoot.RegisterSearch
open Combination (differing flipAll)

def CountdownRejected (bounds : RegisterBounds) (accepts : Bytes → Bool) (recorded : Nat) : Prop :=
  ∀ d : Nat, (d : Int) < bounds.maxCountdown → accepts (bytes (recorded - d)) = false

def WithinFlips (bounds : RegisterBounds) (recorded v : Nat) : Prop :=
  v < 2 ^ 64 ∧ ((differing 64 recorded v).length : Int) ≤ bounds.maxFlips

/-- The accepted value nearest to the recorded one, in the countdown and then in the number and order of the bits in
which it differs; nothing if no value within the bounds is accepted. -/
inductive Nearest (bounds : RegisterBounds) (accepts : Bytes → Bool) (recorded : Nat) : Option Nat → Prop
  | counted (d : Nat) :
      (d : Int) < bounds.maxCountdown → accepts (bytes (recorded - d)) = true →
      (∀ e < d, accepts (bytes (recorded - e)) = false) →
      Nearest bounds accepts recorded (some (wrapped (recorded - d)))
  | flipped (v : Nat) :
      CountdownRejected bounds accepts recorded → bounds.combinatorial = true →
      WithinFlips bounds recorded v → accepts (bytes v) = true →
      (∀ w, WithinFlips bounds recorded w → accepts (bytes w) = true →
        v = w ∨ Combination.Before (differing 64 recorded v) (differing 64 recorded w)) →
      Nearest bounds accepts recorded (some v)
  | nothing :
      CountdownRejected bounds accepts recorded →
      (bounds.combinatorial = true → ∀ v, WithinFlips bounds recorded v → accepts (bytes v) = false) →
      Nearest bounds accepts recorded none

section
variable {bounds : RegisterBounds} {accepts : Bytes → Bool} {recorded v w : Nat}

theorem admissible_iff : Admissible bounds recorded v ↔
    (∃ d : Nat, (d : Int) < bounds.maxCountdown ∧ v = wrapped (recorded - d)) ∨
      bounds.combinatorial = true ∧ WithinFlips bounds recorded v := by
  rw [Admissible, WithinFlips, and_or_left, and_left_comm]
  refine or_congr_left ⟨?_, ?_⟩
  · rintro ⟨hv, hlt⟩
    exact ⟨countdown recorded v, hlt, (wrapped_sub_countdown hv).symm⟩
  · rintro ⟨d, hd, rfl⟩
    have hmod := Nat.mod_le d (2 ^ 64)
    refine ⟨wrapped_lt _, ?_⟩
    rw [countdown_wrapped]
    omega

/-! ## There is at most one nearest value -/

theorem CountdownRejected.not_counted (h : CountdownRejected bounds accepts recorded) {d : Nat}
    (hd : (d : Int) < bounds.maxCountdown) : ¬ accepts (bytes (recorded - d)) = true :=
  Bool.eq_false_iff.mp (h d hd)

theorem eq_of_least {d e : Nat} (hd : accepts (bytes (recorded - d)) = true)
    (hfirst : ∀ k < d, accepts (bytes (recorded - k)) = false) (he : accepts (bytes (recorded - e)) = true)
    (hfirst' : ∀ k < e, accepts (bytes (recorded - k)) = false) : d = e := by
  rcases Nat.lt_trichotomy d e with hlt | heq | hlt
  · exact absurd hd (Bool.eq_false_iff.mp (hfirst' d hlt))
  · exact heq
  · exact absurd he (Bool.eq_false_iff.mp (hfirst e hlt))

theorem Nearest.unique {found other : Option Nat} (h : Nearest bounds accepts recorded found)
    (h' : Nearest bounds accepts recorded other) : found = other := by
  cases h with
  | counted d hd haccepts hfirst =>
      cases h' with
      | counted e _ haccepts' hfirst' => rw [eq_of_least haccepts hfirst haccepts' hfirst']
      | flipped _ hrejected => exact absurd haccepts (hrejected.not_counted hd)
      | nothing hrejected => exact absurd haccepts (hrejected.not_counted hd)
  | flipped v hrejected hflips hv haccepts hleast =>
      cases h' with
      | counted e he haccepts' => exact absurd haccepts' (hrejected.not_counted he)
      | flipped w _ _ hw haccepts' hleast' =>
          rcases hleast w hw haccepts' with heq | hbefore
          · rw [heq]
          · rcases hleast' v hv haccepts with heq | hafter
            · rw [heq]
            · exact absurd hafter hbefore.asymm
      | nothing _ hnone => exact absurd haccepts (Bool.eq_false_iff.mp (hnone hflips v hv))
  | nothing hrejected hnone =>
      cases h' with
      | counted e he haccepts' => exact absurd haccepts' (hrejected.not_counted he)
      | flipped w _ hflips hw haccepts' =>
          exact absurd haccepts' (Bool.eq_false_iff.mp (hnone hflips w hw))
      | nothing => rfl

theorem Nearest.accepted (h : Nearest bounds accepts recorded (some v)) : accepts (bytes v) = true := by
  cases h with
  | counted d _ haccepts => rwa [bytes_wrapped]
  | flipped _ _ _ _ haccepts => exact haccepts

/-- Nothing is nearest exactly if no value within the bounds is accepted. -/
theorem nearest_none_iff : Nearest bounds accepts recorded none ↔
    ∀ v, Admissible bounds recorded v → accepts (bytes v) = false := by
  constructor
  · rintro ⟨⟩ v hv
    rename_i hrejected hnone
    rcases admissible_iff.mp hv with ⟨d, hd, rfl⟩ | ⟨hflips, hwithin⟩
    · rw [bytes_wrapped]
      exact hrejected d hd
    · exact hnone hflips v hwithin
  · intro h
    refine .nothing (fun d hd => ?_) fun hflips v hv => h v (admissible_iff.mpr (.inr ⟨hflips, hv⟩))
    have hcounted := h _ (admissible_iff.mpr (.inl ⟨d, hd, rfl⟩))
    rwa [bytes_wrapped] at hcounted

/-! ## The search finds it -/

theorem nearest_of_counted (h : (counted recorded bounds.maxCountdown).find? (fun v : Nat => accepts (bytes v)) =
    some v) : Nearest bounds accepts recorded (some v) := by
  rw [counted, List.find?_map] at h
  obtain ⟨d, hd, rfl⟩ := Option.map_eq_some_iff.mp h
  obtain ⟨haccepts, hmem, hfirst⟩ := List.find?_range_eq_some.mp hd
  have hlt := List.mem_range.mp hmem
  refine .counted d (by omega) ?_ fun e he => ?_
  · simpa using haccepts
  · simpa using hfirst e he

theorem countdownRejected_of_none
    (h : (counted recorded bounds.maxCountdown).find? (fun v : Nat => accepts (bytes v)) = none) :
    CountdownRejected bounds accepts recorded := by
  intro d hd
  have hmem : wrapped (recorded - d) ∈ counted recorded bounds.maxCountdown :=
    List.mem_map.mpr ⟨d, List.mem_range.mpr (by omega), rfl⟩
  have hrejects := List.find?_eq_none.mp h _ hmem
  simpa using hrejects

theorem nearest_find?_values {initial : Bytes} (h8 : initial.length = 8) (hflips : 0 ≤ bounds.maxFlips) :
    Nearest bounds accepts initial.toNatLE
      ((values initial bounds).find? fun v : Nat => accepts (bytes v)) := by
  rw [values, List.find?_append]
  cases hcounted : (counted initial.toNatLE bounds.maxCountdown).find? fun v : Nat => accepts (bytes v) with
  | some v => exact nearest_of_counted hcounted
  | none =>
      -- Flips are tried only behind a countdown that accepts nothing.
      have hrejected := countdownRejected_of_none hcounted
      rw [Option.none_or]
      cases hc : bounds.combinatorial with
      | false =>
          refine .nothing hrejected fun htrue => ?_
          rw [hc] at htrue
          cases htrue
      | true =>
          rw [if_pos rfl]
          cases hflipped : (flipped initial bounds.maxFlips).find? fun v : Nat => accepts (bytes v) with
          | none =>
              refine .nothing hrejected fun _ v hv => ?_
              have hrejects := List.find?_eq_none.mp hflipped v ((mem_flipped h8 hflips).mpr hv)
              simpa using hrejects
          | some v =>
              obtain ⟨hmem, haccepts, hleast⟩ := exists_least_of_find? (pairwise_flipped h8 _) hflipped
              refine .flipped v hrejected hc ((mem_flipped h8 hflips).mp hmem) haccepts fun w hw haccepts' => ?_
              exact hleast w ((mem_flipped h8 hflips).mpr hw) haccepts'

end

/-! ## Workers -/

/-- The search for the bits that have to be flipped, shared by a number of workers. -/
def sharedQuery (initial : Bytes) (limit : Int) (check : Bytes → Except Fault Bool) (workers : Int) :
    BitFlips.Query :=
  { flipQuery initial limit check with workers := workers }

/-- All schedules of all numbers of workers come to the bits to which one worker comes. -/
theorem shared_answered {check : Bytes → Except Fault Bool} {accepts : Bytes → Bool}
    (hcheck : ∀ b, check b = .ok (accepts b)) {initial : Bytes} (h8 : initial.length = 8) {limit : Int}
    (hlimit : 0 ≤ limit) (workers : Int) {s : BitFlips.Session}
    (hs : Relation.ReflTransGen (BitFlips.Session.Step (sharedQuery initial limit check workers))
      (BitFlips.Session.start (sharedQuery initial limit check workers)) s) :
    (∃ s', BitFlips.Session.Step (sharedQuery initial limit check workers) s s') ∨
      s = .answered (BitFlips.run (flipQuery initial limit check)).outcome := by
  have hlt (d : Nat) : (8 * initial.length).choose d < BitFlips.combinationLimit := by
    rw [h8]
    exact choose_lt_combinationLimit d
  have hone : BitFlips.obstacle? (flipQuery initial limit check) = none := by
    simp [BitFlips.obstacle?, h8, hlimit]
  have hshared : BitFlips.obstacle? (sharedQuery initial limit check workers) = none := hone
  have hcountable : BitFlips.Session.Countable (sharedQuery initial limit check workers) accepts :=
    fun d _ _ _ => hlt d
  have hagrees := (BitFlips.Session.agrees_start hshared hcountable hcheck).run hcountable hcheck hs
  rcases s.answered_or_exists_step (sharedQuery initial limit check workers) with ⟨o, rfl⟩ | hstep
  · right
    rw [BitFlips.run_outcome_of_total hone hlt hcheck]
    cases hagrees with
    | answered => rfl
  · exact .inl hstep

/-- A search for a register value of eight bytes, with a check that does not fail and no negative bound on the flipped
bits, always ends with the nearest accepted value and with nothing else: with nothing exactly if no value within the
bounds is accepted, and with a value whose bytes the check accepts. The bits that the search flips are those to which
any number of workers comes under every schedule, and no schedule is endless. -/
theorem run_finds_nearest {check : Bytes → Except Fault Bool} {accepts : Bytes → Bool}
    (hcheck : ∀ b, check b = .ok (accepts b)) {initial : Bytes} (h8 : initial.length = 8) {bounds : RegisterBounds}
    (hflips : 0 ≤ bounds.maxFlips) :
    (∃ found, (run initial check bounds).outcome = .ok found) ∧
      (∀ found, (run initial check bounds).outcome = .ok found ↔
        Nearest bounds accepts initial.toNatLE found) ∧
      ((run initial check bounds).outcome = .ok none ↔
        ∀ v, Admissible bounds initial.toNatLE v → accepts (bytes v) = false) ∧
      (∀ v : Nat, (run initial check bounds).outcome = .ok (some v) → accepts (bytes v) = true) ∧
      ∀ workers : Int,
        (WellFounded fun s' s =>
          BitFlips.Session.Step (sharedQuery initial bounds.maxFlips check workers) s s') ∧
        ∀ s, Relation.ReflTransGen (BitFlips.Session.Step (sharedQuery initial bounds.maxFlips check workers))
            (BitFlips.Session.start (sharedQuery initial bounds.maxFlips check workers)) s →
          (∃ s', BitFlips.Session.Step (sharedQuery initial bounds.maxFlips check workers) s s') ∨
            s = .answered (BitFlips.run (flipQuery initial bounds.maxFlips check)).outcome := by
  have hrun : (run initial check bounds).outcome =
      .ok ((values initial bounds).find? fun v : Nat => accepts (bytes v)) := run_outcome hcheck h8 fun _ => hflips
  have hnearest : Nearest bounds accepts initial.toNatLE
      ((values initial bounds).find? fun v : Nat => accepts (bytes v)) := nearest_find?_values h8 hflips
  have hiff : ∀ found, (run initial check bounds).outcome = .ok found ↔
      Nearest bounds accepts initial.toNatLE found := by
    intro found
    rw [hrun, Except.ok.injEq]
    constructor
    · rintro rfl
      exact hnearest
    · exact hnearest.unique
  refine ⟨⟨_, hrun⟩, hiff, (hiff none).trans nearest_none_iff, fun v hv => ((hiff _).mp hv).accepted, ?_⟩
  intro workers
  exact ⟨BitFlips.Session.wellFounded_step _, fun s hs => shared_answered hcheck h8 hflips workers hs⟩

def sampleRegister : Bytes := [3, 0, 0, 0, 0, 0, 0, 0]

def sampleBounds : RegisterBounds := { combinatorial := true, maxFlips := 2, maxCountdown := 8 }

/-- The fifth value below three is found by the countdown, around zero. A value with the second and the last bit of
three flipped lies beyond the countdown and is found among the flips. -/
theorem run_finds_nearest_sample : sampleRegister.length = 8 ∧ 0 ≤ sampleBounds.maxFlips ∧
    (run sampleRegister (fun b => .ok (b == bytes (-2))) sampleBounds).outcome = .ok (some (2 ^ 64 - 2)) ∧
    (run sampleRegister (fun b => .ok (b == bytes (2 ^ 63 + 1))) sampleBounds).outcome =
      .ok (some (2 ^ 63 + 1)) := by
  have h8 : sampleRegister.length = 8 := rfl
  have hflips : 0 ≤ sampleBounds.maxFlips := by decide
  have hfound (target : Bytes) : ∀ found,
      (run sampleRegister (fun b => .ok (b == target)) sampleBounds).outcome = .ok found ↔
        Nearest sampleBounds (fun b => b == target) sampleRegister.toNatLE found :=
    (run_finds_nearest (fun b => rfl) h8 hflips).2.1
  refine ⟨h8, hflips, (hfound _ _).mpr (.counted 5 (by decide) (by decide) (by decide)), (hfound _ _).mpr ?_⟩
  have hrejected : ∀ d < 8, (bytes (3 - (d : Nat)) == bytes (2 ^ 63 + 1)) = false := by decide
  refine .flipped _ (fun d hd => hrejected d (Int.ofNat_lt.mp hd)) rfl ⟨by decide, by decide⟩ (by decide)
    fun w hw hw' => ?_
  have hvalue := congrArg Bytes.toNatLE (eq_of_beq hw')
  rw [bytes, bytes, wrapped_of_lt hw.1, Bytes.toNatLE_ofNatLE_of_lt hw.1] at hvalue
  left
  rw [hvalue]
  decide

end MeasuredBoot.RegisterSearch
