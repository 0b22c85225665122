import MeasuredBoot.Proofs.Action.Evidenced
import MeasuredBoot.Proofs.Tpm.Mirrored
import MeasuredBoot.Proofs.Tpm.Table

/-!
# A TPM and its callers

A caller gives a TPM commands, catches the faults of those that are refused, and resets it from time to time.
Whatever the calls are, the command log is the list of commands since the last reset, the event log is its
events, and the table of values is empty or complete, with each value the end of the chain over the digests
that were extended into its bank since the TPM was started.
-/
namespace MeasuredBoot.Tpm

/-- What a caller can do with a TPM: give it a command, reset it, or clear it and keep its algorithms. -/
inductive Call where
  | command (r : CommandRecord)
  | reset
  | clear

/-- The TPM after a call; the fault of a refused command is caught. -/
def call (t : Tpm) : Call → Tpm
  | .command r => after (execute r) t
  | .reset => t.reset
  | .clear => t.clear

def afterCalls (t : Tpm) (calls : List Call) : Tpm := calls.foldl call t

/-- The commands given since the last reset. -/
def sinceReset (calls : List Call) : List CommandRecord :=
  calls.foldl (fun rs c => match c with | .command r => rs ++ [r] | _ => []) []

/-- A start that the TPM accepted among some calls: the calls before it, its locality, and the commands after
it; no reset follows. -/
def AcceptedStart (algorithms : List Algorithm) (calls past : List Call) (locality : Int)
    (later : List CommandRecord) : Prop :=
  ∃ r u, r.command = .init locality ∧ calls = past ++ .command r :: later.map .command ∧
    execute r (afterCalls (fresh algorithms) past) = .ok () u

/-- What holds of a TPM after calls. -/
structure Faithful (algorithms : List Algorithm) (calls : List Call) (t : Tpm) : Prop where
  /-- The supported algorithms never change. -/
  algorithms_eq : t.algorithms = algorithms
  /-- The table is empty, or has one value for each register of each algorithm. -/
  table : t.values = [] ∨ (banks t.values).Nodup ∧ ∀ bank, bank ∈ banks t.values ↔ Supports algorithms bank
  /-- Each value has the size of a digest of its algorithm. -/
  sizes : ∀ bank v, (bank, v) ∈ t.values → digestSize bank.algorithm = .ok v.length
  /-- Every command since the last reset is logged, refused ones included, in order. -/
  commands_eq : t.commands.toList = sinceReset calls
  /-- The event log is the events of the command log. -/
  events_eq : t.events.toList = logged t.commandList
  /-- A table that is not empty goes back to the one start that was accepted, and every value is the end of
  the chain of the commands logged since. -/
  started : t.values ≠ [] → ∃ past locality later,
    AcceptedStart algorithms calls past locality later ∧
    (∀ past' locality' later', AcceptedStart algorithms calls past' locality' later' → past' = past) ∧
    (∃ r, t.commands.toList = sinceReset past ++ r :: later) ∧ 0 ≤ locality ∧ locality ≤ 255 ∧
    ∀ bank v, (bank, v) ∈ t.values → Chains locality (later.map CommandRecord.command) bank v

variable {algorithms : List Algorithm} {calls past : List Call} {locality : Int}
  {later : List CommandRecord} {t u : Tpm} {r : CommandRecord}

theorem afterCalls_concat (t : Tpm) (calls : List Call) (c : Call) :
    t.afterCalls (calls ++ [c]) = (t.afterCalls calls).call c := by
  rw [afterCalls, List.foldl_append]
  rfl

theorem afterCalls_append (t : Tpm) (calls more : List Call) :
    t.afterCalls (calls ++ more) = (t.afterCalls calls).afterCalls more := List.foldl_append

/-! ## What calls cannot change -/

theorem defaults_after_execute (r : CommandRecord) (t : Tpm) :
    (after (execute r) t).defaults = t.defaults := by
  have h : Stays (fun u : Tpm => u.defaults = t.defaults) (apply r.command) :=
    stays_apply (fun _ _ hu => hu) fun _ _ _ hu => hu
  exact h { t with commands := t.commands.push r } rfl

theorem algorithms_afterCalls (algorithms : List Algorithm) (calls : List Call) :
    (afterCalls (fresh algorithms) calls).defaults = algorithms ∧
      (afterCalls (fresh algorithms) calls).algorithms = algorithms := by
  induction calls using List.reverseRecOn with
  | nil => exact ⟨rfl, rfl⟩
  | append_singleton calls c ih =>
      obtain ⟨hdefaults, halgorithms⟩ := ih
      rw [afterCalls_concat]
      cases c with
      | command r =>
          exact ⟨(defaults_after_execute r _).trans hdefaults,
            (algorithms_after_execute r _).trans halgorithms⟩
      | reset => exact ⟨hdefaults, hdefaults⟩
      | clear => exact ⟨hdefaults, halgorithms⟩

/-- A reset of either kind leads back to the beginning. -/
theorem afterCalls_concat_eq_fresh (algorithms : List Algorithm) (calls : List Call) {c : Call}
    (hc : c = .reset ∨ c = .clear) : afterCalls (fresh algorithms) (calls ++ [c]) = fresh algorithms := by
  obtain ⟨hdefaults, halgorithms⟩ := algorithms_afterCalls algorithms calls
  rw [afterCalls_concat]
  rcases hc with rfl | rfl
  · exact congrArg fresh hdefaults
  · rw [call, clear, hdefaults, halgorithms]
    rfl

/-! ## Logs -/

theorem sinceReset_concat (calls : List Call) (r : CommandRecord) :
    sinceReset (calls ++ [.command r]) = sinceReset calls ++ [r] := by
  rw [sinceReset, List.foldl_append]
  rfl

theorem sinceReset_append (calls : List Call) (rs : List CommandRecord) :
    sinceReset (calls ++ rs.map .command) = sinceReset calls ++ rs := by
  induction rs using List.reverseRecOn with
  | nil => simp
  | append_singleton rs r ih =>
      rw [List.map_append, List.map_singleton, ← List.append_assoc, sinceReset_concat, ih,
        List.append_assoc]

theorem commands_afterCalls (algorithms : List Algorithm) (calls : List Call) :
    (afterCalls (fresh algorithms) calls).commands.toList = sinceReset calls := by
  induction calls using List.reverseRecOn with
  | nil => rfl
  | append_singleton calls c ih =>
      cases c with
      | command r =>
          rw [afterCalls_concat, sinceReset_concat, call, commands_after_execute, Array.toList_push, ih]
      | reset =>
          rw [afterCalls_concat_eq_fresh algorithms calls (.inl rfl), sinceReset, List.foldl_append]
          rfl
      | clear =>
          rw [afterCalls_concat_eq_fresh algorithms calls (.inr rfl), sinceReset, List.foldl_append]
          rfl

theorem events_afterCalls (algorithms : List Algorithm) (calls : List Call) :
    (afterCalls (fresh algorithms) calls).events.toList =
      logged (afterCalls (fresh algorithms) calls).commandList := by
  induction calls using List.reverseRecOn with
  | nil => rfl
  | append_singleton calls c ih =>
      cases c with
      | command r =>
          rw [afterCalls_concat, call, commandList_of_push (commands_after_execute r _), logged_append,
            events_after_execute, ih]
      | reset =>
          rw [afterCalls_concat_eq_fresh algorithms calls (.inl rfl)]
          rfl
      | clear =>
          rw [afterCalls_concat_eq_fresh algorithms calls (.inr rfl)]
          rfl

/-! ## The one start -/

theorem stays_apply_held (c : Command) : Stays (fun t : Tpm => t.values ≠ []) (apply c) := by
  cases c with
  | init locality =>
      refine Stays.get_bind fun t _ => ?_
      have hinit : Stays (fun t : Tpm => t.values ≠ [])
          (do (← get).algorithms.forM (initAlgorithm locality)) :=
        .get_bind fun t _ => .forM fun a _ => stays_initAlgorithm_held locality a
      split
      · exact .throw _
      · exact hinit
  | extend pcr a digest =>
      refine Stays.get_bind fun t _ => ?_
      refine (Stays.attempt _).bind fun old => (Stays.attempt _).bind fun new => ?_
      refine Stays.get_bind fun t _ => ?_
      split
      · exact .throw _
      · exact .modify fun t _ => put_ne_nil _ _ _
  | logEvent e => exact .modify fun t ht => ht

theorem values_ne_nil_after_commands (h : t.values ≠ []) (rs : List CommandRecord) :
    (t.afterCalls (rs.map .command)).values ≠ [] := by
  induction rs generalizing t with
  | nil => exact h
  | cons r rest ih =>
      have hnext : (t.call (.command r)).values ≠ [] :=
        stays_apply_held r.command { t with commands := t.commands.push r } h
      exact ih hnext

theorem AcceptedStart.values_ne_nil (h : AcceptedStart algorithms calls past locality later)
    (hsome : algorithms ≠ []) : (afterCalls (fresh algorithms) calls).values ≠ [] := by
  obtain ⟨r, u, hcommand, rfl, hu⟩ := h
  obtain ⟨-, -, hfollows⟩ := execute_of_ok hu
  rw [hcommand] at hfollows
  have hheld : u.values ≠ [] := by
    intro hempty
    exact hsome ((algorithms_afterCalls algorithms past).2 ▸ hfollows.2.1.mp hempty)
  rw [afterCalls_append]
  have hafter : ((afterCalls (fresh algorithms) past).call (.command r)).values ≠ [] := by
    rw [call, after_of_ok hu]
    exact hheld
  exact values_ne_nil_after_commands hafter later

theorem AcceptedStart.values_eq_nil (h : AcceptedStart algorithms calls past locality later) :
    (afterCalls (fresh algorithms) past).values = [] := by
  obtain ⟨r, u, hcommand, -, hu⟩ := h
  obtain ⟨-, -, hfollows⟩ := execute_of_ok hu
  rw [hcommand] at hfollows
  exact hfollows.1

/-- Nothing after an accepted start empties the table again. -/
theorem AcceptedStart.more_eq_nil (hsome : algorithms ≠ [])
    (h : AcceptedStart algorithms calls past locality later) {more rest : List Call}
    (hsplit : calls = past ++ more ++ rest)
    (hempty : (afterCalls (fresh algorithms) (past ++ more)).values = []) : more = [] := by
  cases more with
  | nil => rfl
  | cons c more =>
      obtain ⟨r, u, hcommand, hcalls, hu⟩ := h
      have htail : .command r :: later.map Call.command = c :: (more ++ rest) := by
        rw [hcalls, List.append_assoc] at hsplit
        exact List.append_cancel_left hsplit
      obtain ⟨rfl, hlater⟩ := List.cons.inj htail
      obtain ⟨first, last, -, hfirst, -⟩ := List.map_eq_append_iff.mp hlater
      have hstart : AcceptedStart algorithms (past ++ .command r :: more) past locality first :=
        ⟨r, u, hcommand, by rw [hfirst], hu⟩
      exact absurd hempty (hstart.values_ne_nil hsome)

/-- No two starts are accepted between two resets. -/
theorem AcceptedStart.past_eq (hsome : algorithms ≠ []) {past' : List Call} {locality' : Int}
    {later' : List CommandRecord} (h : AcceptedStart algorithms calls past locality later)
    (h' : AcceptedStart algorithms calls past' locality' later') : past' = past := by
  obtain ⟨r, -, -, hcalls, -⟩ := id h
  obtain ⟨r', -, -, hcalls', -⟩ := id h'
  rcases List.append_eq_append_iff.mp (hcalls.symm.trans hcalls') with ⟨more, hpast, -⟩ | ⟨more, hpast, -⟩
  · have hsplit : calls = past ++ more ++ .command r' :: later'.map .command := by rw [← hpast, hcalls']
    rw [hpast, h.more_eq_nil hsome hsplit (hpast ▸ h'.values_eq_nil), List.append_nil]
  · have hsplit : calls = past' ++ more ++ .command r :: later.map .command := by rw [← hpast, hcalls]
    rw [hpast, h'.more_eq_nil hsome hsplit (hpast ▸ h.values_eq_nil), List.append_nil]

/-- An accepted start and what follows it end the command log. -/
theorem AcceptedStart.exists_log (h : AcceptedStart algorithms calls past locality later) :
    ∃ r, sinceReset calls = sinceReset past ++ r :: later := by
  obtain ⟨r, -, -, rfl, -⟩ := h
  refine ⟨r, ?_⟩
  rw [← List.map_cons, sinceReset_append]

theorem AcceptedStart.concat (h : AcceptedStart algorithms calls past locality later)
    (r : CommandRecord) :
    AcceptedStart algorithms (calls ++ [.command r]) past locality (later ++ [r]) := by
  obtain ⟨first, u, hcommand, rfl, hu⟩ := h
  exact ⟨first, u, hcommand, by simp, hu⟩

/-! ## Faithfulness -/

/-- A table that is empty, or that goes back to an accepted start. -/
def Grown (algorithms : List Algorithm) (calls : List Call) (values : List (Bank × Bytes)) : Prop :=
  values = [] ∨ ∃ past locality later, AcceptedStart algorithms calls past locality later ∧
    0 ≤ locality ∧ locality ≤ 255 ∧
    Filled (Supports algorithms) (Chains locality (later.map CommandRecord.command)) values

theorem grown_of_empty (hcomputable : Computable algorithms)
    (hempty : (afterCalls (fresh algorithms) calls).values = []) (r : CommandRecord) :
    Grown algorithms (calls ++ [.command r])
      (after (execute r) (afterCalls (fresh algorithms) calls)).values := by
  have halgorithms := (algorithms_afterCalls algorithms calls).2
  generalize hstate : afterCalls (fresh algorithms) calls = t at hempty halgorithms
  subst halgorithms
  cases hrun : execute r t with
  | error f u =>
      rw [after_of_error hrun, execute_error hcomputable hrun]
      exact .inl hempty
  | ok x u =>
      rw [after_of_ok hrun]
      obtain ⟨-, -, hfollows⟩ := execute_of_ok hrun
      cases hc : r.command with
      | logEvent e =>
          rw [hc] at hfollows
          exact .inl ((show u.values = _ from hfollows).trans hempty)
      | extend pcr a digest =>
          rw [hc] at hfollows
          exact absurd hempty hfollows.1
      | init locality =>
          rw [hc] at hfollows
          by_cases hsome : t.algorithms = []
          · exact .inl (hfollows.2.1.mpr hsome)
          · obtain ⟨hlow, hhigh, hfilled⟩ := filled_of_init hcomputable hsome hc hrun
            have hstart : AcceptedStart t.algorithms (calls ++ [.command r]) calls locality [] :=
              ⟨r, u, hc, rfl, by rw [hstate, hrun]⟩
            exact .inr ⟨calls, locality, [], hstart, hlow, hhigh, hfilled⟩

/-- Every table goes back to an accepted start, or is empty. -/
theorem grown_afterCalls (hcomputable : Computable algorithms) (calls : List Call) :
    Grown algorithms calls (afterCalls (fresh algorithms) calls).values := by
  induction calls using List.reverseRecOn with
  | nil => exact .inl rfl
  | append_singleton calls c ih =>
      cases c with
      | reset =>
          rw [afterCalls_concat_eq_fresh algorithms calls (.inl rfl)]
          exact .inl rfl
      | clear =>
          rw [afterCalls_concat_eq_fresh algorithms calls (.inr rfl)]
          exact .inl rfl
      | command r =>
          rw [afterCalls_concat, call]
          by_cases hempty : (afterCalls (fresh algorithms) calls).values = []
          · exact grown_of_empty hcomputable hempty r
          · obtain hnil | ⟨past, locality, later, hstart, hlow, hhigh, hfilled⟩ := ih
            · exact absurd hnil hempty
            · have halgorithms := (algorithms_afterCalls algorithms calls).2
              have hnext := hfilled.execute halgorithms hempty hcomputable r
              rw [← List.map_singleton, ← List.map_append] at hnext
              exact .inr ⟨past, locality, later ++ [r], hstart.concat r, hlow, hhigh, hnext⟩

/-- What a TPM holds after any calls: the logs are complete, and the table is empty or tells the extends since
the one start that was accepted. -/
theorem faithful_afterCalls (hcomputable : Computable algorithms) (calls : List Call) :
    Faithful algorithms calls (afterCalls (fresh algorithms) calls) := by
  have hgrown := grown_afterCalls hcomputable calls
  refine ⟨(algorithms_afterCalls algorithms calls).2, ?_, ?_, commands_afterCalls algorithms calls,
    events_afterCalls algorithms calls, ?_⟩
  · obtain hempty | ⟨past, locality, later, -, -, -, hfilled⟩ := hgrown
    · exact .inl hempty
    · exact .inr ⟨hfilled.nodup, hfilled.held_iff⟩
  · intro bank v hmem
    obtain hempty | ⟨past, locality, later, -, -, -, hfilled⟩ := hgrown
    · rw [hempty] at hmem
      cases hmem
    · exact (hfilled.of_mem hmem).digestSize_eq
  · intro hheld
    obtain hempty | ⟨past, locality, later, hstart, hlow, hhigh, hfilled⟩ := hgrown
    · exact absurd hempty hheld
    · have hsome : algorithms ≠ [] := by
        obtain ⟨⟨bank, v⟩, hmem⟩ := List.exists_mem_of_ne_nil _ hheld
        exact List.ne_nil_of_mem ((hfilled.held_iff bank).mp (List.mem_map_of_mem hmem)).2
      exact ⟨past, locality, later, hstart, fun _ _ _ h => hstart.past_eq hsome h,
        commands_afterCalls algorithms calls ▸ hstart.exists_log, hlow, hhigh,
        fun bank v hmem => hfilled.of_mem hmem⟩

/-- Calls of every kind; commands come too early, out of order, twice, and for banks that do not exist. -/
def variedCalls : List Call :=
  [.command ⟨.init 3, none, none⟩, .command ⟨.extend 0 .sha1 [1], none, none⟩, .clear,
    .command ⟨.extend 0 .sha1 [1], none, none⟩, .reset, .command ⟨.init 256, none, none⟩,
    .command ⟨.extend 1 .sha1 [1], none, none⟩, .command ⟨.init 4, none, none⟩,
    .command ⟨.init 0, none, none⟩, .command ⟨.extend 7 .sha1 [1], none, none⟩,
    .command ⟨.extend 0 .sm3 [1], none, none⟩, .command ⟨.extend 1 .sha256 [2], none, none⟩,
    .command ⟨.logEvent ⟨1, .sha256, [2], .postCode, none⟩, none, none⟩,
    .command ⟨.extend 0 .sha1 [3], none, none⟩]

theorem faithful_afterCalls_varied :
    Computable [.sha1, .sha256] ∧ (afterCalls (fresh [.sha1, .sha256]) variedCalls).values.length = 4 ∧
      Faithful [.sha1, .sha256] variedCalls (afterCalls (fresh [.sha1, .sha256]) variedCalls) := by
  have hcomputable : Computable [.sha1, .sha256] := by
    intro a ha
    simp only [List.mem_cons, List.not_mem_nil, or_false] at ha
    rcases ha with rfl | rfl <;> rfl
  exact ⟨hcomputable, by decide, faithful_afterCalls hcomputable variedCalls⟩

end MeasuredBoot.Tpm
