import MeasuredBoot.EventLog.Reported
import MeasuredBoot.Proofs.Tpm.Mirrored
import MeasuredBoot.Proofs.Tpm.Replay
import MeasuredBoot.Reproduce.Corrections

/-!
# Replays of register zero

Register zero is computed in three places. A TPM keeps it beside its other values while commands on all
banks come in; the measurements of a command log are replayed on a TPM of their own; and the events of a
reported log are replayed from the locality that the log reports. The second agrees with the first on every
log that a TPM accepted, and the third with the second on every reported log whose locality can be read.
-/
namespace MeasuredBoot

namespace ReportedLog

/-- The extends that the reported events of a bank stand for; an event for no action stands for none. -/
def impliedExtends (l : ReportedLog) (pcr : Int) (a : Algorithm) : List Command :=
  ((l.filterEvents pcr a).filter fun e => e.type ≠ .noAction).filterMap fun e =>
    e.entry?.map Command.ofEvent

theorem entry?_of_isOf {e : ReportedEvent} {pcr : Int} {a : Algorithm} (h : e.isOf pcr a = true) :
    e.entry? = some ⟨pcr, a, e.digestValue, e.type, some e.data⟩ := by
  obtain ⟨hpcr, hdigest⟩ : e.pcr = pcr ∧ e.digest.any (·.algorithm = a) = true := by
    simpa [ReportedEvent.isOf] using h
  cases hd : e.digest with
  | none => simp [hd] at hdigest
  | some d =>
      have ha : d.algorithm = a := by simpa [hd] using hdigest
      simp [ReportedEvent.entry?, ReportedEvent.digestValue, hd, hpcr, ha]

theorem impliedExtends_eq (l : ReportedLog) (pcr : Int) (a : Algorithm) :
    l.impliedExtends pcr a = (((l.filterEvents pcr a).filter fun e => e.type ≠ .noAction).map
      ReportedEvent.digestValue).map (.extend pcr a) := by
  have hall : ∀ e ∈ (l.filterEvents pcr a).filter fun e => e.type ≠ .noAction,
      e.entry?.map Command.ofEvent = some (.extend pcr a e.digestValue) := by
    intro e he
    rw [entry?_of_isOf (List.mem_filter.mp (List.mem_filter.mp he).1).2]
    rfl
  rw [impliedExtends, List.filterMap_congr hall, List.map_map, List.filterMap_eq_map']
  rfl

theorem startupLocality_bounds {l : ReportedLog} {locality : Int}
    (h : l.startupLocality = .ok locality) : 0 ≤ locality ∧ locality ≤ 255 := by
  unfold startupLocality at h
  split at h
  · cases h
    decide
  · obtain ⟨x, -, hx⟩ := bind_eq_ok_iff.mp h
    cases hx
    have hbyte := x.toNat_lt
    omega

end ReportedLog

namespace Tpm
variable {a : Algorithm}

theorem replay_of_not_hashable (ha : a.function? = none) (cs : List Command) (locality : Int) :
    replay cs locality a = .error (.tpm (.notHashable a)) := by
  have hsize : digestSize a = .error (.tpm (.notHashable a)) := by rw [digestSize, ha]
  have hinit : apply (.init locality) (fresh [a]) = .error (.tpm (.notHashable a)) (fresh [a]) := by
    have hfirst : initAlgorithm locality a (fresh [a]) = .error (.tpm (.notHashable a)) (fresh [a]) := by
      rw [initAlgorithm, hsize]
      rfl
    exact bind_of_error hfirst _
  have hrun : applyAll (.init locality :: cs) (fresh [a]) =
      .error (.tpm (.notHashable a)) (fresh [a]) := bind_of_error hinit _
  rw [replay, hrun]

end Tpm

/-- Replaying a reported log is replaying the extends that its events stand for. -/
theorem ReportedLog.replay_eq {l : ReportedLog} {locality : Int}
    (h : l.startupLocality = .ok locality) (a : Algorithm) :
    l.replay 0 a = Tpm.replay (l.impliedExtends 0 a) locality a := by
  have hzero : ¬ ((0 : Int) ≠ 0) := fun hne => hne rfl
  rw [ReportedLog.replay, if_neg hzero, h]
  cases hf : a.function? with
  | none =>
      rw [Tpm.replay_of_not_hashable hf]
      rfl
  | some f =>
      obtain ⟨hlow, hhigh⟩ := startupLocality_bounds h
      have hstart := EventLog.startValue_eq f.digestSize hlow hhigh
      rw [impliedExtends_eq, Tpm.replay_extends hf hstart]
      simp only [ok_bind, hstart]
      rfl

namespace Pcr0
variable {a : Algorithm} {t u : Tpm} {rs : List CommandRecord}

/-- The commands of measurements are the extends with their digests. -/
theorem map_command_measurements (records : List CommandRecord) (a : Algorithm) :
    (measurements records a).map CommandRecord.command =
      (Tpm.extended a (records.map CommandRecord.command)).map (.extend 0 a) := by
  induction records with
  | nil => rfl
  | cons r rest ih =>
      obtain ⟨c, place, cause⟩ := r
      rw [measurements] at ih ⊢
      cases c with
      | extend pcr b digest =>
          by_cases hsame : pcr = 0 ∧ b = a
          · obtain ⟨rfl, rfl⟩ := hsame
            simpa [isMeasurement, Tpm.extended] using ih
          · simpa [isMeasurement, Tpm.extended, hsame] using ih
      | _ => simpa [isMeasurement, Tpm.extended] using ih

/-- The measurements of a log lead to the value of register zero, from the locality of some start in it. -/
theorem replay_of_chained (h : Tpm.Chained a t) {v : Bytes} (hv : t.value 0 a = .ok v) :
    ∃ f locality, a.function? = some f ∧ .init locality ∈ t.commandList ∧
      Tpm.replay ((measurements t.commands.toList a).map CommandRecord.command) locality a = .ok v := by
  obtain ⟨f, locality, start, hf, hmem, hstart, rfl⟩ := Tpm.value_of_chained h hv
  refine ⟨f, locality, hf, hmem, ?_⟩
  rw [map_command_measurements]
  exact Tpm.replay_extends hf hstart _

/-- A TPM that accepted every command and was started at a locality holds what its measurements lead to. -/
theorem replay_of_accepts {algorithms : List Algorithm} {locality : Int}
    (h : Tpm.Accepts (Tpm.fresh algorithms) rs u) (ha : a ∈ algorithms)
    (hstarted : ∃ r ∈ rs, r.command = .init locality) :
    ∃ v, u.value 0 a = .ok v ∧
      Tpm.replay ((measurements u.commands.toList a).map CommandRecord.command) locality a = .ok v := by
  obtain ⟨hcommands, halgorithms⟩ := Tpm.commands_of_accepts h
  have hmem : .init locality ∈ u.commandList := by
    obtain ⟨r, hr, hcommand⟩ := hstarted
    rw [Tpm.commandList, hcommands, ← hcommand]
    exact List.mem_map_of_mem (List.mem_append_right _ hr)
  have htold := Tpm.told_accepts h (List.ne_nil_of_mem ha) (Tpm.told_fresh algorithms)
  have hchained := Tpm.chained_accepts h ha (.inl ⟨rfl, rfl⟩)
  have hinitialized : u.isInitialized = true := by
    rw [Tpm.isInitialized, Bool.not_eq_true', List.isEmpty_eq_false_iff]
    exact fun hempty => htold.unstarted hempty locality hmem
  obtain ⟨v, hv⟩ := Tpm.exists_value_of_chained hchained (halgorithms ▸ ha) hinitialized
  obtain ⟨f, other, -, hother, hreplay⟩ := replay_of_chained hchained hv
  obtain rfl := htold.once locality other hmem hother
  exact ⟨v, hv, hreplay⟩

/-- The three computations of register zero agree: a TPM that accepted every command and its measurements
replayed, a reported log and the extends that its events stand for. -/
theorem replays_agree (a : Algorithm) :
    (∀ algorithms rs u locality, Tpm.Accepts (Tpm.fresh algorithms) rs u → a ∈ algorithms →
      (∃ r ∈ rs, r.command = .init locality) →
      ∃ v, u.value 0 a = .ok v ∧
        Tpm.replay ((measurements u.commands.toList a).map CommandRecord.command) locality a = .ok v) ∧
    (∀ (l : ReportedLog) locality, l.startupLocality = .ok locality →
      l.replay 0 a = Tpm.replay (l.impliedExtends 0 a) locality a ∧
        (a.function?.isSome = true → ∃ v, l.replay 0 a = .ok v)) := by
  constructor
  · intro algorithms rs u locality h ha hstarted
    exact replay_of_accepts h ha hstarted
  · intro l locality h
    have hsame := ReportedLog.replay_eq h a
    refine ⟨hsame, fun hhashable => ?_⟩
    obtain ⟨f, hf⟩ := Option.isSome_iff_exists.mp hhashable
    obtain ⟨hlow, hhigh⟩ := ReportedLog.startupLocality_bounds h
    have hstart := EventLog.startValue_eq f.digestSize hlow hhigh
    rw [hsame, ReportedLog.impliedExtends_eq, Tpm.replay_extends hf hstart]
    exact ⟨_, rfl⟩

/-- Commands on both registers and with two algorithms, one of them the start at locality three. -/
def mixedRecords : List CommandRecord :=
  [.logEvent ⟨0, .sha1, [], .noAction, some (Locality.encode 3)⟩, .init 3, .extend 1 .sha1 [1],
    .extend 0 .sha256 [2], .extend 0 .sha1 [3], .logEvent ⟨0, .sha1, [3], .postCode, none⟩,
    .extend 0 .sha1 [4]].map fun c => ⟨c, none, none⟩

/-- Events of both registers and with two algorithms, some of them for no action. -/
def mixedLog : ReportedLog :=
  [⟨0, .noAction, Locality.encode 3, none⟩, ⟨1, .postCode, [], some ⟨.sha1, [1]⟩⟩,
    ⟨0, .postCode, [], some ⟨.sha256, [2]⟩⟩, ⟨0, .postCode, [], some ⟨.sha1, [3]⟩⟩,
    ⟨0, .noAction, [], some ⟨.sha1, [9]⟩⟩, ⟨0, .postCode, [], some ⟨.sha1, [4]⟩⟩]

theorem replays_agree_mixed :
    (∃ u, Tpm.Accepts (Tpm.fresh [.sha1, .sha256]) mixedRecords u ∧
      ∃ v, u.value 0 .sha1 = .ok v ∧
        Tpm.replay ((measurements u.commands.toList .sha1).map CommandRecord.command) 3 .sha1 =
          .ok v) ∧
    mixedLog.startupLocality = .ok 3 ∧
    mixedLog.replay 0 .sha1 = Tpm.replay (mixedLog.impliedExtends 0 .sha1) 3 .sha1 ∧
    ∃ v, mixedLog.replay 0 .sha1 = .ok v := by
  have hlocality : mixedLog.startupLocality = .ok 3 := rfl
  obtain ⟨hsame, hreturns⟩ := (replays_agree .sha1).2 mixedLog 3 hlocality
  refine ⟨?_, hlocality, hsame, hreturns rfl⟩
  obtain ⟨u, hu⟩ : ∃ u, Tpm.Accepts (Tpm.fresh [.sha1, .sha256]) mixedRecords u :=
    Tpm.exists_accepts (by decide)
  exact ⟨u, hu, (replays_agree .sha1).1 _ _ u 3 hu (by decide) (by decide)⟩

end Pcr0
end MeasuredBoot
