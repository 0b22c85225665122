import MeasuredBoot.Proofs.Action.Issued

/-!
# Event logs that mirror the extends

The event log of a TPM holds the events of its commands, in order. If the commands log the digest of each of
their extends of register zero, and log nothing else but announcements, which have a type of their own, then
replaying the events gives the value of the register. Announcements are left out of the replay: they were
logged without an extend.
-/
namespace MeasuredBoot

/-- The entries of an event log that are no announcements. -/
def EventLog.measurements (entries : List EventEntry) : List EventEntry :=
  entries.filter (·.type ≠ .noAction)

namespace Tpm
variable {t u : Tpm} {r : CommandRecord} {rs : List CommandRecord} {a : Algorithm} {cs ds : List Command}

def logged (cs : List Command) : List EventEntry :=
  cs.filterMap fun c =>
    match c with
    | .logEvent e => some e
    | _ => none

theorem logged_append (cs ds : List Command) : logged (cs ++ ds) = logged cs ++ logged ds :=
  List.filterMap_append

/-- Commands that log the digests with which they extend register zero, and announcements. -/
def Mirrored (cs : List Command) : Prop :=
  ∀ a, EventLog.digestsOf (EventLog.measurements (logged cs)) 0 a = extended a cs

theorem Mirrored.append (h : Mirrored cs) (h' : Mirrored ds) : Mirrored (cs ++ ds) := by
  intro a
  rw [logged_append, extended_append, ← h a, ← h' a]
  simp only [EventLog.measurements, EventLog.digestsOf, List.filter_append, List.map_append]

theorem mirrored_nil : Mirrored [] := fun _ => rfl

theorem mirrored_init (locality : Int) : Mirrored [.init locality] := fun _ => rfl

theorem mirrored_announcement {e : EventEntry} (h : e.type = .noAction) : Mirrored [.logEvent e] := by
  intro a
  simp [EventLog.measurements, EventLog.digestsOf, logged, extended, h]

theorem mirrored_pair {pcr : Int} {digest : Bytes} {type : EventType} {data : Option Bytes}
    (h : type ≠ .noAction) :
    Mirrored [.extend pcr a digest, .logEvent ⟨pcr, a, digest, type, data⟩] := by
  intro b
  by_cases hsame : pcr = 0 ∧ a = b
  · simp [EventLog.measurements, EventLog.digestsOf, logged, extended, h, hsame]
  · simp [EventLog.measurements, EventLog.digestsOf, logged, extended, h, hsame]

/-! ## What a TPM keeps while it accepts commands -/

/-- A TPM whose log tells its events and the locality at which it was started, if it was. -/
structure Told (t : Tpm) : Prop where
  events : t.events.toList = logged t.commandList
  unstarted : t.values = [] → ∀ locality, .init locality ∉ t.commandList
  once : ∀ locality other, .init locality ∈ t.commandList → .init other ∈ t.commandList →
    other = locality

theorem events_after_execute (r : CommandRecord) (t : Tpm) :
    (after (execute r) t).events.toList = t.events.toList ++ logged [r.command] := by
  have hafter : after (execute r) t = after (apply r.command) { t with commands := t.commands.push r } :=
    rfl
  rw [hafter]
  cases hc : r.command with
  | logEvent e => exact Array.toList_push
  | _ =>
      have h : Stays (fun v : Tpm => v.events = t.events) (apply r.command) :=
        stays_apply (fun _ _ hv => hv) fun _ _ he _ => by cases hc.symm.trans he
      rw [hc] at h
      rw [h { t with commands := t.commands.push r } rfl]
      exact (List.append_nil _).symm

theorem told_fresh (algorithms : List Algorithm) : Told (fresh algorithms) where
  events := rfl
  unstarted _ _ := List.not_mem_nil
  once _ _ h := absurd h List.not_mem_nil

theorem told_execute (h : execute r t = .ok () u) (halgorithms : t.algorithms ≠ []) (ht : Told t) :
    Told u := by
  obtain ⟨hcommands, -, hfollows⟩ := execute_of_ok h
  have hlist := commandList_of_push hcommands
  have hevents := events_after_execute r t
  rw [after_of_ok h, ht.events, ← logged_append, ← hlist] at hevents
  cases hc : r.command with
  | init locality =>
      rw [hc] at hlist hfollows
      obtain ⟨hempty, hnil, -⟩ := hfollows
      have hfirst : ∀ l, .init l ∈ u.commandList → l = locality := by
        intro l hl
        rw [hlist] at hl
        rcases List.mem_append.mp hl with hl | hl
        · exact absurd hl (ht.unstarted hempty l)
        · cases List.mem_singleton.mp hl
          rfl
      exact ⟨hevents, fun hu => absurd (hnil.mp hu) halgorithms,
        fun l l' hl hl' => (hfirst l' hl').trans (hfirst l hl).symm⟩
  | extend pcr a digest =>
      rw [hc] at hlist hfollows
      obtain ⟨hheld, f, old, -, -, hvalues⟩ := hfollows
      have hsame : ∀ l, .init l ∈ u.commandList → .init l ∈ t.commandList := by
        intro l hl
        simpa [hlist] using hl
      refine ⟨hevents, fun hu => ?_, fun l l' hl hl' => ht.once l l' (hsame l hl) (hsame l' hl')⟩
      rw [hvalues] at hu
      exact absurd hu (put_ne_nil _ _ _)
  | logEvent e =>
      rw [hc] at hlist hfollows
      have hvalues : u.values = t.values := hfollows
      have hsame : ∀ l, .init l ∈ u.commandList → .init l ∈ t.commandList := by
        intro l hl
        simpa [hlist] using hl
      exact ⟨hevents, fun hu l hl => ht.unstarted (hvalues ▸ hu) l (hsame l hl),
        fun l l' hl hl' => ht.once l l' (hsame l hl) (hsame l' hl')⟩

theorem told_accepts (h : Accepts t rs u) (halgorithms : t.algorithms ≠ []) (ht : Told t) : Told u := by
  induction rs generalizing t with
  | nil =>
      cases h
      exact ht
  | cons r rs ih =>
      obtain ⟨t', hr, hrest⟩ := accepts_cons.mp h
      have hsame := (execute_of_ok hr).2.1
      exact ih hrest (hsame ▸ halgorithms) (told_execute hr halgorithms ht)

/-- A TPM that has accepted commands which mirror their extends in its event log. -/
structure Explained (t : Tpm) : Prop where
  told : Told t
  mirrored : Mirrored t.commandList
  chained : ∀ a ∈ t.algorithms, Chained a t

theorem explained_fresh (algorithms : List Algorithm) : Explained (fresh algorithms) where
  told := told_fresh algorithms
  mirrored := mirrored_nil
  chained _ _ := Or.inl ⟨rfl, rfl⟩

theorem explained_accepts (h : Accepts t rs u) (halgorithms : t.algorithms ≠ [])
    (hmirrored : Mirrored (rs.map CommandRecord.command)) (ht : Explained t) : Explained u := by
  obtain ⟨hcommands, hsame⟩ := commands_of_accepts h
  have hlist : u.commandList = t.commandList ++ rs.map CommandRecord.command := by
    rw [commandList, commandList, hcommands, List.map_append]
  refine ⟨told_accepts h halgorithms ht.told, ?_, fun a ha => ?_⟩
  · rw [hlist]
    exact ht.mirrored.append hmirrored
  · rw [hsame] at ha
    exact chained_accepts h ha (ht.chained a ha)

theorem replay_of_explained {locality : Int} (h : Explained t) (ha : a ∈ t.algorithms)
    (hstarted : .init locality ∈ t.commandList) :
    ∃ v, t.value 0 a = .ok v ∧
      EventLog.replay (EventLog.measurements t.events.toList) 0 a locality = .ok v := by
  have hheld : t.isInitialized = true := by
    rw [isInitialized, Bool.not_eq_true', List.isEmpty_eq_false_iff]
    exact fun hempty => h.told.unstarted hempty locality hstarted
  obtain ⟨v, hv⟩ := exists_value_of_chained (h.chained a ha) ha hheld
  obtain ⟨f, other, start, hf, hother, hstart, rfl⟩ := value_of_chained (h.chained a ha) hv
  obtain rfl := h.told.once locality other hstarted hother
  refine ⟨_, hv, ?_⟩
  have hzero : ¬ ((0 : Int) ≠ 0) := fun h => h rfl
  rw [EventLog.replay, if_neg hzero, h.told.events, h.mirrored a]
  simp only [hf, hstart]
  rfl

end Tpm
end MeasuredBoot
