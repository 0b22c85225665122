import MeasuredBoot.EventLog.Locality
import MeasuredBoot.Proofs.Tpm.Mirrored
import MeasuredBoot.Proofs.Tpm.Replay
import MeasuredBoot.Proofs.Tpm.Started

/-!
# Announced starts

A start of a TPM may be announced: for each algorithm an event of register zero reports the locality. If the
TPM accepts the groups of commands of some steps, of which one is an announced start and the others mirror
their extends and announce nothing, then the announcement is the first event of register zero, and the events
behind it have the digests with which the register was extended. So the events of one algorithm tell the value
of its register.
-/
namespace MeasuredBoot

def EventLog.entriesOf (entries : List EventEntry) (pcr : Int) (a : Algorithm) : List EventEntry :=
  entries.filter fun e => e.pcr = pcr && e.algorithm = a

theorem EventLog.mem_entriesOf_iff {entries : List EventEntry} {pcr : Int} {a : Algorithm} {e : EventEntry} :
    e ∈ entriesOf entries pcr a ↔ e ∈ entries ∧ e.pcr = pcr ∧ e.algorithm = a := by
  simp [entriesOf]

theorem EventLog.entriesOf_cons (e : EventEntry) (entries : List EventEntry) (pcr : Int) (a : Algorithm) :
    entriesOf (e :: entries) pcr a =
      if e.pcr = pcr && e.algorithm = a then e :: entriesOf entries pcr a else entriesOf entries pcr a :=
  List.filter_cons

theorem EventLog.entriesOf_append (entries later : List EventEntry) (pcr : Int) (a : Algorithm) :
    entriesOf (entries ++ later) pcr a = entriesOf entries pcr a ++ entriesOf later pcr a :=
  List.filter_append ..

namespace Tpm
variable {algorithms : List Algorithm} {a : Algorithm} {locality : Int} {t u : Tpm}
  {rs : List CommandRecord} {cs ds : List Command}

/-- The event that reports a locality to an algorithm: it stands for no extend, and its digest is zero. -/
def announcement (locality : Int) (a : Algorithm) : EventEntry :=
  ⟨0, a, Bytes.zeros ((digestSize a).toOption.getD 0), .noAction,
    some (Locality.encode (UInt8.ofNat locality.toNat))⟩

/-- The start of a TPM that is announced for each of its algorithms. -/
def announcedStart (locality : Int) (algorithms : List Algorithm) : List Command :=
  .init locality :: algorithms.map fun a => .logEvent (announcement locality a)

def Quiet (cs : List Command) : Prop := ∀ e, .logEvent e ∈ cs → e.type ≠ .noAction

/-- The commands of a step: an announced start, or commands that mirror their extends and are quiet. -/
inductive Regular (algorithms : List Algorithm) : List Command → Prop
  | start (locality : Int) : Regular algorithms (announcedStart locality algorithms)
  | plain {cs : List Command} : Mirrored cs → Quiet cs → Regular algorithms cs

/-! ## Events of the commands -/

theorem mem_logged_iff {e : EventEntry} : e ∈ logged cs ↔ .logEvent e ∈ cs := by
  rw [logged, List.mem_filterMap]
  constructor
  · rintro ⟨c, hc, heq⟩
    cases c with
    | logEvent x => rwa [← Option.some.inj heq]
    | init l => cases heq
    | extend pcr b digest => cases heq
  · exact fun h => ⟨_, h, rfl⟩

theorem Quiet.append (h : Quiet cs) (h' : Quiet ds) : Quiet (cs ++ ds) := by
  intro e he
  rcases List.mem_append.mp he with he | he
  · exact h e he
  · exact h' e he

/-- The events of register zero from quiet commands have the digests of the extends. -/
theorem digests_of_quiet (h : Mirrored cs) (hquiet : Quiet cs) (a : Algorithm) :
    (EventLog.entriesOf (logged cs) 0 a).map EventEntry.digest = extended a cs := by
  have hall : EventLog.measurements (logged cs) = logged cs := by
    rw [EventLog.measurements, List.filter_eq_self]
    exact fun e he => decide_eq_true (hquiet e (mem_logged_iff.mp he))
  have hdigests := h a
  rwa [hall] at hdigests

theorem logged_announcedStart (locality : Int) (algorithms : List Algorithm) :
    logged (announcedStart locality algorithms) = algorithms.map (announcement locality) := by
  have hevents : ∀ as : List Algorithm,
      logged (as.map fun a => .logEvent (announcement locality a)) = as.map (announcement locality) := by
    intro as
    induction as with
    | nil => rfl
    | cons b rest ih => exact congrArg (announcement locality b :: ·) ih
  exact hevents algorithms

theorem extended_announcedStart (locality : Int) (algorithms : List Algorithm) (a : Algorithm) :
    extended a (announcedStart locality algorithms) = [] := by
  rw [extended, List.filterMap_eq_nil_iff]
  intro c hc
  rcases List.mem_cons.mp hc with rfl | hc
  · rfl
  · obtain ⟨b, -, rfl⟩ := List.mem_map.mp hc
    rfl

theorem entriesOf_announcedStart (hnodup : algorithms.Nodup) (ha : a ∈ algorithms) (locality : Int) :
    EventLog.entriesOf (logged (announcedStart locality algorithms)) 0 a = [announcement locality a] := by
  have hbank : ((fun e : EventEntry => e.pcr = 0 && e.algorithm = a) ∘ announcement locality) = (· == a) := by
    funext b
    rw [Bool.eq_iff_iff, beq_iff_eq]
    exact decide_eq_true_iff
  rw [logged_announcedStart, EventLog.entriesOf, List.filter_map, hbank, List.filter_beq,
    hnodup.count, if_pos ha]
  rfl

theorem mirrored_announcedStart (locality : Int) (algorithms : List Algorithm) :
    Mirrored (announcedStart locality algorithms) := by
  intro b
  rw [extended_announcedStart, logged_announcedStart, EventLog.measurements, List.filter_map]
  have hnone : algorithms.filter ((fun e : EventEntry => e.type ≠ .noAction) ∘ announcement locality) = [] := by
    rw [List.filter_eq_nil_iff]
    simp [announcement]
  rw [hnone]
  rfl

theorem Regular.mirrored (h : Regular algorithms cs) : Mirrored cs := by
  cases h with
  | start locality => exact mirrored_announcedStart locality algorithms
  | plain hmirrored _ => exact hmirrored

theorem Regular.quiet (h : Regular algorithms cs) (hstarts : ∀ l, .init l ∉ cs) : Quiet cs := by
  cases h with
  | start locality => exact absurd (List.mem_cons_self) (hstarts locality)
  | plain _ hquiet => exact hquiet

/-- The measurements and the events of a bank from regular commands: as many of these as of those, or no
measurement. -/
theorem Regular.paired (h : Regular algorithms cs) (a : Algorithm) :
    extended a cs = [] ∨ (EventLog.entriesOf (logged cs) 0 a).length = (extended a cs).length := by
  cases h with
  | start locality => exact Or.inl (extended_announcedStart locality algorithms a)
  | plain hmirrored hquiet => exact Or.inr (by rw [← digests_of_quiet hmirrored hquiet, List.length_map])

/-! ## The start -/

/-- A TPM that is initialised accepts no start. -/
theorem not_init_mem_of_accepts (h : Accepts t rs u) (hsome : t.algorithms ≠ [])
    (hinitialized : t.isInitialized = true) : ∀ l, .init l ∉ rs.map CommandRecord.command := by
  induction rs generalizing t with
  | nil => exact fun l => List.not_mem_nil
  | cons r rest ih =>
      obtain ⟨v, hr, hrest⟩ := accepts_cons.mp h
      obtain ⟨-, hsame, hfollows⟩ := execute_of_ok hr
      have hlater : v.isInitialized = true := isInitialized_of_accepts
        (accepts_cons.mpr ⟨v, hr, rfl⟩ : Accepts t [r] v) hsome hinitialized
      intro l hl
      rcases List.mem_cons.mp hl with hl | hl
      · rw [← hl] at hfollows
        rw [isInitialized, hfollows.1] at hinitialized
        cases hinitialized
      · exact ih hrest (hsame ▸ hsome) hlater l hl

theorem values_of_announcedStart (h : Accepts t rs u) (hsome : t.algorithms ≠ [])
    (hstart : rs.map CommandRecord.command = announcedStart locality algorithms) :
    t.values = [] ∧ u.isInitialized = true := by
  obtain ⟨r, rest, rfl, hr, -⟩ := List.map_eq_cons_iff.mp hstart
  obtain ⟨v, hfirst, hrest⟩ := accepts_cons.mp h
  obtain ⟨-, hsame, hfollows⟩ := execute_of_ok hfirst
  rw [hr] at hfollows
  have hinitialized : v.isInitialized = true := by
    rw [isInitialized_of_follows hfollows]
    simpa [initializedAfter] using hsome
  exact ⟨hfollows.1, isInitialized_of_accepts hrest (hsame ▸ hsome) hinitialized⟩

theorem Chained.extended_eq_nil (h : Chained a t) (hempty : t.values = []) :
    extended a t.commandList = [] := by
  obtain ⟨-, hnone⟩ | ⟨f, l, start, -, -, -, hlookup⟩ := h
  · exact hnone
  · rw [hempty] at hlookup
    cases hlookup

theorem bounds_of_startValue {size : Nat} {start : Bytes}
    (h : EventLog.startValue size locality = .ok start) : 0 ≤ locality ∧ locality ≤ 255 := by
  unfold EventLog.startValue at h
  split at h
  · cases h
  · omega

/-! ## The commands of several steps -/

section Steps
variable {groups : List (List CommandRecord)}

theorem plain_flatten (hregular : ∀ g ∈ groups, Regular algorithms (g.map CommandRecord.command))
    (hstarts : ∀ l, .init l ∉ groups.flatten.map CommandRecord.command) :
    Mirrored (groups.flatten.map CommandRecord.command) ∧
      Quiet (groups.flatten.map CommandRecord.command) := by
  induction groups with
  | nil => exact ⟨mirrored_nil, fun e he => absurd he List.not_mem_nil⟩
  | cons g rest ih =>
      rw [List.flatten_cons, List.map_append] at hstarts ⊢
      have hg := hregular g (by simp)
      obtain ⟨hmirrored, hquiet⟩ := ih (fun x hx => hregular x (by simp [hx]))
        fun l hl => hstarts l (List.mem_append_right _ hl)
      exact ⟨hg.mirrored.append hmirrored,
        (hg.quiet fun l hl => hstarts l (List.mem_append_left _ hl)).append hquiet⟩

/-- Regular groups which a fresh TPM has accepted without being started have neither extended nor logged
anything for register zero. -/
theorem untouched_of_accepts (h : Accepts (fresh algorithms) groups.flatten t)
    (hregular : ∀ g ∈ groups, Regular algorithms (g.map CommandRecord.command)) (ha : a ∈ algorithms)
    (hempty : t.values = []) :
    extended a (groups.flatten.map CommandRecord.command) = [] ∧
      EventLog.entriesOf (logged (groups.flatten.map CommandRecord.command)) 0 a = [] := by
  have hlist : t.commandList = groups.flatten.map CommandRecord.command := by
    rw [commandList, (commands_of_accepts h).1]
    rfl
  have hextended := (chained_accepts h ha (Or.inl ⟨rfl, rfl⟩)).extended_eq_nil hempty
  have hstarts := (told_accepts h (List.ne_nil_of_mem ha) (told_fresh algorithms)).unstarted hempty
  rw [hlist] at hextended hstarts
  obtain ⟨hmirrored, hquiet⟩ := plain_flatten hregular hstarts
  refine ⟨hextended, ?_⟩
  rw [← List.map_eq_nil_iff, digests_of_quiet hmirrored hquiet, hextended]

/-- If a fresh TPM has accepted regular groups with an announced start among them, then the events of register
zero are the announcement and the events behind it, whose digests lead to the value of the register. -/
theorem announced_of_accepts (h : Accepts (fresh algorithms) groups.flatten t)
    (hregular : ∀ g ∈ groups, Regular algorithms (g.map CommandRecord.command))
    (hstart : ∃ g ∈ groups, g.map CommandRecord.command = announcedStart locality algorithms)
    (hnodup : algorithms.Nodup) (ha : a ∈ algorithms) :
    ∃ f start later, a.function? = some f ∧ EventLog.startValue f.digestSize locality = .ok start ∧
      EventLog.entriesOf t.events.toList 0 a = announcement locality a :: later ∧
      (∀ e ∈ later, e.pcr = 0 ∧ e.algorithm = a ∧ e.type ≠ .noAction) ∧
      t.value 0 a = .ok (EventLog.extendAll f start (later.map EventEntry.digest)) := by
  have hsome : (fresh algorithms).algorithms ≠ [] := List.ne_nil_of_mem ha
  obtain ⟨g, hg, hcommands⟩ := hstart
  obtain ⟨before, behind, rfl⟩ := List.append_of_mem hg
  have htold := told_accepts h hsome (told_fresh algorithms)
  have hchained := chained_accepts h ha (Or.inl ⟨rfl, rfl⟩)
  have hsame : t.algorithms = algorithms := (commands_of_accepts h).2
  have hlist : t.commandList = (before ++ g :: behind).flatten.map CommandRecord.command := by
    rw [commandList, (commands_of_accepts h).1]
    rfl
  rw [List.flatten_append, List.flatten_cons, List.map_append, List.map_append, hcommands] at hlist
  rw [List.flatten_append, List.flatten_cons] at h
  obtain ⟨t₁, hbefore, hrest⟩ := accepts_append.mp h
  obtain ⟨t₂, hgroup, hbehind⟩ := accepts_append.mp hrest
  have hsome₁ : t₁.algorithms ≠ [] := (commands_of_accepts hbefore).2 ▸ hsome
  have hsome₂ : t₂.algorithms ≠ [] := (commands_of_accepts hgroup).2 ▸ hsome₁
  obtain ⟨hempty, hinitialized⟩ := values_of_announcedStart hgroup hsome₁ hcommands
  -- Nothing stands before the start for the register, and no further start behind it.
  obtain ⟨hunextended, hunlogged⟩ := untouched_of_accepts hbefore (fun x hx => hregular x (by simp [hx])) ha
    hempty
  obtain ⟨hmirrored, hquiet⟩ := plain_flatten (fun x hx => hregular x (by simp [hx]))
    (not_init_mem_of_accepts hbehind hsome₂ hinitialized)
  have hextended : extended a t.commandList = extended a (behind.flatten.map CommandRecord.command) := by
    rw [hlist, extended_append, extended_append, hunextended, extended_announcedStart]
    rfl
  have hinit : .init locality ∈ t.commandList := by
    rw [hlist]
    simp [announcedStart]
  have hheld : t.isInitialized = true := isInitialized_of_accepts hbehind hsome₂ hinitialized
  obtain ⟨v, hv⟩ := exists_value_of_chained hchained (hsame ▸ ha) hheld
  obtain ⟨f, other, start, hf, hother, hvalue, rfl⟩ := value_of_chained hchained hv
  obtain rfl := htold.once locality other hinit hother
  refine ⟨f, start, EventLog.entriesOf (logged (behind.flatten.map CommandRecord.command)) 0 a, hf, hvalue,
    ?_, fun e he => ?_, ?_⟩
  · rw [htold.events, hlist, logged_append, logged_append, EventLog.entriesOf_append,
      EventLog.entriesOf_append, hunlogged, entriesOf_announcedStart hnodup ha]
    rfl
  · obtain ⟨hmem, hpcr, halgorithm⟩ := EventLog.mem_entriesOf_iff.mp he
    exact ⟨hpcr, halgorithm, hquiet e (mem_logged_iff.mp hmem)⟩
  · rw [hv, hextended, digests_of_quiet hmirrored hquiet]

end Steps

end Tpm
end MeasuredBoot
