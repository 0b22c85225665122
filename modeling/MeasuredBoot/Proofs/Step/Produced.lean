import MeasuredBoot.Proofs.Step.Pcr0Data

/-!
# What a step may produce

The actions which a step may produce are told by its text, whatever the state: the branches of a condition are
both possible, and a verifying step records what it verified or switches to its fallback. Everything that holds
of all produced actions is proved from this list.
-/
namespace MeasuredBoot

/-- A source that reads at most the image and the registers of the security processor, directly. -/
def Source.isPlain : Source → Bool
  | concat _ | merged _ | volumeOf _ | acmPolicyStatus => false
  | _ => true

namespace Step
variable {s : State}

theorem exists_of_mem_localityEvents {locality : Int} {events : List Action}
    (h : localityEvents s locality = .ok events) {x : Action} (hx : x ∈ events) :
    ∃ a digest data, x = .logEvent 0 a digest .noAction data := by
  unfold localityEvents at h
  split at h
  · cases h
  · obtain ⟨a, -, ha⟩ := exists_of_mem_mapM h hx
    obtain ⟨size, -, heq⟩ := bind_eq_ok_iff.mp ha
    cases heq
    exact ⟨a, _, _, rfl⟩

/-- An action of a step that measures for the security processor: a panic, or a measurement. -/
inductive IsPspAction : Action → Prop
  | panic (reason : String) : IsPspAction (.panic reason)
  | measure {source : Source} (hplain : source.isPlain = true) (data : Option Bytes) :
      IsPspAction (.measure 0 source .firmwareBlob data)

theorem isPspAction_of_measureEachRange {source : Source} {name : String} {actions : List Action}
    (h : measureEachRange s source name = .ok actions) : ∀ x ∈ actions, IsPspAction x := by
  unfold measureEachRange at h
  split at h
  · split at h
    · cases h
      intro x hx
      rw [List.mem_singleton.mp hx]
      exact .panic _
    · cases h
  · cases h
    intro x hx
    obtain ⟨r, -, hx⟩ := List.mem_flatMap.mp hx
    obtain ⟨y, -, rfl⟩ := List.mem_map.mp hx
    exact .measure rfl _

theorem isPspAction_of_mem {m : PspMeasurement} {actions : List Action} (h : pspActions s m = .ok actions) :
    ∀ x ∈ actions, IsPspAction x := by
  have hwhole : ∀ {source : Source} {description : String}, source.isPlain = true →
      measureWhole source description = .ok actions → ∀ x ∈ actions, IsPspAction x := by
    intro source description hplain h x hx
    cases h
    rw [List.mem_singleton.mp hx]
    exact .measure hplain _
  cases m with
  | version => exact hwhole rfl h
  | messageRegisters => exact hwhole rfl h
  | embeddedFirmware => exact hwhole rfl h
  | biosDirectory => exact isPspAction_of_measureEachRange h
  | rtmVolume => exact isPspAction_of_measureEachRange h
  | microcodePatch => exact isPspAction_of_measureEachRange h
  | videoInterpreter => exact isPspAction_of_measureEachRange h
  | pmuFirmware =>
      obtain ⟨first, hfirst, h⟩ := bind_eq_ok_iff.mp h
      obtain ⟨second, hsecond, h⟩ := bind_eq_ok_iff.mp h
      cases h
      intro x hx
      rcases List.mem_append.mp hx with hx | hx
      · exact isPspAction_of_measureEachRange hfirst x hx
      · exact isPspAction_of_measureEachRange hsecond x hx

inductive Produces : Step → Action → Prop
  | setActor (a : Actor) : Produces (.setActor a) (.setActor a)
  | setFlow (f : FlowRef) : Produces (.setFlow f) (.setFlow f)
  | panic (reason : String) : Produces (.panic reason) (.panic reason)
  | inner {c : Condition} {step : Step} {x : Action} : Produces step x → Produces (.whenHolds c step) x
  | first {c : Condition} {step other : Step} {x : Action} : Produces step x →
      Produces (.choose c step other) x
  | second {c : Condition} {step other : Step} {x : Action} : Produces other x →
      Produces (.choose c step other) x
  | start (locality : Int) (logged : Bool) : Produces (.initTpm locality logged) (.tpmInit locality)
  | announce (locality : Int) (a : Algorithm) (digest : Bytes) (data : Option Bytes) :
      Produces (.initTpm locality true) (.logEvent 0 a digest .noAction data)
  | startLazily (locality : Int) : Produces (.initTpmLazily locality) (.tpmInit locality)
  | measure (pcr : Int) (type : EventType) (source : Source) (description : Option Bytes) :
      Produces (.measure pcr type source description) (.measure pcr source type description)
  | verified (subject : Subject) (fallback : FlowRef) : Produces (.verify subject fallback) subject.action
  | unverified (subject : Subject) (fallback : FlowRef) :
      Produces (.verify subject fallback) (.setFlow fallback)
  | data {x : Action} : IsDataAction x → Produces .measurePcr0Data x
  | psp {x : Action} (m : PspMeasurement) : IsPspAction x → Produces (.psp m) x
  | scripted {items : List ScriptedAction} {item : ScriptedAction} : item ∈ items →
      Produces (.script items) item.action

theorem produces_of_newly {step : Step} {actions : List Action} (h : ∀ x ∈ actions, step.Produces x) :
    ∀ x ∈ newly actions, step.Produces x.2 := by
  intro x hx
  obtain ⟨a, ha, rfl⟩ := List.mem_map.mp hx
  exact h a ha

theorem produces_of_single {step : Step} {a : Action} (h : step.Produces a) :
    ∀ x ∈ newly [a], step.Produces x.2 := by
  apply produces_of_newly
  intro x hx
  rwa [List.mem_singleton.mp hx]

theorem produces_of_mem {step : Step} {produced : List Produced} (h : step.actions s = .ok produced) :
    ∀ x ∈ produced, step.Produces x.2 := by
  induction step generalizing produced with
  | setActor a =>
      cases h
      exact produces_of_single (.setActor a)
  | setFlow f =>
      cases h
      exact produces_of_single (.setFlow f)
  | panic reason =>
      cases h
      exact produces_of_single (.panic reason)
  | whenHolds c step ih =>
      rw [actions] at h
      split at h
      · exact fun x hx => .inner (ih h x hx)
      · cases h
        exact fun x hx => absurd hx List.not_mem_nil
  | choose c step other ih ihother =>
      rw [actions] at h
      split at h
      · exact fun x hx => .first (ih h x hx)
      · exact fun x hx => .second (ihother h x hx)
  | initTpm locality logged =>
      cases logged with
      | false =>
          cases h
          exact produces_of_single (.start locality false)
      | true =>
          obtain ⟨events, hevents, h⟩ := bind_eq_ok_iff.mp h
          cases h
          refine produces_of_newly fun x hx => ?_
          rcases List.mem_cons.mp hx with rfl | hx
          · exact .start locality true
          · obtain ⟨a, digest, data, rfl⟩ := exists_of_mem_localityEvents hevents hx
            exact .announce locality a digest data
  | initTpmLazily locality =>
      rw [actions] at h
      split at h
      · cases h
        exact fun x hx => absurd hx List.not_mem_nil
      · cases h
        exact produces_of_single (.startLazily locality)
  | measure pcr type source description =>
      cases h
      exact produces_of_single (.measure pcr type source description)
  | verify subject fallback =>
      rw [actions] at h
      split at h
      · cases h
        exact produces_of_single (.verified subject fallback)
      · cases h
        exact produces_of_single (.unverified subject fallback)
  | measurePcr0Data =>
      cases hactions : pcr0DataActions s with
      | error f =>
          rw [actions, hactions] at h
          cases h
      | ok inner =>
          rw [actions, hactions] at h
          cases h
          exact produces_of_newly fun x hx => .data (isDataAction_of_mem hactions x hx)
  | psp m =>
      cases hactions : pspActions s m with
      | error f =>
          rw [actions, hactions] at h
          cases h
      | ok inner =>
          rw [actions, hactions] at h
          cases h
          exact produces_of_newly fun x hx => .psp m (isPspAction_of_mem hactions x hx)
  | broken message => cases h
  | script items =>
      cases h
      intro x hx
      obtain ⟨item, hitem, rfl⟩ := List.mem_map.mp hx
      exact .scripted hitem

end Step
end MeasuredBoot
