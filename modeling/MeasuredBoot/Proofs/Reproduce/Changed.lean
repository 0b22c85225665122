import MeasuredBoot.Proofs.Boot.Ceiling
import MeasuredBoot.Proofs.Reproduce.Classified
import MeasuredBoot.Proofs.Reproduce.DataStep

/-!
# The log of a machine with a changed register

Two machines differ in the value of the policy status register only, and both boot from the root without an
issue. Then the log of the second one is reconciled with the first boot: either it agrees with the traced
entries, or it differs from them in one digest, that of the data with the register. One such digest costs less
than skipping the pair, so nothing is skipped; and if the one value is within the search bounds of the other,
then a value is found with which the data have the digest of the second machine.
-/
namespace MeasuredBoot.Pcr0
open Boot (Executes Execution Onward)

section Logs
variable {flows : FlowCatalog} {v v' : UInt64} {log log' rs rs' : List CommandRecord} {a : Algorithm}

/-! ## Corresponding logs -/

theorem eq_of_corresponds (h : List.Forall₂ (Corresponds flows v v' log) rs rs')
    (hother : ∀ r ∈ rs, isDataMeasurement flows r = .ok false) : rs' = rs := by
  induction h with
  | nil => rfl
  | cons hr _ ih =>
      obtain ⟨hfirst, hrest⟩ := List.forall_mem_cons.mp hother
      cases hr with
      | same _ => rw [ih hrest]
      | data htrue _ => cases hfirst.symm.trans htrue

theorem dataRecords_of_corresponds (h : List.Forall₂ (Corresponds flows v v' log) rs rs')
    (hdata : ∀ r ∈ rs, isDataMeasurement flows r = .ok true) : List.Forall₂ (DataRecords v v' log) rs rs' := by
  induction h with
  | nil => exact .nil
  | cons hr _ ih =>
      obtain ⟨hfirst, hrest⟩ := List.forall_mem_cons.mp hdata
      cases hr with
      | same hfalse => cases hfirst.symm.trans hfalse
      | data _ hrecords => exact .cons hrecords (ih hrest)

theorem isDataMeasurement_of_sameStep {q r : CommandRecord}
    (h : Coordinates.sameStep q.place r.place = true) :
    isDataMeasurement flows q = isDataMeasurement flows r := by
  obtain ⟨c, place, x⟩ := q
  obtain ⟨d, place', y⟩ := r
  cases place with
  | none =>
      cases place' with
      | none => rfl
      | some p' => cases h
  | some p =>
      cases place' with
      | none => cases h
      | some p' =>
          obtain ⟨hflow, hstep⟩ : p.flow = p'.flow ∧ p.step = p'.step := by
            simpa [Coordinates.sameStep] using h
          simp only [isDataMeasurement, FlowCatalog.stepAt, hflow, hstep]

/-- The step that measures the data has written all records about it, so these are all records of their step. -/
theorem isStep_of_data {front g back : List CommandRecord} (hdata : ∀ r ∈ g, isDataMeasurement flows r = .ok true)
    (hother : ∀ r ∈ front ++ back, isDataMeasurement flows r = .ok false) : IsStep (front ++ (g ++ back)) g := by
  intro r hr q hq hsame
  have htrue := (isDataMeasurement_of_sameStep hsame).trans (hdata r hr)
  have hnot : q ∉ front ++ back := fun hmem => by cases htrue.symm.trans (hother q hmem)
  simp only [List.mem_append, not_or] at hq hnot
  exact (hq.resolve_left hnot.1).resolve_right hnot.2

/-- If only the first measurement is one of the data, then these were measured once at most. -/
theorem length_measurements_le_one {front g back : List CommandRecord}
    (hfirst : DataFirst flows a (front ++ (g ++ back)))
    (hdata : ∀ r ∈ g, isDataMeasurement flows r = .ok true) : (measurements g a).length ≤ 1 := by
  rw [DataFirst, measurements_append, measurements_append] at hfirst
  cases hg : measurements g a with
  | nil => exact Nat.zero_le _
  | cons r more =>
      cases more with
      | nil => exact Nat.le_refl _
      | cons q rest =>
          have hq : q ∈ g := (List.mem_filter.mp (hg ▸ List.mem_cons_of_mem r List.mem_cons_self)).1
          have htail : q ∈ (measurements front a ++ (measurements g a ++ measurements back a)).tail := by
            rw [hg]
            cases measurements front a <;> simp
          cases (hfirst q htail).symm.trans (hdata q hq)

theorem init_not_mem_of_dataRecords (h : List.Forall₂ (DataRecords v v' log) rs rs') :
    ∀ l, .init l ∉ rs.map CommandRecord.command := by
  intro l hl
  obtain ⟨r, hr, hinit⟩ := List.mem_map.mp hl
  obtain ⟨r', -, hrecords⟩ := exists_of_mem_of_forall₂ h hr
  obtain ⟨_, _, _, _, hdigest, -⟩ := hrecords.digests
  rw [hinit] at hdigest
  cases hdigest

/-- The traced entries of one machine beside the events of the other one: they have the same digests and types,
or there is one event that has changed. -/
inductive Paired (flows : FlowCatalog) (v v' : UInt64) (a : Algorithm) (log' : List CommandRecord) :
    List TracedEntry → List EventEntry → Prop
  | same (traced : List TracedEntry) : Paired flows v v' a log' traced (traced.map TracedEntry.entry)
  | changed (before behind : List TracedEntry) {c : TracedEntry} {e : EventEntry} {data : Bytes}
      {g' : List CommandRecord} : g' ⊆ log' → (∀ q ∈ g', isDataMeasurement flows q = .ok true) →
      Changed v v' a g' c e data →
      Paired flows v v' a log' (before ++ c :: behind)
        (before.map TracedEntry.entry ++ e :: behind.map TracedEntry.entry)

theorem Paired.length_eq {traced : List TracedEntry} {events : List EventEntry}
    (h : Paired flows v v' a log' traced events) : events.length = traced.length := by
  cases h <;> simp

/-- Around the records of the step that measures the data, all records are the same in both logs. If the step
has measured once at most, then at most one event has changed. -/
theorem paired_of_step {algorithms : List Algorithm} {known : TracedEntry.Causes}
    {front g back : List CommandRecord} {before part behind : List TracedEntry}
    (hlogs : List.Forall₂ (Corresponds flows v v' (front ++ (g ++ back))) (front ++ (g ++ back)) log')
    (hdata : ∀ r ∈ g, isDataMeasurement flows r = .ok true)
    (hfrontOther : ∀ r ∈ front, isDataMeasurement flows r = .ok false)
    (hbackOther : ∀ r ∈ back, isDataMeasurement flows r = .ok false)
    (hfirst : DataFirst flows a (front ++ (g ++ back)))
    (hregular : Tpm.Regular algorithms (g.map CommandRecord.command))
    (hknown : ∀ r ∈ g, IsExtend a r.command → ∃ m, KnownExtend known a r m)
    (hfront : before.map TracedEntry.entry =
      EventLog.entriesOf (Tpm.logged (front.map CommandRecord.command)) 0 a)
    (hpart : TracedEntry.ofGroup known a g = .ok part)
    (hback : behind.map TracedEntry.entry =
      EventLog.entriesOf (Tpm.logged (back.map CommandRecord.command)) 0 a) :
    Paired flows v v' a log' (before ++ (part ++ behind))
      (EventLog.entriesOf (Tpm.logged (log'.map CommandRecord.command)) 0 a) := by
  obtain ⟨front', rest, rfl, hfrontSame, hrest⟩ := exists_of_forall₂_append hlogs
  obtain ⟨g', back', rfl, hg, hbackSame⟩ := exists_of_forall₂_append hrest
  obtain rfl := eq_of_corresponds hfrontSame hfrontOther
  obtain rfl := eq_of_corresponds hbackSame hbackOther
  have hpairs := dataRecords_of_corresponds hg hdata
  have hquiet := hregular.quiet (init_not_mem_of_dataRecords hpairs)
  rw [List.map_append, List.map_append, Tpm.logged_append, Tpm.logged_append, EventLog.entriesOf_append,
    EventLog.entriesOf_append, ← hfront, ← hback]
  have hpair := pair_of_step hpairs
    (isStep_of_data hdata (List.forall_mem_append.mpr ⟨hfrontOther, hbackOther⟩)) hregular.mirrored hquiet
    (length_measurements_le_one hfirst hdata) hknown hpart
  rcases hpair with ⟨rfl, hnone⟩ | ⟨c, e, data, rfl, hone, hchanged⟩
  · rw [hnone, List.nil_append, List.nil_append, ← List.map_append]
    exact .same _
  · rw [hone]
    refine .changed _ _ (fun q hq => by simp [hq]) (fun q hq => ?_) hchanged
    obtain ⟨r, hr, hrecords⟩ := exists_of_mem_of_forall₂ hpairs.flip hq
    rw [← hdata r hr, isDataMeasurement, isDataMeasurement, hrecords.place]

end Logs

/-! ## Runs -/

section Runs
variable {flows : FlowCatalog} {v v' : UInt64} {algorithms : List Algorithm} {a : Algorithm}

/-- What the executions of a run have written, with the records of one of them set apart. -/
theorem flatten_records (before behind : List Execution) (d : Execution) :
    ((before ++ d :: behind).map Execution.records).flatten =
      (before.map Execution.records).flatten ++ (d.records ++ (behind.map Execution.records).flatten) := by
  rw [List.map_append, List.map_cons, List.flatten_append, List.flatten_cons]

theorem isDataMeasurement_of_mem_flatten {es : List Execution} {o : Option Fault}
    (hattributed : ∀ e ∈ es, e.Attributed flows o) (hother : ∀ e ∈ es, e.step.isMeasurePcr0Data = false) :
    ∀ r ∈ (es.map Execution.records).flatten, isDataMeasurement flows r = .ok false := by
  intro r hr
  obtain ⟨rs, hrs, hr⟩ := List.mem_flatten.mp hr
  obtain ⟨e, he, rfl⟩ := List.mem_map.mp hrs
  rw [Boot.isDataMeasurement_of_mem_records (hattributed e he) hr, hother e he]

/-- The log of a clean run is traced, and beside a log that corresponds to it at most one event has changed. -/
theorem paired_of_executes {b last : Boot} {es : List Execution} {next : Nat} {t : Tpm}
    {log' : List CommandRecord} (h : Executes flows b es none last) (hb : Onward flows b.state next)
    (hfresh : b.state.tpm = some (Tpm.fresh algorithms))
    (hunmeasured : ∀ m ∈ b.state.measured.toList, m.chain ≠ some .tpm) (hclean : ∀ e ∈ es, e.Clean)
    (ht : last.state.tpm = some t) (ha : a ∈ algorithms) (hfirst : DataFirst flows a t.commands.toList)
    (hlogs : List.Forall₂ (Corresponds flows v v' t.commands.toList) t.commands.toList log') :
    ∃ traced, TracedEntry.ofState last.state 0 a = .ok traced ∧
      traced.map TracedEntry.entry = EventLog.entriesOf t.events.toList 0 a ∧
      Paired flows v v' a log' traced
        (EventLog.entriesOf (Tpm.logged (log'.map CommandRecord.command)) 0 a) := by
  obtain ⟨u, haccepts, hu, hregular⟩ := Boot.regular_of_executes h hb hclean hfresh
  obtain rfl : u = t := Option.some.inj (hu.symm.trans ht)
  obtain ⟨known, parts, hknown, hparts, htraced, hentries⟩ :=
    Boot.exists_traced h hb hfresh hunmeasured haccepts hu hregular ha
  have hcommands : u.commands.toList = (es.map Execution.records).flatten := (Tpm.commands_of_accepts haccepts).1
  have hattributed := (Boot.attributed_of_executes h hb.bound).2
  refine ⟨parts.flatten, htraced, hentries, ?_⟩
  rw [hcommands] at hlogs hfirst
  rcases Boot.exists_dataStep h hb with hnone | ⟨before, d, behind, rfl, hdata, hothers⟩
  · rw [eq_of_corresponds hlogs (isDataMeasurement_of_mem_flatten hattributed hnone),
      ← TracedEntry.map_entry_of_groups hparts]
    exact .same _
  -- The run is cut at the one execution that measures the data.
  have hmem : d ∈ before ++ d :: behind := by simp
  have haccounted := Boot.accounted_of_executes h hb.bound (Boot.accounted_start hfresh)
  have hextends : ∀ r ∈ d.records, IsExtend a r.command → ∃ m, KnownExtend known a r m := fun r hr =>
    exists_knownExtend (hattributed d hmem) (hclean d hmem) (Step.isMeasurePcr0Data_iff.mp hdata) haccounted
      (fun x hx => by simp [hx]) hknown hr
  obtain ⟨hbefore, hbehind⟩ := List.forall_mem_append.mp hothers
  rw [flatten_records] at hlogs hfirst
  rw [List.map_append, List.map_cons] at hparts
  obtain ⟨first, part, later, hpartsBefore, hpart, hpartsBehind, rfl⟩ := exists_of_mapM_middle hparts
  rw [List.flatten_append, List.flatten_cons]
  refine paired_of_step hlogs (fun r hr => ?_)
    (isDataMeasurement_of_mem_flatten (fun e he => hattributed e (by simp [he])) hbefore)
    (isDataMeasurement_of_mem_flatten (fun e he => hattributed e (by simp [he])) hbehind) hfirst
    (hregular d hmem).commands hextends (TracedEntry.map_entry_of_groups hpartsBefore) hpart
    (TracedEntry.map_entry_of_groups hpartsBehind)
  rw [Boot.isDataMeasurement_of_mem_records (hattributed d hmem) hr, hdata]

/-! ## Root runs -/

section RootRuns
variable {i : BiosImage} {registers : Option AmdRegisters} {pch psp : Bool} {s : State} {t t' : Tpm}

theorem exists_commandLog_of_rootRun (h : RootRun flows s t) : ∃ M, ∀ N, M ≤ N →
    (Boot.complete flows (Boot.ofFlow s (Shipped.ref "Root") N)).2.state.commandLog = t.commands.toList := by
  obtain ⟨M, last, hcomplete, -, ht⟩ := h
  refine ⟨M, fun N hle => ?_⟩
  have hsame := (Boot.sameEnd_of_le (congrArg Prod.fst hcomplete) hle).state
  rw [Boot.completed, Boot.completed, hcomplete] at hsame
  rw [hsame, State.commandLog, ht]

/-- The command logs of root runs of two machines correspond, whatever the budgets of the runs are. -/
theorem corresponds_of_rootRun (h : RootRun flows (machine i registers pch psp algorithms v.toNat) t)
    (h' : RootRun flows (machine i registers pch psp algorithms v'.toNat) t') :
    List.Forall₂ (Corresponds flows v v' t.commands.toList) t.commands.toList t'.commands.toList := by
  obtain ⟨M, hlog⟩ := exists_commandLog_of_rootRun h
  obtain ⟨M', hlog'⟩ := exists_commandLog_of_rootRun h'
  have hstart : Linked flows v v' _ _ := linked_start i registers pch psp algorithms (max M M')
  have hlinked := (linked_complete hstart).2.2
  rwa [hlog _ (Int.le_max_left M M'), hlog' _ (Int.le_max_right M M')] at hlinked

theorem events_of_rootRun (h : RootRun flows s t) (hfresh : s.tpm = some (Tpm.fresh algorithms))
    (ha : a ∈ algorithms) : t.events.toList = Tpm.logged t.commandList := by
  obtain ⟨M, last, hcomplete, hnone, ht⟩ := h
  obtain ⟨es, last', hexecutes, hstate, hclean⟩ := Boot.exists_clean_of_complete hcomplete hnone
  obtain ⟨u, haccepts, hu, -⟩ :=
    Boot.regular_of_executes hexecutes (Boot.onward_root flows s M) hclean hfresh
  obtain rfl : u = t := Option.some.inj (hu.symm.trans (hstate ▸ ht))
  exact (Tpm.told_accepts haccepts (List.ne_nil_of_mem ha) (Tpm.told_fresh algorithms)).events

theorem paired_of_rootRun {maxSteps : Int} {last : Boot}
    (hcomplete : Boot.complete flows (Boot.ofFlow (machine i registers pch psp algorithms v.toNat)
      (Shipped.ref "Root") maxSteps) = (none, last))
    (hnone : ∀ r ∈ last.log.toList, r.issues = []) (ht : last.state.tpm = some t)
    (h' : RootRun flows (machine i registers pch psp algorithms v'.toNat) t') (ha : a ∈ algorithms) :
    ∃ traced, TracedEntry.ofState last.state 0 a = .ok traced ∧
      traced.map TracedEntry.entry = EventLog.entriesOf t.events.toList 0 a ∧
      Paired flows v v' a t'.commands.toList traced (EventLog.entriesOf t'.events.toList 0 a) := by
  have hrun : RootRun flows (machine i registers pch psp algorithms v.toNat) t :=
    ⟨maxSteps, last, hcomplete, hnone, ht⟩
  obtain ⟨es, last', hexecutes, hstate, hclean⟩ := Boot.exists_clean_of_complete hcomplete hnone
  obtain ⟨u, -, hstaged⟩ := staged_of_rootRun hrun ha
  rw [events_of_rootRun h' rfl ha]
  rw [hstate] at ht ⊢
  exact paired_of_executes hexecutes (Boot.onward_root flows _ maxSteps) rfl
    (fun m hm => absurd hm List.not_mem_nil) hclean ht ha hstaged.dataFirst (corresponds_of_rootRun hrun h')

end RootRuns

end Runs

end MeasuredBoot.Pcr0
