import MeasuredBoot.Proofs.Runs
import MeasuredBoot.Source.Resolve

/-!
# Faults of data

Resolving a source, reading what it refers to and hashing the bytes fail for reasons of the data only: an
address that is not mapped, bytes that are not there, a part or a structure that the machine lacks, or an
algorithm that cannot be computed. They never fail as a command of a TPM fails, and never with a panic.
-/
namespace MeasuredBoot

def Fault.OfData : Fault → Prop
  | .mapping _ | .read _ | .encoding _ | .source _ | .state _ | .tpm (.notHashable _) => True
  | _ => False

def Fault.OfMapping : Fault → Prop
  | .mapping _ => True
  | _ => False

/-- A computation whose faults are all caused by data. -/
abbrev OnData {α : Type} (x : Except Fault α) : Prop := FaultsWithin Fault.OfData x

/-- A computation that fails only where an address map does not reach. -/
abbrev OnMapping {α : Type} (x : Except Fault α) : Prop := FaultsWithin Fault.OfMapping x

theorem OnMapping.onData {α : Type} {x : Except Fault α} (h : OnMapping x) : OnData x := by
  refine h.mono fun f hf => ?_
  cases f with
  | mapping f => trivial
  | _ => cases hf

/-! ## Mapping -/

theorem BiosImage.onMapping_biosRegion (i : BiosImage) : OnMapping i.biosRegion := by
  unfold BiosImage.biosRegion
  split
  · exact .ok _
  · split
    · exact .ok _
    · exact .error trivial

theorem AddressMap.onMapping_regionOf (b : Blob) : OnMapping (AddressMap.regionOf b) := by
  unfold AddressMap.regionOf
  split
  · exact BiosImage.onMapping_biosRegion _
  · exact .error trivial

theorem AddressMap.onMapping_resolve (m : AddressMap) (b : Blob) (rs : ByteRanges) :
    OnMapping (m.resolve b rs) := by
  cases m with
  | identity => exact .ok _
  | physical =>
      refine (AddressMap.onMapping_regionOf b).bind fun region _ => .mapM fun r _ => ?_
      unfold AddressMap.resolveIn
      split
      · exact .error trivial
      · exact .ok _

theorem AddressMap.onMapping_unresolve (m : AddressMap) (b : Blob) (rs : ByteRanges) :
    OnMapping (m.unresolve b rs) := by
  cases m with
  | identity => exact .ok _
  | physical =>
      refine (AddressMap.onMapping_regionOf b).bind fun region _ => .mapM fun r _ => ?_
      unfold AddressMap.unresolveIn
      split
      · exact .ok _
      · exact .error trivial

theorem Reference.onMapping_resolvedRanges (r : Reference) : OnMapping r.resolvedRanges := by
  unfold Reference.resolvedRanges
  split
  · exact .ok _
  · exact AddressMap.onMapping_resolve _ _ _

theorem References.onMapping_resolve (rs : References) : OnMapping rs.resolve :=
  .mapM fun r _ => r.onMapping_resolvedRanges.bind fun _ _ => .ok _

theorem Source.onMapping_imageData (i : BiosImage) (ranges : ByteRanges) :
    OnMapping (imageData i ranges) := by
  have hreference : OnMapping (imageReference i ranges) :=
    (AddressMap.onMapping_unresolve _ _ _).bind fun _ _ => .ok _
  exact hreference.bind fun _ _ => .ok _

theorem Source.onMapping_nodesData (i : BiosImage) (ranges : ByteRanges) :
    OnMapping (nodesData i ranges) := by
  unfold nodesData
  split
  · exact .ok _
  · exact onMapping_imageData i _

/-! ## Reading -/

theorem Register.onData_verify (r : Register) : OnData r.verify := by
  unfold Register.verify
  split
  · exact .error trivial
  · exact .ok _

theorem TxtPublic.onData_read (t : TxtPublic) (offset length : Int) :
    OnData (t.read offset length) := by
  unfold TxtPublic.read
  split
  · exact .error trivial
  · rename_i r _
    split
    · exact .error trivial
    · split
      · exact .error trivial
      · exact r.onData_verify.bind fun _ _ => .ok _

theorem AmdRegisters.onData_read (a : AmdRegisters) (offset length : Int) :
    OnData (a.read offset length) := by
  unfold AmdRegisters.read
  refine FaultsWithin.bind (.forM fun r _ => r.onData_verify) fun _ _ => ?_
  simp only
  split
  · exact .error trivial
  · split
    · exact .error trivial
    · exact .ok _

theorem Blob.onData_readContent (name : String) (c : ByteArray) (offset length : Int) :
    OnData (Blob.readContent name c offset length) := by
  unfold Blob.readContent
  split
  · exact .error trivial
  · exact .ok _

theorem Blob.onData_read (b : Blob) (offset length : Int) : OnData (b.read offset length) := by
  cases b with
  | raw name c => exact Blob.onData_readContent name c offset length
  | image i => exact Blob.onData_readContent _ i.content offset length
  | txtPublic t => exact t.onData_read offset length
  | amdRegisters a => exact a.onData_read offset length

theorem Reference.onData_read (r : Reference) : OnData r.read := by
  refine r.onMapping_resolvedRanges.onData.bind fun ranges _ => ?_
  refine FaultsWithin.bind (.mapM fun x _ => ?_) fun _ _ => .ok _
  refine (Blob.onData_read _ _ _).bind fun chunk _ => ?_
  split
  · exact .error trivial
  · exact .ok _

theorem Data.onData_raw (d : Data) : OnData d.raw := by
  cases d with
  | literal b => exact .ok b
  | referenced rs h => exact FaultsWithin.bind (.mapM fun r _ => r.onData_read) fun _ _ => .ok _

theorem onData_hashBytes (a : Algorithm) (b : Bytes) : OnData (hashBytes a b) := by
  unfold hashBytes
  split
  · exact .error trivial
  · exact .ok _

theorem onData_digestSize (a : Algorithm) : OnData (digestSize a) := by
  unfold digestSize
  split
  · exact .error trivial
  · exact .ok _

theorem Data.onData_converted (d : Data) : OnData d.converted := by
  refine d.onData_raw.bind fun b _ => ?_
  split
  · exact .ok b
  · exact onData_hashBytes _ b

/-! ## Parts of a machine -/

namespace State

theorem onData_require {α : Type} (part : Part) (o : Option α) : OnData (require part o) := by
  cases o with
  | none => exact .error trivial
  | some a => exact .ok a

theorem onData_image (s : State) : OnData s.image := onData_require .biosImage _

theorem onData_txt (s : State) : OnData s.txt := onData_require .txtPublic _

theorem onData_registers (s : State) : OnData s.registers := onData_require .amdRegisters _

theorem onData_theTpm (s : State) : OnData s.theTpm := onData_require .tpm _

theorem onData_thePch (s : State) : OnData s.thePch := onData_require .pch _

theorem onData_thePsp (s : State) : OnData s.thePsp := onData_require .psp _

end State

/-! ## Resolving -/

namespace Source

theorem onData_imageData (i : BiosImage) (ranges : ByteRanges) : OnData (imageData i ranges) :=
  (onMapping_imageData i ranges).onData

theorem onData_nodesData (i : BiosImage) (ranges : ByteRanges) : OnData (nodesData i ranges) :=
  (onMapping_nodesData i ranges).onData

theorem onData_composable (name : String) (d : Data) : OnData (composable name d) := by
  unfold composable
  split
  · exact .error trivial
  · exact .error trivial
  · exact .ok _

theorem onData_volumesOfReference (i : BiosImage) (r : Reference) : OnData (volumesOfReference i r) := by
  have hvolumes : OnData (do (← r.resolvedRanges).mapM (volumeOfRange i)) := by
    refine r.onMapping_resolvedRanges.onData.bind fun ranges _ => .mapM fun x _ => ?_
    unfold volumeOfRange
    split
    · exact .ok _
    · exact .error trivial
  unfold volumesOfReference
  split
  · exact .error trivial
  · exact hvolumes

theorem onData_variableData (s : State) (name : String) : OnData (variableData s name) := by
  unfold variableData
  split
  · exact .error trivial
  · split
    · exact .ok _
    · split
      · exact .ok _
      · exact .error trivial

theorem onData_firstGuidData (i : BiosImage) (guids : List Guid) : OnData (firstGuidData i guids) := by
  unfold firstGuidData
  split
  · exact onData_imageData i _
  · exact .error trivial

theorem onData_intelImage (s : State) : OnData (intelImage s) := by
  refine s.onData_image.bind fun i _ => ?_
  split
  · exact .ok _
  · exact .error trivial

theorem onData_amdImage (s : State) : OnData (amdImage s) := by
  refine s.onData_image.bind fun i _ => ?_
  split
  · exact .ok _
  · exact .error trivial

theorem onData_policyStatusData (s : State) : OnData (policyStatusData s) := by
  refine s.onData_txt.bind fun t _ => ?_
  split
  · exact .error trivial
  · exact .ok _
  · exact .error trivial

theorem onData_messageRegistersData (s : State) : OnData (messageRegistersData s) := by
  refine s.onData_registers.bind fun a _ => ?_
  simp only
  split
  · exact .error trivial
  · exact .ok _

mutual

theorem onData_resolve (s : State) : (source : Source) → OnData (source.resolve s)
  | .fixed d => .ok d
  | .concat parts => (onData_resolveAll s parts).bind fun _ _ => .ok _
  | .merged inner => (onData_resolve s inner).bind fun d _ =>
      (onData_composable _ d).bind fun _ _ => .ok _
  | .memory ranges => s.onData_image.bind fun i _ =>
      (AddressMap.onMapping_resolve _ _ ranges).onData.bind fun _ _ => .ok _
  | .firmwareVariable name => onData_variableData s name
  | .filesOfType _ => s.onData_image.bind fun i _ => onData_nodesData i _
  | .filesOfName _ => s.onData_image.bind fun i _ => onData_nodesData i _
  | .executables => s.onData_image.bind fun i _ => onData_nodesData i _
  | .firstGuid guids => s.onData_image.bind fun i _ => onData_firstGuidData i guids
  | .volumeOf inner => s.onData_image.bind fun i _ => (onData_resolve s inner).bind fun d _ =>
      (onData_composable _ d).bind fun rs _ =>
        (FaultsWithin.mapM fun r _ => onData_volumesOfReference i r).bind fun _ _ => onData_nodesData i _
  | .fitFirst type => (onData_intelImage s).bind fun (_, f) _ => by
      simp only
      split
      · exact .ok _
      · exact .error trivial
  | .initialBootBlock => (onData_intelImage s).bind fun (_, f) _ => by
      simp only
      split
      · exact .ok _
      · exact .error trivial
  | .acmPolicyStatus => onData_policyStatusData s
  | .pspDirectory => (onData_amdImage s).bind fun (i, _) _ => onData_imageData i _
  | .biosDirectory => (onData_amdImage s).bind fun (i, _) _ => onData_imageData i _
  | .embeddedFirmware => (onData_amdImage s).bind fun (i, f) _ => by
      simp only
      split
      · exact onData_imageData i _
      · exact .error trivial
  | .directoryEntries _ _ => (onData_amdImage s).bind fun (i, _) _ => onData_imageData i _
  | .pspVersion => (onData_amdImage s).bind fun (i, f) _ => by
      simp only
      split
      · exact onData_imageData i _
      · exact .error trivial
  | .messageRegisters => onData_messageRegistersData s

theorem onData_resolveAll (s : State) : (parts : List Source) → OnData (resolveAll s parts)
  | [] => .ok _
  | part :: rest => (onData_resolve s part).bind fun d _ =>
      (onData_composable _ d).bind fun _ _ => (onData_resolveAll s rest).bind fun _ _ => .ok _

end

end Source
end MeasuredBoot
