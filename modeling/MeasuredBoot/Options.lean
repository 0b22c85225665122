import MeasuredBoot.Options.Sections

/-!
# Options

Options are gathered from the files of a directory in the order of their names. A section of a later file
replaces the section of the same name in an earlier one as a whole.
-/
namespace MeasuredBoot

/-- The sections of all files. -/
structure Options where
  sections : OptionTable := []

namespace Options

/-- The ending of the names of option files. -/
def fileEnding : String := ".yaml"

def addFile (o : Options) (content : String) : Except Fault Options := do
  return ⟨o.sections.putAll (← OptionTable.parse content)⟩

/-- The options in the files of a directory, given by name and content; there may be no directory. -/
def ofFiles : Option (List (String × String)) → Except Fault Options
  | none => .error (.options .unreadable)
  | some files =>
    let chosen := files.filter fun (name, _) => name.endsWith fileEnding
    (chosen.mergeSort fun x y => x.1 ≤ y.1).foldlM (fun o (_, content) => o.addFile content) {}

/-- The section of a name, unless it is missing or empty. -/
def section? (o : Options) (name : OptionValue) : Option OptionTree :=
  (o.sections.get? name).filter (!·.isNull)

/-- What stands under a name in a section, if that is a table. -/
def option? (o : Options) (sectionName name : OptionValue) : Option OptionTree :=
  match o.sections.get? sectionName with
  | some (.table entries) => OptionTable.get? entries name
  | _ => none

/-- The document of a section or, if a name is given, of one of its options; or else the usual one. -/
def lookup (o : Options) (sectionName name : OptionValue) (usual : Text.Json) : Text.Json :=
  let found := if name = .null then o.section? sectionName else o.option? sectionName name
  (found.map OptionTree.document).getD usual

/-- The names in order: numbers by value, texts by their characters. A mixture has no order. -/
def names (o : Options) : Except Fault (List OptionValue) :=
  let all := o.sections.map Prod.fst
  let isText (v : OptionValue) : Bool := v = .text v.name
  let rank (v : OptionValue) : Int := v.number?.getD 0
  if all.length ≤ 1 then .ok all
  else if all.all isText then .ok (all.mergeSort fun v w => v.name ≤ w.name)
  else if all.all (·.number?.isSome) then .ok (all.mergeSort fun v w => rank v ≤ rank w)
  else .error (.argument .mixedNames)

end Options
end MeasuredBoot
