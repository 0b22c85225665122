import MeasuredBoot.Options.Outline
import MeasuredBoot.Options.Scalar

/-!
# The sections of an option file

A file is a table of sections. What stands under a name in a table is a value or a further table. Names are
values too, and what comes later under the same name replaces what came before. The entries of a table under
the reserved name belong to the table around it, in front of all others.
-/
namespace MeasuredBoot

/-- A value, or a table of what stands under each name. -/
inductive OptionTree where
  | value (v : OptionValue)
  | table (entries : List (OptionValue × OptionTree))

abbrev OptionTable := List (OptionValue × OptionTree)

namespace OptionTree

mutual

def document : OptionTree → Text.Json
  | value v => v.document
  | table entries => .object (documents entries)

/-- The entries of a table as the members of a document. -/
def documents : List (OptionValue × OptionTree) → List (String × Text.Json)
  | [] => []
  | (name, t) :: rest => (name.name, t.document) :: documents rest

end

def isNull : OptionTree → Bool
  | value v => v = .null
  | table _ => false

end OptionTree

namespace OptionTable

/-- Replaces what stands under a name, or adds it at the end. -/
def put (name : OptionValue) (t : OptionTree) : OptionTable → OptionTable
  | [] => [(name, t)]
  | (n, u) :: rest => if n.isSame name then (n, t) :: rest else (n, u) :: put name t rest

def putAll (known entries : OptionTable) : OptionTable :=
  entries.foldl (fun known (name, t) => put name t known) known

def get? (entries : OptionTable) (name : OptionValue) : Option OptionTree :=
  (entries.find? (·.1.isSame name)).map Prod.snd

end OptionTable

/-- What is written of a tree: the words for its names and values. -/
inductive WrittenTree where
  | word (s : String)
  | table (entries : List (String × WrittenTree))

/-- A written tree under a name, and how deep the name is indented. -/
structure WrittenBranch where
  indent : Nat
  name : String
  tree : WrittenTree

namespace WrittenTree

/-- The table of branches, all of which have to be indented alike. -/
def ofBranches (bs : List WrittenBranch) : Except Fault WrittenTree :=
  if bs.all fun b => bs.head?.any (·.indent = b.indent) then
    .ok (table (bs.map fun b => (b.name, b.tree)))
  else .error (.options .unreadable)

/-- Each entry with all deeper ones that follow it as a branch. -/
def branches : List OptionEntry → Except Fault (List WrittenBranch)
  | [] => .ok []
  | e :: rest => do
    let found ← branches rest
    let below := found.takeWhile (e.indent < ·.indent)
    let tree ←
      if below.isEmpty then pure (word (String.ofList e.text))
      else if e.text.isEmpty then ofBranches below
      else throw (.options .unreadable)
    return ⟨e.indent, e.name.getD "", tree⟩ :: found.dropWhile (e.indent < ·.indent)

/-- The tree of all entries of a file; one without a name stands alone. -/
def ofEntries (entries : List OptionEntry) : Except Fault WrittenTree :=
  if entries.all (·.name.isSome) then do ofBranches (← branches entries)
  else
    match entries with
    | [e] => .ok (word (String.ofList e.text))
    | _ => .error (.options .unreadable)

mutual

/-- The tree with the entries of tables under the reserved name in front of all others. A word under the
reserved name stays there. -/
def flatten : WrittenTree → WrittenTree
  | word s => word s
  | table entries => table (given entries ++ own entries)

/-- The entries that tables under the reserved name give. -/
def given : List (String × WrittenTree) → List (String × WrittenTree)
  | [] => []
  | (name, t) :: rest =>
    if name = OptionValue.mergeWord then
      (match t.flatten with
        | table entries => entries
        | word s => [(name, word s)]) ++ given rest
    else given rest

def own : List (String × WrittenTree) → List (String × WrittenTree)
  | [] => []
  | (name, t) :: rest =>
    if name = OptionValue.mergeWord then own rest else (name, t.flatten) :: own rest

end

/-- The name of an entry. A word under it is read as well, so that tables are read after all words around
them. -/
def readName (name : String) (t : WrittenTree) : Except Fault OptionValue := do
  let named ← OptionValue.ofName name
  if let word s := t then let _ ← OptionValue.ofWord s
  return named

mutual

def read : WrittenTree → Except Fault OptionTree
  | word s => .value <$> OptionValue.ofWord s
  | table entries => do
    let names ← entries.mapM fun (name, t) => readName name t
    return .table (OptionTable.putAll [] (names.zip (← readAll entries)))

def readAll : List (String × WrittenTree) → Except Fault (List OptionTree)
  | [] => .ok []
  | (_, t) :: rest => do
    let first ← t.read
    return first :: (← readAll rest)

end

end WrittenTree

namespace OptionTable

/-- The sections of a file that holds a tree: none if this is a value that counts as false. -/
def ofTree : OptionTree → Except Fault OptionTable
  | .table entries => .ok entries
  | .value (.text s) => if s.isEmpty then .ok [] else .error (.argument .textForTable)
  | .value v => if v.toFlag then .error (.argument (.valueForTable v.typeName)) else .ok []

def parse (s : String) : Except Fault OptionTable := do
  let tree ← WrittenTree.ofEntries (← OptionEntry.ofText s)
  ofTree (← tree.flatten.read)

end OptionTable
end MeasuredBoot
