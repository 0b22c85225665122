import MeasuredBoot.Bytes
import MeasuredBoot.Fault

/-!
# Files

A tree of files in memory, which is what the library needs of a file system. A path is written as parts
between slashes and is followed part by part: an empty part or a single dot stays, two dots go up, and any
other part must name a directory that is there. Writing a file first creates the directories on the way,
one after another, and these stay even if the file cannot be written. Reading what is no file gives no
bytes.
-/
namespace MeasuredBoot

abbrev FilePath := List String

/-- Files with their contents, and the directories that were created. -/
structure FileTree where
  files : List (FilePath × Bytes) := []
  directories : List FilePath := []

/-- A path as it is written: where it starts, and the parts between its slashes. -/
structure WrittenPath where
  origin : FilePath
  parts : List String

namespace WrittenPath

/-- The directory from which paths start that have no slash in front. It lies below the root, under names
that no part of a path can spell. -/
def home : FilePath := ["/", "/"]

def ofText (s : String) : WrittenPath := ⟨if s.startsWith "/" then [] else home, s.splitOn "/"⟩

/-- The greatest length of a path that can be followed, in bytes. -/
def maxBytes : Nat := 4095

/-- The greatest length of a name, in bytes. -/
def maxNameBytes : Nat := 255

/-- True of a path that is not too long to be followed. -/
def fits (w : WrittenPath) : Bool := ("/".intercalate w.parts).utf8ByteSize ≤ maxBytes

/-- True of a path with a null character, which is no path at all. -/
def isBroken (w : WrittenPath) : Bool := w.parts.any fun part => part.toList.contains '\x00'

/-- The part is neither empty nor made of one or two dots. -/
def isName (part : String) : Bool := part ≠ "" && part ≠ "." && part ≠ ".."

/-- The beginnings of a path that end before one of its slashes, but not after another one; the shortest
first. -/
def beginnings (w : WrittenPath) : List WrittenPath :=
  (((List.range w.parts.length).drop 1).map fun n => { w with parts := w.parts.take n }).filter
    fun b => b.parts.getLastD "" ≠ ""

end WrittenPath

namespace FileTree

def isFile (t : FileTree) (p : FilePath) : Bool := t.files.any (·.1 = p)

def isDirectory (t : FileTree) (p : FilePath) : Bool :=
  p.isPrefixOf WrittenPath.home || t.directories.contains p

/-- One part further from a directory, if that leads to a directory. -/
def enter? (t : FileTree) (p : FilePath) (part : String) : Option FilePath :=
  if part = ".." then some p.dropLast
  else if !WrittenPath.isName part then some p
  else if t.isDirectory (p ++ [part]) then some (p ++ [part])
  else none

def follow? (t : FileTree) (p : FilePath) : List String → Option FilePath
  | [] => some p
  | part :: rest => (t.enter? p part).bind fun q => t.follow? q rest

def directory? (t : FileTree) (w : WrittenPath) : Option FilePath :=
  if w.fits then t.follow? w.origin w.parts else none

/-- The place at the end of a path, inside of a directory that is there; anything or nothing may be in it.
The last part of the path has to be a name. -/
def place? (t : FileTree) (w : WrittenPath) : Option FilePath :=
  let name := w.parts.getLastD ""
  if w.fits && WrittenPath.isName name && name.utf8ByteSize ≤ WrittenPath.maxNameBytes then
    (t.follow? w.origin w.parts.dropLast).map (· ++ [name])
  else none

/-- The content of a file, or no bytes. -/
def read (t : FileTree) (w : WrittenPath) : Bytes :=
  if w.isBroken then [] else ((t.place? w).bind fun p => t.files.lookup p).getD []

/-- The tree with a directory at a path, unless there is none and it cannot be created. -/
def makeDirectory (t : FileTree) (w : WrittenPath) : Option FileTree :=
  if (t.directory? w).isSome then some t
  else
    match t.place? w with
    | some p => if t.isFile p then none else some { t with directories := t.directories ++ [p] }
    | none => none

/-- True of the path of a file. -/
def hasFile (t : FileTree) (w : WrittenPath) : Bool := (t.place? w).any t.isFile

/-- The tree with as many directories of a list as can be created one after another, and whether these are
all. A file on the way is noticed by the path after it. -/
def makeDirectories (t : FileTree) : List WrittenPath → Except Fault (FileTree × Bool)
  | [] => .ok (t, true)
  | w :: rest =>
    if w.isBroken then .error (.argument .nullInPath)
    else if t.hasFile w && !rest.isEmpty then t.makeDirectories rest
    else
      match t.makeDirectory w with
      | some more => more.makeDirectories rest
      | none => .ok (t, false)

/-- The tree with a file in a directory that is there, unless the file cannot be written. -/
def put? (t : FileTree) (w : WrittenPath) (content : Bytes) : Option FileTree :=
  (t.place? w).bind fun p =>
    if t.isDirectory p then none
    else some { t with files := (p, content) :: t.files.filter (·.1 ≠ p) }

/-- The tree after an attempt to write a file, and whether the attempt succeeded. -/
def write (t : FileTree) (w : WrittenPath) (content : Bytes) : Except Fault (FileTree × Bool) := do
  let (made, complete) ← t.makeDirectories w.beginnings
  if !complete then return (made, false)
  else if w.isBroken then throw (.argument .nullInPath)
  else
    match made.put? w content with
    | some written => return (written, true)
    | none => return (made, false)

end FileTree
end MeasuredBoot
