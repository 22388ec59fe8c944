import Wordcode.Fault
import Wordcode.Text.Search

namespace Wordcode

/-! # Files

A tree of files held in memory, seen from a working directory. A path is followed component by
component, and each component but the last has to name a folder. A folder exists if it is listed or
if there is a file below it.
-/

/-- The components of a path that starts at the working directory. -/
abbrev Path := List String

/-- The files that a program can see. -/
structure Files where
  contents : List (Path × List UInt8) := []
  /-- Folders that exist even if nothing is in them. -/
  folders : List Path := []
  deriving Repr, Inhabited

/-- Why a path leads nowhere. -/
inductive FileError
  | missing
  /-- Something other than a folder stands where a folder is needed. -/
  | notFolder
  | isFolder
  deriving DecidableEq, Repr, Inhabited

/-- The words for a file error. -/
def FileError.message : FileError → String
  | missing => "no such file or directory"
  | notFolder => "not a directory"
  | isFolder => "is a directory"

namespace Path

/-- The components of a path as it is written. -/
def split (path : String) : List String :=
  (Text.splitWhere (· = '/') path.toList).map String.ofList

/-- One component further. -/
def enter (here : Path) (name : String) : Path :=
  if name = "" || name = "." then here
  else if name = ".." then
    if here.all (· = "..") then here ++ [".."] else here.dropLast
  else here ++ [name]

/-- Where a path starts: at the root of all paths or at the working directory. -/
def start (path : String) : Path :=
  if path.startsWith "/" then ["/"] else []

/-- The extension of the last component, with its dot; nothing if there is no dot. -/
def extension (path : String) : String :=
  let last := ((split path).getLast?.getD "").toList
  if last.contains '.' then
    String.ofList ('.' :: (last.reverse.takeWhile (· ≠ '.')).reverse)
  else ""

/-- The path without its extension. -/
def stem (path : String) : String :=
  String.ofList (path.toList.take (path.length - (extension path).length))

end Path

namespace Files

/-- The contents of the file at a place. -/
def lookup? (fs : Files) (p : Path) : Option (List UInt8) := fs.contents.lookup p

/-- Whether a place is a folder. -/
def isFolder (fs : Files) (p : Path) : Bool :=
  p.all (fun name => name = ".." || name = "/") || fs.folders.contains p ||
    fs.contents.any fun (q, _) => p.length < q.length && p.isPrefixOf q

/-- Follows the components of a path from a folder. -/
def follow (fs : Files) : Path → List String → Except FileError Path
  | here, [] => .ok here
  | here, [name] => .ok (here.enter name)
  | here, name :: rest =>
    let next := Path.enter here name
    if fs.isFolder next then fs.follow next rest
    else .error (if (fs.lookup? next).isSome then .notFolder else .missing)

/-- The place that a path names. -/
def resolve (fs : Files) (path : String) : Except FileError Path :=
  if path = "" then .error .missing else fs.follow (Path.start path) (Path.split path)

/-- The contents of a file. -/
def read (fs : Files) (path : String) : Except Failure (List UInt8) :=
  let refuse (verb : String) (e : FileError) := .error (.plain s!"{verb} {path}: {e.message}")
  match fs.resolve path with
  | .error e => refuse "open" e
  | .ok p =>
    match fs.lookup? p with
    | some bytes => .ok bytes
    | none => if fs.isFolder p then refuse "read" .isFolder else refuse "open" .missing

/-- Replaces the contents at a place. -/
def put (fs : Files) (p : Path) (bytes : List UInt8) : Files :=
  { fs with contents := (p, bytes) :: fs.contents.filter (·.1 ≠ p) }

/-- Writes a file into a folder that exists. A path that ends in a slash names a folder. -/
def write (fs : Files) (path : String) (bytes : List UInt8) : Except Failure Files :=
  let refuse (e : FileError) := .error (.plain s!"open {path}: {e.message}")
  match fs.resolve path with
  | .error .missing =>
    let bare := String.ofList (Text.trimRight (· = '/') path.toList)
    refuse (if bare ≠ path && (fs.resolve bare).isOk then .isFolder else .missing)
  | .error e => refuse e
  | .ok p => if fs.isFolder p then refuse .isFolder else .ok (fs.put p bytes)

end Files

end Wordcode
