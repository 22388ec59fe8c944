import Wordcode.Command

namespace Wordcode.Command

/-! # The program

The outer layer of the command line: it brings the files that a command line may name into memory,
runs the command, and writes back what changed.
-/

/-- The file that the command line names as its configuration. -/
def configPath? (words : List String) : Option String :=
  match select words with
  | .ok (some c, words) =>
    match Arguments.parse c.flags words with
    | .ok a => (a.text? "config").filter (· ≠ "")
    | .error _ => none
  | _ => none

/-- The paths that a word may name: the word itself, and what follows an equals sign or a
shorthand in it. -/
def pathsIn (word : String) : List String :=
  let cs := word.toList
  let parts := [cs, (cs.dropWhile (· ≠ '=')).drop 1, cs.drop 2]
  (parts.filter (!·.isEmpty)).map String.ofList

/-- The place of a path whose components are taken as they are written. -/
def placeOf (path : String) : Path :=
  (Path.split path).foldl Path.enter (Path.start path)

/-- The path of a place, as the system writes it. -/
def pathOf : Path → String
  | "/" :: rest => "/" ++ String.intercalate "/" rest
  | [] => "."
  | p => String.intercalate "/" p

/-- Adds the file or folder at a place, and the folders above it. -/
def addPlace (files : Files) (p : Path) : IO Files := do
  let here ← IO.currentDir
  let mut files := files
  for n in List.range p.length do
    let place := p.take (n + 1)
    let path := here / pathOf place
    if ← path.isDir then files := { files with folders := place :: files.folders }
    else if ← path.pathExists then
      files := files.put place (← IO.FS.readBinFile path).toList
  return files

/-- The files that a command line and its settings may need. -/
def gather (words : List String) (home : String) : IO Files := do
  let config := Sources.configNames ++ Sources.configNames.map (home ++ "/" ++ ·)
  let compiled := words.map fun w => Path.stem w ++ ".cbor"
  ((words.flatMap pathsIn ++ compiled ++ config).map placeOf).foldlM addPlace {}

/-- The variables of the environment that settings come from. -/
def environment : IO (List (String × String)) := do
  let names := ["log-level", "no-color", "output", "max-depth", "trace"].map Settings.variableName
  let values ← names.mapM fun name => do return (name, (← IO.getEnv name).getD "")
  return values.filter (·.2 ≠ "")

/-- Whether texts are coloured: on a terminal that can, unless that was declined. -/
def wantsColor : IO Bool := do
  let declined := (← IO.getEnv "NO_COLOR").getD "" ≠ "" || (← IO.getEnv "TERM") = some "dumb"
  return (← (← IO.getStdout).isTty) && !declined

/-- Shows why a command failed. -/
def reportFailure (color : Bool) (e : Failure) : IO Unit := do
  let text := match e.fault? with
    | some f => f.friendly color
    | none => Style.red.paint color e.text ++ "\n"
  (← IO.getStderr).putStr text

/-- The session that a command line starts in, unless its configuration file cannot be read. -/
def start (words : List String) : IO (Except Failure Session) := do
  let home := (← IO.getEnv "HOME").getD ""
  let files ← gather words home
  let environment ← environment
  let serial := (← IO.getRandomBytes 15).toList.foldl (fun n b => n * 256 + b.toNat) 0
  let session (sources : Sources) : IO (Except Failure Session) := do
    return .ok { files, sources, color := ← wantsColor, serial }
  match configPath? words with
  | none => session (Sources.load files home environment)
  | some path =>
    match files.read path with
    | .ok bytes => session { environment, config := Sources.readConfig bytes }
    | .error e => return .error (.within "failed to read config" e)

/-- Prints what a session printed and writes the files it changed. -/
def finish (before after : Session) : IO Unit := do
  for (p, bytes) in after.files.contents do
    if before.files.lookup? p ≠ some bytes then
      IO.FS.writeBinFile (pathOf p) ⟨bytes.toArray⟩
  (← IO.getStdout).putStr after.output
  (← IO.getStderr).putStr after.notes

end Wordcode.Command

open Wordcode Command in
/-- Runs a command line; a failure is shown on the error channel. -/
def main (words : List String) : IO UInt32 := do
  match ← start words with
  | .error e =>
    reportFailure (← wantsColor) e
    return 1
  | .ok s =>
    match execute words s with
    | .ok () after =>
      finish s after
      return 0
    | .error e after =>
      finish s after
      reportFailure after.color e
      return 1
