import Bytecode.CommandLine.Run

/-!
# Program

Reads the files that the command line names from the disk, lets `CommandLine.run` work on them, and
brings what has changed back to the disk.
-/

namespace Bytecode

namespace CommandLine

/-- The paths that a command names. -/
def Command.paths : Command → List String
  | .inspect path _ options => path :: options.classPath ++ options.listings.toList
  | .convert input output options => input :: output :: options.classPath ++ options.listings.toList
  | .check path classPath => path :: classPath

end CommandLine

namespace FileTree

/-- Whether the disk has a directory at a place. -/
def isDirectoryOfDisk (place : Place) : IO Bool :=
  (System.mkFilePath [place.text]).isDir

/-- Adds a file of the disk to a tree. A file that cannot be read stays away. -/
def withFile (t : FileTree) (place : Place) : IO FileTree := do
  try
    let data ← IO.FS.readBinFile place.text
    return { t with files := (place, data.toList) :: t.files }
  catch _ => return t

/-- Adds what lies at the place of the disk that a path leads to, and the directories on the way. -/
def withPath (t : FileTree) (path : String) : IO FileTree := do
  let start := PathText.start path
  let (place, onTheWay) := (PathText.parts path).foldl (fun (place, found) part =>
    (place.addPart part, found ++ [place])) (start, [])
  let t := (← onTheWay.filterM isDirectoryOfDisk).foldl addDirectory t
  if !(← isDirectoryOfDisk place) then return ← t.withFile place
  let inside ← (System.mkFilePath [place.text]).walkDir
  inside.foldlM (fun t found => do
    let place := (PathText.parts found.toString).foldl Place.addPart (PathText.start found.toString)
    if ← found.isDir then return t.addDirectory place else t.withFile place) (t.addDirectory place)

/-- Brings what one tree has and an earlier one had not to the disk. -/
def store (before after : FileTree) : IO Unit := do
  for place in after.directories.toList do
    unless before.isDirectory place do IO.FS.createDirAll place.text
  for (place, data) in after.files do
    unless before.read? place == some data do IO.FS.writeBinFile place.text data.toByteArray

end FileTree

/-- The files that a command line names, as they are on the disk. -/
def namedFiles (words : List String) : IO FileTree :=
  match CommandLine.Invocation.parse words with
  | .error _ => return {}
  | .ok invocation =>
    invocation.command.paths.eraseDups.foldlM FileTree.withPath {}

end Bytecode

open Bytecode in
/-- Carries out the words of a command line. -/
def main (words : List String) : IO UInt32 := do
  let before ← namedFiles words
  let outcome := CommandLine.run words before
  before.store outcome.files
  IO.print outcome.printed
  if outcome.refusal = some .misuse then IO.eprint CommandLine.usageText
  if let some error := outcome.error then IO.eprint error.message
  return outcome.exitCode.toUInt32
