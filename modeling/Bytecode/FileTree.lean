import Bytecode.Bytes
import Std.Data.HashSet

/-!
# File trees

The files and directories that commands read and write, as a value. A `Place` is where a file or
directory is; a path is a text that leads to one. Paths are followed part by part, the parts being
what stands between slashes: every part but the last has to lead to a directory, two dots lead to
the directory above, and empty parts and single dots stay where they are.

Files are written only into directories that exist. A directory is created with those above it; if
that fails, the ones that have been created stay.
-/

namespace Bytecode

/-- Where a file or directory is: the names on the way from the directory in which everything
starts. Places outside of it start with two dots or with a slash of their own. -/
abbrev Place := List String

namespace Place

/-- The place that one more part of a path leads to. Nothing lies above the root, and two dots stay
where no name is that they could take back. -/
def addPart (place : Place) (part : String) : Place :=
  if part = "" ∨ part = "." then place
  else if part = ".." then
    match place with
    | ["/"] => place
    | _ => if place.getLast?.all (· == "..") then place ++ [part] else place.dropLast
  else place ++ [part]

/-- The text of a place. -/
def text (place : Place) : String :=
  match place with
  | [] => "."
  | "/" :: parts => "/" ++ "/".intercalate parts
  | parts => "/".intercalate parts

/-- Whether a place is that of the first directory, of one above it, or of the root. -/
def isOutermost (place : Place) : Bool :=
  place == ["/"] || place.all (· == "..")

end Place

namespace PathText

/-- How many octets a path can have. -/
def longest : Nat := 4095

/-- Whether a part of a path is short enough to be a name. -/
def isName (part : String) : Bool :=
  part.utf8ByteSize ≤ 255

/-- The place that a path starts from. -/
def start (path : String) : Place :=
  if path.startsWith "/" then ["/"] else []

/-- The parts of a path. -/
def parts (path : String) : List String :=
  path.splitOn "/"

/-- The parts of a path that say something. A single dot says where to start. -/
def steps (path : String) : List String :=
  match parts path with
  | [] => []
  | first :: rest => (first :: rest.filter (· != ".")).filter (· != "")

/-- The path of the directory above. -/
def parent (path : String) : String :=
  (if path.startsWith "/" then "/" else "") ++ "/".intercalate (steps path).dropLast

/-- Whether a path ends with a single dot, so that it leads to a directory which has been named
before. -/
def endsWithDot (path : String) : Bool :=
  ((parts path).filter (· != "")).getLast? == some "."

/-- The path of something in a directory. -/
def inside (directory name : String) : String :=
  directory ++ "/" ++ name

end PathText

/-- Some files and directories. -/
structure FileTree where
  files : List (Place × Bytes) := []
  directories : Std.HashSet Place := {}
  deriving Repr

namespace FileTree

/-- The contents of a file. -/
def read? (t : FileTree) (place : Place) : Option Bytes :=
  t.files.lookup place

/-- Whether a directory is at a place. -/
def isDirectory (t : FileTree) (place : Place) : Bool :=
  place.isOutermost || t.directories.contains place

/-- The place that parts of a path lead to. -/
def follow (t : FileTree) (place : Place) : List String → Option Place
  | [] => some place
  | part :: rest =>
    if t.isDirectory place && PathText.isName part then t.follow (place.addPart part) rest else none

/-- The place that a path leads to. Nothing need be there. -/
def locate? (t : FileTree) (path : String) : Option Place :=
  if PathText.longest < path.utf8ByteSize then none
  else t.follow (PathText.start path) (PathText.parts path)

/-- The contents of the file that a path leads to. -/
def fileAt? (t : FileTree) (path : String) : Option Bytes :=
  (t.locate? path).bind t.read?

/-- The place of the directory that a path leads to. -/
def directoryAt? (t : FileTree) (path : String) : Option Place :=
  (t.locate? path).filter t.isDirectory

/-- The files below a directory, named relative to it. -/
def below (t : FileTree) (place : Place) : List (String × Bytes) :=
  t.files.filterMap fun (file, data) =>
    if place.isPrefixOf file then some (Place.text (file.drop place.length), data) else none

/-- The names of what lies directly in a directory, in order. -/
def names (t : FileTree) (place : Place) : List String :=
  let all := t.files.map Prod.fst ++ t.directories.toList
  let inside := all.filterMap fun p => if place.isPrefixOf p then p[place.length]? else none
  inside.eraseDups.mergeSort (· ≤ ·)

/-- Adds a directory. -/
def addDirectory (t : FileTree) (place : Place) : FileTree :=
  { t with directories := t.directories.insert place }

/-- Goes on from a directory to the one that a part of a path leads to, which is created if nothing
is there. -/
def enter (t : FileTree) (place : Place) (part : String) : FileTree × Option Place :=
  let next := place.addPart part
  if t.isDirectory next then (t, some next)
  else if !PathText.isName part || (t.read? next).isSome then (t, none)
  else (t.addDirectory next, some next)

/-- Goes on to the directory that parts of a path lead to, and creates what is missing on the way.
-/
def enterAll (t : FileTree) (place : Place) : List String → FileTree × Option Place
  | [] => (t, some place)
  | part :: rest =>
    match t.enter place part with
    | (t, none) => (t, none)
    | (t, some next) => t.enterAll next rest

/-- Creates a directory with those above it, and tells whether it is there in the end. One that is
only named with a dot behind it has to be there before. -/
def createDirectory (t : FileTree) (path : String) : FileTree × Bool :=
  let start := PathText.start path
  if PathText.longest < path.utf8ByteSize then (t, false)
  else if PathText.endsWithDot path then
    let (t, _) := t.enterAll start (PathText.steps path).dropLast
    (t, (t.directoryAt? path).isSome)
  else
    let (t, place) := t.enterAll start (PathText.steps path)
    (t, place.isSome)

/-- Writes a file. Fails if the path leads nowhere, or to a directory. -/
def write (t : FileTree) (path : String) (data : Bytes) : Option FileTree :=
  match t.locate? path with
  | none => none
  | some place =>
    if t.isDirectory place then none
    else some { t with files := (place, data) :: t.files.filter (·.1 != place) }

/-- Writes a file and creates the directory that it lies in. -/
def put (t : FileTree) (path : String) (data : Bytes) : Option FileTree :=
  (t.createDirectory (PathText.parent path)).1.write path data

/-- Writes a file into a directory that need not exist. What cannot be done is left out. -/
def offer (t : FileTree) (directory name : String) (data : Bytes) : FileTree :=
  let (t, isThere) := t.createDirectory directory
  if isThere then (t.write (PathText.inside directory name) data).getD t else t

theorem isDirectory_of_directories {t t' : FileTree} (h : t'.directories = t.directories)
    (place : Place) : t'.isDirectory place = t.isDirectory place := by
  simp [isDirectory, h]

theorem follow_of_directories {t t' : FileTree} (h : t'.directories = t.directories)
    (place : Place) (parts : List String) : t'.follow place parts = t.follow place parts := by
  induction parts generalizing place with
  | nil => rfl
  | cons part rest ih => simp [follow, isDirectory_of_directories h, ih]

theorem locate?_of_directories {t t' : FileTree} (h : t'.directories = t.directories)
    (path : String) : t'.locate? path = t.locate? path := by
  simp only [locate?, follow_of_directories h]

/-- What has been written is read again under the same path. -/
theorem fileAt?_write {t t' : FileTree} {path : String} {data : Bytes}
    (h : t.write path data = some t') : t'.fileAt? path = some data := by
  unfold write at h
  split at h
  · cases h
  · rename_i place hp
    split at h
    · cases h
    · have same : t'.directories = t.directories := by cases h; rfl
      rw [fileAt?, locate?_of_directories same, hp]
      cases h
      simp [read?]

end FileTree

end Bytecode
