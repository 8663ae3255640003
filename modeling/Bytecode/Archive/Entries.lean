import Bytecode.Archive.Zip.Contents
import Bytecode.Archive.Zip

/-!
# Archives

An archive is a sequence of named entries; those whose name ends in `.class` are classes.
`Archive.decode` and `Archive.encode` convert from and to zip files. Entries that stand for
directories are not read. Entries cannot be written under one name, nor under a name that is too
long.
-/

namespace Bytecode

/-- An entry of an archive. -/
structure ArchiveEntry where
  name : String
  data : Bytes
  deriving DecidableEq, Repr, Inhabited

namespace ArchiveEntry

/-- The name of the class in the entry, if it is one. -/
def className (e : ArchiveEntry) : Option String :=
  (e.name.dropSuffix? ".class").map (·.toString)

/-- Whether the entry is a class. -/
def isClass (e : ArchiveEntry) : Bool :=
  e.name.endsWith ".class"

end ArchiveEntry

/-- The entries of an archive. -/
structure Archive where
  entries : List ArchiveEntry := []
  deriving DecidableEq, Repr, Inhabited

namespace Archive

/-- The entries that are classes. -/
def classes (a : Archive) : List ArchiveEntry :=
  a.entries.filter ArchiveEntry.isClass

/-- The first entry of a name. -/
def entry? (a : Archive) (name : String) : Option ArchiveEntry :=
  a.entries.find? (·.name == name)

/-- The archive in a zip file. -/
def decode (data : Bytes) : Except Failure Archive := do
  let files ← (← ZipFile.read data).files
  return ⟨files.map fun (name, data) => ⟨name, data⟩⟩

/-- How many octets the name of an entry can have. -/
def longestName : Nat := 65535

/-- Why an entry cannot be written behind others with given names. -/
def refusal? (used : List String) (e : ArchiveEntry) : Option Failure :=
  if used.contains e.name then some (.archive s!"two entries have the name {e.name}")
  else if longestName < e.name.utf8ByteSize then some (.archive "the name of an entry is too long")
  else none

/-- The entries in front of the first that cannot be written, and why it cannot. -/
def untilRefused (used : List String) : List ArchiveEntry → List ArchiveEntry × Option Failure
  | [] => ([], none)
  | e :: rest =>
    match refusal? used e with
    | some failure => ([], some failure)
    | none =>
      let (entries, refused) := untilRefused (e.name :: used) rest
      (e :: entries, refused)

/-- The zip file of an archive. If an entry cannot be written, writing fails there, and the file
holds the entries in front. -/
def encode (a : Archive) : Attempt Bytes Unit :=
  let (entries, refused) := untilRefused [] a.entries
  ⟨ZipFile.ofEntries (entries.map fun e => (e.name, e.data)), refused.elim (.ok ()) .error⟩

end Archive

end Bytecode
