import Bytecode.Bytes.Cursor
import Bytecode.Archive.Checksum

/-!
# Zip files

A zip file stores its entries one behind the other, each behind a record of its own, and ends with a
directory of them, which alone says what is in the file, and with a record that tells where the
directory is. Every record starts with a mark; fields are little-endian.

Here stand the types. `ZipFile.read` in `Archive/Zip/Directory` reads the directory,
`ZipFile.contents` in `Archive/Zip/Contents` the data of an entry, and `ZipFile.ofEntries` in
`Archive/Zip/Writing` makes a file.
-/

namespace Bytecode

/-- An entry of the directory of a zip file. The octets of the name as they stand in the file are
`rawName`; an entry that is locked needs a key. -/
structure ZipEntry where
  name : String
  rawName : Bytes
  comment : String
  flags : Nat
  method : Nat
  checksum : UInt32
  storedSize : Nat
  fullSize : Nat
  offset : Nat
  locked : Bool := false
  deriving DecidableEq, Repr

/-- A zip file whose directory has been read. -/
structure ZipFile where
  data : Bytes
  entries : List ZipEntry
  deriving Repr

namespace ZipEntry

/-- Whether the entry stands for a directory. -/
def isDirectory (e : ZipEntry) : Bool :=
  e.name.toList.getLast?.any fun c => c == '/' || c == '\\'

end ZipEntry

namespace Zip

/-- A number with its least significant octet first. -/
def little (width n : Nat) : Bytes :=
  (Bytes.ofNat width n).reverse

/-- The number that octets denote, the least significant one first. -/
def ofLittle (bytes : Bytes) : Nat :=
  Bytes.toNat bytes.reverse

/-- The number at an offset in a record. -/
def littleAt (width offset : Nat) (record : Bytes) : Nat :=
  ofLittle ((record.drop offset).take width)

/-- Reads a number that is stored with its least significant octet first. -/
def readLittle (width : Nat) : Reader Nat :=
  return ofLittle (← Reader.bytes width)

/-- The mark in front of the contents of an entry. -/
def localMark : Nat := 0x04034b50

/-- The mark in front of an entry of the directory. -/
def directoryMark : Nat := 0x02014b50

/-- The mark in front of the record that ends the file. -/
def endMark : Nat := 0x06054b50

/-- The mark in front of the record that ends the directory of a large file. -/
def largeEndMark : Nat := 0x06064b50

/-- The mark in front of the record that tells where that record is. -/
def locatorMark : Nat := 0x07064b50

/-- The flag of entries whose name is in UTF-8. -/
def utf8Flag : Nat := 0x0800

/-- Fails unless a mark comes next. -/
def expectMark (mark : Nat) : Reader Unit := do
  if (← readLittle 4) ≠ mark then throw (.archive "a record of the archive has no mark")

/-- What a failure to read means for an archive. -/
def archiveFailure : Failure → Failure
  | .outOfBounds => .archive "the archive is truncated"
  | failure => failure

theorem ofLittle_little (width n : Nat) : ofLittle (little width n) = n % Nat.pow 256 width := by
  simp [ofLittle, little, Bytes.toNat_ofNat]

end Zip

end Bytecode

/-! ## Writing zip files

Entries are stored as they are, one behind the other, and the directory follows them.
-/

namespace Bytecode.ZipFile

open Zip

/-- The octets of a name. -/
def encodeName (name : String) : Bytes :=
  name.toUTF8.toList

/-- The fields that an entry has in front of its contents and in the directory alike. -/
def sharedFields (name data : Bytes) : Bytes :=
  little 2 10 ++ little 2 utf8Flag ++ little 2 0 ++ little 2 0 ++ little 2 0x21 ++
    little 4 (Archive.checksum data).toNat ++ little 4 data.length ++ little 4 data.length ++
    little 2 name.length ++ little 2 0

/-- An entry with its contents. -/
def localRecord (name data : Bytes) : Bytes :=
  little 4 localMark ++ sharedFields name data ++ name ++ data

/-- An entry of the directory. -/
def directoryRecord (name data : Bytes) (offset : Nat) : Bytes :=
  little 4 directoryMark ++ little 2 10 ++ sharedFields name data ++ little 2 0 ++ little 2 0 ++
    little 2 0 ++ little 4 0 ++ little 4 offset ++ name

/-- The directory of entries of which the first stands at an offset. -/
def directoryRecords : Nat → List (Bytes × Bytes) → Bytes
  | _, [] => []
  | offset, (name, data) :: rest =>
    directoryRecord name data offset ++
      directoryRecords (offset + (localRecord name data).length) rest

/-- The zip file of entries with their contents. -/
def ofEntries (entries : List (String × Bytes)) : Bytes :=
  let encoded := entries.map fun (name, data) => (encodeName name, data)
  let contents := encoded.flatMap fun (name, data) => localRecord name data
  let directory := directoryRecords 0 encoded
  contents ++ directory ++ little 4 endMark ++ little 2 0 ++ little 2 0 ++
    little 2 entries.length ++ little 2 entries.length ++ little 4 directory.length ++
    little 4 contents.length ++ little 2 0

end Bytecode.ZipFile
