import Bytecode.Archive.Unpack.Bzip2
import Bytecode.Archive.Unpack.Deflate
import Bytecode.Archive.Unpack.Lzma
import Bytecode.Archive.Unpack.Prediction
import Bytecode.Archive.Unpack.Xz
import Bytecode.Archive.Unpack.Zstandard
import Bytecode.Archive.Zip.Directory

/-!
# Contents of zip files

The data of an entry stands behind a record that repeats what the directory says of it. Entries that
are packed in a known way can be read, unless they are locked. Data that goes on beyond the end of
the file is cut there, and all data is checked against the checksum in the directory.
-/

namespace Bytecode.Archive

/-! ## Ways of packing

The number of a way of packing, as archives record it, and the data that has been packed in that
way.
-/

/-- The ways in which the contents of an entry can be packed. -/
inductive Packing where
  | none
  | deflate (form : DeflateForm)
  | bzip2
  | lzma
  | xz
  | zstandard
  | prediction
  deriving DecidableEq, Repr

namespace Packing

/-- The way of packing with a number. -/
def ofNumber? : Nat → Option Packing
  | 0 => some .none
  | 8 => some (.deflate .plain)
  | 9 => some (.deflate .enhanced)
  | 12 => some .bzip2
  | 14 => some .lzma
  | 93 => some .zstandard
  | 95 => some .xz
  | 98 => some .prediction
  | _ => Option.none

/-- The data that has been packed, given its size. -/
def unpack? (p : Packing) (size : Nat) (packed : Bytes) : Option Bytes :=
  match p with
  | .none => some packed
  | .deflate form => Deflate.unpack? form packed
  | .bzip2 => Bzip2.unpack? packed
  | .lzma => Lzma.unpack? size packed
  | .xz => Xz.unpack? packed
  | .zstandard => Zstandard.unpack? packed
  | .prediction => Prediction.unpack? packed

end Packing

end Bytecode.Archive

namespace Bytecode.ZipFile

/-! ## Entries -/

open Zip

/-- Moves to an offset, on from where the cursor is if that is not behind it. -/
def goTo (offset : Nat) : Reader Unit := do
  let position ← Reader.position
  if position ≤ offset then Reader.advance (offset - position) else Reader.seek offset

/-- Reads the record in front of the data of an entry, and returns the length of what stands between
it and the data. -/
def readLocalRecord (e : ZipEntry) : Reader Nat := do
  goTo e.offset
  expectMark localMark
  Reader.advance 22
  return (← readLittle 2) + (← readLittle 2)

/-- Reads the data of an entry in the form in which it is stored. -/
def readStored (e : ZipEntry) : Reader Bytes := do
  if e.flags % 2 ≠ 0 ∨ e.locked then throw (.archive "an entry is locked")
  if (Archive.Packing.ofNumber? e.method).isNone then
    throw (.archive "an entry is stored in an unknown form")
  let between ← fun c => ((readLocalRecord e).run c).mapError archiveFailure
  return ((← get).rest.drop between).take e.storedSize

/-- The data of an entry that is stored in a form, if the form is right. -/
def restore (e : ZipEntry) (stored : Bytes) : Option Bytes := do
  (← Archive.Packing.ofNumber? e.method).unpack? e.fullSize stored

/-- The data of an entry that is stored in a form. It has to have its checksum. -/
def unpack (e : ZipEntry) (stored : Bytes) : Except Failure Bytes := do
  let some data := restore e stored
    | throw (.file "an entry is packed in a way that is not well-formed")
  if Archive.checksum data ≠ e.checksum then throw .invalidChecksum
  return data

/-- The data of an entry. -/
def contents (file : ZipFile) (e : ZipEntry) : Except Failure Bytes := do
  let (stored, _) ← (readStored e).run (Cursor.ofBytes file.data)
  unpack e stored

/-- Reads the data of an entry with its name, unless it stands for a directory. -/
def readFile (e : ZipEntry) : Reader (Option (String × Bytes)) := do
  let stored ← readStored e
  if e.isDirectory then return none
  return some (e.name, ← unpack e stored)

/-- The data of the entries that stand for files, with their names. All entries have to be readable,
those of directories too. -/
def files (file : ZipFile) : Except Failure (List (String × Bytes)) := do
  let (all, _) ← (file.entries.mapM readFile).run (Cursor.ofBytes file.data)
  return all.filterMap id

end Bytecode.ZipFile
