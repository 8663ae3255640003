import Bytecode.Archive.Checksum
import Bytecode.Archive.Zip
import Bytecode.Text.Replacement

/-!
# Directories of zip files

The record that ends a file is looked for from the end on, since other things may follow it. It
tells where the directory starts and how many entries it has; numbers that are too large for it
stand in a record of their own, which a third one leads to. Things may also stand in front of a
file, so that the directory is found further on than it should be, and then all offsets are shifted
by as much.

The last end record counts whose directory can be read.
-/

/-! ## Extra fields

An entry of a directory ends with extra fields, each of which has a kind and a length. They hold
numbers that are too large for their place, names and comments in UTF-8, times, and how an entry is
locked. Fields of other kinds say nothing; a field that does not have the form of its kind makes the
directory unreadable.
-/

namespace Bytecode.ZipEntry

open Zip

/-- The number that stands for one which is too large for its place. -/
def tooLarge : Nat := 0xffffffff

/-- Why an entry cannot be read whose extra fields are not well-formed. -/
def fieldFailure : Failure :=
  .archive "an entry has an extra field that is not well-formed"

/-- Takes the large numbers of a field, in their order: both sizes and the offset. A number is there
if its place says so, or if the field has room for all. -/
def withLargeNumbers (e : ZipEntry) (field : Bytes) : Except Failure ZipEntry :=
  let all := 24 ≤ field.length
  let take (n : Nat) (rest : Bytes) : Nat × Bytes :=
    if all ∨ n = tooLarge then (littleAt 8 0 rest, rest.drop 8) else (n, rest)
  let missing := [e.fullSize, e.storedSize, e.offset].countP (· == tooLarge)
  if !all && field.length < 8 * missing then .error fieldFailure
  else
    let (fullSize, rest) := take e.fullSize field
    let (storedSize, rest) := take e.storedSize rest
    let (offset, _) := take e.offset rest
    .ok { e with fullSize, storedSize, offset }

/-- The text in a field that repeats another one, whose checksum it tells. -/
def repeatedText (field text : Bytes) : Except Failure Bytes :=
  if field.length < 5 ∨ littleAt 4 1 field ≠ (Archive.checksum text).toNat then
    .error fieldFailure
  else .ok (field.drop 5)

/-- The text of octets, which have to be UTF-8. -/
def strictText (bytes : Bytes) : Except Failure String :=
  match String.fromUTF8? ⟨bytes.toArray⟩ with
  | some text => .ok text
  | none => .error fieldFailure

/-- How many times a field has whose first octet says which, by a bit for each. -/
def timeCount (flags : Nat) : Nat :=
  (List.range 8).countP flags.testBit

/-- Takes a field of a kind. -/
def withField (e : ZipEntry) (kind : Nat) (field : Bytes) : Except Failure ZipEntry :=
  let check (isRight : Bool) (e : ZipEntry) := if isRight then .ok e else .error fieldFailure
  match kind with
  | 0x0001 => e.withLargeNumbers field
  | 0x000a =>
    check (field.length == 32 && littleAt 2 4 field == 1 && littleAt 2 6 field == 24) e
  | 0x5455 =>
    let flags := littleAt 1 0 field
    check (field.length == 5 || field.length == 1 + 4 * timeCount flags) e
  | 0x6375 => do
    return { e with comment := ← strictText (← repeatedText field e.comment.toUTF8.toList) }
  | 0x7075 => do
    let rawName ← repeatedText field e.rawName
    return { e with name := ← strictText rawName, rawName }
  | 0x9901 =>
    check (field.length == 7 && littleAt 2 2 field == 0x4541 &&
        [1, 2].contains (littleAt 2 0 field) && [1, 2, 3].contains (littleAt 1 4 field))
      { e with locked := true, method := littleAt 2 5 field }
  | _ => .ok e

/-- Takes all extra fields. A single octet behind them is no field. -/
def withExtra (e : ZipEntry) : Bytes → Except Failure ZipEntry
  | [] | [_] => .ok e
  | k :: k' :: l :: l' :: rest => do
    let length := ofLittle [l, l']
    if rest.length < length then throw fieldFailure
    (← e.withField (ofLittle [k, k']) (rest.take length)).withExtra (rest.drop length)
  | _ => .error fieldFailure
termination_by bytes => bytes.length
decreasing_by
  simp only [List.length_drop, List.length_cons]
  omega

end Bytecode.ZipEntry

/-! ## Records -/

namespace Bytecode

open Zip

/-- Where the directory of a zip file starts, how many entries it has, and by how much their offsets
are shifted. -/
structure ZipDirectory where
  start : Nat
  count : Nat
  shift : Nat
  deriving DecidableEq, Repr

/-- The record that ends a file. -/
structure ZipEnd where
  position : Nat
  part : Nat
  directoryPart : Nat
  partCount : Nat
  count : Nat
  offset : Nat
  deriving DecidableEq, Repr

/-- The record that leads to the one that ends the directory of a large file. -/
structure ZipLocator where
  position : Nat
  directoryPart : Nat
  target : Nat
  partTotal : Nat
  deriving DecidableEq, Repr

namespace Zip

/-- Where a mark stands in octets of which the first has a position, and what follows from there on.
The last place comes first, and all of them come before `found`. -/
def places (mark : Bytes) (position : Nat) (found : List (Nat × Bytes)) :
    Bytes → List (Nat × Bytes)
  | [] => found
  | b :: rest =>
    let found := if mark.isPrefixOf (b :: rest) then (position, b :: rest) :: found else found
    places mark (position + 1) found rest

/-- The places of a mark from one position on that end before another, the first one first. -/
def placesBetween (mark low high : Nat) (data : Bytes) : List (Nat × Bytes) :=
  (places (little 4 mark) low [] ((data.drop low).take (high - low))).reverse

end Zip

namespace ZipEnd

/-- The end record at a position of a file of a size, unless its comment goes on beyond the end. -/
def ofRecord? (size position : Nat) (record : Bytes) : Option ZipEnd :=
  if size < position + 22 + littleAt 2 20 record then none
  else some {
    position
    part := littleAt 2 4 record
    directoryPart := littleAt 2 6 record
    partCount := littleAt 2 8 record
    count := littleAt 2 10 record
    offset := littleAt 4 16 record }

/-- All end records of a file, the last one first. -/
def all (data : Bytes) : List ZipEnd :=
  let size := data.length
  (places (little 4 endMark) 0 [] data).filterMap fun (position, record) =>
    ofRecord? size position record

/-- Whether some number may be too large for its place. -/
def isFull (e : ZipEnd) : Bool :=
  e.count == 0xffff || e.offset == 0xffffffff

/-- The record in front that leads to the end of a large directory. -/
def locator? (e : ZipEnd) (data : Bytes) : Option ZipLocator :=
  let record := (data.drop (e.position - 20)).take 20
  if e.isFull ∧ 20 ≤ e.position ∧ littleAt 4 0 record = locatorMark then
    some {
      position := e.position - 20
      directoryPart := littleAt 4 4 record
      target := littleAt 8 8 record
      partTotal := littleAt 4 16 record }
  else none

/-- The directory that an end record tells of by itself, given where in the file an entry of a
directory may be. It starts with the first entry from its offset on. -/
def directory? (e : ZipEnd) (marked : List Nat) : Option ZipDirectory := do
  let start ←
    if e.count = 0 then some (max e.offset e.position)
    else marked.find? fun position => decide (e.offset ≤ position ∧ position + 4 ≤ e.position)
  if e.part ≠ e.directoryPart then none
  return { start, count := e.partCount, shift := start - e.offset }

end ZipEnd

namespace ZipLocator

/-- The record that ends the directory of a large file: it fills the room up to the locator, is in
the same part of the archive, and has the directory in front of it. -/
def endRecord? (l : ZipLocator) (data : Bytes) : Option (Nat × Bytes) :=
  (placesBetween largeEndMark l.target l.position data).find? fun (position, record) =>
    let size := littleAt 8 4 record
    decide (44 ≤ size) && position + size + 12 == l.position &&
      littleAt 4 20 record == l.directoryPart &&
      decide (littleAt 8 32 record * 46 + littleAt 8 48 record ≤ position)

/-- The directory of a large file. -/
def directory? (l : ZipLocator) (data : Bytes) : Option ZipDirectory := do
  if 1 < l.partTotal then none
  let (position, record) ← l.endRecord? data
  let shift := position - l.target
  let count := littleAt 8 32 record
  if count < littleAt 8 24 record then none
  if littleAt 4 16 record ≠ littleAt 4 20 record then none
  return { start := littleAt 8 48 record + shift, count, shift }

end ZipLocator

namespace ZipDirectory

/-- Where a file has the mark of an entry of a directory, the first place first. -/
def marked (data : Bytes) : List Nat :=
  ((places (little 4 directoryMark) 0 [] data).map Prod.fst).reverse

/-- The directory that an end record of a file leads to, given where the file has marks of entries.
-/
def ofEnd? (e : ZipEnd) (data : Bytes) (marked : List Nat) : Option ZipDirectory :=
  match e.locator? data with
  | some l => l.directory? data
  | none => e.directory? marked

/-- The text of a name or a comment. -/
def decodeText (flags : Nat) (bytes : Bytes) : String :=
  if flags / utf8Flag % 2 = 1 then Text.decodeReplacing bytes else Text.decodeCodePage bytes

/-- The method of entries that are locked. -/
def lockedMethod : Nat := 99

/-- Offsets have to stay below this limit. -/
def offsetLimit : Nat := 0x10000000000000000

/-- Reads an entry of the directory, whose offset is shifted. -/
def readEntry (shift : Nat) : Reader ZipEntry := do
  expectMark directoryMark
  Reader.advance 4
  let flags ← readLittle 2
  let method ← readLittle 2
  Reader.advance 4
  let checksum ← readLittle 4
  let storedSize ← readLittle 4
  let fullSize ← readLittle 4
  let nameLength ← readLittle 2
  let extraLength ← readLittle 2
  let commentLength ← readLittle 2
  Reader.advance 8
  let offset ← readLittle 4
  let rawName ← Reader.bytes nameLength
  let extra ← Reader.bytes extraLength
  let comment := decodeText flags (← Reader.bytes commentLength)
  let e : ZipEntry := {
    name := decodeText flags rawName
    rawName, comment, flags, method, storedSize, fullSize, offset
    checksum := UInt32.ofNat checksum }
  let e ← e.withExtra extra
  if e.method = lockedMethod ∧ !e.locked then
    throw (.archive "an entry does not tell how it is locked")
  if offsetLimit ≤ e.offset + shift then throw (.archive "an entry is too far away")
  return { e with offset := e.offset + shift }

/-- Adds an entry to a directory. Of entries with one name the last one counts, in the place of the
first. -/
def addEntry (entries : List ZipEntry) (e : ZipEntry) : List ZipEntry :=
  if entries.any (·.name == e.name) then
    entries.map fun old => if old.name = e.name then e else old
  else entries ++ [e]

/-- The entries of a directory. -/
def entries (d : ZipDirectory) (data : Bytes) : Except Failure (List ZipEntry) := do
  if d.count = 0 then return []
  let cursor ← (Cursor.ofBytes data).seek d.start
  let (entries, _) ← (Reader.replicate (readEntry d.shift) d.count).run cursor
  return entries.foldl addEntry []

end ZipDirectory

namespace ZipFile

/-- Reads the directory of a zip file. -/
def read (data : Bytes) : Except Failure ZipFile :=
  let marked := ZipDirectory.marked data
  let file? (e : ZipEnd) : Option ZipFile := do
    let directory ← ZipDirectory.ofEnd? e data marked
    return ⟨data, ← (directory.entries data).toOption⟩
  match (ZipEnd.all data).findSome? file? with
  | some file => .ok file
  | none => .error (.archive "the archive has no directory")

/-- The entry of a name. -/
def entry? (file : ZipFile) (name : String) : Option ZipEntry :=
  file.entries.find? (·.name == name)

end ZipFile

end Bytecode
