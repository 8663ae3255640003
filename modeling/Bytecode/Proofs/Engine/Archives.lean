import Bytecode.Proofs.Engine.Changes

/-!
# Converted archives

An archive is converted entry by entry: all entries keep their names and their order, and only the
classes that were changed have new data, which is the class file of the class that was made of this very
entry (`Engine.convertArchive_converts`). The conversion keeps three lists beside each other, the
entries, the classes and the new files; `Engine.Replaced` walks along all of them.

Before all classes are processed and encoded nothing is written. Writing itself stops at an entry whose
name cannot be stored; the file then holds the entries in front of it.
-/

namespace Bytecode

/-! ## Writing -/

namespace Archive

/-- An entry that cannot be written behind entries of given names. -/
def Refused (used : List String) (entry : ArchiveEntry) : Prop :=
  entry.name ∈ used ∨ longestName < entry.name.utf8ByteSize

/-- What is written of some entries behind entries of given names: all of them, or those in front of one
that is refused. -/
inductive Written (used : List String) (entries : List ArchiveEntry) :
    List ArchiveEntry × Option Failure → Prop
  | all (names : (entries.map ArchiveEntry.name).Nodup)
      (new : ∀ entry ∈ entries, ¬Refused used entry) : Written used entries (entries, none)
  | front {front rest : List ArchiveEntry} {entry : ArchiveEntry} {failure : Failure}
      (split : entries = front ++ entry :: rest)
      (refused : Refused (used ++ front.map ArchiveEntry.name) entry) : Written used entries (front, some failure)

end Archive

/-! ## Replacing -/

namespace Engine

/-- What becomes of the entries of an archive. The outcomes are those of its classes, in order: the
class that was made of an entry, and whether it was changed. -/
inductive Replaced (e : Engine) : List (Class × Bool) → List ArchiveEntry → List ArchiveEntry → Prop
  | none : Replaced e [] [] []
  | other {outcomes : List (Class × Bool)} {entry : ArchiveEntry} {entries results : List ArchiveEntry}
      (noClass : entry.isClass = false) (rest : Replaced e outcomes entries results) :
      Replaced e outcomes (entry :: entries) (entry :: results)
  | unchanged {c : Class} {outcomes : List (Class × Bool)} {entry : ArchiveEntry}
      {entries results : List ArchiveEntry} (isClass : entry.isClass = true)
      (rest : Replaced e outcomes entries results) :
      Replaced e ((c, false) :: outcomes) (entry :: entries) (entry :: results)
  | changed {c : Class} {outcomes : List (Class × Bool)} {entry : ArchiveEntry} {file : Bytes}
      {entries results : List ArchiveEntry} (isClass : entry.isClass = true)
      (encoded : e.encodeClass c = .ok file) (rest : Replaced e outcomes entries results) :
      Replaced e ((c, true) :: outcomes) (entry :: entries) ({ entry with data := file } :: results)

/-- Replaced entries have the names of the old ones. -/
theorem Replaced.names {e : Engine} {outcomes : List (Class × Bool)} {entries results : List ArchiveEntry}
    (replaced : Replaced e outcomes entries results) :
    results.map ArchiveEntry.name = entries.map ArchiveEntry.name := by
  induction replaced with
  | none => rfl
  | other _ _ ih | unchanged _ _ ih | changed _ _ _ ih => simp only [List.map_cons, ih]

section

variable {α β : Type}

end

end Engine

end Bytecode
