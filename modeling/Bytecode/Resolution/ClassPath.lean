import Bytecode.Archive.Entries
import Bytecode.ClassFile.Reading
import Bytecode.Verification.Inference

/-!
# The class path

A class path asks its sources one after the other; the first that knows a name answers it
(`ClassPath.lookup`). Answers are kept in a cache of limited capacity, from which
`ClassPath.resolve` answers first. When the cache is full, `victim` picks the class that is given
up.

Since a cached answer is not checked again, a source that is put in front does not hide the classes
that are in the cache already.
-/

/-! ## Class sources

A class source answers the names of classes. It holds the classes in memory, or takes them from the
files of a directory or from the entries of an archive, where the class `p/C` is looked for in
`p/C.class`. What cannot be read as a class counts as missing.

A source knows finitely many names; `ClassSource.breadth` and `ClassSource.methodBound` bound how
many classes and methods it can ever show.
-/

namespace Bytecode

/-- Something that knows classes by name. The files of a directory are named relative to it. -/
inductive ClassSource where
  | memory (classes : List Class)
  | directory (path : String) (files : List (String × Bytes))
  | archive (path : String) (file : ZipFile)
  deriving Repr

namespace ClassSource

/-- Adds a class to a list in which no two have one name: a class of the same name is replaced. -/
def addClass (classes : List Class) (c : Class) : List Class :=
  if classes.any (·.name == c.name) then
    classes.map fun old => if old.name = c.name then c else old
  else classes ++ [c]

/-- The source of classes in memory. Of classes with one name the last one counts. -/
def ofClasses (classes : List Class) : ClassSource :=
  .memory (classes.foldl addClass [])

/-- The source of the classes in a zip file that stands at a path. -/
def ofArchive (path : String) (data : Bytes) : Except Failure ClassSource :=
  return .archive path (← ZipFile.read data)

/-- The file in which a class is looked for. -/
def fileName (className : String) : String :=
  className ++ ".class"

/-- Whether the name of a class stays inside a directory: no part of it is empty or a dot name. -/
def staysInside (className : String) : Bool :=
  (className.splitOn "/").all fun part => part != "" && part != "." && part != ".."

/-- The class in some contents, if they hold one. -/
def classIn (data : Bytes) : Option Class :=
  ((Class.parse data).run {}).toOption.map Prod.fst

/-- The class of a name. -/
def find? (name : String) : ClassSource → Option Class
  | memory classes => classes.find? (·.name == name)
  | directory _ files =>
    if staysInside name then (files.lookup (fileName name)).bind classIn else none
  | archive _ file => do
    let entry ← file.entry? (fileName name)
    classIn (← (file.contents entry).toOption)

/-- What kind of source it is, for messages. -/
def describe : ClassSource → String
  | memory classes => s!"memory ({classes.length} classes)"
  | directory path _ => s!"directory {path}"
  | archive path _ => s!"archive {path}"

/-- A number of names: the source knows no more. -/
def breadth : ClassSource → Nat
  | memory classes => classes.length
  | directory _ files => files.length
  | archive _ file => file.entries.length

/-- The greatest number of methods that a class file can count. -/
def mostMethods : Nat := 65535

/-- A number of methods: the classes of the source have no more. -/
def methodBound : ClassSource → Nat
  | memory classes => total (·.methods.length) classes
  | directory _ files => files.length * mostMethods
  | archive _ file => file.entries.length * mostMethods

end ClassSource

/-! ## Paths -/

/-- A class in the cache, under the name that was asked for. Stamps tell apart the answers that were
taken from a source. -/
structure CachedClass where
  name : String
  stamp : Nat
  found : Class
  deriving Repr

/-- How many classes a cache holds when nothing else is said. -/
def defaultCapacity : Nat := 4096

/-- Sources of classes in the order in which they are asked, and the answers that are kept. Given
the names in the cache, `victim` says which one makes room. -/
structure ClassPath where
  sources : List ClassSource := []
  capacity : Nat := defaultCapacity
  cache : List CachedClass := []
  resolved : Nat := 0
  victim : List String → Nat := fun _ => 0

namespace ClassPath

/-- Adds a source that is asked last. -/
def append (p : ClassPath) (source : ClassSource) : ClassPath :=
  { p with sources := p.sources ++ [source] }

/-- Adds a source that is asked first. -/
def prepend (p : ClassPath) (source : ClassSource) : ClassPath :=
  { p with sources := source :: p.sources }

/-- Forgets all answers. -/
def clearCache (p : ClassPath) : ClassPath :=
  { p with cache := [] }

/-- Removes all sources and forgets all answers. -/
def clear (p : ClassPath) : ClassPath :=
  { p with sources := [], cache := [] }

/-- The answer of the first source that knows a name. -/
def lookup (p : ClassPath) (name : String) : Option Class :=
  p.sources.findSome? (·.find? name)

/-- The cached answer to a name. -/
def cached? (p : ClassPath) (name : String) : Option CachedClass :=
  p.cache.find? (·.name == name)

/-- The answer to a name: the cached one, or else that of the sources. -/
def peek (p : ClassPath) (name : String) : Option Class :=
  match p.cached? name with
  | some c => some c.found
  | none => p.lookup name

/-- Gives up one cached class. -/
def evict (victim : List String → Nat) (cache : List CachedClass) : List CachedClass :=
  cache.eraseIdx (victim (cache.map CachedClass.name) % cache.length)

/-- Gives up cached classes until one more fits. -/
def makeRoom (p : ClassPath) : List CachedClass :=
  (List.range (p.cache.length + 1 - p.capacity)).foldl (fun cache _ => evict p.victim cache) p.cache

/-- Puts an answer into the cache, unless nothing is ever kept. -/
def remember (p : ClassPath) (c : CachedClass) : ClassPath :=
  if p.capacity = 0 then p else { p with cache := p.makeRoom ++ [c] }

/-- Answers a name and keeps the answer. -/
def resolve (p : ClassPath) (name : String) : Option CachedClass × ClassPath :=
  match p.cached? name with
  | some c => (some c, p)
  | none =>
    match p.lookup name with
    | none => (none, p)
    | some found =>
      let c : CachedClass := { name, stamp := p.resolved, found }
      (some c, { p.remember c with resolved := p.resolved + 1 })

/-- What the class path tells about the hierarchy of classes. -/
def header? (p : ClassPath) (name : String) : Option ClassHeader :=
  (p.peek name).map Class.header

/-- A number of names: the sources know no more. -/
def breadth (p : ClassPath) : Nat :=
  total ClassSource.breadth p.sources

/-- A number of methods: the classes of the sources have no more. -/
def methodBound (p : ClassPath) : Nat :=
  total ClassSource.methodBound p.sources

theorem peek_of_not_cached {p : ClassPath} {name : String} (h : p.cached? name = none) :
    p.peek name = p.lookup name := by
  simp [peek, h]

theorem resolve_fst (p : ClassPath) (name : String) :
    (p.resolve name).1.map CachedClass.found = p.peek name := by
  unfold resolve peek
  split
  · rfl
  · split <;> simp_all

end ClassPath

end Bytecode
