import Bytecode.Inlining.Rounds
import Bytecode.Archive.Entries
import Bytecode.ClassFile.Writing
import Bytecode.FileTree
import Bytecode.Method.Listing

/-!
# The engine

The engine runs its passes on classes and on whole archives. After the passes every body is
analysed, which records the room that it needs and refuses bodies that have become unsound. A method
that cannot be analysed is listed for the user.

`Engine.convertArchive` replaces the classes that changed and leaves all other entries as they are.
-/

/-! ## Passes

A pass transforms a class and tells whether it changed it. Passes run in the session of the class,
one after the other. When one fails, the class stays as the failing pass left it.
-/

namespace Bytecode

open Inlining (Session)

/-- A transformation of classes. It is skipped on classes to which it does not apply. -/
structure ClassPass where
  name : String
  applies : Class → Bool := fun _ => true
  run : Class → StateM Session (Attempt Class Bool)

namespace ClassPass

/-- Removes the visible annotations of given types. -/
def stripAnnotations (descriptors : List String) : ClassPass where
  name := "strip-metadata"
  applies c := !descriptors.isEmpty && !c.visibleAnnotations.isEmpty
  run c :=
    let kept := c.visibleAnnotations.filter fun a => !descriptors.contains a.descriptor
    let changed := kept.length != c.visibleAnnotations.length
    return ⟨{ c with visibleAnnotations := kept }, .ok changed⟩

/-- Work on the methods of a class that have a body, until it fails for one. -/
def onBodies {β : Type} (idle : β) (work : Method → StateM Session (Attempt Method β)) (c : Class) :
    StateM Session (Attempt Class (List β)) := do
  let methods ← Attempt.forEach
    (fun m => if m.body.isEmpty then return ⟨m, .ok idle⟩ else work m) c.methods
  return ⟨{ c with methods := methods.value }, methods.result⟩

/-- Inlines calls into trusted classes. -/
def inlineCalls : ClassPass where
  name := "inline"
  run c := do
    let attempt ← onBodies 0 (Inlining.inlineMethod c.name) c
    return attempt.map fun counts => counts.any (0 < ·)

/-- Runs passes on a class and tells whether one of them changed it. -/
def runAll : List ClassPass → Bool → Class → StateM Session (Attempt Class Bool)
  | [], changed, c => return ⟨c, .ok changed⟩
  | pass :: rest, changed, c => do
    if pass.applies c then
      let attempt ← pass.run c
      match attempt.result with
      | .error e => return ⟨attempt.value, .error e⟩
      | .ok b => runAll rest (changed || b) attempt.value
    else runAll rest changed c

/-- Records in a method the room that its body needs. -/
def measure (owner : String) (m : Method) : StateM Session (Attempt Method Unit) := do
  match ← (Session.analyse owner m).run with
  | .error e => return ⟨m, .error e⟩
  | .ok a =>
    let maxLocals := UInt16.ofNat a.frames.maxLocals
    let maxStack := UInt16.ofNat a.frames.maxStack
    return ⟨{ m with maxLocals, maxStack := some maxStack }, .ok ()⟩

end ClassPass

/-! ## Runs -/

open Inlining (Inliner Session)

/-- What an engine does. -/
structure EngineConfig where
  trusted : List String := TrustPolicy.standard.prefixes
  stripped : List String := ["Lkotlin/Metadata;"]
  inlining : Bool := true
  capacity : Nat := defaultCapacity
  deriving DecidableEq, Repr

/-- The listing of a method that could not be analysed, and a name for a file that holds it. -/
structure FailureListing where
  fileName : String
  listing : String
  deriving DecidableEq, Repr

/-- What has become of an archive. -/
structure ArchiveReport where
  classes : Nat
  changed : Nat
  otherEntries : Nat
  deriving DecidableEq, Repr

/-- The engine between two classes. -/
structure Engine where
  passes : List ClassPass
  inliner : Inliner
  supply : Supply := {}
  listings : List FailureListing := []

namespace Engine

/-- An engine without sources of classes. -/
def ofConfig (config : EngineConfig) : Engine where
  passes :=
    (if config.stripped.isEmpty then [] else [ClassPass.stripAnnotations config.stripped]) ++
      if config.inlining then [ClassPass.inlineCalls] else []
  inliner := { policy := ⟨config.trusted⟩, classPath := { capacity := config.capacity } }

/-- Adds a pass behind the others. -/
def addPass (e : Engine) (pass : ClassPass) : Engine :=
  { e with passes := e.passes ++ [pass] }

/-- Adds a source of classes behind the others. -/
def addSource (e : Engine) (source : ClassSource) : Engine :=
  { e with inliner := { e.inliner with classPath := e.inliner.classPath.append source } }

/-- The name of a file for something that is named by a text: all but letters, digits and dots is
replaced. -/
def fileNameOf (text : String) : String :=
  text.map fun c => if c.isAlphanum || c == '.' then c else '_'

/-- The listing of the method that a failure to analyse names, if the class has one. -/
def listingOf (c : Class) : Failure → Option FailureListing
  | .analysis _ signature _ => do
    let m ← c.methods.find? (·.signature == signature)
    return ⟨fileNameOf s!"{c.name}.{signature}.txt", m.listing c.name⟩
  | _ => none

/-- The listings that can have a file of their own. -/
def storableListings (e : Engine) : List FailureListing :=
  e.listings.filter fun l => PathText.isName l.fileName

/-- Runs the passes and then measures the bodies. -/
def transform (passes : List ClassPass) (c : Class) : StateM Session (Attempt Class Bool) := do
  let attempt ← ClassPass.runAll passes false c
  match attempt.result with
  | .error _ => return attempt
  | .ok changed =>
    let c := attempt.value
    let measured ← ClassPass.onBodies () (ClassPass.measure c.name) c
    return measured.map fun _ => changed

/-- Transforms a class and tells whether a pass changed it. -/
def processClass (c : Class) : StateM Engine (Attempt Class Bool) := do
  let e ← get
  let (attempt, session) := (transform e.passes c).run { inliner := e.inliner, supply := e.supply }
  let listing := match attempt.result with
    | .error failure => listingOf attempt.value failure
    | .ok _ => none
  set { e with
    inliner := session.inliner
    supply := session.supply
    listings := e.listings ++ listing.toList }
  return attempt

/-- Transforms classes until one fails. -/
def processEach (classes : List Class) : StateM Engine (Attempt (List Class) (List Bool)) :=
  Attempt.forEach processClass classes

/-- Transforms classes until one fails, and counts those that were changed. -/
def processClasses (classes : List Class) : StateM Engine (Attempt (List Class) Nat) := do
  return (← processEach classes).map fun changed => changed.count true

/-- The class file of a class. -/
def encodeClass (e : Engine) (c : Class) : Except Failure Bytes :=
  c.encode e.inliner.classPath.header?

/-- Takes identities from the supply of the engine, and may fail. -/
def tryFresh {α : Type} (x : TryFresh α) : ExceptT Failure (StateM Engine) α := do
  match x.run (← get).supply with
  | .ok (a, supply) =>
    modify fun e => { e with supply }
    return a
  | .error failure => throw failure

/-- The classes of an archive. -/
def readClasses (a : Archive) : ExceptT Failure (StateM Engine) (List Class) :=
  a.classes.mapM fun entry => tryFresh (Class.parse entry.data)

/-- What is reported about an archive of which some classes were changed. -/
def report (a : Archive) (changed : List Bool) : ArchiveReport where
  classes := changed.length
  changed := changed.count true
  otherEntries := a.entries.length - changed.length

/-- Transforms the classes of an archive. -/
def transformClasses (a : Archive) : ExceptT Failure (StateM Engine) (List Class × List Bool) := do
  let classes ← readClasses a
  let attempt ← (processEach classes : StateM Engine _)
  match attempt.result with
  | .ok changed => return (attempt.value, changed)
  | .error failure => throw failure

/-- Transforms the classes of an archive and reports on it. -/
def processArchive (a : Archive) : ExceptT Failure (StateM Engine) (List Class × ArchiveReport) := do
  let (classes, changed) ← transformClasses a
  return (classes, report a changed)

/-- Puts the new files of the classes in the place of those that were changed. -/
def replaceClasses : List (Option Bytes) → List ArchiveEntry → List ArchiveEntry
  | _, [] => []
  | files, entry :: rest =>
    if entry.isClass then
      { entry with data := files.head?.join.getD entry.data } :: replaceClasses files.tail rest
    else entry :: replaceClasses files rest

/-- The archive in which the classes are transformed, and the report on it. -/
def transformArchive (a : Archive) : ExceptT Failure (StateM Engine) (Archive × ArchiveReport) := do
  let (classes, changed) ← transformClasses a
  let e ← get
  let files ← (classes.zip changed).mapM fun (c, changed) =>
    if changed then some <$> MonadExcept.ofExcept (e.encodeClass c) else pure none
  return (⟨replaceClasses files a.entries⟩, report a changed)

/-- Transforms an archive into a file. The value is what the file then holds; none means that it is
not touched. -/
def convertArchive (a : Archive) : StateM Engine (Attempt (Option Bytes) ArchiveReport) := do
  match ← (transformArchive a).run with
  | .error failure => return ⟨none, .error failure⟩
  | .ok (transformed, report) =>
    let written := transformed.encode
    return ⟨some written.value, written.result.map fun _ => report⟩

end Engine

end Bytecode
