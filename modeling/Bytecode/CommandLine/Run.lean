import Bytecode.CommandLine.Arguments
import Bytecode.CommandLine.Report
import Bytecode.Engine.Process
import Bytecode.FileTree

/-!
# Commands

`run` carries out a command line on a tree of files. `inspect` shows the methods of transformed
classes, `convert` writes such classes, and `check` looks for methods that cannot be analysed or
transformed. Files whose name ends in `.class` are read as classes, all others as archives.

A command that fails keeps what it has written until then.
-/

namespace Bytecode.CommandLine

/-- Work on a tree of files that can fail. -/
abbrev Work := ExceptT CommandError (StateM FileTree)

/-- A result, or an error that tells what could not be done. -/
def orFail {α : Type} (context : String) : Except Failure α → Work α
  | .ok a => return a
  | .error failure => throw { context, cause := failure }

/-- The parts of the text of a path that name something. -/
def partsOf (path : String) : List String :=
  (path.splitOn "/").filter fun part => part != "" && part != "."

/-- The name of the file that a path leads to. -/
def fileName? (path : String) : Option String :=
  (partsOf path).getLast?.filter (· != "..")

/-- The name of a file in reports. -/
def displayName (path : String) : String :=
  (fileName? path).getD path

/-- Whether a path is that of a class: its file name ends in `.class` and has something in front. -/
def isClassFile (path : String) : Bool :=
  (fileName? path).any fun name => name.endsWith ".class" && name != ".class"

/-- The contents of a file. -/
def readFile (path : String) : StateM FileTree (Except Failure Bytes) := do
  match (← get).fileAt? path with
  | some data => return .ok data
  | none => return .error (.file "the file cannot be read")

/-- Writes a file. -/
def writeFile (path : String) (data : Bytes) : StateM FileTree (Except Failure Unit) := do
  match (← get).write path data with
  | some tree =>
    set tree
    return .ok ()
  | none => return .error (.file "the file cannot be written")

/-- The classes of a file, with identities from a supply. -/
def loadClasses (path : String) : StateT Supply Work (List Class) := do
  let data ← (readFile path : StateM FileTree _)
  let parse (context : String) (data : Bytes) : StateT Supply Work Class := fun supply =>
    orFail context ((Class.parse data).run supply)
  if isClassFile path then
    let context := s!"failed to read class file: {path}"
    return [← parse context (← orFail context data)]
  let archive ← orFail s!"failed to open archive: {path}" (data >>= Archive.decode)
  archive.classes.mapM fun entry => parse s!"failed to read {path}!{entry.name}" entry.data

/-- The source of classes at a path. -/
def sourceAt (path : String) : StateM FileTree (Except Failure ClassSource) := do
  let tree ← get
  match tree.directoryAt? path with
  | some place => return .ok (.directory path (tree.below place))
  | none => return (← readFile path) >>= ClassSource.ofArchive path

/-- An engine that looks for classes at given paths. -/
def buildEngine (config : EngineConfig) (classPath : List String) : Work Engine :=
  classPath.foldlM (fun engine path => do
    let source ← (sourceAt path : StateM FileTree _)
    return engine.addSource (← orFail s!"invalid classpath entry: {path}" source)) (.ofConfig config)

/-- What the engine does for a user. Unless something else is said, only surrogates are trusted. -/
def configOf (options : TransformOptions) : EngineConfig where
  trusted := if options.trusted.isEmpty then [TrustPolicy.surrogateNamespace] else options.trusted
  inlining := options.inlining

/-- Writes listings into a directory. A listing that cannot be written is given up. -/
def writeListings (directory : Option String) (engine : Engine) : StateM FileTree Unit :=
  directory.forM fun path => engine.listings.forM fun l => modify fun tree =>
    tree.offer path l.fileName l.listing.toUTF8.toList

/-- Runs an engine, writes its listings, and returns its result. -/
def runEngine {α : Type} (directory : Option String) (x : StateM Engine α) (engine : Engine) :
    StateM FileTree (α × Engine) := do
  let (a, engine) := x.run engine
  writeListings directory engine
  return (a, engine)

/-- What is shown of a method. -/
def reportMethod (c : Class) (m : Method) : MethodReport where
  className := c.name
  signature := m.signature
  maxStack := m.maxStack.map UInt16.toNat
  maxLocals := m.maxLocals.toNat
  listing := linesOf (m.listing c.name)

/-- Transforms the classes of a file and shows their methods. -/
def inspect (path : String) (method : Option String) (options : TransformOptions) :
    Work InspectReport := do
  let (classes, supply) ← (loadClasses path).run {}
  let engine ← buildEngine (configOf options) options.classPath
  let (attempt, _) ← (runEngine options.listings (Engine.processClasses classes)
    { engine with supply } : StateM FileTree _)
  let changed ← orFail s!"rewriting failed for: {path}" attempt.result
  let methods := attempt.value.flatMap fun c =>
    (c.methods.filter fun m => method.all (· == m.name)).map (reportMethod c)
  return { file := displayName path, classes := attempt.value.length, changed, methods }

/-- Transforms a class into a file. -/
def convertClass (input output : String) (listings : Option String) (engine : Engine) :
    Work ArchiveReport := do
  let data ← orFail s!"failed to read class file: {input}" (← (readFile input : StateM FileTree _))
  let (c, supply) ← orFail s!"failed to read class file: {input}" ((Class.parse data).run engine.supply)
  let (attempt, engine) ← (runEngine listings (Engine.processClass c)
    { engine with supply } : StateM FileTree _)
  let changed ← orFail s!"rewriting failed for: {input}" attempt.result
  let file ← orFail s!"failed to encode {c.name}" (engine.encodeClass attempt.value)
  orFail s!"failed to write {output}" (← (writeFile output file : StateM FileTree _))
  return { classes := 1, changed := changed.toNat, otherEntries := 0 }

/-- Transforms an archive into a file. -/
def convertArchive (input output : String) (listings : Option String) (engine : Engine) :
    Work ArchiveReport := do
  let data ← (readFile input : StateM FileTree _)
  let archive ← orFail s!"failed to open archive: {input}" (data >>= Archive.decode)
  let (attempt, _) ← (runEngine listings (Engine.convertArchive archive) engine : StateM FileTree _)
  let context := s!"converting {input} failed"
  if let some file := attempt.value then
    orFail context (← (writeFile output file : StateM FileTree _))
  orFail context attempt.result

/-- Transforms a class or an archive into a file. An archive is searched for classes, too, behind
the other places. -/
def convert (input output : String) (options : TransformOptions) : Work ConvertReport := do
  let places := options.classPath ++ if isClassFile input then [] else [input]
  let engine ← buildEngine (configOf options) places
  let work := if isClassFile input then convertClass else convertArchive
  let report ← work input output options.listings engine
  return {
    input := displayName input
    output
    classes := report.classes
    changed := report.changed
    otherEntries := report.otherEntries }

/-- Analyses the methods of a class that have a body. -/
def analyseMethods (c : Class) : List Finding :=
  c.methods.filterMap fun m =>
    if m.body.isEmpty then none
    else match Analysis.analyze c.name m with
      | .ok _ => none
      | .error failure => some
        { className := c.name, method := m.signature, stage := .analysis, message := failure.message }

/-- Checks a class: its methods, and if these are sound, its transformation. -/
def checkClass (c : Class) : StateM Engine (List Finding) := do
  match analyseMethods c with
  | [] =>
    match (← Engine.processClass c).result with
    | .ok _ => return []
    | .error failure =>
      return [{
        className := c.name
        method := none
        stage := .transformation
        message := failure.message }]
  | findings => return findings

/-- Checks the classes of a file. -/
def check (path : String) (classPath : List String) : Work CheckReport := do
  let (classes, supply) ← (loadClasses path).run {}
  let engine ← buildEngine {} classPath
  let (findings, _) := (classes.mapM checkClass).run { engine with supply }
  return {
    file := displayName path
    classes := classes.length
    methods := total (fun c => c.methods.countP fun m => !m.body.isEmpty) classes
    findings := findings.flatten }

/-- What a command line leads to: the files as they are then, what is printed, and why it failed. -/
structure Outcome where
  files : FileTree
  printed : String := ""
  refusal : Option Refusal := none
  error : Option CommandError := none
  deriving Repr

/-- The exit code of an outcome. -/
def Outcome.exitCode (o : Outcome) : Nat :=
  if o.refusal = some .misuse then 2 else if o.error.isSome then 1 else 0

/-- A report in the form that was asked for. -/
def printed (json : Bool) (asJson : Text.Json) (asLines : List String) : String :=
  if json then asJson.render 0 ++ "\n" else unlines asLines

/-- Carries out a command. Together with what is printed stands the error that is reported after
that. -/
def perform (i : Invocation) : Work (String × Option CommandError) := do
  match i.command with
  | .inspect path method options =>
    let r ← inspect path method options
    return (printed i.json (r.json) r.lines, none)
  | .convert input output options =>
    let r ← convert input output options
    return (printed i.json r.json r.lines, none)
  | .check path classPath =>
    let r ← check path classPath
    let error : CommandError := { context := s!"{r.findings.length} failure(s) in {path}" }
    return (printed i.json r.json r.lines, if r.isValid then none else some error)

/-- What is printed when the version is asked for. -/
def versionText : String := "dekotlin 0.1.0\n"

/-- How the program is called. -/
def usageText : String :=
  "Usage: dekotlin [--json] [--verbose] <command>\n\n" ++
  "  inspect [options] <path>            show the methods of transformed classes\n" ++
  "  convert [options] <input> <output>  write transformed classes\n" ++
  "  check [options] <path>              find methods that cannot be analysed or transformed\n\n" ++
  "Options:\n\n" ++
  "  -c, --classpath <path>  look for classes here, too\n" ++
  "  -m, --method <name>     show only methods of this name\n" ++
  "      --trust <name>      inline calls of classes whose names start like this\n" ++
  "      --no-inline         do not inline calls\n" ++
  "      --dump <directory>  write listings of failing methods here\n"

/-- What is printed instead of the report of a command. -/
def Refusal.text : Refusal → String
  | misuse => ""
  | help => usageText
  | version => versionText

/-- Carries out a command line. -/
def run (words : List String) (files : FileTree) : Outcome :=
  match Invocation.parse words with
  | .error refusal => { files, printed := refusal.text, refusal := some refusal }
  | .ok i =>
    match (perform i).run files with
    | (.ok (printed, error), files) => { files, printed, error }
    | (.error error, files) => { files, error := some error }

end Bytecode.CommandLine
