import Bytecode.Failure
import Bytecode.Text.Columns
import Bytecode.Text.Json

/-!
# Reports

What commands tell their user. Each report has two forms: lines of text, and JSON.
-/

namespace Bytecode.CommandLine

open Text (Json Column)

/-- The lines of a text. A line ends with a line feed, which a carriage return may precede. -/
def linesOf (text : String) : List String :=
  let parts := text.splitOn "\n"
  let ended := parts.dropLast.map fun line =>
    String.ofList (if line.toList.getLast? = some '\r' then line.toList.dropLast else line.toList)
  ended ++ match parts.getLast? with
    | none | some "" => []
    | some last => [last]

/-- Lines as a text. -/
def unlines (lines : List String) : String :=
  String.join (lines.map (· ++ "\n"))

/-- Lines that describe a method. -/
structure MethodReport where
  className : String
  signature : String
  maxStack : Option Nat
  maxLocals : Nat
  listing : List String
  deriving DecidableEq, Repr

/-- What is reported about inspected classes. -/
structure InspectReport where
  file : String
  classes : Nat
  changed : Nat
  methods : List MethodReport
  deriving DecidableEq, Repr

namespace InspectReport

/-- The columns of the table of methods. -/
def columns : List Column :=
  [{ title := "Class" }, { title := "Method" }, { title := "Stack", atRight := true },
    { title := "Locals", atRight := true }]

/-- The report as lines of text. -/
def lines (r : InspectReport) : List String :=
  r.methods.flatMap (fun m => m.listing ++ [""]) ++
    Text.table columns (r.methods.map fun m =>
      [m.className, m.signature, m.maxStack.elim "-" toString, toString m.maxLocals]) ++
    ["", s!"{r.file}: {r.classes} class(es), {r.changed} changed, {r.methods.length} method(s) shown."]

/-- The report as JSON. -/
def json (r : InspectReport) : Json :=
  .object
    [("file", .string r.file), ("classes", .number r.classes), ("changed", .number r.changed),
      ("methods", .array (r.methods.map fun m => .object
        [("class", .string m.className), ("method", .string m.signature),
          ("max_stack", m.maxStack.elim .null .number), ("max_locals", .number m.maxLocals),
          ("listing", .array (m.listing.map .string))]))]

end InspectReport

/-- What is reported about a conversion. -/
structure ConvertReport where
  input : String
  output : String
  classes : Nat
  changed : Nat
  otherEntries : Nat
  deriving DecidableEq, Repr

namespace ConvertReport

/-- The report as lines of text. -/
def lines (r : ConvertReport) : List String :=
  [s!"{r.input} -> {r.output}: {r.classes} class(es), {r.changed} changed, " ++
    s!"{r.otherEntries} other entr(ies) copied."]

/-- The report as JSON. -/
def json (r : ConvertReport) : Json :=
  .object
    [("input", .string r.input), ("output", .string r.output), ("classes", .number r.classes),
      ("changed", .number r.changed), ("other_entries", .number r.otherEntries)]

end ConvertReport

/-- A part of a check. -/
inductive CheckStage where
  | analysis
  | transformation
  deriving DecidableEq, Repr

/-- The name of a part of a check. -/
def CheckStage.name : CheckStage → String
  | analysis => "analysis"
  | transformation => "rewrite"

/-- Something that a check has found. Only an analysis is about one method. -/
structure Finding where
  className : String
  method : Option String
  stage : CheckStage
  message : String
  deriving DecidableEq, Repr

/-- What is reported about checked classes. -/
structure CheckReport where
  file : String
  classes : Nat
  methods : Nat
  findings : List Finding
  deriving DecidableEq, Repr

namespace CheckReport

/-- Whether the check has found nothing. -/
def isValid (r : CheckReport) : Bool :=
  r.findings.isEmpty

/-- The columns of the table of findings. -/
def columns : List Column :=
  [{ title := "Stage" }, { title := "Class" }, { title := "Method" }, { title := "Error" }]

/-- The report as lines of text. -/
def lines (r : CheckReport) : List String :=
  let status := if r.isValid then "PASS" else "FAIL"
  let table := if r.isValid then [] else Text.table columns (r.findings.map fun f =>
    [f.stage.name, f.className, f.method.getD "", f.message])
  s!"{status}  {r.file}  ({r.classes} classes, {r.methods} methods)" :: table.map ("  " ++ ·)

/-- The report as JSON. -/
def json (r : CheckReport) : Json :=
  let findings := r.findings.map fun f => Json.object
    ([("class", .string f.className)] ++ (f.method.elim [] fun m => [("method", .string m)]) ++
      [("stage", .string f.stage.name), ("message", .string f.message)])
  .object
    ([("file", .string r.file), ("classes", .number r.classes), ("methods", .number r.methods),
      ("valid", .bool r.isValid)] ++ if r.isValid then [] else [("failures", .array findings)])

end CheckReport

/-- Why a command fails: what could not be done, and the failure behind that, if there is one. -/
structure CommandError where
  context : String
  cause : Option Failure := none
  deriving DecidableEq, Repr

/-- The lines of a cause. Its first line follows a head, and the others are indented as far. -/
def causeLines (head cause : String) : List String :=
  (cause.splitOn "\n").mapIdx fun i line =>
    (if i = 0 then head else "".pushn ' ' head.length) ++ line

/-- The lines of causes, which are numbered if there are several. -/
def causesLines (causes : List String) : List String :=
  match causes with
  | [cause] => causeLines "    " cause
  | _ => (causes.mapIdx fun i cause => causeLines s!"    {i}: " cause).flatten

/-- The wording of an error. -/
def CommandError.message (e : CommandError) : String :=
  let causes := e.cause.elim "" fun failure =>
    "\n\nCaused by:\n" ++ "\n".intercalate (causesLines failure.chain)
  s!"Error: {e.context}{causes}\n"

end Bytecode.CommandLine
