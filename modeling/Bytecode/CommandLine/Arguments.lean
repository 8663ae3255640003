/-!
# Command lines

What a user asks for, read from the words of a command line. Words that start with a dash are
options: flags such as `--json`, and options with a value, which is the next word or follows an
equals sign. Options of one letter can be joined. Behind the word `--` nothing is an option.

Only the options that are marked so can be given twice, and paths are never empty. Some options are
answered as soon as they are read, whatever follows.
-/

namespace Bytecode.CommandLine

/-- Why the words of a command line do not lead to a command. -/
inductive Refusal where
  | misuse
  | help
  | version
  deriving DecidableEq, Repr

/-- An option that can be given. With an `answer` it ends the reading of words. -/
structure OptionForm where
  name : String
  letter : Option Char := none
  hasValue : Bool := false
  isPath : Bool := false
  repeatable : Bool := false
  answer : Option Refusal := none
  deriving DecidableEq, Repr

/-- What has been read from the words so far. An option that still waits for its value is `pending`.
-/
structure Scan where
  given : List (String × String) := []
  positional : List String := []
  pending : Option OptionForm := none
  verbatim : Bool := false
  deriving DecidableEq, Repr

namespace Scan

/-- The values of an option, in order. -/
def values (s : Scan) (name : String) : List String :=
  (s.given.filter (·.1 == name)).map Prod.snd

/-- Whether an option has been given. -/
def has (s : Scan) (name : String) : Bool :=
  s.given.any (·.1 == name)

/-- Takes an option with its value. -/
def give (s : Scan) (form : OptionForm) (value : String) : Except Refusal Scan :=
  match form.answer with
  | some answer => .error answer
  | none =>
    if s.has form.name && !form.repeatable then .error .misuse
    else if form.isPath && value.isEmpty then .error .misuse
    else .ok { s with given := s.given ++ [(form.name, value)], pending := none }

/-- Takes a word that is no option: the value of a pending option, or a positional one, of which
there are `most` at most. -/
def word (most : Nat) (s : Scan) (text : String) : Except Refusal Scan :=
  match s.pending with
  | some form => s.give form text
  | none =>
    if s.positional.length < most && !text.isEmpty then
      .ok { s with positional := s.positional ++ [text] }
    else .error .misuse

/-- Takes options of one letter that are joined. The rest of the word behind the letter of an option
with a value is that value. -/
def letters (forms : List OptionForm) : List Char → Scan → Except Refusal Scan
  | [], s => .ok s
  | c :: rest, s =>
    match forms.find? (·.letter == some c) with
    | none => .error .misuse
    | some form =>
      if form.hasValue then
        match rest with
        | [] => .ok { s with pending := some form }
        | '=' :: value => s.give form (String.ofList value)
        | value => s.give form (String.ofList value)
      else (s.give form "").bind (letters forms rest)

/-- Takes an option with a long name. -/
def long (forms : List OptionForm) (text : String) (s : Scan) : Except Refusal Scan :=
  let name := String.ofList (text.toList.takeWhile (· != '='))
  let value := String.ofList ((text.toList.dropWhile (· != '=')).drop 1)
  let hasValue := text.toList.contains '='
  match forms.find? (·.name == name) with
  | none => .error .misuse
  | some form =>
    if hasValue then if form.hasValue then s.give form value else .error .misuse
    else if form.hasValue then .ok { s with pending := some form }
    else s.give form ""

/-- Takes the next word. -/
def step (forms : List OptionForm) (most : Nat) (s : Scan) (text : String) : Except Refusal Scan :=
  if s.verbatim then s.word most text
  else match text.toList with
    | ['-', '-'] => if s.pending.isSome then .error .misuse else .ok { s with verbatim := true }
    | '-' :: '-' :: name =>
      if s.pending.isSome then .error .misuse else s.long forms (String.ofList name)
    | '-' :: c :: rest => if s.pending.isSome then .error .misuse else s.letters forms (c :: rest)
    | _ => s.word most text

/-- Reads words that hold options of given forms and exactly `count` positional ones. -/
def read (forms : List OptionForm) (count : Nat) (words : List String) : Except Refusal Scan := do
  let s ← words.foldlM (step forms count) {}
  if s.pending.isSome || s.positional.length ≠ count then throw .misuse
  return s

end Scan

/-- How classes are transformed: where they are looked for, whether calls are inlined and of which
classes, and where listings of failing methods go. -/
structure TransformOptions where
  classPath : List String := []
  inlining : Bool := true
  trusted : List String := []
  listings : Option String := none
  deriving DecidableEq, Repr

/-- What is to be done. -/
inductive Command where
  | inspect (path : String) (method : Option String) (options : TransformOptions)
  | convert (input output : String) (options : TransformOptions)
  | check (path : String) (classPath : List String)
  deriving DecidableEq, Repr

/-- A command, and whether its report is written as JSON. -/
structure Invocation where
  command : Command
  json : Bool := false
  deriving DecidableEq, Repr

namespace Invocation

/-- The options that can be given anywhere. -/
def globalForms : List OptionForm :=
  [{ name := "json" }, { name := "verbose", letter := some 'v' },
    { name := "help", letter := some 'h', answer := some .help }]

/-- The options that can be given in front of the command. -/
def frontForms : List OptionForm :=
  { name := "version", letter := some 'V', answer := some .version } :: globalForms

/-- The option that names a place where classes are looked for. -/
def classPathForm : OptionForm :=
  { name := "classpath", letter := some 'c', hasValue := true, isPath := true, repeatable := true }

/-- The options of commands that transform classes. -/
def transformForms : List OptionForm :=
  [classPathForm, { name := "no-inline" }, { name := "trust", hasValue := true, repeatable := true },
    { name := "dump", hasValue := true, isPath := true }]

/-- The option that selects methods by name. -/
def methodForm : OptionForm :=
  { name := "method", letter := some 'm', hasValue := true }

/-- What options say about transforming. -/
def transformOptions (s : Scan) : TransformOptions where
  classPath := s.values "classpath"
  inlining := !s.has "no-inline"
  trusted := s.values "trust"
  listings := (s.values "dump").head?

/-- The names of the commands. -/
def commandNames : List String :=
  ["inspect", "convert", "check", "help"]

/-- The answer to a question for help, which can be asked of one command. -/
def helpAnswer : List String → Refusal
  | [] => .help
  | [name] => if commandNames.contains name then .help else .misuse
  | _ => .misuse

/-- The command of a name, and what has been read for it. -/
def commandOf (name : String) (words : List String) : Except Refusal (Command × Scan) := do
  let read (forms : List OptionForm) (count : Nat) := Scan.read (globalForms ++ forms) count words
  let path (s : Scan) (n : Nat) : String := s.positional.getD n ""
  match name with
  | "inspect" =>
    let s ← read (methodForm :: transformForms) 1
    return (.inspect (path s 0) (s.values "method").head? (transformOptions s), s)
  | "convert" =>
    let s ← read transformForms 2
    return (.convert (path s 0) (path s 1) (transformOptions s), s)
  | "check" =>
    let s ← read [classPathForm] 1
    return (.check (path s 0) (s.values "classpath"), s)
  | "help" => throw (helpAnswer words)
  | _ => throw .misuse

/-- Whether a word stands for options and not for a command. -/
def isOption (word : String) : Bool :=
  word.startsWith "-" && word != "-"

/-- Reads the words of a command line. -/
def parse (words : List String) : Except Refusal Invocation := do
  let front ← (words.takeWhile isOption).foldlM (Scan.step frontForms 0) {}
  match words.dropWhile isOption with
  | [] => throw .misuse
  | name :: rest =>
    if front.verbatim then throw .misuse
    let (command, s) ← commandOf name rest
    return { command, json := front.has "json" || s.has "json" }

end Invocation

end Bytecode.CommandLine
