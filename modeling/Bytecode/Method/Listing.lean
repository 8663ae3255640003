import Bytecode.Method

/-!
# Listings

A listing shows a method as text, one node a line, for reading and for dumps of methods that could
not be processed. Labels are numbered in the order of their nodes; a label with several nodes has
the last number, and one without a node is shown as `L?`.
-/

namespace Bytecode

namespace Constant

/-- The text of a constant in a listing. -/
def listing : Constant → String
  | int value => toString value.toInt
  | float bits => Decimal.Layout.listing.text Floating.single bits.toNat ++ "F"
  | long value => toString value.toInt ++ "L"
  | double bits => Decimal.Layout.listing.text Floating.double bits.toNat ++ "D"
  | string text => Text.quote text
  | classRef name => name ++ ".class"
  | methodType descriptor => descriptor
  | handle h => s!"{h.owner}.{h.name}{h.descriptor} ({h.kind.toNat})"
  | dynamic name descriptor _ _ => s!"{name} : {descriptor}"

end Constant

/-- The numbers of the labels of a body. -/
def Body.labelNumbers (body : Body) : Std.HashMap LabelId Nat :=
  (body.foldl (fun (table, n) insn =>
    match insn.node with
    | .label l => (Std.HashMap.insert table l n, n + 1)
    | _ => (table, n)) (∅, 0)).1

/-- The name of a label in a listing, under the numbers of the labels that are marked. -/
def labelName (numbers : Std.HashMap LabelId Nat) (l : LabelId) : String :=
  numbers[l]?.elim "L?" fun n => s!"L{n}"

namespace Node

/-- The lines of a node in a listing, under a naming of labels. -/
def listing (label : LabelId → String) (node : Node) : List String :=
  let name := node.opcode?.elim "" Opcode.mnemonic
  match node with
  | .label l => [s!"   {label l}"]
  | line number start => [s!"    LINENUMBER {number.toNat} {label start}"]
  | simple _ => [s!"    {name}"]
  | int _ operand => [s!"    {name} {operand.toInt}"]
  | var _ slot => [s!"    {name} {slot.toNat}"]
  | type _ owner => [s!"    {name} {owner}"]
  | field _ owner member descriptor => [s!"    {name} {owner}.{member} : {descriptor}"]
  | call _ owner member descriptor isInterface =>
    let suffix := if isInterface then " (itf)" else ""
    [s!"    {name} {owner}.{member}{descriptor}{suffix}"]
  | dynamicCall member descriptor bootstrap arguments =>
    [s!"    {name} {member}{descriptor} [",
      s!"      {bootstrap.owner}.{bootstrap.name}{bootstrap.descriptor}"] ++
      arguments.map (fun a => s!"      {a.listing}") ++ ["    ]"]
  | jump _ target => [s!"    {name} {label target}"]
  | constant value => [s!"    {name} {value.listing}"]
  | increment slot amount => [s!"    {name} {slot.toNat} {amount.toInt}"]
  | tableSwitch low _ default targets =>
    let keys := (List.range targets.length).map fun i => low + Int32.ofNat i
    cases name (keys.zip targets) default
  | lookupSwitch default keys targets => cases name (keys.zip targets) default
  | newArrays descriptor dimensions => [s!"    {name} {descriptor} {dimensions.toNat}"]
where
  cases (name : String) (branches : List (Int32 × LabelId)) (default : LabelId) : List String :=
    [s!"    {name}"] ++
      branches.map (fun (key, target) => s!"      {key.toInt}: {label target}") ++
      [s!"      default: {label default}"]

end Node

namespace Method

/-- The lines of a listing. -/
def listingLines (owner : String) (m : Method) : List String :=
  let label := labelName m.body.labelNumbers
  let access := Text.hexPadded 4 m.access.toNat
  let stack := m.maxStack.elim "?" fun n => toString n.toNat
  [s!"// {owner}.{m.name}{m.descriptor} (access 0x{access})"] ++
    m.body.toList.flatMap (fun insn => insn.node.listing label) ++
    m.exceptions.map (fun r =>
      let type := r.catchType.getD "null"
      s!"    TRYCATCHBLOCK {label r.start} {label r.stop} {label r.handler} {type}") ++
    m.localVariables.map (fun v =>
      s!"    LOCALVARIABLE {v.name} {v.descriptor} {label v.start} {label v.stop} {v.index.toNat}") ++
    [s!"    MAXSTACK = {stack}", s!"    MAXLOCALS = {m.maxLocals.toNat}"]

/-- The listing of a method in a class. -/
def listing (owner : String) (m : Method) : String :=
  String.join ((m.listingLines owner).map (· ++ "\n"))

end Method

end Bytecode
