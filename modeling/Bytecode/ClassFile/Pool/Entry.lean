import Bytecode.Decimal.Layout
import Bytecode.Text.Quoted

/-!
# Constant pool entries

The constant pool of a class file is a table of texts, numbers and references between its own
slots. A long or double takes two slots, of which the second is unusable.
-/

namespace Bytecode

/-- One slot of a constant pool. Floating point numbers are kept as bit patterns, references as slot
numbers. -/
inductive PoolEntry where
  | unusable
  | utf8 (text : String)
  | integer (value : Int32)
  | float (bits : UInt32)
  | long (value : Int64)
  | double (bits : UInt64)
  | classRef (name : UInt16)
  | string (text : UInt16)
  | fieldRef (owner nameAndType : UInt16)
  | methodRef (owner nameAndType : UInt16) (isInterface : Bool)
  | nameAndType (name descriptor : UInt16)
  | methodHandle (kind : UInt8) (reference : UInt16)
  | methodType (descriptor : UInt16)
  | dynamic (bootstrap nameAndType : UInt16)
  | invokeDynamic (bootstrap nameAndType : UInt16)
  | module (name : UInt16)
  | package (name : UInt16)
  deriving DecidableEq, Hashable, Repr, Inhabited

namespace PoolEntry

/-- Whether an entry takes two slots. -/
def isWide : PoolEntry → Bool
  | long _ | double _ => true
  | _ => false

/-- The text of a record in messages: its name and its fields between braces. -/
def record (name : String) (fields : List (String × String)) : String :=
  let body := ", ".intercalate (fields.map fun (field, value) => field ++ ": " ++ value)
  name ++ " \x7b " ++ body ++ " \x7d"

/-- The text of an entry in messages. -/
def describe : PoolEntry → String
  | unusable => "Unusable"
  | utf8 text => s!"Utf8({Text.quote text})"
  | integer value => s!"Integer({value.toInt})"
  | float bits => s!"Float({Decimal.Layout.diagnostic.text Floating.single bits.toNat})"
  | long value => s!"Long({value.toInt})"
  | double bits => s!"Double({Decimal.Layout.diagnostic.text Floating.double bits.toNat})"
  | classRef i => s!"Class({i.toNat})"
  | string i => s!"String({i.toNat})"
  | fieldRef i j => record "FieldRef" [("class", slot i), ("name_and_type", slot j)]
  | methodRef i j isInterface =>
    record "MethodRef" [("class", slot i), ("name_and_type", slot j),
      ("interface", toString isInterface)]
  | nameAndType i j => record "NameAndType" [("name", slot i), ("desc", slot j)]
  | methodHandle kind i =>
    record "MethodHandle" [("kind", toString kind.toNat), ("reference", slot i)]
  | methodType i => s!"MethodType({i.toNat})"
  | dynamic i j => record "Dynamic" [("bootstrap", slot i), ("name_and_type", slot j)]
  | invokeDynamic i j => record "InvokeDynamic" [("bootstrap", slot i), ("name_and_type", slot j)]
  | module i => s!"Module({i.toNat})"
  | package i => s!"Package({i.toNat})"
where
  slot (i : UInt16) : String := toString i.toNat

end PoolEntry

end Bytecode
