import Bytecode.Proofs.Coding.Encoded
import Bytecode.Proofs.Coding.Requests

/-!
# What is read from a class file

A class file bounds what it says: counts are stored in two octets and lengths in four. `Sound` states
the bounds that encoding relies on of the parts of a class that has been read, and that the octets of
its pool are those that the pool was read from.
-/

namespace Bytecode

open Reader

/-! ## Counted items -/

section Counted

variable {α : Type} {item : Reader α}

theorem mem_of_replicate {count : Nat} {c c' : Cursor} {l : List α}
    (ran : Reader.replicate item count c = .ok (l, c')) :
    ∀ v ∈ l, ∃ c₁ c₂, item c₁ = .ok (v, c₂) := by
  induction count generalizing l c with
  | zero =>
    obtain ⟨rfl, -⟩ := pure_eq_ok ran
    exact fun v member => (List.not_mem_nil member).elim
  | succ count ih =>
    obtain ⟨v, c₁, first, ran⟩ := bind_eq_ok ran
    obtain ⟨l, c₂, rest, ran⟩ := bind_eq_ok ran
    obtain ⟨rfl, rfl⟩ := pure_eq_ok ran
    intro w member
    rcases List.mem_cons.mp member with rfl | member
    · exact ⟨_, _, first⟩
    · exact ih rest w member

/-- Counted items have been read each, and there are not too many. -/
theorem of_counted {c c' : Cursor} {l : List α} (ran : Reader.counted item c = .ok (l, c')) :
    l.length < 65536 ∧ ∀ v ∈ l, ∃ c₁ c₂, item c₁ = .ok (v, c₂) := by
  obtain ⟨count, c₁, -, ran⟩ := bind_eq_ok ran
  refine ⟨?_, mem_of_replicate ran⟩
  rw [CodeContext.length_of_replicate ran]
  exact count.toNat_lt

theorem position_of_replicate {width count : Nat}
    (takes : ∀ c v c', item c = .ok (v, c') → c'.position = c.position + width) {c c' : Cursor}
    {l : List α} (ran : Reader.replicate item count c = .ok (l, c')) :
    c'.position = c.position + width * l.length := by
  induction count generalizing l c with
  | zero =>
    obtain ⟨rfl, rfl⟩ := pure_eq_ok ran
    rfl
  | succ count ih =>
    obtain ⟨v, c₁, first, ran⟩ := bind_eq_ok ran
    obtain ⟨l, c₂, rest, ran⟩ := bind_eq_ok ran
    obtain ⟨rfl, rfl⟩ := pure_eq_ok ran
    rw [ih rest, takes _ _ _ first, List.length_cons, Nat.mul_succ]
    omega

/-- Items that take a number of octets each. -/
theorem length_of_counted {width : Nat} (forward : Forward item)
    (takes : ∀ c v c', item c = .ok (v, c') → c'.position = c.position + width) {data : Bytes}
    {c' : Cursor} {l : List α}
    (ran : (Reader.counted item).run (Cursor.ofBytes data) = .ok (l, c')) :
    width * l.length ≤ data.length := by
  obtain ⟨count, c₁, counted, ran⟩ := bind_eq_ok ran
  obtain ⟨same₁, -⟩ := Forward.u16 _ _ _ counted
  obtain ⟨same₂, -⟩ := (Forward.replicate forward _) _ _ _ ran
  have moved := position_of_replicate takes ran
  have := c'.position_le
  rw [same₂, same₁] at this
  exact Nat.le_trans (moved ▸ Nat.le_add_left ..) this

end Counted

theorem LineEntry.read_takes {c c' : Cursor} {e : LineEntry} (ran : read c = .ok (e, c')) :
    c'.position = c.position + 4 := by
  obtain ⟨_, c₁, start, ran⟩ := bind_eq_ok ran
  obtain ⟨_, c₂, line, ran⟩ := bind_eq_ok ran
  obtain ⟨rfl, rfl⟩ := pure_eq_ok ran
  obtain ⟨-, -, -, moved₁, -⟩ := word_eq_ok start
  obtain ⟨-, -, -, moved₂, -⟩ := word_eq_ok line
  rw [moved₂, moved₁]
  rfl

theorem VariableEntry.read_takes {c c' : Cursor} {v : VariableEntry} (ran : read c = .ok (v, c')) :
    c'.position = c.position + 10 := by
  obtain ⟨_, c₁, start, ran⟩ := bind_eq_ok ran
  obtain ⟨_, c₂, length, ran⟩ := bind_eq_ok ran
  obtain ⟨_, c₃, name, ran⟩ := bind_eq_ok ran
  obtain ⟨_, c₄, descriptor, ran⟩ := bind_eq_ok ran
  obtain ⟨_, c₅, index, ran⟩ := bind_eq_ok ran
  obtain ⟨rfl, rfl⟩ := pure_eq_ok ran
  obtain ⟨-, -, -, moved₁, -⟩ := word_eq_ok start
  obtain ⟨-, -, -, moved₂, -⟩ := word_eq_ok length
  obtain ⟨-, -, -, moved₃, -⟩ := word_eq_ok name
  obtain ⟨-, -, -, moved₄, -⟩ := word_eq_ok descriptor
  obtain ⟨-, -, -, moved₅, -⟩ := word_eq_ok index
  rw [moved₅, moved₄, moved₃, moved₂, moved₁]
  rfl

namespace CodeAttribute

/-- The bounds of a code attribute that has been read. -/
structure Fits (a : CodeAttribute) : Prop where
  code : a.code ≠ []
  exceptions : a.exceptions.length < 65536
  lines : 4 * a.lines.length + 2 < 4294967296
  locals_ : 10 * a.localVariables.length + 2 < 4294967296

/-- What reading tables adds to a code attribute takes up the octets that are read. -/
structure Adds (a a' : CodeAttribute) (c c' : Cursor) : Prop where
  code : a'.code = a.code
  exceptions : a'.exceptions = a.exceptions
  lines : 4 * a'.lines.length + c.position ≤ 4 * a.lines.length + c'.position
  locals_ : 10 * a'.localVariables.length + c.position ≤
    10 * a.localVariables.length + c'.position

theorem adds_of_readTables {pool : ConstantPool} {a a' : CodeAttribute} {n : Nat} {c c' : Cursor}
    (ran : readTables pool a n c = .ok (a', c')) : Adds a a' c c' := by
  induction n generalizing a' c with
  | zero =>
    obtain ⟨rfl, rfl⟩ := pure_eq_ok ran
    exact ⟨rfl, rfl, Nat.le_refl _, Nat.le_refl _⟩
  | succ n ih =>
    obtain ⟨slot, c₁, named, ran⟩ := bind_eq_ok ran
    obtain ⟨name, c₂, found, ran⟩ := bind_eq_ok ran
    obtain ⟨-, rfl⟩ := lift_eq_ok found
    obtain ⟨length, c₃, counted, ran⟩ := bind_eq_ok ran
    obtain ⟨data, c₄, taken, ran⟩ := bind_eq_ok ran
    obtain ⟨-, -, -, moved₁, -⟩ := word_eq_ok named
    obtain ⟨-, -, -, moved₂, -⟩ := word_eq_ok counted
    obtain ⟨-, size, moved₃⟩ := bytes_eq_ok taken
    have moved : c.position + data.length ≤ c₄.position := by omega
    dsimp only at ran
    split at ran
    · obtain ⟨entries, c₅, lines, ran⟩ := bind_eq_ok ran
      obtain ⟨read, rfl⟩ := lift_eq_ok lines
      obtain ⟨b, c₆, rest, ran⟩ := bind_eq_ok ran
      obtain ⟨rfl, rfl⟩ := pure_eq_ok ran
      have added := ih rest
      have := added.lines
      have := added.locals_
      have := length_of_counted (Forward.u16.bind fun _ => Forward.u16.bind fun _ => .pure _)
        (fun _ _ _ => LineEntry.read_takes) read
      refine ⟨added.code, added.exceptions, ?_, ?_⟩
      · rw [List.length_append]
        omega
      · show 10 * b.localVariables.length + _ ≤ _
        omega
    · obtain ⟨entries, c₅, locals_, ran⟩ := bind_eq_ok ran
      obtain ⟨read, rfl⟩ := lift_eq_ok locals_
      obtain ⟨b, c₆, rest, ran⟩ := bind_eq_ok ran
      obtain ⟨rfl, rfl⟩ := pure_eq_ok ran
      have added := ih rest
      have := added.lines
      have := added.locals_
      have := length_of_counted (Forward.u16.bind fun _ => Forward.u16.bind fun _ =>
        Forward.u16.bind fun _ => Forward.u16.bind fun _ => Forward.u16.bind fun _ => .pure _)
        (fun _ _ _ => VariableEntry.read_takes) read
      refine ⟨added.code, added.exceptions, ?_, ?_⟩
      · show 4 * b.lines.length + _ ≤ _
        omega
      · rw [List.length_append]
        omega
    · obtain ⟨entries, c₅, types, ran⟩ := bind_eq_ok ran
      obtain ⟨read, rfl⟩ := lift_eq_ok types
      obtain ⟨b, c₆, rest, ran⟩ := bind_eq_ok ran
      obtain ⟨rfl, rfl⟩ := pure_eq_ok ran
      have added := ih rest
      have := added.lines
      have := added.locals_
      refine ⟨added.code, added.exceptions, ?_, ?_⟩
      · show 4 * b.lines.length + _ ≤ _
        omega
      · show 10 * b.localVariables.length + _ ≤ _
        omega
    · have added := ih ran
      have := added.lines
      have := added.locals_
      refine ⟨added.code, added.exceptions, ?_, ?_⟩ <;> omega

theorem readTables_forward (pool : ConstantPool) (a : CodeAttribute) (n : Nat) :
    Forward (readTables pool a n) := by
  induction n with
  | zero => exact .pure a
  | succ n ih =>
    refine Forward.u16.bind fun _ => (Forward.lift _).bind fun name => (Forward.word UInt32).bind
      fun _ => (Forward.bytes _).bind fun _ => ?_
    dsimp only
    split
    · exact (Forward.lift _).bind fun _ => ih.bind fun _ => .pure _
    · exact (Forward.lift _).bind fun _ => ih.bind fun _ => .pure _
    · exact (Forward.lift _).bind fun _ => ih.bind fun _ => .pure _
    · exact ih

/-- What has been read fits its octets. -/
theorem fits_of_read {pool : ConstantPool} {data : Bytes} {a : CodeAttribute} {c' : Cursor}
    (size : data.length < 4294967296)
    (ran : (read pool).run (Cursor.ofBytes data) = .ok (a, c')) : a.Fits := by
  obtain ⟨maxStack, c₁, stack, ran⟩ := bind_eq_ok ran
  obtain ⟨maxLocals, c₂, locals_, ran⟩ := bind_eq_ok ran
  obtain ⟨length, c₃, counted, ran⟩ := bind_eq_ok ran
  obtain ⟨sound, ran⟩ := guard_eq_ok ran
  obtain ⟨code, c₄, taken, ran⟩ := bind_eq_ok ran
  obtain ⟨exceptions, c₅, ranges, ran⟩ := bind_eq_ok ran
  obtain ⟨count, c₆, tables, ran⟩ := bind_eq_ok ran
  obtain ⟨same₁, behind₁⟩ := Forward.u16 _ _ _ stack
  obtain ⟨same₂, behind₂⟩ := Forward.u16 _ _ _ locals_
  obtain ⟨same₃, -⟩ := (Forward.word UInt32) _ _ _ counted
  obtain ⟨same₄, behind₄⟩ := Forward.bytes _ _ _ _ taken
  obtain ⟨-, -, -, moved₃, -⟩ := word_eq_ok counted
  obtain ⟨-, filled, -⟩ := bytes_eq_ok taken
  have entry : Forward ExceptionEntry.read := Forward.u16.bind fun _ => Forward.u16.bind fun _ =>
    Forward.u16.bind fun _ => Forward.u16.bind fun _ => .pure _
  obtain ⟨same₅, behind₅⟩ := (Forward.u16.bind fun _ => entry.replicate _) _ _ _ ranges
  obtain ⟨same₆, behind₆⟩ := Forward.u16 _ _ _ tables
  obtain ⟨same₇, -⟩ := readTables_forward pool _ _ _ _ _ ran
  have added := adds_of_readTables ran
  have inside : c'.position ≤ data.length := by
    have := c'.position_le
    rwa [same₇, same₆, same₅, same₄, same₃, same₂, same₁] at this
  have started : 4 ≤ c₆.position := by
    have : Word.width UInt32 = 4 := rfl
    omega
  have lines := added.lines
  have variables_ := added.locals_
  constructor
  · rw [added.code]
    rintro rfl
    rw [not_or] at sound
    exact sound.1 filled.symm
  · rw [added.exceptions]
    exact (of_counted ranges).1
  · change 4 * a.lines.length + c₆.position ≤ 0 + c'.position at lines
    omega
  · change 10 * a.localVariables.length + c₆.position ≤ 0 + c'.position at variables_
    omega

end CodeAttribute

/-! ## Classes -/

/-- What encoding relies on of a class that has been read. -/
structure StoredClass.Sound (s : StoredClass) : Prop where
  pool : ∀ position, Reads ConstantPool.read position s.poolBytes s.pool
  bootstraps : ∀ m ∈ s.bootstraps, m.Storable
  code : ∀ m ∈ s.methods, ∀ a, m.code = some a → a.Fits

/-- The octets of an attribute are bounded by their length. -/
theorem Attribute.length_of_read {pool : ConstantPool} {c c' : Cursor} {a : Attribute}
    (ran : read pool c = .ok (a, c')) : a.data.length < 4294967296 := by
  obtain ⟨slot, c₁, -, ran⟩ := bind_eq_ok ran
  obtain ⟨length, c₂, -, ran⟩ := bind_eq_ok ran
  obtain ⟨data, c₃, taken, ran⟩ := bind_eq_ok ran
  obtain ⟨name, c₄, -, ran⟩ := bind_eq_ok ran
  obtain ⟨rfl, rfl⟩ := pure_eq_ok ran
  obtain ⟨-, size, -⟩ := bytes_eq_ok taken
  exact size ▸ length.toNat_lt

theorem BootstrapMethod.storable_of_read {c c' : Cursor} {m : BootstrapMethod}
    (ran : read c = .ok (m, c')) : m.Storable := by
  obtain ⟨handle, c₁, -, ran⟩ := bind_eq_ok ran
  obtain ⟨arguments, c₂, counted, ran⟩ := bind_eq_ok ran
  obtain ⟨rfl, rfl⟩ := pure_eq_ok ran
  exact (of_counted counted).1

namespace StoredMethod

variable {pool : ConstantPool} {signature : String}

theorem fits_of_readAttributes {n : Nat} {code code' : Option CodeAttribute} {c c' : Cursor}
    {attributes : List Attribute} (before : ∀ a, code = some a → a.Fits)
    (ran : readAttributes pool signature code n c = .ok ((attributes, code'), c')) :
    ∀ a, code' = some a → a.Fits := by
  induction n generalizing code attributes c with
  | zero =>
    obtain ⟨same, rfl⟩ := pure_eq_ok ran
    obtain ⟨-, rfl⟩ := Prod.mk.inj same
    exact before
  | succ n ih =>
    obtain ⟨entry, c₁, first, ran⟩ := bind_eq_ok ran
    dsimp only at ran
    split at ran
    · obtain ⟨-, ran⟩ := guard_eq_ok ran
      obtain ⟨⟨a, behind⟩, c₂, decoded, ran⟩ := bind_eq_ok ran
      obtain ⟨body, rfl⟩ := lift_eq_ok decoded
      refine ih (fun _ same => ?_) ran
      cases same
      exact CodeAttribute.fits_of_read (Attribute.length_of_read first) body
    · obtain ⟨result, c₂, rest, ran⟩ := bind_eq_ok ran
      obtain ⟨same, rfl⟩ := pure_eq_ok ran
      obtain ⟨-, rfl⟩ := Prod.mk.inj same
      exact ih before rest

theorem fits_of_read {c c' : Cursor} {m : StoredMethod} (ran : read pool c = .ok (m, c')) :
    ∀ a, m.code = some a → a.Fits := by
  obtain ⟨access, c₁, -, ran⟩ := bind_eq_ok ran
  obtain ⟨name, c₂, -, ran⟩ := bind_eq_ok ran
  obtain ⟨descriptor, c₃, -, ran⟩ := bind_eq_ok ran
  obtain ⟨count, c₄, -, ran⟩ := bind_eq_ok ran
  obtain ⟨result, c₅, attributes, ran⟩ := bind_eq_ok ran
  obtain ⟨rfl, rfl⟩ := pure_eq_ok ran
  exact fits_of_readAttributes (fun _ none_ => by cases none_) attributes

end StoredMethod

namespace StoredClass

/-- An attribute of a class changes neither pool nor methods. -/
theorem sound_of_accept? {s s' : StoredClass} {entry : Attribute} (sound : s.Sound)
    (ran : s.accept? entry = .ok (some s')) : s'.Sound := by
  rw [accept?] at ran
  split at ran
  · obtain ⟨⟨bootstraps, behind⟩, read, ran⟩ := ok_of_bind ran
    cases ran
    refine ⟨sound.pool, fun m member => ?_, sound.code⟩
    obtain ⟨c₁, c₂, one⟩ := (of_counted read).2 m member
    exact BootstrapMethod.storable_of_read one
  · obtain ⟨annotations, -, ran⟩ := ok_of_bind ran
    cases ran
    exact ⟨sound.pool, sound.bootstraps, sound.code⟩
  · obtain ⟨annotations, -, ran⟩ := ok_of_bind ran
    cases ran
    exact ⟨sound.pool, sound.bootstraps, sound.code⟩
  · cases ran

theorem sound_of_readAttributes {s s' : StoredClass} {n : Nat} {c c' : Cursor} (sound : s.Sound)
    (ran : s.readAttributes n c = .ok (s', c')) : s'.Sound := by
  induction n generalizing s s' c with
  | zero =>
    obtain ⟨rfl, rfl⟩ := pure_eq_ok ran
    exact sound
  | succ n ih =>
    obtain ⟨entry, c₁, first, ran⟩ := bind_eq_ok ran
    obtain ⟨accepted, c₂, taken, ran⟩ := bind_eq_ok ran
    obtain ⟨took, rfl⟩ := lift_eq_ok taken
    cases accepted with
    | some s₁ => exact ih (sound_of_accept? sound took) ran
    | none =>
      obtain ⟨s₁, c₃, rest, ran⟩ := bind_eq_ok ran
      obtain ⟨rfl, rfl⟩ := pure_eq_ok ran
      have sound₁ := ih sound rest
      exact ⟨sound₁.pool, sound₁.bootstraps, sound₁.code⟩

/-- A class that has been read is sound. -/
theorem sound_of_read {c c' : Cursor} {s : StoredClass} (ran : read c = .ok (s, c')) : s.Sound := by
  obtain ⟨magic, c₁, -, ran⟩ := bind_eq_ok ran
  obtain ⟨-, ran⟩ := guard_eq_ok ran
  obtain ⟨minorVersion, c₂, -, ran⟩ := bind_eq_ok ran
  obtain ⟨majorVersion, c₃, -, ran⟩ := bind_eq_ok ran
  obtain ⟨pool, c₄, consumed, ran⟩ := bind_eq_ok ran
  obtain ⟨members, c₅, before, ran⟩ := bind_eq_ok ran
  obtain ⟨count, c₆, -, ran⟩ := bind_eq_ok ran
  obtain ⟨access, d₁, -, before⟩ := bind_eq_ok before
  obtain ⟨name, d₂, -, before⟩ := bind_eq_ok before
  obtain ⟨superName, d₃, -, before⟩ := bind_eq_ok before
  obtain ⟨interfaces, d₄, -, before⟩ := bind_eq_ok before
  obtain ⟨fields, d₅, -, before⟩ := bind_eq_ok before
  obtain ⟨methods, d₆, counted, before⟩ := bind_eq_ok before
  obtain ⟨rfl, -⟩ := pure_eq_ok before
  refine sound_of_readAttributes ⟨?_, fun m member => (List.not_mem_nil member).elim, ?_⟩ ran
  · exact ConstantPool.read_confined.of_consumed consumed
  · intro m member a some_
    obtain ⟨c₁, c₂, one⟩ := (of_counted counted).2 m member
    exact StoredMethod.fits_of_read one a some_

end StoredClass

/-! ## Bodies that have been decoded -/

theorem Node.Decoded.mapLabels {n : Node} (decoded : n.Decoded) (f : LabelId → LabelId) :
    (n.mapLabels f).Decoded := by
  cases n with
  | tableSwitch low high default targets =>
    rw [mapLabels_tableSwitch]
    exact ⟨decoded.1, (List.length_map f).trans decoded.2⟩
  | lookupSwitch default keys targets =>
    rw [mapLabels_lookupSwitch]
    exact Eq.trans decoded (List.length_map f).symm
  | _ => exact decoded

theorem Node.isLine_mapLabels (f : LabelId → LabelId) (n : Node) :
    (n.mapLabels f).isLine = n.isLine := by
  cases n with
  | tableSwitch low high default targets => rw [mapLabels_tableSwitch]; rfl
  | lookupSwitch default keys targets => rw [mapLabels_lookupSwitch]; rfl
  | _ => rfl

/-- What encoding relies on of a body that has been decoded. -/
structure Method.Encodable (m : Method) : Prop where
  some_ : m.body.isEmpty = false
  decoded : ∀ insn ∈ m.body.toList, insn.node.isPseudo = false → insn.node.Decoded
  lines : 4 * m.body.toList.countP (·.node.isLine) + 2 < 4294967296
  locals_ : 10 * m.localVariables.length + 2 < 4294967296
  exceptions : m.exceptions.length < 65536

theorem Node.isDynamic_mapLabels (f : LabelId → LabelId) (n : Node) :
    (n.mapLabels f).isDynamic = n.isDynamic := by
  cases n with
  | tableSwitch low high default targets => rw [mapLabels_tableSwitch]; rfl
  | lookupSwitch default keys targets => rw [mapLabels_lookupSwitch]; rfl
  | _ => rfl

/-- The instructions of a method that holds decoded code come from decoded instructions. -/
theorem Method.Holds.exists_decoded {m : Method} {code : DecodedCode} {f : LabelId → LabelId}
    (holds : m.Holds code f) {decoded : List (Nat × Node)} {length : Nat}
    {marked : Std.HashSet Nat} {lines : Std.HashMap Nat (List UInt16)}
    (all : DecodedNodes decoded length)
    (laidOut : code.nodes = CodeAttribute.layOut decoded length marked lines) {insn : Insn}
    (member : insn ∈ m.body.toList) (real : insn.node.isPseudo = false) :
    ∃ p ∈ decoded, insn.node = p.2.mapLabels f := by
  obtain ⟨i, inside, here⟩ := List.mem_iff_getElem.mp member
  have known : (i, insn.node) ∈ m.kept fun _ => true := by
    refine Method.mem_kept.mpr ⟨?_, rfl, real⟩
    show m.body[i]?.map Insn.node = some insn.node
    rw [← Array.getElem?_toList, List.getElem?_eq_getElem inside, here]
    rfl
  have : insn.node ∈ (decoded.map Prod.snd).map (·.mapLabels f) := by
    rw [← holds.kept all laidOut]
    exact List.mem_map.mpr ⟨_, known, rfl⟩
  obtain ⟨n, there, same⟩ := List.mem_map.mp this
  obtain ⟨p, read, rfl⟩ := List.mem_map.mp there
  exact ⟨p, read, same.symm⟩

/-- Without bootstrap methods no node of a body that has been decoded refers to one. -/
theorem Method.Holds.static {a : CodeAttribute} {pool : ConstantPool} {signature : String}
    {code : DecodedCode} (ran : a.decode pool #[] signature = .ok code) {m : Method}
    {f : LabelId → LabelId} (holds : m.Holds code f) :
    ∀ insn ∈ m.body.toList, insn.node.isDynamic = false := by
  intro insn member
  cases real : insn.node.isPseudo with
  | true =>
    cases node : insn.node <;> first
      | rfl
      | (rw [node] at real; cases real)
  | false =>
    obtain ⟨decoded, marked, lines, nodes, laidOut, -⟩ := CodeAttribute.of_decode ran
    have all : DecodedNodes decoded a.code.length :=
      .of_decodeNodes (fun method member => by simp at member) nodes
    obtain ⟨p, read, same⟩ := holds.exists_decoded all laidOut member real
    rw [same, Node.isDynamic_mapLabels]
    exact DecodedNodes.static rfl nodes p read

/-- A body that has been decoded can be encoded. -/
theorem Method.Holds.encodable {a : CodeAttribute} (fits : a.Fits) {pool : ConstantPool}
    {bootstraps : List BootstrapMethod} (storable : ∀ method ∈ bootstraps, method.Storable)
    {signature : String} {code : DecodedCode}
    (ran : a.decode pool bootstraps.toArray signature = .ok code) {m : Method}
    {f : LabelId → LabelId} (holds : m.Holds code f) : m.Encodable := by
  obtain ⟨decoded, marked, lines, nodes, laidOut, fewLines, exceptions, fewer⟩ :=
    CodeAttribute.of_decode ran
  have all : DecodedNodes decoded a.code.length :=
    .of_decodeNodes (fun method member => storable method (by simpa using member)) nodes
  have kept := holds.kept all laidOut
  have real : m.body.toList.countP (·.node.isLine) ≤ a.lines.length := by
    have := CodeAttribute.countP_layOut_le marked all lines
    rw [← laidOut] at this
    have same : m.body.toList.countP (·.node.isLine) = code.nodes.countP Node.isLine := by
      have counts := congrArg (List.countP Node.isLine) holds.nodes
      rw [List.countP_map, List.countP_map] at counts
      exact counts.trans (List.countP_congr fun n _ => by
        rw [Function.comp, Node.isLine_mapLabels])
    omega
  have bounds := fits.lines
  have bounds' := fits.locals_
  constructor
  · by_contra empty
    rw [Bool.not_eq_false, Array.isEmpty_iff] at empty
    have none_ : (m.kept fun _ => true).map Prod.snd = [] := by
      rw [Method.kept, empty]
      rfl
    rw [none_] at kept
    have := List.map_eq_nil_iff.mp (List.map_eq_nil_iff.mp kept.symm)
    exact DecodedNodes.ne_nil fits.code nodes this
  · intro insn member real
    obtain ⟨p, read, same⟩ := holds.exists_decoded all laidOut member real
    rw [same]
    exact (all.decoded p read).mapLabels f
  · omega
  · rw [holds.localVariables, List.length_map]
    omega
  · rw [holds.exceptions, List.length_map, exceptions]
    exact fits.exceptions

/-! ## Builders that writing can come to -/

/-- Whether what a class keeps of a class file was read from one. -/
def ClassOrigin.Read (origin : ClassOrigin) : Prop :=
  ∃ file source rest, StoredClass.read.run (Cursor.ofBytes file) = .ok (source, rest) ∧
    origin = ⟨source.poolBytes, source.bootstraps⟩

theorem ClassOrigin.Read.genuine {origin : ClassOrigin} (read : origin.Read) : origin.Genuine := by
  obtain ⟨file, source, rest, ran, rfl⟩ := read
  have sound := StoredClass.sound_of_read ran
  exact ⟨⟨source.pool, sound.pool⟩, sound.bootstraps⟩

namespace PoolBuilder

/-- A builder to which the first one of a class leads. -/
def Reached (b : PoolBuilder) : Prop :=
  ∃ c first, (∀ origin, c.origin = some origin → origin.Read) ∧ ofClass c = .ok first ∧ first.Leads b

/-- The first builder of a class, and the tables for which it stands: those of the class file that
the class was read from, if there is one. -/
theorem ofClass_of_genuine {c : Class}
    (genuine : ∀ origin, c.origin = some origin → origin.Genuine) :
    ∃ first t, ofClass c = .ok first ∧ first.Shows t ∧ ∀ origin, c.origin = some origin →
      t.bootstraps = origin.bootstraps.take 65536 ∧
      ∃ rest, ConstantPool.read.run (Cursor.ofBytes origin.pool) = .ok (t.pool, rest) := by
  rw [ofClass]
  cases origin : c.origin with
  | none => exact ⟨_, _, rfl, shows_empty c.name, fun _ unread => by cases unread⟩
  | some known =>
    obtain ⟨first, t, rest, begun, shows, bootstraps, read⟩ :=
      ofOrigin_of_genuine c.name (genuine known origin)
    refine ⟨first, t, begun, shows, fun origin same => ?_⟩
    cases same
    exact ⟨bootstraps, rest, read⟩

/-- A builder that has been reached stands for tables. -/
theorem Reached.shows {b : PoolBuilder} (reached : b.Reached) : ∃ t, b.Shows t := by
  obtain ⟨c, first, read, ran, leads⟩ := reached
  obtain ⟨first, t, begun, shows, -⟩ := ofClass_of_genuine fun origin known =>
    (read origin known).genuine
  rw [ran] at begun
  cases begun
  obtain ⟨t', shows', -⟩ := shows.leads leads
  exact ⟨t', shows'⟩

theorem Reached.leads {b c : PoolBuilder} (reached : b.Reached) (later : b.Leads c) : c.Reached := by
  obtain ⟨k, first, read, ran, before⟩ := reached
  exact ⟨k, first, read, ran, before.trans later⟩

end PoolBuilder

end Bytecode
