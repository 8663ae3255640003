import Bytecode.Proofs.Coding.Members

/-!
# What a class that has been read can be counted with

The counts in a class file have two octets. What has been read is therefore not too much to be
counted again, also where the attributes that a class keeps in fields of its own are written anew:
every one of them stood in the file.
-/

namespace Bytecode

open Reader

namespace TryFresh

variable {α β : Type} {f : α → TryFresh β} {l : List α}

/-- What a computation on every element of a list has returned. -/
theorem of_mapM {results : List β} {supply supply' : Supply}
    (ran : (l.mapM f).run supply = .ok (results, supply')) :
    List.Forall₂ (fun a b => ∃ before after, (f a).run before = .ok (b, after)) l results := by
  induction l generalizing results supply with
  | nil =>
    cases ran
    exact .nil
  | cons a l ih =>
    rw [List.mapM_cons] at ran
    obtain ⟨⟨b, between⟩, first, ran⟩ := ok_of_bind ran
    obtain ⟨⟨bs, after⟩, rest, ran⟩ := ok_of_bind ran
    cases ran
    exact .cons ⟨supply, between, first⟩ (ih rest)

/-- A computation that succeeds on every element of a list succeeds on the list. -/
theorem exists_mapM {P : α → β → Prop}
    (each : ∀ a ∈ l, ∀ supply, ∃ b supply', (f a).run supply = .ok (b, supply') ∧ P a b)
    (supply : Supply) : ∃ results supply', (l.mapM f).run supply = .ok (results, supply') ∧
      List.Forall₂ P l results := by
  induction l generalizing supply with
  | nil => exact ⟨[], supply, rfl, .nil⟩
  | cons a l ih =>
    obtain ⟨b, between, first, right⟩ := each a List.mem_cons_self supply
    obtain ⟨bs, after, rest, all⟩ :=
      ih (fun a member => each a (List.mem_cons_of_mem _ member)) between
    refine ⟨b :: bs, after, ?_, .cons right all⟩
    rw [List.mapM_cons]
    show ((f a).run supply >>= fun p => (l.mapM f).run p.2 >>= _) = _
    rw [first]
    show ((l.mapM f).run between >>= _) = _
    rw [rest]
    rfl

end TryFresh

namespace StoredMethod

variable {pool : ConstantPool} {signature : String}

/-- The attributes of a method that has been read, with its code, can be counted. -/
structure Bounded (m : StoredMethod) : Prop where
  few : m.attributes.length + (if m.code.isSome then 1 else 0) < 65536
  others : ∀ a ∈ m.attributes, a.name ≠ "Code"

theorem bounded_of_readAttributes {n : Nat} {code code' : Option CodeAttribute} {c c' : Cursor}
    {attributes : List Attribute}
    (ran : readAttributes pool signature code n c = .ok ((attributes, code'), c')) :
    attributes.length + (if code'.isSome then 1 else 0) ≤ n + (if code.isSome then 1 else 0) ∧
      ∀ a ∈ attributes, a.name ≠ "Code" := by
  induction n generalizing code attributes c with
  | zero =>
    obtain ⟨same, rfl⟩ := pure_eq_ok ran
    obtain ⟨rfl, rfl⟩ := Prod.mk.inj same
    simp
  | succ n ih =>
    obtain ⟨entry, c₁, first, ran⟩ := bind_eq_ok ran
    dsimp only at ran
    split at ran
    · obtain ⟨once, ran⟩ := guard_eq_ok ran
      obtain ⟨⟨a, behind⟩, c₂, decoded, ran⟩ := bind_eq_ok ran
      obtain ⟨few, others⟩ := ih ran
      simp only [Option.isSome_some, if_true] at few
      rw [if_neg once]
      exact ⟨by omega, others⟩
    · rename_i other
      obtain ⟨result, c₂, rest, ran⟩ := bind_eq_ok ran
      obtain ⟨same, rfl⟩ := pure_eq_ok ran
      obtain ⟨rfl, rfl⟩ := Prod.mk.inj same
      obtain ⟨few, others⟩ := ih rest
      refine ⟨?_, List.forall_mem_cons.mpr ⟨other, others⟩⟩
      rw [List.length_cons]
      omega

theorem bounded_of_read {c c' : Cursor} {m : StoredMethod} (ran : read pool c = .ok (m, c')) :
    m.Bounded := by
  obtain ⟨access, c₁, -, ran⟩ := bind_eq_ok ran
  obtain ⟨name, c₂, -, ran⟩ := bind_eq_ok ran
  obtain ⟨descriptor, c₃, -, ran⟩ := bind_eq_ok ran
  obtain ⟨count, c₄, -, ran⟩ := bind_eq_ok ran
  obtain ⟨result, c₅, attributes, ran⟩ := bind_eq_ok ran
  obtain ⟨rfl, rfl⟩ := pure_eq_ok ran
  obtain ⟨few, others⟩ := bounded_of_readAttributes attributes
  have := count.toNat_lt
  simp only [Option.isSome_none, Bool.false_eq_true, if_false] at few
  refine ⟨?_, others⟩
  show result.1.length + (if result.2.isSome then 1 else 0) < 65536
  omega

/-- What a method is decoded to: its header, and its code if it has any. -/
theorem of_decode {m : StoredMethod} {bootstraps : Array BootstrapMethod} {supply supply' : Supply}
    {result : Method} (ran : (m.decode pool bootstraps).run supply = .ok (result, supply')) :
    (result.access = m.access ∧ result.name = m.name ∧ result.descriptor = m.descriptor ∧
      result.attributes = m.attributes) ∧ (m.code = none → result.body = #[]) ∧
      ∀ a, m.code = some a → ∃ header : Method, ∃ code supply₁,
        a.decode pool bootstraps header.signature = .ok code ∧
        result = ((header.withCode a code).run supply₁).1 := by
  cases present : m.code with
  | none =>
    simp only [decode, present] at ran
    cases ran
    exact ⟨⟨rfl, rfl, rfl, rfl⟩, fun _ => rfl, nofun⟩
  | some a =>
    let header : Method := {
      id := ⟨supply.next⟩
      access := m.access
      name := m.name
      descriptor := m.descriptor
      attributes := m.attributes }
    simp only [decode, present] at ran
    change ((a.decode pool bootstraps header.signature >>= fun code =>
      Except.ok (code, (⟨supply.next + 1⟩ : Supply))) >>= fun p =>
        Except.ok ((header.withCode a p.1).run p.2)) = _ at ran
    obtain ⟨⟨code, supply₁⟩, first, ran⟩ := ok_of_bind ran
    obtain ⟨_, decoded, same⟩ := ok_of_bind first
    cases same
    cases ran
    refine ⟨⟨rfl, rfl, rfl, rfl⟩, nofun, fun a' same => ?_⟩
    cases same
    exact ⟨header, code, _, decoded, rfl⟩

/-- A method that has been decoded can be written, and read back. -/
theorem Bounded.writable {m : StoredMethod} (bounded : m.Bounded)
    (fits : ∀ a, m.code = some a → a.Fits) {bootstraps : List BootstrapMethod}
    (storable : ∀ method ∈ bootstraps, method.Storable) {supply supply' : Supply} {result : Method}
    (ran : (m.decode pool bootstraps.toArray).run supply = .ok (result, supply')) :
    result.Writable := by
  obtain ⟨⟨-, -, -, attributes⟩, none_, some_⟩ := of_decode ran
  have few := bounded.few
  have others := bounded.others
  rw [← attributes] at few others
  cases present : m.code with
  | none =>
    rw [present] at few
    refine ⟨?_, others, fun body => ?_⟩
    · rw [none_ present]
      exact few
    · rw [none_ present] at body
      cases body
  | some a =>
    rw [present] at few
    obtain ⟨header, code, supply₁, decoded, rfl⟩ := some_ a present
    obtain ⟨f, holds⟩ := Method.holds_withCode header a code supply₁
    have encodable := holds.encodable (fits a present) storable decoded
    refine ⟨?_, others, fun _ => encodable⟩
    rw [encodable.some_]
    exact few

/-- Without bootstrap methods no node of a method that has been decoded refers to one. -/
theorem static_of_decode {m : StoredMethod} {supply supply' : Supply} {result : Method}
    (ran : (m.decode pool #[]).run supply = .ok (result, supply')) :
    ∀ insn ∈ result.body.toList, insn.node.isDynamic = false := by
  obtain ⟨-, none_, some_⟩ := of_decode ran
  cases present : m.code with
  | none =>
    rw [none_ present]
    intro insn member
    cases member
  | some a =>
    obtain ⟨header, code, supply₁, decoded, rfl⟩ := some_ a present
    obtain ⟨f, holds⟩ := Method.holds_withCode header a code supply₁
    exact holds.static decoded

/-- A method is decoded if its code is. -/
theorem exists_decode {m : StoredMethod} {bootstraps : Array BootstrapMethod}
    (codes : ∀ a, m.code = some a → ∃ code, a.decode pool bootstraps (m.name ++ m.descriptor) = .ok code)
    (supply : Supply) :
    ∃ result supply', (m.decode pool bootstraps).run supply = .ok (result, supply') := by
  cases present : m.code with
  | none =>
    simp only [decode, present]
    exact ⟨_, _, rfl⟩
  | some a =>
    let header : Method := {
      id := ⟨supply.next⟩
      access := m.access
      name := m.name
      descriptor := m.descriptor
      attributes := m.attributes }
    obtain ⟨code, decoded⟩ := codes a present
    have decoded : a.decode pool bootstraps header.signature = .ok code := decoded
    simp only [decode, present]
    change ∃ result supply', ((a.decode pool bootstraps header.signature >>= fun code =>
      Except.ok (code, (⟨supply.next + 1⟩ : Supply))) >>= fun p =>
        Except.ok ((header.withCode a p.1).run p.2)) = .ok (result, supply')
    rw [decoded]
    exact ⟨_, _, rfl⟩

/-- A method whose code can be decoded is decoded to a method with the same header. -/
theorem Restores.decode {s : StoredMethod} {m : Method} {t : Tables} (restores : s.Restores m t)
    (supply : Supply) : ∃ result supply',
      (s.decode t.pool t.bootstraps.toArray).run supply = .ok (result, supply') ∧
      result.access = m.access ∧ result.name = m.name ∧ result.descriptor = m.descriptor ∧
        result.attributes = m.attributes := by
  obtain ⟨result, supply', ran⟩ := exists_decode (fun a present => restores.code a present _) supply
  obtain ⟨⟨access, name, descriptor, attributes⟩, -⟩ := of_decode ran
  exact ⟨result, supply', ran, access.trans restores.access, name.trans restores.name,
    descriptor.trans restores.descriptor, attributes.trans restores.attributes⟩

end StoredMethod

namespace StoredClass

/-- The attributes that a class keeps in fields of its own. -/
def interpreted : List String :=
  ["BootstrapMethods", "RuntimeVisibleAnnotations", "RuntimeInvisibleAnnotations"]

/-- The number of attributes that a class writes anew. -/
def regenerated (s : StoredClass) : Nat :=
  (if s.visibleAnnotations.isEmpty then 0 else 1) + (if s.invisibleAnnotations.isEmpty then 0 else 1) +
    (if s.bootstraps.isEmpty then 0 else 1)

/-- What has been read of a class can be counted, and its attributes are no more than a number. -/
structure Bounded (s : StoredClass) (limit : Nat) : Prop where
  interfaces : s.interfaces.length < 65536
  fields : s.fields.length < 65536 ∧ ∀ f ∈ s.fields, f.attributes.length < 65536
  methods : s.methods.length < 65536 ∧ ∀ m ∈ s.methods, m.Bounded
  visible : s.visibleAnnotations.length < 65536 ∧ ∀ a ∈ s.visibleAnnotations, a.Sound
  invisible : s.invisibleAnnotations.length < 65536 ∧ ∀ a ∈ s.invisibleAnnotations, a.Sound
  bootstraps : s.bootstraps.length < 65536
  others : ∀ a ∈ s.attributes, a.name ∉ interpreted
  few : s.attributes.length + s.regenerated ≤ limit

theorem accept?_eq_none {s : StoredClass} {entry : Attribute} :
    s.accept? entry = .ok none ↔ entry.name ∉ interpreted := by
  rw [accept?, interpreted]
  split
  · rename_i same
    simp only [same, List.mem_cons, true_or, not_true, iff_false]
    intro ran
    obtain ⟨_, -, ran⟩ := ok_of_bind ran
    cases ran
  · rename_i same
    simp only [same, List.mem_cons, true_or, or_true, not_true, iff_false]
    intro ran
    obtain ⟨_, -, ran⟩ := ok_of_bind ran
    cases ran
  · rename_i same
    simp only [same, List.mem_cons, true_or, or_true, not_true, iff_false]
    intro ran
    obtain ⟨_, -, ran⟩ := ok_of_bind ran
    cases ran
  · rename_i first second third
    simp only [List.mem_cons, List.not_mem_nil, or_false, not_or]
    exact ⟨fun _ => ⟨first, second, third⟩, fun _ => rfl⟩

theorem bounded_of_accept? {s s' : StoredClass} {entry : Attribute} {limit : Nat}
    (bounded : s.Bounded limit) (ran : s.accept? entry = .ok (some s')) : s'.Bounded (limit + 1) := by
  have few := bounded.few
  simp only [regenerated] at few
  rw [accept?] at ran
  split at ran
  · obtain ⟨⟨bootstraps, behind⟩, read, ran⟩ := ok_of_bind ran
    cases ran
    refine ⟨bounded.interfaces, bounded.fields, bounded.methods, bounded.visible, bounded.invisible,
      (of_counted read).1, bounded.others, ?_⟩
    simp only [regenerated]
    split_ifs at few ⊢ <;> omega
  · obtain ⟨annotations, read, ran⟩ := ok_of_bind ran
    cases ran
    refine ⟨bounded.interfaces, bounded.fields, bounded.methods, AnnotationUse.sound_of_readAll read,
      bounded.invisible, bounded.bootstraps, bounded.others, ?_⟩
    simp only [regenerated]
    split_ifs at few ⊢ <;> omega
  · obtain ⟨annotations, read, ran⟩ := ok_of_bind ran
    cases ran
    refine ⟨bounded.interfaces, bounded.fields, bounded.methods, bounded.visible,
      AnnotationUse.sound_of_readAll read, bounded.bootstraps, bounded.others, ?_⟩
    simp only [regenerated]
    split_ifs at few ⊢ <;> omega
  · cases ran

theorem bounded_of_readAttributes {s s' : StoredClass} {n limit : Nat} {c c' : Cursor}
    (bounded : s.Bounded limit) (ran : s.readAttributes n c = .ok (s', c')) :
    s'.Bounded (limit + n) := by
  induction n generalizing s s' limit c with
  | zero =>
    obtain ⟨rfl, rfl⟩ := pure_eq_ok ran
    exact bounded
  | succ n ih =>
    obtain ⟨entry, c₁, first, ran⟩ := bind_eq_ok ran
    obtain ⟨accepted, c₂, taken, ran⟩ := bind_eq_ok ran
    obtain ⟨took, rfl⟩ := lift_eq_ok taken
    cases accepted with
    | some s₁ =>
      have := ih (bounded_of_accept? bounded took) ran
      rwa [Nat.add_right_comm] at this
    | none =>
      obtain ⟨s₁, c₃, rest, ran⟩ := bind_eq_ok ran
      obtain ⟨rfl, rfl⟩ := pure_eq_ok ran
      have bounded₁ := ih bounded rest
      refine ⟨bounded₁.interfaces, bounded₁.fields, bounded₁.methods, bounded₁.visible,
        bounded₁.invisible, bounded₁.bootstraps, List.forall_mem_cons.mpr ⟨accept?_eq_none.mp took, bounded₁.others⟩, ?_⟩
      have few := bounded₁.few
      show s₁.attributes.length + 1 + s₁.regenerated ≤ _
      omega

/-- What has been read from a class file can be counted. -/
theorem bounded_of_read {c c' : Cursor} {s : StoredClass} (ran : read c = .ok (s, c')) :
    s.Bounded 65535 := by
  obtain ⟨magic, c₁, -, ran⟩ := bind_eq_ok ran
  obtain ⟨-, ran⟩ := guard_eq_ok ran
  obtain ⟨minorVersion, c₂, -, ran⟩ := bind_eq_ok ran
  obtain ⟨majorVersion, c₃, -, ran⟩ := bind_eq_ok ran
  obtain ⟨pool, c₄, -, ran⟩ := bind_eq_ok ran
  obtain ⟨members, c₅, before, ran⟩ := bind_eq_ok ran
  obtain ⟨count, c₆, -, ran⟩ := bind_eq_ok ran
  obtain ⟨access, d₁, -, before⟩ := bind_eq_ok before
  obtain ⟨name, d₂, -, before⟩ := bind_eq_ok before
  obtain ⟨superName, d₃, -, before⟩ := bind_eq_ok before
  obtain ⟨interfaces, d₄, counted, before⟩ := bind_eq_ok before
  obtain ⟨fields, d₅, counted', before⟩ := bind_eq_ok before
  obtain ⟨methods, d₆, counted'', before⟩ := bind_eq_ok before
  obtain ⟨rfl, -⟩ := pure_eq_ok before
  have bounded : s.Bounded (0 + count.toNat) := bounded_of_readAttributes ?_ ran
  · have := count.toNat_lt
    exact { bounded with few := by have := bounded.few; omega }
  refine ⟨(of_counted counted).1, ⟨(of_counted counted').1, fun f member => ?_⟩,
    ⟨(of_counted counted'').1, fun m member => ?_⟩, ⟨Nat.zero_lt_succ _, nofun⟩,
    ⟨Nat.zero_lt_succ _, nofun⟩, Nat.zero_lt_succ _, nofun, ?_⟩
  · obtain ⟨c₁, c₂, one⟩ := (of_counted counted').2 f member
    obtain ⟨access, c₃, -, one⟩ := bind_eq_ok one
    obtain ⟨name, c₄, -, one⟩ := bind_eq_ok one
    obtain ⟨descriptor, c₅, -, one⟩ := bind_eq_ok one
    obtain ⟨attributes, c₆, listed, one⟩ := bind_eq_ok one
    obtain ⟨rfl, rfl⟩ := pure_eq_ok one
    exact (of_counted listed).1
  · obtain ⟨c₁, c₂, one⟩ := (of_counted counted'').2 m member
    exact StoredMethod.bounded_of_read one
  · exact Nat.le_refl 0

end StoredClass

end Bytecode
