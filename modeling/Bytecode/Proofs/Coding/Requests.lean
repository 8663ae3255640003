import Bytecode.ClassFile.Pool.Builder
import Bytecode.ClassFile.Reading
import Bytecode.Proofs.Coding.Pool

/-!
# What requests to a pool builder provide

A builder stands for tables that grow: the slots of a pool and the bootstrap methods. `Shows` ties
the two together. `Provides x Q` says of a request that the tables grow by it, that the builder then
shows the grown tables, and that what the request returns satisfies `Q` there and in all tables that
grow from them. Since `Q` holds for good, requests compose without a word about what lies between.
-/

namespace Bytecode

open ConstantPool (Stored)

/-- The tables of a class file to which code refers: the slots of its pool behind the first one, and
its bootstrap methods. -/
structure Tables where
  slots : List PoolEntry
  bootstraps : List BootstrapMethod

namespace Tables

/-- The pool of the tables. -/
def pool (t : Tables) : ConstantPool :=
  .ofSlots t.slots

/-- Tables that have been added to. -/
structure Extends (t later : Tables) : Prop where
  slots : t.slots <+: later.slots
  bootstraps : t.bootstraps <+: later.bootstraps

namespace Extends

theorem refl (t : Tables) : t.Extends t :=
  ⟨List.prefix_refl _, List.prefix_refl _⟩

theorem trans {t u v : Tables} (first : t.Extends u) (second : u.Extends v) : t.Extends v :=
  ⟨first.slots.trans second.slots, first.bootstraps.trans second.bootstraps⟩

end Extends

/-- The entry of a slot is the usable one that the table has there. -/
theorem entry_eq_ok {t : Tables} {slot : UInt16} {e : PoolEntry} :
    t.pool.entry slot = .ok e ↔
      (PoolEntry.unusable :: t.slots)[slot.toNat]? = some e ∧ e ≠ .unusable := by
  have table : t.pool.entries[slot.toNat]? = (PoolEntry.unusable :: t.slots)[slot.toNat]? :=
    List.getElem?_toArray
  rw [← table, ConstantPool.entry]
  split <;> rename_i found
  · rw [found]
    simp
  · rw [found]
    constructor
    · intro absurd_
      cases absurd_
    · rintro ⟨same, usable⟩
      exact absurd (Option.some.inj same).symm usable
  · rename_i other usable
    rw [found]
    constructor
    · intro same
      cases same
      exact ⟨rfl, usable⟩
    · rintro ⟨same, -⟩
      rw [Option.some.inj same]

private theorem getElem?_grown {α : Type} {l more : List α} {i : Nat} {a : α}
    (grown : l <+: more) (found : l[i]? = some a) : more[i]? = some a := by
  obtain ⟨added, rfl⟩ := grown
  rw [List.getElem?_append_left (List.getElem?_eq_some_iff.mp found).1]
  exact found

/-- An entry stays in its slot. -/
theorem Extends.entry {t later : Tables} (h : t.Extends later) {slot : UInt16} {e : PoolEntry}
    (found : t.pool.entry slot = .ok e) : later.pool.entry slot = .ok e := by
  rw [entry_eq_ok] at found ⊢
  exact ⟨getElem?_grown ((List.prefix_cons_inj _).mpr h.slots) found.1, found.2⟩

/-- A bootstrap method keeps its index. -/
theorem Extends.bootstrap {t later : Tables} (h : t.Extends later) {i : Nat} {m : BootstrapMethod}
    (found : t.bootstraps[i]? = some m) : later.bootstraps[i]? = some m :=
  getElem?_grown h.bootstraps found

end Tables

namespace ConstantPool

variable {pool : ConstantPool} {slot : UInt16}

theorem utf8_of_entry {text : String} (found : pool.entry slot = .ok (.utf8 text)) :
    pool.utf8 slot = .ok text := by
  rw [utf8, found]
  rfl

theorem className_of_entry {name : UInt16} {text : String}
    (found : pool.entry slot = .ok (.classRef name)) (named : pool.utf8 name = .ok text) :
    pool.className slot = .ok text := by
  rw [className, found]
  exact named

theorem nameAndType_of_entry {i j : UInt16} {name descriptor : String}
    (found : pool.entry slot = .ok (.nameAndType i j)) (named : pool.utf8 i = .ok name)
    (described : pool.utf8 j = .ok descriptor) :
    pool.nameAndType slot = .ok (name, descriptor) := by
  rw [nameAndType, found]
  show (do return (← pool.utf8 i, ← pool.utf8 j)) = _
  rw [named, described]
  rfl

theorem memberOf_of_parts {i j : UInt16} {owner name descriptor : String} (isInterface : Bool)
    (owned : pool.className i = .ok owner) (named : pool.nameAndType j = .ok (name, descriptor)) :
    pool.memberOf i j isInterface = .ok ⟨owner, name, descriptor, isInterface⟩ := by
  simp only [memberOf, owned, named]
  rfl

theorem member_of_fieldRef {i j : UInt16} {m : Member}
    (found : pool.entry slot = .ok (.fieldRef i j)) (parts : pool.memberOf i j false = .ok m) :
    pool.member slot = .ok m := by
  rw [member, found]
  exact parts

theorem member_of_methodRef {i j : UInt16} {isInterface : Bool} {m : Member}
    (found : pool.entry slot = .ok (.methodRef i j isInterface))
    (parts : pool.memberOf i j isInterface = .ok m) : pool.member slot = .ok m := by
  rw [member, found]
  exact parts

theorem invokeDynamic_of_entry {bootstrap pair : UInt16} {name descriptor : String}
    (found : pool.entry slot = .ok (.invokeDynamic bootstrap pair))
    (named : pool.nameAndType pair = .ok (name, descriptor)) :
    pool.invokeDynamic slot = .ok (bootstrap, name, descriptor) := by
  rw [invokeDynamic, found]
  show (do return (bootstrap, ← pool.nameAndType pair)) = _
  rw [named]
  rfl

theorem handle_of_entry {kind : UInt8} {reference : UInt16} {m : Member}
    (found : pool.entry slot = .ok (.methodHandle kind reference))
    (referred : pool.member reference = .ok m) :
    pool.handle slot = .ok ⟨kind, m.owner, m.name, m.descriptor, m.isInterface⟩ := by
  rw [handle, found]
  show (pool.member reference >>= _) = _
  rw [referred]
  rfl

end ConstantPool

/-- Whether a bootstrap method has a stored form: its arguments have to fit their count. -/
def BootstrapMethod.Storable (m : BootstrapMethod) : Prop :=
  m.arguments.length < 65536

namespace PoolBuilder

/-- A builder stands for tables: its octets are stored slots of the pool, and what it has noted about
them is right. -/
structure Shows (b : PoolBuilder) (t : Tables) : Prop where
  stored : Stored 1 (b.source ++ b.added.toList.flatMap PoolEntry.encode) t.slots
  size : b.size = t.slots.length + 1
  slots : ∀ (e : PoolEntry) (slot : UInt16), b.slots[e]? = some slot → t.pool.entry slot = .ok e
  bootstraps : b.bootstraps.toList = t.bootstraps
  indices : ∀ (m : BootstrapMethod) (i : UInt16), b.bootstrapIndex[m]? = some i → t.bootstraps[i.toNat]? = some m
  storable : ∀ m ∈ t.bootstraps, m.Storable

/-- One builder leads to another by requests for what has a stored form. -/
inductive Leads (b : PoolBuilder) : PoolBuilder → Prop where
  | refl : Leads b b
  | entry {c d : PoolBuilder} {e : PoolEntry} {slot : UInt16} (before : Leads b c)
      (storable : e.Storable) (ran : Building.entry e c = (.ok slot, d)) : Leads b d
  | bootstrapMethod {c d : PoolBuilder} {m : BootstrapMethod} {i : UInt16} (before : Leads b c)
      (storable : m.Storable) (ran : Building.bootstrapMethod m c = (.ok i, d)) : Leads b d

theorem Leads.trans {b c d : PoolBuilder} (first : b.Leads c) (second : c.Leads d) : b.Leads d := by
  induction second with
  | refl => exact first
  | entry _ storable ran ih => exact .entry ih storable ran
  | bootstrapMethod _ storable ran ih => exact .bootstrapMethod ih storable ran

end PoolBuilder

namespace Building

variable {α β : Type}

/-- A request keeps what a builder stands for, also where it fails. What it returns is right in the
tables that it leaves, and in all that grow from them. -/
def Provides (x : Building α) (Q : α → Tables → Prop) : Prop :=
  ∀ b t, b.Shows t → ∀ r b', x b = (r, b') →
    b.Leads b' ∧ ∃ t', b'.Shows t' ∧ t.Extends t' ∧
      ∀ a, r = .ok a → ∀ later, t'.Extends later → Q a later

/-- What one request behind another does. -/
theorem bind_eq (x : Building α) (next : α → Building β) (b : PoolBuilder) :
    (x >>= next) b = match x b with
      | (.ok a, c) => next a c
      | (.error cause, c) => (.error cause, c) := by
  show ExceptT.bindCont next (x b).1 (x b).2 = _
  rcases x b with ⟨_ | _, _⟩ <;> rfl

theorem get_eq (b : PoolBuilder) : (MonadState.get : Building PoolBuilder) b = (.ok b, b) :=
  rfl

namespace Provides

variable {x : Building α} {Q R : α → Tables → Prop}

theorem mono (h : Provides x Q) (weaker : ∀ a t, Q a t → R a t) : Provides x R := by
  intro b t shows r b' ran
  obtain ⟨leads, t', shows', grown, right⟩ := h b t shows r b' ran
  exact ⟨leads, t', shows', grown, fun a returned later extends_ =>
    weaker a later (right a returned later extends_)⟩

theorem pure {a : α} (right : ∀ t, Q a t) : Provides (Pure.pure a) Q := by
  intro b t shows r b' ran
  cases ran
  exact ⟨.refl, t, shows, .refl t, fun a' returned later _ => by cases returned; exact right later⟩

/-- One request behind another: what the first one returns stays right. -/
theorem bind {next : α → Building β} {S : β → Tables → Prop} (first : Provides x Q)
    (second : ∀ a, (∃ t, Q a t) → Provides (next a) fun r t => Q a t → S r t) :
    Provides (x >>= next) S := by
  intro b t shows r b' ran
  rw [bind_eq] at ran
  obtain ⟨leads₁, t₁, shows₁, grown₁, right₁⟩ := first b t shows (x b).1 (x b).2 rfl
  rcases here : x b with ⟨cause | a, c⟩
  · rw [here] at ran leads₁ shows₁
    cases ran
    exact ⟨leads₁, t₁, shows₁, grown₁, fun _ returned => by cases returned⟩
  · rw [here] at ran leads₁ shows₁ right₁
    obtain ⟨leads₂, t₂, shows₂, grown₂, right₂⟩ :=
      second a ⟨t₁, right₁ a rfl t₁ (.refl t₁)⟩ c t₁ shows₁ r b' ran
    exact ⟨leads₁.trans leads₂, t₂, shows₂, grown₁.trans grown₂, fun s returned later extends_ =>
      right₂ s returned later extends_ (right₁ a rfl later (grown₂.trans extends_))⟩

theorem throw (cause : Failure) : Provides (MonadExcept.throw cause : Building α) Q := by
  intro b t shows r b' ran
  cases ran
  exact ⟨.refl, t, shows, .refl t, fun _ returned => by cases returned⟩

/-- A computation that requests nothing. -/
theorem lift (e : Except Failure α) (right : ∀ a t, e = .ok a → Q a t) : Provides (liftM e) Q := by
  cases e with
  | error cause => exact throw cause
  | ok a => exact pure fun t => right a t rfl

theorem fail (cause : WriteError) : Provides (Building.fail cause : Building α) Q := by
  intro b t shows r b' ran
  cases ran
  exact ⟨.refl, t, shows, .refl t, fun _ returned => by cases returned⟩

theorem get {Q : PoolBuilder → Tables → Prop} (right : ∀ b t, Q b t) : Provides MonadState.get Q := by
  intro b t shows r b' ran
  cases ran
  exact ⟨.refl, t, shows, .refl t, fun c _ later _ => right c later⟩

end Provides

/-- What an entry that is not new asks for. -/
theorem entry_of_some {b : PoolBuilder} {e : PoolEntry} {slot : UInt16}
    (found : b.slots[e]? = some slot) : entry e b = (.ok slot, b) := by
  simp only [entry, bind_eq, get_eq, found]
  rfl

/-- What an entry that is new changes: nothing if it does not fit. -/
theorem entry_of_none {b b' : PoolBuilder} {e : PoolEntry} {r : Except Failure UInt16}
    (absent : b.slots[e]? = none) (ran : entry e b = (r, b')) :
    65535 < b.size + e.slots.length ∧ r = .error (.write b.owner .poolFull) ∧ b' = b ∨
    b.size + e.slots.length ≤ 65535 ∧ r = .ok (UInt16.ofNat b.size) ∧
      b' = { b with
        added := b.added.push e
        size := b.size + e.slots.length
        slots := b.slots.insert e (UInt16.ofNat b.size) } := by
  have taken : e.slots.length = if e.isWide then 2 else 1 := by
    rw [PoolEntry.slots]
    split <;> rfl
  rw [taken]
  simp only [entry, bind_eq, get_eq, absent] at ran
  by_cases full : 65535 < b.size + if e.isWide then 2 else 1
  · simp only [if_pos full] at ran
    cases ran
    exact .inl ⟨full, rfl, rfl⟩
  · simp only [if_neg full] at ran
    cases ran
    exact .inr ⟨Nat.le_of_not_lt full, rfl, rfl⟩

/-- The slot of an entry holds the entry. -/
theorem entry_provides {e : PoolEntry} (storable : e.Storable) :
    Provides (entry e) fun slot t => t.pool.entry slot = .ok e := by
  intro b t shows r b' ran
  cases found : b.slots[e]? with
  | some known =>
    rw [entry_of_some found] at ran
    cases ran
    refine ⟨.refl, t, shows, .refl t, fun slot returned later extends_ => ?_⟩
    cases returned
    exact extends_.entry (shows.slots e known found)
  | none =>
    rcases entry_of_none found ran with ⟨-, rfl, rfl⟩ | ⟨fits, rfl, rfl⟩
    · exact ⟨.refl, t, shows, .refl t, fun _ returned => by cases returned⟩
    have leads := PoolBuilder.Leads.entry .refl storable ran
    have grown : t.Extends ⟨t.slots ++ e.slots, t.bootstraps⟩ :=
      ⟨List.prefix_append .., List.prefix_refl _⟩
    -- The new entry stands right behind the slots that the builder has counted.
    have placed : (Tables.pool ⟨t.slots ++ e.slots, t.bootstraps⟩).entry (UInt16.ofNat b.size) =
        .ok e := by
      have small : (UInt16.ofNat b.size).toNat = t.slots.length + 1 := by
        rw [UInt16.toNat_ofNat_of_lt' (Nat.lt_of_le_of_lt (Nat.le_trans (Nat.le_add_right ..) fits)
          (by decide)), shows.size]
      have first : e.slots[0]? = some e := by
        rw [PoolEntry.slots]
        split <;> rfl
      rw [Tables.entry_eq_ok, small, List.getElem?_cons_succ, List.getElem?_append_right (Nat.le_refl _),
        Nat.sub_self]
      exact ⟨first, storable.usable⟩
    refine ⟨leads, _, ?_, grown, fun slot returned later extends_ => by
      cases returned
      exact extends_.entry placed⟩
    exact {
      stored := by
        rw [Array.toList_push, List.flatMap_append, ← List.append_assoc]
        have := shows.stored.append (Stored.single storable)
        simpa using this
      size := by
        show b.size + e.slots.length = (t.slots ++ e.slots).length + 1
        rw [shows.size, List.length_append]
        omega
      slots := by
        intro other slot known
        rw [Std.HashMap.getElem?_insert] at known
        split at known
        · rename_i same
          cases known
          rw [← beq_iff_eq.mp same]
          exact placed
        · exact grown.entry (shows.slots other slot known)
      bootstraps := shows.bootstraps
      indices := shows.indices
      storable := shows.storable }

/-- A text is requested as an entry, unless it is new and too long. -/
theorem utf8_eq (text : String) (b : PoolBuilder) :
    (b.slots[PoolEntry.utf8 text]? = none ∧ 65535 < (Text.encodeModified text).length) ∧ utf8 text b =
      (.error (.write b.owner (.textTooLong (Text.encodeModified text).length)), b) ∨
    utf8 text b = entry (.utf8 text) b ∧
      (b.slots[PoolEntry.utf8 text]? = none → (PoolEntry.utf8 text).Storable) := by
  simp only [utf8, bind_eq, get_eq]
  by_cases known : b.slots.contains (.utf8 text) = true
  · rw [if_pos known]
    refine .inr ⟨rfl, fun absent => ?_⟩
    rw [Std.HashMap.contains_eq_isSome_getElem?, absent] at known
    cases known
  · have absent : b.slots[PoolEntry.utf8 text]? = none := by simpa using known
    rw [if_neg known]
    by_cases long : 65535 < (Text.encodeModified text).length
    · rw [if_pos long]
      exact .inl ⟨⟨absent, long⟩, rfl⟩
    · rw [if_neg long]
      exact .inr ⟨rfl, fun _ => Nat.lt_succ_of_le (Nat.le_of_not_lt long)⟩

theorem utf8_of_some {b : PoolBuilder} {text : String} {slot : UInt16}
    (found : b.slots[PoolEntry.utf8 text]? = some slot) : utf8 text b = (.ok slot, b) := by
  rcases utf8_eq text b with ⟨⟨absent, -⟩, -⟩ | ⟨asked, -⟩
  · rw [found] at absent
    cases absent
  · rw [asked, entry_of_some found]

/-- The slot of a text holds the text. -/
theorem utf8_provides (text : String) :
    Provides (utf8 text) fun slot t => t.pool.utf8 slot = .ok text := by
  intro b t shows r b' ran
  rcases utf8_eq text b with ⟨-, long⟩ | ⟨asked, storable⟩
  · rw [long] at ran
    cases ran
    exact ⟨.refl, t, shows, .refl t, fun _ returned => by cases returned⟩
  rw [asked] at ran
  cases found : b.slots[PoolEntry.utf8 text]? with
  | some known =>
    rw [entry_of_some found] at ran
    cases ran
    refine ⟨.refl, t, shows, .refl t, fun slot returned later extends_ => ?_⟩
    cases returned
    exact ConstantPool.utf8_of_entry (extends_.entry (shows.slots _ known found))
  | none =>
    exact (entry_provides (storable found)).mono (fun _ _ => ConstantPool.utf8_of_entry)
      b t shows r b' ran

/-- What a bootstrap method asks for that is not new. -/
theorem bootstrapMethod_of_some {b : PoolBuilder} {m : BootstrapMethod} {i : UInt16}
    (found : b.bootstrapIndex[m]? = some i) : bootstrapMethod m b = (.ok i, b) := by
  simp only [bootstrapMethod, bind_eq, get_eq, found]
  rfl

/-- What a bootstrap method that is new changes: nothing if it does not fit. -/
theorem bootstrapMethod_of_none {b b' : PoolBuilder} {m : BootstrapMethod}
    {r : Except Failure UInt16} (absent : b.bootstrapIndex[m]? = none)
    (ran : bootstrapMethod m b = (r, b')) :
    65535 < b.bootstraps.size ∧ r = .error (.write b.owner .tooManyBootstraps) ∧ b' = b ∨
    b.bootstraps.size ≤ 65535 ∧ r = .ok (UInt16.ofNat b.bootstraps.size) ∧
      b' = { b with
        bootstraps := b.bootstraps.push m
        bootstrapIndex := b.bootstrapIndex.insert m (UInt16.ofNat b.bootstraps.size) } := by
  simp only [bootstrapMethod, bind_eq, get_eq, absent] at ran
  by_cases full : 65535 < b.bootstraps.size
  · simp only [if_pos full] at ran
    cases ran
    exact .inl ⟨full, rfl, rfl⟩
  · simp only [if_neg full] at ran
    cases ran
    exact .inr ⟨Nat.le_of_not_lt full, rfl, rfl⟩

/-- The index of a bootstrap method is where the method stands. -/
theorem bootstrapMethod_provides {m : BootstrapMethod} (storable : m.Storable) :
    Provides (bootstrapMethod m) fun i t => t.bootstraps[i.toNat]? = some m := by
  intro b t shows r b' ran
  cases found : b.bootstrapIndex[m]? with
  | some known =>
    rw [bootstrapMethod_of_some found] at ran
    cases ran
    refine ⟨.refl, t, shows, .refl t, fun i returned later extends_ => ?_⟩
    cases returned
    exact extends_.bootstrap (shows.indices m known found)
  | none =>
    rcases bootstrapMethod_of_none found ran with ⟨-, rfl, rfl⟩ | ⟨fits, rfl, rfl⟩
    · exact ⟨.refl, t, shows, .refl t, fun _ returned => by cases returned⟩
    have leads := PoolBuilder.Leads.bootstrapMethod .refl storable ran
    have grown : t.Extends ⟨t.slots, t.bootstraps ++ [m]⟩ :=
      ⟨List.prefix_refl _, List.prefix_append ..⟩
    have placed : (t.bootstraps ++ [m])[(UInt16.ofNat b.bootstraps.size).toNat]? = some m := by
      have count : b.bootstraps.size = t.bootstraps.length := by
        rw [← shows.bootstraps, Array.length_toList]
      rw [UInt16.toNat_ofNat_of_lt' (Nat.lt_succ_of_le fits), count]
      simp
    refine ⟨leads, _, ?_, grown, fun i returned later extends_ => by
      cases returned
      exact extends_.bootstrap placed⟩
    exact {
      stored := shows.stored
      size := shows.size
      slots := fun e slot known => grown.entry (shows.slots e slot known)
      bootstraps := by
        show (b.bootstraps.push m).toList = t.bootstraps ++ [m]
        rw [Array.toList_push, shows.bootstraps]
      indices := by
        intro other i known
        rw [Std.HashMap.getElem?_insert] at known
        split at known
        · rename_i same
          cases known
          rw [← beq_iff_eq.mp same]
          exact placed
        · exact grown.bootstrap (shows.indices other i known)
      storable := by
        intro other member
        rcases List.mem_append.mp member with old | new
        · exact shows.storable other old
        · rw [List.mem_singleton.mp new]
          exact storable }

theorem classRef_provides (name : String) :
    Provides (classRef name) fun slot t => t.pool.className slot = .ok name :=
  (utf8_provides name).bind fun _ _ =>
    (entry_provides (by trivial)).mono fun _ _ => ConstantPool.className_of_entry

theorem nameAndType_provides (name descriptor : String) :
    Provides (nameAndType name descriptor) fun slot t =>
      t.pool.nameAndType slot = .ok (name, descriptor) :=
  (utf8_provides name).bind fun _ _ => (utf8_provides descriptor).bind fun _ _ =>
    (entry_provides (by trivial)).mono fun _ _ found described named =>
      ConstantPool.nameAndType_of_entry found named described

theorem field_provides (owner name descriptor : String) :
    Provides (field owner name descriptor) fun slot t =>
      t.pool.member slot = .ok ⟨owner, name, descriptor, false⟩ :=
  (classRef_provides owner).bind fun _ _ => (nameAndType_provides name descriptor).bind fun _ _ =>
    (entry_provides (by trivial)).mono fun _ _ found named owned =>
      ConstantPool.member_of_fieldRef found (ConstantPool.memberOf_of_parts false owned named)

theorem method_provides (owner name descriptor : String) (isInterface : Bool) :
    Provides (method owner name descriptor isInterface) fun slot t =>
      t.pool.member slot = .ok ⟨owner, name, descriptor, isInterface⟩ :=
  (classRef_provides owner).bind fun _ _ => (nameAndType_provides name descriptor).bind fun _ _ =>
    (entry_provides (by trivial)).mono fun _ _ found named owned =>
      ConstantPool.member_of_methodRef found
        (ConstantPool.memberOf_of_parts isInterface owned named)

end Building

namespace Handle

/-- What a handle is read back as: the first four kinds of handles refer to fields, which have no
mark of an interface. -/
def stored (h : Handle) : Handle :=
  if h.kind ≤ 4 then { h with isInterface := false } else h

/-- Whether a handle is read back as it is. -/
def Storable (h : Handle) : Prop :=
  h.kind ≤ 4 → h.isInterface = false

theorem stored_of_storable {h : Handle} (storable : h.Storable) : h.stored = h := by
  rw [stored]
  split
  · rename_i small
    rw [← storable small]
  · rfl

end Handle

theorem Building.handle_provides (h : Handle) :
    Provides (handle h) fun slot t => t.pool.handle slot = .ok h.stored := by
  rw [handle]
  dsimp only
  split
  · rename_i small
    rw [Handle.stored, if_pos small]
    exact (field_provides _ _ _).bind fun _ _ =>
      (entry_provides (by trivial)).mono fun _ _ => ConstantPool.handle_of_entry
  · rename_i large
    rw [Handle.stored, if_neg large]
    exact (method_provides _ _ _ _).bind fun _ _ =>
      (entry_provides (by trivial)).mono fun _ _ => ConstantPool.handle_of_entry

/-! ## From the first builder to the finished tables -/

/-- A bootstrap method is read back from its stored form. -/
theorem BootstrapMethod.reads {m : BootstrapMethod} (storable : m.Storable) (position : Nat) :
    Reader.Reads read position (Word.encode m.handle ++ Bytes.u16 m.arguments.length ++
      m.arguments.flatMap Word.encode) m := by
  rw [List.append_assoc]
  have arguments := Reader.Reads.counted (f := id) m.arguments storable
    (fun argument _ position => Reader.Reads.u16_word argument position)
  rw [List.map_id] at arguments
  exact (Reader.Reads.u16_word m.handle position).bind (arguments _).map

namespace PoolBuilder

/-- The pool and the bootstrap methods that a reader finds in a class file with the tables of a
builder. -/
def reread (b : PoolBuilder) : Except Failure (ConstantPool × List BootstrapMethod) := do
  let (pool, _) ← ConstantPool.read.run (Cursor.ofBytes b.finish)
  match b.bootstrapTable with
  | none => return (pool, [])
  | some table =>
    let (bootstraps, _) ← (Reader.counted BootstrapMethod.read).run (Cursor.ofBytes table)
    return (pool, bootstraps)

/-- The stored pool of a builder is read back. -/
theorem Shows.finish {b : PoolBuilder} {t : Tables} (shows : b.Shows t) (slots : b.size < 65536)
    (position : Nat) : Reader.Reads ConstantPool.read position b.finish t.pool := by
  rw [shows.size] at slots
  have reads := shows.stored.reads_pool slots position
  rwa [← List.append_assoc, ← shows.size] at reads

/-- The stored bootstrap methods of a builder, which are absent if there are none, are read back. -/
theorem Shows.bootstrapTable {b : PoolBuilder} {t : Tables} (shows : b.Shows t)
    (methods : b.bootstraps.size < 65536) :
    b.bootstrapTable = none ∧ t.bootstraps = [] ∨ t.bootstraps ≠ [] ∧ ∃ table c,
      b.bootstrapTable = some table ∧
      (Reader.counted BootstrapMethod.read).run (Cursor.ofBytes table) = .ok (t.bootstraps, c) := by
  rw [PoolBuilder.bootstrapTable, ← Array.isEmpty_toList, ← Array.length_toList, shows.bootstraps]
  rw [← Array.length_toList, shows.bootstraps] at methods
  by_cases none_ : t.bootstraps = []
  · exact .inl ⟨by rw [none_]; rfl, none_⟩
  · have reads := Reader.Reads.counted (f := id) t.bootstraps methods
      (fun m member position => BootstrapMethod.reads (shows.storable m member) position) 0
    obtain ⟨c, ran, -⟩ := reads.run []
    rw [List.map_id, List.append_nil] at ran
    exact .inr ⟨none_, _, c, if_neg (by simpa using none_), ran⟩

/-- A reader finds the tables for which a builder stands, if their counts can be stored. -/
theorem Shows.reread {b : PoolBuilder} {t : Tables} (shows : b.Shows t) (slots : b.size < 65536)
    (methods : b.bootstraps.size < 65536) : b.reread = .ok (t.pool, t.bootstraps) := by
  obtain ⟨c, pool, -⟩ := (shows.finish slots 0).run []
  rw [List.append_nil] at pool
  rw [PoolBuilder.reread, pool]
  rcases shows.bootstrapTable methods with ⟨none_, empty⟩ | ⟨-, table, c', some_, ran⟩
  · rw [none_, empty]
    rfl
  · rw [some_]
    show ((Reader.counted BootstrapMethod.read).run (Cursor.ofBytes table) >>= _) = _
    rw [ran]
    rfl

/-- Requests keep what a builder stands for. -/
theorem Shows.leads {b c : PoolBuilder} {t : Tables} (shows : b.Shows t) (later : b.Leads c) :
    ∃ t', c.Shows t' ∧ t.Extends t' := by
  induction later with
  | refl => exact ⟨t, shows, .refl t⟩
  | entry _ storable ran ih =>
    obtain ⟨t₁, shows₁, grown₁⟩ := ih
    obtain ⟨-, t₂, shows₂, grown₂, -⟩ := Building.entry_provides storable _ t₁ shows₁ _ _ ran
    exact ⟨t₂, shows₂, grown₁.trans grown₂⟩
  | bootstrapMethod _ storable ran ih =>
    obtain ⟨t₁, shows₁, grown₁⟩ := ih
    obtain ⟨-, t₂, shows₂, grown₂, -⟩ := Building.bootstrapMethod_provides storable _ t₁ shows₁ _ _ ran
    exact ⟨t₂, shows₂, grown₁.trans grown₂⟩

/-- An empty builder stands for empty tables. -/
theorem shows_empty (owner : String) : ({ owner } : PoolBuilder).Shows ⟨[], []⟩ where
  stored := Stored.nil 1
  size := rfl
  slots := fun e slot known => by simp at known
  bootstraps := rfl
  indices := fun m i known => by simp at known
  storable := fun m member => by cases member

/-- What has been put into a table under a condition, of equal keys the first. -/
theorem getElem?_foldl_insertIfNew {α β γ : Type} [BEq α] [LawfulBEq α] [Hashable α]
    (skip : γ → Prop) [DecidablePred skip] (key : γ → α) (value : γ → β) (l : List γ)
    (table : Std.HashMap α β) {a : α} {b : β}
    (found : (l.foldl (fun table c =>
      if skip c then table else table.insertIfNew (key c) (value c)) table)[a]? = some b) :
    table[a]? = some b ∨ ∃ c ∈ l, ¬ skip c ∧ key c = a ∧ value c = b := by
  induction l generalizing table with
  | nil => exact .inl found
  | cons c l ih =>
    rw [List.foldl_cons] at found
    rcases ih _ found with before | ⟨c', member, rest⟩
    · by_cases skipped : skip c
      · rw [if_pos skipped] at before
        exact .inl before
      · rw [if_neg skipped, Std.HashMap.getElem?_insertIfNew] at before
        split at before
        · rename_i new
          exact .inr ⟨c, List.mem_cons_self, skipped, beq_iff_eq.mp new.1, Option.some.inj before⟩
        · exact .inl before
    · exact .inr ⟨c', List.mem_cons_of_mem _ member, rest⟩

/-- What has been put into a table under a condition is there. -/
theorem mem_foldl_insertIfNew {α β γ : Type} [BEq α] [LawfulBEq α] [Hashable α]
    (skip : γ → Prop) [DecidablePred skip] (key : γ → α) (value : γ → β) (l : List γ)
    (table : Std.HashMap α β) {a : α} (known : a ∈ table ∨ ∃ c ∈ l, ¬ skip c ∧ key c = a) :
    a ∈ l.foldl (fun table c =>
      if skip c then table else table.insertIfNew (key c) (value c)) table := by
  induction l generalizing table with
  | nil => simpa using known
  | cons c l ih =>
    rw [List.foldl_cons]
    refine ih _ ?_
    rcases known with before | ⟨c', member, counts, same⟩
    · left
      split
      · exact before
      · exact Std.HashMap.mem_insertIfNew.mpr (.inr before)
    · rcases List.mem_cons.mp member with rfl | member
      · left
        rw [if_neg counts, ← same]
        exact Std.HashMap.mem_insertIfNew_self
      · exact .inr ⟨c', member, counts, same⟩

end PoolBuilder

/-- The parts of a class file that a class keeps for what refers to them. -/
structure ClassOrigin.Genuine (origin : ClassOrigin) : Prop where
  pool : ∃ pool, ∀ position, Reader.Reads ConstantPool.read position origin.pool pool
  bootstraps : ∀ m ∈ origin.bootstraps, m.Storable

/-- The first slot of every entry is the one that a builder notes. -/
theorem PoolBuilder.entry_of_indexEntries {t : Tables} {e : PoolEntry} {slot : UInt16}
    (found : (indexEntries t.pool)[e]? = some slot) : t.pool.entry slot = .ok e := by
  have cases_ := getElem?_foldl_insertIfNew
    (fun p : PoolEntry × Nat => p.1 = .unusable ∨ 65535 < p.2) (fun p => p.1)
    (fun p => UInt16.ofNat p.2) _ _ found
  rcases cases_ with before | ⟨⟨e', i⟩, member, fits, rfl, rfl⟩
  · simp at before
  · rw [not_or] at fits
    have stands : (PoolEntry.unusable :: t.slots)[i]? = some e' :=
      List.mk_mem_zipIdx_iff_getElem?.mp member
    rw [Tables.entry_eq_ok]
    show (PoolEntry.unusable :: t.slots)[(UInt16.ofNat i).toNat]? = some e' ∧ e' ≠ .unusable
    rw [UInt16.toNat_ofNat_of_lt' (Nat.lt_succ_of_le (Nat.le_of_not_lt fits.2))]
    exact ⟨stands, fits.1⟩

/-- Every entry of a pool is noted. -/
theorem PoolBuilder.indexEntries_of_entry {pool : ConstantPool} {slot : UInt16} {e : PoolEntry}
    (found : pool.entry slot = .ok e) : ∃ first, (indexEntries pool)[e]? = some first := by
  rw [ConstantPool.entry] at found
  split at found
  · cases found
  · cases found
  · rename_i e' usable there
    cases found
    have member : (e, slot.toNat) ∈ pool.entries.toList.zipIdx :=
      List.mk_mem_zipIdx_iff_getElem?.mpr (by rwa [Array.getElem?_toList])
    have noted := mem_foldl_insertIfNew (fun p : PoolEntry × Nat => p.1 = .unusable ∨ 65535 < p.2)
      (fun p => p.1) (fun p => UInt16.ofNat p.2) pool.entries.toList.zipIdx ∅
      (.inr ⟨(e, slot.toNat), member, not_or.mpr ⟨usable, by have := slot.toNat_lt; omega⟩, rfl⟩)
    exact ⟨_, Std.HashMap.getElem?_eq_some_getElem noted⟩

/-- The builder that starts from a class file stands for the tables of the file. -/
theorem PoolBuilder.ofOrigin_of_genuine (owner : String) {origin : ClassOrigin}
    (genuine : origin.Genuine) : ∃ b t rest, ofOrigin owner origin = .ok b ∧ b.Shows t ∧
      t.bootstraps = origin.bootstraps.take 65536 ∧
      ConstantPool.read.run (Cursor.ofBytes origin.pool) = .ok (t.pool, rest) := by
  obtain ⟨pool, reads⟩ := genuine.pool
  obtain ⟨c, read, nothing⟩ := (reads 0).run []
  rw [List.append_nil] at read
  obtain ⟨count, bytes, slots, octets, size, rfl, stored⟩ := ConstantPool.of_read read
  -- Nothing of the origin lies behind the pool that was read from it.
  have source : origin.pool.drop 2 = bytes := by
    rw [show origin.pool = count ++ bytes ++ c.rest from octets, nothing, List.append_nil,
      ← size, List.drop_left]
  rw [ofOrigin, read]
  refine ⟨_, ⟨slots, origin.bootstraps.take 65536⟩, c, rfl, ?_, rfl, rfl⟩
  exact {
    stored := by
      show Stored 1 (origin.pool.drop 2 ++ []) slots
      rw [List.append_nil, source]
      exact stored
    size := ConstantPool.size_ofSlots slots
    slots := fun e slot known =>
      entry_of_indexEntries (t := ⟨slots, origin.bootstraps.take 65536⟩) known
    bootstraps := rfl
    indices := by
      intro m i known
      have cases_ := getElem?_foldl_insertIfNew (fun _ : BootstrapMethod × Nat => False)
        (fun p => p.1) (fun p => UInt16.ofNat p.2) _ _ known
      rcases cases_ with before | ⟨⟨m', j⟩, member, -, rfl, rfl⟩
      · simp at before
      · have stands := List.mk_mem_zipIdx_iff_getElem?.mp member
        have small : j < 65536 := by
          have := (List.getElem?_eq_some_iff.mp stands).1
          rw [List.length_take] at this
          omega
        show (origin.bootstraps.take 65536)[(UInt16.ofNat j).toNat]? = some m'
        rw [UInt16.toNat_ofNat_of_lt' small]
        exact stands
    storable := fun m member => genuine.bootstraps m (List.mem_of_mem_take member) }

end Bytecode
