import Bytecode.Proofs.Coding.Requests
import Bytecode.Proofs.Coding.Results

/-!
# Constants survive the pool

A constant that has been looked up nests dynamic constants only so deep, and each of them has only so
many arguments; `Constant.Within` says so by recursion on the levels, like the look-up. For such a
constant `Building.loadable` provides a slot at which the look-up with as many levels finds it.
-/

namespace Bytecode

/-- Whether a constant nests dynamic constants at most so deep, each with a list of arguments that
has a stored form. -/
def Constant.Within : Nat → Constant → Prop
  | 0, _ => False
  | levels + 1, .dynamic _ _ _ arguments =>
    arguments.length < 65536 ∧ ∀ c ∈ arguments, Constant.Within levels c
  | _ + 1, _ => True

/-- The handles that a constant mentions. -/
inductive Constant.Mentions : Constant → Handle → Prop where
  | handle (h : Handle) : Mentions (.handle h) h
  | bootstrap (name descriptor : String) (h : Handle) (arguments : List Constant) :
    Mentions (.dynamic name descriptor h arguments) h
  | argument (name descriptor : String) (bootstrap : Handle) {arguments : List Constant}
    {c : Constant} {h : Handle} (member : c ∈ arguments) (mentions : Mentions c h) :
    Mentions (.dynamic name descriptor bootstrap arguments) h

namespace Constant

mutual

/-- What a constant is read back as: its handles as they are stored. -/
def stored : Constant → Constant
  | .handle h => .handle h.stored
  | .dynamic name descriptor h arguments => .dynamic name descriptor h.stored (storedAll arguments)
  | c => c

/-- What constants are read back as. -/
def storedAll : List Constant → List Constant
  | [] => []
  | c :: rest => stored c :: storedAll rest

end

theorem storedAll_eq (constants : List Constant) : storedAll constants = constants.map stored := by
  induction constants with
  | nil => rfl
  | cons c constants ih => rw [storedAll, ih, List.map_cons]

mutual

/-- A constant is read back as it is if its handles are. -/
theorem stored_of_storable :
    ∀ c : Constant, (∀ h, c.Mentions h → h.Storable) → c.stored = c
  | .int _, _ | .float _, _ | .long _, _ | .double _, _ | .string _, _ | .classRef _, _
  | .methodType _, _ => by rw [stored] <;> simp
  | .handle h, handles => by rw [stored, Handle.stored_of_storable (handles h (.handle h))]
  | .dynamic name descriptor h arguments, handles => by
    rw [stored, Handle.stored_of_storable (handles h (.bootstrap ..)),
      storedAll_of_storable arguments fun c member h' mentions =>
        handles h' (.argument _ _ _ member mentions)]

theorem storedAll_of_storable :
    ∀ constants : List Constant, (∀ c ∈ constants, ∀ h, c.Mentions h → h.Storable) →
      storedAll constants = constants
  | [], _ => by rw [storedAll]
  | c :: constants, handles => by
    rw [storedAll, stored_of_storable c (handles c List.mem_cons_self),
      storedAll_of_storable constants fun c' member => handles c' (List.mem_cons_of_mem _ member)]

end

end Constant

namespace ConstantPool

variable {pool : ConstantPool} {bootstraps : Array BootstrapMethod} {slot : UInt16}

/-- The entry of a handle that has been found. -/
theorem entry_of_handle {h : Handle} (found : pool.handle slot = .ok h) :
    ∃ reference, pool.entry slot = .ok (.methodHandle h.kind reference) := by
  rw [handle] at found
  obtain ⟨e, here, found⟩ := ok_of_bind found
  cases e
  case methodHandle kind reference =>
    obtain ⟨m, -, found⟩ := ok_of_bind found
    cases found
    exact ⟨reference, here⟩
  all_goals cases found

/-- A text that an entry refers to, as a constant. -/
theorem loadableNested_of_text {levels : Nat} {e : PoolEntry} {name : UInt16} {text : String}
    {c : Constant} (found : pool.entry slot = .ok e) (named : pool.utf8 name = .ok text)
    (kind : e = .string name ∧ c = .string text ∨ e = .classRef name ∧ c = .classRef text ∨
      e = .methodType name ∧ c = .methodType text) :
    pool.loadableNested bootstraps (levels + 1) slot = .ok c := by
  rw [loadableNested, found]
  rcases kind with ⟨rfl, rfl⟩ | ⟨rfl, rfl⟩ | ⟨rfl, rfl⟩
  all_goals
    show (pool.utf8 name >>= _) = _
    rw [named]
    rfl

theorem loadableNested_of_handle {levels : Nat} {h : Handle} (found : pool.handle slot = .ok h) :
    pool.loadableNested bootstraps (levels + 1) slot = .ok (.handle h) := by
  obtain ⟨reference, here⟩ := entry_of_handle found
  rw [loadableNested, here]
  show (pool.handle slot >>= _) = _
  rw [found]
  rfl

theorem loadableNested_of_dynamic {levels : Nat} {index pair : UInt16} {name descriptor : String}
    {h : Handle} {arguments : List Constant} (found : pool.entry slot = .ok (.dynamic index pair))
    (named : pool.nameAndType pair = .ok (name, descriptor))
    (method : pool.bootstrapWith bootstraps (pool.loadableNested bootstraps levels) index =
      .ok (h, arguments)) :
    pool.loadableNested bootstraps (levels + 1) slot =
      .ok (.dynamic name descriptor h arguments) := by
  rw [loadableNested, found]
  show (pool.nameAndType pair >>= _) = _
  rw [named]
  show (pool.bootstrapWith bootstraps (pool.loadableNested bootstraps levels) index >>= _) = _
  rw [method]
  rfl

end ConstantPool

namespace Building

open ConstantPool

/-- The slots of constants, if each of these is provided. -/
theorem loadables_provides {find : Tables → UInt16 → Except FormatError Constant}
    {constants : List Constant}
    (each : ∀ c ∈ constants, Provides (loadable c) fun slot t => find t slot = .ok c.stored) :
    Provides (loadables constants) fun slots t =>
      List.Forall₂ (fun slot c => find t slot = .ok c) slots (constants.map Constant.stored) := by
  induction constants with
  | nil =>
    rw [loadables]
    exact .pure fun _ => .nil
  | cons c constants ih =>
    rw [loadables]
    refine (each c List.mem_cons_self).bind fun slot _ => ?_
    refine (ih fun c member => each c (List.mem_cons_of_mem _ member)).bind fun slots _ => ?_
    exact .pure fun t rest first => .cons first rest

/-- The index of a bootstrap method with constants as arguments, if each of these is provided. -/
theorem bootstrap_provides {find : Tables → UInt16 → Except FormatError Constant} {h : Handle}
    {arguments : List Constant} (few : arguments.length < 65536)
    (each : ∀ c ∈ arguments, Provides (loadable c) fun slot t => find t slot = .ok c.stored) :
    Provides (bootstrap h arguments) fun i t =>
      t.pool.bootstrapWith t.bootstraps.toArray (find t) i =
        .ok (h.stored, arguments.map Constant.stored) := by
  refine (handle_provides h).bind fun slot _ => ?_
  refine (loadables_provides each).bind fun slots some_ => ?_
  have size : slots.length < 65536 := by
    obtain ⟨t, found⟩ := some_
    rw [found.length_eq, List.length_map]
    exact few
  refine (bootstrapMethod_provides (m := ⟨slot, slots⟩) size).mono fun i t stands found handle => ?_
  rw [bootstrapWith, List.getElem?_toArray, stands]
  show (slots.mapM (find t) >>= _) = _
  rw [mapM_eq_ok.mpr found]
  show (t.pool.handle slot >>= _) = _
  rw [handle]
  rfl

/-- The slot of a constant is where it is found. -/
theorem loadable_provides {levels : Nat} {c : Constant} (within : c.Within levels) :
    Provides (loadable c) fun slot t =>
      t.pool.loadableNested t.bootstraps.toArray levels slot = .ok c.stored := by
  induction levels generalizing c with
  | zero => exact within.elim
  | succ levels ih =>
    cases c with
    | int value =>
      rw [loadable]
      exact (entry_provides (by trivial)).mono fun slot t found => by rw [loadableNested, found]; rfl
    | float bits =>
      rw [loadable]
      exact (entry_provides (by trivial)).mono fun slot t found => by rw [loadableNested, found]; rfl
    | long value =>
      rw [loadable]
      exact (entry_provides (by trivial)).mono fun slot t found => by rw [loadableNested, found]; rfl
    | double bits =>
      rw [loadable]
      exact (entry_provides (by trivial)).mono fun slot t found => by rw [loadableNested, found]; rfl
    | string text =>
      rw [loadable]
      exact (utf8_provides text).bind fun name _ =>
        (entry_provides (by trivial)).mono fun _ _ found named =>
          loadableNested_of_text found named (.inl ⟨rfl, rfl⟩)
    | classRef text =>
      rw [loadable]
      exact (utf8_provides text).bind fun name _ =>
        (entry_provides (by trivial)).mono fun _ _ found named =>
          loadableNested_of_text found named (.inr (.inl ⟨rfl, rfl⟩))
    | methodType text =>
      rw [loadable]
      exact (utf8_provides text).bind fun name _ =>
        (entry_provides (by trivial)).mono fun _ _ found named =>
          loadableNested_of_text found named (.inr (.inr ⟨rfl, rfl⟩))
    | handle h =>
      rw [loadable]
      exact (handle_provides h).mono fun _ _ => loadableNested_of_handle
    | dynamic name descriptor h arguments =>
      obtain ⟨few, each⟩ := within
      have method := bootstrap_provides (h := h) few fun c member => ih (each c member)
      have parts : loadable (.dynamic name descriptor h arguments) = (do
          let index ← bootstrap h arguments
          entry (.dynamic index (← nameAndType name descriptor))) := by
        rw [loadable, bootstrap]
        simp only [bind_assoc]
      rw [parts, Constant.stored, Constant.storedAll_eq]
      exact method.bind fun _ _ => (nameAndType_provides name descriptor).bind fun _ _ =>
        (entry_provides (by trivial)).mono fun _ _ found named =>
          loadableNested_of_dynamic found named

/-- The slot of a dynamic call site leads to its parts. -/
theorem dynamicCall_provides (name descriptor : String) {levels : Nat} {h : Handle}
    {arguments : List Constant} (few : arguments.length < 65536)
    (each : ∀ c ∈ arguments, c.Within levels) :
    Provides (dynamicCall name descriptor h arguments) fun slot t =>
      ∃ i, t.pool.invokeDynamic slot = .ok (i, name, descriptor) ∧
        t.pool.bootstrapWith t.bootstraps.toArray
          (t.pool.loadableNested t.bootstraps.toArray levels) i =
            .ok (h.stored, arguments.map Constant.stored) := by
  have method := bootstrap_provides (h := h) few fun c member => loadable_provides (each c member)
  exact method.bind fun i _ => (nameAndType_provides name descriptor).bind fun _ _ =>
    (entry_provides (by trivial)).mono fun _ _ found named arguments =>
      ⟨i, invokeDynamic_of_entry found named, arguments⟩

end Building

namespace ConstantPool

variable {pool : ConstantPool} {bootstraps : Array BootstrapMethod}

/-- The arguments of a bootstrap method that has been found are constants, as many as it has. -/
theorem of_bootstrapWith {find : UInt16 → Except FormatError Constant} {i : UInt16} {h : Handle}
    {arguments : List Constant} (storable : ∀ m ∈ bootstraps, m.Storable)
    (found : pool.bootstrapWith bootstraps find i = .ok (h, arguments)) :
    arguments.length < 65536 ∧ ∀ c ∈ arguments, ∃ slot, find slot = .ok c := by
  rw [bootstrapWith] at found
  cases here : bootstraps[i.toNat]? with
  | none => rw [here] at found; cases found
  | some m =>
    rw [here] at found
    obtain ⟨constants, all, found⟩ := ok_of_bind found
    obtain ⟨h', -, found⟩ := ok_of_bind found
    cases found
    have each := mapM_eq_ok.mp all
    constructor
    · rw [← each.length_eq]
      exact storable m (Array.mem_of_getElem? here)
    · intro c member
      obtain ⟨slot, -, there⟩ := exists_of_mem_results each member
      exact ⟨slot, there⟩

/-- A constant that has been found nests others no deeper than the look-up goes. -/
theorem within_of_loadableNested {levels : Nat} {slot : UInt16} {c : Constant}
    (storable : ∀ m ∈ bootstraps, m.Storable)
    (found : pool.loadableNested bootstraps levels slot = .ok c) : c.Within levels := by
  induction levels generalizing slot c with
  | zero => cases found
  | succ levels ih =>
    rw [loadableNested] at found
    obtain ⟨e, -, found⟩ := ok_of_bind found
    cases e
    case integer | float | long | double =>
      cases found
      trivial
    case string | classRef | methodType | methodHandle =>
      obtain ⟨_, -, found⟩ := ok_of_bind found
      cases found
      trivial
    case dynamic index pair =>
      obtain ⟨named, -, found⟩ := ok_of_bind found
      obtain ⟨method, there, found⟩ := ok_of_bind found
      cases found
      obtain ⟨few, each⟩ := of_bootstrapWith storable there
      refine ⟨few, fun c member => ?_⟩
      obtain ⟨slot, found⟩ := each c member
      exact ih found
    all_goals cases found

end ConstantPool

end Bytecode
