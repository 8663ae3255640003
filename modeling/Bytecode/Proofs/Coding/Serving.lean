import Bytecode.Proofs.Coding.Constants
import Bytecode.Proofs.Coding.Source

/-!
# Sequences of requests

A builder serves requests one behind the other, and goes on behind one that fails. Two facts about
single requests carry over to sequences: what a request provides is found in the finished tables
(`ask_provides`), and a request that has been served is served the same from then on (`ask_steady`).
`serve_faithful` puts them together.

The only bound is on the number of arguments of a bootstrap method, which is stored in two octets
and not checked: from 65536 arguments on, some are lost (`serve_loses_arguments`).
-/

namespace Bytecode

/-! ## Constants whose arguments are counted in two octets -/

namespace Constant

/-- The lists of arguments in a constant. -/
inductive Lists : Constant → List Constant → Prop where
  | here (name descriptor : String) (h : Handle) (arguments : List Constant) :
    Lists (.dynamic name descriptor h arguments) arguments
  | inside (name descriptor : String) (h : Handle) {arguments more : List Constant} {c : Constant}
    (member : c ∈ arguments) (lists : Lists c more) :
    Lists (.dynamic name descriptor h arguments) more

/-- Whether no list of arguments in a constant is too long to be stored. -/
def Few (c : Constant) : Prop :=
  ∀ arguments, c.Lists arguments → arguments.length < 65536

theorem Within.succ {levels : Nat} {c : Constant} (within : c.Within levels) :
    c.Within (levels + 1) := by
  induction levels generalizing c with
  | zero => exact within.elim
  | succ levels ih =>
    cases c with
    | dynamic name descriptor h arguments =>
      exact ⟨within.1, fun c member => ih (within.2 c member)⟩
    | _ => trivial

theorem Within.mono {levels more : Nat} {c : Constant} (within : c.Within levels)
    (le : levels ≤ more) : c.Within more := by
  induction le with
  | refl => exact within
  | step _ ih => exact ih.succ

mutual

/-- A constant nests others only so deep. -/
theorem exists_within : ∀ c : Constant, c.Few → ∃ levels, c.Within levels
  | .int _, _ | .float _, _ | .long _, _ | .double _, _ | .string _, _ | .classRef _, _
  | .methodType _, _ | .handle _, _ => ⟨1, trivial⟩
  | .dynamic name descriptor h arguments, few => by
    obtain ⟨levels, within⟩ := exists_within_all arguments fun c member more lists =>
      few more (.inside _ _ _ member lists)
    exact ⟨levels + 1, few arguments (.here ..), within⟩

theorem exists_within_all : ∀ constants : List Constant, (∀ c ∈ constants, c.Few) →
    ∃ levels, ∀ c ∈ constants, c.Within levels
  | [], _ => ⟨0, fun _ member => (List.not_mem_nil member).elim⟩
  | c :: constants, few => by
    obtain ⟨first, within⟩ := exists_within c (few c List.mem_cons_self)
    obtain ⟨others, rest⟩ := exists_within_all constants fun c' member =>
      few c' (List.mem_cons_of_mem _ member)
    refine ⟨max first others, fun c' member => ?_⟩
    rcases List.mem_cons.mp member with rfl | member
    · exact within.mono (Nat.le_max_left ..)
    · exact (rest c' member).mono (Nat.le_max_right ..)

end

/-- Whether a constant is found again as it is: it nests only so deep, and its handles are stored
as they are. -/
structure Kept (levels : Nat) (c : Constant) : Prop where
  within : c.Within levels
  handles : ∀ h, c.Mentions h → h.Storable

end Constant

/-! ## Requests -/

/-- What can be requested from a pool builder. -/
inductive Request where
  | utf8 (text : String)
  | classRef (name : String)
  | nameAndType (name descriptor : String)
  | field (owner name descriptor : String)
  | method (owner name descriptor : String) (isInterface : Bool)
  | handle (h : Handle)
  | loadable (c : Constant)
  | bootstrap (h : Handle) (arguments : List Constant)
  | dynamicCall (name descriptor : String) (h : Handle) (arguments : List Constant)

namespace Request

/-- Asks for what is requested. -/
def ask : Request → Building UInt16
  | utf8 text => Building.utf8 text
  | classRef name => Building.classRef name
  | nameAndType name descriptor => Building.nameAndType name descriptor
  | field owner name descriptor => Building.field owner name descriptor
  | method owner name descriptor isInterface => Building.method owner name descriptor isInterface
  | handle h => Building.handle h
  | loadable c => Building.loadable c
  | bootstrap h arguments => Building.bootstrap h arguments
  | dynamicCall name descriptor h arguments => Building.dynamicCall name descriptor h arguments

/-- Whether a request has no list of arguments that is too long to be stored. -/
def Few : Request → Prop
  | loadable c => c.Few
  | bootstrap _ arguments | dynamicCall _ _ _ arguments =>
    arguments.length < 65536 ∧ ∀ c ∈ arguments, c.Few
  | _ => True

/-- Whether what is requested is found again as it is. -/
def Kept : Request → Prop
  | handle h => h.Storable
  | loadable c => c.Kept (maxConstantNesting + 1)
  | bootstrap h arguments | dynamicCall _ _ h arguments =>
    h.Storable ∧ ∀ c ∈ arguments, c.Kept maxConstantNesting
  | _ => True

/-- What is requested is found at an index of a pool, or of a table of bootstrap methods. -/
def Found (pool : ConstantPool) (bootstraps : Array BootstrapMethod) (index : UInt16) :
    Request → Prop
  | utf8 text => pool.utf8 index = .ok text
  | classRef name => pool.className index = .ok name
  | nameAndType name descriptor => pool.nameAndType index = .ok (name, descriptor)
  | field owner name descriptor => pool.member index = .ok ⟨owner, name, descriptor, false⟩
  | method owner name descriptor isInterface =>
    pool.member index = .ok ⟨owner, name, descriptor, isInterface⟩
  | handle h => pool.handle index = .ok h
  | loadable c => pool.loadable bootstraps index = .ok c
  | bootstrap h arguments => pool.bootstrap bootstraps index = .ok (h, arguments)
  | dynamicCall name descriptor h arguments =>
    ∃ i, pool.invokeDynamic index = .ok (i, name, descriptor) ∧
      pool.bootstrap bootstraps i = .ok (h, arguments)

end Request

namespace Building

open Constant (Kept)

/-- The slot of a constant is where it is found, if the look-up goes so deep. -/
theorem loadable_provides_of_few {levels : Nat} {c : Constant} (few : c.Few) :
    Provides (loadable c) fun slot t => c.Kept levels →
      t.pool.loadableNested t.bootstraps.toArray levels slot = .ok c := by
  by_cases within : c.Within levels
  · refine (loadable_provides within).mono fun slot t found kept => ?_
    rw [Constant.stored_of_storable c kept.handles] at found
    exact found
  · obtain ⟨enough, deep⟩ := c.exists_within few
    exact (loadable_provides deep).mono fun slot t _ kept => absurd kept.within within

/-- The index of a bootstrap method is where it is found, if the look-up goes so deep. -/
theorem bootstrap_provides_of_few {h : Handle} {arguments : List Constant}
    (few : arguments.length < 65536) (each : ∀ c ∈ arguments, c.Few) :
    Provides (bootstrap h arguments) fun i t =>
      h.Storable ∧ (∀ c ∈ arguments, c.Kept maxConstantNesting) →
        t.pool.bootstrap t.bootstraps.toArray i = .ok (h, arguments) := by
  by_cases within : ∀ c ∈ arguments, c.Within maxConstantNesting
  · have found := bootstrap_provides (h := h) few fun c member => loadable_provides (within c member)
    refine found.mono fun i t found ⟨storable, kept⟩ => ?_
    have same : arguments.map Constant.stored = arguments := by
      rw [← Constant.storedAll_eq]
      exact Constant.storedAll_of_storable arguments fun c member => (kept c member).handles
    rw [Handle.stored_of_storable storable, same] at found
    exact found
  · obtain ⟨enough, deep⟩ := Constant.exists_within_all arguments each
    have found := bootstrap_provides (h := h) few fun c member => loadable_provides (deep c member)
    exact found.mono fun i t _ ⟨_, kept⟩ => absurd (fun c member => (kept c member).within) within

end Building

namespace Request

open Building

/-- The index of a request is where what is requested is found. -/
theorem ask_provides {r : Request} (few : r.Few) :
    Provides r.ask fun index t => r.Kept → r.Found t.pool t.bootstraps.toArray index := by
  cases r with
  | utf8 text => exact (utf8_provides text).mono fun _ _ found _ => found
  | classRef name => exact (classRef_provides name).mono fun _ _ found _ => found
  | nameAndType name descriptor =>
    exact (nameAndType_provides name descriptor).mono fun _ _ found _ => found
  | field owner name descriptor =>
    exact (field_provides owner name descriptor).mono fun _ _ found _ => found
  | method owner name descriptor isInterface =>
    exact (method_provides owner name descriptor isInterface).mono fun _ _ found _ => found
  | handle h =>
    refine (handle_provides h).mono fun _ _ found storable => ?_
    rw [Handle.stored_of_storable storable] at found
    exact found
  | loadable c => exact loadable_provides_of_few few
  | bootstrap h arguments => exact bootstrap_provides_of_few few.1 few.2
  | dynamicCall name descriptor h arguments =>
    exact (bootstrap_provides_of_few few.1 few.2).bind fun i _ =>
      (nameAndType_provides name descriptor).bind fun _ _ =>
        (entry_provides (by trivial)).mono fun _ _ found named method kept =>
          ⟨i, ConstantPool.invokeDynamic_of_entry found named, method kept⟩

end Request

/-! ## What has been served is served the same -/

/-- A builder still knows what another one knew. -/
structure PoolBuilder.Knows (b c : PoolBuilder) : Prop where
  slots : ∀ (e : PoolEntry) (slot : UInt16), b.slots[e]? = some slot → c.slots[e]? = some slot
  methods : ∀ (m : BootstrapMethod) (i : UInt16),
    b.bootstrapIndex[m]? = some i → c.bootstrapIndex[m]? = some i

namespace PoolBuilder.Knows

theorem refl (b : PoolBuilder) : b.Knows b :=
  ⟨fun _ _ => id, fun _ _ => id⟩

theorem trans {b c d : PoolBuilder} (first : b.Knows c) (second : c.Knows d) : b.Knows d :=
  ⟨fun e slot known => second.slots e slot (first.slots e slot known),
    fun m i known => second.methods m i (first.methods m i known)⟩

end PoolBuilder.Knows

namespace Building

variable {α β : Type}

/-- A request forgets nothing, and what it has returned it returns from then on, without a change. -/
def Steady (x : Building α) : Prop :=
  ∀ b r b', x b = (r, b') → b.Knows b' ∧ ∀ a, r = .ok a → ∀ c, b'.Knows c → x c = (.ok a, c)

namespace Steady

theorem pure (a : α) : Steady (Pure.pure a) := by
  intro b r b' ran
  cases ran
  refine ⟨.refl b, fun a' returned c _ => ?_⟩
  cases returned
  rfl

theorem fail (cause : WriteError) : Steady (Building.fail cause : Building α) := by
  intro b r b' ran
  cases ran
  exact ⟨.refl b, fun _ returned => by cases returned⟩

theorem bind {x : Building α} {next : α → Building β} (first : Steady x)
    (second : ∀ a, Steady (next a)) : Steady (x >>= next) := by
  intro b r b' ran
  rw [bind_eq] at ran
  obtain ⟨knows₁, again₁⟩ := first b (x b).1 (x b).2 rfl
  rcases here : x b with ⟨_ | a, c⟩
  · rw [here] at ran knows₁
    cases ran
    exact ⟨knows₁, fun _ returned => by cases returned⟩
  · rw [here] at ran knows₁ again₁
    obtain ⟨knows₂, again₂⟩ := second a c r b' ran
    refine ⟨knows₁.trans knows₂, fun a' returned d later => ?_⟩
    simp only [bind_eq, again₁ a rfl d (knows₂.trans later)]
    exact again₂ a' returned d later

end Steady

/-- A builder knows the slot of an entry that it has been asked for. -/
theorem slots_of_entry {e : PoolEntry} {b b' : PoolBuilder} {slot : UInt16}
    (ran : entry e b = (.ok slot, b')) : b'.slots[e]? = some slot := by
  cases found : b.slots[e]? with
  | some known =>
    rw [entry_of_some found] at ran
    cases ran
    exact found
  | none =>
    rcases entry_of_none found ran with ⟨-, full, -⟩ | ⟨-, asked, rfl⟩
    · cases full
    · cases asked
      simp

theorem methods_of_bootstrapMethod {m : BootstrapMethod} {b b' : PoolBuilder} {i : UInt16}
    (ran : bootstrapMethod m b = (.ok i, b')) : b'.bootstrapIndex[m]? = some i := by
  cases found : b.bootstrapIndex[m]? with
  | some known =>
    rw [bootstrapMethod_of_some found] at ran
    cases ran
    exact found
  | none =>
    rcases bootstrapMethod_of_none found ran with ⟨-, full, -⟩ | ⟨-, asked, rfl⟩
    · cases full
    · cases asked
      simp

theorem entry_knows {e : PoolEntry} {b b' : PoolBuilder} {r : Except Failure UInt16}
    (ran : entry e b = (r, b')) : b.Knows b' := by
  cases found : b.slots[e]? with
  | some slot =>
    rw [entry_of_some found] at ran
    cases ran
    exact .refl b
  | none =>
    rcases entry_of_none found ran with ⟨-, -, rfl⟩ | ⟨-, -, rfl⟩
    · exact .refl _
    · refine ⟨fun other slot known => ?_, fun _ _ => id⟩
      have apart : e ≠ other := by
        rintro rfl
        simp [found] at known
      simpa [Std.HashMap.getElem?_insert, apart] using known

theorem bootstrapMethod_knows {m : BootstrapMethod} {b b' : PoolBuilder}
    {r : Except Failure UInt16} (ran : bootstrapMethod m b = (r, b')) : b.Knows b' := by
  cases found : b.bootstrapIndex[m]? with
  | some i =>
    rw [bootstrapMethod_of_some found] at ran
    cases ran
    exact .refl b
  | none =>
    rcases bootstrapMethod_of_none found ran with ⟨-, -, rfl⟩ | ⟨-, -, rfl⟩
    · exact .refl _
    · refine ⟨fun _ _ => id, fun other i known => ?_⟩
      have apart : m ≠ other := by
        rintro rfl
        simp [found] at known
      simpa [Std.HashMap.getElem?_insert, apart] using known

theorem entry_steady (e : PoolEntry) : Steady (entry e) := by
  refine fun b r b' ran => ⟨entry_knows ran, fun slot returned c later => ?_⟩
  subst returned
  exact entry_of_some (later.slots e slot (slots_of_entry ran))

theorem bootstrapMethod_steady (m : BootstrapMethod) : Steady (bootstrapMethod m) := by
  refine fun b r b' ran => ⟨bootstrapMethod_knows ran, fun i returned c later => ?_⟩
  subst returned
  exact bootstrapMethod_of_some (later.methods m i (methods_of_bootstrapMethod ran))

theorem utf8_steady (text : String) : Steady (utf8 text) := by
  intro b r b' ran
  rcases utf8_eq text b with ⟨-, long⟩ | ⟨asked, -⟩
  · rw [long] at ran
    cases ran
    exact ⟨.refl b, fun _ returned => by cases returned⟩
  rw [asked] at ran
  refine ⟨entry_knows ran, fun slot returned c later => ?_⟩
  subst returned
  have known := later.slots _ slot (slots_of_entry ran)
  -- A text that has its slot is not measured again.
  rcases utf8_eq text c with ⟨⟨absent, -⟩, -⟩ | ⟨again, -⟩
  · rw [known] at absent
    cases absent
  · rw [again, entry_of_some known]

theorem classRef_steady (name : String) : Steady (classRef name) :=
  (utf8_steady name).bind fun _ => entry_steady _

theorem nameAndType_steady (name descriptor : String) : Steady (nameAndType name descriptor) :=
  (utf8_steady name).bind fun _ => (utf8_steady descriptor).bind fun _ => entry_steady _

theorem field_steady (owner name descriptor : String) : Steady (field owner name descriptor) :=
  (classRef_steady owner).bind fun _ => (nameAndType_steady name descriptor).bind fun _ =>
    entry_steady _

theorem method_steady (owner name descriptor : String) (isInterface : Bool) :
    Steady (method owner name descriptor isInterface) :=
  (classRef_steady owner).bind fun _ => (nameAndType_steady name descriptor).bind fun _ =>
    entry_steady _

theorem handle_steady (h : Handle) : Steady (handle h) := by
  rw [handle]
  dsimp only
  split
  · exact (field_steady _ _ _).bind fun _ => entry_steady _
  · exact (method_steady _ _ _ _).bind fun _ => entry_steady _

mutual

theorem loadable_steady : ∀ c : Constant, Steady (loadable c)
  | .int _ | .float _ | .long _ | .double _ => by
    rw [loadable]
    exact entry_steady _
  | .string text | .methodType text => by
    rw [loadable]
    exact (utf8_steady text).bind fun _ => entry_steady _
  | .classRef name => by
    rw [loadable]
    exact classRef_steady name
  | .handle h => by
    rw [loadable]
    exact handle_steady h
  | .dynamic name descriptor h arguments => by
    rw [loadable]
    exact (handle_steady h).bind fun _ => (loadables_steady arguments).bind fun _ =>
      (bootstrapMethod_steady _).bind fun _ => (nameAndType_steady name descriptor).bind fun _ =>
        entry_steady _

theorem loadables_steady : ∀ constants : List Constant, Steady (loadables constants)
  | [] => by
    rw [loadables]
    exact .pure []
  | c :: constants => by
    rw [loadables]
    exact (loadable_steady c).bind fun _ => (loadables_steady constants).bind fun _ => .pure _

end

theorem bootstrap_steady (h : Handle) (arguments : List Constant) : Steady (bootstrap h arguments) :=
  (handle_steady h).bind fun _ => (loadables_steady arguments).bind fun _ =>
    bootstrapMethod_steady _

end Building

theorem Request.ask_steady (r : Request) : r.ask.Steady := by
  cases r with
  | utf8 text => exact Building.utf8_steady text
  | classRef name => exact Building.classRef_steady name
  | nameAndType name descriptor => exact Building.nameAndType_steady name descriptor
  | field owner name descriptor => exact Building.field_steady owner name descriptor
  | method owner name descriptor isInterface =>
    exact Building.method_steady owner name descriptor isInterface
  | handle h => exact Building.handle_steady h
  | loadable c => exact Building.loadable_steady c
  | bootstrap h arguments => exact Building.bootstrap_steady h arguments
  | dynamicCall name descriptor h arguments =>
    exact (Building.bootstrap_steady h arguments).bind fun _ =>
      (Building.nameAndType_steady name descriptor).bind fun _ => Building.entry_steady _

/-! ## Sequences -/

namespace PoolBuilder

/-- The answers to requests that are served one behind the other, and the builder behind the last
one. A request that fails may leave entries behind. -/
def serve : List Request → PoolBuilder → List (Except Failure UInt16) × PoolBuilder
  | [], b => ([], b)
  | r :: rest, b =>
    ((r.ask.run.run b).1 :: (serve rest (r.ask.run.run b).2).1, (serve rest (r.ask.run.run b).2).2)

/-- What a sequence of requests leaves behind: tables in which every answer is right. -/
theorem Shows.serve {requests : List Request} (few : ∀ r ∈ requests, r.Few) {b : PoolBuilder}
    {t : Tables} (shows : b.Shows t) :
    ∃ t', (PoolBuilder.serve requests b).2.Shows t' ∧ t.Extends t' ∧
      ∀ p ∈ requests.zip (PoolBuilder.serve requests b).1, ∀ index, p.2 = .ok index →
        ∀ later, t'.Extends later → p.1.Kept →
          p.1.Found later.pool later.bootstraps.toArray index := by
  induction requests generalizing b t with
  | nil => exact ⟨t, shows, .refl t, fun p member => by simp at member⟩
  | cons r rest ih =>
    obtain ⟨-, t₁, shows₁, grown₁, right₁⟩ :=
      Request.ask_provides (few r List.mem_cons_self) b t shows _ _ rfl
    obtain ⟨t₂, shows₂, grown₂, right₂⟩ :=
      ih (fun r' member => few r' (List.mem_cons_of_mem _ member)) shows₁
    refine ⟨t₂, shows₂, grown₁.trans grown₂, fun p member => ?_⟩
    rcases List.mem_cons.mp member with rfl | member
    · exact fun index returned later extends_ => right₁ index returned later (grown₂.trans extends_)
    · exact right₂ p member

/-- Nothing that is known is forgotten, and a request that has been served is served the same. -/
theorem serve_steady (requests : List Request) (b : PoolBuilder) :
    b.Knows (serve requests b).2 ∧
      ∀ (r : Request) (index : UInt16), (∀ c, b.Knows c → (r.ask.run.run c).1 = .ok index) →
        ∀ p ∈ requests.zip (serve requests b).1, p.1 = r → p.2 = .ok index := by
  induction requests generalizing b with
  | nil => exact ⟨.refl b, fun r index _ p member => by simp [serve] at member⟩
  | cons r rest ih =>
    obtain ⟨knows, -⟩ := r.ask_steady b _ _ rfl
    obtain ⟨others, again⟩ := ih (r.ask.run.run b).2
    refine ⟨knows.trans others, fun r' index answered p member same => ?_⟩
    rcases List.mem_cons.mp member with rfl | member
    · subst same
      exact answered b (.refl b)
    · exact again r' index (fun c later => answered c (knows.trans later)) p member same

/-- Equal requests get equal answers from the first one on that is served. -/
theorem serve_pairwise (requests : List Request) (b : PoolBuilder) :
    (requests.zip (serve requests b).1).Pairwise fun p q =>
      p.1 = q.1 → ∀ index, p.2 = .ok index → q.2 = .ok index := by
  induction requests generalizing b with
  | nil => exact .nil
  | cons r rest ih =>
    refine .cons (fun q member same index answered => ?_) (ih _)
    obtain ⟨-, steady⟩ := r.ask_steady b _ _ rfl
    refine (serve_steady rest _).2 r index (fun c later => ?_) q member same.symm
    exact congrArg Prod.fst (steady index answered c later)

/-- Requests that are served from a first builder on leave behind a pool and bootstrap methods that
can be read. All that the class file had is in its place, every index that has been returned leads to
what was requested, and equal requests have got equal indices. -/
theorem serve_faithful {c : Class} (genuine : ∀ origin, c.origin = some origin → origin.Genuine) :
    ∃ first, ofClass c = .ok first ∧ ∀ requests answers last, (∀ r ∈ requests, Request.Few r) →
      serve requests first = (answers, last) → last.size < 65536 → last.bootstraps.size < 65536 →
      ∃ pool bootstraps, last.reread = .ok (pool, bootstraps) ∧ pool.size = last.size ∧
        (∀ origin, c.origin = some origin → ∃ source rest,
          ConstantPool.read.run (Cursor.ofBytes origin.pool) = .ok (source, rest) ∧
          source.entries.toList <+: pool.entries.toList ∧
          origin.bootstraps.take 65536 <+: bootstraps) ∧
        (∀ p ∈ requests.zip answers, ∀ index, p.2 = .ok index → p.1.Kept →
          p.1.Found pool bootstraps.toArray index) ∧
        (requests.zip answers).Pairwise fun p q =>
          p.1 = q.1 → ∀ index, p.2 = .ok index → q.2 = .ok index := by
  obtain ⟨first, t, begun, shows, source⟩ := ofClass_of_genuine genuine
  refine ⟨first, begun, fun requests answers last few served slots methods => ?_⟩
  obtain ⟨t', shows', grown, right⟩ := shows.serve few
  have repeated := serve_pairwise requests first
  rw [served] at shows' right repeated
  refine ⟨t'.pool, t'.bootstraps, shows'.reread slots methods, ?_, ?_, ?_, repeated⟩
  · rw [shows'.size]
    exact ConstantPool.size_ofSlots t'.slots
  · intro origin known
    obtain ⟨bootstraps, rest, read⟩ := source origin known
    exact ⟨t.pool, rest, read, (List.prefix_cons_inj _).mpr grown.slots, bootstraps ▸ grown.bootstraps⟩
  · exact fun p member index returned kept => right p member index returned t' (.refl t') kept

end PoolBuilder

/-! ## Requests are served while there is room -/

namespace Building

variable {α β : Type}

/-- A request is served if there is room for some slots and some bootstrap methods, and takes no
more. -/
def Fits (x : Building α) (slots methods : Nat) : Prop :=
  ∀ b : PoolBuilder, b.size + slots ≤ 65535 → b.bootstraps.size + methods ≤ 65536 →
    ∃ a b', x b = (.ok a, b') ∧ b'.size ≤ b.size + slots ∧
      b'.bootstraps.size ≤ b.bootstraps.size + methods

theorem Fits.bind {x : Building α} {next : α → Building β}
    {slots methods more moreMethods all allMethods : Nat} (first : x.Fits slots methods)
    (second : ∀ a, (next a).Fits more moreMethods) (enough : slots + more = all)
    (enough' : methods + moreMethods = allMethods) : (x >>= next).Fits all allMethods := by
  intro b room room'
  obtain ⟨a, c, ran, size, count⟩ := first b (by omega) (by omega)
  obtain ⟨a', d, ran', size', count'⟩ := second a c (by omega) (by omega)
  refine ⟨a', d, ?_, by omega, by omega⟩
  simp only [bind_eq, ran, ran']

theorem entry_fits {e : PoolEntry} {width : Nat} (taken : e.slots.length = width) :
    (entry e).Fits width 0 := by
  subst taken
  intro b room _
  cases found : b.slots[e]? with
  | some slot => exact ⟨slot, b, entry_of_some found, by omega, by omega⟩
  | none =>
    rcases ran : entry e b with ⟨r, b'⟩
    rcases entry_of_none found ran with ⟨full, -⟩ | ⟨-, rfl, rfl⟩
    · omega
    · exact ⟨_, _, rfl, Nat.le_refl _, Nat.le_refl _⟩

theorem bootstrapMethod_fits (m : BootstrapMethod) : (bootstrapMethod m).Fits 0 1 := by
  intro b _ room
  cases found : b.bootstrapIndex[m]? with
  | some i => exact ⟨i, b, bootstrapMethod_of_some found, by omega, by omega⟩
  | none =>
    rcases ran : bootstrapMethod m b with ⟨r, b'⟩
    rcases bootstrapMethod_of_none found ran with ⟨full, -⟩ | ⟨-, rfl, rfl⟩
    · omega
    · refine ⟨_, _, rfl, Nat.le_refl _, ?_⟩
      simp

theorem utf8_fits {text : String} (short : (Text.encodeModified text).length ≤ 65535) :
    (utf8 text).Fits 1 0 := by
  intro b room room'
  rcases utf8_eq text b with ⟨⟨-, long⟩, -⟩ | ⟨asked, -⟩
  · omega
  · rw [asked]
    exact entry_fits rfl b room room'

theorem nameAndType_fits {name descriptor : String}
    (short : (Text.encodeModified name).length ≤ 65535)
    (short' : (Text.encodeModified descriptor).length ≤ 65535) :
    (nameAndType name descriptor).Fits 3 0 :=
  (utf8_fits short).bind (fun _ => (utf8_fits short').bind (fun _ => entry_fits rfl) rfl rfl) rfl rfl

theorem method_fits {owner name descriptor : String}
    (short : (Text.encodeModified owner).length ≤ 65535)
    (short' : (Text.encodeModified name).length ≤ 65535)
    (short'' : (Text.encodeModified descriptor).length ≤ 65535) (isInterface : Bool) :
    (method owner name descriptor isInterface).Fits 6 0 := by
  have owned : (classRef owner).Fits 2 0 :=
    (utf8_fits short).bind (fun _ => entry_fits rfl) rfl rfl
  exact owned.bind (fun _ => (nameAndType_fits short' short'').bind (fun _ => entry_fits rfl) rfl rfl)
    rfl rfl

/-- A constant that is requested again takes no room. -/
theorem loadables_replicate {c : Constant} {b b' : PoolBuilder} {slot : UInt16}
    (ran : loadable c b = (.ok slot, b')) (count : Nat) :
    loadables (List.replicate (count + 1) c) b = (.ok (List.replicate (count + 1) slot), b') := by
  have again : loadable c b' = (.ok slot, b') :=
    (loadable_steady c b _ b' ran).2 slot rfl b' (.refl b')
  have rest : ∀ count, loadables (List.replicate count c) b' = (.ok (List.replicate count slot), b') := by
    intro count
    induction count with
    | zero => rw [List.replicate_zero, loadables]; rfl
    | succ count ih =>
      rw [List.replicate_succ, loadables]
      simp only [bind_eq, again, ih]
      rfl
  rw [List.replicate_succ, loadables]
  simp only [bind_eq, ran, rest count]
  rfl

theorem loadables_replicate_fits {c : Constant} {slots methods : Nat}
    (one : (loadable c).Fits slots methods) (count : Nat) :
    (loadables (List.replicate (count + 1) c)).Fits slots methods := by
  intro b room room'
  obtain ⟨slot, b', ran, bounds⟩ := one b room room'
  exact ⟨_, b', loadables_replicate ran count, bounds⟩

end Building

namespace PoolBuilder

/-- The tables that are read have no list of arguments that is too long to be stored. -/
theorem storable_of_reread {b : PoolBuilder} {pool : ConstantPool} {bootstraps : List BootstrapMethod}
    (read : b.reread = .ok (pool, bootstraps)) : ∀ m ∈ bootstraps, m.Storable := by
  rw [reread] at read
  obtain ⟨⟨found, c⟩, -, read⟩ := ok_of_bind read
  cases table : b.bootstrapTable with
  | none =>
    rw [table] at read
    cases read
    intro m member
    cases member
  | some data =>
    rw [table] at read
    obtain ⟨⟨methods, c'⟩, counted, read⟩ := ok_of_bind read
    cases read
    intro m member
    obtain ⟨_, _, one⟩ := (of_counted counted).2 m member
    exact BootstrapMethod.storable_of_read one

theorem serve_faithful_twice : ∃ first index last pool bootstraps,
    ofClass { name := "A" } = .ok first ∧
      serve [.loadable (.int 7), .loadable (.int 7)] first = ([.ok index, .ok index], last) ∧
      last.size < 65536 ∧ last.bootstraps.size < 65536 ∧ last.reread = .ok (pool, bootstraps) ∧
      pool.size = last.size ∧ pool.loadable bootstraps.toArray index = .ok (.int 7) := by
  obtain ⟨first, begun, faithful⟩ := serve_faithful (c := { name := "A" }) fun _ known => by
    cases known
  cases begun
  have fits : (Building.loadable (.int 7)).Fits 1 0 := by
    rw [Building.loadable]
    exact Building.entry_fits rfl
  obtain ⟨index, last, ran, size, count⟩ :=
    fits ({ owner := "A" } : PoolBuilder) (by decide) (by decide)
  have asked : (Request.loadable (.int 7)).ask.run.run { owner := "A" } = (.ok index, last) := ran
  have again : (Request.loadable (.int 7)).ask.run.run last = (.ok index, last) :=
    (Building.loadable_steady (.int 7) _ _ _ ran).2 index rfl last (.refl last)
  have served : serve [.loadable (.int 7), .loadable (.int 7)] { owner := "A" } =
      ([.ok index, .ok index], last) := by
    simp only [serve, asked, again]
  have few : ∀ r ∈ [Request.loadable (.int 7), .loadable (.int 7)], r.Few := by
    intro r member
    simp at member
    subst member
    exact fun arguments lists => by cases lists
  have small : last.size < 65536 := Nat.lt_of_le_of_lt size (by decide)
  have small' : last.bootstraps.size < 65536 := Nat.lt_of_le_of_lt count (by decide)
  obtain ⟨pool, bootstraps, read, slots, -, found, -⟩ :=
    faithful _ _ last few served small small'
  refine ⟨_, index, last, pool, bootstraps, rfl, served, small, small', read, slots, ?_⟩
  exact found (.loadable (.int 7), .ok index) (by simp) index rfl
    ⟨trivial, fun h mentions => by cases mentions⟩

/-- A handle of a static method. -/
def maker : Handle :=
  ⟨6, "A", "f", "()I", false⟩

/-- A constant with more arguments than two octets can count. -/
def overlong : Constant :=
  .dynamic "x" "I" maker (List.replicate 65536 (.int 0))

theorem overlong_fits : (Building.loadable overlong).Fits 12 1 := by
  have short : ∀ text ∈ ["A", "f", "()I", "x", "I"], (Text.encodeModified text).length ≤ 65535 := by
    decide +kernel
  have handle : (Building.handle maker).Fits 7 0 :=
    (Building.method_fits (short "A" (by simp)) (short "f" (by simp)) (short "()I" (by simp))
      false).bind (fun _ => Building.entry_fits rfl) rfl rfl
  have arguments : (Building.loadables (List.replicate 65536 (.int 0))).Fits 1 0 := by
    refine Building.loadables_replicate_fits ?_ 65535
    rw [Building.loadable]
    exact Building.entry_fits rfl
  have named : (Building.nameAndType "x" "I").Fits 3 0 :=
    Building.nameAndType_fits (short "x" (by simp)) (short "I" (by simp))
  rw [overlong, Building.loadable]
  exact handle.bind (fun _ => arguments.bind (fun _ => (Building.bootstrapMethod_fits _).bind
    (fun _ => named.bind (fun _ => Building.entry_fits rfl) rfl rfl) rfl rfl) rfl rfl) rfl rfl

/-- The constant is served, and its handle and its depth are in order, but it is not found again: the
number of its arguments is stored as zero. -/
theorem serve_loses_arguments : ∃ first index last, ofClass { name := "A" } = .ok first ∧
    serve [.loadable overlong] first = ([.ok index], last) ∧ last.size < 65536 ∧
    last.bootstraps.size < 65536 ∧ (∀ h, overlong.Mentions h → h.Storable) ∧
    ∀ pool bootstraps, last.reread = .ok (pool, bootstraps) →
      ¬ (Request.loadable overlong).Found pool bootstraps.toArray index := by
  obtain ⟨index, last, ran, size, count⟩ :=
    overlong_fits ({ owner := "A" } : PoolBuilder) (by decide) (by decide)
  have asked : (Request.loadable overlong).ask.run.run { owner := "A" } = (.ok index, last) := ran
  refine ⟨_, index, last, rfl, ?_, ?_, ?_, ?_, ?_⟩
  · rw [serve, serve, asked]
  · exact Nat.lt_of_le_of_lt size (by decide)
  · exact Nat.lt_of_le_of_lt count (by decide)
  · intro h mentions small
    cases mentions with
    | bootstrap => rfl
    | argument _ _ _ member mentions =>
      rw [List.eq_of_mem_replicate member] at mentions
      cases mentions
  · intro pool bootstraps read found
    have storable := storable_of_reread read
    have within : overlong.Within (maxConstantNesting + 1) :=
      ConstantPool.within_of_loadableNested (fun m member => storable m (by simpa using member)) found
    have few := within.1
    rw [List.length_replicate] at few
    exact Nat.lt_irrefl _ few

end PoolBuilder

end Bytecode
