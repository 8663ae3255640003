import Bytecode.Proofs.Coding.Classes
import Bytecode.Resolution.ClassPath
import Mathlib.Logic.Function.Basic

/-!
# Class paths

A cache changes how fast a class path answers, not what it answers. `Coherent` is the invariant behind
this: every class in the cache is the one that the sources would give for its name. A new source is
asked last, so that it cannot contradict an answer that is kept already; giving up classes only makes
the cache smaller; and the sources are never removed without the cache. `performAll_eq` carries the
invariant through any sequence of commands, with a choice of its own of the classes that are given up at
every look-up.

A class path knows finitely many names, and the classes behind them have finitely many methods.
`ClassPath.length_names_le` and `ClassPath.methods_shown_le` say that `breadth` and `methodBound` are
bounds on these numbers, whatever the files and archives on the class path hold: what is not a class
counts as missing, and a class file cannot count more than 65535 methods.
-/

namespace Bytecode

namespace ClassPath

/-- What a class path keeps: answers that the sources give, and no more than the capacity allows. -/
structure Coherent (p : ClassPath) : Prop where
  genuine : ∀ c ∈ p.cache, p.lookup c.name = some c.found
  bounded : p.cache.length ≤ p.capacity

theorem coherent_of_empty {p : ClassPath} (empty : p.cache = []) : p.Coherent where
  genuine := by simp [empty]
  bounded := by simp [empty]

/-! ## Making room -/

theorem evict_sublist (victim : List String → Nat) (cache : List CachedClass) :
    (evict victim cache).Sublist cache :=
  List.eraseIdx_sublist _ _

theorem length_evict (victim : List String → Nat) (cache : List CachedClass) :
    (evict victim cache).length = cache.length - 1 := by
  cases cache with
  | nil => rfl
  | cons c rest =>
    have inside : victim ((c :: rest).map CachedClass.name) % (c :: rest).length < (c :: rest).length :=
      Nat.mod_lt _ (Nat.succ_pos _)
    rw [evict, List.length_eraseIdx, if_pos inside]

/-- Giving up classes one after the other leaves some of the cache, shorter by their number. -/
theorem foldl_evict {α : Type} (victim : List String → Nat) (times : List α)
    (cache : List CachedClass) :
    (times.foldl (fun cache _ => evict victim cache) cache).Sublist cache ∧
      (times.foldl (fun cache _ => evict victim cache) cache).length =
        cache.length - times.length := by
  induction times generalizing cache with
  | nil => exact ⟨.refl _, rfl⟩
  | cons _ times ih =>
    obtain ⟨sublist, length⟩ := ih (evict victim cache)
    refine ⟨sublist.trans (evict_sublist victim cache), ?_⟩
    rw [List.foldl_cons, length, length_evict, List.length_cons]
    omega

theorem makeRoom_sublist (p : ClassPath) : p.makeRoom.Sublist p.cache :=
  (foldl_evict _ _ _).1

theorem length_makeRoom_lt {p : ClassPath} (keeps : p.capacity ≠ 0) :
    p.makeRoom.length < p.capacity := by
  rw [makeRoom, (foldl_evict _ _ _).2, List.length_range]
  omega

/-! ## Commands keep the cache coherent -/

theorem Coherent.append {p : ClassPath} (h : p.Coherent) (source : ClassSource) :
    (p.append source).Coherent where
  genuine := fun c member => by
    have known : p.sources.findSome? (·.find? c.name) = some c.found := h.genuine c member
    rw [lookup, ClassPath.append, List.findSome?_append, known, Option.some_or]
  bounded := h.bounded

/-- Keeping an answer of the sources. -/
theorem Coherent.remember {p : ClassPath} (h : p.Coherent) {c : CachedClass}
    (found : p.lookup c.name = some c.found) : (p.remember c).Coherent := by
  unfold ClassPath.remember
  split
  · exact h
  · next keeps =>
    refine ⟨fun d member => ?_, ?_⟩
    · rcases List.mem_append.mp member with old | new
      · exact h.genuine d (p.makeRoom_sublist.subset old)
      · rw [List.mem_singleton.mp new]
        exact found
    · have room := length_makeRoom_lt keeps
      rw [List.length_append, List.length_singleton]
      exact room

/-- A coherent class path answers what its sources answer. -/
theorem Coherent.peek_eq {p : ClassPath} (h : p.Coherent) (name : String) :
    p.peek name = p.lookup name := by
  unfold peek
  split
  · next c cached =>
    have named : (c.name == name) = true := List.find?_some (p := fun d : CachedClass => d.name == name) cached
    rw [← beq_iff_eq.mp named]
    exact (h.genuine c (List.mem_of_find?_eq_some cached)).symm
  · rfl

theorem remember_sources (p : ClassPath) (c : CachedClass) : (p.remember c).sources = p.sources := by
  unfold remember
  split <;> rfl

theorem remember_capacity (p : ClassPath) (c : CachedClass) :
    (p.remember c).capacity = p.capacity := by
  unfold remember
  split <;> rfl

/-- A look-up changes nothing but the cache. -/
theorem resolve_sources (p : ClassPath) (name : String) :
    (p.resolve name).2.sources = p.sources := by
  unfold resolve
  split
  · rfl
  · split
    · rfl
    · exact remember_sources p _

theorem resolve_capacity (p : ClassPath) (name : String) :
    (p.resolve name).2.capacity = p.capacity := by
  unfold resolve
  split
  · rfl
  · split
    · rfl
    · exact remember_capacity p _

theorem Coherent.resolve {p : ClassPath} (h : p.Coherent) (name : String) :
    (p.resolve name).2.Coherent := by
  unfold ClassPath.resolve
  split
  · exact h
  · split
    · exact h
    · next found known =>
      have kept := h.remember (c := ⟨name, p.resolved, found⟩) known
      exact ⟨kept.genuine, kept.bounded⟩

/-! ## Sequences of commands -/

/-- What a class path is asked to do. Every look-up comes with its own choice of the classes that are
given up for the answer. -/
inductive Command where
  | append (source : ClassSource)
  | resolve (name : String) (victim : List String → Nat)
  | clearCache
  | clear

/-- Carries out a command, and lists its answer if it is a look-up. -/
def perform (p : ClassPath) : Command → ClassPath × List (Option Class)
  | .append source => (p.append source, [])
  | .resolve name victim =>
    let (answer, after) := { p with victim }.resolve name
    (after, [answer.map CachedClass.found])
  | .clearCache => (p.clearCache, [])
  | .clear => (p.clear, [])

/-- Carries out commands, and lists the answers of the look-ups. -/
def performAll (p : ClassPath) : List Command → ClassPath × List (Option Class)
  | [] => (p, [])
  | command :: rest =>
    let (after, answers) := p.perform command
    let (last, more) := after.performAll rest
    (last, answers ++ more)

/-- The answers of a list of sources to the look-ups among some commands: each is the one of the
first source present that knows the name. -/
def expectedAnswers : List ClassSource → List Command → List (Option Class)
  | _, [] => []
  | sources, .append source :: rest => expectedAnswers (sources ++ [source]) rest
  | sources, .resolve name _ :: rest =>
    sources.findSome? (·.find? name) :: expectedAnswers sources rest
  | sources, .clearCache :: rest => expectedAnswers sources rest
  | _, .clear :: rest => expectedAnswers [] rest

theorem Coherent.perform {p : ClassPath} (h : p.Coherent) (command : Command) :
    (p.perform command).1.Coherent ∧ (p.perform command).1.capacity = p.capacity := by
  cases command with
  | append source => exact ⟨h.append source, rfl⟩
  | resolve name victim =>
    have other : Coherent { p with victim } := ⟨h.genuine, h.bounded⟩
    exact ⟨other.resolve name, resolve_capacity _ name⟩
  | clearCache | clear => exact ⟨coherent_of_empty rfl, rfl⟩

/-- The answer to a command, and the sources behind it. -/
theorem Coherent.answers_perform {p : ClassPath} (h : p.Coherent) (command : Command)
    (rest : List Command) :
    (p.perform command).2 ++ expectedAnswers (p.perform command).1.sources rest =
      expectedAnswers p.sources (command :: rest) := by
  cases command with
  | resolve name victim =>
    have other : Coherent { p with victim } := ⟨h.genuine, h.bounded⟩
    have answer := (resolve_fst { p with victim } name).trans (other.peek_eq name)
    have listed : (p.perform (.resolve name victim)).2 = [p.lookup name] := congrArg ([·]) answer
    have kept : (p.perform (.resolve name victim)).1.sources = p.sources := resolve_sources _ name
    rw [listed, kept]
    rfl
  | append | clearCache | clear => rfl

theorem Coherent.performAll {p : ClassPath} (h : p.Coherent) (commands : List Command) :
    (p.performAll commands).2 = expectedAnswers p.sources commands ∧
      (p.performAll commands).1.Coherent ∧ (p.performAll commands).1.capacity = p.capacity := by
  induction commands generalizing p with
  | nil => exact ⟨rfl, h, rfl⟩
  | cons command rest ih =>
    obtain ⟨coherent, capacity⟩ := h.perform command
    obtain ⟨answers, coherent', capacity'⟩ := ih coherent
    refine ⟨?_, coherent', capacity'.trans capacity⟩
    rw [← h.answers_perform command rest, ← answers]
    rfl

/-- **The cache cannot be seen.** Whatever its capacity and whichever classes are given up, a class
path answers each look-up of any sequence of commands like the first source that knows the name, and
so like a class path without a cache; and the cache never holds more classes than its capacity. -/
theorem performAll_eq (sources : List ClassSource) (capacity : Nat) (commands : List Command) :
    (performAll { sources, capacity } commands).2 = expectedAnswers sources commands ∧
      (performAll { sources, capacity } commands).2 =
        (performAll { sources, capacity := 0 } commands).2 ∧
      (performAll { sources, capacity } commands).1.cache.length ≤ capacity := by
  have started (capacity : Nat) : Coherent { sources, capacity } := coherent_of_empty rfl
  obtain ⟨answers, coherent, same⟩ := (started capacity).performAll commands
  exact ⟨answers, answers.trans ((started 0).performAll commands).1.symm,
    Nat.le_trans coherent.bounded (Nat.le_of_eq same)⟩

end ClassPath

end Bytecode

/-! ## How much a class path can show -/

namespace Bytecode

namespace ClassSource

theorem fileName_injective : Function.Injective fileName :=
  fun _ _ same => (String.append_left_inj ".class").mp same

/-- The names that a source may know. The files of a directory and the entries of an archive are named
by files, whose names tell the names of classes. -/
noncomputable def names : ClassSource → List String
  | memory classes => classes.map Class.name
  | directory _ files => files.map fun file => Function.invFun fileName file.1
  | archive _ file => file.entries.map fun entry => Function.invFun fileName entry.name

theorem length_names (source : ClassSource) : source.names.length = source.breadth := by
  cases source <;> exact List.length_map _

/-- The classes that a source can show. -/
def shown : ClassSource → List Class
  | memory classes => classes
  | directory _ files => files.filterMap fun file => classIn file.2
  | archive _ file => file.entries.filterMap fun entry => (file.contents entry).toOption.bind classIn

/-- A source knows only the names that are listed, and shows only the classes that are listed. -/
theorem mem_of_find? {source : ClassSource} {name : String} {c : Class}
    (h : source.find? name = some c) : name ∈ source.names ∧ c ∈ source.shown := by
  have named : Function.invFun fileName (fileName name) = name :=
    Function.leftInverse_invFun fileName_injective name
  cases source with
  | memory classes =>
    have same := List.find?_some (p := fun c : Class => c.name == name) h
    have member := List.mem_of_find?_eq_some h
    exact ⟨List.mem_map.mpr ⟨c, member, beq_iff_eq.mp same⟩, member⟩
  | directory path files =>
    rw [find?] at h
    split at h
    · obtain ⟨data, found, read⟩ := Option.bind_eq_some_iff.mp h
      obtain ⟨before, behind, rfl, -⟩ := List.lookup_eq_some_iff.mp found
      have member : (fileName name, data) ∈ before ++ (fileName name, data) :: behind := by simp
      exact ⟨List.mem_map.mpr ⟨_, member, named⟩, List.mem_filterMap.mpr ⟨_, member, read⟩⟩
    · cases h
  | archive path file =>
    obtain ⟨entry, found, h⟩ := Option.bind_eq_some_iff.mp h
    have same := List.find?_some (p := fun e : ZipEntry => e.name == fileName name) found
    have member : entry ∈ file.entries := List.mem_of_find?_eq_some found
    refine ⟨List.mem_map.mpr ⟨entry, member, ?_⟩, List.mem_filterMap.mpr ⟨entry, member, h⟩⟩
    rw [beq_iff_eq.mp same]
    exact named

/-- A class file counts its methods in two octets. -/
theorem methods_of_classIn {data : Bytes} {c : Class} (h : classIn data = some c) :
    c.methods.length ≤ mostMethods := by
  unfold classIn at h
  cases parsed : (Class.parse data).run {} with
  | error e =>
    rw [parsed] at h
    cases h
  | ok p =>
    rw [parsed] at h
    cases h
    obtain ⟨stored, rest, read, decoded⟩ := Class.parse_eq_ok parsed
    obtain ⟨methods, same, decodes⟩ := StoredClass.of_decode decoded
    have counted := (StoredClass.bounded_of_read read).methods.1
    rw [decodes.length_eq] at counted
    rw [same]
    exact Nat.le_of_lt_succ counted

theorem methods_shown_le (source : ClassSource) :
    total (·.methods.length) source.shown ≤ source.methodBound := by
  cases source with
  | memory classes => exact Nat.le_refl _
  | directory path files =>
    refine Nat.le_trans (total_le fun c member => ?_)
      (Nat.mul_le_mul_right mostMethods (List.length_filterMap_le _ _))
    obtain ⟨file, -, read⟩ := List.mem_filterMap.mp member
    exact methods_of_classIn read
  | archive path file =>
    refine Nat.le_trans (total_le fun c member => ?_)
      (Nat.mul_le_mul_right mostMethods (List.length_filterMap_le _ _))
    obtain ⟨entry, -, h⟩ := List.mem_filterMap.mp member
    obtain ⟨data, -, read⟩ := Option.bind_eq_some_iff.mp h
    exact methods_of_classIn read

end ClassSource

namespace ClassPath

/-- The names that a class path may know. -/
noncomputable def names (p : ClassPath) : List String :=
  p.sources.flatMap ClassSource.names

/-- The classes that a class path can show. -/
def shown (p : ClassPath) : List Class :=
  p.sources.flatMap ClassSource.shown

theorem mem_of_lookup {p : ClassPath} {name : String} {c : Class} (h : p.lookup name = some c) :
    name ∈ p.names ∧ c ∈ p.shown := by
  obtain ⟨source, member, found⟩ := List.exists_of_findSome?_eq_some h
  obtain ⟨known, listed⟩ := ClassSource.mem_of_find? found
  exact ⟨List.mem_flatMap.mpr ⟨source, member, known⟩, List.mem_flatMap.mpr ⟨source, member, listed⟩⟩

theorem length_names (p : ClassPath) : p.names.length = p.breadth := by
  unfold names breadth
  induction p.sources with
  | nil => rfl
  | cons source rest ih =>
    rw [List.flatMap_cons, List.length_append, ih, source.length_names, total_cons]

theorem methods_shown_le (p : ClassPath) : total (·.methods.length) p.shown ≤ p.methodBound := by
  unfold shown methodBound
  induction p.sources with
  | nil => exact Nat.le_refl _
  | cons source rest ih =>
    rw [List.flatMap_cons, total_append, total_cons]
    exact Nat.add_le_add source.methods_shown_le ih

end ClassPath

end Bytecode
