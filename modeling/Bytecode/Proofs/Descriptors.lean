import Bytecode.Analysis.Transfer

/-!
# Descriptors and their texts

Parsing inverts printing: a text that parses to a descriptor is the text of that descriptor. The
first part proves so for one type by following the parser, the second for argument lists.

The analysis finds the return type of a call behind the last closing parenthesis of its descriptor.
That is the return type of the parsed descriptor unless that type contains a closing parenthesis
itself, as the name of a class may.

`IsDescriptor` and `IsMethodDescriptor` say which texts describe a type and a method, without a
parser. `parse_grammar` says that the parsers accept exactly these texts, and that what they return
has the text that was read. A text of the grammar is parsed whatever follows it
(`parsePrefix_append`), which carries over to a list of arguments in front of the parenthesis that
ends it.
-/

namespace Bytecode

namespace Descriptor

/-- A descriptor that was read stands at the front of the text. -/
theorem chars_of_parsePrefix {cs rest : List Char} {type : Descriptor}
    (h : parsePrefix cs = .ok (type, rest)) : cs = type.chars ++ rest := by
  fun_induction parsePrefix cs generalizing type rest with
  | case1 | case12 | case13 | case14 | case16 => cases h
  | case2 | case3 | case4 | case5 | case6 | case7 | case8 | case9 | case10 =>
    cases h
    rfl
  | case11 body c after eq =>
    cases h
    have stop : c = ';' := by
      have head := List.head?_dropWhile_not (· != ';') body
      rw [eq] at head
      simpa using head
    have parts := List.takeWhile_append_dropWhile (p := (· != ';')) (l := body)
    rw [eq, stop] at parts
    rw [chars, String.toList_ofList, List.append_assoc, List.cons_append, List.singleton_append, parts]
  | case15 body element after notVoid eq ih =>
    cases h
    rw [ih eq]
    rfl

/-- A text that parses to a descriptor is its text. -/
theorem chars_of_parseChars {cs : List Char} {type : Descriptor} (h : parseChars cs = .ok type) :
    cs = type.chars := by
  unfold parseChars at h
  split at h
  · cases h
  · next read =>
    cases h
    rw [chars_of_parsePrefix read, List.append_nil]
  · cases h

end Descriptor

namespace MethodDescriptor

/-- The argument list that was read stands at the front of the text, before the parenthesis that
ends it, and no argument is void. -/
theorem chars_of_parseArguments {whole : String} {cs rest : List Char} {types : List Descriptor}
    (h : parseArguments whole cs = .ok (types, rest)) :
    cs = types.flatMap Descriptor.chars ++ ')' :: rest ∧ ∀ type ∈ types, type ≠ .void := by
  fun_induction parseArguments whole cs generalizing types rest with
  | case1 after =>
    simp only [Except.ok.injEq, Prod.mk.injEq] at h
    obtain ⟨rfl, rfl⟩ := h
    exact ⟨rfl, by simp⟩
  | case2 => cases h
  | case3 => cases h
  | case4 => cases h
  | case5 cs _ type after notVoid read _ types rest parsed ih =>
    cases h
    obtain ⟨shape, notVoids⟩ := ih parsed
    refine ⟨?_, List.forall_mem_cons.mpr ⟨notVoid, notVoids⟩⟩
    rw [Descriptor.chars_of_parsePrefix read, shape]
    simp

/-- A text that parses to a method descriptor is its text, and no argument is void. -/
theorem chars_of_parse {text : String} {d : MethodDescriptor} (h : parse text = .ok d) :
    text.toList = d.chars ∧ ∀ type ∈ d.arguments, type ≠ .void := by
  unfold parse at h
  split at h
  · next cs start =>
    split at h
    · cases h
    · next arguments rest read =>
      split at h
      · cases h
      · next returnType result =>
        cases h
        obtain ⟨shape, notVoids⟩ := chars_of_parseArguments read
        rw [start, shape, Descriptor.chars_of_parseChars result]
        exact ⟨by simp [chars], notVoids⟩
  · cases h

/-- The characters of a return type parse to it. -/
theorem parseChars_returnType {text : String} {d : MethodDescriptor} (h : parse text = .ok d) :
    Descriptor.parseChars d.returnType.chars = .ok d.returnType := by
  unfold parse at h
  split at h
  · split at h
    · cases h
    · split at h
      · cases h
      · next returnType result =>
        cases h
        rw [← Descriptor.chars_of_parseChars result]
        exact result
  · cases h

/-- Every argument has a kind. -/
theorem kind_of_argument {text : String} {d : MethodDescriptor} (h : parse text = .ok d)
    {type : Descriptor} (member : type ∈ d.arguments) : (Kind.ofDescriptor type).isSome := by
  have notVoid := (chars_of_parse h).2 type member
  cases type <;> first | rfl | exact absurd rfl notVoid

end MethodDescriptor

namespace Analysis.Transfer

/-- What follows the last closing parenthesis is the return type, if that contains none. -/
theorem returnText_of_parse {text : String} {d : MethodDescriptor}
    (h : MethodDescriptor.parse text = .ok d) (plain : ')' ∉ d.returnType.chars) :
    returnText text = String.ofList d.returnType.chars := by
  have shape := (MethodDescriptor.chars_of_parse h).1
  have member : ')' ∈ text.toList := by simp [shape, MethodDescriptor.chars]
  have behind : (text.toList.reverse.takeWhile (· != ')')).reverse = d.returnType.chars := by
    rw [shape, MethodDescriptor.chars, List.reverse_append, List.reverse_cons, List.append_assoc,
      List.takeWhile_append_of_pos, List.singleton_append, List.takeWhile_cons_of_neg (by simp),
      List.append_nil, List.reverse_reverse]
    intro c member
    simp only [bne_iff_ne, ne_eq]
    rintro rfl
    exact plain (List.mem_reverse.mp member)
  simp only [returnText, if_pos member, behind]

/-- The kind of the result of a call is that of its return type, if that contains no closing
parenthesis. -/
theorem resultKind_of_parse {text : String} {d : MethodDescriptor}
    (h : MethodDescriptor.parse text = .ok d) (plain : ')' ∉ d.returnType.chars) :
    (Descriptor.parse (returnText text)).toOption.bind Kind.ofDescriptor =
      Kind.ofDescriptor d.returnType := by
  rw [returnText_of_parse h plain, Descriptor.parse, String.toList_ofList,
    MethodDescriptor.parseChars_returnType h]
  rfl

end Analysis.Transfer

/-! ## The grammar -/

/-- The texts that describe a type: a letter; the name of a class between `L` and `;`; or `[` in
front of the text of a type other than void. -/
inductive IsDescriptor : List Char → Prop where
  | letter {c : Char} (known : c ∈ ['V', 'Z', 'C', 'B', 'S', 'I', 'F', 'J', 'D']) : IsDescriptor [c]
  | object {name : List Char} (plain : ';' ∉ name) : IsDescriptor ('L' :: name ++ [';'])
  | array {element : List Char} (describes : IsDescriptor element) (notVoid : element ≠ ['V']) :
    IsDescriptor ('[' :: element)

/-- The texts that describe a method: those of argument types other than void between parentheses,
and that of a return type. -/
def IsMethodDescriptor (cs : List Char) : Prop :=
  ∃ arguments : List (List Char), (∀ a ∈ arguments, IsDescriptor a ∧ a ≠ ['V']) ∧
    ∃ result, IsDescriptor result ∧ cs = '(' :: arguments.flatten ++ ')' :: result

/-- No text of the grammar begins with a closing parenthesis, or is empty. -/
theorem IsDescriptor.exists_cons {cs : List Char} (describes : IsDescriptor cs) :
    ∃ c rest, cs = c :: rest ∧ c ≠ ')' := by
  cases describes with
  | letter known => exact ⟨_, [], rfl, by rintro rfl; simp at known⟩
  | object => exact ⟨'L', _, rfl, by decide⟩
  | array => exact ⟨'[', _, rfl, by decide⟩

namespace Descriptor

/-- Only void has the text of void. -/
theorem chars_eq_void {type : Descriptor} : type.chars = ['V'] ↔ type = .void := by
  cases type <;> simp [chars]

/-- What was read has a text of the grammar. -/
theorem isDescriptor_of_parsePrefix {cs rest : List Char} {type : Descriptor}
    (h : parsePrefix cs = .ok (type, rest)) : IsDescriptor type.chars := by
  fun_induction parsePrefix cs generalizing type rest with
  | case1 | case12 | case13 | case14 | case16 => cases h
  | case2 | case3 | case4 | case5 | case6 | case7 | case8 | case9 | case10 =>
    cases h
    exact .letter (by decide)
  | case11 body c after eq =>
    cases h
    refine .object fun member => ?_
    have before := List.all_eq_true.mp (List.all_takeWhile (l := body) (p := (· != ';')))
    rw [String.toList_ofList] at member
    simpa using before ';' member
  | case15 body element after notVoid eq ih =>
    cases h
    exact .array (ih eq) (mt chars_eq_void.mp notVoid)

/-- A text of the grammar is read, whatever follows it. -/
theorem parsePrefix_append {cs : List Char} (describes : IsDescriptor cs) :
    ∃ type : Descriptor, type.chars = cs ∧ ∀ rest, parsePrefix (cs ++ rest) = .ok (type, rest) := by
  induction describes with
  | letter known =>
    simp only [List.mem_cons, List.not_mem_nil, or_false] at known
    rcases known with rfl | rfl | rfl | rfl | rfl | rfl | rfl | rfl | rfl
    · exact ⟨.void, rfl, fun rest => rfl⟩
    · exact ⟨.boolean, rfl, fun rest => rfl⟩
    · exact ⟨.char, rfl, fun rest => rfl⟩
    · exact ⟨.byte, rfl, fun rest => rfl⟩
    · exact ⟨.short, rfl, fun rest => rfl⟩
    · exact ⟨.int, rfl, fun rest => rfl⟩
    · exact ⟨.float, rfl, fun rest => rfl⟩
    · exact ⟨.long, rfl, fun rest => rfl⟩
    · exact ⟨.double, rfl, fun rest => rfl⟩
  | @object name plain =>
    refine ⟨.object (String.ofList name), by simp [chars], fun rest => ?_⟩
    have before : ∀ c ∈ name, (c != ';') = true := fun c member => by
      simp only [bne_iff_ne, ne_eq]
      rintro rfl
      exact plain member
    have stop : List.dropWhile (· != ';') (name ++ ';' :: rest) = ';' :: rest := by
      rw [List.dropWhile_append_of_pos before, List.dropWhile_cons_of_neg (by simp)]
    have taken : List.takeWhile (· != ';') (name ++ ';' :: rest) = name := by
      rw [List.takeWhile_append_of_pos before, List.takeWhile_cons_of_neg (by simp),
        List.append_nil]
    simp [parsePrefix, stop, taken]
  | @array element describes notVoid ih =>
    obtain ⟨type, text, read⟩ := ih
    have other : type ≠ .void := fun void => notVoid (by rw [← text, void]; rfl)
    refine ⟨.array type, by rw [chars, text], fun rest => ?_⟩
    rw [List.cons_append, parsePrefix, read]
    cases type <;> first | rfl | exact absurd rfl other

/-- A text parses exactly if it is of the grammar. -/
theorem exists_parseChars_iff {cs : List Char} :
    (∃ type, parseChars cs = .ok type) ↔ IsDescriptor cs := by
  constructor
  · rintro ⟨type, h⟩
    have text := chars_of_parseChars h
    unfold parseChars at h
    split at h
    · cases h
    · next read =>
      cases h
      rw [text]
      exact isDescriptor_of_parsePrefix read
    · cases h
  · intro describes
    obtain ⟨type, -, read⟩ := parsePrefix_append describes
    have read := read []
    rw [List.append_nil] at read
    exact ⟨type, by rw [parseChars, read]⟩

end Descriptor

namespace MethodDescriptor

/-- Arguments that were read have texts of the grammar. -/
theorem isDescriptor_of_parseArguments {whole : String} {cs rest : List Char}
    {types : List Descriptor} (h : parseArguments whole cs = .ok (types, rest)) :
    ∀ type ∈ types, IsDescriptor type.chars := by
  fun_induction parseArguments whole cs generalizing types rest with
  | case1 => cases h; simp
  | case2 => cases h
  | case3 => cases h
  | case4 => cases h
  | case5 cs _ type after notVoid read _ types rest parsed ih =>
    cases h
    exact List.forall_mem_cons.mpr ⟨Descriptor.isDescriptor_of_parsePrefix read, ih parsed⟩

/-- The arguments of a method have texts of the grammar. -/
theorem isDescriptor_of_arguments {text : String} {d : MethodDescriptor} (h : parse text = .ok d)
    {type : Descriptor} (member : type ∈ d.arguments) : IsDescriptor type.chars := by
  unfold parse at h
  split at h
  · split at h
    · cases h
    · next read =>
      split at h
      · cases h
      · cases h
        exact isDescriptor_of_parseArguments read type member
  · cases h

/-- Texts of the grammar are read up to the parenthesis that ends them. -/
theorem parseArguments_flatten {arguments : List (List Char)}
    (describe : ∀ a ∈ arguments, IsDescriptor a ∧ a ≠ ['V']) (whole : String) (rest : List Char) :
    ∃ types, parseArguments whole (arguments.flatten ++ ')' :: rest) = .ok (types, rest) := by
  induction arguments with
  | nil => exact ⟨[], by simp [parseArguments]⟩
  | cons a arguments ih =>
    obtain ⟨⟨describes, notVoid⟩, others⟩ := List.forall_mem_cons.mp describe
    obtain ⟨types, parsed⟩ := ih others
    obtain ⟨type, text, read⟩ := Descriptor.parsePrefix_append describes
    obtain ⟨c, tail, shape, open_⟩ := describes.exists_cons
    refine ⟨type :: types, ?_⟩
    rw [List.flatten_cons, List.append_assoc]
    have read := read (arguments.flatten ++ ')' :: rest)
    unfold parseArguments
    split
    · next after closed =>
      rw [shape, List.cons_append] at closed
      exact absurd (List.cons.inj closed).1 open_
    · split
      · next e failed =>
        rw [read] at failed
        cases failed
      · next after void =>
        rw [read] at void
        cases void
        exact absurd text.symm notVoid
      · next type' after _ found =>
        rw [read] at found
        cases found
        simp only [parsed]

/-- A text parses exactly if it is of the grammar of methods. -/
theorem exists_parse_iff {text : String} :
    (∃ d, parse text = .ok d) ↔ IsMethodDescriptor text.toList := by
  constructor
  · rintro ⟨d, h⟩
    obtain ⟨shape, notVoid⟩ := chars_of_parse h
    refine ⟨d.arguments.map Descriptor.chars, fun a member => ?_, d.returnType.chars, ?_, ?_⟩
    · obtain ⟨type, argument, rfl⟩ := List.mem_map.mp member
      exact ⟨isDescriptor_of_arguments h argument,
        mt Descriptor.chars_eq_void.mp (notVoid type argument)⟩
    · exact Descriptor.exists_parseChars_iff.mp ⟨_, parseChars_returnType h⟩
    · rw [shape, chars, List.flatMap_def]
  · rintro ⟨arguments, describe, result, describes, shape⟩
    obtain ⟨types, parsed⟩ := parseArguments_flatten describe text result
    obtain ⟨returnType, returned⟩ := Descriptor.exists_parseChars_iff.mpr describes
    refine ⟨⟨types, returnType⟩, ?_⟩
    simp only [parse, shape, List.cons_append, parsed, returned]

end MethodDescriptor

/-- Parsing accepts exactly the grammar and loses nothing: the text of what is returned, and of the
arguments in their order and the return type of a method, is the text that was read. -/
theorem parse_grammar :
    (∀ text, (∃ type, Descriptor.parse text = .ok type) ↔ IsDescriptor text.toList) ∧
    (∀ text type, Descriptor.parse text = .ok type → type.text = text) ∧
    (∀ text, (∃ d, MethodDescriptor.parse text = .ok d) ↔ IsMethodDescriptor text.toList) ∧
    (∀ text d, MethodDescriptor.parse text = .ok d →
      "(" ++ String.join (d.arguments.map Descriptor.text) ++ ")" ++ d.returnType.text = text) := by
  refine ⟨fun text => Descriptor.exists_parseChars_iff, fun text type h => ?_,
    fun text => MethodDescriptor.exists_parse_iff, fun text d h => ?_⟩
  · rw [Descriptor.text, ← Descriptor.chars_of_parseChars h, String.ofList_toList]
  · rw [← String.toList_inj, (MethodDescriptor.chars_of_parse h).1]
    simp [MethodDescriptor.chars, Descriptor.text, String.toList_join, List.flatMap_def,
      Function.comp_def]

/-- A method with arguments of each kind of type. -/
theorem parse_grammar_mixed : IsMethodDescriptor "(IJLA;[[D)[LB;".toList ∧
    ∃ d, MethodDescriptor.parse "(IJLA;[[D)[LB;" = .ok d ∧
      "(" ++ String.join (d.arguments.map Descriptor.text) ++ ")" ++ d.returnType.text =
        "(IJLA;[[D)[LB;" := by
  have double : IsDescriptor ['D'] := .letter (by decide)
  have describes : IsMethodDescriptor "(IJLA;[[D)[LB;".toList := by
    refine ⟨[['I'], ['J'], ['L', 'A', ';'], ['[', '[', 'D']], ?_, ['[', 'L', 'B', ';'], ?_, rfl⟩
    · simp only [List.forall_mem_cons, List.not_mem_nil, false_implies, implies_true, and_true]
      exact ⟨⟨.letter (by decide), by decide⟩, ⟨.letter (by decide), by decide⟩,
        ⟨.object (show ';' ∉ ['A'] by decide), by decide⟩,
        .array (.array double (by decide)) (by decide), by decide⟩
    · exact .array (.object (show ';' ∉ ['B'] by decide)) (by decide)
  obtain ⟨d, parsed⟩ := (parse_grammar.2.2.1 _).mpr describes
  exact ⟨describes, d, parsed, parse_grammar.2.2.2 _ d parsed⟩

end Bytecode
