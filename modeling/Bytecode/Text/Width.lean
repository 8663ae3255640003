import Bytecode.Text.Characters

/-!
# The width of text

How many columns of a terminal a text takes. Most characters take one column, wide ones two, and
marks none. Some take a number that depends on what follows them: selectors choose a shape, joiners
and tones merge pictures, letters of flags pair up, and letters of some scripts are joined to one
shape. A text is therefore measured from its end, and a `Context` says what stands behind a
character.
-/

namespace Bytecode.Text

/-- The character that joins the ones around it. -/
def joiner : Nat := 0x200d

/-- Letters that are joined with a character before them to one shape. -/
inductive JoiningLetter where
  /-- An Arabic alef, which is joined with a lam. -/
  | alef
  /-- A Hebrew lamed, which a joiner merges with an alef. -/
  | lamed
  /-- A Khmer letter that is written below the one before when a coeng stands between. -/
  | subscript
  /-- A Buginese ya, which a joiner merges with an i and an a. -/
  | ya
  /-- A Buginese ya merged with an i. -/
  | yaAfterVowel
  /-- A Tifinagh consonant. -/
  | tifinagh
  /-- A Tifinagh consonant behind the mark that merges it with another one. -/
  | tifinaghAfterMark
  /-- The second of two Lisu tone letters. -/
  | lisuTone
  /-- An Old Turkic i, which a joiner merges with a consonant. -/
  | orkhonI
  /-- A Kirat Rai vowel sign e. -/
  | kiratE
  /-- A Kirat Rai vowel sign ai. -/
  | kiratAi
  deriving DecidableEq, Repr

/-- What stands behind a character, as far as it changes the columns that both take. -/
inductive Follower where
  /-- Nothing, or a character that is measured by itself. -/
  | plain
  | lineFeed
  /-- A joining letter, perhaps with a joiner before it. -/
  | letter (letter : JoiningLetter) (joined : Bool)
  /-- A number of letters of flags. -/
  | flagLetters (count : Nat)
  | tone
  | picture
  /-- A picture with a joiner before it. -/
  | joinedPicture
  /-- A keycap around the character before it, joined to a picture. -/
  | joinedKeycap
  /-- A number of letters of flags that a joiner ties to a picture. -/
  | joinedFlagLetters (count : Nat)
  /-- The end of the name of a region that a joiner ties to a picture. -/
  | joinedTags (letters digits : Nat)
  deriving DecidableEq, Repr

/-- Which shape a selector asks of the character before it. -/
inductive Selector where
  | sign
  | picture
  | fullWidth
  deriving DecidableEq, Repr

/-- Which selectors stand before a follower. -/
structure Selectors where
  sign : Bool := false
  picture : Bool := false
  fullWidth : Bool := false
  deriving DecidableEq, Repr

/-- Adds a selector to some. -/
def Selectors.add (selectors : Selectors) : Selector → Selectors
  | .sign => { selectors with sign := true }
  | .picture => { selectors with picture := true }
  | .fullWidth => { selectors with fullWidth := true }

/-- What stands behind a character, with selectors before it or without. -/
structure Context where
  follower : Follower := .plain
  selectors : Selectors := {}
  deriving DecidableEq, Repr

/-- The shape that a character asks of the one before it. -/
def selector? (code : Nat) : Option Selector :=
  match code with
  | 0xfe0f => some .picture
  | 0xfe0e => some .sign
  | 0xfe01 => some .fullWidth
  | _ => none

/-- Whether selectors before a letter do not keep it from being joined. -/
def JoiningLetter.passesSelectors : JoiningLetter → Bool
  | .kiratE | .kiratAi => false
  | _ => true

namespace Context

/-- The context of a character before a selector. -/
def behind (context : Context) (selector : Selector) : Context :=
  let alone : Selectors := Selectors.add {} selector
  match context.follower with
  | .letter letter _ =>
    if letter.passesSelectors then { context with selectors := context.selectors.add selector }
    else { selectors := alone }
  | .joinedPicture | .joinedKeycap =>
    if selector = .picture then { context with selectors := alone } else { selectors := alone }
  | _ => { selectors := alone }

/-- The context that is left when some of the selectors found no use. -/
def settled (context : Context) (left : Selectors) : Context :=
  if context.selectors = left then context
  else
    match context.follower with
    | .letter .. => { context with selectors := left }
    | _ => {}

end Context

/-- Whether a character is a Tifinagh consonant. -/
def isTifinagh (code : Nat) : Bool :=
  (0x2d31 ≤ code && code ≤ 0x2d65) || code == 0x2d6f

/-- Whether a character is an Arabic lam. -/
def isLam (code : Nat) : Bool :=
  code == 0x644 || (0x6b5 ≤ code && code ≤ 0x6b8) || code == 0x76a || code == 0x8a6 || code == 0x8c7

/-- The codes of Arabic alefs. -/
def alefRanges : Ranges :=
  #[(0x622, 0x623), (0x625, 0x625), (0x627, 0x627), (0x671, 0x673), (0x675, 0x675), (0x773, 0x774),
    (0x870, 0x882)]

/-- The codes of Khmer letters that have a form below the line. -/
def subscriptRanges : Ranges :=
  #[(0x1780, 0x1782), (0x1784, 0x1787), (0x1789, 0x178c), (0x178e, 0x1793), (0x1795, 0x1798),
    (0x179b, 0x179d), (0x17a0, 0x17a0), (0x17a2, 0x17a2), (0x17a7, 0x17a7), (0x17ab, 0x17ac),
    (0x17af, 0x17af)]

/-- The joining letter with a code. -/
def joiningLetter? (code : Nat) : Option JoiningLetter :=
  if alefRanges.holds code then some .alef
  else if subscriptRanges.holds code then some .subscript
  else if isTifinagh code then some .tifinagh
  else
    match code with
    | 0x5dc => some .lamed
    | 0x1a10 => some .ya
    | 0xa4fc | 0xa4fd => some .lisuTone
    | 0x10c03 => some .orkhonI
    | 0x16d67 => some .kiratE
    | 0x16d68 => some .kiratAi
    | _ => none

/-- The columns that a character adds before a joining letter which it is joined with. -/
def JoiningLetter.join (letter : JoiningLetter) (joined : Bool) (code : Nat) :
    Option (Int × Follower) :=
  if letter ≠ .alef ∧ letter.passesSelectors ∧ code = joiner then some (0, .letter letter true)
  else if letter ≠ .alef ∧ letter.passesSelectors ∧ isShapeless code then
    some (0, .letter letter joined)
  else
    match letter with
    | .alef =>
      if isLam code then some (0, .plain)
      else if isTransparent code then some (0, .letter .alef joined)
      else none
    | .lamed => if joined && code == 0x5d0 then some (0, .plain) else none
    | .subscript => if code = 0x17d2 then some (-1, .plain) else none
    | .ya => if joined && code == 0x1a17 then some (0, .letter .yaAfterVowel true) else none
    | .yaAfterVowel => if code = 0x1a15 then some (0, .plain) else none
    | .tifinagh =>
      if code = 0x2d7f then some (1, .letter .tifinaghAfterMark true)
      else if joined && isTifinagh code then some (0, .plain)
      else none
    | .tifinaghAfterMark => if isTifinagh code then some (-1, .plain) else none
    | .lisuTone => if 0xa4f8 ≤ code ∧ code ≤ 0xa4fb then some (0, .plain) else none
    | .orkhonI => if joined && code == 0x10c32 then some (0, .plain) else none
    | .kiratE =>
      match code with
      | 0x16d63 | 0x16d69 => some (0, .plain)
      | 0x16d67 => some (0, .letter .kiratAi true)
      | 0x16d68 => some (1, .letter .kiratE true)
      | _ => none
    | .kiratAi => if code = 0x16d63 then some (0, .plain) else none

/-- The columns that a character adds before a follower which it is joined with. -/
def Follower.join (follower : Follower) (code : Nat) : Option (Int × Follower) :=
  match follower with
  | .plain | .lineFeed | .joinedKeycap => none
  | .letter last joined => last.join joined code
  | .flagLetters count =>
    if isFlagLetter code then some (1, .flagLetters (count + 1))
    else if code = joiner ∧ 2 ≤ count then some (0, .joinedPicture)
    else none
  | .tone =>
    if takesTone code then some (0, .picture)
    else if code = joiner then some (0, .joinedPicture)
    else none
  | .picture => if code = joiner then some (0, .joinedPicture) else none
  | .joinedPicture =>
    if code = 0x20e3 then some (0, .joinedKeycap)
    else if isFlagLetter code then some (1, .joinedFlagLetters 1)
    else if isTone code then some (0, .tone)
    else if code = 0xe007f then some (0, .joinedTags 0 0)
    else if isPicture code then some (0, .picture)
    else none
  | .joinedFlagLetters count =>
    if isFlagLetter code then some (if count % 2 = 1 then -1 else 3, .joinedFlagLetters (count + 1))
    else if code = joiner ∧ 2 ≤ count then some (0, .joinedPicture)
    else none
  | .joinedTags letters digits =>
    if isTagLetter code ∧ digits = 0 ∧ letters < 6 then some (0, .joinedTags (letters + 1) 0)
    else if isTagDigit code ∧ digits < 3 ∧ (digits = 0 → letters < 5) then
      some (0, .joinedTags letters (digits + 1))
    else if code = 0x1f3f4 ∧ (digits = 3 ∨ digits = 0 ∧ 3 ≤ letters) then some (0, .picture)
    else none

/-- The columns that a character takes by itself. -/
def columnsAlone (code : Nat) : Int × Follower :=
  match joiningLetter? code with
  | some letter => (1, .letter letter false)
  | none =>
    if isFlagLetter code then (1, .flagLetters 1)
    else if isTone code then (2, .tone)
    else if isPicture code then (2, .picture)
    else if code = 0x17d8 then (3, .plain)
    else if code = 0x17a4 then (2, .plain)
    else (if isColumnless code then 0 else if isWide code then 2 else 1, .plain)

/-- Whether a character is a quotation mark with a wide form. -/
def isQuotationMark (code : Nat) : Bool :=
  [0x2018, 0x2019, 0x201c, 0x201d].contains code

/-- The columns that a character adds to the text behind it, and the context of the one before. -/
def columns (context : Context) (c : Char) : Int × Context :=
  let code := c.toNat
  if context.selectors.picture ∧ hasPicture code then
    let isJoined := context.follower = .joinedPicture ∨ context.follower = .joinedKeycap
    (if isJoined then 0 else 2, ⟨.picture, {}⟩)
  else if c = '\n' then (1, ⟨.lineFeed, {}⟩)
  else if code ≤ 0xa0 then
    (if c = '\r' ∧ context = ⟨.lineFeed, {}⟩ then 0 else 1, {})
  else
    let context := context.settled { context.selectors with picture := false }
    match selector? code with
    | some selector => (0, context.behind selector)
    | none =>
      if context.selectors.sign ∧ hasSign code then (1, {})
      else if context.selectors.fullWidth ∧ isQuotationMark code then (2, {})
      else
        let follower := (context.settled {}).follower
        let (columns, follower) := (follower.join code).getD (columnsAlone code)
        (columns, ⟨follower, {}⟩)

/-- The columns of a text before a context, and the context of a character before it. -/
def measure (cs : List Char) : Int × Context :=
  cs.foldr (fun c (sum, context) =>
    let (added, context) := columns context c
    (sum + added, context)) (0, {})

/-- The columns that a text takes. -/
def width (text : String) : Nat :=
  (measure text.toList).1.toNat

/-- The number of characters is the width of plain ASCII text without line breaks. -/
theorem width_of_ascii {text : String} (h : ∀ c ∈ text.toList, c.toNat < 0x80 ∧ c ≠ '\n') :
    width text = text.toList.length := by
  have (cs : List Char) (h : ∀ c ∈ cs, c.toNat < 0x80 ∧ c ≠ '\n') :
      measure cs = ((cs.length : Int), {}) := by
    induction cs with
    | nil => rfl
    | cons c cs ih =>
      obtain ⟨hc, hn⟩ := h c (by simp)
      have := ih fun d hd => h d (by simp [hd])
      simp only [measure, List.foldr_cons] at this ⊢
      rw [this]
      have hle : c.toNat ≤ 0xa0 := by omega
      simp [columns, hn, hle]
  simp [width, this _ h]

end Bytecode.Text
