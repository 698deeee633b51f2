import Mathlib.Data.List.Basic
import PrismaTypes.Outline.Attribute
import PrismaTypes.Proofs.Tokens

/-!
# The words of the language

Names, numbers and string literals described by their spelling, without reference to a scanner:

* `IsDottedName`: identifiers with points between them;
* `IsNumberLiteral`: digits, with an optional sign and an optional fraction;
* `Denotes`: the inside of a string literal, character by character, and the text it stands for;
* `quoted`: a text between quotes, with a backslash before each quote and each backslash.

Each scanner takes exactly such a word off the front of a text when what follows does not continue
it (`stops`), and the value of a quoted text is the text.
-/

namespace PrismaTypes
namespace Grammar

/-- What follows continues no name and no number. -/
def stops (s : List Char) : Bool :=
  s.head?.all fun c => !isWordPart c && c ≠ '.'

theorem any_isWordPart_of_stops {s : List Char} (h : stops s = true) :
    s.head?.any isWordPart = false := by
  cases s with
  | nil =>
      rfl
  | cons c rest =>
      have hc : isWordPart c = false ∧ c ≠ '.' := by simpa [stops] using h
      simp [hc.1]

theorem isWordPart_of_isWordStart {c : Char} (h : isWordStart c = true) : isWordPart c = true := by
  simp [isWordPart, h]

theorem isWordPart_of_isDigit {c : Char} (h : isDigit c = true) : isWordPart c = true := by
  simp [isWordPart, h]

/-- A class of characters is split off up to the first character outside it. -/
theorem spanOf_append {p : Char → Bool} {word rest : List Char} (hword : word.all p = true)
    (hrest : rest.head?.any p = false) : spanOf p (word ++ rest) = (word, rest) := by
  have hall : ∀ c ∈ word, p c = true := List.all_eq_true.1 hword
  -- Nothing is taken from what follows the word.
  have htake : rest.takeWhile p = [] := by
    cases rest with
    | nil =>
        rfl
    | cons c rest =>
        have hc : p c = false := by simpa using hrest
        simp [hc]
  have hdrop : rest.dropWhile p = rest := by
    cases rest with
    | nil =>
        rfl
    | cons c rest =>
        have hc : p c = false := by simpa using hrest
        simp [hc]
  rw [spanOf, List.takeWhile_append_of_pos hall, List.dropWhile_append_of_pos hall, htake, hdrop,
    List.append_nil]

theorem spanOf_stops (p : Char → Bool) (s : List Char) :
    (spanOf p s).2.head?.any p = false := by
  have hdrop := List.head?_dropWhile_not p s
  cases hrest : s.dropWhile p with
  | nil =>
      simp [spanOf, hrest]
  | cons c rest =>
      simpa [spanOf, hrest] using hdrop

/-! ## Names -/

theorem isIdentifier_cons {c : Char} {rest : List Char} :
    isIdentifier (c :: rest) = true ↔ isWordStart c = true ∧ rest.all isWordPart = true := by
  simp [isIdentifier]

theorem exists_of_isIdentifier {word : List Char} (h : isIdentifier word = true) :
    ∃ c rest, word = c :: rest ∧ isWordStart c = true ∧ rest.all isWordPart = true := by
  cases word with
  | nil =>
      cases h
  | cons c rest =>
      exact ⟨c, rest, rfl, isIdentifier_cons.1 h⟩

theorem scanIdentifier_append {word rest : List Char} (hword : isIdentifier word = true)
    (hrest : rest.head?.any isWordPart = false) :
    scanIdentifier (word ++ rest) = some (word, rest) := by
  obtain ⟨c, tail, rfl, hc, htail⟩ := exists_of_isIdentifier hword
  simp [scanIdentifier, hc, spanOf_append htail hrest, Scan.push]

/-- Identifiers with points between them. -/
inductive IsDottedName : List Char → Prop
  | single {word : List Char} (hword : isIdentifier word = true) : IsDottedName word
  | dotted {word rest : List Char} (hword : isIdentifier word = true)
      (hrest : IsDottedName rest) : IsDottedName (word ++ '.' :: rest)

/-- A dotted name starts with an identifier that ends at a point or with the name. -/
theorem IsDottedName.first {name : List Char} (h : IsDottedName name) :
    ∃ word rest, name = word ++ rest ∧ isIdentifier word = true ∧
      (rest = [] ∨ ∃ tail, rest = '.' :: tail) := by
  cases h with
  | single hword =>
      exact ⟨name, [], by simp, hword, .inl rfl⟩
  | @dotted word rest hword hrest =>
      exact ⟨word, '.' :: rest, rfl, hword, .inr ⟨rest, rfl⟩⟩

theorem IsDottedName.head {name : List Char} (h : IsDottedName name) :
    ∃ c rest, name = c :: rest ∧ isWordStart c = true := by
  obtain ⟨word, rest, rfl, hword, -⟩ := h.first
  obtain ⟨c, tail, rfl, hc, -⟩ := exists_of_isIdentifier hword
  exact ⟨c, tail ++ rest, rfl, hc⟩

theorem splitDotted_stops {s : List Char} (h : stops s = true) : splitDotted s = ([], s) := by
  cases s with
  | nil =>
      rfl
  | cons c rest =>
      have hc : isWordPart c = false ∧ c ≠ '.' := by simpa [stops] using h
      simp [splitDotted, hc.1, hc.2]

theorem splitDotted_word {word : List Char} (hword : word.all isWordPart = true)
    (rest : List Char) :
    splitDotted (word ++ rest) = (word ++ (splitDotted rest).1, (splitDotted rest).2) := by
  induction word with
  | nil =>
      rfl
  | cons c word ih =>
      have hc : isWordPart c = true ∧ word.all isWordPart = true := by simpa using hword
      simp [splitDotted, hc.1, ih hc.2, Scan.push]

theorem all_isWordPart_of_isIdentifier {word : List Char} (h : isIdentifier word = true) :
    word.all isWordPart = true := by
  obtain ⟨c, tail, rfl, hc, htail⟩ := exists_of_isIdentifier h
  rw [List.all_cons, isWordPart_of_isWordStart hc, htail]
  rfl

theorem splitDotted_append {name rest : List Char} (hname : IsDottedName name)
    (hrest : stops rest = true) : splitDotted (name ++ rest) = (name, rest) := by
  induction hname with
  | single hword =>
      rw [splitDotted_word (all_isWordPart_of_isIdentifier hword), splitDotted_stops hrest,
        List.append_nil]
  | @dotted word tail hword htail ih =>
      -- The point goes to the name because the next part of the name starts with a letter.
      obtain ⟨c, more, rfl, hc⟩ := htail.head
      rw [List.append_assoc, splitDotted_word (all_isWordPart_of_isIdentifier hword)]
      rw [List.cons_append, List.cons_append] at *
      rw [splitDotted]
      simp [hc, ih, Scan.push]

theorem scanPath_append {name rest : List Char} (hname : IsDottedName name)
    (hrest : stops rest = true) : scanPath (name ++ rest) = some (name, rest) := by
  -- A path is scanned as its first letter and the rest of a dotted name.
  have hsplit := splitDotted_append hname hrest
  obtain ⟨c, tail, rfl, hc⟩ := hname.head
  have hpush : (splitDotted (tail ++ rest)).push c = (c :: tail, rest) := by
    simpa [splitDotted, isWordPart_of_isWordStart hc] using hsplit
  simp [scanPath, hc, hpush]

/-! ## Booleans -/

/-- The word of a boolean literal. -/
def booleanWord (b : Bool) : List Char :=
  if b then ['t', 'r', 'u', 'e'] else ['f', 'a', 'l', 's', 'e']

theorem isIdentifier_booleanWord (b : Bool) : isIdentifier (booleanWord b) = true := by
  cases b <;> decide

theorem scanBoolean_append (b : Bool) {rest : List Char}
    (hrest : rest.head?.any isWordPart = false) :
    scanBoolean (booleanWord b ++ rest) = some (booleanWord b, rest) := by
  cases b with
  | true =>
      have hkeyword : scanKeyword ['t', 'r', 'u', 'e'] (booleanWord true ++ rest)
          = some (booleanWord true, rest) := scanKeyword_eq_some_iff.2 ⟨rfl, rfl, hrest⟩
      simp [scanBoolean, hkeyword]
  | false =>
      -- The words differ in their first letter.
      have hother : scanKeyword ['t', 'r', 'u', 'e'] (booleanWord false ++ rest) = none := by
        simp [scanKeyword, booleanWord, afterWord?]
      have hkeyword : scanKeyword ['f', 'a', 'l', 's', 'e'] (booleanWord false ++ rest)
          = some (booleanWord false, rest) := scanKeyword_eq_some_iff.2 ⟨rfl, rfl, hrest⟩
      simp [scanBoolean, hother, hkeyword]

/-- Neither a boolean word nor one with a point after it. -/
def NoBoolean (name : List Char) : Prop :=
  ∀ b, name ≠ booleanWord b ∧ ¬ booleanWord b ++ ['.'] <+: name

/-- A boolean literal takes nothing from a dotted name that does not begin with one. -/
theorem scanBoolean_eq_none {name rest : List Char} (hname : IsDottedName name)
    (hno : NoBoolean name) (hrest : stops rest = true) : scanBoolean (name ++ rest) = none := by
  -- The keyword would be the first identifier of the name.
  have hkeyword : ∀ b, scanKeyword (booleanWord b) (name ++ rest) = none := by
    intro b
    rw [Option.eq_none_iff_forall_not_mem]
    intro x hx
    obtain ⟨-, hs, hafter⟩ := scanKeyword_eq_some_iff.1 hx
    have hscan := scanIdentifier_append (isIdentifier_booleanWord b) hafter
    rw [← hs] at hscan
    obtain ⟨word, tail, rfl, hword, htail⟩ := hname.first
    -- It is the whole name, or a point follows it; the name is neither.
    rcases htail with rfl | ⟨more, rfl⟩
    · rw [List.append_nil, scanIdentifier_append hword (any_isWordPart_of_stops hrest)] at hscan
      have hsame : word = booleanWord b := congrArg Prod.fst (Option.some.inj hscan)
      exact (hno b).1 (by rw [List.append_nil, hsame])
    · have hpoint : ('.' :: more ++ rest).head?.any isWordPart = false := rfl
      rw [List.append_assoc, scanIdentifier_append hword hpoint] at hscan
      have hsame : word = booleanWord b := congrArg Prod.fst (Option.some.inj hscan)
      exact (hno b).2 ⟨more, by simp [hsame]⟩
  have htrue := hkeyword true
  have hfalse := hkeyword false
  simp only [booleanWord, if_true, Bool.false_eq_true, if_false] at htrue hfalse
  simp [scanBoolean, htrue, hfalse]

/-! ## Numbers -/

/-- At least one digit, and nothing else. -/
def isDigits (s : List Char) : Bool :=
  !s.isEmpty && s.all isDigit

inductive IsUnsigned : List Char → Prop
  | whole {digits : List Char} (h : isDigits digits = true) : IsUnsigned digits
  | fraction {digits places : List Char} (h : isDigits digits = true)
      (hplaces : isDigits places = true) : IsUnsigned (digits ++ '.' :: places)

inductive IsNumberLiteral : List Char → Prop
  | unsigned {s : List Char} (h : IsUnsigned s) : IsNumberLiteral s
  | negative {s : List Char} (h : IsUnsigned s) : IsNumberLiteral ('-' :: s)

theorem exists_of_isDigits {s : List Char} (h : isDigits s = true) :
    ∃ c rest, s = c :: rest ∧ isDigit c = true ∧ s.all isDigit = true := by
  cases s with
  | nil =>
      cases h
  | cons c rest =>
      have hc : isDigit c = true ∧ ∀ x ∈ rest, isDigit x = true := by simpa [isDigits] using h
      exact ⟨c, rest, rfl, hc.1, by simpa using hc⟩

theorem any_isDigit_of_stops {s : List Char} (h : stops s = true) :
    s.head?.any isDigit = false := by
  cases s with
  | nil =>
      rfl
  | cons c rest =>
      have hc : isWordPart c = false ∧ c ≠ '.' := by simpa [stops] using h
      have hdigit : ¬ isDigit c = true := fun hd => by simp [isWordPart_of_isDigit hd] at hc
      simpa using hdigit

theorem splitFraction_stops {s : List Char} (h : stops s = true) : splitFraction s = ([], s) := by
  cases s with
  | nil =>
      rfl
  | cons c rest =>
      have hc : isWordPart c = false ∧ c ≠ '.' := by simpa [stops] using h
      unfold splitFraction
      split
      · rename_i heq
        exact absurd (List.cons.inj heq).1 hc.2
      · rfl

theorem IsUnsigned.head {s : List Char} (h : IsUnsigned s) :
    ∃ c rest, s = c :: rest ∧ isDigit c = true := by
  cases h with
  | whole h =>
      obtain ⟨c, rest, rfl, hc, -⟩ := exists_of_isDigits h
      exact ⟨c, rest, rfl, hc⟩
  | @fraction digits places h hplaces =>
      obtain ⟨c, rest, rfl, hc, -⟩ := exists_of_isDigits h
      exact ⟨c, rest ++ '.' :: places, rfl, hc⟩

/-- The whole digits come first, then the fraction, if there is one. -/
theorem scanUnsigned_digits {digits rest : List Char} (h : isDigits digits = true)
    (hrest : rest.head?.any isDigit = false) :
    scanUnsigned (digits ++ rest)
      = some (digits ++ (splitFraction rest).1, (splitFraction rest).2) := by
  obtain ⟨c, tail, rfl, hc, hall⟩ := exists_of_isDigits h
  have hhead : ((c :: tail) ++ rest).head?.any isDigit = true := by simpa using hc
  rw [scanUnsigned, if_pos hhead]
  simp only [spanOf_append hall hrest]

theorem scanUnsigned_append {s rest : List Char} (h : IsUnsigned s) (hrest : stops rest = true) :
    scanUnsigned (s ++ rest) = some (s, rest) := by
  cases h with
  | whole h =>
      rw [scanUnsigned_digits h (any_isDigit_of_stops hrest), splitFraction_stops hrest,
        List.append_nil]
  | @fraction digits places h hplaces =>
      obtain ⟨d, more, rfl, hd, hall⟩ := exists_of_isDigits hplaces
      have hspan := spanOf_append hall (any_isDigit_of_stops hrest)
      -- A point is taken along because digits follow it.
      have hfraction : splitFraction ('.' :: (d :: more ++ rest)) = ('.' :: d :: more, rest) := by
        have hhead : ((d :: more) ++ rest).head?.any isDigit = true := by simpa using hd
        rw [splitFraction, if_pos hhead, hspan]
        rfl
      have hpoint : ('.' :: (d :: more ++ rest)).head?.any isDigit = false := by
        rw [List.head?_cons]
        decide
      rw [List.append_assoc, List.cons_append, scanUnsigned_digits h hpoint, hfraction]

theorem isDigit_ne_minus {c : Char} (h : isDigit c = true) : c ≠ '-' := by
  rintro rfl
  cases h

theorem scanNumber_append {s rest : List Char} (h : IsNumberLiteral s)
    (hrest : stops rest = true) : scanNumber (s ++ rest) = some (s, rest) := by
  cases h with
  | unsigned h =>
      have hscan := scanUnsigned_append h hrest
      obtain ⟨c, tail, rfl, hc⟩ := h.head
      -- A digit in front is no minus sign.
      unfold scanNumber
      split
      · rename_i heq
        exact absurd (List.cons.inj heq).1 (isDigit_ne_minus hc)
      · exact hscan
  | negative h =>
      simp [scanNumber, scanUnsigned_append h hrest, Scan.push]

/-! ## String literals -/

/-- A quote or a backslash, which a backslash precedes inside a literal. -/
def needsEscape (c : Char) : Bool :=
  c = '\"' || c = '\\'

def escaped (s : List Char) : List Char :=
  s.flatMap fun c => if needsEscape c then ['\\', c] else [c]

/-- A text as a string literal. -/
def quoted (s : List Char) : List Char :=
  ['\"'] ++ escaped s ++ ['\"']

theorem splitString_plain {c : Char} (hc : needsEscape c = false) (s : List Char) :
    splitString (c :: s) = (splitString s).map (·.push c) := by
  have hplain : c ≠ '\"' ∧ c ≠ '\\' := by simpa [needsEscape] using hc
  -- Of the cases of the scanner only the last one, a plain character, is possible.
  rw [splitString.eq_def]
  split
  · rename_i heq
    cases heq
  · rename_i heq
    exact absurd (List.cons.inj heq).1 hplain.1
  · rename_i heq
    exact absurd (List.cons.inj heq).1 hplain.2
  · rename_i heq
    exact absurd (List.cons.inj heq).1 hplain.2
  · rename_i heq
    cases heq
    rfl

theorem unescape_plain {c : Char} (hc : needsEscape c = false) (s : List Char) :
    Outline.unescape (c :: s) = c :: Outline.unescape s := by
  have hplain : c ≠ '\"' ∧ c ≠ '\\' := by simpa [needsEscape] using hc
  rw [Outline.unescape.eq_def]
  split
  · rename_i heq
    cases heq
  · rename_i heq
    exact absurd (List.cons.inj heq).1 hplain.2
  · rename_i heq
    exact absurd (List.cons.inj heq).1 hplain.2
  · rename_i heq
    cases heq
    rfl

/-- What a backslash makes of the character behind it. -/
def pairValue (c : Char) : Char :=
  if c = 'n' then '\n' else if c = 't' then '\t' else c

/-- The inside of a literal consists of plain characters and of whole pairs of a backslash and a
character, and stands for the second text. -/
inductive Denotes : List Char → List Char → Prop
  | nil : Denotes [] []
  | plain {c : Char} {w v : List Char} (hc : needsEscape c = false) (h : Denotes w v) :
      Denotes (c :: w) (c :: v)
  | pair {w v : List Char} (c : Char) (h : Denotes w v) :
      Denotes ('\\' :: c :: w) (pairValue c :: v)

namespace Denotes

variable {w w' v v' : List Char}

theorem append (h : Denotes w v) (h' : Denotes w' v') : Denotes (w ++ w') (v ++ v') := by
  induction h with
  | nil =>
      exact h'
  | plain hc _ ih =>
      exact .plain hc ih
  | pair c _ ih =>
      exact .pair c ih

theorem of_plain (h : ∀ c ∈ w, needsEscape c = false) : Denotes w w := by
  induction w with
  | nil =>
      exact .nil
  | cons c w ih =>
      have hrest := ih fun d hd => h d (List.mem_cons_of_mem c hd)
      exact .plain (h c List.mem_cons_self) hrest

theorem splitString_eq (h : Denotes w v) (rest : List Char) :
    splitString (w ++ '\"' :: rest) = some (w ++ ['\"'], rest) := by
  induction h with
  | nil =>
      rfl
  | plain hc _ ih =>
      rw [List.cons_append, splitString_plain hc, ih]
      rfl
  | pair c _ ih =>
      simp [splitString, ih, Scan.push]

theorem unescape_eq (h : Denotes w v) : Outline.unescape w = v := by
  induction h with
  | nil =>
      rfl
  | plain hc _ ih =>
      rw [unescape_plain hc, ih]
  | pair c _ ih =>
      simp [Outline.unescape, pairValue, ih]

/-- Between quotes it is a literal, whatever follows. -/
theorem scanString_eq (h : Denotes w v) (rest : List Char) :
    scanString (['\"'] ++ w ++ ['\"'] ++ rest) = some (['\"'] ++ w ++ ['\"'], rest) := by
  simp [scanString, h.splitString_eq, Scan.push]

theorem unquote_eq (h : Denotes w v) : Outline.unquote (['\"'] ++ w ++ ['\"']) = v := by
  simp [Outline.unquote, Outline.inside, h.unescape_eq]

end Denotes

theorem denotes_escaped (s : List Char) : Denotes (escaped s) s := by
  induction s with
  | nil =>
      exact .nil
  | cons c s ih =>
      by_cases hc : needsEscape c = true
      · have hcons : escaped (c :: s) = '\\' :: c :: escaped s := by simp [escaped, hc]
        -- Only a letter after the backslash would be read as another character.
        have hvalue : pairValue c = c := by
          rcases (by simpa [needsEscape] using hc : c = '\"' ∨ c = '\\') with rfl | rfl <;> rfl
        have hpair := Denotes.pair c ih
        rwa [hvalue, ← hcons] at hpair
      · have hcons : escaped (c :: s) = c :: escaped s := by simp [escaped, hc]
        rw [hcons]
        exact .plain (Bool.eq_false_iff.2 hc) ih

theorem scanString_quoted (s rest : List Char) :
    scanString (quoted s ++ rest) = some (quoted s, rest) :=
  (denotes_escaped s).scanString_eq rest

theorem unquote_quoted (s : List Char) : Outline.unquote (quoted s) = s :=
  (denotes_escaped s).unquote_eq

end Grammar
end PrismaTypes
