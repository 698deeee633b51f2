import Mathlib.Data.List.Basic
import PrismaTypes.Proofs.JsonNumbers

/-!
# Written values read back

Reading the text of a value, in either style, gives the document that the value stands for
(`Value.toTree`), provided that its numbers read back. A document whose nesting is within the room
that is left is accepted as data.
-/

namespace PrismaTypes
namespace Json

/-! ## Results of steps -/

theorem exists_of_bind_eq_ok {ε α β : Type} {x : Except ε α} {f : α → Except ε β} {b : β} :
    x >>= f = .ok b → ∃ a, x = .ok a ∧ f a = .ok b := by
  intro h
  cases x with
  | error e =>
      cases h
  | ok a =>
      exact ⟨a, rfl, h⟩

theorem exists_of_map_eq_ok {ε α β : Type} {x : Except ε α} {f : α → β} {b : β} :
    x.map f = .ok b → ∃ a, x = .ok a ∧ f a = b := by
  intro h
  cases x with
  | error e =>
      cases h
  | ok a =>
      cases h
      exact ⟨a, rfl, rfl⟩

/-! ## Values as written documents -/

/-- Induction on values, with the claim for all items of a list and all members of an object. -/
theorem Value.induction {P : Value → Prop} (hnull : P .null) (hbool : ∀ b, P (.bool b))
    (hnumber : ∀ n, P (.number n)) (htext : ∀ s, P (.text s))
    (hlist : ∀ items, (∀ v ∈ items, P v) → P (.list items))
    (hobject : ∀ members, (∀ m ∈ members, P m.2) → P (.object members)) (v : Value) : P v :=
  @Value.rec P (fun items => ∀ v ∈ items, P v) (fun members => ∀ m ∈ members, P m.2)
    (fun member => P member.2) hnull hbool hnumber htext hlist hobject
    (fun _ h => nomatch h) (fun _ _ hhead htail => List.forall_mem_cons.2 ⟨hhead, htail⟩)
    (fun _ h => nomatch h) (fun _ _ hhead htail => List.forall_mem_cons.2 ⟨hhead, htail⟩)
    (fun _ _ h => h) v

namespace Value

mutual

/-- The document that is written for a value. -/
def toTree : Value → Tree
  | null => .null
  | bool b => .bool b
  | number n => .number (some n)
  | text s => .text (some s)
  | list items => .list (treesOf items)
  | object members => .object (treeMembersOf members)

def treesOf : List Value → List Tree
  | [] => []
  | v :: rest => v.toTree :: treesOf rest

def treeMembersOf : List (String × Value) → List (Option String × Tree)
  | [] => []
  | (key, v) :: rest => (some key, v.toTree) :: treeMembersOf rest

end

mutual

/-- How deep lists and objects are nested. -/
def depth : Value → Nat
  | list items => depthOfItems items + 1
  | object members => depthOfMembers members + 1
  | _ => 0

def depthOfItems : List Value → Nat
  | [] => 0
  | v :: rest => max v.depth (depthOfItems rest)

def depthOfMembers : List (String × Value) → Nat
  | [] => 0
  | (_, v) :: rest => max v.depth (depthOfMembers rest)

end

mutual

/-- All numbers of a value. -/
def numbers : Value → List Number
  | number n => [n]
  | list items => numbersOfItems items
  | object members => numbersOfMembers members
  | _ => []

def numbersOfItems : List Value → List Number
  | [] => []
  | v :: rest => v.numbers ++ numbersOfItems rest

def numbersOfMembers : List (String × Value) → List Number
  | [] => []
  | (_, v) :: rest => v.numbers ++ numbersOfMembers rest

end

@[simp] theorem treesOf_eq_map (items : List Value) : treesOf items = items.map toTree := by
  induction items with
  | nil =>
      rfl
  | cons v rest ih =>
      rw [treesOf, ih, List.map_cons]

@[simp] theorem treeMembersOf_eq_map (members : List (String × Value)) :
    treeMembersOf members = members.map fun m => (some m.1, m.2.toTree) := by
  induction members with
  | nil =>
      rfl
  | cons m rest ih =>
      rw [treeMembersOf, ih, List.map_cons]

theorem depthOfItems_le_iff {items : List Value} {n : Nat} :
    depthOfItems items ≤ n ↔ ∀ v ∈ items, v.depth ≤ n := by
  induction items with
  | nil =>
      simp [depthOfItems]
  | cons v rest ih =>
      rw [depthOfItems, Nat.max_le, ih, List.forall_mem_cons]

theorem depthOfMembers_le_iff {members : List (String × Value)} {n : Nat} :
    depthOfMembers members ≤ n ↔ ∀ m ∈ members, m.2.depth ≤ n := by
  induction members with
  | nil =>
      simp [depthOfMembers]
  | cons m rest ih =>
      rw [depthOfMembers, Nat.max_le, ih, List.forall_mem_cons]

theorem depth_list_le_iff {items : List Value} {n : Nat} :
    (list items).depth ≤ n + 1 ↔ ∀ v ∈ items, v.depth ≤ n := by
  rw [depth, Nat.add_le_add_iff_right, depthOfItems_le_iff]

theorem depth_object_le_iff {members : List (String × Value)} {n : Nat} :
    (object members).depth ≤ n + 1 ↔ ∀ m ∈ members, m.2.depth ≤ n := by
  rw [depth, Nat.add_le_add_iff_right, depthOfMembers_le_iff]

theorem numbers_list (items : List Value) : (list items).numbers = items.flatMap numbers := by
  rw [numbers]
  induction items with
  | nil =>
      rfl
  | cons v rest ih =>
      rw [numbersOfItems, ih, List.flatMap_cons]

theorem numbers_object (members : List (String × Value)) :
    (object members).numbers = members.flatMap fun m => m.2.numbers := by
  rw [numbers]
  induction members with
  | nil =>
      rfl
  | cons m rest ih =>
      rw [numbersOfMembers, ih, List.flatMap_cons]

end Value

/-! ## Blanks -/

theorem skipBlanks_append {blanks : List Char} (h : blanks.all isBlankChar = true)
    (s : List Char) : skipBlanks (blanks ++ s) = skipBlanks s :=
  List.dropWhile_append_of_pos (List.all_eq_true.1 h)

theorem skipBlanks_cons {c : Char} (h : isBlankChar c = false) (s : List Char) :
    skipBlanks (c :: s) = c :: s := by
  simp [skipBlanks, h]

theorem length_skipBlanks_le (s : List Char) : (skipBlanks s).length ≤ s.length :=
  (List.dropWhile_sublist isBlankChar).length_le

theorem all_isBlankChar_lineAt (style : Style) (level : Nat) :
    (style.lineAt level).all isBlankChar = true := by
  cases style with
  | compact =>
      rfl
  | pretty =>
      simp [Style.lineAt, isBlankChar]

/-! ## Texts -/

theorem hexValue?_hexDigit {n : Nat} (h : n < 16) : hexValue? (hexDigit n) = some n := by
  revert n
  decide

theorem readUnits_short {e c : Char} (he : e ≠ 'u') (h : shortEscape? e = some c)
    (rest : List Char) : readUnits ('\\' :: e :: rest) = pushUnit (.char c) (readUnits rest) := by
  rw [readUnits]
  · rw [h]
  · rintro _ _ _ _ _ heq
    exact absurd heq he

theorem readUnits_control {c : Char} (hc : c.toNat < 0x20) (rest : List Char) :
    readUnits ('\\' :: 'u' :: '0' :: '0' :: hexDigit (c.toNat / 16) :: hexDigit (c.toNat % 16)
      :: rest) = pushUnit (.unit c.toNat) (readUnits rest) := by
  have hhigh : hexValue? (hexDigit (c.toNat / 16)) = some (c.toNat / 16) :=
    hexValue?_hexDigit (by omega)
  have hlow : hexValue? (hexDigit (c.toNat % 16)) = some (c.toNat % 16) :=
    hexValue?_hexDigit (by omega)
  have hzero : hexValue? '0' = some 0 := by decide
  have hvalue : ((0 * 16 + 0) * 16 + c.toNat / 16) * 16 + c.toNat % 16 = c.toNat := by omega
  rw [readUnits, hzero, hhigh, hlow]
  simp only [hvalue]

theorem readUnits_plain {c : Char} (hquote : c ≠ '\"') (hslash : c ≠ '\\')
    (hc : ¬ c.toNat < 0x20) (rest : List Char) :
    readUnits (c :: rest) = pushUnit (.char c) (readUnits rest) := by
  -- The earlier clauses of the reader ask for a quote or a backslash.
  rw [readUnits]
  · rw [if_neg hc]
  all_goals simp [hquote, hslash]

/-- A character inside quotes is written as it is, as a short escape or, when it is a control
character, by its number. -/
theorem escapeChar_cases (c : Char) :
    (∃ e, e ≠ 'u' ∧ shortEscape? e = some c ∧ escapeChar c = ['\\', e]) ∨
    (c.toNat < 0x20 ∧ escapeChar c
      = ['\\', 'u', '0', '0', hexDigit (c.toNat / 16), hexDigit (c.toNat % 16)]) ∨
    (c ≠ '\"' ∧ c ≠ '\\' ∧ ¬ c.toNat < 0x20 ∧ escapeChar c = [c]) := by
  by_cases hshort : c ∈ ['\"', '\\', '\x08', '\x0c', '\n', '\r', '\t']
  · left
    simp only [List.mem_cons, List.not_mem_nil, or_false] at hshort
    rcases hshort with rfl | rfl | rfl | rfl | rfl | rfl | rfl
    · exact ⟨'\"', by decide⟩
    · exact ⟨'\\', by decide⟩
    · exact ⟨'b', by decide⟩
    · exact ⟨'f', by decide⟩
    · exact ⟨'n', by decide⟩
    · exact ⟨'r', by decide⟩
    · exact ⟨'t', by decide⟩
  · right
    simp only [List.mem_cons, List.not_mem_nil, or_false, not_or] at hshort
    obtain ⟨hquote, hslash, hback, hfeed, hline, hreturn, htab⟩ := hshort
    rw [escapeChar, if_neg hquote, if_neg hslash, if_neg hback, if_neg hfeed, if_neg hline,
      if_neg hreturn, if_neg htab]
    by_cases hcontrol : c.toNat < 0x20
    · exact .inl ⟨hcontrol, if_pos hcontrol⟩
    · exact .inr ⟨hquote, hslash, hcontrol, if_neg hcontrol⟩

/-- A character inside quotes is read as one unit, and the unit stands for the character. -/
theorem exists_readUnits_escapeChar (c : Char) :
    ∃ u, (∀ rest, readUnits (escapeChar c ++ rest) = pushUnit u (readUnits rest)) ∧
      ∀ units, decodeUnits (u :: units) = (decodeUnits units).map (c :: ·) := by
  rcases escapeChar_cases c with ⟨e, he, hshort, heq⟩ | ⟨hc, heq⟩ | ⟨hquote, hslash, hc, heq⟩
  · exact ⟨.char c, fun rest => heq ▸ readUnits_short he hshort rest, fun _ => rfl⟩
  · refine ⟨.unit c.toNat, fun rest => heq ▸ readUnits_control hc rest, fun units => ?_⟩
    -- Control characters are no surrogates, so their number is decoded by itself.
    have hlow : (c.toNat < 0xD800 || 0xDFFF < c.toNat) = true := by
      simp only [Bool.or_eq_true, decide_eq_true_eq]
      omega
    rw [decodeUnits.eq_def]
    simp only [if_pos hlow, Char.ofNat_toNat]
  · exact ⟨.char c, fun rest => heq ▸ readUnits_plain hquote hslash hc rest, fun _ => rfl⟩

theorem readText_renderText (s : String) (rest : List Char) :
    readText (s.toList.flatMap escapeChar ++ '\"' :: rest) = .ok (some s, rest) := by
  -- Characters are read as units first and decoded together afterwards.
  have hunits : ∀ cs : List Char, ∃ units,
      readUnits (cs.flatMap escapeChar ++ '\"' :: rest) = .ok (units, rest) ∧
        decodeUnits units = some cs := by
    intro cs
    induction cs with
    | nil =>
        exact ⟨[], by simp [readUnits], rfl⟩
    | cons c cs ih =>
        obtain ⟨u, hread, hdecode⟩ := exists_readUnits_escapeChar c
        obtain ⟨units, hunits, hcs⟩ := ih
        refine ⟨u :: units, ?_, ?_⟩
        · rw [List.flatMap_cons, List.append_assoc, hread, hunits]
          rfl
        · rw [hdecode, hcs]
          rfl
  obtain ⟨units, hread, hdecode⟩ := hunits s.toList
  simp only [readText, hread]
  show Except.ok ((decodeUnits units).map String.ofList, rest) = _
  rw [hdecode, Option.map_some, String.ofList_toList]

/-! ## The outside of a written value -/

theorem isDigit_ne {c d : Char} (hc : Decimal.isDigit c = true)
    (hd : Decimal.isDigit d = false) : c ≠ d := by
  rintro rfl
  rw [hc] at hd
  cases hd

/-- The first character of a value is no blank and does not close a list. -/
theorem Value.exists_render_eq_cons (style : Style) (level : Nat) (v : Value) (rest : List Char)
    (hnumbers : ∀ n ∈ v.numbers, n.ReadsBack) :
    ∃ c tail, v.render style level rest = c :: tail ∧ isBlankChar c = false ∧ c ≠ ']' := by
  cases v with
  | null =>
      exact ⟨'n', _, by rw [render]; rfl, by decide, by decide⟩
  | bool b =>
      cases b with
      | true =>
          exact ⟨'t', _, by rw [render]; rfl, by decide, by decide⟩
      | false =>
          exact ⟨'f', _, by rw [render]; rfl, by decide, by decide⟩
  | number n =>
      -- Digits are not looked at: what reads as a number starts like one.
      obtain ⟨c, tail, heq, hc⟩ := exists_of_readNumber (hnumbers n (by simp [numbers]))
      refine ⟨c, tail ++ rest, by rw [render, heq]; rfl, ?_⟩
      rcases hc with rfl | hc
      · decide
      · refine ⟨?_, isDigit_ne hc (by decide)⟩
        simp [isBlankChar, isDigit_ne hc (d := ' ') (by decide),
          isDigit_ne hc (d := '\t') (by decide), isDigit_ne hc (d := '\n') (by decide),
          isDigit_ne hc (d := '\r') (by decide)]
  | text s =>
      exact ⟨'\"', _, by rw [render]; rfl, by decide, by decide⟩
  | list items =>
      cases items with
      | nil =>
          exact ⟨'[', _, by rw [render], by decide, by decide⟩
      | cons item items =>
          exact ⟨'[', _, by rw [render], by decide, by decide⟩
  | object members =>
      cases members with
      | nil =>
          exact ⟨'\x7b', _, by rw [render], by decide, by decide⟩
      | cons m members =>
          exact ⟨'\x7b', _, by rw [render], by decide, by decide⟩

theorem suffix_renderText (s : String) (rest : List Char) : rest <:+ renderText s rest :=
  ⟨'\"' :: (s.toList.flatMap escapeChar ++ ['\"']), by simp [renderText]⟩

theorem suffix_renderItems {style : Style} {items : List Value}
    (h : ∀ v ∈ items, ∀ level rest, rest <:+ v.render style level rest) (level : Nat)
    (rest : List Char) : rest <:+ renderItems style level items rest := by
  induction items with
  | nil =>
      exact ⟨style.lineAt level ++ [']'], by simp [renderItems]⟩
  | cons item items ih =>
      rw [renderItems]
      refine List.suffix_cons_iff.2 (.inr ?_)
      refine List.suffix_append_of_suffix ?_
      exact (ih fun v hv => h v (by simp [hv])).trans (h item (by simp) _ _)

theorem suffix_renderMembers {style : Style} {members : List (String × Value)}
    (h : ∀ m ∈ members, ∀ level rest, rest <:+ m.2.render style level rest) (level : Nat)
    (rest : List Char) : rest <:+ renderMembers style level members rest := by
  induction members with
  | nil =>
      exact ⟨style.lineAt level ++ ['\x7d'], by simp [renderMembers]⟩
  | cons m members ih =>
      rw [renderMembers]
      refine List.suffix_cons_iff.2 (.inr ?_)
      refine List.suffix_append_of_suffix ?_
      refine List.IsSuffix.trans ?_ (suffix_renderText _ _)
      refine List.suffix_append_of_suffix ?_
      exact (ih fun m hm => h m (by simp [hm])).trans (h m (by simp) _ _)

/-- A value is written in front of what follows. -/
theorem Value.suffix_render (style : Style) (v : Value) :
    ∀ level rest, rest <:+ v.render style level rest := by
  induction v using Value.induction with
  | hnull | hnumber =>
      intro level rest
      rw [render]
      exact List.suffix_append _ _
  | hbool b =>
      intro level rest
      cases b <;> (rw [render]; exact List.suffix_append _ _)
  | htext s =>
      intro level rest
      rw [render]
      exact suffix_renderText s rest
  | hlist items ih =>
      intro level rest
      cases items with
      | nil =>
          exact ⟨['[', ']'], by simp [render]⟩
      | cons item items =>
          rw [render]
          refine List.suffix_cons_iff.2 (.inr ?_)
          refine List.suffix_append_of_suffix ?_
          exact (suffix_renderItems (fun v hv => ih v (by simp [hv])) level rest).trans
            (ih item (by simp) _ _)
  | hobject members ih =>
      intro level rest
      cases members with
      | nil =>
          exact ⟨['\x7b', '\x7d'], by simp [render]⟩
      | cons m members =>
          rw [render]
          refine List.suffix_cons_iff.2 (.inr ?_)
          refine List.suffix_append_of_suffix ?_
          refine List.IsSuffix.trans ?_ (suffix_renderText _ _)
          refine List.suffix_append_of_suffix ?_
          exact (suffix_renderMembers (fun m hm => ih m (by simp [hm])) level rest).trans
            (ih m (by simp) _ _)

theorem endsNumber_lineAt (style : Style) (level : Nat) {c : Char} {rest : List Char}
    (h : endsNumber [c] = true) : endsNumber (style.lineAt level ++ c :: rest) = true := by
  cases style with
  | compact =>
      exact h
  | pretty =>
      rfl

theorem endsNumber_renderItems (style : Style) (level : Nat) (items : List Value)
    (rest : List Char) : endsNumber (renderItems style level items rest) = true := by
  cases items with
  | nil =>
      rw [renderItems]
      exact endsNumber_lineAt style level rfl
  | cons item items =>
      rw [renderItems]
      rfl

theorem endsNumber_renderMembers (style : Style) (level : Nat) (members : List (String × Value))
    (rest : List Char) : endsNumber (renderMembers style level members rest) = true := by
  cases members with
  | nil =>
      rw [renderMembers]
      exact endsNumber_lineAt style level rfl
  | cons m members =>
      rw [renderMembers]
      rfl

/-! ## Documents -/

/-- The value is read off the front of every text that starts with its text, when there is fuel for
the length of that text. -/
def Value.Reads (style : Style) (v : Value) : Prop :=
  ∀ level fuel s rest, endsNumber rest = true → skipBlanks s = v.render style level rest →
    2 * s.length ≤ fuel → readValue fuel s = .ok (v.toTree, rest)

section Steps

variable {fuel : Nat} {s tail left : List Char} {c : Char}

theorem readItems_last {item : Tree} (hitem : readValue fuel s = .ok (item, left))
    (hclose : skipBlanks left = ']' :: tail) : readItems (fuel + 1) s = .ok ([item], tail) := by
  rw [readItems, hitem]
  simp only [bind, Except.bind, hclose]
  rfl

theorem readItems_comma {item : Tree} {items : List Tree} {next rest : List Char}
    (hitem : readValue fuel s = .ok (item, left)) (hcomma : skipBlanks left = ',' :: next)
    (hnext : skipBlanks next = c :: tail) (hc : c ≠ ']')
    (hitems : readItems fuel (c :: tail) = .ok (items, rest)) :
    readItems (fuel + 1) s = .ok (item :: items, rest) := by
  rw [readItems, hitem]
  simp only [bind, Except.bind, hcomma, hnext]
  -- A closing bracket after a comma is an error, but `c` is none.
  split
  · rename_i heq
    exact absurd (List.cons.inj heq).1 hc
  · rw [hitems]
    rfl

theorem readMembers_last {key : Option String} {value : Tree} {colon next : List Char}
    (hkey : readText s = .ok (key, colon)) (hcolon : skipBlanks colon = ':' :: next)
    (hvalue : readValue fuel next = .ok (value, left))
    (hclose : skipBlanks left = '\x7d' :: tail) :
    readMembers (fuel + 1) ('\"' :: s) = .ok ([(key, value)], tail) := by
  rw [readMembers]
  simp only [bind, Except.bind, hkey, hcolon, hvalue, hclose]
  rfl

theorem readMembers_comma {key : Option String} {value : Tree} {colon next rest : List Char}
    {members : List (Option String × Tree)} (hkey : readText s = .ok (key, colon))
    (hcolon : skipBlanks colon = ':' :: next) (hvalue : readValue fuel next = .ok (value, left))
    (hcomma : skipBlanks left = ',' :: tail) {more : List Char}
    (hmore : skipBlanks tail = '\"' :: more)
    (hmembers : readMembers fuel ('\"' :: more) = .ok (members, rest)) :
    readMembers (fuel + 1) ('\"' :: s) = .ok ((key, value) :: members, rest) := by
  rw [readMembers]
  simp only [bind, Except.bind, hkey, hcolon, hvalue, hcomma, hmore]
  split
  · rename_i heq
    simp at heq
  · rename_i heq
    cases heq
  · rw [hmembers]
    rfl

theorem readValue_number (hs : skipBlanks s = c :: tail)
    (hc : c = '-' ∨ Decimal.isDigit c = true) :
    readValue (fuel + 1) s = readNumber (c :: tail) := by
  have hnumber : (c = '-' || Decimal.isDigit c) = true := by simpa using hc
  have hne : ∀ d, Decimal.isDigit d = false → d ≠ '-' → c ≠ d := by
    rintro d hd hminus rfl
    rcases hc with rfl | hc
    · exact hminus rfl
    · rw [hc] at hd
      cases hd
  rw [readValue, hs]
  split
  all_goals rename_i heq
  · cases heq
  · exact absurd (List.cons.inj heq).1 (hne 'n' (by decide) (by decide))
  · exact absurd (List.cons.inj heq).1 (hne 't' (by decide) (by decide))
  · exact absurd (List.cons.inj heq).1 (hne 'f' (by decide) (by decide))
  · exact absurd (List.cons.inj heq).1 (hne '\"' (by decide) (by decide))
  · exact absurd (List.cons.inj heq).1 (hne '[' (by decide) (by decide))
  · exact absurd (List.cons.inj heq).1 (hne '\x7b' (by decide) (by decide))
  · cases heq
    rw [if_pos hnumber]

theorem readValue_text {text : Option String} {next rest : List Char}
    (hs : skipBlanks s = '\"' :: next) (htext : readText next = .ok (text, rest)) :
    readValue (fuel + 1) s = .ok (.text text, rest) := by
  rw [readValue, hs]
  simp only [htext]
  rfl

theorem readValue_list {items : List Tree} {next rest : List Char}
    (hs : skipBlanks s = '[' :: next) (hnext : skipBlanks next = c :: tail) (hc : c ≠ ']')
    (hitems : readItems fuel (c :: tail) = .ok (items, rest)) :
    readValue (fuel + 1) s = .ok (.list items, rest) := by
  rw [readValue, hs]
  simp only [hnext]
  split
  · rename_i heq
    exact absurd (List.cons.inj heq).1 hc
  · rename_i heq
    cases heq
  · rw [hitems]
    rfl

theorem readValue_object {members : List (Option String × Tree)} {next rest : List Char}
    (hs : skipBlanks s = '\x7b' :: next) (hnext : skipBlanks next = '\"' :: tail)
    (hmembers : readMembers fuel ('\"' :: tail) = .ok (members, rest)) :
    readValue (fuel + 1) s = .ok (.object members, rest) := by
  rw [readValue, hs]
  simp only [hnext]
  split
  · rename_i heq
    simp at heq
  · rename_i heq
    cases heq
  · rw [hmembers]
    rfl

end Steps

/-- The fuel for a text pays for its first character. -/
theorem exists_fuel {c : Char} {s tail : List Char} {fuel : Nat} (hs : skipBlanks s = c :: tail)
    (hfuel : 2 * s.length ≤ fuel) : ∃ f, fuel = f + 1 ∧ 2 * tail.length + 1 ≤ f := by
  have hlength := length_skipBlanks_le s
  rw [hs, List.length_cons] at hlength
  exact ⟨fuel - 1, by omega, by omega⟩

theorem Value.skipBlanks_render {style : Style} {level : Nat} {v : Value} {rest : List Char}
    (hnumbers : ∀ n ∈ v.numbers, n.ReadsBack) :
    skipBlanks (v.render style level rest) = v.render style level rest := by
  obtain ⟨c, tail, heq, hblank, -⟩ := v.exists_render_eq_cons style level rest hnumbers
  rw [heq, skipBlanks_cons hblank]

theorem Value.Reads.item {style : Style} {v : Value} (hreads : v.Reads style)
    (hnumbers : ∀ n ∈ v.numbers, n.ReadsBack) {level fuel : Nat} {rest : List Char}
    (hrest : endsNumber rest = true) (hfuel : 2 * (v.render style level rest).length < fuel) :
    ∃ f, fuel = f + 1 ∧ readValue f (v.render style level rest) = .ok (v.toTree, rest) :=
  ⟨fuel - 1, by omega, hreads level _ _ rest hrest (v.skipBlanks_render hnumbers) (by omega)⟩

/-- The items of a list are read one after the other, up to its closing bracket. -/
theorem readItems_render {style : Style} {level fuel : Nat} {rest : List Char} {item : Value}
    {items : List Value} (hnumbers : ∀ v ∈ item :: items, ∀ n ∈ v.numbers, n.ReadsBack)
    (hreads : ∀ v ∈ item :: items, v.Reads style)
    (hfuel : 2 * (item.render style (level + 1) (renderItems style level items rest)).length
      < fuel) :
    readItems fuel (item.render style (level + 1) (renderItems style level items rest))
      = .ok ((item :: items).map Value.toTree, rest) := by
  induction items generalizing item fuel with
  | nil =>
      obtain ⟨f, rfl, hitem⟩ := (hreads item (by simp)).item (hnumbers item (by simp))
        (endsNumber_renderItems style level [] rest) hfuel
      refine readItems_last hitem ?_
      rw [renderItems, skipBlanks_append (all_isBlankChar_lineAt style level)]
      exact skipBlanks_cons (by decide) _
  | cons next items ih =>
      obtain ⟨f, rfl, hitem⟩ := (hreads item (by simp)).item (hnumbers item (by simp))
        (endsNumber_renderItems style level (next :: items) rest) hfuel
      have hcomma : skipBlanks (renderItems style level (next :: items) rest)
          = ',' :: (style.lineAt (level + 1)
            ++ next.render style (level + 1) (renderItems style level items rest)) := by
        rw [renderItems]
        exact skipBlanks_cons (by decide) _
      -- The comma in front of the next item pays for the step.
      have hlength : (next.render style (level + 1) (renderItems style level items rest)).length
          < (item.render style (level + 1)
            (renderItems style level (next :: items) rest)).length := by
        have hsuffix := (item.suffix_render style (level + 1)
          (renderItems style level (next :: items) rest)).length_le
        nth_rewrite 1 [renderItems] at hsuffix
        rw [List.length_cons, List.length_append] at hsuffix
        omega
      have hitems : readItems f
          (next.render style (level + 1) (renderItems style level items rest))
            = .ok ((next :: items).map Value.toTree, rest) :=
        ih (fun v hv => hnumbers v (by simp [hv])) (fun v hv => hreads v (by simp [hv]))
          (by omega)
      obtain ⟨c, tail, heq, hblank, hc⟩ := next.exists_render_eq_cons style (level + 1)
        (renderItems style level items rest) (hnumbers next (by simp))
      rw [heq] at hitems
      refine readItems_comma hitem hcomma ?_ hc hitems
      rw [skipBlanks_append (all_isBlankChar_lineAt style _), heq]
      exact skipBlanks_cons hblank _

theorem Value.Reads.member {style : Style} {v : Value} (hreads : v.Reads style)
    (hnumbers : ∀ n ∈ v.numbers, n.ReadsBack) (level fuel : Nat) {rest : List Char}
    (hrest : endsNumber rest = true)
    (hfuel : 2 * (style.colon ++ v.render style level rest).length ≤ fuel) :
    ∃ next, skipBlanks (style.colon ++ v.render style level rest) = ':' :: next ∧
      readValue fuel next = .ok (v.toTree, rest) := by
  cases style with
  | compact =>
      refine ⟨v.render .compact level rest, skipBlanks_cons (by decide) _, ?_⟩
      refine hreads level fuel _ rest hrest (v.skipBlanks_render hnumbers) ?_
      simp only [Style.colon, List.length_append] at hfuel
      omega
  | pretty =>
      refine ⟨' ' :: v.render .pretty level rest, skipBlanks_cons (by decide) _, ?_⟩
      refine hreads level fuel _ rest hrest (v.skipBlanks_render hnumbers) ?_
      simp only [Style.colon, List.length_append, List.length_cons] at hfuel ⊢
      omega

theorem length_add_two_le_renderText (s : String) (rest : List Char) :
    rest.length + 2 ≤ (renderText s rest).length := by
  simp only [renderText, List.length_cons, List.length_append]
  omega

/-- The members of an object are read one after the other, up to its closing brace. -/
theorem readMembers_render {style : Style} {level fuel : Nat} {rest : List Char}
    {m : String × Value} {members : List (String × Value)}
    (hnumbers : ∀ m' ∈ m :: members, ∀ n ∈ m'.2.numbers, n.ReadsBack)
    (hreads : ∀ m' ∈ m :: members, m'.2.Reads style)
    (hfuel : 2 * (renderText m.1 (style.colon
      ++ m.2.render style (level + 1) (renderMembers style level members rest))).length < fuel) :
    readMembers fuel (renderText m.1 (style.colon
      ++ m.2.render style (level + 1) (renderMembers style level members rest)))
        = .ok ((m :: members).map fun m => (some m.1, m.2.toTree), rest) := by
  induction members generalizing m fuel with
  | nil =>
      obtain ⟨f, rfl⟩ : ∃ f, fuel = f + 1 := ⟨fuel - 1, by omega⟩
      have htext := length_add_two_le_renderText m.1 (style.colon
        ++ m.2.render style (level + 1) (renderMembers style level [] rest))
      obtain ⟨value, hcolon, hvalue⟩ := (hreads m (by simp)).member (hnumbers m (by simp))
        (level + 1) f (endsNumber_renderMembers style level [] rest) (by omega)
      refine readMembers_last (readText_renderText _ _) hcolon hvalue ?_
      rw [renderMembers, skipBlanks_append (all_isBlankChar_lineAt style level)]
      exact skipBlanks_cons (by decide) _
  | cons next members ih =>
      obtain ⟨f, rfl⟩ : ∃ f, fuel = f + 1 := ⟨fuel - 1, by omega⟩
      have htext := length_add_two_le_renderText m.1 (style.colon
        ++ m.2.render style (level + 1) (renderMembers style level (next :: members) rest))
      obtain ⟨value, hcolon, hvalue⟩ := (hreads m (by simp)).member (hnumbers m (by simp))
        (level + 1) f (endsNumber_renderMembers style level (next :: members) rest) (by omega)
      have hcomma : skipBlanks (renderMembers style level (next :: members) rest)
          = ',' :: (style.lineAt (level + 1) ++ renderText next.1 (style.colon
            ++ next.2.render style (level + 1) (renderMembers style level members rest))) := by
        rw [renderMembers]
        exact skipBlanks_cons (by decide) _
      -- Again the comma pays, this time together with the quotes around the key.
      have hlength : (renderText next.1 (style.colon
          ++ next.2.render style (level + 1) (renderMembers style level members rest))).length
            < (m.2.render style (level + 1)
              (renderMembers style level (next :: members) rest)).length := by
        have hsuffix := (m.2.suffix_render style (level + 1)
          (renderMembers style level (next :: members) rest)).length_le
        nth_rewrite 1 [renderMembers] at hsuffix
        rw [List.length_cons, List.length_append] at hsuffix
        omega
      rw [List.length_append] at htext
      have hmembers : readMembers f (renderText next.1 (style.colon
          ++ next.2.render style (level + 1) (renderMembers style level members rest)))
            = .ok ((next :: members).map fun m => (some m.1, m.2.toTree), rest) :=
        ih (fun m' hm' => hnumbers m' (by simp [hm'])) (fun m' hm' => hreads m' (by simp [hm']))
          (by omega)
      refine readMembers_comma (readText_renderText _ _) hcolon hvalue hcomma ?_ hmembers
      rw [skipBlanks_append (all_isBlankChar_lineAt style _)]
      exact skipBlanks_cons (by decide) _

/-- What is written for a value is read as the value. -/
theorem Value.reads {style : Style} {v : Value} (hnumbers : ∀ n ∈ v.numbers, n.ReadsBack) :
    v.Reads style := by
  induction v using Value.induction with
  | hnull =>
      intro level fuel s rest hrest hs hfuel
      rw [render] at hs
      obtain ⟨f, rfl, -⟩ := exists_fuel hs hfuel
      rw [readValue, hs]
      rfl
  | hbool b =>
      intro level fuel s rest hrest hs hfuel
      cases b <;>
        (rw [render] at hs
         obtain ⟨f, rfl, -⟩ := exists_fuel hs hfuel
         rw [readValue, hs]
         rfl)
  | hnumber n =>
      intro level fuel s rest hrest hs hfuel
      have hn := hnumbers n (by simp [numbers])
      obtain ⟨c, tail, heq, hc⟩ := exists_of_readNumber hn
      rw [render, heq] at hs
      obtain ⟨f, rfl, -⟩ := exists_fuel hs hfuel
      -- Reading is local, so what follows the number does not matter.
      have hread := hn.readNumber_append hrest
      rw [heq] at hread
      rw [readValue_number hs hc]
      exact hread
  | htext t =>
      intro level fuel s rest hrest hs hfuel
      rw [render] at hs
      obtain ⟨f, rfl, -⟩ := exists_fuel hs hfuel
      exact readValue_text hs (readText_renderText t rest)
  | hlist items ih =>
      intro level fuel s rest hrest hs hfuel
      cases items with
      | nil =>
          rw [render] at hs
          obtain ⟨f, rfl, -⟩ := exists_fuel hs hfuel
          rw [readValue, hs]
          rfl
      | cons item items =>
          rw [numbers_list] at hnumbers
          have hitems : ∀ v ∈ item :: items, ∀ n ∈ v.numbers, n.ReadsBack :=
            fun v hv n hn => hnumbers n (List.mem_flatMap.2 ⟨v, hv, hn⟩)
          rw [render] at hs
          obtain ⟨f, rfl, hf⟩ := exists_fuel hs hfuel
          rw [List.length_append] at hf
          -- One unit of fuel is spent on the list itself; its bracket pays two.
          have hread := readItems_render hitems (fun v hv => ih v hv (hitems v hv))
            (show 2 * (item.render style (level + 1) (renderItems style level items rest)).length
              < f by omega)
          obtain ⟨c, tail, heq, hblank, hc⟩ := item.exists_render_eq_cons style (level + 1)
            (renderItems style level items rest) (hitems item (by simp))
          rw [heq] at hread
          rw [toTree, treesOf_eq_map]
          refine readValue_list hs ?_ hc hread
          rw [skipBlanks_append (all_isBlankChar_lineAt style _), heq]
          exact skipBlanks_cons hblank _
  | hobject members ih =>
      intro level fuel s rest hrest hs hfuel
      cases members with
      | nil =>
          rw [render] at hs
          obtain ⟨f, rfl, -⟩ := exists_fuel hs hfuel
          rw [readValue, hs]
          rfl
      | cons m members =>
          rw [numbers_object] at hnumbers
          have hmembers : ∀ m' ∈ m :: members, ∀ n ∈ m'.2.numbers, n.ReadsBack :=
            fun m' hm' n hn => hnumbers n (List.mem_flatMap.2 ⟨m', hm', hn⟩)
          rw [render] at hs
          obtain ⟨f, rfl, hf⟩ := exists_fuel hs hfuel
          rw [List.length_append] at hf
          have hread := readMembers_render hmembers (fun m' hm' => ih m' hm' (hmembers m' hm'))
            (show 2 * (renderText m.1 (style.colon ++ m.2.render style (level + 1)
              (renderMembers style level members rest))).length < f by omega)
          rw [toTree, treeMembersOf_eq_map]
          refine readValue_object hs ?_ hread
          rw [skipBlanks_append (all_isBlankChar_lineAt style _)]
          exact skipBlanks_cons (by decide) _

/-- A whole text that is written for a value is read as the value. -/
theorem readTree_render {style : Style} {v : Value} (hnumbers : ∀ n ∈ v.numbers, n.ReadsBack) :
    readTree (v.render style 0 []) = .ok v.toTree := by
  have hreads : v.Reads style := Value.reads hnumbers
  have hread := hreads 0 (2 * (v.render style 0 []).length + 2) _ [] rfl
    (v.skipBlanks_render hnumbers) (by omega)
  simp only [readTree, hread]
  rfl

/-! ## Nesting -/

theorem exists_valuesOf {room : Nat} {items : List Value}
    (h : ∀ v ∈ items, ∃ data, v.toTree.toValue room = .ok data) :
    ∃ values, valuesOf room (items.map Value.toTree) = .ok values := by
  induction items with
  | nil =>
      exact ⟨[], by rw [List.map_nil, valuesOf]⟩
  | cons v rest ih =>
      obtain ⟨data, hdata⟩ := h v (by simp)
      obtain ⟨values, hvalues⟩ := ih fun v' hv' => h v' (by simp [hv'])
      exact ⟨data :: values, by rw [List.map_cons, valuesOf, hdata, hvalues]; rfl⟩

theorem exists_membersOf {room : Nat} {members : List (String × Value)}
    (h : ∀ m ∈ members, ∃ data, m.2.toTree.toValue room = .ok data) :
    ∃ pairs, membersOf room (members.map fun m => (some m.1, m.2.toTree)) = .ok pairs := by
  induction members with
  | nil =>
      exact ⟨[], by rw [List.map_nil, membersOf]⟩
  | cons m rest ih =>
      obtain ⟨data, hdata⟩ := h m (by simp)
      obtain ⟨pairs, hpairs⟩ := ih fun m' hm' => h m' (by simp [hm'])
      exact ⟨(m.1, data) :: pairs, by rw [List.map_cons, membersOf, hdata, hpairs]; rfl⟩

/-- A document within the room that is left is accepted as data. -/
theorem Value.exists_toValue_toTree {v : Value} {room : Nat} (hroom : v.depth ≤ room) :
    ∃ data, v.toTree.toValue room = .ok data := by
  induction v using Value.induction generalizing room with
  | hnull | hbool | hnumber | htext =>
      exact ⟨_, by rw [toTree, Tree.toValue]⟩
  | hlist items ih =>
      cases room with
      | zero =>
          rw [depth] at hroom
          omega
      | succ room =>
          have hitems := depth_list_le_iff.1 hroom
          obtain ⟨values, hvalues⟩ := exists_valuesOf fun v hv => ih v hv (hitems v hv)
          exact ⟨.list values, by rw [toTree, treesOf_eq_map, Tree.toValue, hvalues]; rfl⟩
  | hobject members ih =>
      cases room with
      | zero =>
          rw [depth] at hroom
          omega
      | succ room =>
          have hmembers := depth_object_le_iff.1 hroom
          obtain ⟨pairs, hpairs⟩ := exists_membersOf fun m hm => ih m hm (hmembers m hm)
          exact ⟨.object (Members.ofPairs pairs), by
            rw [toTree, treeMembersOf_eq_map, Tree.toValue, hpairs]; rfl⟩

end Json
end PrismaTypes
