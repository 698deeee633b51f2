import PrismaTypes.Proofs.Canonical
import PrismaTypes.Proofs.Matching
import PrismaTypes.Proofs.OutlineReading

/-!
# Reading written values

A value that is well spelled and written in the notation of the language is read back as itself, in
front of anything that ends a value (`readsEach_value`). The proof follows the value: a leaf is a
token that the earlier alternatives of an expression refuse, a call or a list is a list between
commas of what is already known to be read back.
-/

namespace PrismaTypes

open Grammar
open Outline (Value Argument Attribute readValue readArg readArgs readValues readAttribute
  readArgs_eq_mapM readValues_eq_mapM)
open Text (Place)

/-! ## Names in front of other texts -/

/-- A name is no argument's name unless a colon follows. -/
theorem argName_fails {name u : List Char} (hname : IsDottedName name) (hstops : stops u = true)
    (hsolid : u.head?.all isSolid = true) (hcolon : u.head? ≠ some ':') (place : Place) :
    Derives false (.sequence (.call .argName) [.word ":", .call .expression]) place (name ++ u)
      none := by
  -- Only the first word can be the name of an argument; a point or `u` follows it.
  obtain ⟨word, rest, rfl, hword, hrest⟩ := hname.first
  have hhead : (rest ++ u).head?.any isWordPart = false ∧
      (rest ++ u).head?.all isSolid = true ∧ (rest ++ u).head? ≠ some ':' := by
    rcases hrest with rfl | ⟨tail, rfl⟩
    · exact ⟨any_isWordPart_of_stops hstops, hsolid, hcolon⟩
    · simp only [List.cons_append, List.head?_cons]
      decide
  have hscan := scanIdentifier_append hword hhead.1
  have hidentifier : Derives false (.call .identifier) place (word ++ (rest ++ u)) _ :=
    .token rfl
  rw [hscan] at hidentifier
  have hargName : Derives false (.call .argName) place (word ++ (rest ++ u)) _ :=
    .spaced rfl hidentifier
  rw [List.append_assoc]
  refine .seqSecondFails hargName ?_
  refine .seqFirstFails (.literalFails (afterWord?_eq_none_iff.2 ?_))
  rintro ⟨more, hmore⟩
  have hgap : gap false (rest ++ u) = ([], rest ++ u) := gap_of_solid hhead.2.1 false
  simp only [Match.asNode, Match.ofScan, hgap] at hmore
  exact hhead.2.2 (by rw [← hmore]; rfl)

/-- A name without brackets after it is no call. -/
theorem functionCall_fails {name t : List Char} (hname : IsDottedName name)
    (ht : closes t = true) (place : Place) :
    Derives false (.call .functionCall) place (name ++ t) none := by
  have hpath : Derives false (.call .path) place (name ++ t) _ := .token rfl
  rw [scanPath_append hname (stops_of_closes ht)] at hpath
  refine .spaced rfl (.seqSecondFails hpath ?_)
  -- The bracket of a call may stand after blanks, but `t` starts with none.
  have hgap : gap false t = ([], t) := gap_of_solid (solid_of_closes ht) false
  simp only [Match.asNode, Match.ofScan, hgap]
  refine refuses rfl ?_ false _
  obtain ⟨c, rest, rfl, hc⟩ := exists_of_closes ht
  rcases hc with rfl | rfl | rfl <;> rfl

/-! ## Leaves -/

/-- A literal written by `quote` is taken as a whole, and its value is the text. -/
structure Quotes (quote : List Char → List Char) (s : String) : Prop where
  scan : ∀ rest, scanString (quote s.toList ++ rest) = some (quote s.toList, rest)
  value : Outline.unquote (quote s.toList) = s.toList

theorem quotes_quoted (s : String) : Quotes quoted s :=
  ⟨scanString_quoted s.toList, unquote_quoted s.toList⟩

/-- The node of a value that stands alone as an argument. -/
def IsValueNode (v : Value) (n : Node) : Prop :=
  n.rule ≠ .argName ∧ readValue n = .ok v

/-- The value is read back in front of anything that ends a value. -/
abbrev ReadsValue (quote : List Char → List Char) (v : Value) : Prop :=
  ReadsEach (.call .expression) (Value.write quote) IsValueNode v

variable {quote : List Char → List Char}

theorem Quotes.head {s : String} (hs : Quotes quote s) (t : List Char) :
    (quote s.toList ++ t).head? = some '\"' := by
  have hscan := hs.scan t
  have hopens : (quote s.toList ++ t).head?.any Rule.stringLiteral.opens = true :=
    Rule.opens_of_token rfl hscan (scanString_takes hscan)
  obtain ⟨c, hhead, hc⟩ := (Option.any_eq_true _ _).1 hopens
  obtain rfl : c = '\"' := by simpa [Rule.opens] using hc
  exact hhead

theorem readsValue_text {s : String} (hs : Quotes quote s) : ReadsValue quote (.text s) := by
  intro place t ht
  have hscan := hs.scan t
  have hhead := hs.head t
  refine ⟨?_, by simp only [Value.write, hhead]; rfl⟩
  have htoken : Yields (.call .stringLiteral) place (quote s.toList ++ t) _ _ := .token rfl hscan
  have hcall : Derives false (.call .functionCall) place (quote s.toList ++ t) none :=
    refuses rfl (by rw [hhead]; rfl) false place
  have hlist : Derives false (.call .arrayLiteral) place (quote s.toList ++ t) none :=
    refuses rfl (by rw [hhead]; rfl) false place
  refine (Yields.silent rfl (.choiceSecond hcall (.choiceSecond hlist htoken.choiceFirst))).mono ?_
  rintro ns rfl
  exact ⟨_, rfl, by simp [Node.rule], by simp [readValue, hs.value]⟩

/-- A number starts like no name, list or string. -/
theorem exists_of_isNumberLiteral {s : List Char} (h : IsNumberLiteral s) :
    ∃ c rest, s = c :: rest ∧ isWordStart c = false ∧ c ≠ '[' ∧ c ≠ '\"' ∧ isSolid c = true := by
  cases h with
  | unsigned h =>
      obtain ⟨c, rest, rfl, hc⟩ := h.head
      have hne : ∀ d, isDigit d = false → c ≠ d := by
        rintro d hd rfl
        rw [hc] at hd
        cases hd
      refine ⟨c, rest, rfl, isWordStart_eq_false_of_isDigit hc, hne _ (by decide),
        hne _ (by decide), ?_⟩
      simp [isSolid, isSpace, hne ' ' (by decide), hne '\t' (by decide), hne '\r' (by decide),
        hne '\n' (by decide), hne '/' (by decide)]
  | negative h =>
      exact ⟨'-', _, rfl, by decide⟩

theorem readsValue_number {literal : String} (h : IsNumberLiteral literal.toList) :
    ReadsValue quote (.number literal) := by
  intro place t ht
  have hscan := scanNumber_append h (stops_of_closes ht)
  obtain ⟨c, rest, hhead, hclass⟩ := exists_of_isNumberLiteral h
  refine ⟨?_, by simp [Value.write, hhead, hclass]⟩
  have htoken : Yields (.call .numberLiteral) place (literal.toList ++ t) _ _ := .token rfl hscan
  have hcall : Derives false (.call .functionCall) place (literal.toList ++ t) none :=
    refuses rfl (by simp [hhead, Rule.opens, hclass]) false place
  have hlist : Derives false (.call .arrayLiteral) place (literal.toList ++ t) none :=
    refuses rfl (by simp [hhead, Rule.opens, hclass]) false place
  have htext : Derives false (.call .stringLiteral) place (literal.toList ++ t) none :=
    refuses rfl (by simp [hhead, Rule.opens, hclass]) false place
  refine (Yields.silent rfl (.choiceSecond hcall (.choiceSecond hlist
    (.choiceSecond htext htoken.choiceFirst)))).mono ?_
  rintro ns rfl
  exact ⟨_, rfl, by simp [Node.rule], by simp [readValue]⟩

/-- A word that is no call is a boolean or a name. -/
theorem yields_expression_of_name {name t : List Char} (hname : IsDottedName name)
    (ht : closes t = true) {place : Place} {P : List Node → Prop}
    (h : Yields (.choice (.call .booleanLiteral) (.call .path)) place (name ++ t) (· = t) P) :
    Yields (.call .expression) place (name ++ t) (· = t) P ∧
      (name ++ t).head?.all isSolid = true := by
  have hcall := functionCall_fails hname ht place
  obtain ⟨c, rest, rfl, hc⟩ := hname.head
  obtain ⟨hlist, htext, hnumber, hsolid⟩ := opens_of_isWordStart hc
  refine ⟨Yields.silent rfl (.choiceSecond hcall (.choiceSecond ?_ (.choiceSecond ?_
    (.choiceSecond ?_ h)))), by simpa using hsolid⟩
  · exact refuses rfl (by simpa using hlist) false place
  · exact refuses rfl (by simpa using htext) false place
  · exact refuses rfl (by simpa using hnumber) false place

theorem readsValue_boolean (b : Bool) : ReadsValue quote (.boolean b) := by
  intro place t ht
  have hscan := scanBoolean_append b (any_isWordPart_of_stops (stops_of_closes ht))
  have htoken : Yields (.call .booleanLiteral) place (booleanWord b ++ t) _ _ := .token rfl hscan
  refine yields_expression_of_name (.single (isIdentifier_booleanWord b)) ht
    (htoken.choiceFirst.mono ?_)
  rintro ns rfl
  refine ⟨_, rfl, by simp [Node.rule], ?_⟩
  cases b <;> rfl

theorem readsValue_path {name : String} (hname : IsDottedName name.toList)
    (hno : NoBoolean name.toList) : ReadsValue quote (.path name) := by
  intro place t ht
  have hboolean : Derives false (.call .booleanLiteral) place (name.toList ++ t) _ := .token rfl
  rw [scanBoolean_eq_none hname hno (stops_of_closes ht)] at hboolean
  have htoken : Yields (.call .path) place (name.toList ++ t) _ _ :=
    .token rfl (scanPath_append hname (stops_of_closes ht))
  refine yields_expression_of_name hname ht ((Yields.choiceSecond hboolean htoken).mono ?_)
  rintro ns rfl
  exact ⟨_, rfl, by simp [Node.rule], by simp [readValue]⟩

/-! ## Arguments -/

/-- An argument as written. -/
def writeArg (quote : List Char → List Char) : Argument → List Char
  | (none, v) => v.write quote
  | (some name, v) => name.toList ++ [':', ' '] ++ v.write quote

theorem writeArgs_eq_map (args : List Argument) :
    Value.writeArgs quote args = args.map (writeArg quote) := by
  induction args with
  | nil =>
      simp [Value.writeArgs]
  | cons arg args ih =>
      rcases arg with ⟨_ | name, v⟩ <;> simp [Value.writeArgs, writeArg, ih]

theorem writeItems_eq_map (items : List Value) :
    Value.writeItems quote items = items.map (Value.write quote) := by
  induction items with
  | nil =>
      simp [Value.writeItems]
  | cons v items ih =>
      simp [Value.writeItems, ih]

abbrev ReadsArg (quote : List Char → List Char) (arg : Argument) : Prop :=
  ReadsEach (.call .attributeArg) (writeArg quote) (fun arg n => readArg n = .ok arg) arg

/-- No value is followed by the colon that would make a name of it. -/
theorem value_is_no_argName {v : Value} (hv : v.WellSpelled)
    (hq : ∀ s ∈ v.texts, Quotes quote s) {t : List Char} (ht : closes t = true) (place : Place) :
    Derives false (.sequence (.call .argName) [.word ":", .call .expression]) place
      (v.write quote ++ t) none := by
  have hname : ∀ {name u : List Char}, IsDottedName name → u.head? = some '(' ∨ closes u = true →
      Derives false (.sequence (.call .argName) [.word ":", .call .expression]) place (name ++ u)
        none := by
    intro name u hname hu
    rcases hu with hu | hu
    · exact argName_fails hname (by simp [stops, hu]; decide) (by simp [hu]; decide) (by simp [hu])
        place
    · refine argName_fails hname (stops_of_closes hu) (solid_of_closes hu) ?_ place
      obtain ⟨c, rest, rfl, hc⟩ := exists_of_closes hu
      rcases hc with rfl | rfl | rfl <;> simp
  -- Three kinds of values start like no name; after the others comes a bracket or `t`.
  cases v with
  | text s =>
      refine .seqFirstFails (refuses rfl ?_ false place)
      rw [Value.write, (hq s (by simp [Value.texts])).head t]
      rfl
  | number literal =>
      simp only [Value.WellSpelled] at hv
      obtain ⟨c, rest, hhead, hclass, -⟩ := exists_of_isNumberLiteral hv
      refine .seqFirstFails (refuses rfl ?_ false place)
      simp [Value.write, hhead, Rule.opens, hclass]
  | list items =>
      refine .seqFirstFails (refuses rfl ?_ false place)
      simp only [Value.write, List.append_assoc]
      rfl
  | boolean b =>
      exact hname (.single (isIdentifier_booleanWord b)) (.inr ht)
  | path name =>
      simp only [Value.WellSpelled] at hv
      simp only [Value.write]
      exact hname hv.1 (.inr ht)
  | call name args =>
      simp only [Value.WellSpelled] at hv
      simp only [Value.write, List.append_assoc]
      exact hname hv.1 (.inl rfl)

theorem readsArg_positional {v : Value} (hv : v.WellSpelled) (hq : ∀ s ∈ v.texts, Quotes quote s)
    (hread : ReadsValue quote v) : ReadsArg quote (none, v) := by
  intro place t ht
  obtain ⟨hvalue, hsolid⟩ := hread place t ht
  refine ⟨(Yields.node rfl (.choiceSecond (value_is_no_argName hv hq ht place) hvalue)).mono ?_,
    hsolid⟩
  rintro ns ⟨text, children, rfl, ⟨n, rfl, hrule, hn⟩, -⟩
  exact ⟨_, rfl, by simp [readArg, hrule, hn, Except.map]⟩

theorem readsArg_named {name : String} {v : Value} (hname : isIdentifier name.toList = true)
    (hread : ReadsValue quote v) : ReadsArg quote (some name, v) := by
  intro place t ht
  have hscan : scanIdentifier (name.toList ++ ([':'] ++ ([' '] ++ (v.write quote ++ t)))) = _ :=
    scanIdentifier_append hname (by simp; decide)
  obtain ⟨hvalue, hsolid⟩ := hread ((place.advance name.toList).advance ([':'] ++ [' '])) t ht
  have hidentifier : Yields (.call .identifier) place _ _ _ := .token rfl hscan
  have hargName : Yields (.call .argName) place _ _ _ := .node rfl hidentifier
  have hcolon : Yields (.seq (.word ":") (.call .expression)) (place.advance name.toList) _ _ _ :=
    .word_seq [':'] [' '] rfl (before_of_solid hsolid) hvalue
  have hall := (hargName.before (before_of_solid rfl)).seq hcolon
  obtain ⟨c, rest, hhead, hc, -⟩ := exists_of_isIdentifier hname
  refine ⟨?_, by simp [writeArg, hhead, (opens_of_isWordStart hc).2.2.2]⟩
  simp only [writeArg, List.append_assoc]
  refine (Yields.node rfl hall.choiceFirst).mono ?_
  rintro ns ⟨text, children, rfl, ⟨before, after, ⟨text', children', rfl, rfl, u, hu, rfl⟩,
    ⟨n, rfl, -, hn⟩, rfl⟩, -⟩
  -- The node of the name covers all that stands before the colon.
  have htext : text' = name.toList := List.append_cancel_right hu
  exact ⟨_, rfl, by simp [readArg, Node.rule, hn, Except.map, Outline.word, Node.text, htext]⟩

theorem mapM_of_forall₂ {α : Type} {R : α → Node → Prop}
    {read : Node → Except Outline.Misfit α} {xs : List α} {nodes : List Node}
    (hread : ∀ x n, R x n → read n = .ok x) (h : List.Forall₂ R xs nodes) :
    nodes.mapM read = .ok xs := by
  induction h with
  | nil =>
      rfl
  | cons hx _ ih =>
      simp [List.mapM_cons, hread _ _ hx, ih, bind, Except.bind, pure, Except.pure]

/-- Arguments in brackets. -/
theorem yields_attributeArgs {args : List Argument} (hargs : ∀ a ∈ args, ReadsArg quote a)
    (t : List Char) (place : Place) :
    Yields (.call .attributeArgs) place
      (['('] ++ Text.joinWith [',', ' '] (Value.writeArgs quote args) ++ [')'] ++ t) (· = t)
      (fun ns => ∃ n, ns = [n] ∧ readArgs n.children = .ok args) := by
  rw [writeArgs_eq_map]
  have hlist := yields_bracketed hargs '(' (.inl rfl)
    (fun place => refuses (s := ')' :: t) rfl rfl false place) place
  refine (Yields.node rfl hlist).mono ?_
  rintro ns ⟨text, children, rfl, hchildren, -⟩
  refine ⟨_, rfl, ?_⟩
  rw [readArgs_eq_mapM]
  exact mapM_of_forall₂ (fun _ _ h => h) hchildren

/-! ## Values -/

theorem readsValue_call {name : String} {args : List Argument} (hname : IsDottedName name.toList)
    (hargs : ∀ a ∈ args, ReadsArg quote a) : ReadsValue quote (.call name args) := by
  intro place t ht
  have hscan : scanPath (name.toList ++
      (['('] ++ Text.joinWith [',', ' '] (Value.writeArgs quote args) ++ [')'] ++ t)) = _ :=
    scanPath_append hname rfl
  have hpath : Yields (.call .path) place _ _ _ := .token rfl hscan
  have hall := (hpath.before (before_of_solid rfl)).seq
    (yields_attributeArgs hargs t (place.advance name.toList))
  obtain ⟨c, rest, hhead, hc⟩ := hname.head
  refine ⟨?_, by simp [Value.write, hhead, (opens_of_isWordStart hc).2.2.2]⟩
  have hcall : Yields (.call .functionCall) place _ _ _ := .node rfl hall
  simp only [Value.write, List.append_assoc] at hcall ⊢
  refine (Yields.silent rfl hcall.choiceFirst).mono ?_
  rintro ns ⟨text, children, rfl, ⟨before, after, rfl, ⟨n, rfl, hn⟩, rfl⟩, -⟩
  rcases n with ⟨rule', place', text', children'⟩
  have hread : readArgs children' = .ok args := hn
  exact ⟨_, rfl, by simp [Node.rule],
    by simp [readValue, hread, Except.map, Outline.word, Node.text]⟩

theorem readsValue_list {items : List Value} (hitems : ∀ v ∈ items, ReadsValue quote v) :
    ReadsValue quote (.list items) := by
  intro place t ht
  have hbracketed := yields_bracketed hitems '[' (.inr rfl)
    (fun place => refuses (s := ']' :: t) rfl rfl false place) place
  have hlist : Yields (.call .arrayLiteral) place _ _ _ := .node rfl hbracketed
  rw [Value.write, writeItems_eq_map]
  refine ⟨?_, by simp only [List.append_assoc]; rfl⟩
  -- A call is tried first and refuses the bracket.
  have hcall : Derives false (.call .functionCall) place
      (['['] ++ Text.joinWith [',', ' '] (items.map (Value.write quote)) ++ [']'] ++ t) none := by
    simp only [List.append_assoc]
    exact refuses rfl rfl false place
  refine (Yields.silent rfl (.choiceSecond hcall hlist.choiceFirst)).mono ?_
  rintro ns ⟨text, children, rfl, hchildren, -⟩
  have hread := mapM_of_forall₂ (fun _ _ h => h.2) hchildren
  rw [← readValues_eq_mapM] at hread
  exact ⟨_, rfl, by simp [Node.rule], by simp [readValue, hread, Except.map]⟩

mutual

theorem readsValue (v : Value) (hv : v.WellSpelled) (hq : ∀ s ∈ v.texts, Quotes quote s) :
    ReadsValue quote v := by
  cases v with
  | text s =>
      exact readsValue_text (hq s (by simp [Value.texts]))
  | number literal =>
      exact readsValue_number (by simpa [Value.WellSpelled] using hv)
  | boolean b =>
      exact readsValue_boolean b
  | path name =>
      simp only [Value.WellSpelled] at hv
      exact readsValue_path hv.1 hv.2
  | call name args =>
      simp only [Value.WellSpelled] at hv
      simp only [Value.texts] at hq
      exact readsValue_call hv.1 (readsArgs args hv.2 hq)
  | list items =>
      simp only [Value.WellSpelled] at hv
      simp only [Value.texts] at hq
      exact readsValue_list (readsItems items hv hq)

theorem readsItems (items : List Value) (h : Value.ItemsWellSpelled items)
    (hq : ∀ s ∈ Value.itemTexts items, Quotes quote s) : ∀ v ∈ items, ReadsValue quote v := by
  cases items with
  | nil =>
      simp
  | cons v items =>
      simp only [Value.ItemsWellSpelled] at h
      simp only [Value.itemTexts, List.mem_append] at hq
      have hfirst := readsValue v h.1 fun s hs => hq s (.inl hs)
      have hothers := readsItems items h.2 fun s hs => hq s (.inr hs)
      intro v' hv'
      rcases List.mem_cons.1 hv' with rfl | hv'
      · exact hfirst
      · exact hothers v' hv'

theorem readsArgs (args : List Argument) (h : Value.ArgsWellSpelled args)
    (hq : ∀ s ∈ Value.argTexts args, Quotes quote s) : ∀ a ∈ args, ReadsArg quote a := by
  cases args with
  | nil =>
      simp
  | cons arg args =>
      rcases arg with ⟨name, v⟩
      simp only [Value.ArgsWellSpelled] at h
      simp only [Value.argTexts, List.mem_append] at hq
      have hvalue := readsValue v h.2.1 fun s hs => hq s (.inl hs)
      have hothers := readsArgs args h.2.2 fun s hs => hq s (.inr hs)
      intro a ha
      rcases List.mem_cons.1 ha with rfl | ha
      · cases name with
        | none =>
            exact readsArg_positional h.2.1 (fun s hs => hq s (.inl hs)) hvalue
        | some name =>
            exact readsArg_named (h.1 name rfl) hvalue
      · exact hothers a ha

end

/-! ## Attributes -/

/-- The nodes of an attribute after its at signs. -/
def IsAttributeParts (a : Attribute) (nodes : List Node) : Prop :=
  ∃ name more, nodes = name :: more ∧ Outline.word name = a.name ∧
    ((more = [] ∧ a.args = []) ∨ ∃ args, more = [args] ∧ readArgs args.children = .ok a.args)

theorem readAttribute_of_parts {a : Attribute} {n : Node} (h : IsAttributeParts a n.children) :
    readAttribute n = .ok a := by
  obtain ⟨name, more, hchildren, hname, hmore⟩ := h
  rcases a with ⟨aname, aargs⟩
  simp only at hname hmore
  rcases hmore with ⟨rfl, rfl⟩ | ⟨args, rfl, hargs⟩
  · simp [readAttribute, Outline.firstChild, hchildren, hname, bind, Except.bind, pure, Except.pure]
  · simp [readAttribute, Outline.firstChild, hchildren, hname, hargs, bind, Except.bind, pure,
      Except.pure]

variable {a : Attribute} {t r : List Char}

/-- Without arguments the match also takes the blanks after the name, so what follows must not look
like arguments. -/
theorem yields_attributeParts (ha : a.WellSpelled)
    (hq : ∀ s ∈ Value.argTexts a.args, Quotes quote s) (hstops : stops t = true)
    (ht : Before r t) (hr : r.head? ≠ some '(') (place : Place) :
    Yields (.seq (.call .attributeName) (.optional (.call .attributeArgs))) place
      (a.write quote ++ t) (Before r) (IsAttributeParts a) := by
  by_cases hargs : a.args = []
  · have hwrite : a.write quote = a.name.toList := by simp [Attribute.write, hargs]
    have hname : Yields (.call .attributeName) place _ _ _ :=
      .token rfl (scanPath_append ha.name hstops)
    have hnone : ∀ place, Derives false (.call .attributeArgs) place r none := by
      refine refuses rfl ?_ false
      cases r with
      | nil =>
          rfl
      | cons d rest =>
          simpa [Rule.opens] using hr
    rw [hwrite]
    refine (hname.seq_gap ht ((Yields.optionalNone (hnone _)).before ht.self)).mono ?_
    rintro ns ⟨before, after, rfl, rfl, rfl⟩
    exact ⟨_, [], rfl, by simp [Outline.word, Node.text], .inl ⟨rfl, hargs⟩⟩
  · have hwrite : a.write quote ++ t = a.name.toList ++
        (['('] ++ Text.joinWith [',', ' '] (Value.writeArgs quote a.args) ++ [')'] ++ t) := by
      simp [Attribute.write, hargs]
    have hscan : scanPath (a.name.toList ++
        (['('] ++ Text.joinWith [',', ' '] (Value.writeArgs quote a.args) ++ [')'] ++ t)) = _ :=
      scanPath_append ha.name rfl
    have hname : Yields (.call .attributeName) place _ _ _ := .token rfl hscan
    have hlist := yields_attributeArgs (readsArgs a.args ha.args hq) t
      (place.advance a.name.toList)
    rw [hwrite]
    refine ((hname.before (before_of_solid rfl)).seq (hlist.optional.before ht)).mono ?_
    rintro ns ⟨before, after, rfl, ⟨n, rfl, hn⟩, rfl⟩
    exact ⟨_, [n], rfl, by simp [Outline.word, Node.text], .inr ⟨n, rfl, hn⟩⟩

/-- An attribute with its at signs is read back. -/
theorem yields_attribute {rule : Rule} {marks : List Char}
    (hform : rule.form = .spaced
      (.sequence (.literal marks) [.call .attributeName, .optional (.call .attributeArgs)]))
    (ha : a.WellSpelled) (hq : ∀ s ∈ Value.argTexts a.args, Quotes quote s)
    (hstops : stops t = true) (ht : Before r t) (hr : r.head? ≠ some '(') (place : Place) :
    Yields (.call rule) place (marks ++ (a.write quote ++ t)) (Before r)
      (fun ns => ∃ n, ns = [n] ∧ n.rule = rule ∧ readAttribute n = .ok a) := by
  obtain ⟨c, tail, hhead, hc⟩ := ha.name.head
  have hsolid : (a.write quote ++ t).head?.all isSolid = true := by
    simp [Attribute.write, hhead, (opens_of_isWordStart hc).2.2.2]
  have hall := Yields.word_seq marks [] rfl (before_of_solid hsolid)
    (yields_attributeParts ha hq hstops ht hr (place.advance (marks ++ [])))
  refine (Yields.node hform hall).mono ?_
  rintro ns ⟨text, children, rfl, hchildren, -⟩
  exact ⟨_, rfl, rfl, readAttribute_of_parts hchildren⟩

end PrismaTypes
