import PrismaTypes.Proofs.BareTrees
import PrismaTypes.Proofs.LocalScans

/-!
# Changes of layout

A `Relayout` describes how a text becomes another one in which the words are the same and stand in
the same order, and only blanks and comments between them differ. A firm match of the first text has
a counterpart in the second (`Firm.relaid`): its nodes are the same but for places and blanks, and
where one match ends the other ends, too (`Lands`).

Nothing is assumed of a change of layout but what it does to one word, to one string literal and to
the blanks at one place; the matches of whole texts follow from that.
-/

namespace PrismaTypes
namespace Grammar

open Text (Place Marked SameRows isBlank)

/-- A change of layout. `holds place s s'` says that the text `s`, which stands at `place` of the
source, becomes `s'`; `keeps` says which string literals of the source stay as they are; and `whole`
says that nothing is added behind the source. -/
structure Relayout where
  holds : Place → List Char → List Char → Prop
  keeps : Place → List Char → Prop
  whole : Prop
  agree : ∀ {place s s'}, holds place s s' → Agree s s'
  word : ∀ {place w r s'}, holds place (w ++ r) s' → (∀ c ∈ w, isLineBreak c = false) →
    ∃ r', s' = w ++ r' ∧ holds (place.advance w) r r'
  string : ∀ {place w r s'}, holds place (w ++ r) s' → scanString (w ++ r) = some (w, r) →
    keeps place w → ∃ r', s' = w ++ r' ∧ holds (place.advance w) r r'
  blanks : ∀ {place s s'}, holds place s s' → ((gap false s).2 ≠ [] ∨ whole) →
    holds (place.advance (gap false s).1) (gap false s).2 (gap false s').2
  rows : ∀ {place s s'}, holds place s s' → ((gap false s).2 ≠ [] ∨ whole) →
    SameRows (gap false s).1 (gap false s').1

namespace Relayout

variable (L : Relayout) {place : Place} {s s' : List Char}

/-- There is more to come behind the blanks, or the source is used up. -/
def alive (tight : Bool) (r : List Char) : Prop :=
  tight = false → (gap false r).2 ≠ [] ∨ L.whole

theorem gap_of_alive {tight : Bool} (h : L.holds place s s') (halive : L.alive tight s) :
    L.holds (place.advance (gap tight s).1) (gap tight s).2 (gap tight s').2 := by
  cases tight with
  | true =>
      exact h
  | false =>
      exact L.blanks h (halive rfl)

end Relayout

theorem isLineBreak_of_solid {c : Char} (h : isBlank c = false) : isLineBreak c = false := by
  have hne : c ≠ '\n' ∧ c ≠ '\r' := by
    constructor <;> rintro rfl <;> cases h
  simp [isLineBreak, hne]

theorem isInk_lineBreak {w : List Char} (h : isInk w = true) :
    ∀ c ∈ w, isLineBreak c = false :=
  fun c hc => isLineBreak_of_solid ((isInk_iff.1 h).2 c hc)

/-- A blank text after the blanks starts with none. -/
theorem exists_of_gap_ne_nil {s : List Char} (h : (gap false s).2 ≠ []) :
    ∃ c rest, (gap false s).2 = c :: rest ∧ isSpace c = false := by
  cases hs : (gap false s).2 with
  | nil =>
      exact absurd hs h
  | cons c rest =>
      have hgap : splitBlanks false (c :: rest) = ([], c :: rest) := hs ▸ gap_gap s
      refine ⟨c, rest, rfl, ?_⟩
      cases hc : isSpace c with
      | false =>
          rfl
      | true =>
          simp [splitBlanks, hc, Scan.push] at hgap

/-! ## Refusals -/

section Refusals

variable {L : Relayout} {place : Place} {s s' : List Char} {e : Pattern} {tight : Bool}

/-- A word is scanned as before, and the texts behind it correspond. -/
theorem Relayout.scan {scan : List Char → Option Scan} (hlocal : Local scan)
    (hsplits : ∀ {s x}, scan s = some x → x.Splits s) (hs : L.holds place s s') {x : Scan}
    (hscan : scan s = some x) (hx : ∀ c ∈ x.1, isLineBreak c = false) :
    ∃ r', scan s' = some (x.1, r') ∧ L.holds (place.advance x.1) x.2 r' := by
  obtain ⟨rest, hrest⟩ := (L.agree hs).scan_some hlocal hscan
  have htext : x.1 ++ x.2 = s := hsplits hscan
  have htext' : x.1 ++ rest = s' := hsplits hrest
  rw [← htext] at hs
  obtain ⟨r', hr', hholds⟩ := L.word hs hx
  have hsame : rest = r' := List.append_cancel_left (htext'.trans hr')
  exact ⟨r', hsame ▸ hrest, hholds⟩

theorem IsWord.splits {scan : List Char → Option Scan} (h : IsWord e scan) {s : List Char}
    {x : Scan} (hscan : scan s = some x) : x.Splits s := by
  cases h with
  | literal =>
      obtain ⟨rest, hrest, rfl⟩ := Option.map_eq_some_iff.1 hscan
      exact (afterWord?_eq_some_iff.1 hrest).symm
  | path =>
      exact Rule.token_splits (show Rule.path.form = .token scanPath from rfl) hscan
  | argName =>
      exact Rule.token_splits (show Rule.identifier.form = .token scanIdentifier from rfl) hscan
  | boolean =>
      exact Rule.token_splits (show Rule.booleanLiteral.form = .token scanBoolean from rfl) hscan

theorem IsWord.ink {scan : List Char → Option Scan} (h : IsWord e scan) {s : List Char}
    {x : Scan} (hscan : scan s = some x) : isInk x.1 = true := by
  cases h with
  | literal hword =>
      obtain ⟨rest, -, rfl⟩ := Option.map_eq_some_iff.1 hscan
      exact hword
  | path =>
      exact Rule.token_ink (show Rule.path.form = _ from rfl) (by decide) (by decide) hscan
  | argName =>
      exact Rule.token_ink (show Rule.identifier.form = _ from rfl) (by decide) (by decide) hscan
  | boolean =>
      exact Rule.token_ink (show Rule.booleanLiteral.form = _ from rfl) (by decide) (by decide)
        hscan

/-- What is refused for its next words is refused in the other layout. -/
theorem Balks.relaid (h : Balks tight e s) (hs : L.holds place s s') : Balks tight e s' := by
  induction h generalizing place s' with
  | head he h =>
      exact .head he ((L.agree hs).head_any (fun _ => Pattern.opens_space he) h)
  | word hword h =>
      exact .word hword ((L.agree hs).scan_none hword.isLocal h)
  | first h ih =>
      exact .first (ih hs)
  | @second tight e e' scan s x hword hscan hnext h ih =>
      obtain ⟨r', hscan', hrest⟩ := Relayout.scan hword.isLocal hword.splits hs hscan
        (isInk_lineBreak (hword.ink hscan))
      have hgap : L.holds _ (gap tight x.2).2 (gap tight r').2 :=
        L.gap_of_alive hrest fun ht => .inl (hnext ht)
      refine .second hword hscan' ?_ (ih hgap)
      -- The text behind the word starts with the same character as before.
      rintro rfl
      obtain ⟨c, rest, hc, hspace⟩ := exists_of_gap_ne_nil (hnext rfl)
      exact (L.agree hgap).ne_nil hc hspace
  | spaced hform h ih =>
      exact .spaced hform (ih hs)
  | tight hform h ih =>
      exact .tight hform (ih hs)

end Refusals

/-! ## Where matches end -/

theorem isInk_marked {w : List Char} (h : isInk w = true) : Marked w := by
  obtain ⟨hne, hall⟩ := isInk_iff.1 h
  cases w with
  | nil =>
      exact absurd rfl hne
  | cons c w =>
      refine .cons (hall c (by simp)) fun hmem => ?_
      exact absurd (hall '\n' (by simp [hmem])) (by decide)

/-- Where a match ends and where its counterpart ends: what each of them takes, and what it leaves.
They take nothing, or end right after a word, or with the blanks after one. Inside a tight rule the
text of a documentation line may end in blanks, but not in a line feed. -/
inductive Lands (L : Relayout) (place : Place) (tight : Bool) (x x' : Scan) : Prop
  | still (h : L.holds place x.2 x'.2) (hx : x.1 = []) (hx' : x'.1 = [])
  | here (h : L.holds (place.advance x.1) x.2 x'.2) (hx : Marked x.1) (hx' : Marked x'.1)
  | smooth (htight : tight = true) (h : L.holds (place.advance x.1) x.2 x'.2) (hx : '\n' ∉ x.1)
      (hx' : '\n' ∉ x'.1)
  | past (htight : tight = false) {w t w' t' : List Char} (h : L.holds (place.advance w) t t')
      (hw : Marked w) (hw' : Marked w') (hx : x = (w ++ (gap false t).1, (gap false t).2))
      (hx' : x' = (w' ++ (gap false t').1, (gap false t').2))

namespace Lands

variable {L : Relayout} {place : Place} {tight : Bool} {x x' y y' : Scan}

/-- Behind the blanks the texts correspond. -/
theorem next (h : Lands L place tight x x') (halive : L.alive tight x.2) :
    L.holds (place.advance (x.1 ++ (gap tight x.2).1)) (gap tight x.2).2 (gap tight x'.2).2 := by
  rw [Place.advance_append]
  cases h with
  | still h hx hx' =>
      rw [hx]
      exact L.gap_of_alive h halive
  | here h hx hx' =>
      exact L.gap_of_alive h halive
  | smooth htight h hx hx' =>
      exact L.gap_of_alive h halive
  | @past htight w t w' t' h hw hw' hx hx' =>
      subst htight hx hx'
      have halive' := halive rfl
      simp only [gap_gap] at halive' ⊢
      rw [Place.advance_nil, Place.advance_append]
      exact L.blanks h halive'

theorem nil_iff (h : Lands L place false x x') : x.1 = [] ↔ x'.1 = [] := by
  cases h with
  | still _ hx hx' =>
      simp [hx, hx']
  | here _ hx hx' =>
      simp [hx.ne_nil, hx'.ne_nil]
  | smooth htight =>
      cases htight
  | past _ _ hw hw' hx hx' =>
      subst hx hx'
      simp [hw.ne_nil, hw'.ne_nil]

/-- The blanks after a match are part of it. -/
theorem trailing (h : Lands L place false x x')
    (hstill : x.1 = [] → (gap false x.2).2 = x.2 ∧ (gap false x'.2).2 = x'.2) :
    Lands L place false (x.1 ++ (gap false x.2).1, (gap false x.2).2)
      (x'.1 ++ (gap false x'.2).1, (gap false x'.2).2) := by
  cases h with
  | still h hx hx' =>
      obtain ⟨hgap, hgap'⟩ := hstill hx
      refine .still ?_ ?_ ?_
      · rwa [hgap, hgap']
      · rw [hx, gap_fst_of_snd hgap]
        rfl
      · rw [hx', gap_fst_of_snd hgap']
        rfl
  | here h hx hx' =>
      exact .past rfl h hx hx' rfl rfl
  | smooth htight =>
      cases htight
  | past _ h hw hw' hx hx' =>
      subst hx hx'
      refine .past rfl h hw hw' ?_ ?_ <;> simp [gap_gap]

/-- Two matches in a row end where the second one does; if that takes nothing, where the first one
does with the blanks after it. -/
theorem append (h : Lands L place tight x x')
    (h' : Lands L (place.advance (x.1 ++ (gap tight x.2).1)) tight y y')
    (hstill : tight = false → x.1 = [] → (gap false x.2).2 = x.2 ∧ (gap false x'.2).2 = x'.2)
    (hy : y.1 ++ y.2 = (gap tight x.2).2) (hy' : y'.1 ++ y'.2 = (gap tight x'.2).2) :
    Lands L place tight (x.1 ++ (gap tight x.2).1 ++ y.1, y.2)
      (x'.1 ++ (gap tight x'.2).1 ++ y'.1, y'.2) := by
  cases h' with
  | still _ hnil hnil' =>
      have hrest : y.2 = (gap tight x.2).2 := by rwa [hnil] at hy
      have hrest' : y'.2 = (gap tight x'.2).2 := by rwa [hnil'] at hy'
      rw [hnil, hnil', hrest, hrest', List.append_nil, List.append_nil]
      cases tight with
      | true =>
          simpa [gap] using h
      | false =>
          exact h.trailing (hstill rfl)
  | here hrest hmarked hmarked' =>
      refine .here ?_ (hmarked.append_left _) (hmarked'.append_left _)
      rwa [Place.advance_append]
  | smooth htight hrest hsmooth hsmooth' =>
      subst htight
      simp only [gap, if_true, List.append_nil] at hrest ⊢
      rw [← Place.advance_append] at hrest
      cases h with
      | still _ hnil hnil' =>
          rw [hnil] at hrest ⊢
          rw [hnil']
          exact .smooth rfl hrest hsmooth hsmooth'
      | here _ hmarked hmarked' =>
          exact .here hrest (hmarked.append_right hsmooth) (hmarked'.append_right hsmooth')
      | smooth _ _ hfirst hfirst' =>
          exact .smooth rfl hrest (by simp [hfirst, hsmooth]) (by simp [hfirst', hsmooth'])
      | past htight =>
          cases htight
  | past htight hrest hw hw' hx hx' =>
      subst htight hx hx'
      rw [← Place.advance_append] at hrest
      refine .past rfl hrest (hw.append_left _)
        (hw'.append_left (x'.1 ++ (gap false x'.2).1)) ?_ ?_ <;> simp

/-- What stands behind a match stands on its last row in both layouts or in none. -/
theorem level (h : Lands L place false x x') (hx : x.1 ≠ []) (halive : L.alive false x.2) :
    Text.Level x.1 (gap false x.2).1 ↔ Text.Level x'.1 (gap false x'.2).1 := by
  cases h with
  | still _ hnil _ =>
      exact absurd hnil hx
  | here h hmarked hmarked' =>
      rw [Text.level_iff hmarked, Text.level_iff hmarked']
      exact (L.rows h (halive rfl)).same
  | smooth htight =>
      cases htight
  | past _ h hw hw' hx hx' =>
      subst hx hx'
      have halive' := halive rfl
      simp only [gap_gap] at halive' ⊢
      rw [Text.level_append_iff hw, Text.level_append_iff hw']
      exact (L.rows h halive').ends

end Lands

/-! ## Counterparts -/

/-- The match `m'` in the other layout does what `m` does at `place`. -/
structure Counterpart (L : Relayout) (tight : Bool) (e : Pattern) (place : Place) (m : Match)
    (place' : Place) (s' : List Char) (m' : Match) : Prop where
  firm : Firm tight e place' s' m'
  lands : Lands L place tight (m.taken, m.rest) (m'.taken, m'.rest)
  nodes : m'.nodes.map Node.bare = m.nodes.map Node.bare

namespace Counterpart

variable {L : Relayout} {tight : Bool} {e first second : Pattern} {place place' : Place}
  {s s' : List Char} {m m' m₁ m₁' m₂ m₂' : Match}

theorem splits (c : Counterpart L tight e place m place' s' m') : m'.taken ++ m'.rest = s' :=
  c.firm.derives.splits

/-- The match goes on where the source does, so that there is more to come. -/
theorem alive_of_splits (h : m₂.taken ++ m₂.rest = (gap tight m₁.rest).2)
    (halive : L.alive tight m₂.rest) : L.alive tight m₁.rest := by
  intro htight
  subst htight
  refine (halive rfl).imp_left fun hne hnil => hne ?_
  rw [hnil] at h
  rw [(List.append_eq_nil_iff.1 h).2]
  rfl

theorem alive_of_taken (h : m₂.taken ++ m₂.rest = (gap false m₁.rest).2) (hm₂ : m₂.taken ≠ []) :
    L.alive false m₁.rest := by
  refine fun _ => .inl fun hnil => hm₂ ?_
  rw [hnil] at h
  exact (List.append_eq_nil_iff.1 h).1

/-- A match that takes nothing leaves a text without blanks in front. -/
theorem settled_of_still (hsplits : m.taken ++ m.rest = s)
    (hgap : tight = false → (gap false s).2 = s) (htight : tight = false) (hnil : m.taken = []) :
    (gap false m.rest).2 = m.rest := by
  rw [hnil] at hsplits
  rw [show m.rest = s from hsplits]
  exact hgap htight

theorem append_lands (c₁ : Counterpart L tight first place m₁ place' s' m₁')
    (c₂ : Counterpart L tight second (place.advance (m₁.taken ++ (gap tight m₁.rest).1)) m₂
      (place'.advance (m₁'.taken ++ (gap tight m₁'.rest).1)) (gap tight m₁'.rest).2 m₂')
    (hs : m₁.taken ++ m₁.rest = s) (hm₂ : m₂.taken ++ m₂.rest = (gap tight m₁.rest).2)
    (hgap : tight = false → (gap false s).2 = s) (hgap' : tight = false → (gap false s').2 = s') :
    Lands L place tight
      ((m₁.append (gap tight m₁.rest).1 m₂).taken, (m₁.append (gap tight m₁.rest).1 m₂).rest)
      ((m₁'.append (gap tight m₁'.rest).1 m₂').taken,
        (m₁'.append (gap tight m₁'.rest).1 m₂').rest) := by
  refine c₁.lands.append c₂.lands ?_ hm₂ c₂.splits
  intro htight hnil
  refine ⟨settled_of_still hs hgap htight hnil, ?_⟩
  have hnil' : m₁'.taken = [] := by
    subst htight
    exact c₁.lands.nil_iff.1 hnil
  exact settled_of_still c₁.splits hgap' htight hnil'

theorem append_nodes (c₁ : Counterpart L tight first place m₁ place' s' m₁')
    {place₂ place₂' : Place} {s₂' : List Char}
    (c₂ : Counterpart L tight second place₂ m₂ place₂' s₂' m₂') (g g' : List Char) :
    (m₁'.append g' m₂').nodes.map Node.bare = (m₁.append g m₂).nodes.map Node.bare := by
  simp [Match.append, c₁.nodes, c₂.nodes]

theorem seq (c₁ : Counterpart L tight first place m₁ place' s' m₁')
    (c₂ : Counterpart L tight second (place.advance (m₁.taken ++ (gap tight m₁.rest).1)) m₂
      (place'.advance (m₁'.taken ++ (gap tight m₁'.rest).1)) (gap tight m₁'.rest).2 m₂')
    (hs : m₁.taken ++ m₁.rest = s) (hm₂ : m₂.taken ++ m₂.rest = (gap tight m₁.rest).2)
    (hgap : tight = false → (gap false s).2 = s) (hgap' : tight = false → (gap false s').2 = s') :
    Counterpart L tight (.seq first second) place (m₁.append (gap tight m₁.rest).1 m₂) place' s'
      (m₁'.append (gap tight m₁'.rest).1 m₂') :=
  ⟨.seq c₁.firm c₂.firm, c₁.append_lands c₂ hs hm₂ hgap hgap', c₁.append_nodes c₂ _ _⟩

end Counterpart

/-! ## Matches in the other layout -/

section Relaid

variable {L : Relayout} {tight : Bool} {e : Pattern} {place : Place} {s s' : List Char} {m : Match}

/-- Rules inside which no blanks are allowed start with a character that is not blank. -/
theorem Rule.isBlank_of_tight {rule : Rule} {body : Pattern} (hform : rule.form = .tight body)
    {c : Char} (hc : rule.opens c = true) : isBlank c = false := by
  have hword : isWordStart c = true → isBlank c = false :=
    fun h => isBlank_of_isWordPart (isWordPart_of_isWordStart h)
  cases rule <;> simp only [Rule.form, reduceCtorEq] at hform
  case docLine =>
      obtain rfl := of_decide_eq_true hc
      decide
  case unsupportedType =>
      obtain rfl := of_decide_eq_true hc
      decide
  case fieldType =>
      rcases Bool.or_eq_true_iff.1 hc with hc | hc
      · obtain rfl := of_decide_eq_true hc
        decide
      · exact hword hc

/-- A text without line feeds is marked if it starts with something. -/
theorem marked_of_opened {rule : Rule} {body : Pattern} (hform : rule.form = .tight body)
    (h : Derives tight (.call rule) place s (some m)) (htakes : rule.takes = true)
    (hfeed : '\n' ∉ m.taken) : Marked m.taken := by
  obtain ⟨c, hs, hc⟩ := h.exists_head htakes
  have hsplits := h.splits
  cases htaken : m.taken with
  | nil =>
      exact absurd htaken (h.taken_ne_nil htakes)
  | cons d w =>
      rw [htaken] at hsplits hfeed
      rw [← hsplits] at hs
      cases hs
      exact .cons (Rule.isBlank_of_tight hform hc) fun hmem => hfeed (by simp [hmem])

theorem Rule.takes_of_tight {rule : Rule} {body : Pattern} (hform : rule.form = .tight body) :
    rule.takes = true := by
  cases rule <;> simp only [Rule.form, reduceCtorEq] at hform <;> rfl

theorem Rule.isWord_of_tight {rule : Rule} {body : Pattern} (hform : rule.form = .tight body) :
    rule.isWord = false := by
  cases rule <;> simp only [Rule.form, reduceCtorEq] at hform <;> rfl

/-- Of the rules with blanks between their parts, only the name of an argument is a word. -/
theorem Rule.isWord_of_spaced {rule : Rule} {body : Pattern} (hform : rule.form = .spaced body)
    (hword : rule.isWord = true) : body = .call .identifier := by
  cases rule <;> simp only [Rule.form, reduceCtorEq, Form.spaced.injEq] at hform <;> cases hword
  exact hform.symm

/-- Documentation text goes up to the end of the line. -/
theorem docText_relaid (hs : L.holds place s s') :
    ∃ r', scanDocText s' = some ((spanOf (!isLineBreak ·) s).1, r') ∧
      L.holds (place.advance (spanOf (!isLineBreak ·) s).1) (spanOf (!isLineBreak ·) s).2 r' ∧
      '\n' ∉ (spanOf (!isLineBreak ·) s).1 := by
  have hall : (spanOf (!isLineBreak ·) s).1.all (!isLineBreak ·) = true := List.all_takeWhile
  have hplain : ∀ c ∈ (spanOf (!isLineBreak ·) s).1, isLineBreak c = false := by
    simpa using hall
  have htext : (spanOf (!isLineBreak ·) s).1 ++ (spanOf (!isLineBreak ·) s).2 = s :=
    spanOf_splits _ s
  rw [← htext] at hs
  obtain ⟨r', hr', hrest⟩ := L.word hs hplain
  refine ⟨r', ?_, hrest, fun hmem => absurd (hplain '\n' hmem) (by decide)⟩
  -- The line ends in both layouts.
  have hends : ∀ {t : List Char}, t.head?.any (!isLineBreak ·) = false ↔
      t.head?.all isLineBreak = true := by
    intro t
    cases t <;> simp
  have hbreak := (L.agree hrest).lineBreak (hends.1 (spanOf_stops _ s))
  rw [scanDocText, hr', spanOf_append hall (hends.2 hbreak)]

theorem token_relaid {rule : Rule} {scan : List Char → Option Scan} {x : Scan}
    (hform : rule.form = .token scan) (hdoc : rule = .docText → tight = true)
    (hscan : scan s = some x) (hs : L.holds place s s')
    (hstring : rule = .stringLiteral → L.keeps place x.1) :
    ∃ r', scan s' = some (x.1, r') ∧ Lands L place tight x (x.1, r') := by
  by_cases hrule : rule = .docText
  · subst hrule
    cases hform
    cases hscan
    obtain ⟨r', hscan', hrest, hfeed⟩ := docText_relaid hs
    exact ⟨r', hscan', .smooth (hdoc rfl) hrest hfeed hfeed⟩
  by_cases hliteral : rule = .stringLiteral
  · subst hliteral
    cases hform
    have htext : x.1 ++ x.2 = s := scanString_splits hscan
    obtain ⟨hagain, w, hw⟩ := scanString_append hscan x.2
    rw [← htext] at hs
    obtain ⟨r', rfl, hrest⟩ := L.string hs hagain (hstring rfl)
    have hmarked : Marked x.1 := ⟨w, '\"', [], hw, by decide, by simp⟩
    exact ⟨r', (scanString_append hscan r').1, .here hrest hmarked hmarked⟩
  · have hink := Rule.token_ink hform hrule hliteral hscan
    obtain ⟨r', hscan', hrest⟩ := Relayout.scan (Rule.token_local hform hrule hliteral)
      (Rule.token_splits hform) hs hscan (isInk_lineBreak hink)
    exact ⟨r', hscan', .here hrest (isInk_marked hink) (isInk_marked hink)⟩

theorem literal_relaid (tight : Bool) {word rest : List Char} (hword : isInk word = true)
    (h : afterWord? word s = some rest) (hs : L.holds place s s') (place' : Place) :
    ∃ r', Counterpart L tight (.literal word) place ⟨word, [], rest⟩ place' s' ⟨word, [], r'⟩ := by
  rw [afterWord?_eq_some_iff.1 h] at hs
  obtain ⟨r', rfl, hrest⟩ := L.word hs (isInk_lineBreak hword)
  have hmarked := isInk_marked hword
  exact ⟨r', .literal hword (afterWord?_append word r'), .here hrest hmarked hmarked, rfl⟩

/-- The text of the name of an argument is that of its identifier. -/
theorem taken_of_identifier (h : Firm tight (.call .identifier) place s m) :
    m.nodes = [.mk .identifier place m.taken []] := by
  obtain ⟨x, -, rfl⟩ := h.derives.of_token_some rfl
  rfl

/-- A match of a rule is a node; its text matters only if the rule is a word. -/
theorem Counterpart.asNode {body : Pattern} {rule : Rule} {tight' : Bool} {place' : Place}
    {m' : Match} (c : Counterpart L tight body place m place' s' m')
    (hfirm : Firm tight' (.call rule) place' s' (m'.asNode rule place'))
    (hlands : Lands L place tight' (m.taken, m.rest) (m'.taken, m'.rest))
    (hword : rule.isWord = true → m'.taken = m.taken) :
    Counterpart L tight' (.call rule) place (m.asNode rule place) place' s'
      (m'.asNode rule place') where
  firm := hfirm
  lands := hlands
  nodes := by
    simp only [Match.asNode, List.map_cons, List.map_nil, Node.bare, Node.bareAll_eq_map, c.nodes]
    cases hrule : rule.isWord with
    | false =>
        rfl
    | true =>
        rw [hword hrule]

/-- Every firm match has a counterpart in the other layout, as long as its string literals are kept
and it is clear what comes after it. -/
theorem Firm.relaid (h : Firm tight e place s m) (hs : L.holds place s s')
    (hgap : tight = false → (gap false s).2 = s) (hgap' : tight = false → (gap false s').2 = s')
    (hstrings : ∀ n ∈ Node.stringsAll m.nodes, L.keeps n.place n.text)
    (halive : L.alive tight m.rest) (place' : Place) :
    ∃ m', Counterpart L tight e place m place' s' m' := by
  -- On the match. The places of the counterpart are free, since the texts before it may differ.
  induction h generalizing s' place' with
  | @literal tight place word s rest hword h =>
      obtain ⟨r', c⟩ := literal_relaid tight hword h hs place'
      exact ⟨_, c⟩
  | @notAhead tight place word s hword h =>
      have hnone := (L.agree hs).scan_none (literal_local hword) (Option.map_eq_none_iff.2 h)
      exact ⟨.empty s', .notAhead hword (Option.map_eq_none_iff.1 hnone), .still hs rfl rfl, rfl⟩
  | @seq tight first second place s m₁ m₂ h₁ h₂ ih₁ ih₂ =>
      have hm₂ := h₂.derives.splits
      have halive₁ := Counterpart.alive_of_splits hm₂ halive
      simp only [Match.append, Node.stringsAll_append, List.mem_append] at hstrings
      obtain ⟨m₁', c₁⟩ := ih₁ hs hgap hgap' (fun n hn => hstrings n (.inl hn)) halive₁ place'
      have hnext := c₁.lands.next halive₁
      obtain ⟨m₂', c₂⟩ := ih₂ hnext (fun ht => ht ▸ gap_idem _) (fun ht => ht ▸ gap_idem _)
        (fun n hn => hstrings n (.inr hn)) halive
        (place'.advance (m₁'.taken ++ (gap tight m₁'.rest).1))
      exact ⟨_, c₁.seq c₂ h₁.derives.splits hm₂ hgap hgap'⟩
  | choiceFirst h ih =>
      obtain ⟨m', c⟩ := ih hs hgap hgap' hstrings halive place'
      exact ⟨m', .choiceFirst c.firm, c.lands, c.nodes⟩
  | choiceSecond h₁ h₂ ih =>
      obtain ⟨m', c⟩ := ih hs hgap hgap' hstrings halive place'
      exact ⟨m', .choiceSecond (h₁.relaid hs) c.firm, c.lands, c.nodes⟩
  | optional h ih =>
      obtain ⟨m', c⟩ := ih hs hgap hgap' hstrings halive place'
      exact ⟨m', .optional c.firm, c.lands, c.nodes⟩
  | optionalNone h =>
      exact ⟨.empty s', .optionalNone (h.relaid hs), .still hs rfl rfl, rfl⟩
  | manyNone h =>
      exact ⟨.empty s', .manyNone (h.relaid hs), .still hs rfl rfl, rfl⟩
  | manyLast h₁ h₂ ih =>
      obtain ⟨m', c⟩ := ih hs hgap hgap' hstrings halive place'
      exact ⟨m', .manyLast c.firm (h₂.relaid (c.lands.next halive)), c.lands, c.nodes⟩
  | @manyMore body place s m₁ m₂ h₁ h₂ hmore ih₁ ih₂ =>
      have hm₂ := h₂.derives.splits
      have halive₁ := Counterpart.alive_of_splits hm₂ halive
      simp only [Match.append, Node.stringsAll_append, List.mem_append] at hstrings
      obtain ⟨m₁', c₁⟩ := ih₁ hs hgap hgap' (fun n hn => hstrings n (.inl hn)) halive₁ place'
      have hnext := c₁.lands.next halive₁
      obtain ⟨m₂', c₂⟩ := ih₂ hnext (fun _ => gap_idem _) (fun _ => gap_idem _)
        (fun n hn => hstrings n (.inr hn)) halive
        (place'.advance (m₁'.taken ++ (gap false m₁'.rest).1))
      have hmore' : m₂'.taken ≠ [] := fun hnil => hmore (c₂.lands.nil_iff.2 hnil)
      exact ⟨_, .manyMore c₁.firm c₂.firm hmore',
        c₁.append_lands c₂ h₁.derives.splits hm₂ hgap hgap', c₁.append_nodes c₂ _ _⟩
  | silent hform h ih =>
      obtain ⟨m', c⟩ := ih hs hgap hgap' hstrings halive place'
      exact ⟨m', .silent hform c.firm, c.lands, c.nodes⟩
  | @token tight rule scan place s x hform hdoc h =>
      have hkept : rule = .stringLiteral → L.keeps place x.1 := by
        rintro rfl
        exact hstrings (.mk .stringLiteral place x.1 []) (by
          simp [Match.asNode, Match.ofScan, Node.stringsAll, Node.strings])
      obtain ⟨r', hscan', hlands⟩ := token_relaid hform hdoc h hs hkept
      exact ⟨_, .token hform hdoc hscan', hlands, rfl⟩
  | @spaced tight rule body place s m hform h ih =>
      have hinner : ∀ n ∈ Node.stringsAll m.nodes, L.keeps n.place n.text := fun n hn =>
        hstrings n (by simp [Match.asNode, Node.stringsAll, Node.strings, hn])
      obtain ⟨m', c⟩ := ih hs hgap hgap' hinner halive place'
      refine ⟨m'.asNode rule place', c.asNode (.spaced hform c.firm) c.lands ?_⟩
      intro hword
      obtain rfl := Rule.isWord_of_spaced hform hword
      have hnodes := c.nodes
      rw [taken_of_identifier h, taken_of_identifier c.firm] at hnodes
      simpa [Node.bare, Node.bareAll, Rule.isWord] using hnodes
  | @tight tight rule body place s m hform h ih =>
      have hinner : ∀ n ∈ Node.stringsAll m.nodes, L.keeps n.place n.text := fun n hn =>
        hstrings n (by simp [Match.asNode, Node.stringsAll, Node.strings, hn])
      have hinside {p : Prop} : true = false → p := fun h => absurd h (by decide)
      obtain ⟨m', c⟩ := ih hs hinside hinside hinner hinside place'
      have hfirm : Firm tight (.call rule) place' s' (m'.asNode rule place') :=
        .tight hform c.firm
      refine ⟨_, c.asNode hfirm ?_ fun hword => ?_⟩
      · -- Outside the rule, what it takes has to be marked.
        have htakes := Rule.takes_of_tight hform
        have hsource : Firm tight (.call rule) place s (m.asNode rule place) := .tight hform h
        cases c.lands with
        | still _ hnil _ =>
            exact absurd hnil (hsource.derives.taken_ne_nil htakes)
        | here hrest hmarked hmarked' =>
            exact .here hrest hmarked hmarked'
        | smooth _ hrest hfeed hfeed' =>
            have hmarked : Marked (m.asNode rule place).taken :=
              marked_of_opened hform hsource.derives htakes hfeed
            have hmarked' : Marked (m'.asNode rule place').taken :=
              marked_of_opened hform hfirm.derives htakes hfeed'
            exact .here hrest hmarked hmarked'
        | past ht =>
            cases ht
      · rw [Rule.isWord_of_tight hform] at hword
        cases hword

end Relaid

end Grammar
end PrismaTypes
