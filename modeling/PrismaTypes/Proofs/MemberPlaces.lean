import Mathlib.Data.List.Nodup
import Mathlib.Order.Basic
import PrismaTypes.Proofs.DocumentedItems

/-!
# Places of members and lines

The members of a block stand one after the other, and so do the lines of a run of documentation.
`StandsAt` ties a place to what is left of the text there, and so tells the text between two places.
As no two lines of a body stand at the same place, a line that documents one declaration documents
no other.
-/

namespace PrismaTypes

namespace Text

/-! ## Places -/

/-- Both the offset and the row are at least as large. -/
instance : LE Place where
  le p q := p.offset ≤ q.offset ∧ p.row ≤ q.row

theorem Place.le_iff {p q : Place} : p ≤ q ↔ p.offset ≤ q.offset ∧ p.row ≤ q.row := .rfl

instance : Preorder Place where
  le_refl p := ⟨Nat.le_refl _, Nat.le_refl _⟩
  le_trans _ _ _ h h' := ⟨Nat.le_trans h.1 h'.1, Nat.le_trans h.2 h'.2⟩

theorem Place.le_advance (p : Place) (w : List Char) : p ≤ p.advance w :=
  Place.le_iff.2 ⟨Nat.le_add_right _ _, Nat.le_add_right _ _⟩

/-- The text `s` is what is left of the input at the place. -/
def StandsAt (input : List Char) (p : Place) (s : List Char) : Prop :=
  ∃ u, u ++ s = input ∧ ({} : Place).advance u = p

/-- The text between two offsets. -/
def between (input : List Char) (start stop : Nat) : List Char :=
  (splitAtByte (stop - start) (splitAtByte start input).2).1

theorem splitAtByte_append (u w : List Char) : splitAtByte (byteLength u) (u ++ w) = (u, w) := by
  induction u with
  | nil =>
      cases w with
      | nil =>
          rfl
      | cons c w =>
          have hc := c.utf8Size_pos
          simp [splitAtByte, byteLength, Nat.not_le.2 hc]
  | cons c u ih =>
      simp [splitAtByte, byteLength, ih]

namespace StandsAt

variable {input : List Char} {p q : Place} {g r s : List Char}

theorem start (input : List Char) : StandsAt input {} input :=
  ⟨[], rfl, rfl⟩

theorem advance (h : StandsAt input p (g ++ s)) : StandsAt input (p.advance g) s := by
  obtain ⟨u, hu, rfl⟩ := h
  exact ⟨u ++ g, by simpa using hu, Place.advance_append _ _ _⟩

theorem between (h : StandsAt input p (g ++ s)) :
    between input p.offset (p.advance g).offset = g := by
  obtain ⟨u, rfl, rfl⟩ := h
  have hstart : (({} : Place).advance u).offset = byteLength u := by simp [Place.advance]
  have hlength : ((({} : Place).advance u).advance g).offset - byteLength u = byteLength g := by
    simp [Place.advance]
  rw [hstart, Text.between, hlength, splitAtByte_append, splitAtByte_append]

/-- Of two places in a text the later one is reached from the other. -/
theorem exists_advance (hp : StandsAt input p r) (hq : StandsAt input q s)
    (hle : p.offset ≤ q.offset) : ∃ g, r = g ++ s ∧ q = p.advance g := by
  obtain ⟨u, hu, rfl⟩ := hp
  obtain ⟨v, hv, rfl⟩ := hq
  rcases List.append_eq_append_iff.1 (hu.trans hv.symm) with ⟨g, rfl, hr⟩ | ⟨g, rfl, hs⟩
  · exact ⟨g, hr, Place.advance_append _ _ _⟩
  · -- The second place cannot lie before the first one.
    have hnil : g = [] := by
      by_contra hg
      have hpos := byteLength_pos hg
      simp only [Place.advance, byteLength_append] at hle
      omega
    subst hnil
    exact ⟨[], by simpa using hs.symm, by simp⟩

end StandsAt
end Text

namespace Grammar

open Text (Place StandsAt)

/-- The place right after a node. -/
def Node.ends (n : Node) : Place :=
  n.place.advance n.text

theorem Derives.standsAt {tight : Bool} {e : Pattern} {place : Place} {s input : List Char}
    {m : Match} (h : Derives tight e place s (some m)) (hs : StandsAt input place s) :
    StandsAt input (place.advance (m.taken ++ (gap tight m.rest).1)) (gap tight m.rest).2 := by
  refine StandsAt.advance ?_
  rwa [List.append_assoc, gap_splits, h.splits]

/-! ## Repetition -/

section Repetition

variable {body : Pattern} {place : Place} {s r input : List Char} {n : Node} {ns : List Node}

theorem Runs.of_cons (h : Runs body place s (n :: ns) r) (hleaves : Leaves body) :
    ∃ m, Firm false body place s m ∧ m.nodes = [n] ∧ n.place = place ∧ n.text = m.taken ∧
      Runs body (place.advance (m.taken ++ (gap false m.rest).1)) (gap false m.rest).2 ns r := by
  generalize hall : n :: ns = all at h
  cases h with
  | nil =>
      cases hall
  | cons h hrest =>
      obtain ⟨rule, children, hnodes, -⟩ := hleaves _ _ _ _ h.derives
      rw [hnodes] at hall
      cases hall
      exact ⟨_, h, hnodes, rfl, rfl, hrest⟩

/-- A member is matched where it stands, and the members after it follow. -/
theorem Runs.split {prior later : List Node} (h : Runs body place s (prior ++ n :: later) r)
    (hleaves : Leaves body) (hs : StandsAt input place s) (hgap : (gap false s).2 = s) :
    ∃ t m, StandsAt input n.place t ∧ (gap false t).2 = t ∧ Firm false body n.place t m ∧
      m.nodes = [n] ∧ n.text = m.taken ∧
      Runs body (n.place.advance (m.taken ++ (gap false m.rest).1)) (gap false m.rest).2
        later r := by
  induction prior generalizing place s with
  | nil =>
      obtain ⟨m, hm, hnodes, rfl, htext, hrest⟩ := h.of_cons hleaves
      exact ⟨s, m, hs, hgap, hm, hnodes, htext, hrest⟩
  | cons first prior ih =>
      obtain ⟨m, hm, -, -, -, hrest⟩ := h.of_cons hleaves
      exact ih hrest (hm.derives.standsAt hs) (gap_idem _)

theorem Runs.le_place (h : Runs body place s ns r) (hleaves : Leaves body) :
    ∀ n ∈ ns, place ≤ n.place := by
  induction ns generalizing place s with
  | nil =>
      simp
  | cons n ns ih =>
      obtain ⟨m, -, -, hplace, -, hrest⟩ := h.of_cons hleaves
      intro k hk
      rcases List.mem_cons.1 hk with rfl | hk
      · exact hplace.symm.le
      · exact (place.le_advance _).trans (ih hrest k hk)

/-- Each member ends before the next one starts. -/
theorem Runs.pairwise (h : Runs body place s ns r) (hleaves : Leaves body) :
    ns.Pairwise fun a b => a.ends ≤ b.place := by
  induction ns generalizing place s with
  | nil =>
      exact .nil
  | cons n ns ih =>
      obtain ⟨m, -, -, hplace, htext, hrest⟩ := h.of_cons hleaves
      refine List.pairwise_cons.2 ⟨fun k hk => ?_, ih hrest⟩
      rw [Node.ends, hplace, htext]
      refine le_trans ?_ (hrest.le_place hleaves k hk)
      rw [Place.advance_append]
      exact Place.le_advance _ _

theorem Runs.balks (h : Runs body place s ns r) : Balks false body r := by
  induction h with
  | nil h =>
      exact h
  | cons h hrest ih =>
      exact ih

/-- Nodes one after the other, from the place `p` to before the place `q`. -/
structure InOrder (p q : Place) (ns : List Node) : Prop where
  start_le : ∀ n ∈ ns, p ≤ n.place
  lt_stop : ∀ n ∈ ns, n.place.offset < q.offset
  pairwise : ns.Pairwise fun a b => a.place.offset < b.place.offset

namespace InOrder

variable {p p' q q' : Place} {ns ns' : List Node}

theorem nil : InOrder p q [] :=
  ⟨by simp, by simp, .nil⟩

theorem mono (h : InOrder p q ns) (hp : p' ≤ p) (hq : q ≤ q') : InOrder p' q' ns where
  start_le n hn := hp.trans (h.start_le n hn)
  lt_stop n hn := Nat.lt_of_lt_of_le (h.lt_stop n hn) hq.1
  pairwise := h.pairwise

theorem append (h : InOrder p q ns) (h' : InOrder q q' ns') (hp : p ≤ q) (hq : q ≤ q') :
    InOrder p q' (ns ++ ns') where
  start_le n hn := by
    rcases List.mem_append.1 hn with hn | hn
    · exact h.start_le n hn
    · exact hp.trans (h'.start_le n hn)
  lt_stop n hn := by
    rcases List.mem_append.1 hn with hn | hn
    · exact Nat.lt_of_lt_of_le (h.lt_stop n hn) hq.1
    · exact h'.lt_stop n hn
  pairwise := List.pairwise_append.2 ⟨h.pairwise, h'.pairwise, fun a ha b hb =>
    Nat.lt_of_lt_of_le (h.lt_stop a ha) (h'.start_le b hb).1⟩

theorem nodup (h : InOrder p q ns) : ns.Nodup := by
  refine h.pairwise.imp fun hlt heq => ?_
  rw [heq] at hlt
  exact Nat.lt_irrefl _ hlt

end InOrder

/-- What is in order within each member is in order within all of them, where `w` is their text. -/
theorem Runs.inOrder {f : Node → List Node} {w : List Char} (h : Runs body place s ns r)
    (hleaves : Leaves body)
    (hf : ∀ {place s m n}, Firm false body place s m → m.nodes = [n] →
      InOrder place (place.advance (m.taken ++ (gap false m.rest).1)) (f n))
    (hw : w ++ r = s) : InOrder place (place.advance w) (ns.flatMap f) := by
  induction ns generalizing place s w with
  | nil =>
      exact .nil
  | cons n ns ih =>
      obtain ⟨m, hm, hnodes, -, -, hrest⟩ := h.of_cons hleaves
      -- The text of the members is that of the first one, its blanks and that of the others.
      obtain ⟨w', hw'⟩ := hrest.splits
      have hall : w = m.taken ++ (gap false m.rest).1 ++ w' := by
        rw [← List.append_left_inj r, hw, List.append_assoc, hw', List.append_assoc, gap_splits,
          hm.derives.splits]
      rw [List.flatMap_cons, hall, Place.advance_append]
      exact (hf hm hnodes).append (ih hrest hw') (Place.le_advance _ _) (Place.le_advance _ _)

end Repetition

/-! ## Lines of a run -/

theorem Leaves.docLine : Leaves (.call .docLine) := by
  intro tight place s m h
  obtain ⟨m', -, rfl⟩ := h.of_tight_some rfl
  exact ⟨.docLine, m'.nodes, rfl, fun hrule => by cases hrule⟩

section Lines

variable {place : Place} {s r : List Char} {m : Match} {n : Node}

/-- Documentation is a repetition of lines. -/
theorem Firm.docLines (h : Firm false (.call .documentation) place s m) (hnodes : m.nodes = [n]) :
    n.rule = .documentation ∧ n.children ≠ [] ∧
      Runs (.call .docLine) place s n.children (gap false m.rest).2 := by
  obtain ⟨m', h', rfl⟩ := h.of_spaced rfl
  obtain ⟨m₁, m₂, h₁, h₂, rfl⟩ := h'.of_seq
  cases hnodes
  have hlines := Runs.cons h₁ (h₂.runs (gap_idem _))
  refine ⟨rfl, ?_, hlines⟩
  obtain ⟨rule, children, hfirst, -⟩ := Leaves.docLine _ _ _ _ h₁.derives
  simp [Match.append, hfirst]

/-- A match and the blanks after it make up the text before the next one. -/
theorem Firm.whole {e : Pattern} (h : Firm false e place s m) :
    m.taken ++ (gap false m.rest).1 ++ (gap false m.rest).2 = s := by
  rw [List.append_assoc, gap_splits, h.derives.splits]

/-- A match that takes something stands before what follows it. -/
theorem Firm.inOrder {body : Pattern} (h : Firm false body place s m) (hleaves : Leaves body)
    (htakes : body.takes = true) (hnodes : m.nodes = [n]) :
    InOrder place (place.advance (m.taken ++ (gap false m.rest).1)) [n] := by
  obtain ⟨rule, children, hleaf, -⟩ := hleaves _ _ _ _ h.derives
  have hplace : n.place = place := by
    rw [hleaf] at hnodes
    cases hnodes
    rfl
  have hpos := Text.byteLength_pos (h.derives.taken_ne_nil htakes)
  refine ⟨by simp [hplace], ?_, List.pairwise_singleton _ _⟩
  simp only [List.mem_singleton, forall_eq, hplace, Place.advance, Text.byteLength_append]
  omega

theorem Firm.lines_inOrder (h : Firm false (.call .documentation) place s m)
    (hnodes : m.nodes = [n]) :
    InOrder place (place.advance (m.taken ++ (gap false m.rest).1)) n.children := by
  obtain ⟨-, -, hlines⟩ := h.docLines hnodes
  have horder := hlines.inOrder (f := fun line => [line]) .docLine
    (fun hm => hm.inOrder .docLine rfl) h.whole
  simpa using horder

end Lines

/-! ## Bodies -/

theorem BodyRules.leaves {item entry : Rule} (R : BodyRules item entry) : Leaves (.call item) := by
  cases R with
  | model =>
      exact .modelItem
  | enum =>
      exact .enumItem

theorem rule_of_spaced {rule : Rule} {body : Pattern} {place : Place} {s : List Char} {m : Match}
    {n : Node} (hform : rule.form = .spaced body) (h : Firm false (.call rule) place s m)
    (hnodes : m.nodes = [n]) : n.rule = rule := by
  obtain ⟨m', -, rfl⟩ := h.of_spaced hform
  cases hnodes
  rfl

/-- The ways in which a member is matched. -/
theorem BodyRules.cases {item entry : Rule} (R : BodyRules item entry) {place : Place}
    {s : List Char} {m : Match} {n : Node} (h : Firm false (.call item) place s m)
    (hnodes : m.nodes = [n]) :
    (n.rule = .documentation ∧ Firm false (.call .documentation) place s m) ∨
      (n.rule = entry ∧ Firm false (.call entry) place s m) ∨
      (n.rule = .blockAttribute ∧ Firm false (.call .blockAttribute) place s m) := by
  obtain ⟨body, hbody⟩ := R.entries
  rcases (h.of_silent R.items).of_choice with h | ⟨-, h⟩
  · exact .inl ⟨rule_of_spaced rfl h hnodes, h⟩
  rcases h.of_choice with h | ⟨-, h⟩
  · exact .inr (.inl ⟨rule_of_spaced hbody h hnodes, h⟩)
  · exact .inr (.inr ⟨rule_of_spaced rfl h hnodes, h⟩)

theorem BodyRules.documentation {item entry : Rule} (R : BodyRules item entry) {place : Place}
    {s : List Char} {m : Match} {n : Node} (h : Firm false (.call item) place s m)
    (hnodes : m.nodes = [n]) (hrule : n.rule = .documentation) :
    Firm false (.call .documentation) place s m := by
  rcases R.cases h hnodes with ⟨-, h⟩ | ⟨hentry, -⟩ | ⟨hattribute, -⟩
  · exact h
  · exact absurd (hentry.symm.trans hrule) R.other.1
  · cases hattribute.symm.trans hrule

open Documentation (entryRule? linesWithin runLines)

theorem BodyRules.runLines_inOrder {item entry : Rule} (R : BodyRules item entry) {place : Place}
    {s : List Char} {m : Match} {n : Node} (h : Firm false (.call item) place s m)
    (hnodes : m.nodes = [n]) :
    InOrder place (place.advance (m.taken ++ (gap false m.rest).1)) (runLines n) := by
  by_cases hrule : n.rule = .documentation
  · rw [runLines, if_pos hrule]
    exact (R.documentation h hnodes hrule).lines_inOrder hnodes
  · rw [Documentation.runLines_of_ne hrule]
    exact .nil

theorem Leaves.topLevel : Leaves topLevel :=
  .choice .documentation (.silent rfl (.choice (.spaced rfl (by decide))
    (.choice (.spaced rfl (by decide)) (.choice (.spaced rfl (by decide))
      (.spaced rfl (by decide))))))

/-- The ways in which a node of the top level is matched. -/
theorem Firm.topLevel_cases {place : Place} {s : List Char} {m : Match} {b : Node}
    (h : Firm false topLevel place s m) (hnodes : m.nodes = [b]) :
    (b.rule = .documentation ∧ Firm false (.call .documentation) place s m) ∨
      (b.rule = .modelBlock ∧ Firm false (.call .modelBlock) place s m) ∨
      (b.rule = .enumBlock ∧ Firm false (.call .enumBlock) place s m) ∨
      b.rule = .configBlock ∨ b.rule = .skippedBlock := by
  rcases h.of_choice with h | ⟨-, h⟩
  · exact .inl ⟨rule_of_spaced rfl h hnodes, h⟩
  rcases (h.of_silent rfl).of_choice with h | ⟨-, h⟩
  · exact .inr (.inl ⟨rule_of_spaced rfl h hnodes, h⟩)
  rcases h.of_choice with h | ⟨-, h⟩
  · exact .inr (.inr (.inl ⟨rule_of_spaced rfl h hnodes, h⟩))
  rcases h.of_choice with h | ⟨-, h⟩
  · exact .inr (.inr (.inr (.inl (rule_of_spaced rfl h hnodes))))
  · exact .inr (.inr (.inr (.inr (rule_of_spaced rfl h hnodes))))

/-- The members stand in the braces of a block, which is matched at the given place. -/
inductive Braces (place : Place) (m : Match) (entry : Rule) (members : List Node) : Prop
  | intro {item : Rule} {before inside after : List Char} (R : BodyRules item entry)
      (htaken : m.taken = before ++ (inside ++ after))
      (hgap : (gap false (inside ++ (after ++ m.rest))).2 = inside ++ (after ++ m.rest))
      (hruns : Runs (.call item) (place.advance before) (inside ++ (after ++ m.rest)) members
        (after ++ m.rest))

namespace Braces

variable {word : List Char} {rule item entry : Rule} {place : Place} {s : List Char} {m : Match}
  {b : Node} {members : List Node}

theorem of_block (hform : rule.form = .spaced (.block (.literal word) (.call item)))
    (R : BodyRules item entry) (h : Firm false (.call rule) place s m) (hnodes : m.nodes = [b]) :
    Braces place m entry b.children.tail := by
  obtain ⟨m', h', rfl⟩ := h.of_spaced hform
  obtain ⟨m₁, t₁, h₁, r₁, rfl⟩ := h'.of_seq
  obtain ⟨m₂, t₂, h₂, r₂, rfl⟩ := r₁.of_seq
  obtain ⟨m₃, t₃, h₃, r₃, rfl⟩ := r₂.of_seq
  obtain ⟨m₄, m₅, h₄, h₅, rfl⟩ := r₃.of_seq
  have hruns := h₄.runs (gap_idem _)
  -- The keyword and the braces leave no nodes, and the name is the first child.
  have hmembers : b.children.tail = m₄.nodes := by
    obtain ⟨x, -, rfl⟩ := h₂.derives.of_token_some rfl
    cases h₁
    cases h₃
    cases h₅
    cases hnodes
    simp [Match.append, Match.asNode]
  have hlast : (gap false m₄.rest).2 = m₅.taken ++ m₅.rest := h₅.derives.splits.symm
  have hinner : (gap false m₃.rest).2
      = (m₄.taken ++ (gap false m₄.rest).1) ++ (m₅.taken ++ m₅.rest) := by
    rw [← hlast, h₄.whole]
  have hgap := gap_idem m₃.rest
  rw [hlast, hinner, ← Place.advance_append, ← Place.advance_append] at hruns
  rw [hinner] at hgap
  rw [hmembers]
  exact .intro R (by simp [Match.append, Match.asNode]) hgap hruns

theorem lines_inOrder (h : Braces place m entry members) :
    InOrder place (place.advance m.taken) (members.flatMap runLines) := by
  obtain ⟨R, htaken, -, hruns⟩ := h
  have hinside := hruns.inOrder R.leaves R.runLines_inOrder rfl
  rw [htaken, Place.advance_append, Place.advance_append]
  exact hinside.mono (Place.le_advance _ _) (Place.le_advance _ _)

end Braces

theorem Firm.braces {place : Place} {s : List Char} {m : Match} {b : Node} {entry : Rule}
    (h : Firm false topLevel place s m) (hnodes : m.nodes = [b])
    (hentry : entryRule? b.rule = some entry) : Braces place m entry b.children.tail := by
  rcases h.topLevel_cases hnodes with ⟨hrule, -⟩ | ⟨hrule, h⟩ | ⟨hrule, h⟩ | hrule | hrule
  -- Only models and enums have declarations.
  all_goals
    rw [hrule] at hentry
    cases hentry
  · exact .of_block rfl .model h hnodes
  · exact .of_block rfl .enum h hnodes

theorem Firm.linesWithin_inOrder {place : Place} {s : List Char} {m : Match} {b : Node}
    (h : Firm false topLevel place s m) (hnodes : m.nodes = [b]) :
    InOrder place (place.advance (m.taken ++ (gap false m.rest).1)) (linesWithin b) := by
  cases hentry : entryRule? b.rule with
  | some entry =>
      obtain ⟨hrun, -, -⟩ := Documentation.entry_of_entryRule? hentry
      have hlines := (h.braces hnodes hentry).lines_inOrder
      rw [linesWithin, Documentation.runLines_of_ne hrun, hentry, Place.advance_append]
      exact hlines.mono le_rfl (Place.le_advance _ _)
  | none =>
      rw [linesWithin, hentry, if_neg (by simp), List.append_nil]
      rcases h.topLevel_cases hnodes with ⟨hrule, h⟩ | ⟨hrule, -⟩ | ⟨hrule, -⟩ | hrule | hrule
      · rw [runLines, if_pos hrule]
        exact h.lines_inOrder hnodes
      all_goals
        rw [Documentation.runLines_of_ne (by simp [hrule])]
        exact .nil

/-! ## Blocks of a text -/

/-- The members stand in the braces of a block of the input. -/
def Body (input : List Char) (entry : Rule) (members : List Node) : Prop :=
  ∃ item place s r, BodyRules item entry ∧ StandsAt input place s ∧ (gap false s).2 = s ∧
    Runs (.call item) place s members r

variable {input : List Char} {ns : List Node} {b : Node} {entry : Rule}

theorem standsAt_gap (input : List Char) :
    StandsAt input (({} : Place).advance (gap false input).1) (gap false input).2 := by
  refine StandsAt.advance ?_
  rw [gap_splits]
  exact .start input

theorem body_of_blocks (h : Schema.Blocks input ns) (hb : b ∈ ns)
    (hentry : entryRule? b.rule = some entry) : Body input entry b.children.tail := by
  obtain ⟨prior, later, rfl⟩ := List.append_of_mem hb
  obtain ⟨t, m, hs, -, hm, hnodes, -, -⟩ := h.split .topLevel (standsAt_gap input) (gap_idem _)
  have hsplits := hm.derives.splits
  cases hm.braces hnodes hentry with
  | @intro item before inside after R htaken hgap hruns =>
      refine ⟨item, _, _, _, R, StandsAt.advance ?_, hgap, hruns⟩
      rwa [← List.append_assoc inside, ← List.append_assoc, ← htaken, hsplits]

theorem lines_nodup (h : Schema.Blocks input ns) : (ns.flatMap linesWithin).Nodup := by
  obtain ⟨w, hw⟩ := h.splits
  exact (h.inOrder .topLevel Firm.linesWithin_inOrder hw).nodup

end Grammar

/-- The end of the input is no block with declarations. -/
theorem mem_of_mem_children {tree b stop : Grammar.Node} {ns : List Grammar.Node}
    {entry : Grammar.Rule} (hchildren : tree.children = ns ++ [stop])
    (hstop : stop.rule = .endOfInput) (hb : b ∈ tree.children)
    (hentry : Documentation.entryRule? b.rule = some entry) : b ∈ ns := by
  rw [hchildren] at hb
  rcases List.mem_append.1 hb with hb | hb
  · exact hb
  · rw [List.mem_singleton.1 hb, hstop] at hentry
    cases hentry

/-! ## Results -/

/-- Every item of an accepted text is documented by the lines of the run directly before it and by
the line that trails it, and every block by the run directly before it. All lines that they take are
different, so that a line documents one item at most. Where a block attribute or the closing brace
cuts off a run, no later declaration takes a line of it. -/
theorem lines_document_one_item (text : String) (s : Schema)
    (h : (Schema.parse text).result = .ok s) :
    ∃ tree, Grammar.matchRule .schema text.toList = .ok [tree] ∧ Documented tree s ∧
      (Documentation.inContext Documentation.blockLinesIn [] tree.children).flatten.Nodup ∧
      ∀ b ∈ tree.children, ∀ entry, Documentation.entryRule? b.rule = some entry →
        ∀ prior run later, b.children.tail = prior ++ run :: later → run.rule = .documentation →
          (later.head?.all fun n => n.rule = .blockAttribute) = true →
          ∀ line ∈ run.children, line ∉ (Documentation.inContext (Documentation.linesIn entry)
            (prior ++ [run]) later).flatten := by
  obtain ⟨tree, ns, stop, hmatch, hchildren, hstop, hblocks, hdocumented⟩ := exists_documented h
  have hend : ∀ prior, Documentation.blockLinesIn prior stop [] = none := by
    intro prior
    rw [Documentation.blockLinesIn, hstop]
    rfl
  have hnodup := Grammar.lines_nodup hblocks
  refine ⟨tree, hmatch, hdocumented, ?_, ?_⟩
  · rw [hchildren, Documentation.inContext_concat _ hend fun _ _ _ => rfl]
    exact hnodup.sublist (Documentation.flatten_blockLinesIn_sublist [] ns)
  · intro b hb entry hentry prior run later hsplit hrun hcut line hline htaken
    obtain ⟨hblock, hother⟩ := Documentation.entry_of_entryRule? hentry
    have hlater := (Documentation.flatten_inContext_sublist_of_cut hother (prior ++ [run]) later
      hcut).subset htaken
    have hlines := (List.nodup_flatMap.1 hnodup).1 b (mem_of_mem_children hchildren hstop hb hentry)
    rw [Documentation.linesWithin, Documentation.runLines_of_ne hblock, hentry, hsplit] at hlines
    simp only [Option.isSome_some, if_true, List.nil_append, List.flatMap_append, List.flatMap_cons,
      Documentation.runLines, if_pos hrun] at hlines
    have hdisjoint := (List.nodup_append.1 (List.nodup_append.1 hlines).2.1).2.2
    exact hdisjoint line hline line hlater rfl

/-- Lines before, behind and between items, and lines that a block attribute cuts off. -/
def documentedFields : String :=
  "/// lost\ntype T\x7b\x7d\n/// all\nmodel A\x7b\n/// one\n///\n x Int /// two\n/// three\n" ++
    "y Int\n/// lost\n@@id([x])\nz Int\n///\n\x7d\nmodel B\x7b\x7d"

theorem lines_document_one_item_fields :
    ∃ s, (Schema.parse documentedFields).result = .ok s ∧
      s.models.map Documentation.ofModel
        = [("A", some "all", [("x", some "one\n\ntwo"), ("y", some "three"), ("z", none)]),
            ("B", none, [])] ∧
      ∃ tree, Grammar.matchRule .schema documentedFields.toList = .ok [tree] ∧
        Documented tree s := by
  have hexists : ∃ s, (Schema.parse documentedFields).result = .ok s ∧
      s.models.map Documentation.ofModel
        = [("A", some "all", [("x", some "one\n\ntwo"), ("y", some "three"), ("z", none)]),
            ("B", none, [])] :=
    exists_of_check (by decide +kernel)
  obtain ⟨s, hparse, hmodels⟩ := hexists
  obtain ⟨tree, hmatch, hdocumented, -⟩ := lines_document_one_item _ s hparse
  exact ⟨s, hparse, hmodels, tree, hmatch, hdocumented⟩

end PrismaTypes
