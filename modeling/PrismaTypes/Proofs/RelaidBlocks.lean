import Mathlib.Data.List.Forall2
import PrismaTypes.Proofs.FirmBlocks
import PrismaTypes.Proofs.Relayout

/-!
# Blocks in another layout

The members of a block keep their order, their contents and, for each piece of documentation, the
answer to the question whether it starts on the row on which the member before it ends
(`trailings`). That is all the outline asks for (`SameNode`).

* `Runs.relaid`: the members of a block have counterparts, with the same answers.
* `relaid_block`: a block has a counterpart whatever follows it, since it is closed.
* `Runs.relaid_topLevel`: so do the blocks of a whole text.
-/

namespace PrismaTypes
namespace Grammar

open Text (Place)
open Outline (lastRow)

/-! ## Repetition as a list -/

/-- The text consists of items that leave the nodes `ns` and is followed by `r`. -/
inductive Runs (body : Pattern) : Place → List Char → List Node → List Char → Prop
  | nil {place : Place} {s : List Char} (h : Balks false body s) : Runs body place s [] s
  | cons {place : Place} {s r : List Char} {m : Match} {ns : List Node}
      (h : Firm false body place s m)
      (hrest : Runs body (place.advance (m.taken ++ (gap false m.rest).1)) (gap false m.rest).2
        ns r) : Runs body place s (m.nodes ++ ns) r

section Repetition

variable {body : Pattern} {place : Place} {s r : List Char} {m : Match} {ns : List Node}

theorem Firm.runs (h : Firm false (.many body) place s m) (hs : (gap false s).2 = s) :
    Runs body place s m.nodes (gap false m.rest).2 := by
  generalize he : Pattern.many body = e at h
  generalize ht : false = tight at h
  induction h with
  | @manyNone _ place s h =>
      cases he
      show Runs body place s [] (gap false s).2
      rw [hs]
      exact .nil h
  | manyLast h₁ h₂ =>
      cases he
      have hruns := Runs.cons h₁ (.nil h₂)
      rwa [List.append_nil] at hruns
  | manyMore h₁ h₂ hmore ih₁ ih₂ =>
      cases he
      exact .cons h₁ (ih₂ (gap_idem _) rfl rfl)
  | _ =>
      cases he

theorem Runs.firm (h : Runs body place s ns r) (htakes : body.takes = true)
    (hs : (gap false s).2 = s) :
    ∃ m, Firm false (.many body) place s m ∧ m.nodes = ns ∧ (gap false m.rest).2 = r := by
  induction h with
  | nil h =>
      exact ⟨.empty _, .manyNone h, rfl, hs⟩
  | @cons place s r m ns h hrest ih =>
      obtain ⟨m₂, h₂, hnodes, hr⟩ := ih (gap_idem _)
      by_cases hmore : m₂.taken = []
      · -- The blanks in front of nothing are given back.
        cases hrest with
        | nil hstop =>
            refine ⟨m, .manyLast h hstop, by simp, rfl⟩
        | cons h' hrest' =>
            have hnone := (h₂.derives.of_many_nil htakes hmore).2
            cases h'.derives.unique hnone
      · refine ⟨_, .manyMore h h₂ hmore, ?_, hr⟩
        rw [← hnodes]
        rfl

end Repetition

/-! ## Single nodes -/

/-- Every match is a node of its own, and documentation starts with its first line. -/
def Leaves (e : Pattern) : Prop :=
  ∀ (tight : Bool) (place : Place) (s : List Char) (m : Match),
    Derives tight e place s (some m) → ∃ rule children,
      m.nodes = [.mk rule place m.taken children] ∧
      (rule = .documentation → ∃ line lines, children = line :: lines ∧ line.place = place)

namespace Leaves

variable {first second body : Pattern} {rule : Rule}

theorem choice (h₁ : Leaves first) (h₂ : Leaves second) : Leaves (.choice first second) := by
  intro tight place s m h
  rcases h.of_choice with h | ⟨-, h⟩
  · exact h₁ tight place s m h
  · exact h₂ tight place s m h

theorem silent (hform : rule.form = .silent body) (h : Leaves body) : Leaves (.call rule) :=
  fun tight place s m hd => h tight place s m (hd.of_silent hform)

theorem spaced (hform : rule.form = .spaced body) (hrule : rule ≠ .documentation) :
    Leaves (.call rule) := by
  intro tight place s m h
  obtain ⟨m', -, rfl⟩ := h.of_spaced_some hform
  exact ⟨rule, m'.nodes, rfl, (absurd · hrule)⟩

theorem documentation : Leaves (.call .documentation) := by
  intro tight place s m h
  obtain ⟨m', h', rfl⟩ := h.of_spaced_some rfl
  obtain ⟨m₁, m₂, h₁, -, rfl⟩ := h'.of_seq
  obtain ⟨m₃, -, rfl⟩ := h₁.of_tight_some rfl
  exact ⟨_, _, rfl, fun _ => ⟨_, _, rfl, rfl⟩⟩

theorem modelItem : Leaves (.call .modelItem) :=
  .silent rfl (.choice .documentation
    (.choice (.spaced rfl (by decide)) (.spaced rfl (by decide))))

theorem enumItem : Leaves (.call .enumItem) :=
  .silent rfl (.choice .documentation
    (.choice (.spaced rfl (by decide)) (.spaced rfl (by decide))))

theorem configItem : Leaves (.call .configItem) :=
  .silent rfl (.choice .documentation (.spaced rfl (by decide)))

end Leaves

/-! ## Trailing documentation -/

/-- The documentation `b` starts on the row on which `a` ends. -/
def trails (a b : Node) : Bool :=
  b.rule = .documentation && b.children.head?.any fun line => lastRow a = line.place.row

def trailings : List Node → List Bool
  | a :: b :: ns => trails a b :: trailings (b :: ns)
  | _ => []

theorem trails_iff {a b : Node} {g : List Char} (hplace : b.place = a.place.advance (a.text ++ g))
    (hdoc : b.rule = .documentation → ∃ line lines, b.children = line :: lines ∧
      line.place = b.place) :
    trails a b = true ↔ b.rule = .documentation ∧ Text.Level a.text g := by
  unfold trails
  by_cases hrule : b.rule = .documentation
  · obtain ⟨line, lines, hchildren, hline⟩ := hdoc hrule
    simp only [hrule, hchildren, List.head?_cons, Option.any_some, hline, hplace, lastRow,
      Place.advance, Text.Level, decide_true, Bool.true_and, decide_eq_true_eq, true_and]
    omega
  · simp [hrule]

/-! ## Members -/

section Members

variable {L : Relayout} {item : Pattern} {place place' : Place} {s s' r : List Char} {m : Match}
  {ns : List Node}

theorem Runs.splits (h : Runs item place s ns r) : ∃ w, w ++ r = s := by
  induction h with
  | nil =>
      exact ⟨[], rfl⟩
  | @cons place s r m ns h hrest ih =>
      obtain ⟨w, hw⟩ := ih
      refine ⟨m.taken ++ (gap false m.rest).1 ++ w, ?_⟩
      rw [List.append_assoc, hw, List.append_assoc, gap_splits, h.derives.splits]

/-- The first node of a repetition stands where the repetition starts. -/
theorem Runs.head (h : Runs item place s ns r) (hleaves : Leaves item) :
    ∀ b ∈ ns.head?, b.place = place ∧ (b.rule = .documentation →
      ∃ line lines, b.children = line :: lines ∧ line.place = b.place) := by
  intro b hb
  cases h with
  | nil =>
      cases hb
  | cons h hrest =>
      obtain ⟨rule, children, hnodes, hdoc⟩ := hleaves _ _ _ _ h.derives
      rw [hnodes] at hb
      cases hb
      exact ⟨rfl, hdoc⟩

theorem head?_map_rule {ns ns' : List Node} (h : ns'.map Node.bare = ns.map Node.bare) :
    ns'.head?.map Node.rule = ns.head?.map Node.rule := by
  have hrule : ∀ l : List Node, l.head?.map Node.rule = (l.map Node.bare).head?.map Node.rule := by
    intro l
    cases l <;> simp
  rw [hrule, h, ← hrule]

/-- Members have counterparts, and trailing documentation trails in both layouts. -/
theorem Runs.relaid (h : Runs item place s ns r) (hleaves : Leaves item)
    (htakes : item.takes = true) (hs : L.holds place s s') (hgap : (gap false s).2 = s)
    (hgap' : (gap false s').2 = s')
    (hstrings : ∀ n ∈ Node.stringsAll ns, L.keeps n.place n.text) (hend : r ≠ [])
    (place' : Place) :
    ∃ ns' r', Runs item place' s' ns' r' ∧ ns'.map Node.bare = ns.map Node.bare ∧
      trailings ns' = trailings ns := by
  induction h generalizing s' place' with
  | nil h =>
      exact ⟨[], s', .nil (h.relaid hs), rfl, rfl⟩
  | @cons place s r m ns h hrest ih =>
      have halive : L.alive false m.rest := by
        intro _
        obtain ⟨w, hw⟩ := hrest.splits
        refine .inl fun hnil => hend ?_
        rw [hnil] at hw
        exact (List.append_eq_nil_iff.1 hw).2
      simp only [Node.stringsAll_append, List.mem_append] at hstrings
      obtain ⟨m', c⟩ := h.relaid hs (fun _ => hgap) (fun _ => hgap')
        (fun n hn => hstrings n (.inl hn)) halive place'
      obtain ⟨ns', r', hrest', hbare, hrows⟩ := ih (c.lands.next halive) (gap_idem _) (gap_idem _)
        (fun n hn => hstrings n (.inr hn)) hend
        (place'.advance (m'.taken ++ (gap false m'.rest).1))
      refine ⟨m'.nodes ++ ns', r', .cons c.firm hrest', by simp [c.nodes, hbare], ?_⟩
      obtain ⟨rule, children, hnode, -⟩ := hleaves _ _ _ _ h.derives
      obtain ⟨rule', children', hnode', -⟩ := hleaves _ _ _ _ c.firm.derives
      rw [hnode, hnode']
      -- The answer for the first two members depends on the blanks between them.
      have hhead := hrest.head hleaves
      have hhead' := hrest'.head hleaves
      have hrules := head?_map_rule hbare
      cases ns with
      | nil =>
          cases ns' with
          | nil =>
              rfl
          | cons b' ns' =>
              cases hbare
      | cons b ns =>
          cases ns' with
          | nil =>
              cases hbare
          | cons b' ns' =>
              obtain ⟨hplace, hdoc⟩ := hhead b rfl
              obtain ⟨hplace', hdoc'⟩ := hhead' b' rfl
              have hlevel := c.lands.level (h.derives.taken_ne_nil htakes) halive
              have htrails : trails (.mk rule place m.taken children) b
                  = trails (.mk rule' place' m'.taken children') b' := by
                rw [Bool.eq_iff_iff, trails_iff hplace hdoc, trails_iff hplace' hdoc']
                have hrule : b'.rule = b.rule := by simpa using hrules
                rw [hrule]
                exact and_congr_right fun _ => hlevel
              simp only [List.singleton_append, trailings, htrails, hrows]

end Members

/-! ## Blocks -/

theorem Firm.of_seq {tight : Bool} {first second : Pattern} {place : Place} {s : List Char}
    {m : Match} (h : Firm tight (.seq first second) place s m) :
    ∃ m₁ m₂, Firm tight first place s m₁ ∧
      Firm tight second (place.advance (m₁.taken ++ (gap tight m₁.rest).1))
        (gap tight m₁.rest).2 m₂ ∧ m = m₁.append (gap tight m₁.rest).1 m₂ := by
  cases h with
  | seq h₁ h₂ =>
      exact ⟨_, _, h₁, h₂, rfl⟩

theorem drop_past {α : Type} {before after : List α} {x : α} {count : Nat}
    (h : before.length = count) : (before ++ ([x] ++ after)).drop (count + 1) = after := by
  rw [← List.append_assoc]
  exact List.drop_left' (by simp [h])

section Blocks

variable {L : Relayout} {head item : Pattern} {place : Place} {s s' : List Char} {m : Match}

/-- Members in braces: the brace that closes them tells where they end. -/
theorem relaid_members
    (h : Firm false (.seq (.many item) (.word "\x7d")) place s m) (hleaves : Leaves item)
    (htakes : item.takes = true) (hs : L.holds place s s') (hgap : (gap false s).2 = s)
    (hgap' : (gap false s').2 = s')
    (hstrings : ∀ n ∈ Node.stringsAll m.nodes, L.keeps n.place n.text) (place' : Place) :
    ∃ m', Counterpart L false (.seq (.many item) (.word "\x7d")) place m place' s' m' ∧
      trailings m'.nodes = trailings m.nodes := by
  obtain ⟨m₁, m₂, h₁, h₂, rfl⟩ := h.of_seq
  cases h₂ with
  | @literal _ _ _ _ rest hword hbrace =>
      have hclosing : (gap false m₁.rest).2 ≠ [] := by
        rw [afterWord?_eq_some_iff.1 hbrace]
        simp
      have hmembers : ∀ n ∈ Node.stringsAll m₁.nodes, L.keeps n.place n.text := fun n hn =>
        hstrings n (by simp [Match.append, hn])
      obtain ⟨m₁', c₁⟩ := h₁.relaid hs (fun _ => hgap) (fun _ => hgap') hmembers
        (fun _ => .inl hclosing) place'
      obtain ⟨r', c₂⟩ := literal_relaid false hword hbrace
        (c₁.lands.next fun _ => .inl hclosing)
        (place'.advance (m₁'.taken ++ (gap false m₁'.rest).1))
      refine ⟨_, c₁.seq c₂ h₁.derives.splits (afterWord?_eq_some_iff.1 hbrace).symm
        (fun _ => hgap) (fun _ => hgap'), ?_⟩
      -- The members of the counterpart are those found one by one.
      obtain ⟨ns', r'', hruns, -, hrows⟩ := (h₁.runs hgap).relaid hleaves htakes hs hgap hgap'
        hmembers hclosing place'
      obtain ⟨m₃, h₃, hnodes, -⟩ := hruns.firm htakes hgap'
      cases c₁.firm.derives.unique h₃.derives
      simpa [Match.append, hnodes] using hrows

/-- A block has a counterpart, whatever follows it. Its members come after the nodes of its head and
its name. -/
theorem relaid_block (h : Firm false (.block head item) place s m) (hleaves : Leaves item)
    (htakes : item.takes = true) {heads : Nat}
    (hheads : ∀ {place s m}, Derives false head place s (some m) → m.nodes.length = heads)
    (hs : L.holds place s s') (hgap : (gap false s).2 = s) (hgap' : (gap false s').2 = s')
    (hstrings : ∀ n ∈ Node.stringsAll m.nodes, L.keeps n.place n.text) (place' : Place) :
    ∃ m', Counterpart L false (.block head item) place m place' s' m' ∧
      trailings (m'.nodes.drop (heads + 1)) = trailings (m.nodes.drop (heads + 1)) := by
  obtain ⟨m₁, t₁, h₁, r₁, rfl⟩ := h.of_seq
  obtain ⟨m₂, t₂, h₂, r₂, rfl⟩ := r₁.of_seq
  obtain ⟨m₃, m₄, h₃, h₄, rfl⟩ := r₂.of_seq
  simp only [Match.append, Node.stringsAll_append, List.mem_append] at hstrings
  -- Something follows each part, up to the brace at the end.
  have htaken₄ : m₄.taken ≠ [] := h₄.derives.taken_ne_nil rfl
  have halive₃ : L.alive false m₃.rest :=
    Counterpart.alive_of_taken h₄.derives.splits htaken₄
  have halive₂ : L.alive false m₂.rest :=
    Counterpart.alive_of_taken r₂.derives.splits (r₂.derives.taken_ne_nil rfl)
  have halive₁ : L.alive false m₁.rest :=
    Counterpart.alive_of_taken r₁.derives.splits (r₁.derives.taken_ne_nil rfl)
  obtain ⟨m₁', c₁⟩ := h₁.relaid hs (fun _ => hgap) (fun _ => hgap')
    (fun n hn => hstrings n (.inl hn)) halive₁ place'
  obtain ⟨m₂', c₂⟩ := h₂.relaid (c₁.lands.next halive₁) (fun _ => gap_idem _) (fun _ => gap_idem _)
    (fun n hn => hstrings n (.inr (.inl hn))) halive₂
    (place'.advance (m₁'.taken ++ (gap false m₁'.rest).1))
  obtain ⟨m₃', c₃⟩ := h₃.relaid (c₂.lands.next halive₂) (fun _ => gap_idem _) (fun _ => gap_idem _)
    (fun n hn => hstrings n (.inr (.inr (.inl hn)))) halive₃
    ((place'.advance (m₁'.taken ++ (gap false m₁'.rest).1)).advance
      (m₂'.taken ++ (gap false m₂'.rest).1))
  obtain ⟨m₄', c₄, hrows⟩ := relaid_members h₄ hleaves htakes (c₃.lands.next halive₃) (gap_idem _)
    (gap_idem _) (fun n hn => hstrings n (.inr (.inr (.inr hn))))
    (((place'.advance (m₁'.taken ++ (gap false m₁'.rest).1)).advance
      (m₂'.taken ++ (gap false m₂'.rest).1)).advance (m₃'.taken ++ (gap false m₃'.rest).1))
  have c₃₄ := c₃.seq c₄ h₃.derives.splits h₄.derives.splits (fun _ => gap_idem _)
    (fun _ => gap_idem _)
  have c₂₄ := c₂.seq c₃₄ h₂.derives.splits r₂.derives.splits (fun _ => gap_idem _)
    (fun _ => gap_idem _)
  refine ⟨_, c₁.seq c₂₄ h₁.derives.splits r₁.derives.splits (fun _ => hgap) (fun _ => hgap'), ?_⟩
  -- The head leaves its nodes, the name one, and the brace none.
  obtain ⟨x, -, rfl⟩ := h₂.derives.of_token_some rfl
  obtain ⟨x', -, rfl⟩ := c₂.firm.derives.of_token_some rfl
  have hbrace : m₃.nodes = [] := by
    cases h₃
    rfl
  have hbrace' : m₃'.nodes = [] := by
    cases c₃.firm
    rfl
  simp only [Match.append, Match.asNode, hbrace, hbrace', List.nil_append]
  rw [drop_past (hheads h₁.derives), drop_past (hheads c₁.firm.derives)]
  exact hrows

end Blocks

/-! ## Blocks of a text -/

section Inversions

variable {tight : Bool} {first second body : Pattern} {rule : Rule} {place : Place}
  {s : List Char} {m : Match}

theorem Firm.of_choice (h : Firm tight (.choice first second) place s m) :
    Firm tight first place s m ∨ Balks tight first s ∧ Firm tight second place s m := by
  cases h with
  | choiceFirst h =>
      exact .inl h
  | choiceSecond h₁ h₂ =>
      exact .inr ⟨h₁, h₂⟩

theorem Firm.of_silent (hform : rule.form = .silent body) (h : Firm tight (.call rule) place s m) :
    Firm tight body place s m := by
  -- A rule has one form, which leaves one of the clauses for calls.
  cases h with
  | silent hform' h =>
      rw [hform] at hform'
      cases hform'
      exact h
  | token hform' =>
      rw [hform] at hform'
      cases hform'
  | spaced hform' =>
      rw [hform] at hform'
      cases hform'
  | tight hform' =>
      rw [hform] at hform'
      cases hform'

theorem Firm.of_spaced (hform : rule.form = .spaced body) (h : Firm tight (.call rule) place s m) :
    ∃ m', Firm tight body place s m' ∧ m = m'.asNode rule place := by
  cases h with
  | silent hform' =>
      rw [hform] at hform'
      cases hform'
  | token hform' =>
      rw [hform] at hform'
      cases hform'
  | spaced hform' h =>
      rw [hform] at hform'
      cases hform'
      exact ⟨_, h, rfl⟩
  | tight hform' =>
      rw [hform] at hform'
      cases hform'

end Inversions

/-- Two nodes that are read as the same block. -/
structure SameNode (n n' : Node) : Prop where
  bare : n'.bare = n.bare
  /-- The members of a model or an enum come after its name. -/
  rows : n.rule = .modelBlock ∨ n.rule = .enumBlock →
    trailings n'.children.tail = trailings n.children.tail

/-- The match `m` has a counterpart with the same blocks, wherever the other text stands. -/
def Carried (L : Relayout) (e : Pattern) (place : Place) (m : Match) (s' : List Char) : Prop :=
  ∀ place', ∃ m',
    Counterpart L false e place m place' s' m' ∧ List.Forall₂ SameNode m.nodes m'.nodes

section TopLevel

variable {L : Relayout} {first second body head item : Pattern} {rule : Rule} {place : Place}
  {s s' r : List Char} {m : Match} {ns : List Node}

theorem Carried.choiceFirst (h : Carried L first place m s') :
    Carried L (.choice first second) place m s' := by
  intro place'
  obtain ⟨m', c, hsame⟩ := h place'
  exact ⟨m', ⟨.choiceFirst c.firm, c.lands, c.nodes⟩, hsame⟩

theorem Carried.choiceSecond (hfirst : Balks false first s) (hs : L.holds place s s')
    (h : Carried L second place m s') : Carried L (.choice first second) place m s' := by
  intro place'
  obtain ⟨m', c, hsame⟩ := h place'
  exact ⟨m', ⟨.choiceSecond (hfirst.relaid hs) c.firm, c.lands, c.nodes⟩, hsame⟩

theorem Carried.silent (hform : rule.form = .silent body) (h : Carried L body place m s') :
    Carried L (.call rule) place m s' := by
  intro place'
  obtain ⟨m', c, hsame⟩ := h place'
  exact ⟨m', ⟨.silent hform c.firm, c.lands, c.nodes⟩, hsame⟩

theorem carried_block (heads : Nat) (hform : rule.form = .spaced (.block head item))
    (h : Firm false (.call rule) place s m) (hleaves : Leaves item) (htakes : item.takes = true)
    (hheads : ∀ {place s m}, Derives false head place s (some m) → m.nodes.length = heads)
    (hrule : rule = .modelBlock ∨ rule = .enumBlock → heads = 0) (hword : rule.isWord = false)
    (hs : L.holds place s s') (hgap : (gap false s).2 = s) (hgap' : (gap false s').2 = s')
    (hstrings : ∀ n ∈ Node.stringsAll m.nodes, L.keeps n.place n.text) :
    Carried L (.call rule) place m s' := by
  intro place'
  obtain ⟨m, hbody, rfl⟩ := h.of_spaced hform
  have hinner : ∀ n ∈ Node.stringsAll m.nodes, L.keeps n.place n.text := fun n hn =>
    hstrings n (by simp [Match.asNode, Node.stringsAll, Node.strings, hn])
  obtain ⟨m', c, hrows⟩ := relaid_block hbody hleaves htakes hheads hs hgap hgap' hinner place'
  have c' := c.asNode (.spaced hform c.firm) c.lands (by simp [hword])
  refine ⟨_, c', .cons ⟨?_, fun hblock => ?_⟩ .nil⟩
  · exact List.singleton_inj.1 c'.nodes
  · rw [hrule hblock] at hrows
    simpa [Node.children] using hrows

theorem carried_definition (h : Firm false (.call .definition) place s m)
    (hs : L.holds place s s') (hgap : (gap false s).2 = s) (hgap' : (gap false s').2 = s')
    (hstrings : ∀ n ∈ Node.stringsAll m.nodes, L.keeps n.place n.text) :
    Carried L (.call .definition) place m s' := by
  have hword : ∀ {word : List Char} {place s m}, Derives false (.literal word) place s (some m) →
      m.nodes.length = 0 := by
    intro word place s m h
    cases h
    rfl
  refine .silent rfl ?_
  rcases (h.of_silent rfl).of_choice with h | ⟨b₁, h⟩
  · exact .choiceFirst (carried_block 0 rfl h .modelItem rfl hword (fun _ => rfl) rfl hs hgap hgap'
      hstrings)
  refine .choiceSecond b₁ hs ?_
  rcases h.of_choice with h | ⟨b₂, h⟩
  · exact .choiceFirst (carried_block 0 rfl h .enumItem rfl hword (fun _ => rfl) rfl hs hgap hgap'
      hstrings)
  refine .choiceSecond b₂ hs ?_
  -- The keywords of the other blocks are nodes.
  rcases h.of_choice with h | ⟨b₃, h⟩
  · refine .choiceFirst (carried_block 1 rfl h .configItem rfl ?_ (by simp) rfl hs hgap hgap'
      hstrings)
    intro place s m hd
    obtain ⟨m', -, rfl⟩ := hd.of_spaced_some rfl
    rfl
  · refine .choiceSecond b₃ hs (carried_block 1 rfl h .modelItem rfl ?_ (by simp) rfl hs
      hgap hgap' hstrings)
    intro place s m hd
    obtain ⟨x, -, rfl⟩ := hd.of_token_some rfl
    rfl

/-- What stands at the top level has a counterpart; documentation only if it is clear what comes
after it, since more of it could follow. -/
theorem carried_topLevel (h : Firm false topLevel place s m) (hs : L.holds place s s')
    (hgap : (gap false s).2 = s) (hgap' : (gap false s').2 = s')
    (hstrings : ∀ n ∈ Node.stringsAll m.nodes, L.keeps n.place n.text)
    (halive : (∃ n ∈ m.nodes, n.rule = .documentation) → L.alive false m.rest) :
    Carried L topLevel place m s' := by
  rcases h.of_choice with h | ⟨b, h⟩
  · refine .choiceFirst fun place' => ?_
    obtain ⟨m₀, -, hm⟩ := h.of_spaced rfl
    have hdoc : ∃ n ∈ m.nodes, n.rule = .documentation := by
      rw [hm]
      exact ⟨_, List.mem_singleton_self _, rfl⟩
    obtain ⟨m', c⟩ := h.relaid hs (fun _ => hgap) (fun _ => hgap') hstrings (halive hdoc) place'
    refine ⟨m', c, ?_⟩
    obtain ⟨m₀', -, hm'⟩ := c.firm.of_spaced rfl
    have hbare := c.nodes
    rw [hm, hm'] at hbare ⊢
    refine .cons ⟨List.singleton_inj.1 hbare, fun hblock => ?_⟩ .nil
    rcases hblock with hblock | hblock <;> cases hblock
  · exact .choiceSecond b hs (carried_definition h hs hgap hgap' hstrings)

/-- The blocks of a text that is used up have counterparts in the other layout, and that is used up,
too. -/
theorem Runs.relaid_topLevel (h : Runs topLevel place s ns []) (hwhole : L.whole)
    (hend : ∀ {place s'}, L.holds place [] s' → s' = []) (hs : L.holds place s s')
    (hgap : (gap false s).2 = s) (hgap' : (gap false s').2 = s')
    (hstrings : ∀ n ∈ Node.stringsAll ns, L.keeps n.place n.text) (place' : Place) :
    ∃ ns', Runs topLevel place' s' ns' [] ∧ List.Forall₂ SameNode ns ns' := by
  generalize hr : ([] : List Char) = r at h
  induction h generalizing s' place' with
  | nil h =>
      subst hr
      obtain rfl := hend hs
      exact ⟨[], .nil h, .nil⟩
  | @cons place s r m ns h hrest ih =>
      have halive : L.alive false m.rest := fun _ => .inr hwhole
      simp only [Node.stringsAll_append, List.mem_append] at hstrings
      obtain ⟨m', c, hsame⟩ := carried_topLevel h hs hgap hgap' (fun n hn => hstrings n (.inl hn))
        (fun _ => halive) place'
      obtain ⟨ns', hruns', hsame'⟩ := ih (c.lands.next halive) (gap_idem _) (gap_idem _)
        (fun n hn => hstrings n (.inr hn)) (place'.advance (m'.taken ++ (gap false m'.rest).1)) hr
      exact ⟨m'.nodes ++ ns', .cons c.firm hruns', List.rel_append hsame hsame'⟩

end TopLevel

/-! ## Whole texts -/

section WholeTexts

variable {t : List Char} {nodes ns : List Node}

/-- A text is a schema if it consists of blocks. -/
theorem runs_of_matchRule (h : matchRule .schema t = .ok nodes) :
    ∃ tree ns stop, nodes = [tree] ∧ tree.children = ns ++ [stop] ∧ stop.rule = .endOfInput ∧
      Runs topLevel (({} : Place).advance (gap false t).1) (gap false t).2 ns [] := by
  obtain ⟨m, hm, rfl⟩ := matchRule_eq_ok_iff.1 h
  obtain ⟨m', hbody, rfl⟩ := hm.of_spaced_some rfl
  obtain ⟨m₁, m₂, h₁, h₂, rfl⟩ := hbody.of_seq
  obtain ⟨m₃, m₄, h₃, h₄, rfl⟩ := h₂.of_seq
  obtain ⟨m₅, h₅, rfl⟩ := h₄.of_spaced_some rfl
  cases h₁
  have hend : (gap false m₃.rest).2 = [] := by
    generalize (gap false m₃.rest).2 = s at h₅
    cases h₅
    rfl
  have hruns := (firm_topLevel h₃ (gap_idem _) hend).runs (gap_idem _)
  rw [hend] at hruns
  exact ⟨_, m₃.nodes, _, rfl, rfl, rfl, hruns⟩

theorem matchRule_of_runs
    (h : Runs topLevel (({} : Place).advance (gap false t).1) (gap false t).2 ns []) :
    ∃ tree stop, matchRule .schema t = .ok [tree] ∧ tree.children = ns ++ [stop] ∧
      stop.rule = .endOfInput := by
  obtain ⟨m, hm, rfl, hrest⟩ := h.firm rfl (gap_idem _)
  have hstop : ∀ place, Derives false (.call .endOfInput) place (gap false m.rest).2
      (some ((Match.empty []).asNode .endOfInput place)) := by
    intro place
    rw [hrest]
    exact .spaced rfl .atEnd
  have hschema : Derives false (.call .schema) {} t _ :=
    .spaced rfl (.seq (.atStart rfl) (.seq hm.derives (hstop _)))
  exact ⟨_, _, matchRule_eq_ok_iff.2 ⟨_, hschema, rfl⟩, rfl, rfl⟩

end WholeTexts

end Grammar
end PrismaTypes
