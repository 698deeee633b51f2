import PrismaTypes.Proofs.MemberPlaces

/-!
# Keywords of blocks

Every block opens with a keyword, and blanks may stand between the keyword and the name of the
block. The keywords `type` and `view` are scanned as whole words. The other four are fixed
characters, and the blanks behind them may be missing, so that such a keyword can run into the name:
what follows it is then the first character of the name.
-/

namespace PrismaTypes
namespace Grammar

open Text (Place StandsAt)

/-! ## Blanks -/

/-- Blanks and comments start like no word. -/
theorem isWordPart_of_head_gap {s : List Char} {c : Char} (h : (gap false s).1.head? = some c) :
    isWordPart c = false := by
  cases s with
  | nil =>
      cases h
  | cons d rest =>
      simp only [gap, Bool.false_eq_true, if_false, splitBlanks] at h
      split at h
      · rename_i hspace
        cases h
        rcases isSpace_cases hspace with rfl | rfl | rfl | rfl <;> decide
      · split at h
        · rename_i hcomment
          cases h
          -- A comment starts with a slash.
          unfold opensComment at hcomment
          split at hcomment <;> simp_all <;> decide
        · cases h

/-! ## Blocks -/

/-- The keywords that open the blocks of a rule. -/
def Rule.keywords : Rule → List (List Char)
  | modelBlock => ["model".toList]
  | enumBlock => ["enum".toList]
  | configBlock => ["datasource".toList, "generator".toList]
  | skippedBlock => ["type".toList, "view".toList]
  | _ => []

/-- The name of a block. -/
def Node.name? (b : Node) : Option Node :=
  b.children.find? (·.rule = .identifier)

/-- The rules of blocks, with what stands before the name and in the braces. -/
inductive BlockRules : Rule → Pattern → Pattern → Prop
  | model : BlockRules .modelBlock (.word "model") (.call .modelItem)
  | enum : BlockRules .enumBlock (.word "enum") (.call .enumItem)
  | config : BlockRules .configBlock (.call .configKeyword) (.call .configItem)
  | skipped : BlockRules .skippedBlock (.call .skippedKeyword) (.call .modelItem)

/-- What a block opens with: one of the keywords of its rule, and no name yet. -/
structure IsKeyword (rule : Rule) (m : Match) : Prop where
  taken : m.taken ∈ rule.keywords
  nodes : ∀ n ∈ m.nodes, n.rule ≠ .identifier
  whole : rule = .skippedBlock → m.rest.head?.any isWordPart = false

namespace BlockRules

variable {rule : Rule} {head item : Pattern} {place : Place} {s : List Char} {m : Match} {b : Node}

theorem form (B : BlockRules rule head item) : rule.form = .spaced (.block head item) := by
  cases B <;> rfl

theorem isKeyword (B : BlockRules rule head item) (h : Derives false head place s (some m)) :
    IsKeyword rule m := by
  cases B with
  | model | enum =>
      cases h
      exact ⟨by simp [Rule.keywords], by simp, fun hrule => by cases hrule⟩
  | config =>
      obtain ⟨m', h', rfl⟩ := h.of_spaced_some rfl
      refine ⟨?_, by simp [Match.asNode, Node.rule], fun hrule => by cases hrule⟩
      rcases h'.of_choice with h' | ⟨-, h'⟩ <;> cases h' <;> simp [Match.asNode, Rule.keywords]
  | skipped =>
      obtain ⟨x, hx, rfl⟩ := h.of_token_some rfl
      -- The scanner looks behind the keyword.
      rcases Option.or_eq_some_iff.1 hx with hx | ⟨-, hx⟩ <;>
        obtain ⟨hword, -, hafter⟩ := scanKeyword_eq_some_iff.1 hx <;>
        exact ⟨by simp [Match.asNode, Match.ofScan, hword, Rule.keywords],
          by simp [Match.asNode, Node.rule], fun _ => hafter⟩

/-- All that stands at the top of a schema besides documentation is a block. -/
theorem of_topLevel (h : Derives false topLevel place s (some m)) (hnodes : m.nodes = [b])
    (hdoc : b.rule ≠ .documentation) :
    ∃ head item, BlockRules b.rule head item ∧ Derives false (.call b.rule) place s (some m) := by
  have hblock : ∀ {rule head item}, BlockRules rule head item →
      Derives false (.call rule) place s (some m) → ∃ head item, BlockRules b.rule head item ∧
        Derives false (.call b.rule) place s (some m) := by
    intro rule head item B h
    obtain ⟨m', -, rfl⟩ := h.of_spaced_some B.form
    cases hnodes
    exact ⟨head, item, B, h⟩
  rcases h.of_choice with h | ⟨-, h⟩
  · obtain ⟨m', -, rfl⟩ := h.of_spaced_some rfl
    cases hnodes
    exact absurd rfl hdoc
  rcases (h.of_silent rfl).of_choice with h | ⟨-, h⟩
  · exact hblock .model h
  rcases h.of_choice with h | ⟨-, h⟩
  · exact hblock .enum h
  rcases h.of_choice with h | ⟨-, h⟩
  · exact hblock .config h
  · exact hblock .skipped h

end BlockRules

/-- A block is its keyword, blanks and a name, and more behind that. -/
theorem BlockRules.exists_name {rule : Rule} {head item : Pattern} (B : BlockRules rule head item)
    {place : Place} {s : List Char} {m : Match} {b : Node}
    (h : Derives false (.call rule) place s (some m)) (hnodes : m.nodes = [b]) :
    ∃ m₁ x, IsKeyword rule m₁ ∧ m₁.taken ++ m₁.rest = s ∧
      scanIdentifier (gap false m₁.rest).2 = some x ∧ b.name? = some
        (.mk .identifier (place.advance (m₁.taken ++ (gap false m₁.rest).1)) x.1 []) := by
  obtain ⟨m', h', rfl⟩ := h.of_spaced_some B.form
  obtain ⟨m₁, t₁, h₁, r₁, rfl⟩ := h'.of_seq
  obtain ⟨m₂, t₂, h₂, -, rfl⟩ := r₁.of_seq
  obtain ⟨x, hx, rfl⟩ := h₂.of_token_some rfl
  have hkeyword := B.isKeyword h₁
  refine ⟨m₁, x, hkeyword, h₁.splits, hx, ?_⟩
  cases hnodes
  -- The nodes of the keyword, if there are any, are no names.
  have hnone : m₁.nodes.find? (·.rule = .identifier) = none := by
    simpa using hkeyword.nodes
  change (m₁.nodes ++ _).find? _ = _
  rw [List.find?_append, hnone]
  rfl

/-- The block opens with the keyword `word`, and `c` stands right behind it. -/
structure OpensWith (input : List Char) (b : Node) (word : List Char) (c : Char) : Prop where
  keyword : word ∈ b.rule.keywords
  stands : ∃ rest, StandsAt input b.place (word ++ c :: rest)

/-- Either blanks stand between the keyword and the name, or the name starts with the character
behind the keyword. -/
theorem exists_opensWith {input s : List Char} {m : Match} {b : Node}
    (h : Derives false topLevel b.place s (some m)) (hnodes : m.nodes = [b])
    (hdoc : b.rule ≠ .documentation) (hs : StandsAt input b.place s) :
    ∃ word c name, OpensWith input b word c ∧ b.name? = some name ∧
      (isWordPart c = true ↔ name.place = b.place.advance word) ∧
      (isWordPart c = true → b.rule ≠ .skippedBlock ∧ isWordStart c = true ∧
        name.text.head? = some c) := by
  obtain ⟨head, item, B, hblock⟩ := BlockRules.of_topLevel h hnodes hdoc
  obtain ⟨m₁, x, hkeyword, hsplits, hx, hname⟩ := B.exists_name hblock hnodes
  have hrest := gap_splits false m₁.rest
  -- The name is found behind the blanks and starts with a letter or an underscore.
  obtain ⟨d, tail, htaken, hd, -⟩ := exists_of_isIdentifier (scanIdentifier_isIdentifier hx)
  have hword : x.1 ++ x.2 = (gap false m₁.rest).2 :=
    Rule.token_splits (show Rule.identifier.form = .token scanIdentifier from rfl) hx
  have hbehind : (gap false m₁.rest).2 = d :: (tail ++ x.2) := by
    rw [← hword, htaken, List.cons_append]
  rw [hbehind] at hrest
  cases hblanks : (gap false m₁.rest).1 with
  | nil =>
      rw [hblanks, List.nil_append] at hrest
      rw [hblanks, List.append_nil] at hname
      have hpart := isWordPart_of_isWordStart hd
      refine ⟨m₁.taken, d, _, ⟨hkeyword.taken, _, by rwa [hrest, hsplits]⟩, hname, ?_, ?_⟩
      · exact iff_of_true hpart rfl
      · intro _
        refine ⟨fun hrule => ?_, hd, by simp [Node.text, htaken]⟩
        -- A keyword that is scanned as a whole word would have been refused.
        have hwhole := hkeyword.whole hrule
        rw [← hrest, List.head?_cons, Option.any_some, hpart] at hwhole
        cases hwhole
  | cons c blanks =>
      have hpart : isWordPart c = false := isWordPart_of_head_gap (by rw [hblanks]; rfl)
      rw [hblanks, List.cons_append] at hrest
      refine ⟨m₁.taken, c, _, ⟨hkeyword.taken, _, by rwa [hrest, hsplits]⟩, hname, ?_, ?_⟩
      · simp [hpart, Node.place, Text.Place.advance_append_eq_iff, hblanks]
      · simp [hpart]

end Grammar

/-! ## Results -/

open Grammar (Node OpensWith isWordPart isWordStart matchRule)

/-- A decidable property of a block can be checked by matching the text. -/
theorem exists_block_of_check {text : String} {P : Node → Prop} [DecidablePred P]
    (h : (match matchRule .schema text.toList with
      | .ok [tree] => decide (∃ b ∈ tree.children, P b)
      | _ => false) = true) :
    ∃ tree, matchRule .schema text.toList = .ok [tree] ∧ ∃ b ∈ tree.children, P b := by
  split at h
  · rename_i tree hmatch
    exact ⟨tree, hmatch, of_decide_eq_true h⟩
  · cases h

/-- Behind the keyword of every block of an accepted text stands a character that continues a word
exactly if the name of the block starts there. It is then the first character of the name, which is
no digit, and the keyword is not `type` or `view`. -/
theorem keyword_runs_on_iff (text : String) (s : Schema) (h : (Schema.parse text).result = .ok s) :
    ∃ tree, matchRule .schema text.toList = .ok [tree] ∧
      ∀ b ∈ tree.children, b.rule ≠ .documentation → b.rule ≠ .endOfInput →
        ∃ word c name, OpensWith text.toList b word c ∧ b.name? = some name ∧
          (isWordPart c = true ↔ name.place = b.place.advance word) ∧
          (isWordPart c = true → b.rule ≠ .skippedBlock ∧ isWordStart c = true ∧
            name.text.head? = some c) := by
  obtain ⟨tree, ns, stop, hmatch, hchildren, hstop, hblocks, -⟩ := exists_documented h
  refine ⟨tree, hmatch, fun b hb hdoc hend => ?_⟩
  -- Only the end of the input stands behind the blocks.
  have hmem : b ∈ ns := by
    rw [hchildren] at hb
    rcases List.mem_append.1 hb with hb | hb
    · exact hb
    · exact absurd (List.mem_singleton.1 hb ▸ hstop) hend
  obtain ⟨prior, later, rfl⟩ := List.append_of_mem hmem
  obtain ⟨t, m, hs, -, hm, hnodes, -, -⟩ :=
    hblocks.split .topLevel (Grammar.standsAt_gap text.toList) (Grammar.gap_idem _)
  exact Grammar.exists_opensWith hm.derives hnodes hdoc hs

/-- Keywords that run into the name, one with a comment behind it, and one with a space. -/
def crowdedBlocks : String :=
  "generatorg\x7bp = 1\x7d enum_E\x7bX\x7d model//c\nA\x7bx _E\x7d view modelB\x7bx Int\x7d"

theorem keyword_runs_on_iff_crowded :
    ∃ s, (Schema.parse crowdedBlocks).result = .ok s ∧ s.models.map (·.name) = ["A"] ∧
      s.enums.map (·.name) = ["_E"] ∧
      ∃ tree, matchRule .schema crowdedBlocks.toList = .ok [tree] ∧
        ∃ b ∈ tree.children, b.rule = .enumBlock ∧ ∃ word c name,
          OpensWith crowdedBlocks.toList b word c ∧ b.name? = some name ∧
            isWordPart c = true ∧ isWordStart c = true ∧ name.text.head? = some c := by
  have hexists : ∃ s, (Schema.parse crowdedBlocks).result = .ok s ∧
      s.models.map (·.name) = ["A"] ∧ s.enums.map (·.name) = ["_E"] :=
    exists_of_check (by decide +kernel)
  have hblock : ∃ tree, matchRule .schema crowdedBlocks.toList = .ok [tree] ∧
      ∃ b ∈ tree.children, b.rule = .enumBlock ∧
        b.name?.map Node.place = some (b.place.advance "enum".toList) :=
    exists_block_of_check (by decide +kernel)
  obtain ⟨s, hparse, hmodels, henums⟩ := hexists
  obtain ⟨tree, hmatch, b, hb, hrule, hplace⟩ := hblock
  obtain ⟨tree', hmatch', hall⟩ := keyword_runs_on_iff _ s hparse
  rw [hmatch] at hmatch'
  cases hmatch'
  obtain ⟨word, c, name, hopens, hname, hiff, hruns⟩ :=
    hall b hb (by simp [hrule]) (by simp [hrule])
  have hword : word = "enum".toList := by
    simpa [hrule, Grammar.Rule.keywords] using hopens.keyword
  have hpart : isWordPart c = true := hiff.2 (by simpa [hname, hword] using hplace)
  exact ⟨s, hparse, hmodels, henums, tree, hmatch, b, hb, hrule, word, c, name, hopens, hname,
    hpart, (hruns hpart).2⟩

/-- The keyword of a model runs into its name. -/
theorem model_keyword_runs_into_name :
    ∃ s, (Schema.parse "modelA \x7b\n  x Int\n\x7d").result = .ok s ∧
      s.models.map (·.name) = ["A"] ∧
      ∃ tree, matchRule .schema "modelA \x7b\n  x Int\n\x7d".toList = .ok [tree] ∧
        ∃ b ∈ tree.children, b.rule = .modelBlock ∧
          OpensWith "modelA \x7b\n  x Int\n\x7d".toList b "model".toList 'A' ∧
          isWordPart 'A' = true := by
  have hexists : ∃ s, (Schema.parse "modelA \x7b\n  x Int\n\x7d").result = .ok s ∧
      s.models.map (·.name) = ["A"] :=
    exists_of_check (by decide +kernel)
  have hblock : ∃ tree, matchRule .schema "modelA \x7b\n  x Int\n\x7d".toList = .ok [tree] ∧
      ∃ b ∈ tree.children, b.rule = .modelBlock ∧ b.place = {} :=
    exists_block_of_check (by decide +kernel)
  obtain ⟨s, hparse, hnames⟩ := hexists
  obtain ⟨tree, hmatch, b, hb, hrule, hplace⟩ := hblock
  refine ⟨s, hparse, hnames, tree, hmatch, b, hb, hrule, ⟨by simp [hrule, Grammar.Rule.keywords],
    " \x7b\n  x Int\n\x7d".toList, ?_⟩, by decide⟩
  rw [hplace]
  exact Text.StandsAt.start _

end PrismaTypes
