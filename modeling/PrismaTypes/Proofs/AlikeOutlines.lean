import PrismaTypes.Proofs.Assembly
import PrismaTypes.Proofs.RelaidBlocks

/-!
# Outlines that make the same schema

Rows enter a schema through one question only: whether documentation starts on the row on which the
declaration before it ends. Items with the same declarations, the same texts and the same answers
(`Alike`) make the same model or enum, and blocks of such items the same schema
(`Schema.result_ofOutline_alike`).

Nodes that differ in their layout only are read as such blocks (`readBlock_alike`), and so a text
and its counterpart in another layout have the same result (`Schema.Blocks.result_eq`).
-/

namespace PrismaTypes

open Grammar (Node Rule BodyRules Fits Runs SameNode trails trailings topLevel gap matchRule)
open Outline (Block DocLine FieldDecl ValueDecl Item lastRow)
open Text (Place)

namespace Outline

/-! ## Items -/

/-- The lines start on the row, if there is one. -/
def startOn (row : Option Nat) (lines : List DocLine) : Bool :=
  lines.head?.any fun line => row = some line.row

/-- Items that differ in rows only. The latest declarations before them ended on the rows `row` and
`row'`. -/
inductive Alike {α : Type} : Option Nat → Option Nat → List (Item α) → List (Item α) → Prop
  | nil {row row' : Option Nat} : Alike row row' [] []
  | documentation {row row' : Option Nat} {lines lines' : List DocLine}
      {items items' : List (Item α)}
      (htexts : lines'.map DocLine.text = lines.map DocLine.text)
      (hstart : startOn row' lines' = startOn row lines) (h : Alike none none items items') :
      Alike row row' (.documentation lines :: items) (.documentation lines' :: items')
  | entry {row row' : Option Nat} {decl : α} {last last' : Nat} {items items' : List (Item α)}
      (h : Alike (some last) (some last') items items') :
      Alike row row' (.entry decl last :: items) (.entry decl last' :: items')
  | blockAttribute {row row' : Option Nat} {a : Attribute} {items items' : List (Item α)}
      (h : Alike none none items items') :
      Alike row row' (.blockAttribute a :: items) (.blockAttribute a :: items')

end Outline

namespace Documentation

variable {α : Type} {row row' : Option Nat} {lines lines' : List DocLine}

theorem leading?_congr (h : lines'.map DocLine.text = lines.map DocLine.text) :
    leading? lines' = leading? lines := by
  have hempty : lines'.isEmpty = lines.isEmpty := by
    rw [← List.isEmpty_map, h, List.isEmpty_map]
  rw [leading?, leading?, hempty, joinLines, joinLines, h]

theorem split_congr (htexts : lines'.map DocLine.text = lines.map DocLine.text)
    (hstart : Outline.startOn row' lines' = Outline.startOn row lines) :
    split row' lines' = split row lines := by
  cases lines with
  | nil =>
      rw [List.map_eq_nil_iff.1 htexts]
      rfl
  | cons line rest =>
      cases lines' with
      | nil =>
          cases htexts
      | cons line' rest' =>
          have hall := leading?_congr htexts
          obtain ⟨htext, hrest⟩ := List.cons.inj htexts
          have hrow : row' = some line'.row ↔ row = some line.row := by
            simpa [Outline.startOn] using hstart
          simp only [split, hrow, htext, leading?_congr hrest, hall]

theorem placeFrom_alike {items items' : List (Item α)} (h : Outline.Alike row row' items items')
    (pending : Option String) (done : List (α × Option String)) :
    placeFrom pending row' done items' = placeFrom pending row done items := by
  induction h generalizing pending done with
  | nil =>
      rfl
  | documentation htexts hstart h ih =>
      rw [placeFrom, placeFrom, split_congr htexts hstart, ih]
  | entry h ih | blockAttribute h ih =>
      rw [placeFrom, placeFrom, ih]

end Documentation

theorem blockAttributes_alike {α : Type} {row row' : Option Nat} {items items' : List (Item α)}
    (h : Outline.Alike row row' items items') : blockAttributes items' = blockAttributes items := by
  induction h with
  | nil =>
      rfl
  | documentation htexts hstart h ih | entry h ih =>
      exact ih
  | @blockAttribute row row' a items items' h ih =>
      exact congrArg (a :: ·) ih

/-! ## Blocks -/

/-- Blocks that make the same part of a schema. -/
inductive SameBlock : Block → Block → Prop
  | documentation {lines lines' : List DocLine}
      (htexts : lines'.map DocLine.text = lines.map DocLine.text) :
      SameBlock (.documentation lines) (.documentation lines')
  | model {name : String} {items items' : List (Item FieldDecl)}
      (h : Outline.Alike none none items items') :
      SameBlock (.model name items) (.model name items')
  | enum {name : String} {items items' : List (Item ValueDecl)}
      (h : Outline.Alike none none items items') : SameBlock (.enum name items) (.enum name items')
  | config {headline headline' : String} : SameBlock (.config headline) (.config headline')
  | skipped {keyword name : String} : SameBlock (.skipped keyword name) (.skipped keyword name)

theorem Draft.addBlock_alike {b b' : Block} (h : SameBlock b b') (d : Draft) :
    d.addBlock b' = d.addBlock b := by
  cases h with
  | documentation htexts =>
      rw [addBlock, addBlock, Documentation.joinLines, Documentation.joinLines, htexts]
  | model h =>
      simp only [addBlock, Model.ofItems, Documentation.place, Documentation.placeFrom_alike h,
        blockAttributes_alike h]
  | enum h =>
      simp only [addBlock, EnumType.ofItems, Documentation.place, Documentation.placeFrom_alike h,
        blockAttributes_alike h]
  | config | skipped =>
      rfl

theorem Draft.addBlocks_alike {blocks blocks' : List Block}
    (h : List.Forall₂ SameBlock blocks blocks') (d : Draft) :
    (d.addBlocks blocks').2 = (d.addBlocks blocks).2 := by
  induction h generalizing d with
  | nil =>
      rfl
  | cons hblock h ih =>
      rw [addBlocks, addBlocks, addBlock_alike hblock]
      cases d.addBlock _ with
      | error e =>
          rfl
      | ok next =>
          exact ih next

/-- The result of an outline is decided by its draft, the notices aside. -/
theorem Schema.result_ofOutline (blocks : List Block) :
    (Schema.ofOutline blocks).result = (({} : Draft).addBlocks blocks).2.map Draft.finish := by
  rw [ofOutline]
  cases hadd : ({} : Draft).addBlocks blocks with
  | mk notices result =>
      cases result <;> rfl

theorem Schema.result_ofOutline_alike {blocks blocks' : List Block}
    (h : List.Forall₂ SameBlock blocks blocks') :
    (Schema.ofOutline blocks').result = (Schema.ofOutline blocks).result := by
  rw [result_ofOutline, result_ofOutline, Draft.addBlocks_alike h]

/-! ## Reading items -/

namespace Outline

variable {α : Type} {entry : Rule} {readEntry : Node → Except Misfit α} {n n' : Node}
  {ns ns' : List Node}

theorem rule_congr (hbare : n'.bare = n.bare) : n'.rule = n.rule := by
  rw [← Node.rule_bare, hbare, Node.rule_bare]

theorem word_congr {rule : Rule} {scan : List Char → Option Grammar.Scan}
    (hform : rule.form = .token scan) (hword : rule.isWord = true) (h : Fits (.call rule) [n])
    (hbare : n'.bare = n.bare) : word n' = word n := by
  have hrule : n.rule = rule := by
    obtain ⟨place, text, s, rest, -, hn⟩ := (Fits.token_iff hform).1 h
    cases hn
    rfl
  have hn : n.rule.isWord = true := by rw [hrule, hword]
  have hn' : n'.rule.isWord = true := by rw [rule_congr hbare, hn]
  rw [word, word, ← Node.text_bare hn, ← hbare, Node.text_bare hn']

theorem children_congr (hbare : n'.bare = n.bare) :
    n'.children.map Node.bare = n.children.map Node.bare := by
  rw [← Node.children_bare, hbare, Node.children_bare]

theorem text_readDocLine_bare (h : Fits (.call .docLine) [n]) :
    (readDocLine n.bare).text = (readDocLine n).text := by
  obtain ⟨text, hchildren, htext⟩ := h.docLine
  simp [readDocLine, hchildren, htext.text_bare_of_token rfl rfl]

theorem texts_readDocumentation_bare (h : Fits (.call .documentation) [n]) :
    (readDocumentation n.bare).map DocLine.text = (readDocumentation n).map DocLine.text := by
  simp only [readDocumentation, Node.children_bare, List.map_map]
  exact List.map_congr_left fun line hline => text_readDocLine_bare (h.documentation line hline)

/-- Two nodes that are read as the same item, but for rows. -/
inductive SameItem (entry : Rule) (readEntry : Node → Except Misfit α) (n n' : Node) : Prop
  | documentation (hrule : n.rule = .documentation) (hrule' : n'.rule = .documentation)
      (htexts : (readDocumentation n').map DocLine.text = (readDocumentation n).map DocLine.text)
  | entry {decl : α} (hrule : n.rule = entry) (hrule' : n'.rule = entry)
      (hread : readEntry n = .ok decl) (hread' : readEntry n' = .ok decl)
  | blockAttribute {a : Attribute} (hrule : n.rule = .blockAttribute)
      (hrule' : n'.rule = .blockAttribute) (hread : readAttribute n = .ok a)
      (hread' : readAttribute n' = .ok a)

theorem SameItem.of_bare {item : Rule} (R : BodyRules item entry)
    (hread : ∀ {n}, Fits (.call entry) [n] → ∃ d, readEntry n = .ok d)
    (hplain : ∀ {n}, Fits (.call entry) [n] → readEntry n.bare = readEntry n)
    (h : Fits (.call item) [n]) (h' : Fits (.call item) [n']) (hbare : n'.bare = n.bare) :
    SameItem entry readEntry n n' := by
  obtain ⟨hfits, hrule⟩ := R.fits_rule h
  obtain ⟨hfits', -⟩ := R.fits_rule h'
  rw [rule_congr hbare] at hfits'
  have hsame := rule_congr hbare
  rcases hrule with hrule | hrule | hrule
  · rw [hrule] at hfits hfits' hsame
    refine .documentation hrule hsame ?_
    rw [← texts_readDocumentation_bare hfits, ← texts_readDocumentation_bare hfits', hbare]
  · rw [hrule] at hfits hfits' hsame
    obtain ⟨d, hd⟩ := hread hfits
    refine .entry hrule hsame hd ?_
    rw [← hplain hfits', hbare, hplain hfits, hd]
  · rw [hrule] at hfits hfits' hsame
    obtain ⟨a, ha⟩ := readAttribute_of_fits rfl hfits
    refine .blockAttribute hrule hsame ha ?_
    rw [← readAttribute_bare rfl hfits', hbare, readAttribute_bare rfl hfits, ha]

/-- The nodes start with documentation on the given row. -/
def startsOn (row : Option Nat) (ns : List Node) : Bool :=
  ns.head?.any fun n => n.rule = .documentation && startOn row (readDocumentation n)

theorem startsOn_none (ns : List Node) : startsOn none ns = false := by
  cases ns with
  | nil =>
      rfl
  | cons n ns =>
      simp [startsOn, startOn]

theorem trails_eq (a b : Node) (ns : List Node) :
    trails a b = startsOn (some (lastRow a)) (b :: ns) := by
  simp only [trails, startsOn, startOn, readDocumentation, List.head?_cons, Option.any_some,
    List.head?_map, Option.any_map, Option.some.injEq]
  rfl

/-- The answers for a list of nodes are the one for its second node and those for the rest. -/
theorem startsOn_of_trailings (hlength : ns'.length = ns.length)
    (h : trailings (n' :: ns') = trailings (n :: ns)) :
    startsOn (some (lastRow n')) ns' = startsOn (some (lastRow n)) ns ∧
      trailings ns' = trailings ns := by
  cases ns with
  | nil =>
      rw [List.length_eq_zero_iff.1 hlength]
      exact ⟨rfl, rfl⟩
  | cons b ns =>
      cases ns' with
      | nil =>
          cases hlength
      | cons b' ns' =>
          obtain ⟨htrails, hrest⟩ := List.cons.inj h
          rw [← trails_eq, ← trails_eq]
          exact ⟨htrails, hrest⟩

theorem readItems_alike {item : Rule} (R : BodyRules item entry)
    (hsame : List.Forall₂ (SameItem entry readEntry) ns ns') {row row' : Option Nat}
    (hstart : startsOn row' ns' = startsOn row ns) (hrows : trailings ns' = trailings ns) :
    ∃ items items', readItems entry readEntry ns = .ok items ∧
      readItems entry readEntry ns' = .ok items' ∧ Alike row row' items items' := by
  -- Along the nodes; the row is that of the latest declaration, if nothing stands after it.
  induction hsame generalizing row row' with
  | nil =>
      exact ⟨[], [], rfl, rfl, .nil⟩
  | @cons n n' ns ns' hitem hsame ih =>
      obtain ⟨hnext, hrest⟩ := startsOn_of_trailings hsame.length_eq.symm hrows
      have hnone : startsOn none ns' = startsOn none ns := by rw [startsOn_none, startsOn_none]
      cases hitem with
      | documentation hrule hrule' htexts =>
          obtain ⟨items, items', hread, hread', halike⟩ := ih hnone hrest
          refine ⟨.documentation (readDocumentation n) :: items,
            .documentation (readDocumentation n') :: items', ?_, ?_,
            .documentation htexts ?_ halike⟩
          · simp [readItems, hrule, hread, bind, Except.bind, pure, Except.pure]
          · simp [readItems, hrule', hread', bind, Except.bind, pure, Except.pure]
          · simpa [startsOn, hrule, hrule'] using hstart
      | @entry decl hrule hrule' hdecl hdecl' =>
          obtain ⟨items, items', hread, hread', halike⟩ := ih hnext hrest
          refine ⟨.entry decl (lastRow n) :: items, .entry decl (lastRow n') :: items', ?_, ?_,
            .entry halike⟩
          · simp [readItems, hrule, R.other.1, hdecl, hread, bind, Except.bind, pure, Except.pure]
          · simp [readItems, hrule', R.other.1, hdecl', hread', bind, Except.bind, pure, Except.pure]
      | @blockAttribute a hrule hrule' ha ha' =>
          obtain ⟨items, items', hread, hread', halike⟩ := ih hnone hrest
          refine ⟨.blockAttribute a :: items, .blockAttribute a :: items', ?_, ?_,
            .blockAttribute halike⟩
          · simp [readItems, hrule, R.other.2.symm, ha, hread, bind, Except.bind, pure, Except.pure]
          · simp [readItems, hrule', R.other.2.symm, ha', hread', bind, Except.bind, pure,
              Except.pure]

theorem sameItems_of_bare {item : Rule} (R : BodyRules item entry)
    (hread : ∀ {n}, Fits (.call entry) [n] → ∃ d, readEntry n = .ok d)
    (hplain : ∀ {n}, Fits (.call entry) [n] → readEntry n.bare = readEntry n)
    (hns : ∀ n ∈ ns, Fits (.call item) [n]) (hns' : ∀ n ∈ ns', Fits (.call item) [n])
    (hbare : ns'.map Node.bare = ns.map Node.bare) :
    List.Forall₂ (SameItem entry readEntry) ns ns' := by
  induction ns generalizing ns' with
  | nil =>
      rw [List.map_eq_nil_iff.1 hbare]
      exact .nil
  | cons n ns ih =>
      cases ns' with
      | nil =>
          cases hbare
      | cons n' ns' =>
          obtain ⟨hfirst, hrest⟩ := List.cons.inj hbare
          exact .cons (.of_bare R hread hplain (hns n (by simp)) (hns' n' (by simp)) hfirst)
            (ih (fun k hk => hns k (by simp [hk])) (fun k hk => hns' k (by simp [hk])) hrest)

/-! ## Reading blocks -/

theorem fits_rule_of_topLevel (h : Fits topLevel [n]) : Fits (.call n.rule) [n] := by
  rcases Fits.topLevel_iff.1 h with h | h | h | h | h
  all_goals
    have hfits := h
    obtain ⟨place, text, cs, -, hn⟩ := (Fits.node_iff (.inl rfl)).1 h
    cases hn
    exact hfits

/-- The children of a model or an enum are its name and its members. -/
theorem readBody_alike {item : Rule} {name name' : Node} (R : BodyRules item entry)
    (make : String → List (Item α) → Block)
    (hread : ∀ {n}, Fits (.call entry) [n] → ∃ d, readEntry n = .ok d)
    (hplain : ∀ {n}, Fits (.call entry) [n] → readEntry n.bare = readEntry n)
    (hchildren : n.children = name :: ns) (hchildren' : n'.children = name' :: ns')
    (hname : Fits (.call .identifier) [name])
    (hns : ∀ n ∈ ns, Fits (.call item) [n]) (hns' : ∀ n ∈ ns', Fits (.call item) [n])
    (hbare : n'.bare = n.bare)
    (hrows : trailings n'.children.tail = trailings n.children.tail) :
    ∃ items items',
      (readItems entry readEntry ns).map (fun items => some (make (nameOf n) items))
        = .ok (some (make (nameOf n) items)) ∧
      (readItems entry readEntry ns').map (fun items => some (make (nameOf n') items))
        = .ok (some (make (nameOf n) items')) ∧ Alike none none items items' := by
  have hall := children_congr hbare
  rw [hchildren, hchildren'] at hall hrows
  obtain ⟨hfirst, hmembers⟩ := List.cons.inj hall
  have hnames : nameOf n' = nameOf n := by
    rw [nameOf_eq hchildren, nameOf_eq hchildren']
    exact word_congr rfl rfl hname hfirst
  have hstart : startsOn none ns' = startsOn none ns := by rw [startsOn_none, startsOn_none]
  obtain ⟨items, items', hitems, hitems', halike⟩ :=
    readItems_alike R (sameItems_of_bare R hread hplain hns hns' hmembers) hstart hrows
  refine ⟨items, items', ?_, ?_, halike⟩
  · rw [hitems]
    rfl
  · rw [hitems', hnames]
    rfl

theorem readBlock_alike (h : Fits topLevel [n]) (h' : Fits topLevel [n']) (hsame : SameNode n n') :
    ∃ b b', readBlock n = .ok (some b) ∧ readBlock n' = .ok (some b') ∧ SameBlock b b' := by
  have hrule' := rule_congr hsame.bare
  have hfits' := fits_rule_of_topLevel h'
  rw [hrule'] at hfits'
  rcases Fits.topLevel_iff.1 h with h | h | h | h | h
  · have hrule := h.rule_of_node (.inl rfl)
    rw [hrule] at hrule' hfits'
    refine ⟨.documentation (readDocumentation n), .documentation (readDocumentation n'), ?_, ?_,
      .documentation ?_⟩
    · rw [readBlock, hrule]
    · rw [readBlock, hrule']
    · rw [← texts_readDocumentation_bare h, ← texts_readDocumentation_bare hfits', hsame.bare]
  · obtain ⟨hrule, name, members, hchildren, hname, hmembers⟩ := h.modelBlock
    rw [hrule] at hrule' hfits'
    obtain ⟨-, name', members', hchildren', -, hmembers'⟩ := hfits'.modelBlock
    obtain ⟨items, items', hread, hread', halike⟩ := readBody_alike .model .model
      (fun h => (readField_of_fits h).imp fun _ hd => hd.1) readField_bare hchildren hchildren' hname
      hmembers hmembers' hsame.bare (hsame.rows (.inl hrule))
    exact ⟨_, _, (readBlock_model hrule hchildren).trans hread,
      (readBlock_model hrule' hchildren').trans hread', .model halike⟩
  · obtain ⟨hrule, name, members, hchildren, hname, hmembers⟩ := h.enumBlock
    rw [hrule] at hrule' hfits'
    obtain ⟨-, name', members', hchildren', -, hmembers'⟩ := hfits'.enumBlock
    obtain ⟨items, items', hread, hread', halike⟩ := readBody_alike .enum .enum
      (fun h => (readEnumValue_of_fits h).imp fun _ hd => hd.1) readEnumValue_bare hchildren hchildren' hname
      hmembers hmembers' hsame.bare (hsame.rows (.inr hrule))
    exact ⟨_, _, (readBlock_enum hrule hchildren).trans hread,
      (readBlock_enum hrule' hchildren').trans hread', .enum halike⟩
  · have hrule := h.rule_of_node (.inl rfl)
    rw [hrule] at hrule'
    exact ⟨_, _, by rw [readBlock, hrule], by rw [readBlock, hrule'], .config⟩
  · obtain ⟨hrule, keyword, name, items, hchildren, hkeyword, hname⟩ := h.skippedBlock
    rw [hrule] at hrule' hfits'
    obtain ⟨-, keyword', name', items', hchildren', -, -⟩ := hfits'.skippedBlock
    have hall := children_congr hsame.bare
    rw [hchildren, hchildren'] at hall
    obtain ⟨hbare₁, hrest⟩ := List.cons.inj hall
    obtain ⟨hbare₂, -⟩ := List.cons.inj hrest
    have hword₁ : word keyword' = word keyword :=
      word_congr rfl rfl hkeyword hbare₁
    have hword₂ : word name' = word name := word_congr rfl rfl hname hbare₂
    refine ⟨.skipped (word keyword) (word name), _, ?_, ?_, .skipped⟩
    · simp [readBlock, hrule, firstChild, hchildren, bind, Except.bind, pure, Except.pure]
    · simp [readBlock, hrule', firstChild, hchildren', hword₁, hword₂, bind, Except.bind, pure,
        Except.pure]

/-! ## Reading whole texts -/

/-- Each node is read as a block of its own. -/
def Reads (ns : List Node) (blocks : List Block) : Prop :=
  List.Forall₂ (fun n b => readBlock n = .ok (some b)) ns blocks

theorem reads_of_fits (h : ∀ n ∈ ns, Fits topLevel [n]) : ∃ blocks, Reads ns blocks := by
  induction ns with
  | nil =>
      exact ⟨[], .nil⟩
  | cons n ns ih =>
      obtain ⟨b, hb, -⟩ := readBlock_of_fits (h n (by simp))
      obtain ⟨blocks, hblocks⟩ := ih fun k hk => h k (by simp [hk])
      exact ⟨b :: blocks, .cons hb hblocks⟩

theorem readBlocks_of_reads {blocks : List Block} {stop : Node} (h : Reads ns blocks)
    (hstop : stop.rule = .endOfInput) : readBlocks (ns ++ [stop]) = .ok blocks := by
  induction h with
  | nil =>
      -- The end of the input is read as no block.
      simp [readBlocks, readBlock, hstop, bind, Except.bind, pure, Except.pure]
  | cons hb h ih =>
      simp [readBlocks, hb, ih, bind, Except.bind, pure, Except.pure]

theorem reads_alike {blocks : List Block} (hread : Reads ns blocks)
    (hns : ∀ n ∈ ns, Fits topLevel [n]) (hns' : ∀ n ∈ ns', Fits topLevel [n])
    (hsame : List.Forall₂ SameNode ns ns') :
    ∃ blocks', Reads ns' blocks' ∧ List.Forall₂ SameBlock blocks blocks' := by
  induction hsame generalizing blocks with
  | nil =>
      cases hread
      exact ⟨[], .nil, .nil⟩
  | cons hnode hsame ih =>
      obtain ⟨b, b', hb, hb', hblock⟩ :=
        readBlock_alike (hns _ (by simp)) (hns' _ (by simp)) hnode
      cases hread with
      | cons hfirst hrest =>
          rw [hfirst] at hb
          cases hb
          obtain ⟨blocks', hread', hblocks⟩ := ih hrest (fun k hk => hns k (by simp [hk]))
            (fun k hk => hns' k (by simp [hk]))
          exact ⟨b' :: blocks', .cons hb' hread', .cons hblock hblocks⟩

end Outline

theorem Grammar.Runs.fits {place : Place} {s r : List Char} {ns : List Node}
    (h : Runs topLevel place s ns r) (hs : (gap false s).2 = s) : ∀ n ∈ ns, Fits topLevel [n] := by
  obtain ⟨m, hm, rfl, -⟩ := h.firm rfl hs
  exact (Fits.many_iff Fits.single_topLevel).1 hm.derives.fits

namespace Schema

/-- The text consists of the blocks `ns`, with blanks around them. -/
def Blocks (t : List Char) (ns : List Node) : Prop :=
  Runs topLevel (({} : Place).advance (gap false t).1) (gap false t).2 ns []

variable {t t' : List Char} {ns ns' : List Node}

theorem Blocks.fits (h : Blocks t ns) : ∀ n ∈ ns, Fits topLevel [n] :=
  Grammar.Runs.fits h (Grammar.gap_idem t)

theorem Blocks.outlineOf {blocks : List Block} (h : Blocks t ns) (hread : Outline.Reads ns blocks) :
    outlineOf t = .ok blocks := by
  obtain ⟨tree, stop, hmatch, hchildren, hstop⟩ := Grammar.matchRule_of_runs h
  refine outlineOf_of_nodes hmatch ?_
  rw [Outline.ofNodes, hchildren, Outline.readBlocks_of_reads hread hstop]

/-- A text and its counterpart in another layout have the same result. -/
theorem Blocks.result_eq (h : Blocks t ns) (h' : Blocks t' ns')
    (hsame : List.Forall₂ SameNode ns ns') : (parseChars t').result = (parseChars t).result := by
  obtain ⟨blocks, hread⟩ := Outline.reads_of_fits h.fits
  obtain ⟨blocks', hread', hblocks⟩ := Outline.reads_alike hread h.fits h'.fits hsame
  rw [parseChars_of_blocks (h.outlineOf hread), parseChars_of_blocks (h'.outlineOf hread')]
  exact result_ofOutline_alike hblocks

theorem matchRule_of_result {s : Schema} (h : (parseChars t).result = .ok s) :
    ∃ nodes, matchRule .schema t = .ok nodes := by
  cases hmatch : matchRule .schema t with
  | ok nodes =>
      exact ⟨nodes, rfl⟩
  | error f =>
      rw [parseChars_of_error (outlineOf_of_failure hmatch)] at h
      cases h

/-- The string literals of a text, if the grammar accepts it. -/
def stringLiterals (t : List Char) : List Node :=
  match matchRule .schema t with
  | .ok nodes => Node.stringsAll nodes
  | .error _ => []

/-- An accepted text consists of blocks, and their string literals are those of the text. -/
theorem exists_blocks {s : Schema} (h : (parseChars t).result = .ok s) :
    ∃ ns, Blocks t ns ∧ ∀ n ∈ Node.stringsAll ns, n ∈ stringLiterals t := by
  obtain ⟨nodes, hmatch⟩ := matchRule_of_result h
  obtain ⟨tree, ns, stop, rfl, hchildren, -, hruns⟩ := Grammar.runs_of_matchRule hmatch
  refine ⟨ns, hruns, fun n hn => ?_⟩
  unfold stringLiterals
  rw [hmatch]
  change n ∈ tree.strings ++ []
  apply List.mem_append_left
  apply Node.mem_strings_of_children
  rw [hchildren, Node.stringsAll_append]
  exact List.mem_append_left _ hn

end Schema

end PrismaTypes
