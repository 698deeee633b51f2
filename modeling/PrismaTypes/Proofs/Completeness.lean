import PrismaTypes.Proofs.AttributeMeaning
import PrismaTypes.Proofs.BlockText
import PrismaTypes.Proofs.NameRules

/-!
# Every canonical text is read as what it means

The blocks of a canonical text are read back as an outline that carries their members
(`outlineOf_textOf`), and the outline becomes the schema that the blocks mean. The main result is
`parse_canonical`: whatever well-formed blocks are written is read, and read as meant.
-/

namespace PrismaTypes

open Grammar
open Outline (Value Attribute FieldDecl ValueDecl DocLine Item readField readEnumValue readBlock
  readBlocks)
open Text (Place)
open Canonical (FieldSpec Member docLines bodyText textOf docOf fieldAlone fieldMeaning modelMeaning
  enumMeaning)

/-! ## Blocks -/

/-- The items of a block carry its members. -/
structure Holds {α β : Type} (decl : α → β) (members : List (Member α)) (items : List (Item β)) :
    Prop where
  attributes : blockAttributes items = Canonical.attributesOf members
  entries : Documentation.place items = (Canonical.entries members).map (placed decl)

/-- The outline of a block, documentation apart. -/
inductive Outlines : Canonical.Block → Outline.Block → Prop
  | model {doc : List String} {name : String} {members : List (Member FieldSpec)}
      {items : List (Item FieldDecl)} (h : Holds FieldSpec.decl members items) :
      Outlines (.model doc name members) (.model name items)
  | enum {doc : List String} {name : String} {members : List (Member ValueDecl)}
      {items : List (Item ValueDecl)} (h : Holds id members items) :
      Outlines (.enum doc name members) (.enum name items)

section Block

variable {α β : Type} {rule item entry : Rule} {keyword : List Char}
  {read : Node → Except Outline.Misfit β} {write : α → List Char} {decl : α → β}
  {spelled : α → Prop}

/-- A block in front of anything: its name, then its members. -/
theorem yields_block (R : BodyRules item entry)
    (hform : rule.form = .spaced (.block (.literal keyword) (.call item))) {name : String}
    (hname : isIdentifier name.toList = true) {members : List (Member α)}
    (hmembers : ∀ m ∈ members, m.WellSpelled spelled)
    (hread : ∀ a, spelled a → ReadsEntry entry read write decl a) (t : List Char)
    (place : Place) :
    Yields (.call rule) place
      (bodyText keyword name (members.flatMap (Member.text write)) ++ t) (· = t)
      (fun ns => ∃ n first nodes items, ns = [n] ∧ n.rule = rule ∧ n.children = first :: nodes ∧
        Outline.nameOf n = name ∧ Outline.readItems entry read nodes = .ok items ∧
        Holds decl members items) := by
  have hclosed : EndsAttributes ('\x7d' :: t) := endsAttributes_of_head (by decide) (by decide)
  have hrefuses : ∀ place, Derives false (.call item) place ('\x7d' :: t) none :=
    refuses R.takes.1 (by simpa using R.opens.2) false
  -- `s` is where the members start, after the blanks of the first line.
  obtain ⟨s, blanks, hblanks, htext, hs, -, hmany⟩ :=
    yields_members R hmembers hread (before_of_solid rfl) hclosed hrefuses
  have hbody : ∀ place, Yields (.seq (.many (.call item)) (.word "\x7d")) place s (· = t) _ :=
    fun place => (hmany place).seq_anywhere fun place => .literal ['\x7d'] t
  have hbraces : ∀ place, Yields (.sequence (.word "\x7b") [.many (.call item), .word "\x7d"]) place
      (['\x7b'] ++ ('\n' :: blanks ++ s)) (· = t) _ := fun place =>
    .word_seq ['\x7b'] ('\n' :: blanks) (by simpa using ⟨rfl, by simpa using hblanks⟩) hs (hbody _)
  have hscan : scanIdentifier (name.toList ++ ([' '] ++ (['\x7b'] ++ ('\n' :: blanks ++ s)))) = _ :=
    scanIdentifier_append hname rfl
  have hnamed : ∀ place, Yields (.call .identifier) place _ _ _ := fun place => .token rfl hscan
  have hblank : Before (['\x7b'] ++ ('\n' :: blanks ++ s))
      ([' '] ++ (['\x7b'] ++ ('\n' :: blanks ++ s))) :=
    before_spaces rfl (before_of_solid rfl)
  obtain ⟨c, rest, hhead, hc, -⟩ := exists_of_isIdentifier hname
  have hsolid : (name.toList ++ ([' '] ++ (['\x7b'] ++ ('\n' :: blanks ++ s)))).head?.all isSolid
      = true := by simp [hhead, (opens_of_isWordStart hc).2.2.2]
  have hall := Yields.word_seq keyword [' '] rfl (before_of_solid hsolid)
    ((hnamed (place.advance (keyword ++ [' ']))).seq_gap hblank (hbraces _))
  have hwritten : bodyText keyword name (members.flatMap (Member.text write)) ++ t
      = keyword ++ ([' '] ++ (name.toList ++ ([' '] ++ (['\x7b'] ++ ('\n' :: blanks ++ s))))) := by
    have hinner : '\n' :: blanks ++ s
        = '\n' :: (members.flatMap (Member.text write) ++ '\x7d' :: t) := by
      rw [htext]
      rfl
    rw [hinner]
    simp [bodyText]
  rw [hwritten]
  refine (Yields.node hform hall).mono ?_
  rintro ns ⟨text, children, rfl, ⟨before, after, rfl, ⟨nodes, last, ⟨items, hitems, hcarries⟩, rfl,
    rfl⟩, rfl⟩, -⟩
  -- No declaration stands before the first member, so there is no row to keep below.
  have hplace : Documentation.place items = (Canonical.entries members).map (placed decl) := by
    simpa [Documentation.place] using hcarries.entries none [] (by simp)
  exact ⟨_, .mk .identifier (place.advance (keyword ++ [' '])) name.toList [], nodes, items, rfl,
    rfl, by simp, by simp [Outline.nameOf, Outline.word], hitems, ⟨hcarries.attributes, hplace⟩⟩

end Block

/-- A block without its documentation is read back as its outline. -/
theorem yields_definition {b : Canonical.Block} (hb : b.WellSpelled) (t : List Char)
    (place : Place) :
    Yields (.call .definition) place (b.body ++ t) (· = t)
      (fun ns => ∃ n o, ns = [n] ∧ readBlock n = .ok (some o) ∧ Outlines b o) := by
  cases b with
  | model doc name members =>
      obtain ⟨-, hname, hmembers⟩ := hb
      have hblock : Yields (.call .modelBlock) place _ _ _ :=
        yields_block .model rfl hname hmembers (fun _ hf => readsEntry_field hf) t place
      refine (Yields.silent rfl hblock.choiceFirst).mono ?_
      rintro ns ⟨n, first, nodes, items, rfl, hrule, hchildren, rfl, hitems, hholds⟩
      refine ⟨n, _, rfl, ?_, .model hholds⟩
      rw [Outline.readBlock_model hrule hchildren, hitems]
      rfl
  | enum doc name members =>
      obtain ⟨-, hname, hmembers⟩ := hb
      have hblock : Yields (.call .enumBlock) place _ _ _ :=
        yields_block .enum rfl hname hmembers (fun _ hv => readsEntry_value hv) t place
      have hmodel : Derives false (.call .modelBlock) place
          ((Canonical.Block.enum doc name members).body ++ t) none :=
        refuses rfl rfl false place
      refine (Yields.silent rfl (.choiceSecond hmodel hblock.choiceFirst)).mono ?_
      rintro ns ⟨n, first, nodes, items, rfl, hrule, hchildren, rfl, hitems, hholds⟩
      refine ⟨n, _, rfl, ?_, .enum hholds⟩
      rw [Outline.readBlock_enum hrule hchildren, hitems]
      rfl

/-! ## Texts -/

/-- Documentation lines as a block of an outline. -/
def docBlock (lines : List DocLine) : List Outline.Block :=
  if lines.isEmpty then [] else [.documentation lines]

/-- The outline of blocks, each one after its documentation. -/
inductive OutlineOf : List Canonical.Block → List Outline.Block → Prop
  | nil : OutlineOf [] []
  | cons {b : Canonical.Block} {o : Outline.Block} {blocks : List Canonical.Block}
      {rest : List Outline.Block} {lines : List DocLine} (hdoc : lines.map DocLine.text = b.doc)
      (h : Outlines b o) (hrest : OutlineOf blocks rest) :
      OutlineOf (b :: blocks) (docBlock lines ++ o :: rest)

theorem body_head (b : Canonical.Block) (t : List Char) :
    ∃ c rest, b.body ++ t = c :: rest ∧ (c = 'm' ∨ c = 'e') := by
  cases b with
  | model doc name members =>
      exact ⟨'m', _, rfl, .inl rfl⟩
  | enum doc name members =>
      exact ⟨'e', _, rfl, .inr rfl⟩

theorem yields_body {b : Canonical.Block} {blocks : List Canonical.Block} (hb : b.WellSpelled)
    {s t : List Char} (hs : Before s t)
    (hmore : ∀ place, Yields (.many topLevel) place s (Before [])
      (fun ns => ∃ outline, readBlocks ns = .ok outline ∧ OutlineOf blocks outline))
    (place : Place) :
    Yields (.many topLevel) place (b.body ++ t) (Before [])
      (fun ns => ∃ o rest, readBlocks ns = .ok (o :: rest) ∧ Outlines b o ∧
        OutlineOf blocks rest) := by
  have hdoc : Derives false (.call .documentation) place (b.body ++ t) none := by
    refine refuses rfl ?_ false place
    obtain ⟨c, rest, hhead, rfl | rfl⟩ := body_head b t <;> rw [hhead] <;> rfl
  have hone : Yields topLevel place (b.body ++ t) _ _ :=
    .choiceSecond hdoc ((yields_definition hb t place).before hs)
  refine (hone.manyStep rfl hs (hmore _)).mono ?_
  rintro ns ⟨before, after, ⟨n, o, rfl, hn, ho⟩, ⟨rest, hrest, hrests⟩, rfl⟩
  exact ⟨o, rest, by simp [readBlocks, hn, hrest, bind, Except.bind, pure, Except.pure], ho, hrests⟩

theorem yields_blocks {blocks : List Canonical.Block} (h : ∀ b ∈ blocks, b.WellSpelled) :
    ∃ s, Before s (textOf blocks) ∧ ∀ place, Yields (.many topLevel) place s (Before [])
      (fun ns => ∃ outline, readBlocks ns = .ok outline ∧ OutlineOf blocks outline) := by
  induction blocks with
  | nil =>
      refine ⟨[], rfl, fun place => ?_⟩
      have hnone : Derives false topLevel place [] none :=
        .choiceSecond (refuses rfl rfl false place) (refuses rfl rfl false place)
      refine ((Yields.manyNone hnone).before rfl).mono ?_
      rintro ns rfl
      exact ⟨[], rfl, .nil⟩
  | cons b blocks ih =>
      obtain ⟨s, hs, hmore⟩ := ih fun b' hb' => h b' (List.mem_cons_of_mem b hb')
      have hb := h b (by simp)
      have hbody := yields_body hb (before_newline hs) hmore
      obtain ⟨c, rest, hhead, hc⟩ := body_head b ('\n' :: textOf blocks)
      have hsolid : (b.body ++ '\n' :: textOf blocks).head?.all isSolid = true ∧
          (b.body ++ '\n' :: textOf blocks).head? ≠ some '/' := by
        rw [hhead]
        rcases hc with rfl | rfl <;> simp <;> decide
      have htext : textOf (b :: blocks)
          = docLines [] b.doc ++ (b.body ++ '\n' :: textOf blocks) := by
        simp [textOf, Canonical.Block.text]
      have hlines : ∀ line ∈ b.doc, Canonical.IsDocLine line := by
        cases b <;> exact hb.1
      -- A block with documentation is two things at the top level.
      cases hdoc : b.doc with
      | nil =>
          refine ⟨_, by rw [htext, hdoc]; exact before_of_solid hsolid.1, fun place =>
            (hbody place).mono ?_⟩
          rintro ns ⟨o, rest, hread, ho, hrest⟩
          have houtline : OutlineOf (b :: blocks) (docBlock [] ++ o :: rest) :=
            .cons (by rw [hdoc]; rfl) ho hrest
          exact ⟨_, hread, houtline⟩
      | cons line lines =>
          rw [hdoc] at hlines htext
          have hdocumented : ∀ place, Yields (.call .documentation) place
              (('/' :: '/' :: '/' :: ' ' :: line.toList) ++
                '\n' :: (docLines [] lines ++ (b.body ++ '\n' :: textOf blocks))) _ _ :=
            yields_documentation hlines rfl (before_of_solid hsolid.1) hsolid.2
          have hsplit : ('/' :: '/' :: '/' :: ' ' :: line.toList) ++
              '\n' :: (docLines [] lines ++ (b.body ++ '\n' :: textOf blocks))
              = (('/' :: '/' :: '/' :: ' ' :: line.toList) ++ '\n' :: docLines [] lines) ++
                (b.body ++ '\n' :: textOf blocks) := by simp
          rw [hsplit] at hdocumented
          refine ⟨_, ?_, fun place => ((hdocumented place).choiceFirst.manyStep rfl
            (before_of_solid hsolid.1) (hbody _)).mono ?_⟩
          · rw [htext, show docLines [] (line :: lines)
              = ('/' :: '/' :: '/' :: ' ' :: line.toList) ++ '\n' :: docLines [] lines by
                simp [docLines]]
            exact before_docLine _
          · rintro ns ⟨before, after, ⟨n, first, others, rfl, hrule, hn, -, hdocs⟩,
              ⟨o, rest, hread, ho, hrest⟩, rfl⟩
            have houtline : OutlineOf (b :: blocks) (docBlock (first :: others) ++ o :: rest) :=
              .cons (by rw [hdoc]; exact hdocs) ho hrest
            refine ⟨_, ?_, houtline⟩
            simp [readBlocks, readBlock, hrule, hn, hread, docBlock, bind, Except.bind, pure,
              Except.pure]

/-- The end of the input adds nothing to an outline. -/
theorem readBlocks_append_end {nodes : List Node} {outline : List Outline.Block} {stop : Node}
    (h : readBlocks nodes = .ok outline) (hstop : stop.rule = .endOfInput) :
    readBlocks (nodes ++ [stop]) = .ok outline := by
  induction nodes generalizing outline with
  | nil =>
      cases h
      simp [readBlocks, readBlock, hstop, bind, Except.bind, pure, Except.pure]
  | cons n nodes ih =>
      cases hblock : readBlock n with
      | error m =>
          simp [readBlocks, hblock, bind, Except.bind] at h
      | ok o =>
          cases hrest : readBlocks nodes with
          | error m =>
              simp [readBlocks, hblock, hrest, bind, Except.bind] at h
          | ok rest =>
              rw [List.cons_append]
              simpa [readBlocks, hblock, hrest, ih hrest, bind, Except.bind, pure, Except.pure]
                using h

/-- A canonical text has the outline of its blocks. -/
theorem outlineOf_textOf {blocks : List Canonical.Block} (h : ∀ b ∈ blocks, b.WellSpelled) :
    ∃ outline, Schema.outlineOf (textOf blocks) = .ok outline ∧ OutlineOf blocks outline := by
  obtain ⟨s, hs, hblocks⟩ := yields_blocks h
  -- The start of the input takes nothing but the blanks in front of the first block.
  have hstart : Yields .atStart {} (textOf blocks) (Before s) (· = []) := ⟨_, .atStart rfl, hs, rfl⟩
  have hend : ∀ place, Yields (.call .endOfInput) place [] (· = [])
      (fun ns => ∃ n, ns = [n] ∧ n.rule = .endOfInput) :=
    fun place => ⟨_, .spaced rfl .atEnd, rfl, _, rfl, rfl⟩
  have hschema : Yields (.call .schema) {} (textOf blocks) _ _ :=
    .node rfl (hstart.seq_anywhere fun place => (hblocks place).seq_anywhere hend)
  obtain ⟨m, d, -, text, children, hnodes, ⟨before, after, rfl, ⟨nodes, last,
    ⟨outline, hread, houtline⟩, ⟨stop, rfl, hstop⟩, rfl⟩, rfl⟩, -⟩ := hschema
  refine ⟨outline, Schema.outlineOf_of_nodes (matchRule_eq_ok_iff.2 ⟨m, d, hnodes⟩) ?_, houtline⟩
  exact readBlocks_append_end hread hstop

/-! ## Schemas -/

/-- The kind of every field before names are looked up. -/
abbrev unresolved : String → FieldKind := fun _ => .scalar

theorem ofDecl_decl (e : List String × FieldSpec) :
    { Field.ofDecl e.2.decl with documentation := docOf e.1 } = fieldAlone e := by
  rcases e with ⟨doc, ⟨name, typeName, modifier, attributes⟩⟩
  cases modifier <;>
    simp [Field.ofDecl_eq, FieldSpec.decl, Canonical.Modifier.apply, fieldAlone,
      Canonical.withAttributes]

theorem contains_flatMap_relationFrom (fields : List Field) (name : String) :
    (fields.flatMap Field.relationFrom).contains name
      = fields.any (·.relationFrom.contains name) := by
  -- Read-only fields are those that some relation of the model starts from.
  induction fields with
  | nil =>
      rfl
  | cons f fields ih =>
      simp only [List.flatMap_cons, List.contains_eq_mem, List.mem_append, List.any_cons,
        Bool.decide_or] at ih ⊢
      rw [ih]

theorem Model.assemble_of_holds {members : List (Member FieldSpec)} {items : List (Item FieldDecl)}
    (h : Holds FieldSpec.decl members items) (doc : List String) (name : String) :
    Model.assemble name (docOf doc) items = modelMeaning unresolved doc name members := by
  have hfields : (Documentation.place items).map
      (fun entry => { Field.ofDecl entry.1 with documentation := entry.2 })
      = (Canonical.entries members).map fieldAlone := by
    rw [h.entries, List.map_map]
    exact List.map_congr_left fun e _ => ofDecl_decl e
  simp only [Model.assemble, h.attributes, hfields]
  rw [Model.foldl_applyAttribute_eq _ rfl rfl rfl]
  simp only [Model.markReadOnly, modelMeaning, contains_flatMap_relationFrom]
  congr 1
  refine List.map_congr_left fun f hf => ?_
  obtain ⟨e, -, rfl⟩ := List.mem_map.1 hf
  rfl

theorem EnumType.assemble_of_holds {members : List (Member ValueDecl)}
    {items : List (Item ValueDecl)} (h : Holds id members items) (doc : List String)
    (name : String) :
    EnumType.assemble name (docOf doc) items = enumMeaning doc name members := by
  simp only [EnumType.assemble, enumMeaning, h.attributes, h.entries, mappedName?_eq, List.map_map]
  congr 1
  exact List.map_congr_left fun e _ => by simp [EnumType.memberOf, placed, mappedName?_eq]

/-- The names that a block declares. -/
def Canonical.Block.header (b : Canonical.Block) : Header :=
  ⟨b.kind, b.name, b.entryNames⟩

theorem Holds.declarations {α β : Type} {decl : α → β} {members : List (Member α)}
    {items : List (Item β)} (h : Holds decl members items) :
    Outline.declarations items = (Canonical.entries members).map (fun e => decl e.2) := by
  rw [← Documentation.map_fst_place, h.entries, List.map_map]
  rfl

theorem FieldSpec.decl_name (f : FieldSpec) : f.decl.name = f.name := by
  rcases f with ⟨name, typeName, modifier, attributes⟩
  cases modifier <;> rfl

namespace Draft

/-- The draft after one more block. -/
def withBlock (d : Draft) (b : Canonical.Block) : Draft :=
  { d with
    schema :=
      { models := d.schema.models ++ (b.model? unresolved).toList
        enums := d.schema.enums ++ b.enum?.toList }
    names := d.withName b.name b.kind
    pending := none }

theorem addBlock_of_outlines {d : Draft} {b : Canonical.Block} {o : Outline.Block}
    (h : Outlines b o) (hpending : d.pending = docOf b.doc)
    (hfault : b.header.fault? d.declared = none) :
    d.addBlock o = .ok (d.withBlock b) := by
  cases h with
  | @model doc name members items h =>
      have hnames : (Outline.declarations items).map FieldDecl.name
          = (Canonical.entries members).map (·.2.name) := by
        simp [h.declarations, Function.comp_def, FieldSpec.decl_name]
      have hnone : Header.fault? d.declared
          ⟨.model, name, (Outline.declarations items).map FieldDecl.name⟩ = none := by
        rw [hnames]
        exact hfault
      rw [addBlock_model, hnone, hpending]
      simp [withBlock, Schema.addModel, Canonical.Block.model?, Canonical.Block.enum?,
        Canonical.Block.doc, Model.assemble_of_holds h, Canonical.Block.name,
        Canonical.Block.kind]
  | @enum doc name members items h =>
      have hnames : (Outline.declarations items).map ValueDecl.name
          = (Canonical.entries members).map (·.2.name) := by
        simp [h.declarations, Function.comp_def]
      have hnone : Header.fault? d.declared
          ⟨.enum, name, (Outline.declarations items).map ValueDecl.name⟩ = none := by
        rw [hnames]
        exact hfault
      rw [addBlock_enum, hnone, hpending]
      simp [withBlock, Schema.addEnum, Canonical.Block.model?, Canonical.Block.enum?,
        Canonical.Block.doc, EnumType.assemble_of_holds h, Canonical.Block.name,
        Canonical.Block.kind]

/-- All blocks are taken, one after the other. -/
theorem addBlocks_of_outlineOf {blocks : List Canonical.Block} {outline : List Outline.Block}
    (h : OutlineOf blocks outline) (d : Draft) (hpending : d.pending = none)
    (hnames : WellNamed d.declared (blocks.map Canonical.Block.header)) :
    (d.addBlocks outline).2 = .ok (blocks.foldl withBlock d) := by
  induction h generalizing d with
  | nil =>
      rfl
  | @cons b o blocks rest lines hdoc ho hrest ih =>
      obtain ⟨hfault, hlater⟩ := wellNamed_cons_iff.1 hnames
      have hdeclared : (d.withBlock b).declared = d.declared ++ [b.header.name] := by
        simp [withBlock, declared, withName, Canonical.Block.header]
      have hmore := ih (d.withBlock b) rfl (by rw [hdeclared]; exact hlater)
      -- Documentation changes only what is pending, and the block after it uses that up.
      have hstep : ∀ d' : Draft, d'.withBlock b = d.withBlock b → d'.declared = d.declared →
          d'.pending = docOf b.doc → (d'.addBlocks (o :: rest)).2
            = .ok ((b :: blocks).foldl withBlock d) := by
        intro d' hsame hdeclared' hpending'
        rw [addBlocks, addBlock_of_outlines ho hpending' (by rw [hdeclared']; exact hfault), hsame]
        exact hmore
      cases lines with
      | nil =>
          exact hstep d rfl rfl (by rw [hpending, ← hdoc]; rfl)
      | cons line lines =>
          have hdocOf : some (Documentation.joinLines (line :: lines)) = docOf b.doc :=
            leading?_eq_docOf hdoc
          exact hstep { d with pending := some (Documentation.joinLines (line :: lines)) } rfl rfl
            hdocOf

theorem foldl_withBlock (blocks : List Canonical.Block) (d : Draft) :
    (blocks.foldl withBlock d).schema.models
        = d.schema.models ++ blocks.filterMap (Canonical.Block.model? unresolved) ∧
      (blocks.foldl withBlock d).schema.enums
        = d.schema.enums ++ blocks.filterMap Canonical.Block.enum? ∧
      (blocks.foldl withBlock d).names.declarations
        = d.names.declarations ++ blocks.map fun b => (b.name, b.kind) := by
  induction blocks generalizing d with
  | nil =>
      simp
  | cons b blocks ih =>
      obtain ⟨hmodels, henums, hnames⟩ := ih (d.withBlock b)
      rw [List.foldl_cons, hmodels, henums, hnames]
      refine ⟨?_, ?_, by simp [withBlock, withName]⟩
      · cases hb : b.model? unresolved <;> simp [withBlock, hb]
      · cases hb : b.enum? <;> simp [withBlock, hb]

end Draft

/-! ## Names looked up -/

theorem get?_declarations (blocks : List Canonical.Block) (name : String) :
    Members.get? name (blocks.map fun b => (b.name, b.kind))
      = (blocks.find? (·.name = name)).map Canonical.Block.kind := by
  induction blocks with
  | nil =>
      rfl
  | cons b blocks ih =>
      by_cases hname : b.name = name <;> simp [Members.get?, hname, ih]

/-- A scalar's name is reserved, so no block has it. -/
theorem kindOf_eq_kindIn {blocks : List Canonical.Block} {d : Draft}
    (hnames : d.names.declarations = blocks.map fun b => (b.name, b.kind))
    (hfree : ∀ b ∈ blocks, isReserved b.name = false) (f : Field) :
    d.kindOf f = Canonical.kindIn blocks f.typeName := by
  simp only [Draft.kindOf, Namespace.resolve, Namespace.get?, hnames, get?_declarations,
    Canonical.kindIn, Option.map_map]
  -- Scalars are looked up first, blocks only after them.
  by_cases hscalar : (Scalar.ofKeyword? f.typeName).isSome = true
  · have hnone : blocks.find? (·.name = f.typeName) = none := by
      refine List.find?_eq_none.2 fun b hb hname => ?_
      have hreserved := hfree b hb
      rw [of_decide_eq_true hname] at hreserved
      simp [isReserved, hscalar] at hreserved
    simp [hscalar, hnone]
  · simp [hscalar, Function.comp_def]

theorem resolveField_meaning {d : Draft} {kind : String → FieldKind}
    (hkind : ∀ f : Field, d.kindOf f = kind f.typeName) (model : String) (fields : List Field)
    (f : Field) :
    d.resolveField model (fieldMeaning unresolved model fields f)
      = fieldMeaning kind model fields f := by
  simp only [Draft.resolveField, hkind, fieldMeaning, reduceCtorEq, if_false]
  congr 1
  -- Only relations to models get a name of their own.
  by_cases hobject : kind f.typeName = .object
  · cases f.relationName <;> simp [hobject]
  · simp [hobject]

theorem resolveModel_meaning {d : Draft} {kind : String → FieldKind}
    (hkind : ∀ f : Field, d.kindOf f = kind f.typeName) (doc : List String) (name : String)
    (members : List (Member FieldSpec)) :
    d.resolveModel (modelMeaning unresolved doc name members)
      = modelMeaning kind doc name members := by
  simp only [Draft.resolveModel, modelMeaning, List.map_map, Function.comp_def,
    resolveField_meaning hkind]

theorem finish_eq_meaning {blocks : List Canonical.Block} {d : Draft}
    (hmodels : d.schema.models = blocks.filterMap (Canonical.Block.model? unresolved))
    (henums : d.schema.enums = blocks.filterMap Canonical.Block.enum?)
    (hkind : ∀ f : Field, d.kindOf f = Canonical.kindIn blocks f.typeName) :
    d.finish = Canonical.meaning blocks := by
  have hresolved : (blocks.filterMap (Canonical.Block.model? unresolved)).map d.resolveModel
      = blocks.filterMap (Canonical.Block.model? (Canonical.kindIn blocks)) := by
    rw [List.map_filterMap]
    refine List.filterMap_congr fun b _ => ?_
    cases b with
    | model doc name members =>
        simp [Canonical.Block.model?, resolveModel_meaning hkind]
    | enum doc name members =>
        rfl
  simp [Draft.finish, Canonical.meaning, hmodels, henums, hresolved]

/-- Whatever is written canonically is read, and read as meant. -/
theorem parse_canonical (blocks : List Canonical.Block) (h : Canonical.WellFormed blocks) :
    (Schema.parse (Canonical.print blocks)).result = .ok (Canonical.meaning blocks) := by
  obtain ⟨outline, houtline, hblocks⟩ := outlineOf_textOf h.spelled
  have hnames : WellNamed ({} : Draft).declared (blocks.map Canonical.Block.header) := by
    refine ⟨?_, ?_, ?_, by simp [Draft.declared]⟩
    · simpa [Canonical.Block.header] using h.entries
    · simpa [Canonical.Block.header] using h.free
    · simpa [Canonical.Block.header, Function.comp_def] using h.distinct
  have hadd := Draft.addBlocks_of_outlineOf hblocks {} rfl hnames
  obtain ⟨hmodels, henums, hdeclared⟩ := Draft.foldl_withBlock blocks {}
  have hfinish := finish_eq_meaning hmodels henums (kindOf_eq_kindIn hdeclared h.free)
  have hparse : Schema.parse (Canonical.print blocks) = Schema.ofOutline outline := by
    rw [Schema.parse, Canonical.print, String.toList_ofList]
    exact Schema.parseChars_of_blocks houtline
  rw [hparse, Schema.ofOutline]
  cases hrun : ({} : Draft).addBlocks outline with
  | mk notices result =>
      rw [hrun] at hadd
      subst hadd
      simp [hfinish]

/-- Documentation, a text with all that has to be escaped, and arguments inside arguments. -/
def Canonical.tagged : List Canonical.Block :=
  [.model ["A post.", ""] "Post"
    [.entry ["kept in order"] ⟨"tags", "Tag", .list,
      [⟨"default", [(none, .list [.path "a.NEWS", .call "f" [(some "n", .number "-1.5")],
        .text "x\"\\\ny"])]⟩]⟩,
     .blockAttribute ⟨"map", [(some "on", .boolean true)]⟩],
   .enum [] "Tag" [.entry [] ⟨"NEWS", []⟩]]

theorem parse_canonical_tagged :
    Canonical.WellFormed Canonical.tagged ∧
      (Schema.parse (Canonical.print Canonical.tagged)).result
        = .ok (Canonical.meaning Canonical.tagged) := by
  have hpath : IsDottedName (['a'] ++ '.' :: ['N', 'E', 'W', 'S']) :=
    .dotted (by decide) (.single (by decide))
  have hboolean : NoBoolean "a.NEWS".toList := by
    intro b
    cases b <;> decide
  have hnumber : IsNumberLiteral ('-' :: (['1'] ++ '.' :: ['5'])) :=
    .negative (.fraction (by decide) (by decide))
  have hdoc : ∀ line ∈ ["A post.", "", "kept in order"], Canonical.IsDocLine line := by
    simp only [List.forall_mem_cons]
    exact ⟨⟨by decide, by decide⟩, ⟨by decide, by decide⟩, ⟨by decide, by decide⟩, by simp⟩
  have hfield : FieldSpec.WellSpelled ⟨"tags", "Tag", .list,
      [⟨"default", [(none, .list [.path "a.NEWS", .call "f" [(some "n", .number "-1.5")],
        .text "x\"\\\ny"])]⟩]⟩ := by
    refine ⟨by decide, by decide, List.forall_mem_singleton.2 ⟨.single (by decide), ?_⟩⟩
    simp only [Value.ArgsWellSpelled, Value.WellSpelled, Value.ItemsWellSpelled]
    exact ⟨by simp, ⟨⟨hpath, hboolean⟩, ⟨.single (by decide), by simp; decide, hnumber, trivial⟩,
      trivial, trivial⟩, trivial⟩
  have hwell : Canonical.WellFormed Canonical.tagged := by
    refine ⟨?_, by decide, by decide, by decide⟩
    refine List.forall_mem_cons.2 ⟨⟨?_, by decide, ?_⟩, List.forall_mem_singleton.2
      ⟨by simp, by decide, List.forall_mem_singleton.2 ⟨by simp, by decide, by simp⟩⟩⟩
    · intro line hline
      exact hdoc line (by simp only [List.mem_cons, List.not_mem_nil, or_false] at hline ⊢; tauto)
    · refine List.forall_mem_cons.2 ⟨⟨fun line hline => hdoc line (by simp_all), hfield⟩,
        List.forall_mem_singleton.2 ⟨.single (by decide), ?_⟩⟩
      simp only [Value.ArgsWellSpelled, Value.WellSpelled]
      exact ⟨by simp; decide, trivial, trivial⟩
  exact ⟨hwell, parse_canonical _ hwell⟩

end PrismaTypes
