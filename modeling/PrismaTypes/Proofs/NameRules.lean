import PrismaTypes.Proofs.Assembly
import PrismaTypes.Proofs.NamespaceRuns

/-!
# The rules for names

A model or enum block declares its own name and the names of its entries; `Header` keeps just
these. Three rules decide whether a list of headers is acceptable:

* entry names are pairwise distinct within a block;
* block names are not reserved;
* block names are pairwise distinct, models and enums together.

`Header.Refused` says which rule a block breaks first and how that is reported, and
`faultOf?` walks through the headers as the blocks are taken (`Draft.addBlocks_snd`). The main
result describes the outcome of every text that the grammar accepts by the headers of its tree.
-/

namespace PrismaTypes

open Grammar (Node Rule matchRule)
open Outline (FieldDecl ValueDecl Item Block declarations nameOf Describes)

/-! ## Headers -/

/-- The names that a model or enum block declares. -/
structure Header where
  kind : Declaration
  name : String
  entries : List String
  deriving DecidableEq, Repr

/-- What an entry of the block is called in reports. -/
def Declaration.entryKind : Declaration → NameKind
  | model => .field
  | enum => .enumValue

namespace Header

/-- Why a block is refused after blocks with the names `earlier`. A repeated entry comes before
the block's own name, and a reserved name before a repeated one. -/
inductive Refused (earlier : List String) (h : Header) : SchemaError → Prop
  | entry {item : String} (hrepeat : FirstRepeat h.entries item) :
      Refused earlier h (.duplicate h.kind.entryKind (h.name ++ "." ++ item))
  | reserved (hentries : h.entries.Nodup) (hreserved : isReserved h.name = true) :
      Refused earlier h (.reserved h.kind.nameKind h.name)
  | repeated (hentries : h.entries.Nodup) (hreserved : isReserved h.name = false)
      (hearlier : h.name ∈ earlier) : Refused earlier h (.duplicate h.kind.nameKind h.name)

/-- The error for a block after blocks with the names `earlier`. -/
def fault? (earlier : List String) (h : Header) : Option SchemaError :=
  match firstRepeated? [] h.entries with
  | some item => some (.duplicate h.kind.entryKind (h.name ++ "." ++ item))
  | none =>
      if isReserved h.name then some (.reserved h.kind.nameKind h.name)
      else if h.name ∈ earlier then some (.duplicate h.kind.nameKind h.name)
      else none

variable {earlier : List String} {h : Header}

theorem fault?_eq_none_iff :
    h.fault? earlier = none ↔
      h.entries.Nodup ∧ isReserved h.name = false ∧ h.name ∉ earlier := by
  rw [← firstRepeated?_nil_eq_none_iff, fault?]
  cases firstRepeated? [] h.entries with
  | some item =>
      simp
  | none =>
      by_cases hreserved : isReserved h.name = true <;> simp [hreserved]

/-- What the checks find is a reason to refuse the block. -/
theorem refused_of_fault? {e : SchemaError} (he : h.fault? earlier = some e) :
    h.Refused earlier e := by
  unfold fault? at he
  split at he
  · rename_i item hitem
    cases he
    exact .entry (firstRepeated?_nil_eq_some_iff.1 hitem)
  · rename_i hnone
    -- Distinct entries leave the block's own name as the only thing to refuse.
    have hentries : h.entries.Nodup := firstRepeated?_nil_eq_none_iff.1 hnone
    split at he
    · rename_i hreserved
      cases he
      exact .reserved hentries hreserved
    · rename_i hfree
      split at he
      · rename_i hearlier
        cases he
        exact .repeated hentries (by simpa using hfree) hearlier
      · cases he

/-- The reasons exclude each other, so each of them is found. -/
theorem fault?_of_refused {e : SchemaError} (he : h.Refused earlier e) :
    h.fault? earlier = some e := by
  cases he with
  | entry hrepeat =>
      rw [fault?, firstRepeated?_nil_eq_some_iff.2 hrepeat]
  | reserved hentries hreserved =>
      rw [fault?, firstRepeated?_nil_eq_none_iff.2 hentries]
      exact if_pos hreserved
  | repeated hentries hfree hearlier =>
      rw [fault?, firstRepeated?_nil_eq_none_iff.2 hentries]
      simp [hfree, hearlier]

end Header

/-! ## Lists of headers -/

/-- All three rules hold for blocks that follow blocks with the names `earlier`. -/
structure WellNamed (earlier : List String) (headers : List Header) : Prop where
  entries : ∀ h ∈ headers, h.entries.Nodup
  free : ∀ h ∈ headers, isReserved h.name = false
  distinct : (headers.map Header.name).Nodup
  fresh : ∀ h ∈ headers, h.name ∉ earlier

/-- The error for the first block that breaks a rule. -/
def faultOf? (earlier : List String) : List Header → Option SchemaError
  | [] => none
  | h :: headers =>
      match h.fault? earlier with
      | some e => some e
      | none => faultOf? (earlier ++ [h.name]) headers

theorem wellNamed_cons_iff {earlier : List String} {h : Header} {headers : List Header} :
    WellNamed earlier (h :: headers) ↔
      h.fault? earlier = none ∧ WellNamed (earlier ++ [h.name]) headers := by
  rw [Header.fault?_eq_none_iff]
  constructor
  · intro hall
    -- For the later blocks the first name becomes an earlier one.
    have hname : h.name ∉ headers.map Header.name := (List.nodup_cons.1 hall.distinct).1
    refine ⟨⟨hall.entries h (by simp), hall.free h (by simp), hall.fresh h (by simp)⟩, ?_⟩
    refine ⟨fun k hk => hall.entries k (by simp [hk]), fun k hk => hall.free k (by simp [hk]),
      (List.nodup_cons.1 hall.distinct).2, fun k hk hmem => ?_⟩
    rcases List.mem_append.1 hmem with hmem | hmem
    · exact hall.fresh k (by simp [hk]) hmem
    · rw [← List.mem_singleton.1 hmem] at hname
      exact hname (List.mem_map_of_mem hk)
  · rintro ⟨⟨hentries, hfree, hfresh⟩, hall⟩
    refine ⟨?_, ?_, ?_, ?_⟩
    · intro k hk
      rcases List.mem_cons.1 hk with rfl | hk
      · exact hentries
      · exact hall.entries k hk
    · intro k hk
      rcases List.mem_cons.1 hk with rfl | hk
      · exact hfree
      · exact hall.free k hk
    · refine List.nodup_cons.2 ⟨fun hmem => ?_, hall.distinct⟩
      obtain ⟨k, hk, hname⟩ := List.mem_map.1 hmem
      exact hall.fresh k hk (by simp [hname])
    · intro k hk
      rcases List.mem_cons.1 hk with rfl | hk
      · exact hfresh
      · exact fun hmem => hall.fresh k hk (by simp [hmem])

theorem faultOf?_eq_none_iff {earlier : List String} {headers : List Header} :
    faultOf? earlier headers = none ↔ WellNamed earlier headers := by
  induction headers generalizing earlier with
  | nil =>
      simp only [faultOf?, true_iff]
      exact ⟨by simp, by simp, by simp, by simp⟩
  | cons h headers ih =>
      rw [wellNamed_cons_iff, ← ih, faultOf?]
      cases h.fault? earlier <;> simp

/-- The error is that of the first block that breaks a rule, given the blocks before it. -/
theorem faultOf?_eq_some_iff {earlier : List String} {headers : List Header} {e : SchemaError} :
    faultOf? earlier headers = some e ↔
      ∃ before h after, headers = before ++ h :: after ∧ WellNamed earlier before ∧
        h.Refused (earlier ++ before.map Header.name) e := by
  induction headers generalizing earlier with
  | nil =>
      simp [faultOf?]
  | cons k headers ih =>
      cases hfault : k.fault? earlier with
      -- The first block is refused, so no block stands before the refused one.
      | some e' =>
          simp only [faultOf?, hfault, Option.some.injEq]
          constructor
          · rintro rfl
            refine ⟨[], k, headers, rfl, faultOf?_eq_none_iff.1 rfl, ?_⟩
            simpa using Header.refused_of_fault? hfault
          · rintro ⟨before, h, after, heq, hbefore, hrefused⟩
            cases before with
            | nil =>
                cases heq
                have hsome := Header.fault?_of_refused hrefused
                simpa [hfault] using hsome
            | cons b before =>
                cases heq
                rw [(wellNamed_cons_iff.1 hbefore).1] at hfault
                cases hfault
      -- The first block is fine and joins the blocks before the refused one.
      | none =>
          simp only [faultOf?, hfault, ih]
          constructor
          · rintro ⟨before, h, after, rfl, hbefore, hrefused⟩
            refine ⟨k :: before, h, after, rfl, wellNamed_cons_iff.2 ⟨hfault, hbefore⟩, ?_⟩
            simpa using hrefused
          · rintro ⟨before, h, after, heq, hbefore, hrefused⟩
            cases before with
            | nil =>
                cases heq
                have hsome := Header.fault?_of_refused hrefused
                simp [hfault] at hsome
            | cons b before =>
                cases heq
                refine ⟨before, h, after, rfl, (wellNamed_cons_iff.1 hbefore).2, ?_⟩
                simpa using hrefused

/-! ## Taking blocks -/

/-- The header of a model or enum block. -/
def Outline.Block.header? : Block → Option Header
  | .model name items => some ⟨.model, name, (declarations items).map FieldDecl.name⟩
  | .enum name items => some ⟨.enum, name, (declarations items).map ValueDecl.name⟩
  | _ => none

theorem checkNames_eq (kind : NameKind) (block : String) (names : List String) :
    checkNames kind block names =
      match firstRepeated? [] names with
      | some item => .error (.duplicate kind (block ++ "." ++ item))
      | none => .ok () := rfl

namespace Draft

/-- The names declared so far, in order. -/
def declared (d : Draft) : List String :=
  d.names.declarations.map Prod.fst

/-- The namespace with one more name. -/
def withName (d : Draft) (name : String) (kind : Declaration) : Namespace :=
  ⟨d.names.declarations ++ [(name, kind)]⟩

theorem declare_eq (d : Draft) (name : String) (kind : Declaration) :
    d.names.declare name kind =
      if isReserved name then .error (.reserved kind.nameKind name)
      else if name ∈ d.declared then .error (.duplicate kind.nameKind name)
      else .ok (d.withName name kind) :=
  Namespace.declare_eq d.names ⟨name, kind⟩

/-- Checking the entries of a block and then declaring its name finds what is wrong with the
block. -/
theorem check_declare_eq {α : Type} (d : Draft) (h : Header) (x : α)
    (f : α → Namespace → Draft) :
    (do
      let y ← (checkNames h.kind.entryKind h.name h.entries).map fun _ => x
      let names ← d.names.declare h.name h.kind
      return f y names) =
      match h.fault? d.declared with
      | some e => .error e
      | none => .ok (f x (d.withName h.name h.kind)) := by
  simp only [checkNames_eq, Header.fault?, declare_eq]
  cases firstRepeated? [] h.entries with
  | some item =>
      rfl
  | none =>
      by_cases hreserved : isReserved h.name = true
      · simp [hreserved, Except.map, bind, Except.bind]
      · by_cases hdeclared : h.name ∈ d.declared <;>
          simp [hreserved, hdeclared, Except.map, bind, Except.bind, pure, Except.pure]

theorem addBlock_model (d : Draft) (name : String) (items : List (Item FieldDecl)) :
    d.addBlock (.model name items) =
      match Header.fault? d.declared ⟨.model, name, (declarations items).map FieldDecl.name⟩ with
      | some e => .error e
      | none => .ok { d with
          schema := d.schema.addModel (Model.assemble name d.pending items)
          names := d.withName name .model
          pending := none } := by
  rw [addBlock, Model.ofItems_eq]
  exact d.check_declare_eq ⟨.model, name, (declarations items).map FieldDecl.name⟩
    (Model.assemble name d.pending items)
    fun model names => { d with schema := d.schema.addModel model, names, pending := none }

theorem addBlock_enum (d : Draft) (name : String) (items : List (Item ValueDecl)) :
    d.addBlock (.enum name items) =
      match Header.fault? d.declared ⟨.enum, name, (declarations items).map ValueDecl.name⟩ with
      | some e => .error e
      | none => .ok { d with
          schema := d.schema.addEnum (EnumType.assemble name d.pending items)
          names := d.withName name .enum
          pending := none } := by
  rw [addBlock, EnumType.ofItems_eq]
  exact d.check_declare_eq ⟨.enum, name, (declarations items).map ValueDecl.name⟩
    (EnumType.assemble name d.pending items)
    fun enum names => { d with schema := d.schema.addEnum enum, names, pending := none }

theorem eq_of_fault? {fault? : Option SchemaError} {d d' : Draft}
    (h : (match fault? with
      | some e => .error e
      | none => .ok d : Except SchemaError Draft) = .ok d') : fault? = none ∧ d' = d := by
  cases fault? with
  | some e =>
      cases h
  | none =>
      cases h
      exact ⟨rfl, rfl⟩

/-- A model that is taken has no fault. -/
theorem eq_of_addBlock_model {d d' : Draft} {name : String} {items : List (Item FieldDecl)}
    (h : d.addBlock (.model name items) = .ok d') :
    Header.fault? d.declared ⟨.model, name, (declarations items).map FieldDecl.name⟩ = none ∧
      d' = { d with
        schema := d.schema.addModel (Model.assemble name d.pending items)
        names := d.withName name .model
        pending := none } := by
  rw [addBlock_model] at h
  exact eq_of_fault? h

/-- An enum that is taken has no fault. -/
theorem eq_of_addBlock_enum {d d' : Draft} {name : String} {items : List (Item ValueDecl)}
    (h : d.addBlock (.enum name items) = .ok d') :
    Header.fault? d.declared ⟨.enum, name, (declarations items).map ValueDecl.name⟩ = none ∧
      d' = { d with
        schema := d.schema.addEnum (EnumType.assemble name d.pending items)
        names := d.withName name .enum
        pending := none } := by
  rw [addBlock_enum] at h
  exact eq_of_fault? h

/-- The fault of a block, if the block has a header. -/
def blockFault? (d : Draft) (b : Block) : Option SchemaError :=
  b.header?.bind (Header.fault? d.declared)

/-- A block is refused with its fault and taken without one. -/
theorem addBlock_eq_error_iff {d : Draft} {b : Block} {e : SchemaError} :
    d.addBlock b = .error e ↔ d.blockFault? b = some e := by
  cases b with
  | documentation lines | config headline | skipped keyword name =>
      simp [addBlock, blockFault?, Block.header?]
  | model name items | enum name items =>
      simp only [addBlock_model, addBlock_enum, blockFault?, Block.header?, Option.bind_some]
      split <;> simp_all

end Draft

/-- The header of a finished model. -/
def Header.ofModel (m : Model) : Header :=
  ⟨.model, m.name, m.fields.map Field.name⟩

/-- The header of a finished enum. -/
def Header.ofEnum (e : EnumType) : Header :=
  ⟨.enum, e.name, e.members.map EnumMember.name⟩

/-- The headers of a schema's models and enums, as blocks declare them. -/
def Schema.Declares (s : Schema) (headers : List Header) : Prop :=
  s.models.map Header.ofModel = headers.filter (·.kind = .model) ∧
    s.enums.map Header.ofEnum = headers.filter (·.kind = .enum)

namespace Draft

/-- A block that is taken adds its header to the declared names and to the schema. -/
theorem addBlock_eq_ok {d d' : Draft} {b : Block} {headers : List Header}
    (h : d.addBlock b = .ok d') (hdeclares : d.schema.Declares headers) :
    d.blockFault? b = none ∧ d'.declared = d.declared ++ b.header?.toList.map Header.name ∧
      d'.schema.Declares (headers ++ b.header?.toList) := by
  cases b with
  | documentation lines | config headline | skipped keyword name =>
      cases h
      exact ⟨rfl, by simp [declared, Block.header?], by simpa [Block.header?] using hdeclares⟩
  | model name items =>
      obtain ⟨hfault, rfl⟩ := eq_of_addBlock_model h
      refine ⟨hfault, by simp [declared, withName, Block.header?], ?_, ?_⟩
      · simp [Schema.addModel, hdeclares.1, Block.header?, Header.ofModel, Model.names_assemble]
      · simp [Schema.addModel, hdeclares.2, Block.header?]
  | enum name items =>
      obtain ⟨hfault, rfl⟩ := eq_of_addBlock_enum h
      refine ⟨hfault, by simp [declared, withName, Block.header?], ?_, ?_⟩
      · simp [Schema.addEnum, hdeclares.1, Block.header?]
      · simp [Schema.addEnum, hdeclares.2, Block.header?, Header.ofEnum,
          EnumType.names_assemble]

/-- A run over blocks takes the first one and goes on from there. -/
theorem exists_of_addBlocks_cons {d d' : Draft} {b : Block} {blocks : List Block}
    (h : (d.addBlocks (b :: blocks)).2 = .ok d') :
    ∃ next, d.addBlock b = .ok next ∧ (next.addBlocks blocks).2 = .ok d' := by
  rw [addBlocks] at h
  cases hb : d.addBlock b with
  | error e =>
      rw [hb] at h
      cases h
  | ok next =>
      rw [hb] at h
      exact ⟨next, rfl, h⟩

/-- All blocks are taken, or the first fault is reported. -/
theorem addBlocks_snd (d : Draft) (blocks : List Block) {headers : List Header}
    (hdeclares : d.schema.Declares headers) :
    match (d.addBlocks blocks).2 with
    | .error e => faultOf? d.declared (blocks.filterMap Block.header?) = some e
    | .ok d' => faultOf? d.declared (blocks.filterMap Block.header?) = none ∧
        d'.schema.Declares (headers ++ blocks.filterMap Block.header?) := by
  induction blocks generalizing d headers with
  | nil =>
      simpa [addBlocks, faultOf?] using hdeclares
  | cons b blocks ih =>
      cases hb : d.addBlock b with
      | error e =>
          have hfault := addBlock_eq_error_iff.1 hb
          obtain ⟨h, hh, hfault⟩ := Option.bind_eq_some_iff.1 hfault
          simp [addBlocks, hb, hh, faultOf?, hfault]
      | ok next =>
          obtain ⟨hfault, hdeclared, hnext⟩ := addBlock_eq_ok hb hdeclares
          have hrest := ih next hnext
          simp only [addBlocks, hb]
          -- A block without a header declares nothing and is skipped on both sides.
          cases hh : b.header? with
          | none =>
              simpa [List.filterMap_cons, hh, hdeclared] using hrest
          | some h =>
              have hnone : h.fault? d.declared = none := by
                simpa [blockFault?, hh] using hfault
              simpa [List.filterMap_cons, hh, faultOf?, hnone, hdeclared] using hrest

end Draft

/-! ## Texts -/

/-- The header of a model or enum node. -/
def headerOfNode? (n : Node) : Option Header :=
  match n.rule with
  | .modelBlock => some ⟨.model, nameOf n, (n.children.filter (·.rule = .field)).map nameOf⟩
  | .enumBlock => some ⟨.enum, nameOf n, (n.children.filter (·.rule = .enumValue)).map nameOf⟩
  | _ => none

/-- The headers in a tree of a matched schema, in the order of the text. -/
def headersOf (nodes : List Node) : List Header :=
  nodes.flatMap fun tree => tree.children.filterMap headerOfNode?

theorem map_eq_map_of_forall₂ {α β γ : Type} {f : α → γ} {g : β → γ} {r : α → β → Prop}
    (hr : ∀ a b, r a b → g b = f a) {as : List α} {bs : List β} (h : List.Forall₂ r as bs) :
    bs.map g = as.map f := by
  induction h with
  | nil =>
      rfl
  | cons hab _ ih =>
      simp [hr _ _ hab, ih]

theorem Outline.Describes.header? {b : Block} {n : Node} (h : Describes b n) :
    b.header? = headerOfNode? n := by
  cases h with
  | documentation hrule | config hrule | skipped hrule =>
      simp [Block.header?, headerOfNode?, hrule]
  | @model items n hrule hitems =>
      have hnames : (declarations items).map FieldDecl.name
          = (n.children.filter (·.rule = .field)).map nameOf :=
        map_eq_map_of_forall₂ (fun _ _ h => h.1) hitems
      simp [Block.header?, headerOfNode?, hrule, hnames]
  | @enum items n hrule hitems =>
      have hnames : (declarations items).map ValueDecl.name
          = (n.children.filter (·.rule = .enumValue)).map nameOf :=
        map_eq_map_of_forall₂ (fun _ _ h => h) hitems
      simp [Block.header?, headerOfNode?, hrule, hnames]

theorem filterMap_header? {blocks : List Block} {nodes : List Node}
    (h : List.Forall₂ Describes blocks nodes) :
    blocks.filterMap Block.header? = nodes.filterMap headerOfNode? := by
  induction h with
  | nil =>
      rfl
  | cons hdescribes _ ih =>
      rw [List.filterMap_cons, List.filterMap_cons, hdescribes.header?, ih]

/-- The outline of a matched text has the headers of its tree. -/
theorem outlineOf_of_matchRule {input : List Char} {nodes : List Node}
    (h : matchRule .schema input = .ok nodes) :
    ∃ blocks, Schema.outlineOf input = .ok blocks ∧
      blocks.filterMap Block.header? = headersOf nodes := by
  obtain ⟨tree, inner, stop, blocks, rfl, hchildren, hstop, hblocks, hall⟩ :=
    Outline.ofNodes_of_matchRule h (Text.byteLength input)
  refine ⟨blocks, Schema.outlineOf_of_nodes h hblocks, ?_⟩
  simp [headersOf, hchildren, filterMap_header? hall, headerOfNode?, hstop]

/-- Renaming kinds and relations leaves the headers alone. -/
theorem Draft.declares_finish {d : Draft} {headers : List Header}
    (h : d.schema.Declares headers) : d.finish.Declares headers := by
  refine ⟨?_, h.2⟩
  rw [← h.1]
  simp [Draft.finish, Draft.resolveModel, Draft.resolveField, Header.ofModel, Function.comp_def]

/-- What becomes of a text that the grammar accepts is decided by the names it declares. -/
theorem result_of_matchRule {text : String} {nodes : List Node}
    (h : matchRule .schema text.toList = .ok nodes) :
    (∀ e, (Schema.parse text).result = .error e → faultOf? [] (headersOf nodes) = some e) ∧
    (∀ s, (Schema.parse text).result = .ok s →
      faultOf? [] (headersOf nodes) = none ∧ s.Declares (headersOf nodes)) := by
  obtain ⟨blocks, hblocks, hheaders⟩ := outlineOf_of_matchRule h
  have hempty : ({} : Draft).schema.Declares [] := ⟨rfl, rfl⟩
  have hrun := Draft.addBlocks_snd {} blocks hempty
  rw [hheaders, List.nil_append, show ({} : Draft).declared = [] from rfl] at hrun
  have hparse : Schema.parse text = Schema.ofOutline blocks := Schema.parseChars_of_blocks hblocks
  simp only [hparse, Schema.ofOutline]
  cases hadd : ({} : Draft).addBlocks blocks with
  | mk notices result =>
      rw [hadd] at hrun
      cases result with
      | error e =>
          simpa using hrun
      | ok d =>
          have hnone : faultOf? [] (headersOf nodes) = none := hrun.1
          have hdeclares : d.schema.Declares (headersOf nodes) := hrun.2
          simpa [hnone] using Draft.declares_finish hdeclares

/-- A text that the grammar accepts is read as a schema exactly when no model or enum has a reserved
name, their names are pairwise distinct, and the entries of each are. The schema then declares the
names of the text in their order; otherwise the first block that breaks a rule decides the error. -/
theorem parse_decided_by_names (text : String) (nodes : List Node)
    (h : matchRule .schema text.toList = .ok nodes) :
    ((∃ s, (Schema.parse text).result = .ok s) ↔
      (∀ k ∈ headersOf nodes, isReserved k.name = false) ∧
        ((headersOf nodes).map Header.name).Nodup ∧ ∀ k ∈ headersOf nodes, k.entries.Nodup) ∧
    (∀ s, (Schema.parse text).result = .ok s → s.Declares (headersOf nodes)) ∧
    (∀ e, (Schema.parse text).result = .error e ↔
      ∃ before k after, headersOf nodes = before ++ k :: after ∧
        ((∀ b ∈ before, isReserved b.name = false) ∧ (before.map Header.name).Nodup ∧
          ∀ b ∈ before, b.entries.Nodup) ∧
        k.Refused (before.map Header.name) e) := by
  obtain ⟨herror, hok⟩ := result_of_matchRule h
  -- With no earlier names, freshness says nothing.
  have hrules : ∀ headers : List Header, WellNamed [] headers ↔
      (∀ k ∈ headers, isReserved k.name = false) ∧ (headers.map Header.name).Nodup ∧
        ∀ k ∈ headers, k.entries.Nodup :=
    fun headers => ⟨fun w => ⟨w.free, w.distinct, w.entries⟩,
      fun ⟨hfree, hdistinct, hentries⟩ => ⟨hentries, hfree, hdistinct, by simp⟩⟩
  refine ⟨?_, fun s hs => (hok s hs).2, fun e => ?_⟩
  · rw [← hrules, ← faultOf?_eq_none_iff]
    cases hparse : (Schema.parse text).result with
    | error e =>
        simp [herror e hparse]
    | ok s =>
        simp [(hok s hparse).1]
  · have hfault : faultOf? [] (headersOf nodes) = some e ↔ _ := faultOf?_eq_some_iff
    simp only [List.nil_append, hrules] at hfault
    rw [← hfault]
    cases hparse : (Schema.parse text).result with
    | error e' =>
        simp [herror e' hparse]
    | ok s =>
        simp [(hok s hparse).1]

/-- The skipped block does not count, and the later of the two others is at fault. -/
theorem parse_decided_by_names_later_enum :
    ∃ nodes, matchRule .schema "type A\x7b\x7d\nmodel A\x7bx A\x7d\nenum A\x7bX Y\x7d".toList
        = .ok nodes ∧
      headersOf nodes = [⟨.model, "A", ["x"]⟩, ⟨.enum, "A", ["X", "Y"]⟩] ∧
      (Schema.parse "type A\x7b\x7d\nmodel A\x7bx A\x7d\nenum A\x7bX Y\x7d").result
        = .error (.duplicate .enum "A") := by
  have hmatch : (matchRule .schema
      "type A\x7b\x7d\nmodel A\x7bx A\x7d\nenum A\x7bX Y\x7d".toList).map headersOf
      = .ok [⟨.model, "A", ["x"]⟩, ⟨.enum, "A", ["X", "Y"]⟩] := by decide +kernel
  cases hnodes : matchRule .schema
      "type A\x7b\x7d\nmodel A\x7bx A\x7d\nenum A\x7bX Y\x7d".toList with
  | error f =>
      rw [hnodes] at hmatch
      cases hmatch
  | ok nodes =>
      rw [hnodes] at hmatch
      have hheaders : headersOf nodes = [⟨.model, "A", ["x"]⟩, ⟨.enum, "A", ["X", "Y"]⟩] :=
        Except.ok.inj hmatch
      refine ⟨nodes, rfl, hheaders, ((parse_decided_by_names _ nodes hnodes).2.2 _).2 ?_⟩
      refine ⟨[⟨.model, "A", ["x"]⟩], ⟨.enum, "A", ["X", "Y"]⟩, [], hheaders, ?_, ?_⟩
      · decide
      · exact .repeated (by decide) (by decide) (by decide)

end PrismaTypes
