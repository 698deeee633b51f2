import PrismaTypes.Proofs.AlikeOutlines
import PrismaTypes.Proofs.Resolution

/-!
# Texts one after the other

Two accepted texts with a line feed between them are read as both of them together. The blocks are
found one by one, since a closed block does not depend on what follows it (`Schema.Blocks.append`);
only documentation at the end of the first text would go on into the second. A draft takes the
blocks of the second text as it would alone, unless one of them declares a name of the first
(`Draft.addBlocks_join`). The main result is `parse_append`: the models and enums of both, where the
kinds of fields and the names of relations without one are looked up among the names of both.
-/

namespace PrismaTypes

open Grammar
open Outline (Block)
open Text (Place SameRows)

/-! ## Blocks -/

/-- Blanks that use up the first text go on into the second. -/
theorem gap_append_of_nil {s : List Char} (h : (gap false s).2 = []) (b : List Char) :
    (gap false (s ++ '\n' :: b)).2 = (gap false b).2 := by
  simp only [gap, Bool.false_eq_true, if_false] at h ⊢
  rw [splitBlanks_append_feed, if_pos h]

theorem gap_append_of_ne_nil {s : List Char} (h : (gap false s).2 ≠ []) (b : List Char) :
    gap false (s ++ '\n' :: b) = ((gap false s).1, (gap false s).2 ++ '\n' :: b) := by
  simp only [gap, Bool.false_eq_true, if_false] at h ⊢
  rw [splitBlanks_append_feed, if_neg h]

/-- The text is followed by a line feed and the text `b`. -/
def followedBy (b : List Char) : Relayout where
  holds _ s s' := s' = s ++ '\n' :: b
  keeps _ _ := True
  whole := False
  agree := by
    rintro _ s _ rfl
    exact ⟨s, [], '\n' :: b, by simp, rfl, rfl, rfl, fun _ => rfl⟩
  word := by
    rintro _ w r _ rfl -
    exact ⟨r ++ '\n' :: b, by simp, rfl⟩
  string := by
    rintro _ w r _ rfl - -
    exact ⟨r ++ '\n' :: b, by simp, rfl⟩
  blanks := by
    rintro _ s _ rfl hmore
    rw [gap_append_of_ne_nil (hmore.resolve_right id)]
  rows := by
    rintro _ s _ rfl hmore
    rw [gap_append_of_ne_nil (hmore.resolve_right id)]
    exact .refl _

/-- The same text at another place. -/
def elsewhere : Relayout where
  holds _ s s' := s' = s
  keeps _ _ := True
  whole := True
  agree := by
    rintro _ s _ rfl
    exact .refl _
  word := by
    rintro _ w r _ rfl -
    exact ⟨r, rfl, rfl⟩
  string := by
    rintro _ w r _ rfl - -
    exact ⟨r, rfl, rfl⟩
  blanks := by
    rintro _ s _ rfl -
    rfl
  rows := by
    rintro _ s _ rfl -
    exact .refl _

theorem Grammar.Lands.gap_of_nil {b : List Char} {place : Place} {x x' : Scan}
    (h : Lands (followedBy b) place false x x') (hx : (gap false x.2).2 = []) :
    (gap false x'.2).2 = (gap false b).2 := by
  cases h with
  | still hrest | here hrest =>
      rw [show x'.2 = x.2 ++ '\n' :: b from hrest]
      exact gap_append_of_nil hx b
  | smooth htight =>
      cases htight
  | @past htight w t w' t' hrest hw hw' hsource htarget =>
      rw [hsource] at hx
      rw [htarget, gap_idem, show t' = t ++ '\n' :: b from hrest]
      refine gap_append_of_nil ?_ b
      rwa [← gap_idem t]

section Followed

variable {place : Place} {s b r : List Char} {ns : List Node}

theorem Grammar.Runs.ne_nil (h : Runs topLevel place s ns r) (hns : ns ≠ []) : s ≠ [] := by
  cases h with
  | nil =>
      exact absurd rfl hns
  | cons h hrest =>
      rintro rfl
      exact h.derives.taken_ne_nil rfl (List.append_eq_nil_iff.1 h.derives.splits).1

theorem Grammar.Runs.rest_of_nil (h : Runs topLevel place s ns r) (hns : ns = []) : r = s := by
  cases h with
  | nil =>
      rfl
  | cons h hrest =>
      obtain ⟨n, hn⟩ := Fits.single_topLevel _ h.derives.fits
      rw [hn] at hns
      cases hns

/-- The blocks of a text are found when another text follows, and after them those of the other text
are looked for. -/
theorem Grammar.Runs.followed (h : Runs topLevel place s ns []) (hgap : (gap false s).2 = s)
    (hns : ns ≠ []) (hlast : ∀ n ∈ ns.getLast?, n.rule ≠ .documentation) (b : List Char)
    (place' : Place) :
    ∃ ns' next, List.Forall₂ SameNode ns ns' ∧ ∀ {nsb r},
      Runs topLevel next (gap false b).2 nsb r →
        Runs topLevel place' (s ++ '\n' :: b) (ns' ++ nsb) r := by
  generalize hr : ([] : List Char) = r at h
  induction h generalizing place' with
  | nil =>
      exact absurd rfl hns
  | @cons place s r m ns h hrest ih =>
      obtain ⟨n, hn⟩ := Fits.single_topLevel _ h.derives.fits
      have hs : s ≠ [] := (Runs.cons h hrest).ne_nil hns
      have hgap' : (gap false (s ++ '\n' :: b)).2 = s ++ '\n' :: b := by
        have hmore : (gap false s).2 ≠ [] := by rwa [hgap]
        rw [gap_append_of_ne_nil hmore, hgap]
      by_cases hmore : ns = []
      · -- The last block is closed, so that it does not matter what follows.
        have hend : (gap false m.rest).2 = [] := by rw [hr, hrest.rest_of_nil hmore]
        have hclosed : ¬ ∃ n ∈ m.nodes, n.rule = .documentation := by
          rintro ⟨n', hn', hrule⟩
          refine hlast n' ?_ hrule
          rw [hn] at hn' ⊢
          simpa [hmore] using (List.mem_singleton.1 hn').symm
        obtain ⟨m', c, hsame⟩ := carried_topLevel (L := followedBy b) h rfl hgap hgap'
          (fun _ _ => trivial) (fun hdoc => absurd hdoc hclosed) place'
        refine ⟨m'.nodes, place'.advance (m'.taken ++ (gap false m'.rest).1), by simpa [hmore],
          fun hruns => .cons c.firm ?_⟩
        rwa [c.lands.gap_of_nil hend]
      · have halive : (followedBy b).alive false m.rest := fun _ => .inl (hrest.ne_nil hmore)
        obtain ⟨m', c, hsame⟩ := carried_topLevel (L := followedBy b) h rfl hgap hgap'
          (fun _ _ => trivial) (fun _ => halive) place'
        have hlater : ∀ n' ∈ ns.getLast?, n'.rule ≠ .documentation := by
          intro n' hn'
          refine hlast n' ?_
          rwa [List.getLast?_append_of_ne_nil _ hmore]
        obtain ⟨ns', next, hsame', hruns⟩ := ih (gap_idem _) hmore hlater
          (place'.advance (m'.taken ++ (gap false m'.rest).1)) hr
        refine ⟨m'.nodes ++ ns', next, List.rel_append hsame hsame', fun hb => ?_⟩
        rw [List.append_assoc]
        refine .cons c.firm ?_
        have hnext : (gap false m'.rest).2 = (gap false m.rest).2 ++ '\n' :: b :=
          c.lands.next halive
        rw [hnext]
        exact hruns hb

end Followed

/-- The blocks of two texts that stand one after the other. -/
theorem Schema.Blocks.append {a b : List Char} {ns nsb : List Node} (ha : Blocks a ns)
    (hb : Blocks b nsb) (hlast : ∀ n ∈ ns.getLast?, n.rule ≠ .documentation) :
    ∃ ns' nsb', List.Forall₂ SameNode ns ns' ∧ List.Forall₂ SameNode nsb nsb' ∧
      Blocks (a ++ '\n' :: b) (ns' ++ nsb') := by
  have hmoved := fun place' => hb.relaid_topLevel (L := elsewhere) trivial id rfl (gap_idem _)
    (gap_idem _) (fun _ _ => trivial) place'
  by_cases hns : ns = []
  · obtain ⟨nsb', hruns, hsame⟩ := hmoved (({} : Place).advance (gap false (a ++ '\n' :: b)).1)
    refine ⟨[], nsb', by rw [hns]; exact .nil, hsame, ?_⟩
    have hblank : (gap false a).2 = [] := (ha.rest_of_nil hns).symm
    rw [Blocks, gap_append_of_nil hblank]
    exact hruns
  · obtain ⟨ns', next, hsame, happend⟩ := ha.followed (gap_idem a) hns hlast b
      (({} : Place).advance (gap false a).1)
    obtain ⟨nsb', hruns, hsame'⟩ := hmoved next
    refine ⟨ns', nsb', hsame, hsame', ?_⟩
    rw [Blocks, gap_append_of_ne_nil (ha.ne_nil hns)]
    exact happend hruns

/-! ## Drafts -/

def Schema.join (s t : Schema) : Schema :=
  ⟨s.models ++ t.models, s.enums ++ t.enums⟩

theorem Header.fault?_append {earlier more : List String} {h : Header}
    (hmore : h.fault? more = none) :
    h.fault? (earlier ++ more) =
      if h.name ∈ earlier then some (.duplicate h.kind.nameKind h.name) else none := by
  obtain ⟨hentries, hfree, hfresh⟩ := fault?_eq_none_iff.1 hmore
  split
  · rename_i hearlier
    exact fault?_of_refused (.repeated hentries hfree (List.mem_append_left _ hearlier))
  · rename_i hearlier
    exact fault?_eq_none_iff.2 ⟨hentries, hfree, by simp [hearlier, hfresh]⟩

def Outline.Block.isDocumentation : Block → Bool
  | .documentation _ => true
  | _ => false

namespace Draft

/-- The draft that has taken the blocks of `d` and then those of `e`. -/
def join (d e : Draft) : Draft where
  schema := d.schema.join e.schema
  names := ⟨d.names.declarations ++ e.names.declarations⟩
  skipped := e.skipped ++ d.skipped
  pending := e.pending

variable {d d' e e' : Draft} {b : Block} {blocks more : List Block}

theorem declared_join (d e : Draft) : (d.join e).declared = d.declared ++ e.declared := by
  simp [declared, join]

theorem join_empty (h : d.pending = none) : d.join {} = d := by
  rcases d with ⟨⟨models, enums⟩, ⟨declarations⟩, skipped, pending⟩
  cases h
  simp [join, Schema.join]

/-- A block that is taken alone is taken after other blocks, unless its name is declared there. -/
theorem addBlock_join (d : Draft) (h : e.addBlock b = .ok e') :
    (d.join e).addBlock b =
      match b.header?.filter (·.name ∈ d.declared) with
      | some k => .error (.duplicate k.kind.nameKind k.name)
      | none => .ok (d.join e') := by
  cases b with
  | documentation lines | config headline | skipped keyword name =>
      cases h
      rfl
  | model name items =>
      obtain ⟨hfault, rfl⟩ := eq_of_addBlock_model h
      rw [addBlock_model, declared_join, Header.fault?_append hfault]
      by_cases hname : name ∈ d.declared <;>
        simp [Block.header?, Option.filter, hname, join, Schema.join, Schema.addModel, withName]
  | enum name items =>
      obtain ⟨hfault, rfl⟩ := eq_of_addBlock_enum h
      rw [addBlock_enum, declared_join, Header.fault?_append hfault]
      by_cases hname : name ∈ d.declared <;>
        simp [Block.header?, Option.filter, hname, join, Schema.join, Schema.addEnum, withName]

theorem addBlocks_join (d : Draft) (h : (e.addBlocks blocks).2 = .ok e') :
    ((d.join e).addBlocks blocks).2 =
      match (blocks.filterMap Block.header?).find? (·.name ∈ d.declared) with
      | some k => .error (.duplicate k.kind.nameKind k.name)
      | none => .ok (d.join e') := by
  induction blocks generalizing e with
  | nil =>
      cases h
      rfl
  | cons b blocks ih =>
      obtain ⟨next, hb, h⟩ := exists_of_addBlocks_cons h
      have hrest := ih h
      have hstep := addBlock_join d hb
      -- A block without a header declares nothing.
      cases hheader : b.header? with
      | none =>
          rw [hheader] at hstep
          simpa [addBlocks, hstep, List.filterMap_cons, hheader] using hrest
      | some k =>
          rw [hheader] at hstep
          by_cases hname : k.name ∈ d.declared
          · simp only [Option.filter, hname, decide_true, if_true] at hstep
            simp [addBlocks, hstep, hheader, hname]
          · simp only [Option.filter, hname, decide_false, Bool.false_eq_true, if_false] at hstep
            simpa [addBlocks, hstep, List.filterMap_cons, hheader, hname] using hrest

theorem addBlocks_append (h : (d.addBlocks blocks).2 = .ok d') (more : List Block) :
    (d.addBlocks (blocks ++ more)).2 = (d'.addBlocks more).2 := by
  induction blocks generalizing d with
  | nil =>
      cases h
      rfl
  | cons b blocks ih =>
      obtain ⟨next, hb, h⟩ := exists_of_addBlocks_cons h
      simpa [addBlocks, hb] using ih h

theorem pending_addBlock (h : d.addBlock b = .ok d') (hb : b.isDocumentation = false) :
    d'.pending = none := by
  cases b with
  | documentation lines =>
      cases hb
  | config headline | skipped keyword name =>
      cases h
      rfl
  | model name items =>
      obtain ⟨-, rfl⟩ := eq_of_addBlock_model h
      rfl
  | enum name items =>
      obtain ⟨-, rfl⟩ := eq_of_addBlock_enum h
      rfl

/-- Documentation waits only if it comes last. -/
theorem pending_addBlocks (h : (d.addBlocks blocks).2 = .ok d') (hblocks : blocks ≠ [])
    (hlast : ∀ b ∈ blocks.getLast?, b.isDocumentation = false) : d'.pending = none := by
  induction blocks generalizing d with
  | nil =>
      exact absurd rfl hblocks
  | cons b blocks ih =>
      obtain ⟨next, hb, h⟩ := exists_of_addBlocks_cons h
      cases blocks with
      | nil =>
          cases h
          exact pending_addBlock hb (hlast b rfl)
      | cons b' blocks =>
          exact ih h (by simp) fun k hk => hlast k (by rwa [List.getLast?_cons_cons])

end Draft

/-- The blocks of both texts are taken, unless one of the second declares a name of the first. -/
theorem Schema.result_ofOutline_append {blocks more : List Block} {d e : Draft}
    (hd : (({} : Draft).addBlocks blocks).2 = .ok d) (he : (({} : Draft).addBlocks more).2 = .ok e)
    (hlast : ∀ b ∈ blocks.getLast?, b.isDocumentation = false) :
    (Schema.ofOutline (blocks ++ more)).result =
      match (more.filterMap Block.header?).find? (·.name ∈ d.declared) with
      | some k => .error (.duplicate k.kind.nameKind k.name)
      | none => .ok (d.join e).finish := by
  have hpending : d.pending = none := by
    by_cases hblocks : blocks = []
    · subst hblocks
      cases hd
      rfl
    · exact Draft.pending_addBlocks hd hblocks hlast
  have hjoin := Draft.addBlocks_join d he
  rw [Draft.join_empty hpending] at hjoin
  rw [result_ofOutline, Draft.addBlocks_append hd, hjoin]
  split <;> rfl

/-! ## Names of both texts -/

/-- The names of the models and enums. -/
def Schema.declaredNames (s : Schema) : List String :=
  s.models.map Model.name ++ s.enums.map EnumType.name

/-- What a type name refers to among the declarations of a schema. -/
def Schema.kindOf (s : Schema) (typeName : String) : FieldKind :=
  if typeName ∈ s.models.map Model.name then .object
  else if typeName ∈ s.enums.map EnumType.name then .enum
  else .scalar

/-- The field of a model as it is among the declarations of `scope`. A relation that is not `named`
by the field itself is named after the two models. -/
def Field.resolvedIn (scope : Schema) (model : String) (named : Bool) (f : Field) : Field :=
  { f with
    kind := scope.kindOf f.typeName
    relationName :=
      if named then f.relationName
      else if scope.kindOf f.typeName = .object then some (Draft.relationNameOf model f.typeName)
      else none }

/-- The schema of an outline, with its fields looked up among the declarations of `scope`. -/
def Schema.resolvedIn (s scope : Schema) (outline : List Block) : Schema :=
  { s with
    models := s.models.map fun m =>
      { m with
        fields := m.fields.map fun f =>
          f.resolvedIn scope m.name (Outline.explicitRelation? outline m.name f.name).isSome } }

namespace Drafted

variable {text text' : String} {s s' : Schema} {blocks blocks' : List Block} {d d' : Draft}

theorem mem_declared_iff (h : Drafted text s blocks d) {name : String} :
    name ∈ d.declared ↔ name ∈ s.declaredNames := by
  have hget : (d.names.get? name).isSome = true ↔ name ∈ d.declared := Members.isSome_get?_iff
  rw [← hget, Schema.declaredNames, List.mem_append, List.mem_map, List.mem_map,
    ← h.get?_eq_model_iff, ← h.get?_eq_enum_iff]
  rcases d.names.get? name with _ | _ | _ <;> simp

/-- A type name refers to the same in the joint draft and among the declarations of both schemas. -/
theorem kindOf_join (h : Drafted text s blocks d) (h' : Drafted text' s' blocks' d')
    (hfresh : ∀ name ∈ d'.declared, name ∉ d.declared) (f : Field) :
    (d.join d').kindOf f = (s.join s').kindOf f.typeName := by
  have hget : (d.join d').names.get? f.typeName
      = (d.names.get? f.typeName).or (d'.names.get? f.typeName) := Members.get?_append _ _ _
  have hmodel : f.typeName ∈ (s.join s').models.map Model.name ↔
      d.names.get? f.typeName = some .model ∨ d'.names.get? f.typeName = some .model := by
    rw [h.get?_eq_model_iff, h'.get?_eq_model_iff, Schema.join, List.map_append, List.mem_append,
      List.mem_map, List.mem_map]
  have henum : f.typeName ∈ (s.join s').enums.map EnumType.name ↔
      d.names.get? f.typeName = some .enum ∨ d'.names.get? f.typeName = some .enum := by
    rw [h.get?_eq_enum_iff, h'.get?_eq_enum_iff, Schema.join, List.map_append, List.mem_append,
      List.mem_map, List.mem_map]
  rw [Draft.kindOf, Namespace.resolve, Schema.kindOf, hget]
  simp only [hmodel, henum]
  by_cases hscalar : (Scalar.ofKeyword? f.typeName).isSome = true
  · simp [hscalar, h.get?_of_isSome_ofKeyword? hscalar, h'.get?_of_isSome_ofKeyword? hscalar]
  -- A name of the first text is none of the second.
  cases hfirst : d.names.get? f.typeName with
  | none =>
      rcases d'.names.get? f.typeName with _ | _ | _ <;> simp [hscalar, Declaration.fieldKind]
  | some kind =>
      have hmem : f.typeName ∈ d.declared := Members.isSome_get?_iff.1 (by
        rw [← Namespace.get?, hfirst]
        rfl)
      have hsecond : d'.names.get? f.typeName = none := by
        refine Option.not_isSome_iff_eq_none.1 fun hsome => ?_
        exact hfresh _ (Members.isSome_get?_iff.1 hsome) hmem
      rw [hsecond]
      cases kind <;> simp [hscalar, Declaration.fieldKind]

/-- Looking up a field again among more names changes its kind and a relation name that it does not
give itself. -/
theorem resolveField_eq (h : Drafted text s blocks d) {scope : Schema} {e : Draft}
    (hkind : ∀ f, e.kindOf f = scope.kindOf f.typeName) {m : Model} (hm : m ∈ d.schema.models)
    {f : Field} (hf : f ∈ m.fields) :
    e.resolveField m.name f = (d.resolveField m.name f).resolvedIn scope m.name
      (Outline.explicitRelation? blocks m.name f.name).isSome := by
  have hresolve : e.resolveField m.name f = { f with
      kind := e.kindOf f
      relationName := (e.resolveField m.name f).relationName } := rfl
  rw [hresolve, Draft.resolveField_relationName, hkind, ← h.relationName_eq hm hf]
  cases hgiven : f.relationName with
  | none =>
      rfl
  | some name =>
      simp [Field.resolvedIn, Draft.resolveField, hgiven]

theorem models_resolvedIn (h : Drafted text s blocks d) {scope : Schema} {e : Draft}
    (hkind : ∀ f, e.kindOf f = scope.kindOf f.typeName) :
    d.schema.models.map e.resolveModel = (s.resolvedIn scope blocks).models := by
  rw [h.finish]
  simp only [Schema.resolvedIn, Draft.finish, List.map_map]
  refine List.map_congr_left fun m hm => ?_
  simp only [Draft.resolveModel, Function.comp_apply, List.map_map, Model.mk.injEq, true_and,
    and_true]
  exact List.map_congr_left fun f hf => h.resolveField_eq hkind hm hf

theorem finish_join (h : Drafted text s blocks d) (h' : Drafted text' s' blocks' d')
    (hfresh : ∀ name ∈ d'.declared, name ∉ d.declared) :
    (d.join d').finish
      = (s.resolvedIn (s.join s') blocks).join (s'.resolvedIn (s.join s') blocks') := by
  have hkind := h.kindOf_join h' hfresh
  have hmodels : (d.join d').finish.models
      = (s.resolvedIn (s.join s') blocks).models ++ (s'.resolvedIn (s.join s') blocks').models := by
    rw [← h.models_resolvedIn hkind, ← h'.models_resolvedIn hkind, ← List.map_append]
    rfl
  have henums : (d.join d').finish.enums = s.enums ++ s'.enums := by
    rw [h.finish, h'.finish]
    rfl
  rw [Schema.join, ← hmodels]
  exact congrArg _ henums

end Drafted

/-! ## Schemas -/

/-- The last block of a text is documentation if the last node is. -/
theorem Outline.Reads.exists_documentation {ns : List Node} {blocks : List Block}
    (h : Outline.Reads ns blocks) {n : Node} (hn : n ∈ ns.getLast?)
    (hrule : n.rule = .documentation) : ∃ b ∈ blocks.getLast?, b.isDocumentation = true := by
  induction h with
  | nil =>
      cases hn
  | @cons k b ns blocks hread h ih =>
      cases h with
      | nil =>
          have hk : k = n := by simpa using hn
          rw [hk, Outline.readBlock, hrule] at hread
          cases hread
          exact ⟨_, rfl, rfl⟩
      | cons hread' h =>
          rw [List.getLast?_cons_cons] at hn ⊢
          exact ih hn

/-- The outline of two texts is that of the first and then that of the second. -/
theorem Schema.result_parse_append {a b : String} {s t : Schema} {outline more : List Block}
    (ha : (Schema.parse a).result = .ok s) (hb : (Schema.parse b).result = .ok t)
    (houtline : Schema.outlineOf a.toList = .ok outline)
    (hmore : Schema.outlineOf b.toList = .ok more)
    (hlast : ∀ block ∈ outline.getLast?, block.isDocumentation = false) :
    (Schema.parse (a ++ "\n" ++ b)).result = (Schema.ofOutline (outline ++ more)).result := by
  obtain ⟨ns, hns, -⟩ := exists_blocks ha
  obtain ⟨nsb, hnsb, -⟩ := exists_blocks hb
  obtain ⟨outline₀, hread⟩ := Outline.reads_of_fits hns.fits
  obtain ⟨more₀, hreadb⟩ := Outline.reads_of_fits hnsb.fits
  obtain rfl : outline₀ = outline := Except.ok.inj ((hns.outlineOf hread).symm.trans houtline)
  obtain rfl : more₀ = more := Except.ok.inj ((hnsb.outlineOf hreadb).symm.trans hmore)
  have hclosed : ∀ n ∈ ns.getLast?, n.rule ≠ .documentation := by
    intro n hn hrule
    obtain ⟨b, hb, hdoc⟩ := hread.exists_documentation hn hrule
    rw [hlast b hb] at hdoc
    cases hdoc
  obtain ⟨ns', nsb', hsame, hsameb, hboth⟩ := hns.append hnsb hclosed
  have hfits := hboth.fits
  obtain ⟨outline', hread', hblocks⟩ := Outline.reads_alike hread hns.fits
    (fun n hn => hfits n (List.mem_append_left _ hn)) hsame
  obtain ⟨more', hreadb', hblocksb⟩ := Outline.reads_alike hreadb hnsb.fits
    (fun n hn => hfits n (List.mem_append_right _ hn)) hsameb
  have htext : (a ++ "\n" ++ b).toList = a.toList ++ '\n' :: b.toList := by simp
  have hparse := parseChars_of_blocks (hboth.outlineOf (List.rel_append hread' hreadb'))
  rw [parse, htext, hparse, result_ofOutline_alike (List.rel_append hblocks hblocksb)]

/-- Two accepted texts with a line feed between them, the first of which does not end in
documentation. They are refused for the first declaration of the second text whose name the first
one declares. Otherwise they give the models and the enums of both in order, and all that changes in
a field is its kind, and the name of a relation that it does not name itself: both are those among
the names that the two texts declare. -/
theorem parse_append (a b : String) (s t : Schema) (outline more : List Block)
    (ha : (Schema.parse a).result = .ok s) (hb : (Schema.parse b).result = .ok t)
    (houtline : Schema.outlineOf a.toList = .ok outline)
    (hmore : Schema.outlineOf b.toList = .ok more)
    (hlast : ∀ block ∈ outline.getLast?, block.isDocumentation = false) :
    (Schema.parse (a ++ "\n" ++ b)).result =
      match (more.filterMap Block.header?).find? (·.name ∈ s.declaredNames) with
      | some k => .error (.duplicate k.kind.nameKind k.name)
      | none => .ok ((s.resolvedIn (s.join t) outline).join (t.resolvedIn (s.join t) more)) := by
  obtain ⟨_, d, hd⟩ := exists_drafted ha
  obtain ⟨_, e, he⟩ := exists_drafted hb
  obtain rfl := Except.ok.inj (hd.outline.symm.trans houtline)
  obtain rfl := Except.ok.inj (he.outline.symm.trans hmore)
  rw [Schema.result_parse_append ha hb houtline hmore hlast,
    Schema.result_ofOutline_append hd.taken he.taken hlast]
  simp only [hd.mem_declared_iff]
  split
  · rfl
  · rename_i hnone
    refine congrArg _ (hd.finish_join he fun name hname hmem => ?_)
    rw [Draft.declared, he.follows.names, List.map_map] at hname
    obtain ⟨k, hk, rfl⟩ := List.mem_map.1 hname
    exact List.find?_eq_none.1 hnone k hk (by simpa using hd.mem_declared_iff.1 hmem)

theorem exists_of_readings {a b : String} {P : Schema → Schema → List Block → List Block → Prop}
    [∀ s t outline more, Decidable (P s t outline more)]
    (h : (match (Schema.parse a).result, (Schema.parse b).result, Schema.outlineOf a.toList,
        Schema.outlineOf b.toList with
      | .ok s, .ok t, .ok outline, .ok more => decide (P s t outline more)
      | _, _, _, _ => false) = true) :
    ∃ s t outline more, (Schema.parse a).result = .ok s ∧ (Schema.parse b).result = .ok t ∧
      Schema.outlineOf a.toList = .ok outline ∧ Schema.outlineOf b.toList = .ok more ∧
      P s t outline more := by
  split at h
  · rename_i s t outline more hs ht houtline hmore
    exact ⟨s, t, outline, more, hs, ht, houtline, hmore, of_decide_eq_true h⟩
  · cases h

/-- The type of a field is found in the other text, and so the field gets a relation. A second model
of the same name is refused. -/
theorem parse_append_cross_reference :
    (∃ s, (Schema.parse "model A\x7b\n b B?\n\x7d // c").result = .ok s ∧
      s.models.map (fun m => m.fields.map fun f => (f.kind, f.relationName)) = [[(.scalar, none)]] ∧
      ∃ u, (Schema.parse ("model A\x7b\n b B?\n\x7d // c" ++ "\n" ++
          "/// d\nmodel B\x7b\n a A?\n\x7d\nenum E\x7bX\x7d")).result = .ok u ∧
        u.models.map (fun m => m.fields.map fun f => (f.kind, f.relationName))
          = [[(.object, some "AToB")], [(.object, some "AToB")]]) ∧
    (Schema.parse ("model A\x7b\n b B?\n\x7d // c" ++ "\n" ++
      "enum E\x7bX\x7d\nmodel A\x7b\n n Int\n\x7d")).result = .error (.duplicate .model "A") := by
  constructor
  · obtain ⟨s, t, outline, more, hs, ht, houtline, hmore, hkinds, hlast, hfresh, hboth⟩ :=
      exists_of_readings (a := "model A\x7b\n b B?\n\x7d // c")
        (b := "/// d\nmodel B\x7b\n a A?\n\x7d\nenum E\x7bX\x7d")
        (P := fun s t outline more =>
          s.models.map (fun m => m.fields.map fun f => (f.kind, f.relationName))
            = [[(.scalar, none)]] ∧
          (∀ block ∈ outline.getLast?, block.isDocumentation = false) ∧
          ((more.filterMap Block.header?).find? (·.name ∈ s.declaredNames)) = none ∧
          ((s.resolvedIn (s.join t) outline).join (t.resolvedIn (s.join t) more)).models.map
            (fun m => m.fields.map fun f => (f.kind, f.relationName))
              = [[(.object, some "AToB")], [(.object, some "AToB")]]) (by decide +kernel)
    have hresult := parse_append _ _ s t outline more hs ht houtline hmore hlast
    rw [hfresh] at hresult
    exact ⟨s, hs, hkinds, _, hresult, hboth⟩
  · obtain ⟨s, t, outline, more, hs, ht, houtline, hmore, hlast, hfound⟩ :=
      exists_of_readings (a := "model A\x7b\n b B?\n\x7d // c")
        (b := "enum E\x7bX\x7d\nmodel A\x7b\n n Int\n\x7d")
        (P := fun s t outline more =>
          (∀ block ∈ outline.getLast?, block.isDocumentation = false) ∧
          ((more.filterMap Block.header?).find? (·.name ∈ s.declaredNames))
            = some ⟨.model, "A", ["n"]⟩) (by decide +kernel)
    have hresult := parse_append _ _ s t outline more hs ht houtline hmore hlast
    rw [hfound] at hresult
    exact hresult

end PrismaTypes
