import PrismaTypes.Proofs.AttributeOrder
import PrismaTypes.Proofs.OutlineReading
import PrismaTypes.Schema.Parse

/-!
# What assembling a schema keeps

The pure part of making a model or an enum of a block is separated from the check of its names
(`Model.assemble`, `EnumType.assemble`). Attributes, documentation and the search for read-only
fields leave names, type names and the order of declarations alone, so that both can be read off the
items.
-/

namespace PrismaTypes

open Outline (Attribute FieldDecl ValueDecl Item Block DocLine declarations)

/-! ## Fields -/

namespace Field

/-- What no attribute touches stays through all of them. -/
theorem foldl_applyAttribute {β : Type} (g : Field → β)
    (h : ∀ f a, g (applyAttribute f a) = g f) (attributes : List Attribute) (f : Field) :
    g (attributes.foldl applyAttribute f) = g f := by
  induction attributes generalizing f with
  | nil =>
      rfl
  | cons a attributes ih =>
      rw [List.foldl_cons, ih, h]

theorem applyAttribute_name (f : Field) (a : Attribute) : (f.applyAttribute a).name = f.name := by
  rw [applyAttribute_eq]

theorem applyAttribute_typeName (f : Field) (a : Attribute) :
    (f.applyAttribute a).typeName = f.typeName := by
  rw [applyAttribute_eq]

@[simp] theorem ofDecl_name (d : FieldDecl) : (ofDecl d).name = d.name :=
  foldl_applyAttribute Field.name applyAttribute_name d.attributes _

@[simp] theorem ofDecl_typeName (d : FieldDecl) : (ofDecl d).typeName = d.typeName :=
  foldl_applyAttribute Field.typeName applyAttribute_typeName d.attributes _

end Field

/-! ## Documentation -/

namespace Documentation

variable {α : Type}

theorem trail_none (done : List (α × Option String)) : trail none done = done := by
  cases done <;> rfl

theorem map_fst_trail (text : Option String) (done : List (α × Option String)) :
    (trail text done).map Prod.fst = done.map Prod.fst := by
  rcases done with _ | ⟨⟨d, doc⟩, done⟩
  · rfl
  · cases text <;> rfl

theorem map_fst_placeFrom (pending : Option String) (row : Option Nat)
    (done : List (α × Option String)) (items : List (Item α)) :
    (placeFrom pending row done items).map Prod.fst
      = (done.map Prod.fst).reverse ++ declarations items := by
  induction items generalizing pending row done with
  | nil =>
      simp [placeFrom, declarations]
  | cons item items ih =>
      cases item with
      | documentation lines =>
          simp [placeFrom, ih, map_fst_trail, declarations]
      | entry d lastRow =>
          simp [placeFrom, ih, declarations]
      | blockAttribute a =>
          simp [placeFrom, ih, declarations]

/-- Placing documentation neither drops nor moves a declaration. -/
@[simp] theorem map_fst_place (items : List (Item α)) :
    (place items).map Prod.fst = declarations items :=
  map_fst_placeFrom none none [] items

theorem map_place {β : Type} (g : α → β) (items : List (Item α)) :
    (place items).map (fun entry => g entry.1) = (declarations items).map g := by
  rw [← map_fst_place, List.map_map]
  rfl

end Documentation

/-! ## Repeated names -/

theorem firstRepeated?_eq_none_iff {seen names : List String} :
    firstRepeated? seen names = none ↔ names.Nodup ∧ ∀ n ∈ names, n ∉ seen := by
  induction names generalizing seen with
  | nil =>
      simp [firstRepeated?]
  | cons name names ih =>
      -- Each name that is passed joins the seen ones, so they have to be general.
      by_cases hseen : name ∈ seen
      · simp [firstRepeated?, hseen]
      · simp only [firstRepeated?, List.contains_iff_mem, hseen, if_false, ih, List.nodup_cons,
          List.mem_cons, not_or]
        constructor
        · rintro ⟨hnodup, hnew⟩
          refine ⟨⟨fun hmem => (hnew name hmem).1 rfl, hnodup⟩, ?_⟩
          rintro n (rfl | hn)
          · exact hseen
          · exact (hnew n hn).2
        · rintro ⟨⟨hname, hnodup⟩, hnew⟩
          exact ⟨hnodup, fun n hn => ⟨fun heq => hname (heq ▸ hn), hnew n (.inr hn)⟩⟩

theorem firstRepeated?_nil_eq_none_iff {names : List String} :
    firstRepeated? [] names = none ↔ names.Nodup := by
  simp [firstRepeated?_eq_none_iff]

/-- The name at the first place where a name stands that stood before. -/
def FirstRepeat (names : List String) (name : String) : Prop :=
  ∃ before after, names = before ++ name :: after ∧ before.Nodup ∧ name ∈ before

theorem firstRepeated?_eq_some_iff {seen names : List String} {name : String} :
    firstRepeated? seen names = some name ↔
      ∃ before after, names = before ++ name :: after ∧ before.Nodup ∧
        (∀ n ∈ before, n ∉ seen) ∧ (name ∈ before ∨ name ∈ seen) := by
  induction names generalizing seen with
  | nil =>
      simp [firstRepeated?]
  | cons first names ih =>
      by_cases hseen : first ∈ seen
      · simp only [firstRepeated?, List.contains_iff_mem, hseen, if_true, Option.some.injEq]
        constructor
        · rintro rfl
          exact ⟨[], names, rfl, .nil, by simp, .inr hseen⟩
        · -- No name before the reported one was seen, so nothing stands before it here.
          rintro ⟨before, after, heq, -, hnew, -⟩
          cases before with
          | nil =>
              exact (List.cons.inj heq).1
          | cons b before =>
              rw [(List.cons.inj heq).1] at hseen
              exact absurd hseen (hnew b (by simp))
      · simp only [firstRepeated?, List.contains_iff_mem, hseen, if_false, ih, List.mem_cons]
        constructor
        · rintro ⟨before, after, rfl, hnodup, hnew, hname⟩
          refine ⟨first :: before, after, rfl, ?_, ?_, ?_⟩
          · exact List.nodup_cons.2 ⟨fun hmem => hnew first hmem (.inl rfl), hnodup⟩
          · intro n hn
            rcases List.mem_cons.1 hn with rfl | hn
            · exact hseen
            · exact fun hmem => hnew n hn (.inr hmem)
          · rcases hname with hname | hname | hname
            · exact .inl (by simp [hname])
            · exact .inl (by simp [hname])
            · exact .inr hname
        · rintro ⟨before, after, heq, hnodup, hnew, hname⟩
          cases before with
          | nil =>
              rw [(List.cons.inj heq).1] at hseen
              rcases hname with hname | hname
              · cases hname
              · exact absurd hname hseen
          | cons b before =>
              obtain ⟨rfl, rfl⟩ := List.cons.inj heq
              obtain ⟨hfirst, hnodup⟩ := List.nodup_cons.1 hnodup
              refine ⟨before, after, rfl, hnodup, ?_, ?_⟩
              · rintro n hn (rfl | hmem)
                · exact hfirst hn
                · exact hnew n (by simp [hn]) hmem
              · -- A repetition of the first name is one of a seen name from here on.
                rcases hname with hname | hname
                · rcases List.mem_cons.1 hname with rfl | hname
                  · exact .inr (.inl rfl)
                  · exact .inl hname
                · exact .inr (.inr hname)

theorem firstRepeated?_nil_eq_some_iff {names : List String} {name : String} :
    firstRepeated? [] names = some name ↔ FirstRepeat names name := by
  simp [firstRepeated?_eq_some_iff, FirstRepeat]

/-! ## Models -/

namespace Model

/-- The model of a block, before its field names are checked. -/
def assemble (name : String) (documentation : Option String) (items : List (Item FieldDecl)) :
    Model :=
  let fields := (Documentation.place items).map fun entry =>
    { Field.ofDecl entry.1 with documentation := entry.2 }
  ((blockAttributes items).foldl applyAttribute { name, fields, documentation }).markReadOnly

theorem applyAttribute_name (m : Model) (a : Attribute) : (m.applyAttribute a).name = m.name := by
  rw [applyAttribute_eq]

theorem applyAttribute_fields (m : Model) (a : Attribute) :
    (m.applyAttribute a).fields = m.fields := by
  rw [applyAttribute_eq]

theorem foldl_applyAttribute {β : Type} (g : Model → β)
    (h : ∀ m a, g (applyAttribute m a) = g m) (attributes : List Attribute) (m : Model) :
    g (attributes.foldl applyAttribute m) = g m := by
  induction attributes generalizing m with
  | nil =>
      rfl
  | cons a attributes ih =>
      rw [List.foldl_cons, ih, h]

@[simp] theorem assemble_name (name : String) (documentation : Option String)
    (items : List (Item FieldDecl)) : (assemble name documentation items).name = name :=
  foldl_applyAttribute Model.name applyAttribute_name (blockAttributes items) _

/-- A property of fields that neither documentation nor the read-only mark touches is that of the
declared fields. -/
theorem map_assemble_fields {β : Type} (g : Field → β)
    (hdoc : ∀ (f : Field) (doc : Option String), g { f with documentation := doc } = g f)
    (hmark : ∀ (f : Field) (b : Bool), g { f with isReadOnly := b } = g f) (name : String)
    (documentation : Option String) (items : List (Item FieldDecl)) :
    (assemble name documentation items).fields.map g
      = (declarations items).map fun d => g (Field.ofDecl d) := by
  simp only [assemble, markReadOnly, List.map_map]
  rw [foldl_applyAttribute Model.fields applyAttribute_fields, List.map_map,
    ← Documentation.map_place]
  exact List.map_congr_left fun entry _ => (hmark _ _).trans (hdoc _ _)

theorem names_assemble (name : String) (documentation : Option String)
    (items : List (Item FieldDecl)) :
    (assemble name documentation items).fields.map Field.name
      = (declarations items).map FieldDecl.name := by
  rw [map_assemble_fields Field.name (fun _ _ => rfl) (fun _ _ => rfl)]
  simp

theorem ofItems_eq (name : String) (documentation : Option String)
    (items : List (Item FieldDecl)) :
    ofItems name documentation items
      = (checkNames .field name ((declarations items).map FieldDecl.name)).map
          fun _ => assemble name documentation items := by
  -- The check is made on the fields, which have the names of their declarations.
  have hnames : ((Documentation.place items).map fun entry =>
      { Field.ofDecl entry.1 with documentation := entry.2 }).map Field.name
        = (declarations items).map FieldDecl.name := by
    rw [List.map_map, ← Documentation.map_place]
    exact List.map_congr_left fun entry _ => Field.ofDecl_name entry.1
  rw [ofItems, hnames]
  cases checkNames .field name ((declarations items).map FieldDecl.name) <;> rfl

end Model

/-! ## Enums -/

namespace EnumType

/-- The enum of a block, before its value names are checked. -/
def assemble (name : String) (documentation : Option String) (items : List (Item ValueDecl)) :
    EnumType :=
  { name, members := (Documentation.place items).map memberOf,
    dbName := mappedName? (blockAttributes items), documentation }

@[simp] theorem assemble_name (name : String) (documentation : Option String)
    (items : List (Item ValueDecl)) : (assemble name documentation items).name = name := rfl

theorem names_assemble (name : String) (documentation : Option String)
    (items : List (Item ValueDecl)) :
    (assemble name documentation items).members.map EnumMember.name
      = (declarations items).map ValueDecl.name := by
  rw [← Documentation.map_place]
  simp [assemble, memberOf, Function.comp_def]

theorem ofItems_eq (name : String) (documentation : Option String)
    (items : List (Item ValueDecl)) :
    ofItems name documentation items
      = (checkNames .enumValue name ((declarations items).map ValueDecl.name)).map
          fun _ => assemble name documentation items := by
  have hnames : ((Documentation.place items).map memberOf).map EnumMember.name
      = (declarations items).map ValueDecl.name := names_assemble name documentation items
  rw [ofItems, hnames]
  cases checkNames .enumValue name ((declarations items).map ValueDecl.name) <;> rfl

end EnumType

/-! ## Texts -/

namespace Schema

variable {input : List Char}

-- The definitions are opened by `delta`: their equations would evaluate the match.
theorem outlineOf_of_nodes {nodes : List Grammar.Node} {blocks : List Block}
    (hnodes : Grammar.matchRule .schema input = .ok nodes)
    (hblocks : Outline.ofNodes (Text.byteLength input) nodes = .ok blocks) :
    outlineOf input = .ok blocks := by
  delta outlineOf
  rw [hnodes]
  simp only [hblocks]

theorem outlineOf_of_failure {f : Grammar.Failure}
    (h : Grammar.matchRule .schema input = .error f) :
    outlineOf input = .error (.refused input f) := by
  delta outlineOf
  rw [h]

theorem parseChars_of_blocks {blocks : List Block} (h : outlineOf input = .ok blocks) :
    parseChars input = ofOutline blocks := by
  delta parseChars
  rw [h]

theorem parseChars_of_error {e : SchemaError} (h : outlineOf input = .error e) :
    parseChars input = ⟨[], .error e⟩ := by
  delta parseChars
  rw [h]

end Schema

/-- A decidable property of the schema of a text can be checked by reading the text. -/
theorem exists_of_check {text : String} {P : Schema → Prop} [DecidablePred P]
    (h : (match (Schema.parse text).result with
      | .ok s => decide (P s)
      | .error _ => false) = true) : ∃ s, (Schema.parse text).result = .ok s ∧ P s := by
  cases hparse : (Schema.parse text).result with
  | error e =>
      rw [hparse] at h
      cases h
  | ok s =>
      rw [hparse] at h
      exact ⟨s, rfl, of_decide_eq_true h⟩

end PrismaTypes
