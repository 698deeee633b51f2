import PrismaTypes.Proofs.ConfigRules

/-!
# What accepted configurations say

A configuration document is merged as data: it is laid over the default document, checked, and only
then taken over. The outcome is compared with the document as it is written, where keys may come
again, and with insertions into a type mapping:

* every property is the one written last under its key (`Json.lastUnder?`), or the default;
* the type mapping is the standard one after an insertion for each entry of the document.

So a lookup in the mapping finds what the user wrote, then the standard target, and the standard
names keep their places in front of new ones.
-/

namespace PrismaTypes

/-! ## Written members -/

namespace Json

/-- What is written last under a key. -/
def lastUnder? (key : String) (written : List (Option String × Tree)) : Option Tree :=
  (written.reverse.find? (·.1 = some key)).map Prod.snd

theorem forall₂_of_membersOf {room : Nat} {written : List (Option String × Tree)}
    {pairs : List (String × Value)} (h : membersOf room written = .ok pairs) :
    List.Forall₂ (fun m p => m.1 = some p.1 ∧ m.2.toValue room = .ok p.2) written pairs := by
  induction written generalizing pairs with
  | nil =>
      cases h
      exact .nil
  | cons m written ih =>
      obtain ⟨_ | key, item⟩ := m
      · cases h
      · rw [membersOf] at h
        obtain ⟨value, hvalue, h⟩ := exists_of_bind_eq_ok h
        obtain ⟨rest, hrest, h⟩ := exists_of_bind_eq_ok h
        cases h
        exact .cons ⟨rfl, hvalue⟩ (ih hrest)

/-- The data under a key are those of what is written last. -/
theorem rel_lastUnder? {room : Nat} {written : List (Option String × Tree)}
    {pairs : List (String × Value)} (h : membersOf room written = .ok pairs) (key : String) :
    Option.Rel (fun t v => t.toValue room = .ok v) (lastUnder? key written)
      (Members.get? key (Members.ofPairs pairs)) := by
  rw [Members.get?_ofPairs, lastUnder?]
  have hmembers := List.forall₂_reverse_iff.2 (forall₂_of_membersOf h)
  generalize written.reverse = written at hmembers ⊢
  generalize pairs.reverse = pairs at hmembers ⊢
  induction hmembers with
  | nil =>
      exact .none
  | @cons m p written pairs hmember _ ih =>
      obtain ⟨hkey, hvalue⟩ := hmember
      rw [List.find?_cons, Members.get?, hkey]
      by_cases heq : p.1 = key
      · simp only [heq, decide_true, if_pos, Option.map_some]
        exact .some hvalue
      · have hne : ¬ some p.1 = some key := fun h => heq (Option.some.inj h)
        simp only [hne, decide_false, if_neg heq]
        exact ih

theorem keys_of_membersOf {room : Nat} {written : List (Option String × Tree)}
    {pairs : List (String × Value)} (h : membersOf room written = .ok pairs) :
    written.filterMap Prod.fst = pairs.map Prod.fst := by
  have hmembers := forall₂_of_membersOf h
  clear h
  induction hmembers with
  | nil =>
      rfl
  | cons hmember _ ih =>
      rw [List.filterMap_cons, hmember.1, List.map_cons, ih]

namespace Tree

/-- What is written where data are read: the members of an object are merged, and what is neither
list nor object is taken as it is written. -/
theorem written_of_toValue {room : Nat} {t : Tree} {v : Value} (h : t.toValue room = .ok v) :
    match v with
    | .list _ => True
    | .object members => ∃ left written pairs, t = .object written ∧
        membersOf left written = .ok pairs ∧ members = Members.ofPairs pairs
    | v => t = v.toTree := by
  rcases t with _ | b | (_ | n) | (_ | s) | items | written
  case list =>
      cases room with
      | zero =>
          cases h
      | succ left =>
          rw [toValue] at h
          obtain ⟨values, -, rfl⟩ := exists_of_map_eq_ok h
          trivial
  case object =>
      cases room with
      | zero =>
          cases h
      | succ left =>
          rw [toValue] at h
          obtain ⟨pairs, hpairs, rfl⟩ := exists_of_map_eq_ok h
          exact ⟨left, written, pairs, rfl, hpairs, rfl⟩
  all_goals
    rw [toValue] at h
    cases h <;> rfl

theorem eq_text_of_toValue {room : Nat} {t : Tree} {s : String}
    (h : t.toValue room = .ok (.text s)) : t = .text (some s) :=
  written_of_toValue h

theorem eq_bool_of_toValue {room : Nat} {t : Tree} {b : Bool}
    (h : t.toValue room = .ok (.bool b)) : t = .bool b :=
  written_of_toValue h

end Tree

end Json

/-! ## Documents of configurations -/

namespace Config

open Json (Value Tree)

theorem eq_text_of_textOf? {value : Value} {s : String} (h : textOf? value = some s) :
    value = .text s := by
  cases value <;> cases h
  rfl

theorem eq_bool_of_boolOf? {value : Value} {b : Bool} (h : boolOf? value = some b) :
    value = .bool b := by
  cases value <;> cases h
  rfl

theorem mappingOf?_object (entries : List (String × String)) :
    mappingOf? (.object (entries.map fun e => (e.1, .text e.2))) = some ⟨entries⟩ := by
  have hmapM : (entries.map fun e => (e.1, Value.text e.2)).mapM
      (fun e => (textOf? e.2).map fun target => (e.1, target)) = some entries := by
    induction entries with
    | nil =>
        rfl
    | cons e entries ih =>
        rw [List.map_cons, List.mapM_cons, ih]
        rfl
  rw [mappingOf?, hmapM]
  rfl

/-- Targets are texts, or the entries are no mapping. -/
theorem eq_object_of_mappingOf? {value : Value} {mapping : TypeMapping}
    (h : mappingOf? value = some mapping) :
    value = .object (mapping.entries.map fun e => (e.1, .text e.2)) := by
  cases value with
  | object members =>
      obtain ⟨entries, hentries, rfl⟩ := Option.map_eq_some_iff.1 h
      refine congrArg Value.object ?_
      clear h
      induction members generalizing entries with
      | nil =>
          cases hentries
          rfl
      | cons member members ih =>
          rw [List.mapM_cons] at hentries
          obtain ⟨entry, hentry, hentries⟩ := Option.bind_eq_some_iff.1 hentries
          obtain ⟨rest, hrest, hentries⟩ := Option.bind_eq_some_iff.1 hentries
          cases hentries
          obtain ⟨target, htarget, rfl⟩ := Option.map_eq_some_iff.1 hentry
          rw [List.map_cons, ← ih rest hrest, ← eq_text_of_textOf? htarget]
  | _ =>
      cases h

/-- The document of a configuration describes it. -/
theorem ofMembers?_toMembers (c : Config) : ofMembers? c.toMembers = some c := by
  obtain ⟨url, modelStyle, enumStyle, outputFile, schemaFile, writeMetadata, relationsOptional,
    mapping⟩ := c
  have hmodel : ModelStyle.ofWord? modelStyle.word = some modelStyle := by
    cases modelStyle <;> rfl
  have henum : EnumStyle.ofWord? enumStyle.word = some enumStyle := by
    cases enumStyle <;> rfl
  cases url <;>
    simp [ofMembers?, toMembers, Members.get?, optionalTextOf?, textOf?, boolOf?, choiceOf?,
      mappingOf?_object, hmodel, henum]

theorem ofMembers?_congr {members others : List (String × Value)}
    (h : ∀ key ∈ knownKeys, Members.get? key members = Members.get? key others) :
    ofMembers? members = ofMembers? others := by
  simp only [knownKeys, List.forall_mem_cons] at h
  obtain ⟨hurl, hmodel, henum, houtput, hschema, hmetadata, hrelations, hmapping, -⟩ := h
  simp only [ofMembers?, hurl, hmodel, henum, houtput, hschema, hmetadata, hrelations, hmapping]

/-- The word under a key that asks for one of several. -/
theorem eq_text_of_choiceOf? {α : Type} {all : List α} {word : α → String} {key : String}
    {value : Value} {choice : α}
    (hkey : key ∈ ["outputType", "enumOutputType", "outputFile", "prismaSchema", "$schema"])
    (hfree : ∀ v, ¬ MemberBreaks key value v)
    (h : choiceOf? (fun s => all.find? (word · == s)) value = some choice) :
    value = .text (word choice) := by
  obtain ⟨s, rfl⟩ := exists_text_of_not_breaks hkey hfree
  have hfound : all.find? (word · == s) = some choice := h
  have hword := List.find?_some hfound
  rw [eq_of_beq hword]

/-- A document that obeys the rules has the properties of the configuration that it describes. -/
theorem get?_eq_of_ofMembers? {members : List (String × Value)} {c : Config}
    (hfree : ∀ v, ¬ Breaks (.object members) v) (h : ofMembers? members = some c) :
    ∀ key ∈ knownKeys, Members.get? key members = Members.get? key c.toMembers := by
  have hvalue : ∀ {key value}, Members.get? key members = some value →
      ∀ v, ¬ MemberBreaks key value v :=
    fun hget v hv => hfree v (.member (Members.mem_of_get? hget) hv)
  obtain ⟨curl, cmodel, cenum, coutput, cschema, cmetadata, crelations, cmapping⟩ := get?_toMembers c
  simp only [ofMembers?] at h
  obtain ⟨url, hurl, h⟩ := Option.bind_eq_some_iff.1 h
  obtain ⟨modelStyle, hmodel, h⟩ := Option.bind_eq_some_iff.1 h
  obtain ⟨enumStyle, henum, h⟩ := Option.bind_eq_some_iff.1 h
  obtain ⟨outputFile, houtput, h⟩ := Option.bind_eq_some_iff.1 h
  obtain ⟨schemaFile, hschema, h⟩ := Option.bind_eq_some_iff.1 h
  obtain ⟨writeMetadata, hmetadata, h⟩ := Option.bind_eq_some_iff.1 h
  obtain ⟨relationsOptional, hrelations, h⟩ := Option.bind_eq_some_iff.1 h
  obtain ⟨mapping, hmapping, h⟩ := Option.bind_eq_some_iff.1 h
  obtain rfl := Option.some.inj h
  have hurl : Members.get? "$schema" members = url.map Value.text := by
    cases hget : Members.get? "$schema" members with
    | none =>
        rw [hget] at hurl
        obtain rfl := Option.some.inj hurl
        rfl
    | some value =>
        obtain ⟨s, rfl⟩ := exists_text_of_not_breaks (by decide) (hvalue hget)
        rw [hget] at hurl
        obtain rfl := Option.some.inj hurl
        rfl
  obtain ⟨_, hmodel, hstyle⟩ := Option.bind_eq_some_iff.1 hmodel
  rw [eq_text_of_choiceOf? (by decide) (hvalue hmodel) hstyle] at hmodel
  obtain ⟨_, henum, hstyle⟩ := Option.bind_eq_some_iff.1 henum
  rw [eq_text_of_choiceOf? (by decide) (hvalue henum) hstyle] at henum
  obtain ⟨_, houtput, htext⟩ := Option.bind_eq_some_iff.1 houtput
  rw [eq_text_of_textOf? htext] at houtput
  obtain ⟨_, hschema, htext⟩ := Option.bind_eq_some_iff.1 hschema
  rw [eq_text_of_textOf? htext] at hschema
  obtain ⟨_, hmetadata, hbool⟩ := Option.bind_eq_some_iff.1 hmetadata
  rw [eq_bool_of_boolOf? hbool] at hmetadata
  obtain ⟨_, hrelations, hbool⟩ := Option.bind_eq_some_iff.1 hrelations
  rw [eq_bool_of_boolOf? hbool] at hrelations
  obtain ⟨_, hmapping, hobject⟩ := Option.bind_eq_some_iff.1 hmapping
  rw [eq_object_of_mappingOf? hobject] at hmapping
  simp only [knownKeys, List.forall_mem_cons]
  exact ⟨hurl.trans curl.symm, hmodel.trans cmodel.symm, henum.trans cenum.symm,
    houtput.trans coutput.symm, hschema.trans cschema.symm, hmetadata.trans cmetadata.symm,
    hrelations.trans crelations.symm, hmapping.trans cmapping.symm, by simp⟩

/-! ## Accepted documents -/

theorem laid_of_ne {key : String} (hkey : key ≠ "mapTypes") (value : Value)
    (below : Option Value) : laid key value below = value := by
  rcases laid_cases key value below with heq | ⟨hmapping, -⟩
  · exact heq
  · exact absurd hmapping hkey

/-- An accepted document is an object that obeys the rules, and the configuration has the
properties of the document laid over the default one. -/
theorem exists_of_read {text : String} {c : Config} (h : read text = .ok c) :
    ∃ members, Json.read text.toList = .ok (.object members) ∧
      (∀ v, ¬ Breaks (.object members) v) ∧
      ∀ key ∈ knownKeys, Members.get? key c.toMembers
        = Members.get? key (overlay ({} : Config).toMembers members) := by
  cases hread : Json.read text.toList with
  | error e =>
      simp [read, readFrom, hread] at h
  | ok document =>
      rcases read_cases hread with ⟨-, hfree⟩ | ⟨broken, hbroken, -⟩
      · have hobject : ∃ members, document = .object members := by
          by_contra hnone
          exact hfree _ (.notAnObject (not_exists.1 hnone))
        obtain ⟨members, rfl⟩ := hobject
        have hdistinct := Json.distinct_of_read hread
        have hlaid : ∀ v, ¬ Breaks (.object (overlay ({} : Config).toMembers members)) v := by
          intro v hv
          exact hfree v ((breaks_overlay_iff distinct_default not_breaks_default hdistinct).1 hv)
        refine ⟨members, rfl, hfree, fun key hkey => (get?_eq_of_ofMembers? hlaid ?_ key hkey).symm⟩
        simp only [read, readFrom, hread, complete_of_not_breaks hdistinct hfree] at h
        split at h
        · cases h
          assumption
        · cases h
      · rw [hbroken] at h
        cases h

/-- Every property but the type mapping is the one written last, or the default. -/
structure TakenFrom (written : List (Option String × Tree)) (c : Config) : Prop where
  schemaUrl : Json.lastUnder? "$schema" written = c.schemaUrl.map fun url => .text (some url)
  modelStyle : (Json.lastUnder? "outputType" written).getD
      (.text (some ({} : Config).modelStyle.word)) = .text (some c.modelStyle.word)
  enumStyle : (Json.lastUnder? "enumOutputType" written).getD
      (.text (some ({} : Config).enumStyle.word)) = .text (some c.enumStyle.word)
  outputFile : (Json.lastUnder? "outputFile" written).getD
      (.text (some ({} : Config).outputFile)) = .text (some c.outputFile)
  schemaFile : (Json.lastUnder? "prismaSchema" written).getD
      (.text (some ({} : Config).schemaFile)) = .text (some c.schemaFile)
  writeMetadata : (Json.lastUnder? "generateMetadata" written).getD
      (.bool ({} : Config).writeMetadata) = .bool c.writeMetadata
  relationsOptional : (Json.lastUnder? "relationFieldsOptional" written).getD
      (.bool ({} : Config).relationsOptional) = .bool c.relationsOptional

/-- The entries of a written type mapping: every name once, in the order of first appearance, with
the target that is written last. Without a mapping there are none. -/
inductive WrittenEntries : Option Tree → List (String × String) → Prop
  | absent : WrittenEntries none []
  | object {written : List (Option String × Tree)} {entries : List (String × String)}
      (hnames : entries.map Prod.fst = (written.filterMap Prod.fst).eraseDups)
      (htargets : ∀ e ∈ entries, Json.lastUnder? e.1 written = some (.text (some e.2))) :
      WrittenEntries (some (.object written)) entries

section Leaves

variable {room : Nat} {last : Option Tree} {own : Option Value}
  (hrel : Option.Rel (fun t v => t.toValue room = .ok v) last own)
include hrel

/-- A property that is taken over from a leaf of the document, or from below. -/
theorem getD_of_leaf {value below : Value} (h : some value = own.or (some below))
    (hleaf : ∀ {t : Tree}, t.toValue room = .ok value → t = value.toTree) :
    last.getD below.toTree = value.toTree := by
  cases hrel with
  | some hvalue =>
      obtain rfl := Option.some.inj h
      exact hleaf hvalue
  | none =>
      obtain rfl := Option.some.inj h
      rfl

theorem getD_of_text {s below : String} (h : some (Value.text s) = own.or (some (.text below))) :
    last.getD (.text (some below)) = .text (some s) :=
  getD_of_leaf hrel h Tree.eq_text_of_toValue

theorem getD_of_bool {b below : Bool} (h : some (Value.bool b) = own.or (some (.bool below))) :
    last.getD (.bool below) = .bool b :=
  getD_of_leaf hrel h Tree.eq_bool_of_toValue

/-- A text that may be absent. -/
theorem eq_map_of_text {s : Option String} (h : s.map Value.text = own) :
    last = s.map fun s => .text (some s) := by
  cases hrel with
  | some hvalue =>
      obtain ⟨s, rfl, rfl⟩ := Option.map_eq_some_iff.1 h
      rw [Tree.eq_text_of_toValue hvalue]
      rfl
  | none =>
      rw [Option.map_eq_none_iff.1 h]
      rfl

end Leaves

theorem eq_of_texts {entries others : List (String × String)}
    (h : Value.object (entries.map fun e => (e.1, .text e.2))
      = .object (others.map fun e => (e.1, .text e.2))) : entries = others := by
  have hmapping := congrArg mappingOf? h
  rw [mappingOf?_object, mappingOf?_object] at hmapping
  cases hmapping
  rfl

theorem writtenEntries_of_toValue {room : Nat} {t : Tree} {entries : List (String × String)}
    (h : t.toValue room = .ok (.object (entries.map fun e => (e.1, .text e.2)))) :
    WrittenEntries (some t) entries ∧ (entries.map Prod.fst).Nodup := by
  obtain ⟨left, written, pairs, rfl, hpairs, heq⟩ := Tree.written_of_toValue h
  have hkeys : entries.map Prod.fst = (Members.ofPairs pairs).map Prod.fst := by
    rw [← heq, List.map_map]
    rfl
  have hnames : (entries.map Prod.fst).Nodup := hkeys ▸ Members.nodup_keys_ofPairs pairs
  refine ⟨.object ?_ fun e he => ?_, hnames⟩
  · rw [hkeys, Members.keys_ofPairs, Json.keys_of_membersOf hpairs]
  · have hget : Members.get? e.1 (Members.ofPairs pairs) = some (.text e.2) := by
      rw [← heq, Members.get?_mapValues, (Members.get?_eq_some_iff hnames).2 he]
      rfl
    have hlast := Json.rel_lastUnder? hpairs e.1
    rw [hget] at hlast
    exact eq_map_of_text hlast (s := some e.2) rfl

section Overlay

variable {c : Config} {room : Nat} {written : List (Option String × Tree)}
  {members : List (String × Value)}
  (hrel : ∀ key, Option.Rel (fun t v => t.toValue room = .ok v) (Json.lastUnder? key written)
    (Members.get? key members))
  (hdistinct : Value.Distinct (.object members))
  (h : ∀ key ∈ knownKeys, Members.get? key c.toMembers
    = Members.get? key (overlay ({} : Config).toMembers members))
include hrel hdistinct h

theorem takenFrom_of_overlay : TakenFrom written c := by
  have hown : ∀ key ∈ knownKeys, key ≠ "mapTypes" → Members.get? key c.toMembers
      = (Members.get? key members).or (Members.get? key ({} : Config).toMembers) := by
    intro key hkey hne
    rw [h key hkey, get?_overlay hdistinct.keys]
    simp [laid_of_ne hne]
  obtain ⟨curl, cmodel, cenum, coutput, cschema, cmetadata, crelations, -⟩ := get?_toMembers c
  obtain ⟨durl, dmodel, denum, doutput, dschema, dmetadata, drelations, -⟩ :=
    get?_toMembers ({} : Config)
  refine ⟨eq_map_of_text (hrel _) ?_, getD_of_text (hrel _) ?_, getD_of_text (hrel _) ?_,
    getD_of_text (hrel _) ?_, getD_of_text (hrel _) ?_, getD_of_bool (hrel _) ?_,
    getD_of_bool (hrel _) ?_⟩
  · rw [← curl, hown _ (by decide) (by decide), durl]
    exact Option.or_none
  · rw [← cmodel, ← dmodel]
    exact hown _ (by decide) (by decide)
  · rw [← cenum, ← denum]
    exact hown _ (by decide) (by decide)
  · rw [← coutput, ← doutput]
    exact hown _ (by decide) (by decide)
  · rw [← cschema, ← dschema]
    exact hown _ (by decide) (by decide)
  · rw [← cmetadata, ← dmetadata]
    exact hown _ (by decide) (by decide)
  · rw [← crelations, ← drelations]
    exact hown _ (by decide) (by decide)

theorem exists_entries_of_overlay (hfree : ∀ v, ¬ Breaks (.object members) v) :
    ∃ entries, WrittenEntries (Json.lastUnder? "mapTypes" written) entries ∧
      (entries.map Prod.fst).Nodup ∧
      c.mapping.entries = Members.setAll entries TypeMapping.standard.entries := by
  obtain ⟨-, -, -, -, -, -, -, cmapping⟩ := get?_toMembers c
  obtain ⟨-, -, -, -, -, -, -, dmapping⟩ := get?_toMembers ({} : Config)
  have hmapping := h "mapTypes" (by decide)
  rw [get?_overlay hdistinct.keys, cmapping, dmapping] at hmapping
  have hlast := hrel "mapTypes"
  cases hget : Members.get? "mapTypes" members with
  | none =>
      rw [hget] at hlast hmapping
      generalize Json.lastUnder? "mapTypes" written = last at hlast
      cases hlast
      exact ⟨[], .absent, List.nodup_nil, eq_of_texts (Option.some.inj hmapping)⟩
  | some value =>
      -- Targets are texts, since the document obeys the rules.
      have hmem := Members.mem_of_get? hget
      obtain ⟨user, huser⟩ := exists_mappingOf? fun v hv => hfree v (.member hmem hv)
      obtain rfl := eq_object_of_mappingOf? huser
      rw [hget] at hlast hmapping
      generalize Json.lastUnder? "mapTypes" written = last at hlast ⊢
      cases hlast with
      | some hvalue =>
          obtain ⟨hentries, hnames⟩ := writtenEntries_of_toValue hvalue
          refine ⟨user.entries, hentries, hnames, eq_of_texts ?_⟩
          rw [Option.some.inj hmapping, ← Members.setAll_mapValues]
          rfl

end Overlay

end Config

/-! ## Insertions -/

theorem Scalar.ofKeyword?_eq_none_iff {name : String} :
    ofKeyword? name = none ↔ name ∉ all.map keyword := by
  simp [ofKeyword?, List.find?_eq_none]

namespace TypeMapping

/-- The standard mapping after an insertion for each entry. -/
def withEntries (entries : List (String × String)) : TypeMapping :=
  entries.foldl (fun m e => m.insert e.1 e.2) standard

theorem foldl_insert (entries : List (String × String)) (mapping : TypeMapping) :
    entries.foldl (fun m e => m.insert e.1 e.2) mapping
      = ⟨Members.setAll entries mapping.entries⟩ := by
  induction entries generalizing mapping with
  | nil =>
      rfl
  | cons e entries ih =>
      exact ih (mapping.insert e.1 e.2)

theorem entries_withEntries (entries : List (String × String)) :
    (withEntries entries).entries = Members.setAll entries standard.entries := by
  rw [withEntries, foldl_insert]

theorem keys_standard : standard.entries.map Prod.fst = Scalar.all.map Scalar.keyword := by
  decide

theorem get?_standard (s : Scalar) : standard.get? s.keyword = some s.target := by
  cases s <;> decide

theorem get?_standard_eq_none {name : String} (h : Scalar.ofKeyword? name = none) :
    standard.get? name = none := by
  rw [get?, ← Option.not_isSome_iff_eq_none, Members.isSome_get?_iff, keys_standard]
  exact Scalar.ofKeyword?_eq_none_iff.1 h

section Distinct

variable {entries : List (String × String)} (hnames : (entries.map Prod.fst).Nodup)
include hnames

theorem get?_withEntries (name : String) :
    (withEntries entries).get? name = (Members.get? name entries).or (standard.get? name) := by
  rw [get?, entries_withEntries, Members.get?_setAll hnames]
  rfl

theorem resolve_withEntries_of_mem {e : String × String} (he : e ∈ entries) :
    (withEntries entries).resolve e.1 = e.2 := by
  rw [resolve, get?_withEntries hnames, (Members.get?_eq_some_iff hnames).2 he]
  rfl

/-- Where no entry has the name, the standard mapping decides. -/
theorem resolve_withEntries_of_notMem {name : String} (h : name ∉ entries.map Prod.fst) :
    (withEntries entries).resolve name = standard.resolve name := by
  have hnone : Members.get? name entries = none := by
    rw [← Option.not_isSome_iff_eq_none, Members.isSome_get?_iff]
    exact h
  rw [resolve, get?_withEntries hnames, hnone]
  rfl

theorem keys_withEntries :
    (withEntries entries).entries.map Prod.fst
      = Scalar.all.map Scalar.keyword
        ++ (entries.map Prod.fst).filter (Scalar.ofKeyword? · = none) := by
  have hfilter : (entries.map Prod.fst).filter (· ∉ Scalar.all.map Scalar.keyword)
      = (entries.map Prod.fst).filter (Scalar.ofKeyword? · = none) :=
    List.filter_congr fun name _ => by simp only [Scalar.ofKeyword?_eq_none_iff]
  rw [entries_withEntries, Members.keys_setAll, keys_standard, hfilter,
    Members.eraseDups_of_nodup (hnames.filter _)]

end Distinct

end TypeMapping

namespace Config

open Json (Value Tree)

/-- What the written document of an accepted configuration says about it. -/
theorem exists_written_of_read {text : String} {c : Config} (h : read text = .ok c) :
    ∃ written entries, Json.readTree text.toList = .ok (.object written) ∧ TakenFrom written c ∧
      WrittenEntries (Json.lastUnder? "mapTypes" written) entries ∧
      (entries.map Prod.fst).Nodup ∧ c.mapping = TypeMapping.withEntries entries := by
  obtain ⟨members, hread, hfree, hgets⟩ := exists_of_read h
  have hdistinct := Json.distinct_of_read hread
  obtain ⟨tree, htree, hvalue⟩ := Json.exists_tree_of_read hread
  obtain ⟨room, written, pairs, rfl, hpairs, rfl⟩ := Tree.written_of_toValue hvalue
  have hrel := Json.rel_lastUnder? hpairs
  obtain ⟨entries, hentries, hnames, hmapping⟩ :=
    exists_entries_of_overlay hrel hdistinct hgets hfree
  refine ⟨written, entries, htree, takenFrom_of_overlay hrel hdistinct hgets, hentries, hnames, ?_⟩
  rw [TypeMapping.withEntries, TypeMapping.foldl_insert, ← hmapping]

/-- An accepted configuration has the properties that its document says last and the defaults for
all others. Its type mapping is the standard one after an insertion for each entry of the
document's mapping. So names stand for the targets of the document, then for those of the standard
mapping, then for themselves, and new names follow the standard ones. -/
theorem read_agrees_with_insertions {text : String} {c : Config} (h : read text = .ok c) :
    ∃ written, Json.readTree text.toList = .ok (.object written) ∧ TakenFrom written c ∧
      ∃ entries, WrittenEntries (Json.lastUnder? "mapTypes" written) entries ∧
        c.mapping = entries.foldl (fun m e => m.insert e.1 e.2) .standard ∧
        (∀ e ∈ entries, c.mapping.resolve e.1 = e.2) ∧
        (∀ s : Scalar, s.keyword ∉ entries.map Prod.fst →
          c.mapping.resolve s.keyword = s.target) ∧
        (∀ name, name ∉ entries.map Prod.fst → Scalar.ofKeyword? name = none →
          c.mapping.resolve name = name) ∧
        c.mapping.entries.map Prod.fst
          = Scalar.all.map Scalar.keyword
            ++ (entries.map Prod.fst).filter (Scalar.ofKeyword? · = none) := by
  obtain ⟨written, entries, htree, htaken, hentries, hnames, heq⟩ := exists_written_of_read h
  refine ⟨written, htree, htaken, entries, hentries, heq, ?_⟩
  rw [heq]
  refine ⟨fun e => TypeMapping.resolve_withEntries_of_mem hnames, fun s hs => ?_,
    fun name hname hscalar => ?_, TypeMapping.keys_withEntries hnames⟩
  · rw [TypeMapping.resolve_withEntries_of_notMem hnames hs, TypeMapping.resolve,
      TypeMapping.get?_standard]
    rfl
  · rw [TypeMapping.resolve_withEntries_of_notMem hnames hname, TypeMapping.resolve,
      TypeMapping.get?_standard_eq_none hscalar]
    rfl

/-- A document in which keys come again, at both levels and with values of other types. -/
def repeatedText : String :=
  "\x7b\"mapTypes\":0,\"outputFile\":1,\"outputFile\":\"b\",
    \"mapTypes\":\x7b\"Id\":null,\"Json\":\"any\",\"T\":\"t\",\"Id\":\"s\"\x7d\x7d"

theorem read_repeatedText :
    read repeatedText = .ok
      { outputFile := "b"
        mapping := .withEntries [("Id", "s"), ("Json", "any"), ("T", "t")] } := by
  decide +kernel

/-- The file written last counts, and the names of the last mapping keep the order of their first
appearance. -/
theorem read_agrees_with_insertions_repeatedText :
    ∃ c written entries, read repeatedText = .ok c ∧
      Json.readTree repeatedText.toList = .ok (.object written) ∧ TakenFrom written c ∧
      WrittenEntries (Json.lastUnder? "mapTypes" written) entries ∧
      c.mapping = entries.foldl (fun m e => m.insert e.1 e.2) .standard ∧
      c.outputFile = "b" ∧ c.schemaFile = "./prisma/schema.prisma" ∧
      c.mapping.resolve "Json" = "any" ∧ c.mapping.resolve "Int" = "number" ∧
      c.mapping.entries.map Prod.fst
        = ["String", "Int", "Float", "BigInt", "Boolean", "DateTime", "Json", "Decimal", "Bytes",
          "Unsupported", "Id", "T"] := by
  obtain ⟨written, htree, htaken, entries, hentries, hmapping, -⟩ :=
    read_agrees_with_insertions read_repeatedText
  exact ⟨_, written, entries, read_repeatedText, htree, htaken, hentries, hmapping, rfl, rfl, by decide,
    by decide, by decide⟩

end Config

end PrismaTypes
