import PrismaTypes.Proofs.ConfigOverlay

/-!
# Saved configurations

The document of a configuration, also with blanks behind it, can be read. What is read has all
properties of the configuration, and its type mapping with the standard names that it lacks put in
front (`Config.read_render`). A configuration that was read lacks none: the standard names are the
first ones of its mapping. So it is read back as it is.
-/

namespace PrismaTypes

/-! ## Texts with blanks behind them -/

namespace Json

theorem renderText_append (s : String) (rest more : List Char) :
    renderText s (rest ++ more) = renderText s rest ++ more := by
  simp [renderText]

theorem renderItems_append {style : Style} {items : List Value}
    (h : ∀ v ∈ items, ∀ level rest more,
      v.render style level (rest ++ more) = v.render style level rest ++ more)
    (level : Nat) (rest more : List Char) :
    renderItems style level items (rest ++ more)
      = renderItems style level items rest ++ more := by
  induction items with
  | nil =>
      simp [renderItems]
  | cons item items ih =>
      rw [renderItems, renderItems, ih fun v hv => h v (by simp [hv]), h item (by simp)]
      simp

theorem renderMembers_append {style : Style} {members : List (String × Value)}
    (h : ∀ m ∈ members, ∀ level rest more,
      m.2.render style level (rest ++ more) = m.2.render style level rest ++ more)
    (level : Nat) (rest more : List Char) :
    renderMembers style level members (rest ++ more)
      = renderMembers style level members rest ++ more := by
  induction members with
  | nil =>
      simp [renderMembers]
  | cons m members ih =>
      rw [renderMembers, renderMembers, ih fun m hm => h m (by simp [hm]), h m (by simp),
        ← List.append_assoc, renderText_append]
      simp

/-- What follows a value does not change how it is written. -/
theorem Value.render_append (style : Style) (v : Value) :
    ∀ level rest more, v.render style level (rest ++ more) = v.render style level rest ++ more := by
  induction v using Value.induction with
  | hnull | hnumber =>
      intro level rest more
      rw [render, render, List.append_assoc]
  | hbool b =>
      intro level rest more
      cases b <;> rw [render, render, List.append_assoc]
  | htext s =>
      intro level rest more
      rw [render, render, renderText_append]
  | hlist items ih =>
      intro level rest more
      cases items with
      | nil =>
          simp [render]
      | cons item items =>
          rw [render, render, renderItems_append fun v hv => ih v (by simp [hv]),
            ih item (by simp)]
          simp
  | hobject members ih =>
      intro level rest more
      cases members with
      | nil =>
          simp [render]
      | cons m members =>
          rw [render, render, renderMembers_append fun m hm => ih m (by simp [hm]),
            ih m (by simp), ← List.append_assoc, renderText_append]
          simp

theorem endsNumber_of_blanks {blanks : List Char} (h : blanks.all isBlankChar = true) :
    endsNumber blanks = true := by
  cases blanks with
  | nil =>
      rfl
  | cons c blanks =>
      have hc : isBlankChar c = true := List.all_eq_true.1 h c (by simp)
      simp only [isBlankChar, Bool.or_eq_true, decide_eq_true_eq] at hc
      rcases hc with ((rfl | rfl) | rfl) | rfl <;> rfl

theorem readTree_render_blanks {style : Style} {v : Value}
    (hnumbers : ∀ n ∈ v.numbers, n.ReadsBack) {blanks : List Char}
    (hblanks : blanks.all isBlankChar = true) :
    readTree (v.render style 0 [] ++ blanks) = .ok v.toTree := by
  have hrender : v.render style 0 [] ++ blanks = v.render style 0 blanks :=
    (v.render_append style 0 [] blanks).symm
  have hreads : v.Reads style := Value.reads hnumbers
  have hread := hreads 0 (2 * (v.render style 0 blanks).length + 2) _ blanks
    (endsNumber_of_blanks hblanks) (v.skipBlanks_render hnumbers) (by omega)
  have hskip : skipBlanks blanks = [] := by
    rw [← List.append_nil blanks, skipBlanks_append hblanks]
    rfl
  rw [hrender]
  simp only [readTree, hread, bind, Except.bind, hskip]
  rfl

/-! ## Data that are written and read -/

theorem valuesOf_trees {room : Nat} {items : List Value}
    (h : ∀ v ∈ items, v.toTree.toValue room = .ok v) :
    valuesOf room (items.map Value.toTree) = .ok items := by
  induction items with
  | nil =>
      rfl
  | cons v rest ih =>
      rw [List.map_cons, valuesOf, h v (by simp), ih fun v' hv' => h v' (by simp [hv'])]
      rfl

theorem membersOf_trees {room : Nat} {members : List (String × Value)}
    (h : ∀ m ∈ members, m.2.toTree.toValue room = .ok m.2) :
    membersOf room (members.map fun m => (some m.1, m.2.toTree)) = .ok members := by
  induction members with
  | nil =>
      rfl
  | cons m rest ih =>
      rw [List.map_cons, membersOf, h m (by simp), ih fun m' hm' => h m' (by simp [hm'])]
      rfl

/-- Data without repeated keys are not changed by merging. -/
theorem Value.toValue_toTree {v : Value} (hdistinct : v.Distinct) {room : Nat}
    (hroom : v.depth ≤ room) : v.toTree.toValue room = .ok v := by
  induction v using Value.induction generalizing room with
  | hnull | hbool | hnumber | htext =>
      rw [toTree, Tree.toValue]
  | hlist items ih =>
      cases room with
      | zero =>
          rw [depth] at hroom
          omega
      | succ room =>
          have hitems := depth_list_le_iff.1 hroom
          cases hdistinct with
          | list hvalues =>
              rw [toTree, treesOf_eq_map, Tree.toValue,
                valuesOf_trees fun v hv => ih v hv (hvalues v hv) (hitems v hv)]
              rfl
  | hobject members ih =>
      cases room with
      | zero =>
          rw [depth] at hroom
          omega
      | succ room =>
          have hmembers := depth_object_le_iff.1 hroom
          have hmerged : Members.ofPairs members = members :=
            Members.setAll_eq_self hdistinct.keys List.nil_prefix
          rw [toTree, treeMembersOf_eq_map, Tree.toValue,
            membersOf_trees fun m hm => ih m hm (hdistinct.value hm) (hmembers m hm)]
          show Except.ok (object (Members.ofPairs members)) = _
          rw [hmerged]

end Json

/-! ## Reading saved configurations -/

namespace Config

open Json (Value Tree)

theorem numbers_toJson (c : Config) : c.toJson.numbers = [] := by
  rw [toJson, Value.numbers_object, List.flatMap_eq_nil_iff]
  intro m hm
  rcases value_of_mem_toMembers hm with ⟨s, heq⟩ | ⟨b, heq⟩ | heq
  · rw [heq]
    rfl
  · rw [heq]
    rfl
  · rw [heq, Value.numbers_object, List.flatMap_eq_nil_iff]
    intro e he
    obtain ⟨entry, -, rfl⟩ := List.mem_map.1 he
    rfl

theorem depth_toJson_le (c : Config) : c.toJson.depth ≤ 2 := by
  refine Value.depth_object_le_iff.2 fun m hm => ?_
  rcases value_of_mem_toMembers hm with ⟨s, heq⟩ | ⟨b, heq⟩ | heq
  · rw [heq]
    exact Nat.zero_le 1
  · rw [heq]
    exact Nat.zero_le 1
  · rw [heq]
    refine Value.depth_object_le_iff.2 fun e he => ?_
    obtain ⟨entry, -, rfl⟩ := List.mem_map.1 he
    exact Nat.le_refl 0

/-- Laid over the default document, a document changes nothing but the type mapping. -/
theorem ofMembers?_overlay_toMembers (c : Config) :
    ofMembers? (overlay ({} : Config).toMembers c.toMembers)
      = some { c with mapping := TypeMapping.withEntries c.mapping.entries } := by
  obtain ⟨hurl, hmodel, henum, houtput, hschema, hmetadata, hrelations, hmapping⟩ :=
    get?_toMembers c
  obtain ⟨hurl', hmodel', henum', houtput', hschema', hmetadata', hrelations', hmapping'⟩ :=
    get?_toMembers { c with mapping := TypeMapping.withEntries c.mapping.entries }
  obtain ⟨hbaseUrl, -, -, -, -, -, -, hbase⟩ := get?_toMembers {}
  have hlaid : laid "mapTypes" (.object (c.mapping.entries.map fun e => (e.1, .text e.2)))
      (some (.object (TypeMapping.standard.entries.map fun e => (e.1, .text e.2))))
      = .object ((TypeMapping.withEntries c.mapping.entries).entries.map
          fun e => (e.1, .text e.2)) := by
    rw [laid, if_pos rfl, Members.setAll_mapValues, TypeMapping.entries_withEntries]
  rw [← ofMembers?_toMembers { c with mapping := TypeMapping.withEntries c.mapping.entries }]
  apply ofMembers?_congr
  simp only [knownKeys, List.forall_mem_cons, get?_overlay (nodup_keys_toMembers c)]
  rw [hurl, hurl', hbaseUrl, hmodel, hmodel', henum, henum', houtput, houtput', hschema, hschema',
    hmetadata, hmetadata', hrelations, hrelations', hmapping, hmapping', hbase]
  refine ⟨?_, rfl, rfl, rfl, rfl, rfl, rfl, ?_, fun key hkey => absurd hkey List.not_mem_nil⟩
  · -- The default document has no such member that could come through.
    cases c.schemaUrl <;> rfl
  · exact congrArg some hlaid

section Saved

variable {c : Config} (hnames : (c.mapping.entries.map Prod.fst).Nodup)

include hnames

theorem jsonRead_render {blanks : String} (hblanks : blanks.toList.all Json.isBlankChar = true) :
    Json.read (c.render ++ blanks).toList = .ok c.toJson := by
  have hnumbers : ∀ n ∈ c.toJson.numbers, n.ReadsBack := by
    intro n hn
    rw [numbers_toJson] at hn
    cases hn
  have htree : Json.readTree (c.render ++ blanks).toList = .ok c.toJson.toTree := by
    rw [String.toList_append, render, Value.pretty, String.toList_ofList]
    exact Json.readTree_render_blanks hnumbers hblanks
  have hvalue : c.toJson.toTree.toValue Json.maxDepth = .ok c.toJson :=
    Value.toValue_toTree (distinct_toMembers hnames)
      (Nat.le_trans (depth_toJson_le c) (by decide))
  simp only [Json.read, htree, bind, Except.bind, hvalue]
  rfl

/-- A saved configuration is read with its type mapping laid over the standard one. -/
theorem read_render {blanks : String} (hblanks : blanks.toList.all Json.isBlankChar = true) :
    read (c.render ++ blanks)
      = .ok { c with mapping := TypeMapping.withEntries c.mapping.entries } :=
  read_of_complete_ok (jsonRead_render hnames hblanks)
    (complete_of_not_breaks (distinct_toMembers hnames) (not_breaks_toMembers hnames))
    (ofMembers?_overlay_toMembers c)

end Saved

/-- The mapping of an accepted configuration has the standard names in front, so laying it over the
standard one changes nothing. -/
theorem withEntries_of_read {text : String} {c : Config} (h : read text = .ok c) :
    (c.mapping.entries.map Prod.fst).Nodup ∧
      TypeMapping.withEntries c.mapping.entries = c.mapping := by
  obtain ⟨-, entries, -, -, -, hnames, heq⟩ := exists_written_of_read h
  have hkeys := TypeMapping.keys_withEntries hnames
  rw [← heq] at hkeys
  have hnodup : (c.mapping.entries.map Prod.fst).Nodup := by
    rw [heq, TypeMapping.entries_withEntries]
    exact Members.nodup_keys_setAll _ (Members.nodup_keys_ofPairs _)
  have hfront : TypeMapping.standard.entries.map Prod.fst <+: c.mapping.entries.map Prod.fst := by
    rw [TypeMapping.keys_standard, hkeys]
    exact List.prefix_append _ _
  refine ⟨hnodup, ?_⟩
  rw [TypeMapping.withEntries, TypeMapping.foldl_insert, Members.setAll_eq_self hnodup hfront]

/-- Saving an accepted configuration and reading it again gives the same configuration, with the
names of its mapping in the same order, and so the same text; also where the file ends in a line
feed. -/
theorem read_render_of_read {text : String} {c : Config} (h : read text = .ok c) :
    read c.render = .ok c ∧ read (c.render ++ "\n") = .ok c ∧
      (read c.render).map render = .ok c.render := by
  obtain ⟨hnames, hmapping⟩ := withEntries_of_read h
  have hsaved : ∀ {blanks : String}, blanks.toList.all Json.isBlankChar = true →
      read (c.render ++ blanks) = .ok c := by
    intro blanks hblanks
    rw [read_render hnames hblanks, hmapping]
  have hread : read c.render = .ok c := by
    rw [← String.append_empty (s := c.render)]
    exact hsaved rfl
  refine ⟨hread, hsaved (by decide), ?_⟩
  rw [hread]
  rfl

/-- The new names of a mapping keep their places behind the standard ones. -/
theorem read_render_of_read_repeatedText :
    ∃ c, read repeatedText = .ok c ∧ c ≠ {} ∧ c.mapping.resolve "T" = "t" ∧
      read c.render = .ok c ∧ read (c.render ++ "\n") = .ok c ∧
      (read c.render).map render = .ok c.render :=
  ⟨_, read_repeatedText, by decide, by decide, read_render_of_read read_repeatedText⟩

end Config

end PrismaTypes
