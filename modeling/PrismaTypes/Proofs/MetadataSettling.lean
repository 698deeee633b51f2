import Mathlib.Data.List.Basic
import PrismaTypes.Proofs.MetadataRoundTrip

/-!
# Metadata that was read

Writing a schema and reading it back puts every default value into its reread form and changes
nothing else. A schema that came out of the reader has no such change ahead of it: whatever the form
of the document that was read,

* no list in it looks like a call (`Default.settled_of_ofTree?`), since the reader has already taken
  such lists for calls;
* its own document nests no deeper than the one that was read, since every record and every call
  needs as much room in its usual form as in any other;
* its whole numbers fit a word.

`Metadata.Settles` states this for each reader, from the parts of records up to schemas.
-/

namespace PrismaTypes

open Json (Value Number Tree)
open Metadata

namespace Json

/-! ## Documents that were read -/

/-- All whole numbers of the document fit a word. -/
inductive Tree.FitsWords : Tree → Prop
  | null : FitsWords .null
  | bool (b : Bool) : FitsWords (.bool b)
  | number {n : Option Number} (h : ∀ k, n = some (.whole k) → fitsWord k = true) :
      FitsWords (.number n)
  | text (s : Option String) : FitsWords (.text s)
  | list {items : List Tree} (h : ∀ t ∈ items, FitsWords t) : FitsWords (.list items)
  | object {members : List (Option String × Tree)} (h : ∀ m ∈ members, FitsWords m.2) :
      FitsWords (.object members)

theorem fitsWord_of_numberOf {n : Decimal.Numeral} {k : Int} :
    numberOf n = some (.whole k) → fitsWord k = true := by
  intro h
  unfold numberOf at h
  split at h
  · cases h
  · split at h
    · rename_i hfits
      cases h
      exact (Bool.and_eq_true_iff.1 hfits).2
    · simp at h

theorem fitsWords_of_readNumber {s rest : List Char} {t : Tree} :
    readNumber s = .ok (t, rest) → t.FitsWords := by
  intro h
  obtain ⟨_, -, h⟩ := exists_of_bind_eq_ok h
  obtain ⟨_, -, h⟩ := exists_of_bind_eq_ok h
  obtain ⟨_, -, h⟩ := exists_of_bind_eq_ok h
  cases h
  exact .number fun _ hk => fitsWord_of_numberOf hk

theorem eq_of_readWord {tree t : Tree} {word s rest : List Char} :
    readWord tree word s = .ok (t, rest) → t = tree := by
  intro h
  induction word generalizing s with
  | nil =>
      cases h
      rfl
  | cons w word ih =>
      cases s with
      | nil =>
          cases h
      | cons c s =>
          rw [readWord] at h
          split at h
          · exact ih h
          · cases h

section Readers

variable {fuel : Nat}
  (hvalue : ∀ s t rest, readValue fuel s = .ok (t, rest) → t.FitsWords)
  (hitems : ∀ s items rest, readItems fuel s = .ok (items, rest) → ∀ t ∈ items, t.FitsWords)
  (hmembers : ∀ s members rest, readMembers fuel s = .ok (members, rest) →
    ∀ m ∈ members, m.2.FitsWords)

include hitems hmembers in
theorem fitsWords_of_readValue {s rest : List Char} {t : Tree}
    (h : readValue (fuel + 1) s = .ok (t, rest)) : t.FitsWords := by
  rw [readValue] at h
  -- One case for each character that a value can start with.
  split at h
  · cases h
  · rw [eq_of_readWord h]
    exact .null
  · rw [eq_of_readWord h]
    exact .bool true
  · rw [eq_of_readWord h]
    exact .bool false
  · obtain ⟨_, -, h⟩ := exists_of_bind_eq_ok h
    cases h
    exact .text _
  · split at h
    · cases h
      exact .list (by simp)
    · cases h
    · obtain ⟨_, hread, h⟩ := exists_of_bind_eq_ok h
      cases h
      exact .list (hitems _ _ _ hread)
  · split at h
    · cases h
      exact .object (by simp)
    · cases h
    · obtain ⟨_, hread, h⟩ := exists_of_bind_eq_ok h
      cases h
      exact .object (hmembers _ _ _ hread)
  · split at h
    · exact fitsWords_of_readNumber h
    · cases h

include hvalue hitems in
theorem fitsWords_of_readItems {s rest : List Char} {items : List Tree}
    (h : readItems (fuel + 1) s = .ok (items, rest)) : ∀ t ∈ items, t.FitsWords := by
  rw [readItems] at h
  obtain ⟨⟨item, left⟩, hitem, h⟩ := exists_of_bind_eq_ok h
  have hfirst := hvalue _ _ _ hitem
  dsimp only at h
  split at h
  · cases h
    simpa using hfirst
  · split at h
    · cases h
    · obtain ⟨_, hread, h⟩ := exists_of_bind_eq_ok h
      cases h
      exact List.forall_mem_cons.2 ⟨hfirst, hitems _ _ _ hread⟩
  · cases h
  · cases h

include hvalue hmembers in
theorem fitsWords_of_readMembers {s rest : List Char} {members : List (Option String × Tree)}
    (h : readMembers (fuel + 1) s = .ok (members, rest)) : ∀ m ∈ members, m.2.FitsWords := by
  rw [readMembers.eq_def] at h
  dsimp only at h
  split at h
  · obtain ⟨⟨key, colon⟩, -, h⟩ := exists_of_bind_eq_ok h
    dsimp only at h
    split at h
    · obtain ⟨⟨value, left⟩, hread, h⟩ := exists_of_bind_eq_ok h
      have hfirst := hvalue _ _ _ hread
      dsimp only at h
      split at h
      · cases h
        simpa using hfirst
      · split at h
        · cases h
        · cases h
        · obtain ⟨_, hread, h⟩ := exists_of_bind_eq_ok h
          cases h
          exact List.forall_mem_cons.2 ⟨hfirst, hmembers _ _ _ hread⟩
      · cases h
      · cases h
    · cases h
    · cases h
  · cases h

end Readers

/-- The reader makes whole numbers only of numerals that fit a word. -/
theorem fitsWords_of_read (fuel : Nat) :
    (∀ s t rest, readValue fuel s = .ok (t, rest) → t.FitsWords) ∧
    (∀ s items rest, readItems fuel s = .ok (items, rest) → ∀ t ∈ items, t.FitsWords) ∧
    (∀ s members rest, readMembers fuel s = .ok (members, rest) →
      ∀ m ∈ members, m.2.FitsWords) := by
  -- The readers call each other with less fuel, so that all three go together.
  induction fuel with
  | zero =>
      refine ⟨?_, ?_, ?_⟩
      · intro s t rest h
        rw [readValue] at h
        cases h
      · intro s items rest h
        rw [readItems] at h
        cases h
      · intro s members rest h
        rw [readMembers] at h
        cases h
  | succ fuel ih =>
      obtain ⟨hvalue, hitems, hmembers⟩ := ih
      exact ⟨fun _ _ _ h => fitsWords_of_readValue hitems hmembers h,
        fun _ _ _ h => fitsWords_of_readItems hvalue hitems h,
        fun _ _ _ h => fitsWords_of_readMembers hvalue hmembers h⟩

theorem fitsWords_of_readTree {s : List Char} {t : Tree} : readTree s = .ok t → t.FitsWords := by
  intro h
  obtain ⟨⟨tree, rest⟩, hread, h⟩ := exists_of_bind_eq_ok h
  dsimp only at h
  split at h
  · cases h
    exact (fitsWords_of_read _).1 _ _ _ hread
  · cases h

/-! ### Nesting -/

theorem exists_of_valuesOf {room : Nat} {items : List Tree} {values : List Value} :
    valuesOf room items = .ok values → ∀ t ∈ items, ∃ v, t.toValue room = .ok v := by
  intro h
  induction items generalizing values with
  | nil =>
      simp
  | cons item items ih =>
      rw [valuesOf] at h
      obtain ⟨v, hv, h⟩ := exists_of_bind_eq_ok h
      obtain ⟨vs, hvs, -⟩ := exists_of_bind_eq_ok h
      exact List.forall_mem_cons.2 ⟨⟨v, hv⟩, ih hvs⟩

theorem exists_of_membersOf {room : Nat} {members : List (Option String × Tree)}
    {pairs : List (String × Value)} :
    membersOf room members = .ok pairs → ∀ m ∈ members, ∃ v, m.2.toValue room = .ok v := by
  intro h
  induction members generalizing pairs with
  | nil =>
      simp
  | cons m members ih =>
      obtain ⟨key | key, item⟩ := m
      · rw [membersOf] at h
        cases h
      · rw [membersOf] at h
        obtain ⟨v, hv, h⟩ := exists_of_bind_eq_ok h
        obtain ⟨vs, hvs, -⟩ := exists_of_bind_eq_ok h
        exact List.forall_mem_cons.2 ⟨⟨v, hv⟩, ih hvs⟩

/-- A list that is accepted as data takes one level of nesting. -/
theorem Tree.exists_of_toValue_list {room : Nat} {items : List Tree} {v : Value} :
    (Tree.list items).toValue room = .ok v →
      ∃ left, room = left + 1 ∧ ∀ t ∈ items, ∃ w, t.toValue left = .ok w := by
  intro h
  cases room with
  | zero =>
      rw [toValue] at h
      cases h
  | succ left =>
      rw [toValue] at h
      obtain ⟨values, hvalues, -⟩ := exists_of_map_eq_ok h
      exact ⟨left, rfl, exists_of_valuesOf hvalues⟩

theorem Tree.exists_of_toValue_object {room : Nat} {members : List (Option String × Tree)}
    {v : Value} : (Tree.object members).toValue room = .ok v →
      ∃ left, room = left + 1 ∧ ∀ m ∈ members, ∃ w, m.2.toValue left = .ok w := by
  intro h
  cases room with
  | zero =>
      rw [toValue] at h
      cases h
  | succ left =>
      rw [toValue] at h
      obtain ⟨pairs, hpairs, -⟩ := exists_of_map_eq_ok h
      exact ⟨left, rfl, exists_of_membersOf hpairs⟩

/-! ### Values that can be read back -/

/-- The value nests at most `room` levels deep, and its whole numbers fit a word. So only its
doubles may keep it from reading back. -/
structure Value.Legible (room : Nat) (v : Value) : Prop where
  depth : v.depth ≤ room
  words : ∀ k, Number.whole k ∈ v.numbers → fitsWord k = true

theorem Value.legible_text (room : Nat) (s : String) : (Value.text s).Legible room :=
  ⟨Nat.zero_le _, by simp [numbers]⟩

theorem Value.legible_bool (room : Nat) (b : Bool) : (Value.bool b).Legible room :=
  ⟨Nat.zero_le _, by simp [numbers]⟩

theorem Value.legible_null (room : Nat) : Value.null.Legible room :=
  ⟨Nat.zero_le _, by simp [numbers]⟩

theorem Value.legible_list {room : Nat} {items : List Value} (h : ∀ v ∈ items, v.Legible room) :
    (Value.list items).Legible (room + 1) := by
  refine ⟨depth_list_le_iff.2 fun v hv => (h v hv).depth, fun k hk => ?_⟩
  rw [numbers_list] at hk
  obtain ⟨v, hv, hk⟩ := List.mem_flatMap.1 hk
  exact (h v hv).words k hk

theorem Value.legible_object {room : Nat} {members : List (String × Value)}
    (h : ∀ m ∈ members, m.2.Legible room) : (Value.object members).Legible (room + 1) := by
  refine ⟨depth_object_le_iff.2 fun m hm => (h m hm).depth, fun k hk => ?_⟩
  rw [numbers_object] at hk
  obtain ⟨m, hm, hk⟩ := List.mem_flatMap.1 hk
  exact (h m hm).words k hk

end Json

/-! ## Parts that were read -/

namespace Metadata

section Settled

variable {α : Type} {decode : Decoder α} {write : α → Value} {reread : α → α} {room : Nat}
  {key : String} {found : List (String × Tree)}

/-- The part is written legibly in the room that is left, and reading it back does not change it. -/
structure Settled (write : α → Value) (reread : α → α) (room : Nat) (a : α) : Prop where
  legible : (write a).Legible room
  reread_eq : reread a = a

/-- Whatever the reader accepts is settled in the room that it was given. -/
def Settles (decode : Decoder α) (write : α → Value) (reread : α → α) : Prop :=
  ∀ room t a, t.FitsWords → decode room t = some a → Settled write reread room a

theorem map_eq_self_of_settled {items : List α} (h : ∀ a ∈ items, Settled write reread room a) :
    items.map reread = items :=
  map_eq_self_iff.2 fun a ha => (h a ha).reread_eq

theorem legible_list_map {items : List α} (h : ∀ a ∈ items, Settled write reread room a) :
    (Value.list (items.map write)).Legible (room + 1) := by
  refine Value.legible_list fun v hv => ?_
  obtain ⟨a, ha, rfl⟩ := List.mem_map.1 hv
  exact (h a ha).legible

end Settled

end Metadata

/-! ## Default values that were read -/

namespace Default

theorem ofTrees?_cons_eq_some_iff {t : Tree} {ts : List Tree} {ds : List Default} :
    ofTrees? (t :: ts) = some ds ↔
      ∃ d rest, ds = d :: rest ∧ ofTree? t = some d ∧ ofTrees? ts = some rest := by
  rw [ofTrees?]
  constructor
  · intro h
    obtain ⟨d, hd, h⟩ := Option.bind_eq_some_iff.1 h
    obtain ⟨rest, hrest, h⟩ := Option.bind_eq_some_iff.1 h
    cases h
    exact ⟨d, rest, rfl, hd, hrest⟩
  · rintro ⟨d, rest, rfl, hd, hrest⟩
    rw [hd, hrest]
    rfl

theorem exists_of_mem_ofTrees? {ts : List Tree} {ds : List Default} (h : ofTrees? ts = some ds) :
    ∀ d ∈ ds, ∃ t ∈ ts, ofTree? t = some d := by
  induction ts generalizing ds with
  | nil =>
      cases h
      simp
  | cons t ts ih =>
      obtain ⟨d, rest, rfl, hd, hrest⟩ := ofTrees?_cons_eq_some_iff.1 h
      refine List.forall_mem_cons.2 ⟨⟨t, by simp, hd⟩, fun d' hd' => ?_⟩
      obtain ⟨t', ht', hd'⟩ := ih hrest d' hd'
      exact ⟨t', by simp [ht'], hd'⟩

/-- Only a call is read from an object, and its arguments are those of a list in it. -/
theorem exists_of_callOf? {name : Option String} {args : Option (List Default)}
    {members : List (Option String × Tree)} {d : Default} :
    callOf? name args members = some d → ∃ n ds, d = call n ds ∧
      (args = some ds ∨ ∃ items, (some "args", .list items) ∈ members ∧
        ofTrees? items = some ds) := by
  intro h
  induction members generalizing name args with
  | nil =>
      rw [callOf?] at h
      obtain ⟨n, -, h⟩ := Option.bind_eq_some_iff.1 h
      obtain ⟨ds, hds, h⟩ := Option.bind_eq_some_iff.1 h
      cases h
      exact ⟨n, ds, rfl, .inl hds⟩
  | cons m members ih =>
      obtain ⟨key | key, t⟩ := m
      · rw [callOf?] at h
        cases h
      · rw [callOf?.eq_def] at h
        dsimp only at h
        split at h
        · split at h
          · obtain ⟨n, ds, rfl, hds⟩ := ih h
            refine ⟨n, ds, rfl, hds.imp_right ?_⟩
            rintro ⟨items, hitems, hread⟩
            exact ⟨items, by simp [hitems], hread⟩
          · cases h
        · split at h
          · rename_i hkey
            split at h
            · rename_i items
              obtain ⟨ds, hread, h⟩ := Option.bind_eq_some_iff.1 h
              obtain ⟨n, ds', rfl, hds | ⟨items', hitems', hread'⟩⟩ := ih h
              · cases hds
                exact ⟨n, ds, rfl, .inr ⟨items, by simp [hkey], hread⟩⟩
              · exact ⟨n, ds', rfl, .inr ⟨items', by simp [hitems'], hread'⟩⟩
            · cases h
          · obtain ⟨n, ds, rfl, hds⟩ := ih h
            refine ⟨n, ds, rfl, hds.imp_right ?_⟩
            rintro ⟨items, hitems, hread⟩
            exact ⟨items, by simp [hitems], hread⟩

/-- The ways to read a default value. -/
inductive ReadAs : Tree → Default → Prop
  | boolean (b : Bool) : ReadAs (.bool b) (boolean b)
  | number (n : Number) : ReadAs (.number (some n)) (number n)
  | text (s : String) : ReadAs (.text (some s)) (text s)
  | pair {name : String} {items : List Tree} {ds : List Default}
      (hargs : ofTrees? items = some ds) :
      ReadAs (.list [.text (some name), .list items]) (call name ds)
  | list {items : List Tree} {ds : List Default}
      (hshape : ∀ name args, items ≠ [.text (some name), .list args])
      (hitems : ofTrees? items = some ds) : ReadAs (.list items) (list ds)
  | object {members : List (Option String × Tree)} {name : String} {items : List Tree}
      {ds : List Default} (hmem : (some "args", .list items) ∈ members)
      (hargs : ofTrees? items = some ds) : ReadAs (.object members) (call name ds)

theorem readAs_of_ofTree? {t : Tree} {d : Default} : ofTree? t = some d → ReadAs t d := by
  intro h
  unfold ofTree? at h
  split at h
  · cases h
    exact .boolean _
  · obtain ⟨n, rfl, rfl⟩ := Option.map_eq_some_iff.1 h
    exact .number n
  · obtain ⟨s, rfl, rfl⟩ := Option.map_eq_some_iff.1 h
    exact .text s
  · obtain ⟨ds, hds, rfl⟩ := Option.map_eq_some_iff.1 h
    exact .pair hds
  · rename_i items hshape
    obtain ⟨ds, hds, rfl⟩ := Option.map_eq_some_iff.1 h
    exact .list hshape hds
  · obtain ⟨name, ds, rfl, hds | ⟨items, hmem, hitems⟩⟩ := exists_of_callOf? h
    · cases hds
    · exact .object hmem hitems
  · cases h

/-- A list of a text and a list comes only from such a list. -/
theorem exists_of_ofTrees?_pair {ts : List Tree} {name : String} {args : List Default} :
    ofTrees? ts = some [text name, list args] →
      ∃ items, ts = [.text (some name), .list items] := by
  intro h
  rcases ts with _ | ⟨t, ts⟩
  · cases h
  obtain ⟨_, _, heq, htext, h⟩ := ofTrees?_cons_eq_some_iff.1 h
  cases heq
  rcases ts with _ | ⟨u, ts⟩
  · cases h
  obtain ⟨_, _, heq, hlist, h⟩ := ofTrees?_cons_eq_some_iff.1 h
  cases heq
  rcases ts with _ | ⟨w, ts⟩
  · cases readAs_of_ofTree? htext
    cases readAs_of_ofTree? hlist
    exact ⟨_, rfl⟩
  · obtain ⟨_, _, heq, -⟩ := ofTrees?_cons_eq_some_iff.1 h
    cases heq

/-- A call needs two levels more than its arguments. -/
theorem settled_call {room : Nat} (name : String) {ds : List Default}
    (h : ∀ d ∈ ds, Settled toJson reread room d) :
    Settled toJson reread (room + 2) (call name ds) := by
  constructor
  · rw [toJson, toJsonList_eq_map]
    refine Value.legible_object fun m hm => ?_
    simp only [List.mem_cons, List.not_mem_nil, or_false] at hm
    rcases hm with rfl | rfl
    · exact Value.legible_text _ _
    · exact legible_list_map h
  · rw [reread, rereadAll_eq_map, map_eq_self_of_settled h]

/-- A default value that was read from a document in the room that is left is settled there. A call
needs no more room than the list or object that it was read from. -/
theorem settled_of_ofTree? (t : Tree) {room : Nat} {v : Value} {d : Default}
    (hwords : t.FitsWords) (hdata : t.toValue room = .ok v) (hread : ofTree? t = some d) :
    Settled toJson reread room d := by
  -- Arguments may lie two levels down, so the size of the document decreases and not its depth.
  have hlist : ∀ items ds left, sizeOf items < sizeOf t → (Tree.list items).FitsWords →
      (∀ u ∈ items, ∃ w, u.toValue left = .ok w) → ofTrees? items = some ds →
      ∀ x ∈ ds, Settled toJson reread left x := by
    intro items ds left hsize hitems hroom hds x hx
    obtain ⟨u, hu, hux⟩ := exists_of_mem_ofTrees? hds x hx
    obtain ⟨w, hw⟩ := hroom u hu
    have hlt : sizeOf u < sizeOf t := Nat.lt_trans (List.sizeOf_lt_of_mem hu) hsize
    cases hitems with
    | list hall =>
        exact settled_of_ofTree? u (hall u hu) hw hux
  cases readAs_of_ofTree? hread with
  | boolean b =>
      exact ⟨Value.legible_bool _ _, rfl⟩
  | text s =>
      exact ⟨Value.legible_text _ _, rfl⟩
  | number n =>
      refine ⟨⟨Nat.zero_le _, fun k hk => ?_⟩, rfl⟩
      cases hwords with
      | number hfits =>
          have hn : Number.whole k = n := by simpa [toJson, Value.numbers] using hk
          exact hfits k (by rw [hn])
  | @pair name items ds hargs =>
      obtain ⟨left, rfl, hleft⟩ := Tree.exists_of_toValue_list hdata
      obtain ⟨w, hw⟩ := hleft (.list items) (by simp)
      obtain ⟨inner, rfl, hinner⟩ := Tree.exists_of_toValue_list hw
      cases hwords with
      | list hall =>
          exact settled_call name
            (hlist items ds inner (by simp; omega) (hall _ (by simp)) hinner hargs)
  | @list items ds hshape hitems =>
      obtain ⟨left, rfl, hleft⟩ := Tree.exists_of_toValue_list hdata
      have hds := hlist items ds left (by simp) hwords hleft hitems
      refine ⟨?_, ?_⟩
      · rw [toJson, toJsonList_eq_map]
        exact legible_list_map hds
      · have hplain : looksLikeCall ds = false := by
          rw [Bool.eq_false_iff]
          intro hcall
          obtain ⟨name, args, rfl⟩ := exists_of_looksLikeCall hcall
          obtain ⟨args', rfl⟩ := exists_of_ofTrees?_pair hitems
          exact hshape name args' rfl
        rw [reread_list hplain, map_eq_self_of_settled hds]
  | @object members name items ds hmem hargs =>
      obtain ⟨left, rfl, hleft⟩ := Tree.exists_of_toValue_object hdata
      obtain ⟨w, hw⟩ := hleft _ hmem
      obtain ⟨inner, rfl, hinner⟩ := Tree.exists_of_toValue_list hw
      have hsize := List.sizeOf_lt_of_mem hmem
      cases hwords with
      | object hall =>
          exact settled_call name
            (hlist items ds inner (by simp at hsize ⊢; omega) (hall _ hmem) hinner hargs)
termination_by sizeOf t
decreasing_by exact hlt

end Default

/-! ## Records that were read -/

namespace Metadata

theorem settles_text : Settles Decoder.text Value.text id :=
  fun _ _ _ _ _ => ⟨Value.legible_text _ _, rfl⟩

theorem settles_default : Settles Default.decode Default.toJson Default.reread := by
  intro room t d hwords h
  unfold Default.decode at h
  split at h
  · rename_i v hdata
    exact Default.settled_of_ofTree? t hwords hdata h
  · cases h

section Settles

variable {α : Type} {decode : Decoder α} {write : α → Value} {reread : α → α} {room : Nat}
  {key : String} {found : List (String × Tree)}

theorem exists_of_mapM {β : Type} {read : β → Option α} {bs : List β} {as : List α}
    (h : bs.mapM read = some as) : ∀ a ∈ as, ∃ b ∈ bs, read b = some a := by
  induction bs generalizing as with
  | nil =>
      cases h
      simp
  | cons b bs ih =>
      rw [List.mapM_cons] at h
      obtain ⟨a, ha, h⟩ := Option.bind_eq_some_iff.1 h
      obtain ⟨rest, hrest, h⟩ := Option.bind_eq_some_iff.1 h
      cases h
      refine List.forall_mem_cons.2 ⟨⟨b, by simp, ha⟩, fun a' ha' => ?_⟩
      obtain ⟨b', hb', hread⟩ := ih hrest a' ha'
      exact ⟨b', by simp [hb'], hread⟩

theorem Settles.list (h : Settles decode write reread) :
    Settles (Decoder.list decode) (fun items => .list (items.map write)) (List.map reread) := by
  intro room t items hwords hread
  unfold Decoder.list at hread
  split at hread
  · rename_i left trees
    have hitems : ∀ a ∈ items, Settled write reread left a := by
      intro a ha
      obtain ⟨u, hu, hua⟩ := exists_of_mapM hread a ha
      cases hwords with
      | list hall =>
          exact h left u a (hall u hu) hua
    exact ⟨legible_list_map hitems, map_eq_self_of_settled hitems⟩
  · cases hread

theorem settles_textList : Settles (Decoder.list Decoder.text) textList id := by
  intro room t items hwords hread
  exact ⟨(settles_text.list room t items hwords hread).legible, rfl⟩

theorem settles_nativeType : Settles NativeType.decode NativeType.toJson id := by
  intro room t n hwords hread
  unfold NativeType.decode at hread
  split at hread
  · rename_i left name args
    obtain ⟨items, hitems, rfl⟩ := Option.map_eq_some_iff.1 hread
    cases hwords with
    | list hall =>
        have hargs := settles_textList left args items (hall args (by simp)) hitems
        refine ⟨Value.legible_list fun v hv => ?_, rfl⟩
        simp only [List.mem_cons, List.not_mem_nil, or_false] at hv
        rcases hv with rfl | rfl
        · exact Value.legible_text _ _
        · exact hargs.legible
  · cases hread

/-! ### Properties -/

theorem fitsWords_of_properties {keys : List String} {t : Tree} (hwords : t.FitsWords)
    (h : properties keys room t = some found) :
    ∃ left, room = left + 1 ∧ ∀ m ∈ found, m.2.FitsWords := by
  unfold properties at h
  split at h
  · rename_i left members
    obtain ⟨pairs, hpairs, h⟩ := Option.bind_eq_some_iff.1 h
    dsimp only at h
    split at h
    · cases h
      refine ⟨left, rfl, fun m hm => ?_⟩
      -- What is known of a record is part of it.
      obtain ⟨m', hm', heq⟩ := exists_of_mapM hpairs m (List.mem_of_mem_filter hm)
      obtain ⟨key, -, rfl⟩ := Option.map_eq_some_iff.1 heq
      cases hwords with
      | object hall =>
          exact hall m' hm'
    · cases h
  · rename_i left items
    split at h
    · cases h
      refine ⟨left, rfl, fun m hm => ?_⟩
      cases hwords with
      | list hall =>
          exact hall m.2 (List.of_mem_zip hm).2
    · cases h
  · cases h

theorem Settles.required (h : Settles decode write reread) (hfound : ∀ m ∈ found, m.2.FitsWords)
    {a : α} (hread : required decode room key found = some a) : Settled write reread room a := by
  obtain ⟨t, ht, hread⟩ := Option.bind_eq_some_iff.1 hread
  exact h room t a (hfound _ (Members.mem_of_get? ht)) hread

theorem Settles.defaulted (h : Settles decode write reread)
    (hfound : ∀ m ∈ found, m.2.FitsWords) {a absent : α}
    (hread : defaulted decode absent room key found = some a) :
    a = absent ∨ Settled write reread room a := by
  unfold Metadata.defaulted at hread
  split at hread
  · rename_i t ht
    exact .inr (h room t a (hfound _ (Members.mem_of_get? ht)) hread)
  · cases hread
    exact .inl rfl

/-- A member of a record that is left out or written legibly. -/
def LegibleSlot (room : Nat) (v : Option Value) : Prop :=
  ∀ w ∈ v, w.Legible room

theorem legibleSlot_some {v : Value} (h : v.Legible room) : LegibleSlot room (some v) := by
  intro w hw
  cases hw
  exact h

theorem legible_optionalText (room : Nat) (s : Option String) : (optionalText s).Legible room := by
  cases s with
  | none =>
      exact Value.legible_null room
  | some s =>
      exact Value.legible_text room s

theorem legibleSlot_text (room : Nat) (s : String) : LegibleSlot room (some (.text s)) :=
  legibleSlot_some (Value.legible_text room s)

theorem legibleSlot_bool (room : Nat) (b : Bool) : LegibleSlot room (some (.bool b)) :=
  legibleSlot_some (Value.legible_bool room b)

theorem legibleSlot_optionalText (room : Nat) (s : Option String) :
    LegibleSlot room (s.map .text) := by
  intro w hw
  obtain ⟨s, -, rfl⟩ := Option.map_eq_some_iff.1 hw
  exact Value.legible_text room s

theorem Settles.optional (h : Settles decode write reread)
    (hfound : ∀ m ∈ found, m.2.FitsWords) {o : Option α}
    (hread : Metadata.defaulted (Decoder.optional decode) none room key found = some o) :
    LegibleSlot room (o.map write) ∧ o.map reread = o := by
  have hnone : LegibleSlot room ((none : Option α).map write) ∧
      (none : Option α).map reread = none := ⟨by simp [LegibleSlot], rfl⟩
  unfold Metadata.defaulted at hread
  split at hread
  · rename_i t ht
    unfold Decoder.optional at hread
    split at hread
    · cases hread
      exact hnone
    · obtain ⟨a, ha, rfl⟩ := Option.map_eq_some_iff.1 hread
      have hsettled := h room t a (hfound _ (Members.mem_of_get? ht)) ha
      exact ⟨legibleSlot_some hsettled.legible, congrArg some hsettled.reread_eq⟩
  · cases hread
    exact hnone

/-- A list that is left out when empty takes a level of nesting only with items. -/
theorem Settles.listSlot (h : Settles decode write reread)
    (hfound : ∀ m ∈ found, m.2.FitsWords) {items : List α}
    (hread : Metadata.defaulted (Decoder.list decode) [] room key found = some items) :
    LegibleSlot room (listIf write items) := by
  intro w hw
  unfold listIf at hw
  split at hw
  · cases hw
  · rename_i hne
    cases hw
    rcases h.list.defaulted hfound hread with rfl | hsettled
    · exact absurd rfl hne
    · exact hsettled.legible

theorem legible_present {slots : List (String × Option Value)}
    (h : ∀ slot ∈ slots, LegibleSlot room slot.2) :
    (Value.object (present slots)).Legible (room + 1) := by
  refine Value.legible_object fun m hm => ?_
  exact h (m.1, some m.2) (mem_present.1 hm) m.2 rfl

end Settles

end Metadata

/-! ### The records -/

/-- Of the nineteen properties of a field, the four that can nest. -/
theorem Field.exists_of_decode {room : Nat} {t : Tree} {f : Field} :
    Field.decode room t = some f → ∃ found, properties keys room t = some found ∧
      defaulted (Decoder.optional Default.decode) none (room - 1) "default" found
        = some f.default ∧
      defaulted (Decoder.optional NativeType.decode) none (room - 1) "nativeType" found
        = some f.nativeType ∧
      defaulted (Decoder.list Decoder.text) [] (room - 1) "relationFromFields" found
        = some f.relationFrom ∧
      defaulted (Decoder.list Decoder.text) [] (room - 1) "relationToFields" found
        = some f.relationTo := by
  intro h
  obtain ⟨found, hfound, h⟩ := Option.bind_eq_some_iff.1 h
  obtain ⟨_, -, h⟩ := Option.bind_eq_some_iff.1 h
  obtain ⟨_, -, h⟩ := Option.bind_eq_some_iff.1 h
  obtain ⟨_, -, h⟩ := Option.bind_eq_some_iff.1 h
  obtain ⟨_, -, h⟩ := Option.bind_eq_some_iff.1 h
  obtain ⟨_, -, h⟩ := Option.bind_eq_some_iff.1 h
  obtain ⟨_, -, h⟩ := Option.bind_eq_some_iff.1 h
  obtain ⟨_, -, h⟩ := Option.bind_eq_some_iff.1 h
  obtain ⟨_, -, h⟩ := Option.bind_eq_some_iff.1 h
  obtain ⟨_, -, h⟩ := Option.bind_eq_some_iff.1 h
  obtain ⟨default, hdefault, h⟩ := Option.bind_eq_some_iff.1 h
  obtain ⟨_, -, h⟩ := Option.bind_eq_some_iff.1 h
  obtain ⟨_, -, h⟩ := Option.bind_eq_some_iff.1 h
  obtain ⟨nativeType, hnative, h⟩ := Option.bind_eq_some_iff.1 h
  obtain ⟨_, -, h⟩ := Option.bind_eq_some_iff.1 h
  obtain ⟨relationFrom, hfrom, h⟩ := Option.bind_eq_some_iff.1 h
  obtain ⟨relationTo, hto, h⟩ := Option.bind_eq_some_iff.1 h
  obtain ⟨_, -, h⟩ := Option.bind_eq_some_iff.1 h
  obtain ⟨_, -, h⟩ := Option.bind_eq_some_iff.1 h
  obtain ⟨_, -, h⟩ := Option.bind_eq_some_iff.1 h
  cases h
  exact ⟨found, hfound, hdefault, hnative, hfrom, hto⟩

theorem Field.settles : Settles Field.decode Field.toJson Field.reread := by
  intro room t f hwords h
  obtain ⟨found, hfound, hdefault, hnative, hfrom, hto⟩ := exists_of_decode h
  obtain ⟨left, rfl, hall⟩ := fitsWords_of_properties hwords hfound
  have hdefault := settles_default.optional hall hdefault
  have hnative := settles_nativeType.optional hall hnative
  have hfrom := settles_text.listSlot hall hfrom
  have hto := settles_text.listSlot hall hto
  rw [Nat.add_sub_cancel] at hdefault hnative hfrom hto
  constructor
  · rw [toJson_eq]
    refine legible_present ?_
    simp [slots, legibleSlot_text, legibleSlot_bool, legibleSlot_optionalText, hdefault.1,
      hnative.1, hfrom, hto]
  · simp only [reread, hdefault.2]

theorem PrimaryKey.settles : Settles PrimaryKey.decode PrimaryKey.toJson id := by
  intro room t k hwords h
  obtain ⟨found, hfound, h⟩ := Option.bind_eq_some_iff.1 h
  obtain ⟨left, rfl, hall⟩ := fitsWords_of_properties hwords hfound
  simp only [Nat.add_sub_cancel, Option.bind_eq_bind, Option.bind_eq_some_iff] at h
  obtain ⟨name, -, fields, hfields, h⟩ := h
  cases h
  have hfields := settles_textList.required hall hfields
  refine ⟨?_, rfl⟩
  rw [toJson_eq]
  refine legible_present ?_
  simp [slots, legibleSlot_some (legible_optionalText left name), legibleSlot_some hfields.legible]

theorem Model.settles : Settles Model.decode Model.toJson Model.reread := by
  intro room t m hwords h
  obtain ⟨found, hfound, h⟩ := Option.bind_eq_some_iff.1 h
  obtain ⟨left, rfl, hall⟩ := fitsWords_of_properties hwords hfound
  simp only [Nat.add_sub_cancel, Option.bind_eq_bind, Option.bind_eq_some_iff] at h
  obtain ⟨name, -, dbName, -, fields, hfields, primaryKey, hkey, uniqueFields, hunique,
    documentation, -, h⟩ := h
  cases h
  have hfields := Field.settles.list.required hall hfields
  have hkey := PrimaryKey.settles.optional hall hkey
  have hunique := settles_textList.listSlot hall hunique
  constructor
  · rw [toJson_eq]
    refine legible_present ?_
    simp [slots, legibleSlot_text, legibleSlot_optionalText, legibleSlot_some hfields.legible,
      hkey.1, hunique]
  · simp only [reread, hfields.reread_eq]

theorem EnumMember.settles : Settles EnumMember.decode EnumMember.toJson id := by
  intro room t m hwords h
  obtain ⟨found, hfound, h⟩ := Option.bind_eq_some_iff.1 h
  obtain ⟨left, rfl, -⟩ := fitsWords_of_properties hwords hfound
  refine ⟨?_, rfl⟩
  rw [toJson_eq]
  refine legible_present ?_
  simp [slots, legibleSlot_text, legibleSlot_optionalText,
    legibleSlot_some (legible_optionalText left m.dbName)]

theorem EnumType.settles : Settles EnumType.decode EnumType.toJson id := by
  intro room t e hwords h
  obtain ⟨found, hfound, h⟩ := Option.bind_eq_some_iff.1 h
  obtain ⟨left, rfl, hall⟩ := fitsWords_of_properties hwords hfound
  simp only [Nat.add_sub_cancel, Option.bind_eq_bind, Option.bind_eq_some_iff] at h
  obtain ⟨name, -, members, hmembers, dbName, -, documentation, -, h⟩ := h
  cases h
  have hmembers := EnumMember.settles.list.required hall hmembers
  refine ⟨?_, rfl⟩
  rw [toJson_eq]
  refine legible_present ?_
  simp [slots, legibleSlot_text, legibleSlot_optionalText, legibleSlot_some hmembers.legible]

theorem Schema.settles : Settles Schema.decode Schema.toJson Schema.reread := by
  intro room t s hwords h
  obtain ⟨found, hfound, h⟩ := Option.bind_eq_some_iff.1 h
  obtain ⟨left, rfl, hall⟩ := fitsWords_of_properties hwords hfound
  simp only [Nat.add_sub_cancel, Option.bind_eq_bind, Option.bind_eq_some_iff] at h
  obtain ⟨models, hmodels, enums, henums, h⟩ := h
  cases h
  have hmodels := Model.settles.list.required hall hmodels
  have henums := EnumType.settles.list.required hall henums
  constructor
  · rw [toJson_eq]
    refine legible_present ?_
    simp [slots, legibleSlot_some hmodels.legible, legibleSlot_some henums.legible]
  · simp only [reread, hmodels.reread_eq]

/-! ## Reading what was written and writing what was read -/

/-- A legible schema whose doubles read back is read from its metadata in its reread form. -/
theorem Schema.ofMetadata?_of_legible {s : Schema} (h : s.toJson.Legible Json.maxDepth)
    (hdoubles : ∀ x, Number.double x ∈ s.toJson.numbers → (Number.double x).ReadsBack) :
    ofMetadata? s.metadata = some s.reread := by
  refine ofMetadata?_metadata (fun n hn => ?_) h.depth
  cases n with
  | whole k =>
      exact Number.readsBack_whole (h.words k hn)
  | double x =>
      exact hdoubles x hn

/-- Any schema at all, parsed or put together by hand, whose metadata is within the nesting limit,
whose whole numbers fit a word and whose doubles read back from their texts: reading its metadata
gives the schema with every default value in its reread form, and nothing else is changed. -/
theorem metadata_rereads_defaults (s : Schema) (hdepth : s.toJson.depth ≤ Json.maxDepth)
    (hwords : ∀ k, Number.whole k ∈ s.toJson.numbers → Json.fitsWord k = true)
    (hdoubles : ∀ x, Number.double x ∈ s.toJson.numbers → (Number.double x).ReadsBack) :
    Schema.ofMetadata? s.metadata = some { s with
      models := s.models.map fun m => { m with
        fields := m.fields.map fun f => { f with default := f.default.map Default.reread } } } :=
  Schema.ofMetadata?_of_legible ⟨hdepth, hwords⟩ hdoubles

/-- Texts of any kind, and a list of a text and a list among the items of another one. -/
theorem metadata_rereads_defaults_nested_pairs :
    ∃ s s' : Schema, s.toJson.depth ≤ Json.maxDepth ∧
      s.toJson.numbers = [.double ⟨false, 6755399441055744, -52⟩, .whole 3] ∧
      (s.models.flatMap Model.fields).map Field.default = [some (.list [.text "a\n", .list
        [.list [.text "\"b\"", .list []], .number (.double ⟨false, 6755399441055744, -52⟩),
          .list [.text "c", .number (.whole 3)]]])] ∧
      Schema.ofMetadata? s.metadata = some s' ∧
      (s'.models.flatMap Model.fields).map Field.default = [some (.call "a\n"
        [.call "\"b\"" [], .number (.double ⟨false, 6755399441055744, -52⟩),
          .list [.text "c", .number (.whole 3)]])] := by
  let half : Number := .double ⟨false, 6755399441055744, -52⟩
  let d : Default := .list [.text "a\n", .list [.list [.text "\"b\"", .list []], .number half,
    .list [.text "c", .number (.whole 3)]]]
  let s : Schema :=
    { models := [{ name := "∀", fields := [
        { name := "", kind := .enum, typeName := "x y", default := some d }] }] }
  have hdepth : s.toJson.depth ≤ Json.maxDepth := by decide +kernel
  have hnumbers : s.toJson.numbers = [half, .whole 3] := by decide +kernel
  have hwords : ∀ k, Number.whole k ∈ s.toJson.numbers → Json.fitsWord k = true := by
    intro k hk
    have heq : k = 3 := by simpa [hnumbers, half] using hk
    rw [heq]
    decide
  have hdoubles : ∀ x, Number.double x ∈ s.toJson.numbers → (Number.double x).ReadsBack := by
    intro x hx
    have heq : x = ⟨false, 6755399441055744, -52⟩ := by simpa [hnumbers, half] using hx
    rw [heq]
    decide +kernel
  exact ⟨s, _, hdepth, hnumbers, rfl, metadata_rereads_defaults s hdepth hwords hdoubles, rfl⟩

/-- Whatever text is read as a schema, in any of the forms that the reader allows, the schema is
read unchanged from its own metadata, and its metadata stays the same from then on. -/
theorem metadata_reading_settles (text : String) (s : Schema)
    (h : Schema.ofMetadata? text = some s)
    (hdoubles : ∀ x, Number.double x ∈ s.toJson.numbers → (Number.double x).ReadsBack) :
    Schema.ofMetadata? s.metadata = some s ∧
      ∀ s', Schema.ofMetadata? s.metadata = some s' → s'.metadata = s.metadata := by
  have hsettled : Settled Schema.toJson Schema.reread Json.maxDepth s := by
    unfold Schema.ofMetadata? at h
    split at h
    · rename_i tree htree
      exact Schema.settles Json.maxDepth tree s (Json.fitsWords_of_readTree htree) h
    · cases h
  have hread : Schema.ofMetadata? s.metadata = some s := by
    have hagain := Schema.ofMetadata?_of_legible hsettled.legible hdoubles
    rwa [hsettled.reread_eq] at hagain
  refine ⟨hread, fun s' hs' => ?_⟩
  rw [hread] at hs'
  cases hs'
  rfl

/-- Records as lists, an unknown key, and a call in the form of a list inside another one. -/
theorem metadata_reading_settles_list_forms :
    ∃ s, Schema.ofMetadata? ("\x7b\"x\":0,\"enums\":[],\"models\":[[\"A\",null,[[\"y\","
        ++ "\"scalar\",false,true,false,false,false,false,true,"
        ++ "[\"f\",[[\"g\",[1.5]]]],\"J\"]]]]\x7d") = some s ∧
      s.toJson.numbers = [.double ⟨false, 6755399441055744, -52⟩] ∧
      Schema.ofMetadata? s.metadata = some s := by
  have hcheck : (Schema.ofMetadata? ("\x7b\"x\":0,\"enums\":[],\"models\":[[\"A\",null,[[\"y\","
        ++ "\"scalar\",false,true,false,false,false,false,true,"
        ++ "[\"f\",[[\"g\",[1.5]]]],\"J\"]]]]\x7d")).any
      (fun s => s.toJson.numbers = [.double ⟨false, 6755399441055744, -52⟩]) = true := by
    decide +kernel
  obtain ⟨s, hread, hnumbers⟩ := (Option.any_eq_true _ _).1 hcheck
  have hnumbers := of_decide_eq_true hnumbers
  have hdoubles : ∀ x, Number.double x ∈ s.toJson.numbers → (Number.double x).ReadsBack := by
    intro x hx
    have heq : x = ⟨false, 6755399441055744, -52⟩ := by simpa [hnumbers] using hx
    rw [heq]
    decide +kernel
  exact ⟨s, hread, hnumbers, (metadata_reading_settles _ s hread hdoubles).1⟩

end PrismaTypes
