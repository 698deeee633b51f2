import Mathlib.Data.List.Nodup
import PrismaTypes.Members

/-!
# Members in order: lookup

What is found under a key after members are put together or set one by one. Setting keeps the keys
distinct, and among distinct keys a lookup finds a pair just when the pair is there. Keys that were
there keep their order, and new ones follow in the order in which they first appear.
-/

namespace PrismaTypes
namespace Members

variable {α : Type} {key : String} {value : α} {members : List (String × α)}

/-! ## Keys and pairs -/

theorem isSome_get?_iff : (get? key members).isSome = true ↔ key ∈ members.map Prod.fst := by
  induction members with
  | nil =>
      simp [get?]
  | cons member members ih =>
      by_cases hkey : member.1 = key
      · simp [get?, hkey]
      · have hkey' : ¬ key = member.1 := fun h => hkey h.symm
        simp [get?, hkey, hkey', ih]

theorem mem_of_get? (h : get? key members = some value) : (key, value) ∈ members := by
  induction members with
  | nil =>
      cases h
  | cons m members ih =>
      rw [get?] at h
      split at h
      · rename_i hkey
        cases h
        simp [← hkey]
      · exact List.mem_cons_of_mem _ (ih h)

/-- Keys are distinct, so the pair that is found is the only one with its key. -/
theorem get?_eq_some_iff (hnodup : (members.map Prod.fst).Nodup) :
    get? key members = some value ↔ (key, value) ∈ members := by
  constructor
  · exact mem_of_get?
  · intro hmem
    induction members with
    | nil =>
        cases hmem
    | cons member members ih =>
        rcases List.nodup_cons.1 hnodup with ⟨hmember, hrest⟩
        rcases List.mem_cons.1 hmem with rfl | hmem
        · simp [get?]
        · have hkey : member.1 ≠ key := by
            intro heq
            exact hmember (List.mem_map.2 ⟨_, hmem, heq.symm⟩)
          simp [get?, hkey, ih hrest hmem]

theorem get?_append (key : String) (members more : List (String × α)) :
    get? key (members ++ more) = (get? key members).or (get? key more) := by
  induction members with
  | nil =>
      rfl
  | cons member members ih =>
      rw [List.cons_append, get?, get?]
      split
      · rfl
      · exact ih

/-! ## Setting members -/

theorem get?_set (key other : String) (value : α) (members : List (String × α)) :
    get? key (set other value members) = if other = key then some value else get? key members := by
  induction members with
  | nil =>
      rfl
  | cons member members ih =>
      by_cases hother : member.1 = other
      · by_cases hkey : other = key <;> simp [set, get?, hother, hkey]
      · by_cases hkey : member.1 = key
        · have hne : other ≠ key := fun h => hother (hkey.trans h.symm)
          rw [set, if_neg hother, get?, get?, if_pos hkey, if_neg hne, if_pos hkey]
        · simp [set, get?, hother, hkey, ih]

theorem mem_of_mem_set {m : String × α} (h : m ∈ set key value members) :
    m = (key, value) ∨ m ∈ members := by
  induction members with
  | nil =>
      exact .inl (List.mem_singleton.1 h)
  | cons member members ih =>
      rw [set] at h
      split at h
      · rename_i hkey
        rcases List.mem_cons.1 h with rfl | hrest
        · exact .inl (by rw [hkey])
        · exact .inr (List.mem_cons_of_mem _ hrest)
      · rcases List.mem_cons.1 h with rfl | hrest
        · exact .inr List.mem_cons_self
        · exact (ih hrest).imp id (List.mem_cons_of_mem _)

theorem nodup_keys_set (h : (members.map Prod.fst).Nodup) (key : String) (value : α) :
    ((set key value members).map Prod.fst).Nodup := by
  induction members with
  | nil =>
      exact List.nodup_singleton key
  | cons member members ih =>
      obtain ⟨hmember, hrest⟩ := List.nodup_cons.1 h
      rw [set]
      split
      · exact h
      · rename_i hkey
        refine List.nodup_cons.2 ⟨fun hmem => ?_, ih hrest⟩
        obtain ⟨m, hm, hfst⟩ := List.mem_map.1 hmem
        rcases mem_of_mem_set hm with rfl | hm
        · exact hkey hfst.symm
        · exact hmember (List.mem_map.2 ⟨m, hm, hfst⟩)

theorem nodup_keys_setAll (pairs : List (String × α)) (h : (members.map Prod.fst).Nodup) :
    ((setAll pairs members).map Prod.fst).Nodup := by
  induction pairs generalizing members with
  | nil =>
      exact h
  | cons pair pairs ih =>
      exact ih (nodup_keys_set h pair.1 pair.2)

theorem nodup_keys_ofPairs (pairs : List (String × α)) :
    ((ofPairs pairs).map Prod.fst).Nodup :=
  nodup_keys_setAll pairs List.nodup_nil

theorem mem_of_mem_setAll {m : String × α} {pairs : List (String × α)}
    (h : m ∈ setAll pairs members) : m ∈ pairs ∨ m ∈ members := by
  induction pairs generalizing members with
  | nil =>
      exact .inr h
  | cons pair pairs ih =>
      rcases ih h with hpairs | hset
      · exact .inl (List.mem_cons_of_mem _ hpairs)
      · rcases mem_of_mem_set hset with rfl | hmem
        · exact .inl List.mem_cons_self
        · exact .inr hmem

/-- Distinct pairs win over what was there. -/
theorem get?_setAll {pairs : List (String × α)} (h : (pairs.map Prod.fst).Nodup) (key : String) :
    get? key (setAll pairs members) = (get? key pairs).or (get? key members) := by
  induction pairs generalizing members with
  | nil =>
      rfl
  | cons pair pairs ih =>
      obtain ⟨hpair, hrest⟩ := List.nodup_cons.1 h
      change get? key (setAll pairs (set pair.1 pair.2 members)) = _
      rw [ih hrest, get?_set, get?]
      split
      · rename_i hkey
        -- The key does not come again, so nothing later replaces its value.
        have hnone : get? key pairs = none := by
          rw [← Option.not_isSome_iff_eq_none, isSome_get?_iff, ← hkey]
          exact hpair
        rw [hnone]
        rfl
      · rfl

/-- Of the pairs for a key the last one counts, also where keys come again. -/
theorem get?_setAll_reverse (key : String) (pairs members : List (String × α)) :
    get? key (setAll pairs members) = (get? key pairs.reverse).or (get? key members) := by
  induction pairs generalizing members with
  | nil =>
      rfl
  | cons pair pairs ih =>
      change get? key (setAll pairs (set pair.1 pair.2 members)) = _
      rw [ih, get?_set, List.reverse_cons, get?_append, Option.or_assoc, get?, get?]
      split <;> rfl

theorem get?_ofPairs (key : String) (pairs : List (String × α)) :
    get? key (ofPairs pairs) = get? key pairs.reverse := by
  rw [ofPairs, get?_setAll_reverse]
  exact Option.or_none

/-! ## Order of keys -/

theorem keys_set (key : String) (value : α) (members : List (String × α)) :
    (set key value members).map Prod.fst
      = if key ∈ members.map Prod.fst then members.map Prod.fst
        else members.map Prod.fst ++ [key] := by
  induction members with
  | nil =>
      rfl
  | cons member members ih =>
      rw [set]
      split
      · rename_i hkey
        simp [hkey]
      · rename_i hkey
        have hne : key ≠ member.1 := fun h => hkey h.symm
        rw [List.map_cons, ih, List.map_cons]
        by_cases hmem : key ∈ members.map Prod.fst <;> simp [hmem, hne]

/-- The keys that were there come first. -/
theorem keys_setAll (pairs members : List (String × α)) :
    (setAll pairs members).map Prod.fst
      = members.map Prod.fst
        ++ ((pairs.map Prod.fst).filter (· ∉ members.map Prod.fst)).eraseDups := by
  induction pairs generalizing members with
  | nil =>
      exact (List.append_nil _).symm
  | cons pair pairs ih =>
      change (setAll pairs (set pair.1 pair.2 members)).map Prod.fst = _
      rw [ih, keys_set, List.map_cons]
      by_cases hmem : pair.1 ∈ members.map Prod.fst
      · rw [if_pos hmem, List.filter_cons_of_neg (by simpa using hmem)]
      · -- The new key stands behind the others, and is passed over when it comes again.
        have hfilter : (pairs.map Prod.fst).filter (· ∉ members.map Prod.fst ++ [pair.1])
            = ((pairs.map Prod.fst).filter (· ∉ members.map Prod.fst)).filter
              (fun other => !other == pair.1) := by
          rw [List.filter_filter]
          refine List.filter_congr fun other _ => Bool.eq_iff_iff.2 ?_
          simp [and_comm]
        rw [if_neg hmem, List.filter_cons_of_pos (by simpa using hmem), List.eraseDups_cons,
          List.append_assoc, hfilter]
        rfl

theorem eraseDups_of_nodup {keys : List String} (h : keys.Nodup) : keys.eraseDups = keys := by
  induction keys with
  | nil =>
      rfl
  | cons key keys ih =>
      obtain ⟨hkey, hkeys⟩ := List.nodup_cons.1 h
      have hkeep : keys.filter (fun other => !other == key) = keys := by
        refine List.filter_eq_self.2 fun other hother => ?_
        have hne : other ≠ key := fun heq => hkey (heq ▸ hother)
        simpa using hne
      rw [List.eraseDups_cons, hkeep, ih hkeys]

theorem keys_ofPairs (pairs : List (String × α)) :
    (ofPairs pairs).map Prod.fst = (pairs.map Prod.fst).eraseDups := by
  rw [ofPairs, keys_setAll]
  simp

theorem setAll_cons_of_notMem {pairs : List (String × α)} (h : key ∉ pairs.map Prod.fst) :
    setAll pairs ((key, value) :: members) = (key, value) :: setAll pairs members := by
  induction pairs generalizing members with
  | nil =>
      rfl
  | cons pair pairs ih =>
      have hpair : key ≠ pair.1 := List.ne_of_not_mem_cons h
      change setAll pairs (set pair.1 pair.2 ((key, value) :: members)) = _
      rw [set, if_neg hpair, ih (List.not_mem_of_not_mem_cons h)]
      rfl

/-- Members that already have the keys below, in their order, take nothing over from there. -/
theorem setAll_eq_self {pairs : List (String × α)} (h : (pairs.map Prod.fst).Nodup)
    (hfront : members.map Prod.fst <+: pairs.map Prod.fst) : setAll pairs members = pairs := by
  induction pairs generalizing members with
  | nil =>
      rw [List.map_nil, List.prefix_nil, List.map_eq_nil_iff] at hfront
      rw [hfront]
      rfl
  | cons pair pairs ih =>
      obtain ⟨hpair, hpairs⟩ := List.nodup_cons.1 h
      change setAll pairs (set pair.1 pair.2 members) = _
      cases members with
      | nil =>
          have hrest : setAll pairs [] = pairs := ih hpairs List.nil_prefix
          rw [set, setAll_cons_of_notMem hpair, hrest]
      | cons member members =>
          obtain ⟨hkey, hrest⟩ := List.cons_prefix_cons.1 hfront
          rw [set, if_pos hkey, hkey, setAll_cons_of_notMem hpair, ih hpairs hrest]

/-! ## Members with other values -/

section Values

variable {β : Type} (f : α → β)

theorem get?_mapValues (key : String) (members : List (String × α)) :
    get? key (members.map fun m => (m.1, f m.2)) = (get? key members).map f := by
  induction members with
  | nil =>
      rfl
  | cons member members ih =>
      rw [List.map_cons, get?, get?, ih]
      split <;> rfl

theorem set_mapValues (key : String) (value : α) (members : List (String × α)) :
    set key (f value) (members.map fun m => (m.1, f m.2))
      = (set key value members).map fun m => (m.1, f m.2) := by
  induction members with
  | nil =>
      rfl
  | cons member members ih =>
      rw [List.map_cons, set, set, ih]
      split <;> rfl

theorem setAll_mapValues (pairs members : List (String × α)) :
    setAll (pairs.map fun m => (m.1, f m.2)) (members.map fun m => (m.1, f m.2))
      = (setAll pairs members).map fun m => (m.1, f m.2) := by
  induction pairs generalizing members with
  | nil =>
      rfl
  | cons pair pairs ih =>
      change setAll _ (set pair.1 (f pair.2) _) = _
      rw [set_mapValues, ih]
      rfl

end Values

end Members
end PrismaTypes
