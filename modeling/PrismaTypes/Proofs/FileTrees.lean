import PrismaTypes.Files.Tree

/-!
# Changes of file trees

Where a path leads to in a tree (`LeadsTo`), which name in which directory a write goes to
(`Opens`), and what an operation may change (`Frame`): it may make directories, and it may write
the files at certain spots. Making directories touches no file, and a write touches one. Directories
stay, so a path that leads somewhere before a change leads there afterwards.
-/

namespace PrismaTypes
namespace Files

namespace FileTree

variable {t t' : FileTree} {here spot stop : Spot} {path : String}

/-! ## Entries -/

theorem get?_root (t : FileTree) : t.get? [] = some .directory :=
  rfl

theorem get?_set (hspot : spot ≠ []) (t : FileTree) (entry : Entry) (other : Spot) :
    (t.set spot entry).get? other = if other = spot then some entry else t.get? other := by
  by_cases hother : other = spot
  · subst hother
    have hnone : (t.entries.filter (·.1 ≠ other)).find? (·.1 = other) = none := by
      simp
    rw [get?, set, List.find?_append, hnone]
    simp [hspot]
  · cases other with
    | nil =>
        simp [get?_root, hother]
    | cons name names =>
        have hfind : ∀ e : Spot × Entry,
            (e.1 ≠ spot ∧ e.1 = name :: names) ↔ e.1 = name :: names := by
          intro e
          constructor
          · exact And.right
          · intro he
            exact ⟨fun heq => hother (he.symm.trans heq), he⟩
        simp [get?, set, hother, Ne.symm hother, List.find?_append, List.find?_filter, hfind]

/-! ## Walking -/

/-- The spot that one segment leads to from a directory. -/
def advance (spot : Spot) (segment : String) : Except FileError Spot :=
  if isIdle segment then .ok spot
  else if segment = ".." then .ok spot.dropLast
  else child spot segment

theorem walk_cons_eq_ok_iff {segment : String} {rest : List String} :
    t.walk spot (segment :: rest) = .ok stop ↔
      t.get? spot = some .directory ∧
        ∃ next, advance spot segment = .ok next ∧ t.walk next rest = .ok stop := by
  rw [walk]
  cases hget : t.get? spot with
  | none =>
      simp
  | some entry =>
      cases entry with
      | file content =>
          simp
      | directory =>
          by_cases hidle : isIdle segment = true
          · simp [advance, hidle]
          · by_cases hup : segment = ".."
            · subst hup
              simp [advance, hidle]
            · cases hchild : child spot segment <;> simp [advance, hidle, hup, hchild]

theorem walk_append_eq_ok_iff {front back : List String} :
    t.walk spot (front ++ back) = .ok stop ↔
      ∃ mid, t.walk spot front = .ok mid ∧ t.walk mid back = .ok stop := by
  induction front generalizing spot with
  | nil =>
      simp [walk]
  | cons segment front ih =>
      simp only [List.cons_append, walk_cons_eq_ok_iff, ih]
      constructor
      · rintro ⟨hget, next, hnext, mid, hfront, hback⟩
        exact ⟨mid, ⟨hget, next, hnext, hfront⟩, hback⟩
      · rintro ⟨mid, ⟨hget, next, hnext, hfront⟩, hback⟩
        exact ⟨hget, next, hnext, mid, hfront, hback⟩

theorem walk_mono (hkeep : ∀ s, t.get? s = some .directory → t'.get? s = some .directory)
    {segs : List String} (h : t.walk spot segs = .ok stop) : t'.walk spot segs = .ok stop := by
  induction segs generalizing spot with
  | nil =>
      exact h
  | cons segment rest ih =>
      obtain ⟨hget, next, hnext, hrest⟩ := walk_cons_eq_ok_iff.1 h
      exact walk_cons_eq_ok_iff.2 ⟨hkeep spot hget, next, hnext, ih hrest⟩

/-- Idle segments lead nowhere else. -/
theorem eq_of_walk_idle {segs : List String} (hidle : ∀ segment ∈ segs, isIdle segment = true)
    (h : t.walk spot segs = .ok stop) : stop = spot := by
  induction segs with
  | nil =>
      cases h
      rfl
  | cons segment rest ih =>
      obtain ⟨-, next, hnext, hrest⟩ := walk_cons_eq_ok_iff.1 h
      rw [advance, if_pos (hidle segment List.mem_cons_self)] at hnext
      cases hnext
      exact ih (fun s hs => hidle s (List.mem_cons_of_mem _ hs)) hrest

/-! ## Where paths lead to -/

/-- A path leads to a spot; there need not be anything. -/
def LeadsTo (t : FileTree) (here : Spot) (path : String) (spot : Spot) : Prop :=
  checkPath path = .ok () ∧ t.walk (origin here path) (segments path) = .ok spot

theorem LeadsTo.mono (hkeep : ∀ s, t.get? s = some .directory → t'.get? s = some .directory)
    (h : t.LeadsTo here path spot) : t'.LeadsTo here path spot :=
  ⟨h.1, walk_mono hkeep h.2⟩

theorem stat_eq_ok_iff {entry : Entry} :
    t.stat here path = .ok entry ↔ ∃ spot, t.LeadsTo here path spot ∧ t.get? spot = some entry := by
  unfold stat LeadsTo
  cases checkPath path with
  | error e =>
      simp
  | ok =>
      cases t.walk (origin here path) (segments path) with
      | error e =>
          simp
      | ok spot =>
          cases hget : t.get? spot with
          | none =>
              simp [hget]
          | some found =>
              simp [hget]

theorem LeadsTo.stat_eq {entry : Entry} (h : t.LeadsTo here path spot)
    (hget : t.get? spot = some entry) : t.stat here path = .ok entry :=
  stat_eq_ok_iff.2 ⟨spot, h, hget⟩

theorem LeadsTo.readText_eq {text : String} (h : t.LeadsTo here path spot)
    (hget : t.get? spot = some (.file (.text text))) : t.readText here path = .ok text := by
  rw [readText, h.stat_eq hget]

/-! ## Writing -/

/-- The file of a path is a name in a directory that is there. -/
structure Opens (t : FileTree) (here : Spot) (path : String) (above : List String)
    (directory : Spot) (name : String) : Prop where
  segments_eq : segments path = above ++ [name]
  checked : checkPath path = .ok ()
  walks : t.walk (origin here path) above = .ok directory
  present : t.get? directory = some .directory
  proper : isIdle name = false ∧ name ≠ ".."
  fits : child directory name = .ok (directory ++ [name])

namespace Opens

variable {above : List String} {directory : Spot} {name : String}

theorem leadsTo (h : t.Opens here path above directory name) :
    t.LeadsTo here path (directory ++ [name]) := by
  refine ⟨h.checked, ?_⟩
  rw [h.segments_eq, walk_append_eq_ok_iff]
  refine ⟨directory, h.walks, walk_cons_eq_ok_iff.2 ⟨h.present, directory ++ [name], ?_, rfl⟩⟩
  rw [advance, if_neg (by simp [h.proper.1]), if_neg h.proper.2]
  exact h.fits

theorem mono (hkeep : ∀ s, t.get? s = some .directory → t'.get? s = some .directory)
    (h : t.Opens here path above directory name) : t'.Opens here path above directory name :=
  { h with
    walks := walk_mono hkeep h.walks
    present := hkeep directory h.present }

end Opens

theorem child_eq_ok {directory below : Spot} {name : String}
    (h : child directory name = .ok below) : below = directory ++ [name] := by
  unfold child at h
  split at h
  · cases h
  · cases h
    rfl

/-- Without a slash at the end, the last segment is a name. -/
theorem eq_append_of_named {segs : List String} {last : String}
    (hlast : (segs.reverse.dropWhile (·.isEmpty)).reverse.getLast? = some last)
    (hlength : ¬ (segs.reverse.dropWhile (·.isEmpty)).reverse.length < segs.length) :
    (segs.reverse.dropWhile (·.isEmpty)).reverse = segs ∧ last ≠ "" := by
  have hsuffix : segs.reverse.dropWhile (·.isEmpty) <:+ segs.reverse :=
    List.dropWhile_suffix _
  have hall : segs.reverse.dropWhile (·.isEmpty) = segs.reverse := by
    apply hsuffix.eq_of_length_le
    rw [List.length_reverse] at hlength
    rw [List.length_reverse]
    omega
  constructor
  · rw [hall, List.reverse_reverse]
  · rintro rfl
    have hhead := List.head?_dropWhile_not (·.isEmpty) segs.reverse
    rw [List.getLast?_reverse] at hlast
    rw [hlast] at hhead
    exact absurd hhead (by decide)

theorem opens_of_target {directory : Spot} {name : String}
    (h : t.target here path = .ok (.name directory name false))
    (hfits : child directory name = .ok (directory ++ [name])) :
    ∃ above, t.Opens here path above directory name := by
  unfold target at h
  split at h
  · cases h
  · rename_i hcheck
    dsimp only at h
    split at h
    · cases h
    · rename_i last hlast
      split at h
      · cases h
      · rename_i reached hwalk
        split at h
        · cases h
        · rename_i hpoints
          simp only [Except.ok.injEq, Target.name.injEq, decide_eq_false_iff_not] at h
          obtain ⟨rfl, rfl, hlength⟩ := h
          obtain ⟨hnamed, hne⟩ := eq_append_of_named hlast hlength
          rw [hnamed] at hlast hwalk
          obtain ⟨above, hsegs⟩ := List.getLast?_eq_some_iff.1 hlast
          rw [hsegs, List.dropLast_concat] at hwalk
          obtain ⟨mid, habove, hempty⟩ := walk_append_eq_ok_iff.1 hwalk
          obtain ⟨hpresent, next, hnext, hstop⟩ := walk_cons_eq_ok_iff.1 hempty
          cases hnext
          cases hstop
          simp only [Bool.or_eq_true, decide_eq_true_eq, not_or] at hpoints
          exact ⟨above, {
            segments_eq := hsegs
            checked := hcheck
            walks := habove
            present := hpresent
            proper := ⟨by simp [isIdle, hne, hpoints.1], hpoints.2⟩
            fits := hfits }⟩

/-! ## What may change -/

/-- `after` differs from `before` in new directories and in files at certain spots only, and no
directory was at these. -/
def Frame (touched : Spot → Prop) (before after : FileTree) : Prop :=
  ∀ spot, after.get? spot = before.get? spot ∨
    (before.get? spot = none ∧ after.get? spot = some .directory) ∨
    (touched spot ∧ before.get? spot ≠ some .directory ∧
      ∃ content, after.get? spot = some (.file content))

namespace Frame

variable {touched others : Spot → Prop} {before mid after : FileTree}

theorem refl (t : FileTree) : Frame touched t t :=
  fun _ => .inl rfl

theorem mono (h : Frame touched before after) (hmore : ∀ spot, touched spot → others spot) :
    Frame others before after := by
  intro spot
  rcases h spot with hsame | hnew | ⟨htouched, hrest⟩
  · exact .inl hsame
  · exact .inr (.inl hnew)
  · exact .inr (.inr ⟨hmore spot htouched, hrest⟩)

/-- Directories stay. -/
theorem directory (h : Frame touched before after) (spot : Spot)
    (hget : before.get? spot = some .directory) : after.get? spot = some .directory := by
  rcases h spot with hsame | ⟨hnone, -⟩ | ⟨-, hne, -⟩
  · rw [hsame, hget]
  · rw [hget] at hnone
    cases hnone
  · exact absurd hget hne

theorem trans (h : Frame touched before mid) (h' : Frame touched mid after) :
    Frame touched before after := by
  intro spot
  rcases h' spot with hsame | ⟨hnone, hmade⟩ | ⟨htouched, hne, hfile⟩
  · -- The second part leaves the spot as the first one left it.
    rw [hsame]
    exact h spot
  · -- Only a spot that was empty all the time becomes a directory in the second part.
    rcases h spot with hsame | ⟨-, hdir⟩ | ⟨-, -, content, hcontent⟩
    · exact .inr (.inl ⟨hsame ▸ hnone, hmade⟩)
    · rw [hnone] at hdir
      cases hdir
    · rw [hnone] at hcontent
      cases hcontent
  · exact .inr (.inr ⟨htouched, fun hdir => hne (h.directory spot hdir), hfile⟩)

/-- Unless it was touched, the file that a path leads to is the same before and after: it stays if
it was there, and it was there if it is there afterwards. -/
theorem file_at (h : Frame touched before after) (here : Spot) (path : String) :
    (∃ spot, touched spot ∧ after.LeadsTo here path spot) ∨
      (∀ content, before.stat here path = .ok (.file content) →
        after.stat here path = .ok (.file content)) ∧
      ∀ spot content, after.LeadsTo here path spot → after.get? spot = some (.file content) →
        before.get? spot = some (.file content) := by
  by_cases htouched : ∃ spot, touched spot ∧ after.LeadsTo here path spot
  · exact .inl htouched
  · refine .inr ⟨fun content hstat => ?_, fun spot content hleads hget => ?_⟩
    · obtain ⟨spot, hleads, hget⟩ := stat_eq_ok_iff.1 hstat
      have hleads' := hleads.mono h.directory
      rcases h spot with hsame | ⟨hnone, -⟩ | ⟨hspot, -⟩
      · exact hleads'.stat_eq (hsame.trans hget)
      · rw [hget] at hnone
        cases hnone
      · exact absurd ⟨spot, hspot, hleads'⟩ htouched
    · rcases h spot with hsame | ⟨-, hmade⟩ | ⟨hspot, -⟩
      · exact hsame.symm.trans hget
      · rw [hget] at hmade
        cases hmade
      · exact absurd ⟨spot, hspot, hleads⟩ htouched

theorem set_directory (hget : t.get? spot = none) : Frame touched t (t.set spot .directory) := by
  have hspot : spot ≠ [] := by
    rintro rfl
    cases hget
  intro other
  rw [get?_set hspot]
  by_cases hother : other = spot
  · rw [if_pos hother, hother]
    exact .inr (.inl ⟨hget, rfl⟩)
  · rw [if_neg hother]
    exact .inl rfl

theorem set_file (hspot : spot ≠ []) (hget : t.get? spot ≠ some .directory) (content : Content) :
    Frame (· = spot) t (t.set spot (.file content)) := by
  intro other
  rw [get?_set hspot]
  by_cases hother : other = spot
  · rw [if_pos hother, hother]
    exact .inr (.inr ⟨rfl, hget, content, rfl⟩)
  · rw [if_neg hother]
    exact .inl rfl

end Frame

/-- A write opens a file, puts the content into it and touches nothing else. -/
theorem exists_of_write {content : Content} (h : t.write here path content = .ok t') :
    ∃ above directory name, t'.Opens here path above directory name ∧
      Frame (· = directory ++ [name]) t t' ∧
      ∀ other, t'.get? other
        = if other = directory ++ [name] then some (.file content) else t.get? other := by
  unfold write at h
  split at h
  · cases h
  · cases h
  · rename_i directory name slash htarget
    cases slash with
    | true =>
        cases h
    | false =>
        rw [if_neg Bool.false_ne_true] at h
        split at h
        · cases h
        · rename_i below hchild
          obtain rfl := child_eq_ok hchild
          obtain ⟨above, hopens⟩ := opens_of_target htarget hchild
          have hspot := List.concat_ne_nil name directory
          split at h
          · cases h
          · rename_i hget
            cases h
            have hframe := Frame.set_file hspot hget content
            exact ⟨above, directory, name, hopens.mono hframe.directory, hframe,
              get?_set hspot t (.file content)⟩

/-! ## Making directories -/

section Making

variable {touched : Spot → Prop}

theorem frame_makeDirectory (h : t.makeDirectory here path = .ok t') : Frame touched t t' := by
  unfold makeDirectory at h
  split at h
  · cases h
  · cases h
  · split at h
    · cases h
    · split at h
      · cases h
      · rename_i hget
        cases h
        exact .set_directory hget

theorem frame_ensure (t : FileTree) (here : Spot) (path : String) :
    Frame touched t (t.ensure here path).1 := by
  unfold ensure
  split
  · rename_i made hmade
    exact frame_makeDirectory hmade
  · exact .refl t

/-- Whether or not all directories can be made, nothing but directories is made. -/
theorem frame_makeAllWithin (t : FileTree) (here : Spot) (depth : Nat) (path : String) :
    Frame touched t (t.makeAllWithin here depth path).1 := by
  induction depth generalizing path with
  | zero =>
      exact .refl t
  | succ depth ih =>
      unfold makeAllWithin
      split
      · exact .refl t
      · split
        · rename_i made hmade
          exact frame_makeDirectory hmade
        · split
          · exact .refl t
          · rename_i above hparent
            have habove := ih above
            split
            · rename_i made hmade
              rw [hmade] at habove
              exact habove.trans (frame_ensure made here path)
            · rename_i made e hmade
              rw [hmade] at habove
              exact habove
        · exact .refl t

theorem frame_of_makeAll {result : Except FileError Unit}
    (h : t.makeAll here path = (t', result)) : Frame touched t t' := by
  have hframe : Frame touched t (t.makeAll here path).1 :=
    frame_makeAllWithin t here (path.length + 1) path
  rw [h] at hframe
  exact hframe

end Making

end FileTree

end Files
end PrismaTypes
