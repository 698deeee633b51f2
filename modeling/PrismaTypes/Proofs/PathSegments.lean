import PrismaTypes.Files.Path

/-!
# Segments of paths

The segments of a path have no slashes, and paths that are put together from segments have these
segments (`segments_ofSegments`, `segments_slash`). The directory part of a path has the segments
before its name, without the idle ones at the end (`parent?_of_segments`).
-/

namespace PrismaTypes
namespace Files

/-! ## Pieces between slashes -/

theorem splitSlash_ne_nil (s : List Char) : splitSlash s ≠ [] := by
  fun_cases splitSlash s with
  | case1 => simp
  | case2 => simp
  | case3 => simp
  | case4 => simp

theorem splitSlash_slash (s : List Char) : splitSlash ('/' :: s) = [] :: splitSlash s := by
  rw [splitSlash]
  cases hs : splitSlash s with
  | nil =>
      exact absurd hs (splitSlash_ne_nil s)
  | cons piece pieces =>
      rfl

theorem splitSlash_cons {c : Char} (hc : c ≠ '/') (s : List Char) :
    splitSlash (c :: s) = (splitSlash s).modifyHead (c :: ·) := by
  rw [splitSlash]
  cases hs : splitSlash s with
  | nil =>
      exact absurd hs (splitSlash_ne_nil s)
  | cons piece pieces =>
      simp [hc]

theorem splitSlash_append_slash (front back : List Char) :
    splitSlash (front ++ '/' :: back) = splitSlash front ++ splitSlash back := by
  induction front with
  | nil =>
      exact splitSlash_slash back
  | cons c front ih =>
      by_cases hc : c = '/'
      · subst hc
        rw [List.cons_append, splitSlash_slash, splitSlash_slash, ih, List.cons_append]
      · rw [List.cons_append, splitSlash_cons hc, splitSlash_cons hc, ih]
        cases hs : splitSlash front with
        | nil =>
            exact absurd hs (splitSlash_ne_nil front)
        | cons piece pieces =>
            rfl

theorem splitSlash_of_notMem {s : List Char} (h : '/' ∉ s) : splitSlash s = [s] := by
  induction s with
  | nil =>
      rfl
  | cons c s ih =>
      rw [splitSlash_cons (List.ne_of_not_mem_cons h).symm, ih (List.not_mem_of_not_mem_cons h)]
      rfl

theorem slash_notMem_of_mem_splitSlash {s piece : List Char} (h : piece ∈ splitSlash s) :
    '/' ∉ piece := by
  induction s generalizing piece with
  | nil =>
      rw [List.mem_singleton.1 h]
      exact List.not_mem_nil
  | cons c s ih =>
      by_cases hc : c = '/'
      · subst hc
        rw [splitSlash_slash] at h
        rcases List.mem_cons.1 h with rfl | h
        · exact List.not_mem_nil
        · exact ih h
      · rw [splitSlash_cons hc] at h
        cases hs : splitSlash s with
        | nil =>
            exact absurd hs (splitSlash_ne_nil s)
        | cons first pieces =>
            rw [hs] at h ih
            rcases List.mem_cons.1 h with rfl | h
            · intro hmem
              rcases List.mem_cons.1 hmem with heq | hmem
              · exact hc heq.symm
              · exact ih List.mem_cons_self hmem
            · exact ih (List.mem_cons_of_mem _ h)

/-! ## Segments -/

theorem segments_ne_nil (path : String) : segments path ≠ [] := by
  intro h
  exact splitSlash_ne_nil _ (List.map_eq_nil_iff.1 h)

theorem segments_slash (front back : String) :
    segments (front ++ "/" ++ back) = segments front ++ segments back := by
  have htext : (front ++ "/" ++ back).toList = front.toList ++ '/' :: back.toList := by
    simp
  rw [segments, htext, splitSlash_append_slash, List.map_append, segments, segments]

theorem segments_of_notMem {s : String} (h : '/' ∉ s.toList) : segments s = [s] := by
  rw [segments, splitSlash_of_notMem h]
  simp

theorem slash_notMem_of_mem_segments {path segment : String} (h : segment ∈ segments path) :
    '/' ∉ segment.toList := by
  obtain ⟨piece, hpiece, rfl⟩ := List.mem_map.1 h
  rw [String.toList_ofList]
  exact slash_notMem_of_mem_splitSlash hpiece

theorem segments_ofSegments {segs : List String} (hsegs : segs ≠ [])
    (h : ∀ segment ∈ segs, '/' ∉ segment.toList) : segments (ofSegments segs) = segs := by
  induction segs with
  | nil =>
      exact absurd rfl hsegs
  | cons segment rest ih =>
      have hsegment := segments_of_notMem (h segment List.mem_cons_self)
      cases rest with
      | nil =>
          rw [ofSegments, String.intercalate_singleton, hsegment]
      | cons next rest =>
          have hrest := ih (List.cons_ne_nil _ _) fun s hs => h s (List.mem_cons_of_mem _ hs)
          rw [ofSegments] at hrest
          rw [ofSegments, String.intercalate_cons_cons, segments_slash, hsegment, hrest]
          rfl

/-- A path with a name at its end is absolute when its first segment is empty. -/
theorem isAbsolute_eq {path name : String} {above : List String}
    (h : segments path = above ++ [name]) (hname : name ≠ "") :
    isAbsolute path = decide (above.head? = some "") := by
  rw [isAbsolute, decide_eq_decide]
  rw [segments] at h
  cases htext : path.toList with
  | nil =>
      rw [htext] at h
      have hlast := congrArg List.getLast? h
      rw [List.getLast?_concat] at hlast
      exact absurd (Option.some.inj hlast).symm hname
  | cons c s =>
      rw [htext] at h
      obtain ⟨piece, pieces, hpieces⟩ := List.exists_cons_of_ne_nil (splitSlash_ne_nil s)
      by_cases hc : c = '/'
      · rw [hc, splitSlash_slash, hpieces] at h
        cases above with
        | nil =>
            simp at h
        | cons first above =>
            obtain ⟨hfirst, -⟩ := List.cons.inj h
            simp [hc, ← hfirst]
      · rw [splitSlash_cons hc, hpieces] at h
        cases above with
        | nil =>
            simp [hc]
        | cons first above =>
            obtain ⟨hfirst, -⟩ := List.cons.inj h
            simp [hc, ← hfirst]

theorem exists_segments_of_slash_end {path : String} (h : path.toList.getLast? = some '/') :
    ∃ front, front ≠ [] ∧ segments path = front ++ [""] := by
  obtain ⟨text, htext⟩ := List.getLast?_eq_some_iff.1 h
  refine ⟨segments (String.ofList text), segments_ne_nil _, ?_⟩
  rw [segments, htext, splitSlash_append_slash, List.map_append, segments, String.toList_ofList]
  rfl

/-- Joining puts the segments of the name behind those of the directory. -/
theorem segments_join {directory : String} (name : String) (hne : directory ≠ "")
    (hend : directory.toList.getLast? ≠ some '/') :
    segments (join directory name) = segments directory ++ segments name := by
  have hempty : directory.isEmpty = false := by
    simpa using hne
  rw [join, if_neg (by simp [hempty, hend]), segments_slash]

/-! ## Idle segments at the end -/

theorem dropIdleEnd_append {above : List String} {name : String} (hname : isIdle name = false) :
    dropIdleEnd (above ++ [name]) = above ++ [name] := by
  cases above with
  | nil =>
      rfl
  | cons first above =>
      simp [dropIdleEnd, hname]

theorem exists_idle_end (segs : List String) :
    ∃ idle, segs = dropIdleEnd segs ++ idle ∧ ∀ segment ∈ idle, isIdle segment = true := by
  refine ⟨((segs.drop 1).reverse.takeWhile isIdle).reverse, ?_, ?_⟩
  · rw [dropIdleEnd, List.append_assoc, ← List.reverse_append, List.takeWhile_append_dropWhile,
      List.reverse_reverse, List.take_append_drop]
  · intro segment hsegment
    exact List.all_eq_true.1 List.all_takeWhile segment (List.mem_reverse.1 hsegment)

theorem dropIdleEnd_ne_append_empty {segs front : List String} (hfront : front ≠ []) :
    dropIdleEnd segs ≠ front ++ [""] := by
  intro h
  obtain ⟨first, front, rfl⟩ := List.exists_cons_of_ne_nil hfront
  cases segs with
  | nil =>
      cases h
  | cons segment segs =>
      obtain ⟨-, hrest⟩ := List.cons.inj h
      have hhead := List.head?_dropWhile_not isIdle segs.reverse
      have hidle : segs.reverse.dropWhile isIdle = "" :: front.reverse := by
        rw [← List.reverse_inj]
        simpa using hrest
      rw [hidle] at hhead
      have hfalse : isIdle "" = false := hhead
      exact absurd hfalse (by decide)

theorem head?_dropIdleEnd (segs : List String) : (dropIdleEnd segs).head? = segs.head? := by
  cases segs <;> rfl

/-- The directory part of a path that ends in a name. -/
theorem parent?_of_segments {path name : String} {above : List String}
    (h : segments path = above ++ [name]) (hname : isIdle name = false) :
    parent? path = some
      (if above = [] then "" else
        if dropIdleEnd above = [""] then "/" else ofSegments (dropIdleEnd above)) := by
  have hne : name.isEmpty = false := by
    cases hempty : name.isEmpty with
    | false =>
        rfl
    | true =>
        rw [String.isEmpty_iff.1 hempty] at hname
        cases hname
  rw [parent?, h, dropIdleEnd_append hname]
  cases above with
  | nil =>
      simp [hne]
  | cons first above =>
      cases above with
      | nil =>
          rfl
      | cons second above =>
          have hdrop : (first :: second :: above ++ [name]).dropLast = first :: second :: above :=
            List.dropLast_concat
          change some (if dropIdleEnd (first :: second :: above ++ [name]).dropLast = [""] then "/"
            else ofSegments (dropIdleEnd (first :: second :: above ++ [name]).dropLast)) = _
          rw [hdrop, if_neg (List.cons_ne_nil _ _)]

/-- A directory that is not the root has its segments as they are, and can be joined with a name. -/
theorem segments_directory {above : List String} (habove : above ≠ [])
    (hslash : ∀ segment ∈ above, '/' ∉ segment.toList) (hroot : dropIdleEnd above ≠ [""]) :
    segments (ofSegments (dropIdleEnd above)) = dropIdleEnd above ∧
      ofSegments (dropIdleEnd above) ≠ "" ∧
      (ofSegments (dropIdleEnd above)).toList.getLast? ≠ some '/' := by
  have hne : dropIdleEnd above ≠ [] := by
    obtain ⟨first, rest, rfl⟩ := List.exists_cons_of_ne_nil habove
    exact List.cons_ne_nil _ _
  have hsegs : segments (ofSegments (dropIdleEnd above)) = dropIdleEnd above := by
    apply segments_ofSegments hne
    intro segment hsegment
    obtain ⟨idle, heq, -⟩ := exists_idle_end above
    apply hslash
    rw [heq]
    exact List.mem_append_left _ hsegment
  refine ⟨hsegs, ?_, ?_⟩
  · intro hempty
    rw [hempty] at hsegs
    exact hroot hsegs.symm
  · intro hend
    obtain ⟨front, hfront, heq⟩ := exists_segments_of_slash_end hend
    exact dropIdleEnd_ne_append_empty hfront (hsegs.symm.trans heq)

end Files
end PrismaTypes
