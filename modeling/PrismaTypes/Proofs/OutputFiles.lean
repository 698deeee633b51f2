import Mathlib.Data.List.Basic
import PrismaTypes.Proofs.FileTrees
import PrismaTypes.Proofs.HostActions
import PrismaTypes.Proofs.PathSegments

/-!
# Output files

The metadata document goes to the directory of the source: whatever the path of the source looks
like, both are names in one directory (`directory_eq_of_opens`). So they are different files unless
the source has the name of the metadata document. Then the source, which is written last, takes its
place, although the document is reported as written.

Writing goes by steps on the file tree (`Writes`), and each of them has its own failure. What a
failure leaves behind and what a success does (`Placed`) follow from the steps.
-/

namespace PrismaTypes
namespace Project

open Files (FileTree FileError Spot)

/-! ## Paths in one directory -/

theorem segments_metadataPath {path name : String} {above : List String}
    (h : Files.segments path = above ++ [name]) (hname : Files.isIdle name = false) :
    Files.segments (metadataPath (outputDirectory path))
      = (if above = [] then ["."] else Files.dropIdleEnd above) ++ ["metadata.json"] := by
  rw [outputDirectory, Files.parent?_of_segments h hname]
  by_cases habove : above = []
  · rw [if_pos habove, if_pos habove]
    rfl
  · rw [if_neg habove, if_neg habove]
    by_cases hroot : Files.dropIdleEnd above = [""]
    · rw [if_pos hroot, hroot]
      rfl
    · have hslash : ∀ segment ∈ above, '/' ∉ segment.toList := by
        intro segment hsegment
        have hmem : segment ∈ Files.segments path := by
          rw [h]
          exact List.mem_append_left _ hsegment
        exact Files.slash_notMem_of_mem_segments hmem
      obtain ⟨hsegs, hne, hend⟩ := Files.segments_directory habove hslash hroot
      have hempty : (Files.ofSegments (Files.dropIdleEnd above)).isEmpty = false := by
        simpa using hne
      rw [if_neg hroot]
      simp only [hempty]
      rw [if_neg Bool.false_ne_true, metadataPath, Files.segments_join _ hne hend, hsegs]
      rfl

/-- The walk to the metadata document starts where the walk to the source does. -/
theorem origin_metadataPath {here : Spot} {path name : String} {above : List String}
    (h : Files.segments path = above ++ [name]) (hname : Files.isIdle name = false) :
    FileTree.origin here (metadataPath (outputDirectory path)) = FileTree.origin here path := by
  have hne : name ≠ "" := by
    rintro rfl
    cases hname
  have habsolute : Files.isAbsolute (metadataPath (outputDirectory path))
      = Files.isAbsolute path := by
    rw [Files.isAbsolute_eq (segments_metadataPath h hname) (by decide),
      Files.isAbsolute_eq h hne]
    by_cases habove : above = []
    · rw [if_pos habove, habove]
      rfl
    · rw [if_neg habove, Files.head?_dropIdleEnd]
  rw [FileTree.origin, FileTree.origin, habsolute]

/-- Source and metadata document are names in one directory. -/
theorem directory_eq_of_opens {t : FileTree} {here directory other : Spot}
    {path name file : String} {above above' : List String}
    (h : t.Opens here path above directory name)
    (hmetadata : t.Opens here (metadataPath (outputDirectory path)) above' other file) :
    other = directory ∧ file = "metadata.json" := by
  have hsegs := segments_metadataPath h.segments_eq h.proper.1
  rw [hmetadata.segments_eq] at hsegs
  obtain ⟨rfl, hfile⟩ := List.append_inj' hsegs rfl
  refine ⟨?_, List.singleton_inj.1 hfile⟩
  have hwalk := hmetadata.walks
  rw [origin_metadataPath h.segments_eq h.proper.1] at hwalk
  by_cases habove : above = []
  · rw [if_pos habove] at hwalk
    have hdirectory := h.walks
    rw [habove] at hdirectory
    cases hdirectory
    exact FileTree.eq_of_walk_idle (by decide) hwalk
  · -- Only idle segments were left out, and these lead nowhere.
    rw [if_neg habove] at hwalk
    obtain ⟨idle, heq, hidle⟩ := Files.exists_idle_end above
    have hdirectory := h.walks
    rw [heq, FileTree.walk_append_eq_ok_iff] at hdirectory
    obtain ⟨mid, hmid, hrest⟩ := hdirectory
    rw [hwalk] at hmid
    cases hmid
    exact (FileTree.eq_of_walk_idle hidle hrest).symm

/-! ## Steps -/

section Steps

variable (s : Schema) (source path : String) (wanted : Bool) (here : Spot)

/-- The metadata document is written if it is wanted. -/
def Extracts (made between : FileTree) : Prop :=
  if wanted then
    made.writeText here (metadataPath (outputDirectory path)) (s.metadata ++ "\n") = .ok between
  else between = made

/-- How writing the output files goes on a file tree. -/
inductive Writes (t : FileTree) : FileTree → Except OutputError Written → Prop
  | noDirectory {made : FileTree} {e : FileError}
      (hmake : t.makeAll here (outputDirectory path) = (made, .error e)) :
      Writes t made (.error ⟨outputDirectory path, e⟩)
  | noMetadata {made : FileTree} {e : FileError}
      (hmake : t.makeAll here (outputDirectory path) = (made, .ok ()))
      (hwanted : wanted = true)
      (hwrite : made.writeText here (metadataPath (outputDirectory path)) (s.metadata ++ "\n")
        = .error e) :
      Writes t made (.error ⟨metadataPath (outputDirectory path), e⟩)
  | noSource {made between : FileTree} {e : FileError}
      (hmake : t.makeAll here (outputDirectory path) = (made, .ok ()))
      (hextracts : Extracts s path wanted here made between)
      (hwrite : between.writeText here path source = .error e) :
      Writes t between (.error ⟨path, e⟩)
  | done {made between after : FileTree}
      (hmake : t.makeAll here (outputDirectory path) = (made, .ok ()))
      (hextracts : Extracts s path wanted here made between)
      (hwrite : between.writeText here path source = .ok after) :
      Writes t after
        (.ok ⟨path, if wanted then some (metadataPath (outputDirectory path)) else none⟩)

end Steps

section Outcomes

open Workspace (outcome outcome_bind)

theorem outcome_makeAll (directory : String) (w : Workspace) :
    outcome (attempt (OutputError.mk directory) (Host.makeAll directory)) w
      = ((w.files.makeAll w.here directory).2.mapError (OutputError.mk directory),
        { w with files := (w.files.makeAll w.here directory).1 }) :=
  rfl

theorem outcome_writeOutput (path content : String) (w : Workspace) :
    outcome (writeOutput path content) w =
      match w.files.writeText w.here path content with
      | .ok files => (.ok (), { w with files })
      | .error e => (.error ⟨path, e⟩, w) := by
  change ((Workspace.writeText path content w).1.mapError (OutputError.mk path),
    (Workspace.writeText path content w).2) = _
  rw [Workspace.writeText]
  cases w.files.writeText w.here path content <;> rfl

/-- The metadata step fails without a trace, or it leaves what it has to. -/
theorem outcome_writeMetadata (s : Schema) (path : String) (wanted : Bool) (w : Workspace) :
    (∃ e, wanted = true ∧
      w.files.writeText w.here (metadataPath (outputDirectory path)) (s.metadata ++ "\n")
        = .error e ∧
      outcome (writeMetadata wanted (outputDirectory path) s) w
        = (.error ⟨metadataPath (outputDirectory path), e⟩, w)) ∨
    ∃ w' : Workspace, Extracts s path wanted w.here w.files w'.files ∧ w'.here = w.here ∧
      outcome (writeMetadata wanted (outputDirectory path) s) w
        = (.ok (if wanted then some (metadataPath (outputDirectory path)) else none), w') := by
  cases wanted with
  | false =>
      exact .inr ⟨w, rfl, rfl, rfl⟩
  | true =>
      have houtcome := outcome_writeOutput (metadataPath (outputDirectory path))
        (s.metadata ++ "\n") w
      cases hwrite : w.files.writeText w.here (metadataPath (outputDirectory path))
          (s.metadata ++ "\n") with
      | error e =>
          rw [hwrite] at houtcome
          refine .inl ⟨e, rfl, rfl, ?_⟩
          unfold writeMetadata
          rw [if_pos rfl, outcome_bind, houtcome]
      | ok files =>
          rw [hwrite] at houtcome
          refine .inr ⟨({ w with files } : Workspace).addNotice
            (.metadataWritten (metadataPath (outputDirectory path))), hwrite, rfl, ?_⟩
          unfold writeMetadata
          rw [if_pos rfl, outcome_bind, houtcome]
          rfl

/-- Writing on a workspace is writing on its files. -/
theorem writes_of_writeOutputs (s : Schema) (source path : String) (wanted : Bool)
    (w : Workspace) :
    Writes s source path wanted w.here w.files
        (outcome (writeOutputs s source path wanted) w).2.files
        (outcome (writeOutputs s source path wanted) w).1 ∧
      (outcome (writeOutputs s source path wanted) w).2.here = w.here := by
  unfold writeOutputs
  cases hmake : w.files.makeAll w.here (outputDirectory path) with
  | mk made result =>
      rw [outcome_bind, outcome_makeAll, hmake]
      cases result with
      | error e =>
          exact ⟨.noDirectory hmake, rfl⟩
      | ok =>
          dsimp only [Except.mapError]
          rw [outcome_bind]
          rcases outcome_writeMetadata s path wanted { w with files := made } with
            ⟨e, hwanted, hwrite, houtcome⟩ | ⟨w', hextracts, hhere, houtcome⟩
          · rw [houtcome]
            exact ⟨.noMetadata hmake hwanted hwrite, rfl⟩
          · rw [houtcome]
            dsimp only
            rw [outcome_bind, outcome_writeOutput]
            cases hwrite : w'.files.writeText w'.here path source with
            | error e =>
                rw [hhere] at hwrite
                exact ⟨.noSource hmake hextracts hwrite, hhere⟩
            | ok files =>
                rw [hhere] at hwrite
                exact ⟨.done hmake hextracts hwrite, hhere⟩

end Outcomes

/-! ## Files -/

section Files

variable {s : Schema} {source path : String} {wanted : Bool} {here : Spot}
  {t made between after : FileTree}

/-- The metadata step touches the metadata document at most. -/
theorem Extracts.frame (h : Extracts s path wanted here made between) :
    FileTree.Frame
      (fun spot => wanted = true ∧
        between.LeadsTo here (metadataPath (outputDirectory path)) spot) made between := by
  cases wanted with
  | false =>
      obtain rfl : between = made := h
      exact .refl between
  | true =>
      obtain ⟨above, directory, name, hopens, hframe, -⟩ := FileTree.exists_of_write h
      refine hframe.mono fun spot hspot => ⟨rfl, ?_⟩
      rw [hspot]
      exact hopens.leadsTo

/-- Where writing fails, the metadata document may have been written, but not the source. -/
theorem Writes.frame_of_error {e : OutputError}
    (h : Writes s source path wanted here t after (.error e)) :
    FileTree.Frame
      (fun spot => wanted = true ∧
        after.LeadsTo here (metadataPath (outputDirectory path)) spot) t after := by
  cases h with
  | noDirectory hmake =>
      exact FileTree.frame_of_makeAll hmake
  | noMetadata hmake =>
      exact FileTree.frame_of_makeAll hmake
  | noSource hmake hextracts =>
      exact (FileTree.frame_of_makeAll hmake).trans hextracts.frame

/-- The output files after a success: names in one directory, and nothing else was touched. -/
structure Placed (s : Schema) (source path : String) (wanted : Bool) (here : Spot)
    (t after : FileTree) (directory : Spot) (name : String) : Prop where
  named : (Files.segments path).getLast? = some name
  leadsTo : after.LeadsTo here path (directory ++ [name])
  holds : after.get? (directory ++ [name]) = some (.file (.text source))
  metadata_leadsTo : wanted = true →
    after.LeadsTo here (metadataPath (outputDirectory path)) (directory ++ ["metadata.json"])
  metadata_holds : wanted = true → name ≠ "metadata.json" →
    after.get? (directory ++ ["metadata.json"]) = some (.file (.text (s.metadata ++ "\n")))
  frame : FileTree.Frame
    (fun spot => spot = directory ++ [name] ∨
      wanted = true ∧ spot = directory ++ ["metadata.json"]) t after

/-- The metadata step writes beside the source, wherever that is opened afterwards. -/
theorem Extracts.beside {directory : Spot} {name : String} {above : List String}
    (h : Extracts s path wanted here made between)
    (hkeep : ∀ spot, between.get? spot = some .directory → after.get? spot = some .directory)
    (hopens : after.Opens here path above directory name) :
    FileTree.Frame (fun spot => wanted = true ∧ spot = directory ++ ["metadata.json"])
        made between ∧
      (wanted = true →
        after.LeadsTo here (metadataPath (outputDirectory path)) (directory ++ ["metadata.json"]) ∧
          between.get? (directory ++ ["metadata.json"])
            = some (.file (.text (s.metadata ++ "\n")))) := by
  cases wanted with
  | false =>
      obtain rfl : between = made := h
      exact ⟨.refl between, fun hwanted => nomatch hwanted⟩
  | true =>
      obtain ⟨above', other, file, hbetween, hframe, hget⟩ := FileTree.exists_of_write h
      have hmetadata := hbetween.mono hkeep
      obtain ⟨rfl, rfl⟩ := directory_eq_of_opens hopens hmetadata
      refine ⟨hframe.mono fun spot heq => ⟨rfl, heq⟩, fun _ => ⟨hmetadata.leadsTo, ?_⟩⟩
      rw [hget, if_pos rfl]

theorem Writes.written_eq {written : Written}
    (h : Writes s source path wanted here t after (.ok written)) :
    written = ⟨path, if wanted then some (metadataPath (outputDirectory path)) else none⟩ := by
  cases h
  rfl

theorem Writes.placed_of_ok {written : Written}
    (h : Writes s source path wanted here t after (.ok written)) :
    ∃ directory name, Placed s source path wanted here t after directory name := by
  cases h with
  | @done made between _ hmake hextracts hwrite =>
      obtain ⟨above, directory, name, hopens, hsource, hget⟩ := FileTree.exists_of_write hwrite
      obtain ⟨hbeside, hmetadata⟩ := hextracts.beside hsource.directory hopens
      refine ⟨directory, name, ?_, hopens.leadsTo, ?_, ?_, ?_, ?_⟩
      · rw [hopens.segments_eq, List.getLast?_concat]
      · rw [hget, if_pos rfl]
      · intro hwanted
        exact (hmetadata hwanted).1
      · intro hwanted hname
        have hne : directory ++ ["metadata.json"] ≠ directory ++ [name] := by
          intro heq
          exact hname (List.singleton_inj.1 (List.append_cancel_left heq)).symm
        rw [hget, if_neg hne]
        exact (hmetadata hwanted).2
      · exact ((FileTree.frame_of_makeAll hmake).trans (hbeside.mono fun _ => .inr)).trans
          (hsource.mono fun _ => .inl)

/-- The document that is reported as metadata, unless the source has its name. -/
theorem Placed.readText_metadata {directory : Spot} {name : String}
    (h : Placed s source path wanted here t after directory name) (hwanted : wanted = true) :
    after.readText here (metadataPath (outputDirectory path))
      = .ok (if (Files.segments path).getLast? = some "metadata.json" then source
          else s.metadata ++ "\n") := by
  have hleads := h.metadata_leadsTo hwanted
  by_cases hname : name = "metadata.json"
  · rw [h.named, if_pos (congrArg some hname)]
    rw [← hname] at hleads
    exact hleads.readText_eq h.holds
  · rw [h.named, if_neg (fun heq => hname (Option.some.inj heq))]
    exact hleads.readText_eq (h.metadata_holds hwanted hname)

end Files

/-- After a success the source is at its path. The metadata document, if wanted, is reported as
written to the directory of the source and is there, unless the source has the same name: then the
source is found in its place. -/
theorem readText_of_writeOutputs {s : Schema} {source path : String} {wanted : Bool}
    {w w' : Workspace} {written : Written}
    (h : Workspace.outcome (writeOutputs s source path wanted) w = (.ok written, w')) :
    written.source = path ∧
      written.metadata = (if wanted then some (metadataPath (outputDirectory path)) else none) ∧
      w'.files.readText w'.here written.source = .ok source ∧
      ∀ place, written.metadata = some place →
        w'.files.readText w'.here place
          = .ok (if (Files.segments path).getLast? = some "metadata.json" then source
              else s.metadata ++ "\n") := by
  obtain ⟨hwrites, hhere⟩ := writes_of_writeOutputs s source path wanted w
  rw [h] at hwrites hhere
  obtain ⟨directory, name, hplaced⟩ := hwrites.placed_of_ok
  rw [hhere, hwrites.written_eq]
  refine ⟨rfl, rfl, hplaced.leadsTo.readText_eq hplaced.holds, ?_⟩
  intro place hplace
  by_cases hwanted : wanted = true
  · rw [if_pos hwanted] at hplace
    rw [← Option.some.inj hplace]
    exact hplaced.readText_metadata hwanted
  · rw [if_neg hwanted] at hplace
    cases hplace

/-- A schema with one enum. -/
def roleSchema : Schema :=
  { enums := [{ name := "Role", members := [{ name := "USER" }] }] }

/-- Files in a new directory, with their paths going through another one. -/
theorem readText_of_writeOutputs_newDirectory :
    ∃ written w', Workspace.outcome (writeOutputs roleSchema "x" "a/../b//o.ts" true) {}
        = (.ok written, w') ∧
      written.metadata = some "a/../b/metadata.json" ∧
      w'.files.readText w'.here "a/../b//o.ts" = .ok "x" ∧
      w'.files.readText w'.here "a/../b/metadata.json" = .ok (roleSchema.metadata ++ "\n") := by
  have hok : (Workspace.outcome (writeOutputs roleSchema "x" "a/../b//o.ts" true) {}).1
      = .ok ⟨"a/../b//o.ts", some "a/../b/metadata.json"⟩ := by
    decide +kernel
  obtain ⟨w', houtcome⟩ := Workspace.exists_outcome_eq hok
  obtain ⟨-, -, hsource, hmetadata⟩ := readText_of_writeOutputs houtcome
  have hname : (Files.segments "a/../b//o.ts").getLast? ≠ some "metadata.json" := by
    decide +kernel
  rw [if_neg hname] at hmetadata
  exact ⟨_, w', houtcome, rfl, hsource, hmetadata _ rfl⟩

/-- The metadata document is reported, but the source was written over it. -/
theorem metadata_lost_to_source :
    ∃ written w',
      Workspace.outcome
          (writeOutputs roleSchema (TypeScript.emit {} roleSchema) "metadata.json" true) {}
        = (.ok written, w') ∧
      written.metadata = some "./metadata.json" ∧
      w'.files.readText w'.here "./metadata.json" ≠ .ok (roleSchema.metadata ++ "\n") := by
  have hok : (Workspace.outcome
      (writeOutputs roleSchema (TypeScript.emit {} roleSchema) "metadata.json" true) {}).1
      = .ok ⟨"metadata.json", some "./metadata.json"⟩ := by
    decide +kernel
  obtain ⟨w', houtcome⟩ := Workspace.exists_outcome_eq hok
  obtain ⟨hwrites, hhere⟩ :=
    writes_of_writeOutputs roleSchema (TypeScript.emit {} roleSchema) "metadata.json" true {}
  rw [houtcome] at hwrites hhere
  obtain ⟨directory, name, hplaced⟩ := hwrites.placed_of_ok
  have hread := hplaced.readText_metadata rfl
  have hpath : metadataPath (outputDirectory "metadata.json") = "./metadata.json" := by
    decide +kernel
  have hname : (Files.segments "metadata.json").getLast? = some "metadata.json" := by
    decide +kernel
  have hne : TypeScript.emit {} roleSchema ≠ roleSchema.metadata ++ "\n" := by
    decide +kernel
  rw [hpath, if_pos hname] at hread
  refine ⟨_, w', houtcome, rfl, ?_⟩
  rw [hhere, hread]
  exact fun heq => hne (Except.ok.inj heq)

end Project
end PrismaTypes
