import PrismaTypes.Proofs.OutputFiles

/-!
# What a run leaves behind

A run that finds a fault in its configuration or in its schema leaves all files as they are. Where
it fails to write, it may have made directories and written the metadata document, but the source
that was there stays. Where it succeeds, it has written the source and, if wanted, the metadata
document, and nothing else.

A run is a few steps on a file tree, with looking around before and after each of them
(`Generates`). So what one step may touch says what the run may touch.
-/

namespace PrismaTypes
namespace Command

open Files (FileTree Spot)
open Workspace (Looks outcome outcome_bind outcome_adapt configIn schemaIn)
open Project (metadataPath outputDirectory Writes)

/-- The output file of a run. -/
def Request.outputFile (r : Request) (c : Config) : String :=
  r.output.getD c.outputFile

def Request.wantsMetadata (r : Request) (c : Config) : Bool :=
  r.metadata || c.writeMetadata

/-! ## Steps -/

/-- How a run goes on a file tree. -/
inductive Generates (r : Request) (here : Spot) (t : FileTree) :
    FileTree → Except Failure Unit → Prop
  | badConfig {e : ConfigError} (hconfig : configIn r.config t here = .error e) :
      Generates r here t t (.error (.config e))
  | badSchema {c : Config} {e : SchemaError} (hconfig : configIn r.config t here = .ok c)
      (hschema : schemaIn (r.schema.getD c.schemaFile) t here = .error e) :
      Generates r here t t (.error (.schema e))
  | failed {c : Config} {s : Schema} {after : FileTree} {e : OutputError}
      (hconfig : configIn r.config t here = .ok c)
      (hschema : schemaIn (r.schema.getD c.schemaFile) t here = .ok s)
      (hwrites : Writes s (TypeScript.emit c s) (r.outputFile c) (r.wantsMetadata c) here t after
        (.error e)) :
      Generates r here t after (.error (.output e))
  | finished {c : Config} {s : Schema} {after : FileTree} {written : Project.Written}
      (hconfig : configIn r.config t here = .ok c)
      (hschema : schemaIn (r.schema.getD c.schemaFile) t here = .ok s)
      (hwrites : Writes s (TypeScript.emit c s) (r.outputFile c) (r.wantsMetadata c) here t after
        (.ok written)) :
      Generates r here t after (.ok ())

/-- The last part of a run, from configuration and schema to the report. -/
theorem generates_of_writing {r : Request} {w w' : Workspace} {c : Config} {s : Schema}
    {result : Except Failure Unit}
    {report : Project.Written → ExceptT Failure (StateM Workspace) Unit}
    (hreport : ∀ written, Looks (report written) fun _ _ => .ok ())
    (hconfig : configIn r.config w.files w.here = .ok c)
    (hschema : schemaIn (r.schema.getD c.schemaFile) w.files w.here = .ok s)
    (h : outcome (ExceptT.adapt Failure.output (Project.writeOutputs s (TypeScript.emit c s)
      (r.outputFile c) (r.wantsMetadata c)) >>= report) w = (result, w')) :
    Generates r w.here w.files w'.files result := by
  obtain ⟨hwrites, -⟩ := Project.writes_of_writeOutputs s (TypeScript.emit c s)
    (r.outputFile c) (r.wantsMetadata c) w
  rw [outcome_bind, outcome_adapt] at h
  generalize outcome (Project.writeOutputs s (TypeScript.emit c s) (r.outputFile c)
    (r.wantsMetadata c)) w = attempted at hwrites h
  obtain ⟨written, after⟩ := attempted
  cases written with
  | error e =>
      cases h
      exact .failed hconfig hschema hwrites
  | ok written =>
      -- The report prints, so the files are those of the writing.
      obtain ⟨hresult, hsame⟩ := hreport written after
      change outcome (report written) after = (result, w') at h
      rw [h] at hresult hsame
      obtain rfl : result = .ok () := hresult
      rw [hsame.files]
      exact .finished hconfig hschema hwrites

/-- A run on a workspace is a run on its files. -/
theorem generates_of_runGenerate {r : Request} {w w' : Workspace} {result : Except Failure Unit}
    (h : outcome (runGenerate r) w = (result, w')) :
    Generates r w.here w.files w'.files result := by
  -- All steps before the last one only look, so each starts from the files of the one before.
  unfold runGenerate at h
  obtain ⟨w₁, hsame₁, houtcome⟩ := (Looks.say
    (Terminal.header "Generate TypeScript Declarations")).outcome_eq _ w
  rw [houtcome] at h
  rw [← hsame₁.files, ← hsame₁.here]
  obtain ⟨w₂, hsame₂, ⟨c, hconfig, houtcome⟩ | ⟨e, hconfig, houtcome⟩⟩ :=
    (Workspace.looks_resolveConfig r.config).outcome_cases Failure.config _ w₁
  · rw [houtcome] at h
    obtain ⟨w₃, hsame₃, houtcome⟩ := (Looks.say _).outcome_eq _ w₂
    rw [houtcome] at h
    have hsame := hsame₂.trans hsame₃
    rw [← hsame.files, ← hsame.here]
    rw [← hsame.files, ← hsame.here] at hconfig
    obtain ⟨w₄, hsame₄, ⟨s, hschema, houtcome⟩ | ⟨e, hschema, houtcome⟩⟩ :=
      (Workspace.looks_loadSchema (r.schema.getD c.schemaFile)).outcome_cases Failure.schema _ w₃
    · rw [houtcome] at h
      obtain ⟨w₅, hsame₅, houtcome⟩ := (Looks.say _).outcome_eq _ w₄
      rw [houtcome] at h
      obtain ⟨w₆, hsame₆, houtcome⟩ := (Looks.emit c s).outcome_eq _ w₅
      rw [houtcome] at h
      obtain ⟨w₇, hsame₇, houtcome⟩ := (Looks.say _).outcome_eq _ w₆
      rw [houtcome] at h
      have hsame := ((hsame₄.trans hsame₅).trans hsame₆).trans hsame₇
      rw [← hsame.files, ← hsame.here]
      rw [← hsame.files, ← hsame.here] at hconfig hschema
      refine generates_of_writing (fun written => ?_) hconfig hschema h
      exact (Looks.say _).bind fun _ => (Looks.say _).bind fun _ => Looks.say _
    · rw [houtcome] at h
      cases h
      rw [hsame₄.files]
      exact .badSchema hconfig hschema
  · rw [houtcome] at h
    cases h
    rw [hsame₂.files]
    exact .badConfig hconfig

/-! ## What may be touched -/

namespace Generates

variable {r : Request} {here : Spot} {t after : FileTree}

theorem files_of_config {e : ConfigError} (h : Generates r here t after (.error (.config e))) :
    after = t := by
  cases h
  rfl

theorem files_of_schema {e : SchemaError} (h : Generates r here t after (.error (.schema e))) :
    after = t := by
  cases h
  rfl

theorem writes_of_output {e : OutputError} (h : Generates r here t after (.error (.output e))) :
    ∃ c s, configIn r.config t here = .ok c ∧
      Writes s (TypeScript.emit c s) (r.outputFile c) (r.wantsMetadata c) here t after
        (.error e) := by
  cases h with
  | failed hconfig hschema hwrites =>
      exact ⟨_, _, hconfig, hwrites⟩

theorem writes_of_ok (h : Generates r here t after (.ok ())) :
    ∃ c s written, configIn r.config t here = .ok c ∧
      schemaIn (r.schema.getD c.schemaFile) t here = .ok s ∧
      Writes s (TypeScript.emit c s) (r.outputFile c) (r.wantsMetadata c) here t after
        (.ok written) := by
  cases h with
  | finished hconfig hschema hwrites =>
      exact ⟨_, _, _, hconfig, hschema, hwrites⟩

end Generates

/-- Faults of the configuration or the schema leave all files as they are. Where writing fails, only
directories and the metadata document, if wanted, may be new, and the file at the output path is the
old one, unless it is that document itself. After a success, only the source at the output path and
the metadata document, if wanted, may be new besides directories, and they are. -/
theorem runGenerate_footprint {w w' : Workspace} {r : Request} {result : Except Failure Unit}
    (h : outcome (runGenerate r) w = (result, w')) :
    (∀ e, result = .error (.config e) → w'.files = w.files) ∧
    (∀ e, result = .error (.schema e) → w'.files = w.files) ∧
    (∀ e, result = .error (.output e) →
      ∃ c, configIn r.config w.files w.here = .ok c ∧
        let metadata := metadataPath (outputDirectory (r.outputFile c))
        FileTree.Frame
            (fun spot => r.wantsMetadata c = true ∧ w'.files.LeadsTo w.here metadata spot)
            w.files w'.files ∧
          ((∃ spot, (r.wantsMetadata c = true ∧ w'.files.LeadsTo w.here metadata spot) ∧
              w'.files.LeadsTo w.here (r.outputFile c) spot) ∨
            (∀ content, w.files.stat w.here (r.outputFile c) = .ok (.file content) →
              w'.files.stat w.here (r.outputFile c) = .ok (.file content)) ∧
            ∀ spot content, w'.files.LeadsTo w.here (r.outputFile c) spot →
              w'.files.get? spot = some (.file content) →
              w.files.get? spot = some (.file content))) ∧
    (result = .ok () →
      ∃ c s, configIn r.config w.files w.here = .ok c ∧
        schemaIn (r.schema.getD c.schemaFile) w.files w.here = .ok s ∧
        let metadata := metadataPath (outputDirectory (r.outputFile c))
        FileTree.Frame
            (fun spot => w'.files.LeadsTo w.here (r.outputFile c) spot ∨
              r.wantsMetadata c = true ∧ w'.files.LeadsTo w.here metadata spot)
            w.files w'.files ∧
          w'.files.readText w.here (r.outputFile c) = .ok (TypeScript.emit c s) ∧
          (r.wantsMetadata c = true →
            w'.files.readText w.here metadata
              = .ok (if (Files.segments (r.outputFile c)).getLast? = some "metadata.json" then
                  TypeScript.emit c s
                else s.metadata ++ "\n"))) := by
  have hgenerates := generates_of_runGenerate h
  refine ⟨?_, ?_, ?_, ?_⟩
  · rintro e rfl
    exact hgenerates.files_of_config
  · rintro e rfl
    exact hgenerates.files_of_schema
  · rintro e rfl
    obtain ⟨c, s, hconfig, hwrites⟩ := hgenerates.writes_of_output
    have hframe := hwrites.frame_of_error
    exact ⟨c, hconfig, hframe, hframe.file_at w.here (r.outputFile c)⟩
  · rintro rfl
    obtain ⟨c, s, written, hconfig, hschema, hwrites⟩ := hgenerates.writes_of_ok
    obtain ⟨directory, name, hplaced⟩ := hwrites.placed_of_ok
    refine ⟨c, s, hconfig, hschema, hplaced.frame.mono ?_,
      hplaced.leadsTo.readText_eq hplaced.holds, hplaced.readText_metadata⟩
    rintro spot (rfl | ⟨hwanted, rfl⟩)
    · exact .inl hplaced.leadsTo
    · exact .inr ⟨hwanted, hplaced.metadata_leadsTo hwanted⟩

/-- A schema in the working directory. -/
def smallProject : Workspace :=
  { files := ⟨[(["p"], .directory), (["p", "s"], .file (.text "enum E \x7b\n A\n\x7d"))]⟩
    here := ["p"] }

/-- Both output files, in a directory that is not there. -/
def smallRequest : Request :=
  { schema := some "s", output := some "d/o.ts", config := none, metadata := true }

/-- The run makes the directory and writes both files. -/
theorem runGenerate_footprint_smallProject :
    ∃ w' c s, outcome (runGenerate smallRequest) smallProject = (.ok (), w') ∧
      configIn none smallProject.files ["p"] = .ok c ∧
      schemaIn "s" smallProject.files ["p"] = .ok s ∧
      w'.files.readText ["p"] "d/o.ts" = .ok (TypeScript.emit c s) ∧
      w'.files.readText ["p"] "d/metadata.json" = .ok (s.metadata ++ "\n") := by
  have hok : (outcome (runGenerate smallRequest) smallProject).1 = .ok () := by
    decide +kernel
  obtain ⟨w', houtcome⟩ := Workspace.exists_outcome_eq hok
  obtain ⟨-, -, -, hfinished⟩ := runGenerate_footprint houtcome
  obtain ⟨c, s, hconfig, hschema, -, hsource, hmetadata⟩ := hfinished rfl
  have houtput : smallRequest.outputFile c = "d/o.ts" := rfl
  have hpath : metadataPath (outputDirectory "d/o.ts") = "d/metadata.json" := by
    decide +kernel
  have hname : (Files.segments "d/o.ts").getLast? ≠ some "metadata.json" := by
    decide +kernel
  rw [houtput] at hsource
  rw [houtput, hpath, if_neg hname] at hmetadata
  exact ⟨w', c, s, houtcome, hconfig, hschema, hsource, hmetadata rfl⟩

end Command
end PrismaTypes
