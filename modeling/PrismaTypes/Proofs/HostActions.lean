import PrismaTypes.Command.Run

/-!
# Actions on a workspace

What an action gives on a workspace and what it leaves behind (`outcome`). Most actions only look:
they print and give notices, and their result follows from the files and the working directory
(`Looks`). Looking is kept by every way of putting actions together, so it is shown for whole
configurations (`looks_resolveConfig`) and whole schemas (`looks_loadSchema`).
-/

namespace PrismaTypes
namespace Workspace

open Files (FileTree FileError Spot)

variable {ε ε' α β : Type}

/-! ## Outcomes -/

/-- What an action gives, and the workspace after it. -/
def outcome (action : ExceptT ε (StateM Workspace) α) (w : Workspace) :
    Except ε α × Workspace :=
  action.run.run w

theorem exists_outcome_eq {action : ExceptT ε (StateM Workspace) α} {w : Workspace}
    {result : Except ε α} (h : (outcome action w).1 = result) :
    ∃ w', outcome action w = (result, w') :=
  ⟨(outcome action w).2, by rw [← h]⟩

/-- The second action starts where the first one left off, unless that failed. -/
theorem outcome_bind (x : ExceptT ε (StateM Workspace) α)
    (f : α → ExceptT ε (StateM Workspace) β) (w : Workspace) :
    outcome (x >>= f) w =
      match (outcome x w).1 with
      | .ok a => outcome (f a) (outcome x w).2
      | .error e => (.error e, (outcome x w).2) := by
  change StateT.run (ExceptT.bindCont f (outcome x w).1) (outcome x w).2 = _
  cases (outcome x w).1 <;> rfl

theorem outcome_adapt (f : ε → ε') (x : ExceptT ε (StateM Workspace) α) (w : Workspace) :
    outcome (ExceptT.adapt f x) w = ((outcome x w).1.mapError f, (outcome x w).2) :=
  rfl

/-! ## Looking -/

/-- The workspaces may differ in what was printed and in the notices. -/
structure SameFiles (w w' : Workspace) : Prop where
  files : w'.files = w.files
  here : w'.here = w.here

theorem SameFiles.trans {w₁ w₂ w₃ : Workspace} (h : SameFiles w₁ w₂) (h' : SameFiles w₂ w₃) :
    SameFiles w₁ w₃ :=
  ⟨h'.files.trans h.files, h'.here.trans h.here⟩

/-- The action leaves the files and the working directory alone, and these decide what it gives. -/
def Looks (action : ExceptT ε (StateM Workspace) α) (result : FileTree → Spot → Except ε α) :
    Prop :=
  ∀ w : Workspace, (outcome action w).1 = result w.files w.here ∧
    SameFiles w (outcome action w).2

namespace Looks

variable {x y : ExceptT ε (StateM Workspace) α} {r s : FileTree → Spot → Except ε α}

theorem congr (h : Looks x r) (heq : ∀ t here, r t here = s t here) : Looks x s := by
  intro w
  rw [← heq]
  exact h w

theorem pure (a : α) : Looks (Pure.pure a : ExceptT ε (StateM Workspace) α) fun _ _ => .ok a :=
  fun _ => ⟨rfl, rfl, rfl⟩

theorem lift (result : Except ε α) :
    Looks (Project.lift result : ExceptT ε (StateM Workspace) α) fun _ _ => result :=
  fun _ => ⟨rfl, rfl, rfl⟩

theorem bind {f : α → ExceptT ε (StateM Workspace) β} {q : α → FileTree → Spot → Except ε β}
    (hx : Looks x r) (hf : ∀ a, Looks (f a) (q a)) :
    Looks (x >>= f) fun t here => r t here >>= fun a => q a t here := by
  intro w
  obtain ⟨hresult, hsame⟩ := hx w
  dsimp only
  rw [outcome_bind, ← hresult]
  cases (outcome x w).1 with
  | error e =>
      exact ⟨rfl, hsame⟩
  | ok a =>
      obtain ⟨hresult', hsame'⟩ := hf a (outcome x w).2
      rw [hsame.files, hsame.here] at hresult'
      exact ⟨hresult', hsame.trans hsame'⟩

/-- Looking around at the end does not change what is given. -/
theorem noted {f : α → ExceptT ε (StateM Workspace) Unit} (hx : Looks x r)
    (hf : ∀ a, Looks (f a) fun _ _ => .ok ()) :
    Looks (x >>= fun a => f a >>= fun _ => Pure.pure a) r := by
  refine (hx.bind fun a => (hf a).bind fun _ => pure a).congr fun t here => ?_
  cases r t here <;> rfl

theorem ite (hx : Looks x r) (hy : Looks y s) (b : Bool) :
    Looks (if b then x else y) fun t here => if b then r t here else s t here := by
  cases b with
  | true =>
      exact hx
  | false =>
      exact hy

/-! ### Looking before another action -/

/-- What comes after looking starts from the same files, or there was a failure. -/
theorem outcome_cases (hx : Looks x r) (context : ε → ε')
    (f : α → ExceptT ε' (StateM Workspace) β) (w : Workspace) :
    ∃ w', SameFiles w w' ∧
      ((∃ a, r w.files w.here = .ok a ∧
          outcome (ExceptT.adapt context x >>= f) w = outcome (f a) w') ∨
        ∃ e, r w.files w.here = .error e ∧
          outcome (ExceptT.adapt context x >>= f) w = (.error (context e), w')) := by
  obtain ⟨hresult, hsame⟩ := hx w
  refine ⟨(outcome x w).2, hsame, ?_⟩
  rw [outcome_bind, outcome_adapt, ← hresult]
  cases (outcome x w).1 with
  | error e =>
      exact .inr ⟨e, rfl, rfl⟩
  | ok a =>
      exact .inl ⟨a, rfl, rfl⟩

theorem outcome_eq {a : α} (hx : Looks x fun _ _ => .ok a)
    (f : α → ExceptT ε (StateM Workspace) β) (w : Workspace) :
    ∃ w', SameFiles w w' ∧ outcome (x >>= f) w = outcome (f a) w' := by
  obtain ⟨hresult, hsame⟩ := hx w
  refine ⟨(outcome x w).2, hsame, ?_⟩
  rw [outcome_bind, hresult]

/-! ### Actions of the host -/

theorem isThere (path : String) :
    Looks (Project.act (Host.isThere path) : ExceptT ε (StateM Workspace) Bool)
      fun t here => .ok (t.isThere here path) :=
  fun _ => ⟨rfl, rfl, rfl⟩

theorem isFile (path : String) :
    Looks (Project.act (Host.isFile path) : ExceptT ε (StateM Workspace) Bool)
      fun t here => .ok (t.isFile here path) :=
  fun _ => ⟨rfl, rfl, rfl⟩

theorem workingDirectory :
    Looks (Project.act Host.workingDirectory : ExceptT ε (StateM Workspace) String)
      fun _ here => .ok ("/" ++ Files.ofSegments here) :=
  fun _ => ⟨rfl, rfl, rfl⟩

theorem readText (context : FileError → ε) (path : String) :
    Looks (Project.attempt context (Host.readText path) : ExceptT ε (StateM Workspace) String)
      fun t here => (t.readText here path).mapError context :=
  fun _ => ⟨rfl, rfl, rfl⟩

theorem notify (n : Notice) :
    Looks (Project.act (Host.notify n) : ExceptT ε (StateM Workspace) Unit) fun _ _ => .ok () :=
  fun _ => ⟨rfl, rfl, rfl⟩

theorem notifyAll (notices : List Notice) :
    Looks (Project.act (Project.notifyAll notices) : ExceptT ε (StateM Workspace) Unit)
      fun _ _ => .ok () := by
  induction notices with
  | nil =>
      exact pure ()
  | cons n notices ih =>
      intro w
      obtain ⟨hresult, hsame⟩ := ih (w.addNotice n)
      exact ⟨hresult, hsame.files, hsame.here⟩

theorem say (lines : List String) :
    Looks (Command.say lines : ExceptT ε (StateM Workspace) Unit) fun _ _ => .ok () := by
  induction lines with
  | nil =>
      exact pure ()
  | cons line lines ih =>
      intro w
      obtain ⟨hresult, hsame⟩ := ih (w.addPrinted line)
      exact ⟨hresult, hsame.files, hsame.here⟩

theorem emit (c : Config) (s : Schema) :
    Looks (Project.act (Project.emit c s) : ExceptT ε (StateM Workspace) String)
      fun _ _ => .ok (TypeScript.emit c s) :=
  fun _ => ⟨rfl, rfl, rfl⟩

end Looks

/-! ## Configurations and schemas -/

/-- The configuration that a run finds. -/
def configIn (chosen : Option String) (t : FileTree) (here : Spot) : Except ConfigError Config :=
  let path := chosen.getD Config.fileName
  if t.isThere here path then
    match t.readText here path with
    | .ok text => Config.readFrom path text
    | .error e => .error (.unreadable path e)
  else .ok {}

/-- The schema that a run finds. -/
def schemaIn (path : String) (t : FileTree) (here : Spot) : Except SchemaError Schema :=
  let resolved := Files.absolute ("/" ++ Files.ofSegments here) path
  if t.isFile here resolved then
    match t.readText here resolved with
    | .ok text => (Schema.parse text).result
    | .error e => .error (.unreadable resolved e)
  else .error (.notFound resolved)

theorem looks_loadConfig (path : String) :
    Looks (Project.loadConfig path : ExceptT ConfigError (StateM Workspace) Config)
      fun t here =>
        match t.readText here path with
        | .ok text => Config.readFrom path text
        | .error e => .error (.unreadable path e) := by
  have hlooks := Looks.bind (Looks.readText (ConfigError.unreadable path) path) fun text =>
    (Looks.lift (Config.readFrom path text)).noted fun _ => Looks.notify (.configLoaded path)
  refine hlooks.congr fun t here => ?_
  cases t.readText here path <;> rfl

theorem looks_resolveConfig (chosen : Option String) :
    Looks (Project.resolveConfig chosen : ExceptT ConfigError (StateM Workspace) Config)
      (configIn chosen) := by
  have hlooks := Looks.bind (Looks.isThere (chosen.getD Config.fileName)) <|
    (looks_loadConfig (chosen.getD Config.fileName)).ite <|
      Looks.bind (Looks.notify (.configMissing chosen.isSome (chosen.getD Config.fileName)))
        fun _ => Looks.pure {}
  exact hlooks.congr fun t here => rfl

theorem looks_resolveSchemaPath (path : String) :
    Looks (Project.resolveSchemaPath path : ExceptT SchemaError (StateM Workspace) String)
      fun t here =>
        let resolved := Files.absolute ("/" ++ Files.ofSegments here) path
        if t.isFile here resolved then .ok resolved else .error (.notFound resolved) := by
  have hlooks := Looks.bind Looks.workingDirectory fun directory =>
    Looks.bind (Looks.isFile (Files.absolute directory path)) <|
      (Looks.pure (Files.absolute directory path)).ite <|
        Looks.lift (.error (SchemaError.notFound (Files.absolute directory path)))
  exact hlooks.congr fun t here => rfl

theorem looks_loadSchema (path : String) :
    Looks (Command.loadSchema path : ExceptT SchemaError (StateM Workspace) Schema)
      (schemaIn path) := by
  have hlooks := Looks.bind (looks_resolveSchemaPath path) fun resolved =>
    Looks.bind (Looks.readText (SchemaError.unreadable resolved) resolved) fun text =>
      (Looks.bind (Looks.notifyAll (Schema.parse text).notices) fun _ =>
          Looks.lift (Schema.parse text).result).noted fun schema =>
        Looks.notify (.schemaLoaded resolved schema.summary)
  refine hlooks.congr fun t here => ?_
  dsimp only [schemaIn]
  cases t.isFile here (Files.absolute ("/" ++ Files.ofSegments here) path) with
  | false =>
      rfl
  | true =>
      cases hread : t.readText here (Files.absolute ("/" ++ Files.ofSegments here) path) with
      | error e =>
          simp only [if_true, bind, Except.bind, hread]
          rfl
      | ok text =>
          simp only [if_true, bind, Except.bind, hread]
          rfl

end Workspace
end PrismaTypes
