import Lineage.Command
import Mathlib.Data.List.Forall2

/-
What a run comes to.

A run adds to the log and never looks at it, so its result is the same whatever
was logged before.  The results of runs are put together as the runs are, and
every part of the program is described here by its result alone.
-/

namespace Lineage
namespace Command

/-! ## Results -/

/-- What a run comes to, apart from what it logs. -/
def resultOf {α : Type} (action : Run Id α) : Except Failure α := (action.run.run []).1

/-- What was logged before makes no difference to the result. -/
def IgnoresLog {α : Type} (action : Run Id α) : Prop :=
  ∀ log, (action.run.run log).1 = resultOf action

section
variable {α β : Type} {action : Run Id α} {next : α → Run Id β}

theorem fst_run_bind (hnext : ∀ a, IgnoresLog (next a)) (log : List LogLine) :
    ((action >>= next).run.run log).1 =
      (action.run.run log).1.bind fun a => resultOf (next a) := by
  have hrun : (action >>= next).run.run log =
      match action.run.run log with
      | (.ok a, log) => (next a).run.run log
      | (.error failure, log) => (.error failure, log) := by
    show (ExceptT.bindCont next (action.run.run log).1).run (action.run.run log).2 = _
    rcases action.run.run log with ⟨_ | _, _⟩ <;> rfl
  rw [hrun]
  -- only a run that succeeds hands its log on
  rcases action.run.run log with ⟨_ | a, log⟩
  · rfl
  · exact hnext a log

/-- What follows a run goes on from its result. -/
theorem resultOf_bind (hnext : ∀ a, IgnoresLog (next a)) :
    resultOf (action >>= next) = (resultOf action).bind fun a => resultOf (next a) :=
  fst_run_bind hnext []

theorem IgnoresLog.bind (h : IgnoresLog action) (hnext : ∀ a, IgnoresLog (next a)) :
    IgnoresLog (action >>= next) := by
  intro log
  rw [fst_run_bind hnext, resultOf_bind hnext, h log]

theorem ignoresLog_pure (a : α) : IgnoresLog (pure a : Run Id α) := fun _ => rfl

theorem ignoresLog_failWith (message : String) (causes : List String) :
    IgnoresLog (failWith message causes : Run Id α) := fun _ => rfl

theorem ignoresLog_noteAll (lines : List LogLine) : IgnoresLog (noteAll lines : Run Id Unit) :=
  fun _ => rfl

theorem ignoresLog_note (origin message : String) :
    IgnoresLog (note origin message : Run Id Unit) := fun _ => rfl

theorem ignoresLog_lift (a : Id α) : IgnoresLog (liftM a : Run Id α) := fun _ => rfl

theorem resultOf_map (f : α → β) :
    resultOf (action >>= fun a => pure (f a)) = (resultOf action).map f := by
  rw [resultOf_bind fun _ => ignoresLog_pure _]
  cases resultOf action <;> rfl

end

/-! ## The parts of a run -/

section
variable (files : Files Id) (d : Sql.Dialect) (o : ExtractOptions)

theorem ignoresLog_readInput (path : String) : IgnoresLog (readInput files path) := by
  unfold readInput
  split
  · refine (ignoresLog_lift _).bind fun text? => ?_
    cases text? with
    | ok text => exact ignoresLog_pure text
    | error why => exact ignoresLog_failWith _ _
  · refine (ignoresLog_lift _).bind fun text? => ?_
    cases text? with
    | ok text => exact ignoresLog_pure text
    | error why => exact ignoresLog_failWith _ _

/-- What is made of the text of a script. -/
def lineageOfText (path text : String) : Run Id ScriptLineage :=
  match Script.read d text with
  | .error fault => failWith ("Failed to extract lineage from " ++ path) [fault.message]
  | .ok statements => do
    noteAll (Script.log o statements)
    return .ofStatements o statements

theorem ignoresLog_lineageOfText (path text : String) :
    IgnoresLog (lineageOfText d o path text) := by
  unfold lineageOfText
  cases Script.read d text with
  | error fault => exact ignoresLog_failWith _ _
  | ok statements => exact (ignoresLog_noteAll _).bind fun _ => ignoresLog_pure _

theorem readScript_eq (path : String) :
    readScript files d o path = readInput files path >>= lineageOfText d o path := rfl

theorem ignoresLog_readScript (path : String) : IgnoresLog (readScript files d o path) :=
  (ignoresLog_readInput files path).bind (ignoresLog_lineageOfText d o path)

variable {files d o} in
/-- A script that is read has the lineage of some statements. -/
theorem resultOf_readScript_eq_ok {path : String} {s : ScriptLineage}
    (h : resultOf (readScript files d o path) = .ok s) :
    ∃ statements, s = .ofStatements o statements := by
  rw [readScript_eq, resultOf_bind (ignoresLog_lineageOfText d o path)] at h
  cases hinput : resultOf (readInput files path) with
  | error failure => rw [hinput] at h; cases h
  | ok text =>
    have htext : resultOf (lineageOfText d o path text) = .ok s := by rwa [hinput] at h
    unfold lineageOfText at htext
    cases hread : Script.read d text with
    | error fault => rw [hread] at htext; cases htext
    | ok statements =>
      rw [hread] at htext
      exact ⟨statements, (Except.ok.inj htext).symm⟩

theorem ignoresLog_readScripts (paths : List String) : IgnoresLog (readScripts files d o paths) := by
  induction paths with
  | nil => exact ignoresLog_pure _
  | cons path paths ih =>
    exact (ignoresLog_readScript files d o path).bind fun script =>
      ih.bind fun scripts => ignoresLog_pure _

theorem ignoresLog_scriptPaths (directory : String) : IgnoresLog (scriptPaths files directory) := by
  refine (ignoresLog_lift _).bind fun names? => ?_
  cases names? with
  | error why => exact ignoresLog_failWith _ _
  | ok names => exact ignoresLog_pure _

/-! ## The scripts of a directory, one after the other -/

variable {files d o}

theorem resultOf_readScripts_cons (path : String) (paths : List String) :
    resultOf (readScripts files d o (path :: paths)) =
      (resultOf (readScript files d o path)).bind fun script =>
        (resultOf (readScripts files d o paths)).map ((path, script) :: ·) := by
  have hrest (script : ScriptLineage) : IgnoresLog
      (readScripts files d o paths >>= fun scripts => pure ((path, script) :: scripts)) :=
    (ignoresLog_readScripts files d o paths).bind fun _ => ignoresLog_pure _
  rw [readScripts, resultOf_bind hrest]
  congr 1
  funext script
  exact resultOf_map _

/-- Scripts are read when each of them is. -/
theorem resultOf_readScripts_read {paths : List String} {lineages : List ScriptLineage}
    (h : List.Forall₂ (fun path s => resultOf (readScript files d o path) = .ok s)
      paths lineages) :
    resultOf (readScripts files d o paths) = .ok (paths.zip lineages) := by
  induction h with
  | nil => rfl
  | cons hpath _ ih =>
    rw [resultOf_readScripts_cons, hpath, ih]
    rfl

/-- A script that cannot be read ends the reading, whatever comes after it. -/
theorem resultOf_readScripts_unread {before after : List String} {path : String}
    {failure : Failure}
    (hbefore : ∀ earlier ∈ before, ∃ s, resultOf (readScript files d o earlier) = .ok s)
    (hpath : resultOf (readScript files d o path) = .error failure) :
    resultOf (readScripts files d o (before ++ path :: after)) = .error failure := by
  induction before with
  | nil =>
    rw [List.nil_append, resultOf_readScripts_cons, hpath]
    rfl
  | cons earlier before ih =>
    obtain ⟨⟨s, hs⟩, hbefore⟩ := List.forall_mem_cons.1 hbefore
    rw [List.cons_append, resultOf_readScripts_cons, hs, ih hbefore]
    rfl

end

/-! ## Extraction -/

section
variable {files : Files Id} {r : Request} {dialect : Option Sql.Dialect}

/-- The settings come first.  Then all scripts of a directory are read, or the one
script. -/
theorem resultOf_extract :
    resultOf (extract files r dialect) =
      (resultOf (loadSettings files r.config)).bind fun s =>
        let d := dialect.getD s.dialect
        let o := optionsOf s r
        match files.isDirectory r.path with
        | true => (resultOf (scriptPaths files r.path)).bind fun paths =>
          (resultOf (readScripts files d o paths)).map (renderScripts r.format r.pretty)
        | false =>
          (resultOf (readScript files d o r.path)).map (renderScript r.format r.pretty) := by
  have hscripts (d : Sql.Dialect) (o : ExtractOptions) (paths : List String) : IgnoresLog do
      return renderScripts r.format r.pretty (← readScripts files d o paths) :=
    (ignoresLog_readScripts files d o paths).bind fun _ => ignoresLog_pure _
  have hplace (d : Sql.Dialect) (o : ExtractOptions) (isDirectory : Bool) : IgnoresLog do
      if isDirectory then
        let scripts ← readScripts files d o (← scriptPaths files r.path)
        return renderScripts r.format r.pretty scripts
      else return renderScript r.format r.pretty (← readScript files d o r.path) := by
    cases isDirectory with
    | true => exact (ignoresLog_scriptPaths files r.path).bind (hscripts d o)
    | false => exact (ignoresLog_readScript files d o r.path).bind fun _ => ignoresLog_pure _
  have hrest (d : Sql.Dialect) (o : ExtractOptions) :=
    (ignoresLog_lift (files.isDirectory r.path)).bind (hplace d o)
  unfold extract
  refine (resultOf_bind fun s => (ignoresLog_note _ _).bind fun _ => hrest _ _).trans ?_
  congr 1
  funext s
  refine (resultOf_bind fun _ => hrest _ _).trans ((resultOf_bind (hplace _ _)).trans ?_)
  generalize files.isDirectory r.path = isDirectory
  cases isDirectory with
  | true =>
    refine (resultOf_bind (hscripts _ _)).trans ?_
    congr 1
    funext paths
    exact resultOf_map _
  | false => exact resultOf_map _

end

end Command
end Lineage
