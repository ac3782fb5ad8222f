import Lineage.Proofs.Command.Operand
import Lineage.Proofs.Command.Run
import Mathlib.Data.List.Sort
import Mathlib.Data.String.Basic

/-
A directory is extracted file by file.

The command that names a directory and the commands that name its scripts load the
same settings and read the same texts.  So the directory succeeds as long as every
script does, its output holds what they print, and the first of them that fails
makes it fail.
-/

namespace Lineage
namespace Command

/-! ## Reports -/

/-- The report on a command line, on files that stay as they are. -/
def report (files : Files Id) (arguments : List String) : Report := Id.run (run files arguments)

/-- A run failed and gives this reason, behind what was logged. -/
def Report.FailsWith (report : Report) (verbose : Bool) (failure : Failure) : Prop :=
  ∃ log, report = .ofRun verbose log (.error failure)

theorem report_extract {files : Files Id} {arguments : List String} {r : Request}
    {dialect : Option Sql.Dialect} (hr : request arguments = .ok r)
    (hjob : r.job = .extract dialect) :
    ∃ log, report files arguments = .ofRun r.verbose log (resultOf (extract files r dialect)) := by
  have hrun : report files arguments =
      .ofRun r.verbose ((extract files r dialect).run.run []).2
        (resultOf (extract files r dialect)) := by
    simp only [report, run, hr, perform, hjob]
    rfl
  exact ⟨_, hrun⟩

/-! ## Scripts in a directory -/

/-- The scripts that a directory holds, by their names in order. -/
structure HoldsScripts (files : Files Id) (directory : String) (names : List String) : Prop where
  isDirectory : files.isDirectory directory = true
  listed : ∃ all, files.list directory = .ok all ∧ names.Perm (all.filter isScriptName)
  sorted : names.Pairwise (· < ·)
  regular : ∀ name ∈ names, files.isDirectory (Files.join directory name) = false

namespace HoldsScripts

variable {files : Files Id} {directory : String} {names : List String}

theorem mergeSort_eq {all : List String} (h : names.Perm (all.filter isScriptName))
    (hsorted : names.Pairwise (· < ·)) : (all.filter isScriptName).mergeSort (· ≤ ·) = names := by
  have hperm : ((all.filter isScriptName).mergeSort (· ≤ ·)).Perm names :=
    (List.mergeSort_perm _ _).trans h.symm
  exact hperm.eq_of_pairwise' (List.pairwise_mergeSort' (· ≤ ·) _) (hsorted.imp le_of_lt)

theorem resultOf_scriptPaths (h : HoldsScripts files directory names) :
    resultOf (scriptPaths files directory) = .ok (names.map (Files.join directory)) := by
  obtain ⟨all, hlist, hperm⟩ := h.listed
  rw [← mergeSort_eq hperm h.sorted]
  unfold scriptPaths
  rw [hlist]
  rfl

/-- No two scripts of a directory share a path. -/
theorem nodup_paths (h : HoldsScripts files directory names) :
    (names.map (Files.join directory)).Nodup := by
  have hjoin : Function.Injective (Files.join directory) := by
    intro a b hab
    unfold Files.join at hab
    split at hab
    · exact (String.append_right_inj _).1 hab
    · exact (String.append_right_inj _).1 hab
  exact List.Nodup.map hjoin (h.sorted.imp ne_of_lt)

/-- The scripts of a directory can be named in its place, behind two dashes. -/
theorem request_dashes (h : HoldsScripts files directory names) {flags : List String}
    {operand : String} {r : Request} (hr : request (flags ++ ["--", operand]) = .ok r) :
    ∀ name ∈ names, request (flags ++ ["--", Files.join directory name]) =
      .ok { r with path := Files.join directory name } := by
  intro name hname
  obtain ⟨all, -, hperm⟩ := h.listed
  have hscript : isScriptName name = true := (List.mem_filter.1 (hperm.subset hname)).2
  have hempty : name ≠ "" := by
    rintro rfl
    exact absurd hscript (by decide +kernel)
  refine Command.request_dashes hr (fun hjoin => hempty ?_)
  unfold Files.join at hjoin
  split at hjoin
  · exact (String.append_eq_empty_iff.1 hjoin).2
  · exact (String.append_eq_empty_iff.1 hjoin).2

end HoldsScripts

/-! ## One script and all of them -/

/-- The statements are numbered from zero and the summary is their ordered union. -/
structure ScriptLineage.IsOrdered (s : ScriptLineage) : Prop where
  indexes : s.statements.map (·.index) = List.range s.statements.length
  summary : s.summary = Record.mergeAll (s.statements.map (·.record))

theorem ScriptLineage.IsOrdered.ofStatements (o : ExtractOptions)
    (statements : List Sql.Statement) : (ScriptLineage.ofStatements o statements).IsOrdered where
  indexes := by
    have hindex : (Script.lineage o statements).map (·.index) = statements.zipIdx.map (·.2) := by
      rw [Script.lineage, List.map_map]
      rfl
    rw [ScriptLineage.ofStatements, hindex, List.zipIdx_map_snd, ← List.range_eq_range', Script.lineage,
      List.length_map, List.length_zipIdx]
  summary := rfl

/-- What the script at a path is read as once the settings are loaded. -/
def lineageOf (files : Files Id) (r : Request) (dialect : Option Sql.Dialect) (path : String) :
    Except Failure ScriptLineage :=
  (resultOf (loadSettings files r.config)).bind fun s =>
    resultOf (readScript files (dialect.getD s.dialect) (optionsOf s r) path)

section
variable {files : Files Id} {r : Request} {dialect : Option Sql.Dialect} {names : List String}

theorem resultOf_extract_file {path : String} (h : files.isDirectory path = false) :
    resultOf (extract files { r with path } dialect) =
      (lineageOf files r dialect path).map (renderScript r.format r.pretty) := by
  rw [resultOf_extract, lineageOf, h]
  show (resultOf (loadSettings files r.config)).bind _ = _
  cases resultOf (loadSettings files r.config) <;> rfl

theorem resultOf_extract_unset {failure : Failure}
    (h : resultOf (loadSettings files r.config) = .error failure) :
    resultOf (extract files r dialect) = .error failure := by
  rw [resultOf_extract, h]
  rfl

theorem resultOf_extract_directory (hdir : HoldsScripts files r.path names) {s : Settings}
    (hs : resultOf (loadSettings files r.config) = .ok s) :
    resultOf (extract files r dialect) =
      (resultOf (readScripts files (dialect.getD s.dialect) (optionsOf s r)
        (names.map (Files.join r.path)))).map (renderScripts r.format r.pretty) := by
  rw [resultOf_extract, hs, hdir.isDirectory, hdir.resultOf_scriptPaths]
  rfl

/-- A script that is read has its statements numbered and summed up. -/
theorem isOrdered_lineageOf {path : String} {s : ScriptLineage}
    (h : lineageOf files r dialect path = .ok s) : s.IsOrdered := by
  unfold lineageOf at h
  cases hset : resultOf (loadSettings files r.config) with
  | error failure => rw [hset] at h; cases h
  | ok settings =>
    rw [hset] at h
    obtain ⟨statements, rfl⟩ := resultOf_readScript_eq_ok h
    exact .ofStatements _ statements

variable (files r dialect names) in
/-- How the extraction of a directory comes out: all of its scripts are read, or
one of them is the first that is not, or there is none and the settings are what
fails. -/
inductive Comes : Except Failure String → Prop
  | read (lineages : List ScriptLineage)
    (hset : names = [] → ∃ s, resultOf (loadSettings files r.config) = .ok s)
    (hread : List.Forall₂ (fun name s =>
      lineageOf files r dialect (Files.join r.path name) = .ok s) names lineages) :
    Comes (.ok (renderScripts r.format r.pretty ((names.map (Files.join r.path)).zip lineages)))
  | unread (before : List String) (name : String) (after : List String) (failure : Failure)
    (hnames : names = before ++ name :: after)
    (hbefore : ∀ earlier ∈ before, ∃ s,
      lineageOf files r dialect (Files.join r.path earlier) = .ok s)
    (hname : lineageOf files r dialect (Files.join r.path name) = .error failure) :
    Comes (.error failure)
  | unset (failure : Failure) (hnames : names = [])
    (hset : resultOf (loadSettings files r.config) = .error failure) :
    Comes (.error failure)

/-- Some element of a list is the first one that fails, unless none does. -/
theorem forall₂_ok_or_first_error {α β ε : Type} (f : α → Except ε β) (as : List α) :
    (∃ bs, List.Forall₂ (fun a b => f a = .ok b) as bs) ∨
      ∃ before a after failure, as = before ++ a :: after ∧
        (∀ earlier ∈ before, ∃ b, f earlier = .ok b) ∧ f a = .error failure := by
  induction as with
  | nil => exact .inl ⟨[], .nil⟩
  | cons first as ih =>
    cases hfirst : f first with
    | error failure => exact .inr ⟨[], first, as, failure, rfl, by simp, hfirst⟩
    | ok b =>
      rcases ih with ⟨bs, hbs⟩ | ⟨before, a, after, failure, rfl, hbefore, ha⟩
      · exact .inl ⟨b :: bs, .cons hfirst hbs⟩
      · exact .inr ⟨first :: before, a, after, failure, rfl,
          List.forall_mem_cons.2 ⟨⟨b, hfirst⟩, hbefore⟩, ha⟩

theorem comes_extract (hdir : HoldsScripts files r.path names) :
    Comes files r dialect names (resultOf (extract files r dialect)) := by
  cases hs : resultOf (loadSettings files r.config) with
  | error failure =>
    rw [resultOf_extract_unset hs]
    -- every script fails with these settings, and so does the first one
    cases names with
    | nil => exact .unset failure rfl hs
    | cons name names =>
      have hname : lineageOf files r dialect (Files.join r.path name) = .error failure := by
        rw [lineageOf, hs]
        rfl
      exact .unread [] name names failure rfl (by simp) hname
  | ok s =>
    have hone (path : String) : lineageOf files r dialect path =
        resultOf (readScript files (dialect.getD s.dialect) (optionsOf s r) path) := by
      rw [lineageOf, hs]
      rfl
    rw [resultOf_extract_directory hdir hs]
    rcases forall₂_ok_or_first_error
        (fun name => lineageOf files r dialect (Files.join r.path name)) names with
      ⟨lineages, hread⟩ | ⟨before, name, after, failure, rfl, hbefore, hname⟩
    · have hpaths : List.Forall₂ (fun path lineage => resultOf (readScript files
          (dialect.getD s.dialect) (optionsOf s r) path) = .ok lineage)
          (names.map (Files.join r.path)) lineages := by
        simpa only [List.forall₂_map_left_iff, ← hone] using hread
      rw [resultOf_readScripts_read hpaths]
      exact .read lineages (fun _ => ⟨s, hs⟩) hread
    · have hpaths : ∀ path ∈ before.map (Files.join r.path), ∃ lineage, resultOf (readScript files
          (dialect.getD s.dialect) (optionsOf s r) path) = .ok lineage := by
        simpa only [List.forall_mem_map, ← hone] using hbefore
      rw [List.map_append, List.map_cons,
        resultOf_readScripts_unread hpaths ((hone _).symm.trans hname)]
      exact .unread before name after failure rfl hbefore hname

end

/-! ## The reports side by side -/

/-- Where the failure of a directory comes from: the first of its scripts that
fails, or the settings if there is no script. -/
def IsCause (files : Files Id) (r : Request) (names : List String) (single : String → Report)
    (failure : Failure) : Prop :=
  (∃ before name after, names = before ++ name :: after ∧
    (∀ earlier ∈ before, (single earlier).code = 0) ∧
    (single name).FailsWith r.verbose failure) ∨
  (names = [] ∧ resultOf (loadSettings files r.config) = .error failure)

/-- The report on a directory is made of the reports on its scripts. -/
structure IsPerFile (files : Files Id) (r : Request) (names : List String)
    (single : String → Report) (whole : Report) : Prop where
  /-- The paths of the scripts can be the keys of an object. -/
  keys : (names.map (Files.join r.path)).Nodup
  succeeds : whole.code = 0 ↔ (∀ name ∈ names, (single name).code = 0) ∧
    (names = [] → ∃ s, resultOf (loadSettings files r.config) = .ok s)
  json : r.format = .json → whole.code = 0 → ∃ lineages,
    List.Forall₂ (fun name (s : ScriptLineage) => s.IsOrdered ∧
      (single name).output = jsonText r.pretty s.toJson ++ "\n") names lineages ∧
    whole.output = jsonText r.pretty
      (.obj ((names.map (Files.join r.path)).zip (lineages.map (·.toJson)))) ++ "\n"
  text : r.format = .text → whole.code = 0 → ∃ texts,
    List.Forall₂ (fun name text => (single name).output = text ++ "\n") names texts ∧
    whole.output = "\n\n".intercalate ((names.zip texts).map fun (name, text) =>
      "== " ++ Files.join r.path name ++ " ==\n" ++ text) ++ "\n"
  fails : whole.code ≠ 0 → whole.output = "" ∧ ∃ failure, whole.FailsWith r.verbose failure ∧
    IsCause files r names single failure

theorem renderScripts_json {pretty : Bool} {paths : List String}
    {lineages : List ScriptLineage} :
    renderScripts .json pretty (paths.zip lineages) =
      jsonText pretty (.obj (paths.zip (lineages.map (·.toJson)))) := by
  rw [List.zip_map_right]
  rfl

theorem renderScripts_text {pretty : Bool} {directory : String} {names : List String}
    {lineages : List ScriptLineage} :
    renderScripts .text pretty ((names.map (Files.join directory)).zip lineages) =
      "\n\n".intercalate ((names.zip (lineages.map scriptText)).map fun (name, text) =>
        "== " ++ Files.join directory name ++ " ==\n" ++ text) := by
  rw [List.zip_map_left, List.zip_map_right, List.map_map, renderScripts, List.map_map]
  rfl

namespace IsPerFile

variable {files : Files Id} {r : Request} {names : List String} {single : String → Report}
  {log : List LogLine}

theorem of_read {lineages : List ScriptLineage} (hkeys : (names.map (Files.join r.path)).Nodup)
    (hset : names = [] → ∃ s, resultOf (loadSettings files r.config) = .ok s)
    (hread : List.Forall₂ (fun name (s : ScriptLineage) => (single name).code = 0 ∧ s.IsOrdered ∧
      (single name).output = renderScript r.format r.pretty s ++ "\n") names lineages) :
    IsPerFile files r names single (.ofRun r.verbose log
      (.ok (renderScripts r.format r.pretty ((names.map (Files.join r.path)).zip lineages)))) := by
  obtain ⟨hcodes, hprints⟩ := (List.forall₂_and_left _ _).1 hread
  refine ⟨hkeys, iff_of_true rfl ⟨hcodes, hset⟩, ?json, ?text, fun hcode => absurd rfl hcode⟩
  case json =>
    intro hformat _
    rw [hformat] at hprints ⊢
    refine ⟨lineages, hprints, ?_⟩
    rw [renderScripts_json]
    rfl
  case text =>
    intro hformat _
    rw [hformat] at hprints ⊢
    have htexts : List.Forall₂ (fun name text => (single name).output = text ++ "\n") names
        (lineages.map scriptText) :=
      List.forall₂_map_right_iff.2 (hprints.imp fun _ _ h => h.2)
    refine ⟨lineages.map scriptText, htexts, ?_⟩
    rw [renderScripts_text]
    rfl

theorem of_failure {failure : Failure} (hkeys : (names.map (Files.join r.path)).Nodup)
    (hcause : IsCause files r names single failure) :
    IsPerFile files r names single (.ofRun r.verbose log (.error failure)) := by
  have hcode : (Report.ofRun r.verbose log (.error failure)).code ≠ 0 := Nat.one_ne_zero
  -- either cause contradicts what a success asks for
  have hfails : ¬((∀ name ∈ names, (single name).code = 0) ∧
      (names = [] → ∃ s, resultOf (loadSettings files r.config) = .ok s)) := by
    rintro ⟨hcodes, hset⟩
    rcases hcause with ⟨before, name, after, rfl, -, log, hname⟩ | ⟨hnames, hunset⟩
    · have hzero := hcodes name (List.mem_append_right _ List.mem_cons_self)
      rw [hname] at hzero
      exact hcode hzero
    · obtain ⟨s, hs⟩ := hset hnames
      rw [hunset] at hs
      cases hs
  exact ⟨hkeys, iff_of_false hcode hfails, fun _ h => absurd h hcode, fun _ h => absurd h hcode,
    fun _ => ⟨rfl, failure, ⟨log, rfl⟩, hcause⟩⟩

end IsPerFile

/-- A directory is extracted as its scripts are one by one, all of them or none. -/
theorem extract_directory {files : Files Id} {r : Request} {dialect : Option Sql.Dialect}
    {names : List String} {arguments : List String} {each : String → List String}
    (hr : request arguments = .ok r) (hjob : r.job = .extract dialect)
    (hdir : HoldsScripts files r.path names)
    (heach : ∀ name ∈ names, request (each name) = .ok { r with path := Files.join r.path name }) :
    IsPerFile files r names (fun name => report files (each name)) (report files arguments) := by
  have hsingle : ∀ name ∈ names, ∃ log, report files (each name) = .ofRun r.verbose log
      ((lineageOf files r dialect (Files.join r.path name)).map
        (renderScript r.format r.pretty)) := by
    intro name hname
    obtain ⟨log, h⟩ := @report_extract files _ _ dialect (heach name hname) hjob
    rw [resultOf_extract_file (hdir.regular name hname)] at h
    exact ⟨log, h⟩
  obtain ⟨log, hwhole⟩ := @report_extract files arguments r dialect hr hjob
  have hcomes := @comes_extract files r dialect names hdir
  rw [hwhole]
  generalize resultOf (extract files r dialect) = result at hcomes
  cases hcomes with
  | read lineages hset hread =>
    refine .of_read hdir.nodup_paths hset (((List.forall₂_and_left _ _).2 ⟨hsingle, hread⟩).imp ?_)
    rintro name s ⟨⟨log, hlog⟩, hs⟩
    rw [hlog, hs]
    exact ⟨rfl, isOrdered_lineageOf hs, rfl⟩
  | unread before name after failure hnames hbefore hname =>
    have hmem {n : String} (h : n ∈ before ++ name :: after) : n ∈ names := hnames ▸ h
    have hearlier : ∀ earlier ∈ before, (report files (each earlier)).code = 0 := by
      intro earlier hmem'
      obtain ⟨log, hlog⟩ := hsingle earlier (hmem (List.mem_append_left _ hmem'))
      obtain ⟨s, hs⟩ := hbefore earlier hmem'
      rw [hlog, hs]
      rfl
    have hfails : (report files (each name)).FailsWith r.verbose failure := by
      obtain ⟨log, hlog⟩ := hsingle name (hmem (List.mem_append_right _ List.mem_cons_self))
      rw [hname] at hlog
      exact ⟨log, hlog⟩
    exact .of_failure hdir.nodup_paths (.inl ⟨before, name, after, hnames, hearlier, hfails⟩)
  | unset failure hnames hset =>
    exact .of_failure hdir.nodup_paths (.inr ⟨hnames, hset⟩)

/-- The request to extract a directory, with no options. -/
def sqlRequest : Request := ⟨.extract none, "sql", false, none, false, .json, false⟩

/-- A directory with two scripts, one of them blank, and something else. -/
def twoScripts : Files Id where
  pathExists _ := false
  isDirectory path := path == "sql"
  read path := .ok (if path = "sql/a.sql" then "SELECT * FROM t" else " ")
  list _ := .ok ["b.sql", "notes", "a.sql"]
  standardInput := .ok ""

theorem holdsScripts_twoScripts : HoldsScripts twoScripts "sql" ["a.sql", "b.sql"] where
  isDirectory := rfl
  listed := ⟨_, rfl, by decide +kernel⟩
  sorted := by decide
  regular := by
    have hjoin : ∀ name ∈ ["a.sql", "b.sql"], (Files.join "sql" name == "sql") = false := by
      decide +kernel
    exact hjoin

theorem extract_directory_twoScripts :
    request ["extract", "--", "sql"] = .ok sqlRequest ∧ sqlRequest.job = .extract none ∧
      HoldsScripts twoScripts sqlRequest.path ["a.sql", "b.sql"] ∧
      (∀ name ∈ ["a.sql", "b.sql"], request ["extract", "--", Files.join "sql" name] =
        .ok { sqlRequest with path := Files.join sqlRequest.path name }) ∧
      IsPerFile twoScripts sqlRequest ["a.sql", "b.sql"]
        (fun name => report twoScripts ["extract", "--", Files.join "sql" name])
        (report twoScripts ["extract", "--", "sql"]) := by
  have hr : request ["extract", "--", "sql"] = .ok sqlRequest := by decide
  have heach := @HoldsScripts.request_dashes _ _ _ holdsScripts_twoScripts ["extract"] _ _ hr
  exact ⟨hr, rfl, holdsScripts_twoScripts, heach,
    extract_directory hr rfl holdsScripts_twoScripts heach⟩

/-- An empty directory beside a settings file. -/
def besideSettings (text : String) : Files Id where
  pathExists path := path == "./lineage.yml"
  isDirectory path := path == "sql"
  read path := if path = "./lineage.yml" then .ok text else .error .missing
  list path := if path = "sql" then .ok [] else .error .missing
  standardInput := .ok ""

theorem loadFrom_besideSettings (text : String) :
    Settings.loadFrom (besideSettings text) "." = Settings.ofYaml text := by
  have hjoin : Files.join "." "lineage.yml" = "./lineage.yml" := by
    decide +kernel
  unfold Settings.loadFrom Settings.fileNames Settings.loadFirst
  rw [hjoin]
  rfl

/-- Where there is no script, settings that cannot be loaded still fail the run. -/
theorem not_forall_extract_directory :
    ¬ ∀ (files : Files Id) (r : Request) (dialect : Option Sql.Dialect) (names : List String)
      (arguments : List String) (each : String → List String), request arguments = .ok r →
      r.job = .extract dialect → HoldsScripts files r.path names →
      (∀ name ∈ names,
        request (each name) = .ok { r with path := Files.join r.path name }) →
      ((report files arguments).code = 0 ↔
        ∀ name ∈ names, (report files (each name)).code = 0) := by
  intro hall
  let files := besideSettings "max_ast_depth: 0\n"
  have hr : request ["extract", "sql"] = .ok sqlRequest := by decide
  have hdir : HoldsScripts files sqlRequest.path [] :=
    ⟨rfl, ⟨[], rfl, .nil⟩, .nil, fun _ h => absurd h List.not_mem_nil⟩
  have hyaml : Settings.ofYaml "max_ast_depth: 0\n" = .error .noLevels := by decide +kernel
  have hset : resultOf (loadSettings files sqlRequest.config) =
      .error ⟨"Failed to load lineage.yml", settingsCauses .noLevels⟩ := by
    show resultOf (loadSettings files none) = _
    unfold loadSettings
    rw [loadFrom_besideSettings, hyaml]
    rfl
  obtain ⟨log, hreport⟩ := @report_extract files _ _ none hr rfl
  rw [resultOf_extract_unset hset] at hreport
  have hzero := (hall files sqlRequest none [] ["extract", "sql"] (fun _ => []) hr rfl hdir
    (fun _ h => absurd h List.not_mem_nil)).2 (fun _ h => absurd h List.not_mem_nil)
  rw [hreport] at hzero
  exact Nat.one_ne_zero hzero

end Command
end Lineage
