import Lineage.Command.Line

/-
The operand behind two dashes.

What stands behind two dashes is the operand, however it is spelled.  So a command
line that ends so makes the same request with any other path, apart from the path.
-/

namespace Lineage
namespace Command

/-- What comes out of two steps came out of the first one, too. -/
theorem exists_of_bind_eq_ok {α β : Type} {result : Except UsageFault α}
    {next : α → Except UsageFault β} {b : β} (h : (result >>= next) = .ok b) :
    ∃ a, result = .ok a ∧ next a = .ok b := by
  cases result with
  | error fault => cases h
  | ok a => exact ⟨a, rfl, h⟩

namespace Progress

/-! ## Levels -/

/-- What comes out, if anything does, is at this level. -/
def Stays (level : Level) (result : Except UsageFault Progress) : Prop :=
  ∀ p, result = .ok p → p.level = level

section
variable {level : Level} {p : Progress}

theorem stays_ok (h : p.level = level) : Stays level (.ok p) := by
  rintro _ ⟨⟩
  exact h

theorem stays_error (fault : UsageFault) : Stays level (.error fault) := by
  rintro _ ⟨⟩

theorem stays_bind {α : Type} {result : Except UsageFault α} {next : α → Except UsageFault Progress}
    (h : ∀ a, result = .ok a → Stays level (next a)) : Stays level (result >>= next) := by
  intro q hq
  obtain ⟨a, ha, hnext⟩ := exists_of_bind_eq_ok hq
  exact h a ha q hnext

/-- To settle changes what is given and what is pending. -/
theorem eq_of_settle {q : Progress} (h : p.settle = .ok q) :
    ∃ given pending, q = { p with given, pending } := by
  unfold settle at h
  split at h
  · cases h
    exact ⟨p.given, p.pending, rfl⟩
  · cases h
  · obtain ⟨given, -, hgiven⟩ := exists_of_bind_eq_ok h
    cases hgiven
    exact ⟨given, .nothing, rfl⟩
  · obtain ⟨given, -, hgiven⟩ := exists_of_bind_eq_ok h
    cases hgiven
    exact ⟨given, .nothing, rfl⟩

theorem stays_settle (h : p.level = level) : Stays level p.settle := by
  intro q hq
  obtain ⟨given, pending, rfl⟩ := eq_of_settle hq
  exact h

theorem stays_turnOn (h : p.level = level) (switch : Switch) : Stays level (p.turnOn switch) :=
  stays_bind fun q hq => stays_bind fun _ _ => stays_ok (stays_settle h q hq)

theorem stays_want (h : p.level = level) (switch : Switch) (attached : Option String) :
    Stays level (p.want switch attached) := by
  refine stays_bind fun q hq => ?_
  cases attached with
  | some value => exact stays_bind fun _ _ => stays_ok (stays_settle h q hq)
  | none => exact stays_ok (stays_settle h q hq)

theorem stays_long (h : p.level = level) (body : List Char) : Stays level (p.long body) := by
  unfold long
  dsimp only
  split
  · exact stays_error _
  · split
    · exact stays_want h _ _
    · split
      · exact stays_error _
      · exact stays_turnOn h _

theorem stays_short (h : p.level = level) (letters : List Char) :
    Stays level (p.short letters) := by
  induction letters generalizing p with
  | nil => exact stays_ok h
  | cons c letters ih =>
    unfold short
    dsimp only
    split
    · exact stays_error _
    · split
      · exact stays_want h _ _
      · split
        · exact stays_error _
        · next hon => exact ih (stays_turnOn h _ _ hon)

theorem stays_operand (h : p.level = level) (argument : String) :
    Stays level (p.operand argument) := by
  unfold operand
  cases p.level with
  | top =>
    dsimp only
    split
    · exact stays_error _
    · exact stays_error _
  | extract | hiveAst =>
    dsimp only
    split
    · exact stays_error _
    · exact stays_bind fun q hq => stays_ok (stays_settle h q hq)

theorem stays_argument (h : p.level = level) (argument : String) :
    Stays level (p.argument argument) := by
  unfold Progress.argument
  split
  · exact stays_ok h
  · exact stays_long h _
  · exact stays_short h _
  · split
    · exact stays_ok h
    · exact stays_operand h _

end

theorem settle_path {level : Level} {given : Given} {trailing hasPath : Bool} {path : String}
    (h : path ≠ "") :
    settle ⟨level, given, .path path, trailing, hasPath⟩ =
      .ok ⟨level, { given with path := some path }, .nothing, trailing, hasPath⟩ := by
  have hset : given.setPath path = .ok { given with path := some path } := by
    rw [Given.setPath, if_neg (by simpa using h)]
  show (do return ⟨level, ← given.setPath path, .nothing, trailing, hasPath⟩ :
    Except UsageFault Progress) = _
  rw [hset]
  rfl

/-! ## Runs -/

/-- Go on behind a run.  A command that it met takes all that is left. -/
def goOn (more : List String) : Progress × Option (String × List String) →
    Except UsageFault (Progress × Option (String × List String))
  | (p, none) => p.run more
  | (p, some (name, rest)) => .ok (p, some (name, rest ++ more))

theorem run_append (p : Progress) (arguments more : List String) :
    p.run (arguments ++ more) = (p.run arguments).bind (goOn more) := by
  induction arguments generalizing p with
  | nil => rfl
  | cons a arguments ih =>
    rw [List.cons_append, run, run]
    split
    · rfl
    · split
      · rfl
      · exact ih _

/-- Behind a command no other one is met. -/
theorem run_command {p q : Progress} (h : p.level ≠ .top) {arguments : List String}
    {command : Option (String × List String)} (hrun : p.run arguments = .ok (q, command)) :
    command = none := by
  induction arguments generalizing p with
  | nil =>
    cases hrun
    rfl
  | cons a arguments ih =>
    rw [run, if_neg (by simp [h])] at hrun
    split at hrun
    · cases hrun
    · next p' hp' =>
      have hlevel : p'.level = p.level := by
        split at hp'
        · exact stays_operand rfl a p' hp'
        · exact stays_argument rfl a p' hp'
      exact ih (hlevel ▸ h) hrun

/-- Where one argument is taken as the operand, any other is. -/
theorem operand_eq {p q : Progress} {value : String} (h : p.operand value = .ok q) :
    p.hasPath = false ∧ ∃ given, ∀ path,
      p.operand path = .ok ⟨p.level, given, .path path, p.trailing, true⟩ := by
  unfold operand at h ⊢
  cases hlevel : p.level with
  | top =>
    rw [hlevel] at h
    dsimp only at h
    split at h
    · cases h
    · cases h
  | extract | hiveAst =>
    rw [hlevel] at h
    cases hpath : p.hasPath with
    | true => rw [hpath] at h; cases h
    | false =>
      rw [hpath] at h
      obtain ⟨settled, hsettled, -⟩ := exists_of_bind_eq_ok h
      obtain ⟨given, pending, rfl⟩ := eq_of_settle hsettled
      refine ⟨rfl, given, fun path => ?_⟩
      rw [hsettled, hlevel]
      rfl

/-- Behind two dashes, one argument is read, and it is the operand. -/
theorem run_dashes {p q : Progress} {value : String} {command : Option (String × List String)}
    (h : p.run ["--", value] = .ok (q, command)) :
    ∃ given, ∀ path, p.run ["--", path] = .ok (⟨p.level, given, .path path, true, true⟩, none) := by
  have hlast {p : Progress} (ht : p.trailing = true) (path : String) :
      p.run [path] = (p.operand path).map (·, none) := by
    rw [run, ht]
    cases p.operand path <;> rfl
  have hrun (path : String) : p.run ["--", path] =
      (if p.trailing then p.operand "--" else .ok { p with trailing := true }).bind
        (·.run [path]) := by
    have hdashes : ((Level.ofName? "--").isSome || "--" = "help") = false := by decide
    rw [run, hdashes, Bool.and_false, Bool.and_false, if_neg Bool.false_ne_true]
    cases ht : p.trailing with
    | true => cases p.operand "--" <;> rfl
    | false => rfl
  cases ht : p.trailing with
  | true =>
    -- the dashes are the operand already, and there is no second one
    rw [hrun, if_pos ht] at h
    cases hfirst : p.operand "--" with
    | error fault => rw [hfirst] at h; cases h
    | ok first =>
      obtain ⟨-, given, hany⟩ := operand_eq hfirst
      rw [hany "--", Except.bind, @hlast ⟨p.level, given, .path "--", p.trailing, true⟩ ht] at h
      cases hsecond : Progress.operand ⟨p.level, given, .path "--", p.trailing, true⟩ value with
      | error fault => rw [hsecond] at h; cases h
      | ok second => cases (operand_eq hsecond).1
  | false =>
    rw [hrun, if_neg (by simp [ht]), Except.bind, hlast rfl] at h
    cases hoperand : ({ p with trailing := true } : Progress).operand value with
    | error fault => rw [hoperand] at h; cases h
    | ok operand =>
      obtain ⟨-, given, hany⟩ := operand_eq hoperand
      refine ⟨given, fun path => ?_⟩
      rw [hrun, if_neg (by simp [ht]), Except.bind, hlast rfl, hany]
      rfl

/-- If a command is met, it takes the dashes and what is behind them. -/
theorem run_append_dashes_command {p outer : Progress} {arguments rest : List String}
    {value name : String}
    (h : p.run (arguments ++ ["--", value]) = .ok (outer, some (name, rest))) :
    ∃ front, rest = front ++ ["--", value] ∧ ∀ path,
      p.run (arguments ++ ["--", path]) = .ok (outer, some (name, front ++ ["--", path])) := by
  rw [run_append] at h
  cases hrun : p.run arguments with
  | error fault => rw [hrun] at h; cases h
  | ok outcome =>
    obtain ⟨q, _ | ⟨found, front⟩⟩ := outcome
    · -- dashes in front of a command hide it
      have hdashes : q.run ["--", value] = .ok (outer, some (name, rest)) := by rwa [hrun] at h
      obtain ⟨given, hany⟩ := run_dashes hdashes
      rw [hany value] at hdashes
      cases hdashes
    · rw [hrun] at h
      cases h
      exact ⟨front, rfl, fun path => by rw [run_append, hrun]; rfl⟩

/-- Behind a command, what the dashes lead to is the operand. -/
theorem run_append_dashes_operand {p inner : Progress} (hp : p.level ≠ .top)
    {arguments : List String} {value : String} {command : Option (String × List String)}
    (h : p.run (arguments ++ ["--", value]) = .ok (inner, command)) :
    ∃ level given, ∀ path, p.run (arguments ++ ["--", path]) =
      .ok (⟨level, given, .path path, true, true⟩, none) := by
  rw [run_append] at h
  cases hrun : p.run arguments with
  | error fault => rw [hrun] at h; cases h
  | ok outcome =>
    obtain ⟨q, met⟩ := outcome
    obtain rfl := run_command hp hrun
    have hdashes : q.run ["--", value] = .ok (inner, command) := by rwa [hrun] at h
    obtain ⟨given, hany⟩ := run_dashes hdashes
    exact ⟨q.level, given, fun path => by rw [run_append, hrun]; exact hany path⟩

end Progress

/-! ## Requests -/

theorem ofName?_ne_top {name : String} {level : Level} (h : Level.ofName? name = some level) :
    level ≠ .top := by
  unfold Level.ofName? at h
  split at h
  · cases h
    exact Level.noConfusion
  · split at h
    · cases h
      exact Level.noConfusion
    · cases h

/-- A request is made where a command is met, it reads what is behind it, and nothing
that is pending is refused. -/
theorem request_eq_ok_iff {arguments : List String} {r : Request} :
    request arguments = .ok r ↔ ∃ outer name rest level inner command settled around,
      (Progress.start .top).run arguments = .ok (outer, some (name, rest)) ∧
      Level.ofName? name = some level ∧
      (Progress.start level).run rest = .ok (inner, command) ∧
      inner.settle = .ok settled ∧ outer.settle = .ok around ∧
      requestOf level around.given settled.given = .ok r := by
  constructor
  · intro h
    unfold request at h
    obtain ⟨⟨outer, met⟩, hrun, h⟩ := exists_of_bind_eq_ok h
    cases met with
    | none =>
      obtain ⟨around, -, h⟩ := exists_of_bind_eq_ok h
      split at h
      · cases h
      · cases h
    | some command =>
      obtain ⟨name, rest⟩ := command
      cases hname : Level.ofName? name with
      | none => simp only [hname] at h; cases h
      | some level =>
        simp only [hname] at h
        obtain ⟨⟨inner, command⟩, hinner, h⟩ := exists_of_bind_eq_ok h
        obtain ⟨settled, hsettled, h⟩ := exists_of_bind_eq_ok h
        split at h
        · cases h
        · obtain ⟨around, haround, h⟩ := exists_of_bind_eq_ok h
          exact ⟨outer, name, rest, level, inner, command, settled, around, hrun, hname, hinner,
            hsettled, haround, h⟩
  · rintro ⟨outer, name, rest, level, inner, command, settled, around, hrun, hname, hinner,
      hsettled, haround, h⟩
    have hpath : ¬ settled.given.path.isNone = true := by
      intro hnone
      unfold requestOf at h
      rw [Option.isNone_iff_eq_none.1 hnone] at h
      cases h
    simp only [request, hrun, hname, hinner, hsettled, haround, bind, Except.bind]
    rw [if_neg hpath]
    exact h

/-- A command line with its operand behind two dashes makes the same request with any
other operand. -/
theorem request_dashes {flags : List String} {directory path : String} {r : Request}
    (hr : request (flags ++ ["--", directory]) = .ok r) (hpath : path ≠ "") :
    request (flags ++ ["--", path]) = .ok { r with path } := by
  obtain ⟨outer, name, rest, level, inner, command, settled, around, houter, hname, hinner,
    hsettled, haround, hrequest⟩ := request_eq_ok_iff.1 hr
  obtain ⟨front, rfl, hcommand⟩ := Progress.run_append_dashes_command houter
  obtain ⟨level', given, hany⟩ := Progress.run_append_dashes_operand (ofName?_ne_top hname) hinner
  rw [hany directory] at hinner
  cases hinner
  -- only what is not empty settles
  have hdirectory : directory ≠ "" := by
    rintro rfl
    cases hsettled
  rw [Progress.settle_path hdirectory] at hsettled
  cases hsettled
  refine request_eq_ok_iff.2 ⟨outer, name, _, level, _, none,
    ⟨level', { given with path := some path }, .nothing, true, true⟩, around, hcommand path, hname,
    hany path, ?_, haround, ?_⟩
  · exact Progress.settle_path hpath
  · unfold requestOf at hrequest ⊢
    cases hrequest
    rfl

end Command
end Lineage
