import Lineage.Decimal
import Lineage.Sql.Dialect

/-
Reading a command line.

Options may stand anywhere behind the command that takes them; those that every
command takes may stand in front of it too.  A value is looked at when the next
option, the next operand or the end is reached, so of two mistakes the one that
is noticed first need not be the one that was written first.
-/

namespace Lineage
namespace Command

inductive Format where
  | json
  | text
  deriving DecidableEq

def Format.ofName? (s : String) : Option Format :=
  if s = "json" then some .json else if s = "text" then some .text else none

inductive Switch where
  | verbose
  | config
  | dialect
  | emitCteNames
  | output
  | pretty
  | maxDepth
  | help
  | version
  deriving DecidableEq

namespace Switch

def long : Switch → String
  | verbose => "verbose"
  | config => "config"
  | dialect => "dialect"
  | emitCteNames => "emit-cte-names"
  | output => "output"
  | pretty => "pretty"
  | maxDepth => "max-depth"
  | help => "help"
  | version => "version"

def short? : Switch → Option Char
  | verbose => some 'v'
  | config => some 'c'
  | dialect => some 'd'
  | output => some 'o'
  | help => some 'h'
  | version => some 'V'
  | emitCteNames | pretty | maxDepth => none

/-- What the value of an option is called; none for an option without one. -/
def placeholder? : Switch → Option String
  | config => some "CONFIG"
  | dialect => some "DIALECT"
  | output => some "OUTPUT"
  | maxDepth => some "MAX_DEPTH"
  | verbose | emitCteNames | pretty | help | version => none

def takesValue (s : Switch) : Bool := s.placeholder?.isSome

def shown (s : Switch) : String :=
  match s.placeholder? with
  | some name => "--" ++ s.long ++ " <" ++ name ++ ">"
  | none => "--" ++ s.long

end Switch

/-- A command, or the place in front of one. -/
inductive Level where
  | top
  | extract
  | hiveAst
  deriving DecidableEq

namespace Level

def ofName? (s : String) : Option Level :=
  if s = "extract" then some extract else if s = "hive-ast" then some hiveAst else none

def switches : Level → List Switch
  | top => [.verbose, .config, .help, .version]
  | extract => [.verbose, .config, .dialect, .emitCteNames, .output, .pretty, .help]
  | hiveAst => [.verbose, .config, .maxDepth, .emitCteNames, .output, .pretty, .help]

end Level

/-- Why nothing is run.  Not every reason is a mistake. -/
inductive UsageFault where
  | helpWanted
  | versionWanted
  | nothingGiven
  | unexpected (argument : String)
  | unexpectedValue (value : String) (switch : Switch)
  | invalidValue (value : String) (switch : Switch) (why : Option String)
  | missingValue (shown : String)
  | repeated (switch : Switch)
  | unknownCommand (name : String)
  | missingCommand
  | missingPath
  deriving DecidableEq

namespace UsageFault

def message : UsageFault → String
  | helpWanted | versionWanted | nothingGiven => ""
  | unexpected argument => "unexpected argument '" ++ argument ++ "' found"
  | unexpectedValue value switch =>
    "unexpected value '" ++ value ++ "' for '" ++ switch.shown ++
      "' found; no more were expected"
  | invalidValue value switch why =>
    "invalid value '" ++ value ++ "' for '" ++ switch.shown ++ "'" ++
      match why with
      | some why => ": " ++ why
      | none => ""
  | missingValue shown => "a value is required for '" ++ shown ++ "' but none was supplied"
  | repeated switch => "the argument '" ++ switch.shown ++ "' cannot be used multiple times"
  | unknownCommand name => "unrecognized subcommand '" ++ name ++ "'"
  | missingCommand => "'tl' requires a subcommand but one was not provided"
  | missingPath => "the following required arguments were not provided:"

end UsageFault

/-! ### Values -/

/-- A number that fits a machine word, with an optional plus sign. -/
def wordOf (s : String) : Except String Nat :=
  let digits := match s.toList with
    | '+' :: cs => cs
    | cs => cs
  if s.isEmpty then .error "cannot parse integer from empty string"
  else if digits.isEmpty || !digits.all Char.isDigit then .error "invalid digit found in string"
  else
    let n := Decimal.ofDigits digits
    if n < Decimal.wordCount then .ok n else .error "number too large to fit in target type"

/-- What was given at one level.  An operand or option that is still to be
looked at is no part of it. -/
structure Given where
  verbose : Bool
  config : Option String
  path : Option String
  dialect : Option Sql.Dialect
  emitCteNames : Bool
  format : Option Format
  pretty : Bool
  maxDepth : Option Nat
  deriving DecidableEq

namespace Given

def none : Given := ⟨false, .none, .none, .none, false, .none, false, .none⟩

def has (g : Given) : Switch → Bool
  | .verbose => g.verbose
  | .config => g.config.isSome
  | .dialect => g.dialect.isSome
  | .emitCteNames => g.emitCteNames
  | .output => g.format.isSome
  | .pretty => g.pretty
  | .maxDepth => g.maxDepth.isSome
  | .help | .version => false

def turnOn (g : Given) (switch : Switch) : Except UsageFault Given :=
  if g.has switch then .error (.repeated switch)
  else
    match switch with
    | .verbose => .ok { g with verbose := true }
    | .emitCteNames => .ok { g with emitCteNames := true }
    | .pretty => .ok { g with pretty := true }
    | .help => .error .helpWanted
    | .version => .error .versionWanted
    | .config | .dialect | .output | .maxDepth => .error (.missingValue switch.shown)

def set (g : Given) (switch : Switch) (value : String) : Except UsageFault Given :=
  let wrong : UsageFault :=
    if value.isEmpty then .missingValue switch.shown else .invalidValue value switch .none
  if g.has switch then .error (.repeated switch)
  else
    match switch with
    | .config => if value.isEmpty then .error wrong else .ok { g with config := some value }
    | .dialect =>
      match Sql.Dialect.ofName? value with
      | some d => .ok { g with dialect := some d }
      | .none => .error wrong
    | .output =>
      match Format.ofName? value with
      | some f => .ok { g with format := some f }
      | .none => .error wrong
    | .maxDepth =>
      match wordOf value with
      | .ok n => .ok { g with maxDepth := some n }
      | .error why => .error (.invalidValue value switch (some why))
    | .verbose | .emitCteNames | .pretty | .help | .version =>
      .error (.unexpectedValue value switch)

def setPath (g : Given) (value : String) : Except UsageFault Given :=
  if value.isEmpty then .error (.missingValue "<PATH>") else .ok { g with path := some value }

end Given

/-! ### Arguments -/

/-- What was read and not yet looked at. -/
inductive Pending where
  | nothing
  | waiting (switch : Switch)
  | value (switch : Switch) (value : String)
  | path (value : String)
  deriving DecidableEq

structure Progress where
  level : Level
  given : Given
  pending : Pending
  /-- No option follows two dashes. -/
  trailing : Bool
  hasPath : Bool

namespace Progress

def start (level : Level) : Progress := ⟨level, .none, .nothing, false, false⟩

def settle (p : Progress) : Except UsageFault Progress :=
  match p.pending with
  | .nothing => .ok p
  | .waiting switch => .error (.missingValue switch.shown)
  | .value switch value => do
    return { p with given := ← p.given.set switch value, pending := .nothing }
  | .path value => do return { p with given := ← p.given.setPath value, pending := .nothing }

def isWaiting (p : Progress) : Bool :=
  match p.pending with
  | .waiting _ => true
  | _ => false

def turnOn (p : Progress) (switch : Switch) : Except UsageFault Progress := do
  let p ← p.settle
  return { p with given := ← p.given.turnOn switch }

/-- Take an option that needs a value, which may be attached to it. -/
def want (p : Progress) (switch : Switch) (attached : Option String) :
    Except UsageFault Progress := do
  let p ← p.settle
  match attached with
  | some value => return { p with given := ← p.given.set switch value }
  | none => return { p with pending := .waiting switch }

def long (p : Progress) (body : List Char) : Except UsageFault Progress :=
  let name := String.ofList (body.takeWhile (· ≠ '='))
  let attached := match body.dropWhile (· ≠ '=') with
    | [] => none
    | _ :: value => some (String.ofList value)
  match p.level.switches.find? (·.long = name) with
  | none => .error (.unexpected ("--" ++ name))
  | some switch =>
    if switch.takesValue then p.want switch attached
    else
      match attached with
      | some value => .error (.unexpectedValue value switch)
      | none => p.turnOn switch

/-- Options by their letters.  What follows the letter of an option with a value
is that value. -/
def short (p : Progress) : List Char → Except UsageFault Progress
  | [] => .ok p
  | c :: rest =>
    match p.level.switches.find? (·.short? = some c) with
    | none => .error (.unexpected ("-" ++ c.toString))
    | some switch =>
      if switch.takesValue then
        let attached := match rest with
          | [] => none
          | '=' :: value => some (String.ofList value)
          | value => some (String.ofList value)
        p.want switch attached
      else
        match p.turnOn switch with
        | .error f => .error f
        | .ok p => p.short rest

def operand (p : Progress) (argument : String) : Except UsageFault Progress :=
  match p.level with
  | .top =>
    if p.trailing && ((Level.ofName? argument).isSome || argument = "help") then
      .error (.unexpected argument)
    else .error (.unknownCommand argument)
  | .extract | .hiveAst =>
    if p.hasPath then .error (.unexpected argument)
    else do
      let p ← p.settle
      return { p with pending := .path argument, hasPath := true }

def argument (p : Progress) (argument : String) : Except UsageFault Progress :=
  match argument.toList with
  | ['-', '-'] => .ok { p with trailing := true }
  | '-' :: '-' :: body => p.long body
  | '-' :: c :: rest => p.short (c :: rest)
  | _ =>
    match p.pending with
    | .waiting switch => .ok { p with pending := .value switch argument }
    | _ => p.operand argument

/-- The arguments of a level up to the name of a command, and what follows. -/
def run (p : Progress) : List String → Except UsageFault (Progress × Option (String × List String))
  | [] => .ok (p, none)
  | a :: rest =>
    let isCommand := p.level = .top && ((Level.ofName? a).isSome || a = "help")
    if !p.trailing && !p.isWaiting && isCommand then .ok (p, some (a, rest))
    else
      match if p.trailing then p.operand a else p.argument a with
      | .error f => .error f
      | .ok p => p.run rest

end Progress

/-! ### Command lines -/

inductive Job where
  | extract (dialect : Option Sql.Dialect)
  | hiveAst (maxDepth : Option Nat)
  deriving DecidableEq

structure Request where
  job : Job
  path : String
  verbose : Bool
  config : Option String
  emitCteNames : Bool
  format : Format
  pretty : Bool
  deriving DecidableEq

/-- Whether `help` is followed by nothing but names of commands. -/
def helpFor : Level → List String → UsageFault
  | _, [] => .helpWanted
  | .top, name :: rest =>
    match Level.ofName? name with
    | some level => helpFor level rest
    | none => if name = "help" && rest.isEmpty then .helpWanted else .unknownCommand name
  | _, name :: _ => .unknownCommand name

/-- The request that a command's own options and those in front of it make.  The
inner one of two settings files counts. -/
def requestOf (level : Level) (outer inner : Given) : Except UsageFault Request :=
  match inner.path with
  | none => .error .missingPath
  | some path =>
    let job := match level with
      | .hiveAst => Job.hiveAst inner.maxDepth
      | _ => .extract inner.dialect
    .ok ⟨job, path, outer.verbose || inner.verbose, inner.config <|> outer.config,
      inner.emitCteNames, inner.format.getD .json, inner.pretty⟩

/-- The request of a command line.  The command and its options are looked at
before the last option in front of it. -/
def request (arguments : List String) : Except UsageFault Request := do
  let (outer, command) ← (Progress.start .top).run arguments
  match command with
  | none =>
    let outer ← outer.settle
    if outer.given.verbose || outer.given.config.isSome then throw .missingCommand
    else throw .nothingGiven
  | some (name, rest) =>
    match Level.ofName? name with
    | none => throw (helpFor .top rest)
    | some level =>
      let (inner, _) ← (Progress.start level).run rest
      let inner ← inner.settle
      if inner.given.path.isNone then throw .missingPath
      let outer ← outer.settle
      requestOf level outer.given inner.given

end Command
end Lineage
