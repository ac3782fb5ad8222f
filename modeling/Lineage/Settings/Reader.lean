import Lineage.Decimal
import Lineage.Fault
import Lineage.Files
import Lineage.Json
import Lineage.Sql.Dialect
import Lineage.Text.Blank
import Lineage.Walk
import Lineage.Yaml.Document
import Lineage.Yaml.Value

/-
What a user can set once for all runs, and its YAML text.

A field may be left out, none may stand twice, and there are no others.  What is
wrong with a value is reported under the name of its field.
-/

namespace Lineage

structure Settings where
  dialect : Sql.Dialect
  /-- A reference to a definition counts as a source under its own name. -/
  emitCteNames : Bool
  /-- How many levels of a Hive tree text may be open at once. -/
  maxDepth : Nat
  deriving DecidableEq

namespace Settings

def default : Settings := ⟨.hive, false, 10000⟩

def extractOptions (s : Settings) : ExtractOptions := { emitCteNames := s.emitCteNames }

def fields : List String := ["dialect", "emit_cte_as_synthetic_name", "max_ast_depth"]

def toJson (s : Settings) : Json :=
  .obj [("dialect", .str s.dialect.name), ("emit_cte_as_synthetic_name", .bool s.emitCteNames),
    ("max_ast_depth", .nat s.maxDepth)]

inductive Mismatch where
  | unknownField (name : String)
  | duplicateField (name : String)
  | unknownVariant (name : String)
  | unknownTag (name : String)
  | invalidType (found expected : String)
  | invalidValue (found expected : String)
  deriving DecidableEq

namespace Mismatch

def message : Mismatch → String
  | unknownField name => "unknown field `" ++ name ++ "`, " ++ oneOf fields
  | duplicateField name => "duplicate field `" ++ name ++ "`"
  | unknownVariant name | unknownTag name =>
    Lineage.unknownVariant name (Sql.Dialect.all.map (·.name))
  | invalidType found expected => "invalid type: " ++ found ++ ", expected " ++ expected
  | invalidValue found expected => "invalid value: " ++ found ++ ", expected " ++ expected

end Mismatch

inductive Malformed where
  | yaml (fault : Yaml.Fault)
  | manyDocuments
  /-- A mismatch, the field it is in, and its place. -/
  | mismatch (what : Mismatch) (field : Option String) (place : Yaml.Mark)
  deriving DecidableEq

namespace Malformed

def message : Malformed → String
  | yaml fault => fault.message
  | manyDocuments => "deserializing from YAML containing more than one document is not supported"
  | mismatch what field place =>
    (match field with
      | some name => name ++ ": "
      | none => "") ++ what.message ++ place.suffix

end Malformed

/-! ### Values -/

def wrongType (p : Yaml.Part) (expected : String) : Mismatch :=
  match p with
  | .scalar tag text style =>
    match Yaml.scalarWords tag text style with
    | .ok words => .invalidType words expected
    | .error tagged => .invalidValue (Yaml.string text) tagged
  | .mapping _ => .invalidType "map" expected
  | _ => .invalidType "sequence" expected

/-- Whether a scalar may stand for a value of a standard type: it is plain, or a
literal block with the tag of that type. -/
def mayBe (type : String) (tag : Option String) (style : Yaml.Style) : Bool :=
  style = .plain || (style = .literal && tag = some (Yaml.standardTag type))

def readBool (p : Yaml.Part) : Except Mismatch Bool :=
  let wrong := wrongType p "a boolean"
  match p with
  | .scalar tag text style =>
    match if mayBe "bool" tag style then Yaml.bool? text else none with
    | some b => .ok b
    | none => .error wrong
  | _ => .error wrong

def readNat (p : Yaml.Part) : Except Mismatch Nat :=
  let wrong := wrongType p "usize"
  match p with
  | .scalar tag text style =>
    match if mayBe "int" tag style then Yaml.nat? text else none with
    | some n => if n < Decimal.wordCount then .ok n else .error wrong
    | none => .error wrong
  | _ => .error wrong

def ownTag? (tag : Option String) : Option String :=
  tag.bind fun tag => if tag.startsWith "!" then some (String.ofList (tag.toList.drop 1)) else none

/-- A dialect by its name.  The name may be a tag, whose value is empty then. -/
def readDialect (p : Yaml.Part) : Except Mismatch Sql.Dialect :=
  let tag := match p with
    | .scalar tag _ _ | .mapping tag | .sequence tag => ownTag? tag
    | _ => none
  match tag with
  | some name =>
    match Sql.Dialect.ofName? name, p with
    | none, _ => .error (.unknownTag name)
    | some d, .scalar _ text style =>
      if style = .plain && (text.isEmpty || Yaml.isNull text) then .ok d
      else .error (.invalidValue (Yaml.string text) "null")
    | some _, p => .error (wrongType p "unit")
  | none =>
    match p with
    | .scalar _ text _ =>
      match Sql.Dialect.ofName? text with
      | some d => .ok d
      | none => .error (.unknownVariant text)
    | p => .error (wrongType p "a YAML tag starting with '!'")

/-! ### Fields -/

structure Given where
  dialect : Option Sql.Dialect
  emitCteNames : Option Bool
  maxDepth : Option Nat

def Given.settings (g : Given) : Settings :=
  ⟨g.dialect.getD default.dialect, g.emitCteNames.getD default.emitCteNames,
    g.maxDepth.getD default.maxDepth⟩

def fieldName (p : Yaml.Part) : Except Mismatch String :=
  match p with
  | .scalar _ text _ => if fields.contains text then .ok text else .error (.unknownField text)
  | p => .error (wrongType p "field identifier")

/-- Read the fields from a part on; `opened` is where their mapping starts. -/
def givenFrom (d : Yaml.Document) (opened : Yaml.Mark) :
    Nat → List Yaml.LocatedPart → Given → Except Malformed Given
  | 0, _, g => .ok g
  | limit + 1, parts, g => do
    let stopped : Except Malformed Given :=
      match d.fault with
      | some fault => .error (.yaml fault)
      | none => .ok g
    match parts with
    | [] => stopped
    | key :: rest =>
      if key.part = .collectionEnd then return g
      let resolvedKey := d.resolve key
      let name ← match fieldName resolvedKey.part with
        | .ok name => pure name
        | .error what => throw (.mismatch what none resolvedKey.mark)
      let given := match name with
        | "dialect" => g.dialect.isSome
        | "max_ast_depth" => g.maxDepth.isSome
        | _ => g.emitCteNames.isSome
      if given then throw (.mismatch (.duplicateField name) none opened)
      match rest with
      | [] => stopped
      | value :: rest =>
        let value := d.resolve value
        -- A name that stands for another's is not shown.
        let field := if key.part = resolvedKey.part then name else "?"
        let located {α : Type} (result : Except Mismatch α) : Except Malformed α :=
          result.mapError fun
            | .unknownTag name => .mismatch (.unknownTag name) none opened
            | what => .mismatch what (some field) value.mark
        let g ← match name with
          | "dialect" => do pure { g with dialect := some (← located (readDialect value.part)) }
          | "max_ast_depth" => do pure { g with maxDepth := some (← located (readNat value.part)) }
          | _ => do pure { g with emitCteNames := some (← located (readBool value.part)) }
        givenFrom d opened limit rest g

/-- The settings of a document.  An empty one sets nothing. -/
def ofDocument (d : Yaml.Document) : Except Malformed Settings := do
  let stopped (g : Settings) : Except Malformed Settings :=
    match d.fault with
    | some fault => .error (.yaml fault)
    | none => if d.more then .error .manyDocuments else .ok g
  match d.parts.toList with
  | [] => stopped default
  | root :: rest =>
    match root.part with
    | .mapping _ =>
      let given ← givenFrom d root.mark (rest.length + 1) rest ⟨none, none, none⟩
      stopped given.settings
    | .scalar _ "" .plain => stopped default
    | p => throw (.mismatch (wrongType p "struct Config") none root.mark)

inductive Fault where
  | missing (path : String)
  | malformed (what : Malformed)
  | noLevels
  | unreadable (path : String) (why : ReadFault)
  deriving DecidableEq

namespace Fault

def message : Fault → String
  | missing path => coded "E001" ("Config file not found: " ++ path)
  | malformed what => coded "E002" ("Failed to parse config: " ++ what.message)
  | noLevels => coded "E003" "Invalid config: max_ast_depth must be greater than zero"
  | unreadable path why => coded "E004" ("Failed to read '" ++ path ++ "': " ++ why.message)

/-- What lies behind a fault, if its message quotes it. -/
def cause? : Fault → Option String
  | malformed what => some what.message
  | unreadable _ why => some why.message
  | missing _ | noLevels => none

end Fault

def validate (s : Settings) : Except Fault Settings :=
  if s.maxDepth = 0 then .error .noLevels else .ok s

/-- The settings that a text holds.  A blank text sets nothing. -/
def ofYaml (text : String) : Except Fault Settings :=
  if (Text.trim text.toList).isEmpty then .ok default
  else
    match ofDocument (Yaml.Document.ofText text) with
    | .error what => .error (.malformed what)
    | .ok s => s.validate

/-! ### Files -/

section
variable {m : Type → Type} [Monad m] (files : Files m)

def load (path : String) : m (Except Fault Settings) := do
  if !(← files.pathExists path) then return .error (.missing path)
  match ← files.read path with
  | .error why => return .error (.unreadable path why)
  | .ok text => return ofYaml text

def fileNames : List String := ["lineage.yml", "lineage.yaml"]

def loadFirst (directory : String) : List String → m (Except Fault Settings)
  | [] => return .error (.missing (Files.join directory "lineage.yml"))
  | name :: names => do
    let path := Files.join directory name
    if ← files.pathExists path then load files path else loadFirst directory names

def loadFrom (directory : String) : m (Except Fault Settings) :=
  loadFirst files directory fileNames

end

end Settings
end Lineage
