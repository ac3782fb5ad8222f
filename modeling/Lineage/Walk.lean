import Lineage.Tree
import Lineage.Record
import Lineage.Scope

/-
The walk that classifies table names into targets and sources.

It runs depth first and left to right over a work list, so the depth of a tree
costs no stack.  Each pending step knows whether a table met there is read or
written and which scope its enclosing query block opened.

The main body of a query block sees every definition of the block, wherever it
stands among the children.  The body of a definition sees the definitions
before it, and itself only in a `RECURSIVE` list; any other use of those names
reads a real table.

A visit says what it met as events, and the record of a walk keeps the first
occurrence of each name among them.
-/

namespace Lineage

inductive Access where
  | read
  | write
  deriving DecidableEq

structure ExtractOptions where
  /-- Record a reference to a definition under the name of the definition. -/
  emitCteNames : Bool := false
  deriving DecidableEq

/-- A fragment that lacks the structure its kind promises.  The walk notes it
and goes on. -/
inductive Malformed where
  | missingChild (parent expected : Kind)
  | emptyName (kind : Kind)
  deriving DecidableEq

namespace Malformed

def message : Malformed → String
  | missingChild parent expected => parent.name ++ " node has no " ++ expected.name ++ " child"
  | emptyName kind => kind.name ++ " node produced an empty name"

end Malformed

inductive LogLevel where
  | debug
  | trace
  deriving DecidableEq

namespace LogLevel

def name : LogLevel → String
  | debug => "DEBUG"
  | trace => "TRACE"

end LogLevel

structure LogLine where
  level : LogLevel
  origin : String
  message : String
  deriving DecidableEq

inductive Event where
  | target (name : QualifiedName)
  | source (name : QualifiedName)
  /-- A reference to a definition, recorded under the definition's name. -/
  | emitted (name : QualifiedName)
  /-- A reference to a definition, not recorded. -/
  | suppressed (name : QualifiedName)
  /-- A reference that the grammar resolved already, recorded under its text. -/
  | resolved (name : QualifiedName)
  /-- A destination that is no table, such as a directory. -/
  | noTable
  | malformed (fragment : Malformed)
  deriving DecidableEq

namespace Event

def collect (c : Collector) : Event → Collector
  | target n => (c.addTarget n).2
  | source n | emitted n | resolved n => (c.addSource n).2
  | suppressed _ | noTable | malformed _ => c

def logLine? (e : Event) : Option LogLine :=
  let line (level : LogLevel) (message : String) := some ⟨level, "tl_core::engine", message⟩
  match e with
  | target n => line .trace ("target " ++ n.text)
  | source n => line .trace ("source " ++ n.text)
  | emitted n => line .trace ("source " ++ n.text ++ " (cte)")
  | suppressed n => line .trace ("reference to cte " ++ n.text ++ " suppressed")
  | resolved _ => none
  | noTable => line .trace "destination without a table, nothing to record"
  | malformed m => line .debug ("skipping malformed fragment: " ++ m.message)

end Event

namespace Record

def ofEvents (events : List Event) : Record := (events.foldl Event.collect .empty).record

end Record

namespace Tree

variable {κ : Type}

def nonEmptyText? (t : Tree κ) : Option String := t.text.filter (· ≠ "")

/-- The name of an aliased node: its own text, or the text of the last childless
child that has one. -/
def alias? (t : Tree κ) : Option String :=
  t.nonEmptyText? <|> t.children.reverse.findSome? fun c =>
    if c.isLeaf then c.nonEmptyText? else none

def isRecursive (t : Tree κ) : Bool :=
  t.text.any fun text => foldCase text = foldCase recursiveMarker

variable [Vocabulary κ]

/-- Whether a child of a `cteDef` node is one definition of a list. -/
def isDefinition (t : Tree κ) : Bool := t.kind = .subqueryAlias || t.kind = .cteDef

/-- Whether an alias stands around a plain table and not around a subquery. -/
def aliasesTable (t : Tree κ) : Bool :=
  match t.children.filter (!·.isLeaf) with
  | [inner] => inner.kind = .tableRef || inner.kind = .table
  | _ => false

def isWritten (t : Tree κ) : Bool :=
  match t.kind with
  | .destination | .table | .tableRef | .tableName => true
  | .subqueryAlias => t.aliasesTable
  | _ => false

def nameUnder (t : Tree κ) (parent : Kind) : Except Malformed QualifiedName :=
  match t.childOfKind? .tableName with
  | none => throw (.missingChild parent .tableName)
  | some child =>
    match child.qualifiedName? with
    | none => throw (.emptyName parent)
    | some name => pure name

end Tree

structure Step (κ : Type) where
  node : Tree κ
  access : Access
  scope : ScopeId

/-- A walk under way: the scopes so far, the events so far with the latest
first, and the steps to come with the next one first. -/
structure Walk (κ : Type) where
  scopes : Scopes (Tree κ)
  events : List Event
  pending : List (Step κ)

/-- The children of one block while they are scheduled: the steps so far with
the latest first, and the scope that a further definition's body starts from. -/
structure Schedule (κ : Type) where
  scopes : Scopes (Tree κ)
  events : List Event
  steps : List (Step κ)
  visible : ScopeId

namespace Schedule

variable {κ : Type}

def read (s : Schedule κ) (nodes : List (Tree κ)) (scope : ScopeId) : Schedule κ :=
  { s with steps := nodes.foldl (fun steps n => ⟨n, .read, scope⟩ :: steps) s.steps }

variable [Vocabulary κ]

/-- Bind one definition in `scope`, and schedule its body in the scopes before
it.  A further scope at the end of that chain holds the definition for the ones
after it; the body sees that scope too in a recursive list.  A definition
without a name binds nothing. -/
def define (scope : ScopeId) (recursive : Bool) :
    Schedule κ → Tree κ → Schedule κ
  | ⟨scopes, events, steps, visible⟩, definition =>
    match definition.alias? with
    | none =>
      read ⟨scopes, .malformed (.emptyName definition.kind) :: events, steps, visible⟩
        definition.children visible
    | some name =>
      let (after, scopes) := (scopes.define name definition scope).openIn visible
      let scopes := scopes.define name definition after
      read ⟨scopes, events, steps, after⟩ definition.children
        (if recursive then after else visible)

/-- Bind the definitions that a `cteDef` node carries.  It lists them as
children, or else is one definition itself. -/
def defineAll (scope : ScopeId) (s : Schedule κ) (node : Tree κ) : Schedule κ :=
  if node.children.any (·.isDefinition) then
    node.children.foldl (fun s child =>
      if child.isDefinition then s.define scope node.isRecursive child
      else s.read [child] s.visible) s
  else
    s.define scope false node

def addBlockChild (block : ScopeId) (s : Schedule κ) (child : Tree κ) : Schedule κ :=
  if child.kind = .cteDef then s.defineAll block child else s.read [child] block

end Schedule

namespace Walk

variable {κ : Type}

def start (root : Tree κ) : Walk κ :=
  let (scope, scopes) := Scopes.initial.openIn Scopes.root
  { scopes, events := [], pending := [⟨root, .read, scope⟩] }

def note (w : Walk κ) (e : Event) : Walk κ := { w with events := e :: w.events }

def push (w : Walk κ) (nodes : List (Tree κ)) (access : Access) (scope : ScopeId) : Walk κ :=
  { w with pending := nodes.map (⟨·, access, scope⟩) ++ w.pending }

def resume (pending : List (Step κ)) : Schedule κ → Walk κ
  | ⟨scopes, events, steps, _⟩ => ⟨scopes, events, steps.reverseAux pending⟩

/-- Note a table by the position it was met in.  A read name that resolves
stands for a definition. -/
def recordName (o : ExtractOptions) (w : Walk κ) (name : QualifiedName) (access : Access)
    (scope : ScopeId) : Walk κ :=
  match access with
  | .write => w.note (.target name)
  | .read =>
    if w.scopes.defines name.text scope then
      w.note (if o.emitCteNames then .emitted name else .suppressed name)
    else w.note (.source name)

variable [Vocabulary κ]

def recordUnder (o : ExtractOptions) (w : Walk κ) (s : Step κ) (parent : Kind) : Walk κ :=
  match s.node.nameUnder parent with
  | .error m => w.note (.malformed m)
  | .ok name => w.recordName o name s.access s.scope

/-- A query block opens a scope that holds all of its definitions before any
child is visited. -/
def visitBlock : Walk κ → Step κ → Walk κ
  | ⟨scopes, events, pending⟩, s =>
    let (block, scopes) := scopes.openIn s.scope
    resume pending
      (s.node.children.foldl (Schedule.addBlockChild block) ⟨scopes, events, [], s.scope⟩)

def visitInsert (w : Walk κ) (s : Step κ) : Walk κ :=
  let steps := s.node.children.map fun c =>
    ⟨c, if c.isWritten then .write else .read, s.scope⟩
  let w := { w with pending := steps ++ w.pending }
  if s.node.children.any (·.isWritten) then w
  else w.note (.malformed (.missingChild .insert .destination))

/-- A destination names its target under its first table. -/
def visitDestination (w : Walk κ) (s : Step κ) : Walk κ :=
  match s.node.childOfKind? .table with
  | none => w.note .noTable
  | some table =>
    match table.nameUnder .table with
    | .error m => w.note (.malformed m)
    | .ok name => w.note (.target name)

/-- A bare table name counts where a table is written. -/
def visitTableName (o : ExtractOptions) (w : Walk κ) (s : Step κ) : Walk κ :=
  match s.access with
  | .read => w
  | .write =>
    match s.node.qualifiedName? with
    | none => w.note (.malformed (.emptyName .tableName))
    | some name => w.recordName o name s.access s.scope

def visitTableRef (o : ExtractOptions) (w : Walk κ) (s : Step κ) : Walk κ :=
  (w.recordUnder o s .tableRef).push
    (s.node.children.filter (·.kind ≠ .tableName)) .read s.scope

/-- Definitions outside a query block stay visible to the siblings after them;
their bodies start from the scope around. -/
def visitDefinitions : Walk κ → Step κ → Walk κ
  | ⟨scopes, events, pending⟩, s =>
    let around := (scopes.parent? s.scope).getD s.scope
    resume pending (Schedule.defineAll s.scope ⟨scopes, events, [], around⟩ s.node)

def visitResolved (o : ExtractOptions) (w : Walk κ) (s : Step κ) : Walk κ :=
  let name? := if o.emitCteNames then s.node.text.bind QualifiedName.ofString? else none
  let w := match name? with
    | none => w
    | some name => w.note (.resolved name)
  w.push s.node.children s.access s.scope

def visit (o : ExtractOptions) (w : Walk κ) (s : Step κ) : Walk κ :=
  match s.node.kind with
  | .root | .other | .subqueryAlias => w.push s.node.children s.access s.scope
  | .join | .union => w.push s.node.children .read s.scope
  | .select | .query => w.visitBlock s
  | .insert => w.visitInsert s
  | .destination => w.visitDestination s
  | .table => w.recordUnder o s .table
  | .tableName => w.visitTableName o s
  | .tableRef => w.visitTableRef o s
  | .cteDef => w.visitDefinitions s
  | .cteRef => w.visitResolved o s

end Walk

/-! ## The walk ends

A visit schedules parts of the visited node and nothing else, each part once,
so the nodes that are pending become fewer. -/

namespace Step

variable {κ : Type}

def total (steps : List (Step κ)) : Nat := Tree.sizeList (steps.map (·.node))

theorem total_nil : total ([] : List (Step κ)) = 0 := rfl

theorem total_cons (s : Step κ) (steps : List (Step κ)) :
    total (s :: steps) = s.node.size + total steps := rfl

theorem total_append (a b : List (Step κ)) : total (a ++ b) = total a + total b := by
  simp [total, Tree.sizeList_append]

theorem total_reverse (a : List (Step κ)) : total a.reverse = total a := by
  simp [total, Tree.sizeList_reverse]

theorem total_reverseAux (a b : List (Step κ)) :
    total (a.reverseAux b) = total a + total b := by
  rw [List.reverseAux_eq, total_append, total_reverse]

end Step

namespace Schedule

variable {κ : Type}

theorem total_read (s : Schedule κ) (nodes : List (Tree κ)) (scope : ScopeId) :
    Step.total (s.read nodes scope).steps = Tree.sizeList nodes + Step.total s.steps := by
  simp only [read]
  generalize s.steps = steps
  induction nodes generalizing steps with
  | nil => simp [Tree.sizeList_nil]
  | cons n nodes ih => simp only [List.foldl_cons, ih, Step.total_cons, Tree.sizeList_cons]; omega

variable [Vocabulary κ]

theorem total_define_lt (scope : ScopeId) (recursive : Bool) (s : Schedule κ) (d : Tree κ) :
    Step.total (s.define scope recursive d).steps < d.size + Step.total s.steps := by
  rw [Tree.size_eq]
  cases h : d.alias? <;> simp only [define, h, total_read] <;> omega

omit [Vocabulary κ] in
theorem total_foldl_le {f : Schedule κ → Tree κ → Schedule κ} (nodes : List (Tree κ))
    (s : Schedule κ)
    (h : ∀ s t, Step.total (f s t).steps ≤ t.size + Step.total s.steps) :
    Step.total (nodes.foldl f s).steps ≤ Tree.sizeList nodes + Step.total s.steps := by
  induction nodes generalizing s with
  | nil => simp [Tree.sizeList_nil]
  | cons n nodes ih =>
    have := h s n
    have := ih (f s n)
    simp only [List.foldl_cons, Tree.sizeList_cons]
    omega

theorem total_defineAll_lt (scope : ScopeId) (s : Schedule κ) (node : Tree κ) :
    Step.total (s.defineAll scope node).steps < node.size + Step.total s.steps := by
  unfold defineAll
  split
  · have := total_foldl_le (f := fun s child =>
        if child.isDefinition then s.define scope node.isRecursive child
        else s.read [child] s.visible) node.children s (fun s t => by
      split
      · exact Nat.le_of_lt (total_define_lt ..)
      · rw [total_read]; simp [Tree.sizeList_cons, Tree.sizeList_nil])
    rw [Tree.size_eq]
    omega
  · exact total_define_lt ..

theorem total_addBlockChild_le (block : ScopeId) (s : Schedule κ) (child : Tree κ) :
    Step.total (s.addBlockChild block child).steps ≤ child.size + Step.total s.steps := by
  unfold addBlockChild
  split
  · exact Nat.le_of_lt (total_defineAll_lt ..)
  · rw [total_read]; simp [Tree.sizeList_cons, Tree.sizeList_nil]

end Schedule

namespace Walk

variable {κ : Type}

theorem pending_note (w : Walk κ) (e : Event) : (w.note e).pending = w.pending := rfl

theorem total_push (w : Walk κ) (nodes : List (Tree κ)) (access : Access) (scope : ScopeId) :
    Step.total (w.push nodes access scope).pending =
      Tree.sizeList nodes + Step.total w.pending := by
  simp [push, Step.total, Tree.sizeList_append, Function.comp_def]

theorem total_resume (pending : List (Step κ)) (s : Schedule κ) :
    Step.total (resume pending s).pending = Step.total s.steps + Step.total pending := by
  exact Step.total_reverseAux ..

theorem pending_recordName (o : ExtractOptions) (w : Walk κ) (name : QualifiedName)
    (access : Access) (scope : ScopeId) :
    (w.recordName o name access scope).pending = w.pending := by
  unfold recordName; split <;> (try split) <;> rfl

variable [Vocabulary κ]

theorem pending_recordUnder (o : ExtractOptions) (w : Walk κ) (s : Step κ) (parent : Kind) :
    (w.recordUnder o s parent).pending = w.pending := by
  unfold recordUnder; split
  · rfl
  · exact pending_recordName ..

/-- A visit leaves fewer nodes pending than the visited node has, apart from
those that were pending before. -/
theorem total_visit_lt (o : ExtractOptions) (w : Walk κ) (s : Step κ) :
    Step.total (w.visit o s).pending < s.node.size + Step.total w.pending := by
  have hsize := Tree.size_eq s.node
  have hpos := Tree.size_pos s.node
  have hpush (w' : Walk κ) (access : Access) (h : w'.pending = w.pending) :
      Step.total (w'.push s.node.children access s.scope).pending <
        s.node.size + Step.total w.pending := by
    rw [total_push, h]; omega
  unfold visit
  split
  any_goals exact hpush _ _ rfl
  · obtain ⟨scopes, events, pending⟩ := w
    have := Schedule.total_foldl_le s.node.children
      ⟨(scopes.openIn s.scope).2, events, [], s.scope⟩
      (Schedule.total_addBlockChild_le (scopes.openIn s.scope).1)
    simp only [visitBlock, total_resume, Step.total_nil] at this ⊢
    omega
  · obtain ⟨scopes, events, pending⟩ := w
    have := Schedule.total_foldl_le s.node.children
      ⟨(scopes.openIn s.scope).2, events, [], s.scope⟩
      (Schedule.total_addBlockChild_le (scopes.openIn s.scope).1)
    simp only [visitBlock, total_resume, Step.total_nil] at this ⊢
    omega
  · have : Step.total (w.visitInsert s).pending =
        Tree.sizeList s.node.children + Step.total w.pending := by
      unfold visitInsert
      simp only []
      split <;> simp [Step.total, Tree.sizeList_append, Function.comp_def, note]
    omega
  · have : (w.visitDestination s).pending = w.pending := by
      unfold visitDestination; split <;> (try split) <;> rfl
    rw [this]; omega
  · rw [pending_recordUnder]; omega
  · have : (w.visitTableName o s).pending = w.pending := by
      unfold visitTableName
      split
      · rfl
      · split
        · rfl
        · exact pending_recordName ..
    rw [this]; omega
  · have hfilter : Tree.sizeList (s.node.children.filter (·.kind ≠ .tableName)) ≤
        Tree.sizeList s.node.children := Tree.sizeList_filter_le _ _
    unfold visitTableRef
    rw [total_push, pending_recordUnder]
    omega
  · obtain ⟨scopes, events, pending⟩ := w
    have := Schedule.total_defineAll_lt s.scope
      ⟨scopes, events, [], (scopes.parent? s.scope).getD s.scope⟩ s.node
    simp only [visitDefinitions, total_resume, Step.total_nil] at this ⊢
    omega
  · unfold visitResolved
    exact hpush _ _ (by split <;> rfl)

def run (o : ExtractOptions) : Walk κ → Walk κ
  | ⟨scopes, events, []⟩ => ⟨scopes, events, []⟩
  | ⟨scopes, events, s :: pending⟩ => run o (visit o ⟨scopes, events, pending⟩ s)
termination_by w => Step.total w.pending
decreasing_by exact total_visit_lt o ⟨scopes, events, pending⟩ s

end Walk

variable {κ : Type} [Vocabulary κ]

def Tree.events (o : ExtractOptions) (root : Tree κ) : List Event :=
  ((Walk.start root).run o).events.reverse

def Tree.lineage (o : ExtractOptions) (root : Tree κ) : Record :=
  .ofEvents (root.events o)

end Lineage
