import Lineage.Proofs.Plan.Placed
import Lineage.Proofs.Plan.References

/-
The sources of a plan are the free references of its statement.

Lowering and reading go through a statement side by side.  What a plan mentions
as read is compared with the references at each construct, for any set of
visible definitions whose names have no dots.
-/

namespace Lineage

namespace Tree

variable {κ : Type} [Vocabulary κ]

/-- The names that trees mention as read where they stand in a read position. -/
def readNames (visible : Names) (ts : List (Tree κ)) : List QualifiedName :=
  Mention.names .read (childMentions {} visible (fun _ => some .read) ts)

theorem readNames_cons (visible : Names) (t : Tree κ) (ts : List (Tree κ)) :
    readNames visible (t :: ts) = readNames visible [t] ++ readNames visible ts := by
  simp only [readNames, childMentions, Mention.names_append, Option.elim_some, List.append_nil]

theorem readNames_append (visible : Names) (a b : List (Tree κ)) :
    readNames visible (a ++ b) = readNames visible a ++ readNames visible b := by
  simp only [readNames, childMentions_eq_flatMap, List.flatMap_append, Mention.names_append]

theorem readNames_single (visible : Names) (t : Tree κ) :
    readNames visible [t] = Mention.names .read (t.mentions {} visible .read) := by
  simp only [readNames, childMentions, Option.elim_some, List.append_nil]

/-- A node that only groups its children reads what they read. -/
theorem readNames_group {k : κ} (hk : Vocabulary.kind k ∈ [.other, .subqueryAlias, .join, .union])
    (visible : Names) (ts : List (Tree κ)) :
    readNames visible [.branch k ts] = readNames visible ts := by
  have hgroup : (Tree.branch k ts).kind ∈ [.root, .other, .subqueryAlias, .join, .union] :=
    List.mem_cons_of_mem _ hk
  rw [readNames_single, mentions_group hgroup]
  rfl

/-- What a destination names is written. -/
theorem names_read_destination {t : Tree κ} (hk : t.kind = .destination) (visible : Names)
    (access : Access) : Mention.names .read (t.mentions {} visible access) = [] := by
  rw [mentions_destination hk]
  cases (t.childOfKind? .table).bind heldName? <;> rfl

theorem names_read_written {ts : List (Tree κ)} (h : ∀ t ∈ ts, t.kind = .destination)
    (visible : Names) (access : Tree κ → Access) :
    Mention.names .read (ts.flatMap fun t => t.mentions {} visible (access t)) = [] := by
  induction ts with
  | nil => rfl
  | cons t ts ih =>
    have ht := names_read_destination (h t List.mem_cons_self) visible
    rw [List.flatMap_cons, Mention.names_append, ht, List.nil_append]
    exact ih (fun t ht => h t (List.mem_cons_of_mem _ ht))

/-- A write reads what its unwritten children read. -/
theorem readNames_insert {k : κ} (hk : Vocabulary.kind k = .insert) (visible : Names)
    {written reads : List (Tree κ)} (hw : ∀ t ∈ written, t.kind = .destination)
    (hr : ∀ t ∈ reads, ¬ t.isWritten = true) :
    readNames visible [.branch k (written ++ reads)] = readNames visible reads := by
  have hkind : (Tree.branch k (written ++ reads)).kind = .insert := hk
  have hreads : (reads.flatMap fun c =>
      c.mentions {} visible (if c.isWritten then .write else .read)) =
      reads.flatMap fun c => c.mentions {} visible .read :=
    List.flatMap_congr (fun c hc => by rw [if_neg (hr c hc)])
  have hall : (Tree.branch k (written ++ reads)).mentions {} visible .read =
      (written ++ reads).flatMap fun c =>
        c.mentions {} visible (if c.isWritten then .write else .read) :=
    mentions_insert hkind {} visible .read
  rw [readNames_single, hall, List.flatMap_append, Mention.names_append, names_read_written hw,
    hreads, List.nil_append, readNames, childMentions_eq_flatMap]
  rfl

theorem blockMentions_of_plain (o : ExtractOptions) (main visible : Names) {ts : List (Tree κ)}
    (h : ∀ t ∈ ts, t.kind ≠ .cteDef) :
    blockMentions o main visible ts = childMentions o main (fun _ => some .read) ts := by
  induction ts with
  | nil => rfl
  | cons t ts ih =>
    have ht := h t List.mem_cons_self
    rw [blockMentions, if_neg ht, ih (fun t ht => h t (List.mem_cons_of_mem _ ht))]
    rfl

theorem blockNames_of_plain {ts : List (Tree κ)} (h : ∀ t ∈ ts, t.kind ≠ .cteDef) :
    blockNames ts = [] := by
  have hnone : ts.filter (·.kind = .cteDef) = [] :=
    List.filter_eq_nil_iff.2 (fun t ht hd => h t ht (of_decide_eq_true hd))
  rw [blockNames, hnone, List.flatMap_nil]

theorem readNames_block {k : κ} (hk : (Vocabulary.kind k).opensScope = true) (visible : Names)
    (ts : List (Tree κ)) :
    readNames visible [.branch k ts] =
      Mention.names .read
        (blockMentions {} (visible.bindAll (blockNames ts)) visible ts) := by
  have hb : (Tree.branch k ts).kind.opensScope = true := hk
  rw [readNames_single, mentions_block hb]
  rfl

/-- A block without definitions reads what its children read. -/
theorem readNames_block_of_plain {k : κ} (hk : (Vocabulary.kind k).opensScope = true)
    (visible : Names) {ts : List (Tree κ)} (h : ∀ t ∈ ts, t.kind ≠ .cteDef) :
    readNames visible [.branch k ts] = readNames visible ts := by
  rw [readNames_block hk, blockNames_of_plain h, blockMentions_of_plain _ _ _ h]
  rfl

theorem not_cteDef_of_allPlaced {ts : List (Tree κ)} (h : allPlaced 0 ts = true) :
    ∀ t ∈ ts, t.kind ≠ .cteDef :=
  fun t ht => not_cteDef_of_placed (allPlaced_iff.1 h t ht)

end Tree

namespace Plan

open Sql

theorem freeNames_append (a b : List Reference) :
    freeNames (a ++ b) = freeNames a ++ freeNames b := List.filterMap_append ..

/-! ## Tables -/

theorem dottedName_objectName (name : ObjectName) :
    (objectName name).dottedName = QualifiedName.dotted (name.parts.map Ident.value) := by
  show QualifiedName.dotted ((name.parts.map fun part =>
    Tree.leaf Node.ident part.value).filterMap Tree.text) = _
  rw [List.filterMap_map, ← List.filterMap_eq_map]
  rfl

/-- A table name of the plan is recorded where the reference is free. -/
theorem names_read_objectName {name : ObjectName} {visible : Names} (hv : visible.Undotted)
    (hn : name.isProper = true) :
    Mention.names .read (Tree.mentionOf {} visible .read (objectName name).qualifiedName?) =
      (Reference.free? ⟨name, visible⟩).toList := by
  have hparts : ∀ part ∈ name.parts.map Ident.value, part ≠ "" := by
    intro part hp
    obtain ⟨i, hi, rfl⟩ := List.mem_map.1 hp
    exact of_decide_eq_true (List.all_eq_true.1 hn i hi)
  rw [Tree.qualifiedName?, dottedName_objectName, QualifiedName.dotted_of_ne hparts]
  obtain ⟨parts⟩ := name
  cases parts with
  | nil => rfl
  | cons a rest =>
    cases rest with
    | nil =>
      have ha : a.value ≠ "" := hparts a.value List.mem_cons_self
      have hname : QualifiedName.ofString? a.value = some ⟨a.value, ha⟩ := dif_neg ha
      rw [List.map_singleton, String.intercalate_singleton, hname]
      by_cases hbound : visible (foldCase a.value) = true
      · have hfree : Reference.free? ⟨⟨[a]⟩, visible⟩ = none := if_pos hbound
        rw [hfree, Tree.mentionOf, hbound]
        rfl
      · have hfree : Reference.free? ⟨⟨[a]⟩, visible⟩ = QualifiedName.ofString? a.value :=
          if_neg hbound
        rw [hfree, hname, Tree.mentionOf, Bool.eq_false_iff.2 hbound]
        rfl
    | cons b rest =>
      have hdot := QualifiedName.dot_mem_intercalate a.value b.value (rest.map Ident.value)
      simp only [Reference.free?, List.map_cons]
      cases hname : QualifiedName.ofString? (".".intercalate
          (a.value :: b.value :: rest.map Ident.value)) with
      | none => rfl
      | some n =>
        rw [← QualifiedName.ofString?_eq_some_iff.1 hname] at hdot
        simp only [Tree.mentionOf, hv.eq_false hdot]
        rfl

theorem readNames_relation {name : ObjectName} {visible : Names} (hv : visible.Undotted)
    (hn : name.isProper = true) (aka : Option Alias) :
    Tree.readNames visible [.branch .relation (objectName name :: aliasLeaf aka)] =
      (Reference.free? ⟨name, visible⟩).toList := by
  rw [← names_read_objectName hv hn, Tree.readNames_single]
  cases aka <;> exact congrArg _ (List.append_nil _)

/-! ## Definitions -/

/-- The node of one definition. -/
def cteNode (aka : Alias) (query : Query) : PlanTree :=
  .node .cte (some aka.name.value) [lowerQuery query]

theorem lowerQuery_eq_branch (query : Query) :
    ∃ c cs, lowerQuery query = .branch .query (c :: cs) := by
  obtain ⟨definitions, body, orderBy, bounds⟩ := query
  cases definitions with
  | none => exact ⟨_, _, rfl⟩
  | some definitions =>
    obtain ⟨recursive, ctes⟩ := definitions
    cases recursive with
    | true => exact ⟨_, _, rfl⟩
    | false =>
      cases ctes with
      | nil => exact ⟨_, _, rfl⟩
      | cons cte ctes =>
        obtain ⟨aka, query⟩ := cte
        exact ⟨cteNode aka query, _, rfl⟩

theorem kind_lowerQuery (query : Query) : (lowerQuery query).kind = .query := by
  obtain ⟨c, cs, h⟩ := lowerQuery_eq_branch query
  rw [h]
  rfl

theorem alias?_cteNode (aka : Alias) (query : Query) :
    (cteNode aka query).alias? = Cte.name? ⟨aka, query⟩ := by
  obtain ⟨c, cs, h⟩ := lowerQuery_eq_branch query
  have hleaf : (lowerQuery query).isLeaf = false := by rw [h]; rfl
  show ((some aka.name.value).filter _ <|> [lowerQuery query].reverse.findSome? _) = _
  by_cases hname : aka.name.value = ""
  · simp [Cte.name?, hname, hleaf]
  · simp [Cte.name?, hname]

theorem not_listing_cteNode (aka : Alias) (query : Query) :
    ¬ (cteNode aka query).children.any Tree.isDefinition = true := by
  show ¬ [lowerQuery query].any Tree.isDefinition = true
  simp [Tree.isDefinition, kind_lowerQuery]

theorem definedNames_cteNode (aka : Alias) (query : Query) :
    (cteNode aka query).definedNames = (Cte.name? ⟨aka, query⟩).toList := by
  rw [Tree.definedNames_of_single (not_listing_cteNode aka query), alias?_cteNode]

theorem cteNames_cons (cte : Cte) (ctes : List Cte) :
    cteNames (cte :: ctes) = cte.name?.toList ++ cteNames ctes := by
  rw [cteNames, List.filterMap_cons]
  cases cte.name? <;> rfl

/-- The names that a `WITH` list binds, whatever node the list is kept in. -/
theorem blockNames_lowerCtes (ctes : List Cte) :
    Tree.blockNames (lowerCtes ctes) = cteNames ctes := by
  induction ctes with
  | nil => rfl
  | cons cte ctes ih =>
    obtain ⟨aka, query⟩ := cte
    rw [cteNames_cons, ← ih, ← definedNames_cteNode]
    rfl

theorem listedNames_lowerCtes (ctes : List Cte) :
    Tree.listedNames (lowerCtes ctes) = cteNames ctes := by
  induction ctes with
  | nil => rfl
  | cons cte ctes ih =>
    obtain ⟨aka, query⟩ := cte
    have hdefinition : (cteNode aka query).isDefinition = true := rfl
    show Tree.listedNames (cteNode aka query :: lowerCtes ctes) = _
    rw [Tree.listedNames_cons_of_definition hdefinition, alias?_cteNode, cteNames_cons, ih]

/-- The node of a recursive list. -/
def recursiveNode (ctes : List Cte) : PlanTree :=
  .node .recursiveWith (some Tree.recursiveMarker) (lowerCtes ctes)

theorem listing_recursiveNode {ctes : List Cte} (h : ctes ≠ []) :
    (recursiveNode ctes).children.any Tree.isDefinition = true := by
  obtain ⟨⟨aka, query⟩, rest, rfl⟩ := List.exists_cons_of_ne_nil h
  rfl

theorem definedNames_recursiveNode {ctes : List Cte} (h : ctes ≠ []) :
    (recursiveNode ctes).definedNames = cteNames ctes := by
  rw [Tree.definedNames_of_listing (listing_recursiveNode h), ← listedNames_lowerCtes]
  rfl

theorem isRecursive_recursiveNode (ctes : List Cte) :
    (recursiveNode ctes).isRecursive = true := by
  show decide (foldCase Tree.recursiveMarker = foldCase Tree.recursiveMarker) = true
  exact decide_eq_true rfl

theorem undotted_bind? {visible : Names} (hv : visible.Undotted) {aka : Alias}
    (h : '.' ∉ aka.name.value.toList) (query : Query) :
    (visible.bind? (Cte.name? ⟨aka, query⟩)).Undotted := by
  by_cases hname : aka.name.value = ""
  · have hnone : Cte.name? ⟨aka, query⟩ = none := if_pos hname
    rw [hnone]
    exact hv
  · have hsome : Cte.name? ⟨aka, query⟩ = some aka.name.value := if_neg hname
    rw [hsome]
    exact hv.bind h

theorem undotted_bindAll {visible : Names} (hv : visible.Undotted) {ctes : List Cte}
    (h : ctesAreCore ctes = true) : (visible.bindAll (cteNames ctes)).Undotted := by
  induction ctes generalizing visible with
  | nil => exact hv
  | cons cte ctes ih =>
    obtain ⟨aka, query⟩ := cte
    simp only [ctesAreCore, Bool.and_eq_true, decide_eq_true_eq] at h
    rw [cteNames_cons, Names.bindAll_append, Names.bindAll_toList]
    exact ih (undotted_bind? hv h.1.1 query) h.2

/-! ## Constructs -/

section main

variable {main : Names} {body : SetExpr} {orderBy bounds : List Expr}

theorem plain_main (body : SetExpr) (orderBy : List Expr) :
    ∀ t ∈ lowerBody body :: subqueriesIn orderBy, t.kind ≠ .cteDef :=
  Tree.not_cteDef_of_allPlaced
    (Tree.allPlaced_cons.2 ⟨placed_lowerBody 0 body, placed_subqueriesIn 0 orderBy⟩)

theorem readNames_main (hbody : Tree.readNames main [lowerBody body] = freeNames (body.reads main))
    (horder : Tree.readNames main (subqueriesIn orderBy) = freeNames (exprReads main orderBy))
    (hbounds : queryFree bounds = true) :
    Tree.readNames main (lowerBody body :: subqueriesIn orderBy) =
      freeNames (body.reads main ++ exprReads main orderBy ++ exprReads main bounds) := by
  rw [Tree.readNames_cons, reads_of_queryFree hbounds, List.append_nil, freeNames_append, hbody,
    horder]

end main

theorem readNames_joined (visible : Names) (relation : PlanTree) (constraint : List PlanTree) :
    Tree.readNames visible [joined relation constraint] =
      Tree.readNames visible (relation :: constraint) := by
  unfold joined
  split
  · next h => rw [List.isEmpty_iff.1 h]
  · exact Tree.readNames_group (by decide) ..

/-- The aliases of a `FROM` item read nothing. -/
theorem readNames_aliasLeaf (visible : Names) (aka : Option Alias) :
    Tree.readNames visible (aliasLeaf aka) = [] := by
  cases aka <;> rfl

/-- A write of one table, and what it reads besides. -/
theorem readNames_write {node : Node} (hk : Vocabulary.kind node = .insert) (visible : Names)
    (name : ObjectName) {reads : List PlanTree} (hr : ∀ t ∈ reads, ¬ t.isWritten = true) :
    Tree.readNames visible [.branch node (insertTarget name :: reads)] =
      Tree.readNames visible reads := by
  have hw : ∀ t ∈ [insertTarget name], t.kind = .destination := by
    intro t ht
    rw [List.mem_singleton.1 ht]
    rfl
  have hchildren : insertTarget name :: reads = [insertTarget name] ++ reads := rfl
  rw [hchildren, Tree.readNames_insert hk visible hw hr]

theorem not_written_query (query : Query) : ∀ t ∈ [lowerQuery query], ¬ t.isWritten = true := by
  intro t ht
  rw [List.mem_singleton.1 ht, Tree.isWritten, kind_lowerQuery]
  exact Bool.false_ne_true

theorem not_written_other (ts : List PlanTree) :
    ∀ t ∈ [Tree.branch Node.other ts], ¬ t.isWritten = true := by
  intro t ht
  rw [List.mem_singleton.1 ht]
  exact Bool.false_ne_true

/-- What a write only reads stands below one child of it. -/
theorem readNames_insert_other {node : Node} (hk : Vocabulary.kind node = .insert)
    (visible : Names) {written : List PlanTree} (hw : ∀ t ∈ written, t.kind = .destination)
    (reads : List PlanTree) :
    Tree.readNames visible [.branch node (written ++ [.branch Node.other reads])] =
      Tree.readNames visible reads := by
  rw [Tree.readNames_insert hk visible hw (not_written_other reads)]
  exact Tree.readNames_group (by decide) ..

theorem readNames_write_other {node : Node} (hk : Vocabulary.kind node = .insert)
    (visible : Names) (name : ObjectName) (reads : List PlanTree) :
    Tree.readNames visible [.branch node [insertTarget name, .branch .other reads]] =
      Tree.readNames visible reads :=
  readNames_insert_other hk visible (fun _ ht => List.mem_singleton.1 ht ▸ rfl) reads

/-- A write whose table has no name reads that table, too. -/
theorem readNames_unnamed {node : Node} (hk : Vocabulary.kind node = .insert) (visible : Names)
    (table : PlanTree) (reads : List PlanTree) :
    Tree.readNames visible [.branch node [.branch .other (table :: reads)]] =
      Tree.readNames visible [table] ++ Tree.readNames visible reads := by
  have hw : ∀ t ∈ ([] : List PlanTree), t.kind = .destination :=
    fun t ht => absurd ht List.not_mem_nil
  rw [← Tree.readNames_cons]
  exact readNames_insert_other hk visible hw (table :: reads)

theorem destination_deleteAll (tables : List TableWithJoins) :
    ∀ t ∈ (deleteAll tables).1, t.kind = .destination := by
  induction tables with
  | nil => exact fun t ht => absurd ht List.not_mem_nil
  | cons table tables ih =>
    obtain ⟨relation, joins⟩ := table
    cases relation with
    | table name =>
      intro t ht
      rcases List.mem_cons.1 ht with rfl | ht
      · rfl
      · exact ih t ht
    | _ => exact ih

mutual

theorem readNames_subqueries {visible : Names} (hv : visible.Undotted) : (e : Expr) →
    e.isCore = true → Tree.readNames visible (subqueries e) = freeNames (e.reads visible)
  | .column _, _ | .literal _, _ => rfl
  | .call _ operands, h | .form _ operands, h => readNames_subqueriesIn hv operands h
  | .subquery query, h => by
    have hgroup : Tree.readNames visible [.branch Node.expr [lowerQuery query]] =
        Tree.readNames visible [lowerQuery query] := Tree.readNames_group (by decide) ..
    exact hgroup.trans (readNames_lowerQuery hv query h)

theorem readNames_subqueriesIn {visible : Names} (hv : visible.Undotted) : (es : List Expr) →
    exprsAreCore es = true →
    Tree.readNames visible (subqueriesIn es) = freeNames (exprReads visible es)
  | [], _ => rfl
  | e :: es, h => by
    simp only [exprsAreCore, Bool.and_eq_true] at h
    rw [subqueriesIn, exprReads, Tree.readNames_append, freeNames_append,
      readNames_subqueries hv e h.1, readNames_subqueriesIn hv es h.2]

theorem readNames_lowerQuery {visible : Names} (hv : visible.Undotted) : (q : Query) →
    q.isCore = true → Tree.readNames visible [lowerQuery q] = freeNames (q.reads visible)
  | ⟨none, body, orderBy, bounds⟩, h => by
    simp only [Query.isCore, Bool.and_eq_true] at h
    obtain ⟨⟨hbody, horder⟩, hbounds⟩ := h
    rw [lowerQuery, Query.reads, Tree.readNames_block_of_plain rfl _ (plain_main body orderBy)]
    exact readNames_main (readNames_lowerBody hv body hbody)
      (readNames_subqueriesIn hv orderBy horder) hbounds
  | ⟨some ⟨false, ctes⟩, body, orderBy, bounds⟩, h => by
    simp only [Query.isCore, Bool.and_eq_true] at h
    obtain ⟨⟨⟨⟨-, hctes⟩, hbody⟩, horder⟩, hbounds⟩ := h
    have hmain := undotted_bindAll hv hctes
    have hplain := plain_main body orderBy
    have hreads := readNames_main (readNames_lowerBody hmain body hbody)
      (readNames_subqueriesIn hmain orderBy horder) hbounds
    rw [lowerQuery, Query.reads, Tree.readNames_block rfl, Tree.blockNames_append,
      blockNames_lowerCtes, Tree.blockNames_of_plain hplain, List.append_nil,
      names_read_definitions hv _ _ ctes hctes, Tree.blockMentions_of_plain _ _ _ hplain,
      freeNames_append, ← hreads, Tree.readNames]
  | ⟨some ⟨true, ctes⟩, body, orderBy, bounds⟩, h => by
    simp only [Query.isCore, Bool.and_eq_true, Bool.not_eq_true', List.isEmpty_eq_false_iff] at h
    obtain ⟨⟨⟨⟨hne, hctes⟩, hbody⟩, horder⟩, hbounds⟩ := h
    have hmain := undotted_bindAll hv hctes
    have hplain := plain_main body orderBy
    have hreads := readNames_main (readNames_lowerBody hmain body hbody)
      (readNames_subqueriesIn hmain orderBy horder) hbounds
    have hkind : (recursiveNode ctes).kind = .cteDef := rfl
    have hquery : lowerQuery ⟨some ⟨true, ctes⟩, body, orderBy, bounds⟩ =
      .branch .query ([recursiveNode ctes] ++ (lowerBody body :: subqueriesIn orderBy)) := rfl
    have hnames : Tree.blockNames [recursiveNode ctes] = cteNames ctes := by
      rw [← definedNames_recursiveNode hne]
      exact List.append_nil _
    rw [hquery, Query.reads, Tree.readNames_block rfl, Tree.blockNames_append, hnames,
      Tree.blockNames_of_plain hplain, List.append_nil, List.singleton_append,
      Tree.blockMentions, if_pos hkind, Mention.names_append, Tree.mentions_cteDef hkind,
      if_pos (listing_recursiveNode hne), isRecursive_recursiveNode,
      definedNames_recursiveNode hne, Tree.blockMentions_of_plain _ _ _ hplain,
      freeNames_append, ← hreads, ← names_read_recursive hv ctes hctes]
    rfl

theorem names_read_definitions {visible : Names} (hv : visible.Undotted) (main : Names)
    (rest : List PlanTree) : (ctes : List Cte) → ctesAreCore ctes = true →
    Mention.names .read (Tree.blockMentions {} main visible (lowerCtes ctes ++ rest)) =
      freeNames (cteReads false visible ctes) ++
        Mention.names .read (Tree.blockMentions {} main (visible.bindAll (cteNames ctes)) rest)
  | [], _ => rfl
  | ⟨aka, query⟩ :: ctes, h => by
    simp only [ctesAreCore, Bool.and_eq_true, decide_eq_true_eq] at h
    obtain ⟨⟨hdot, hquery⟩, hctes⟩ := h
    have hkind : (cteNode aka query).kind = .cteDef := rfl
    have hrest := names_read_definitions (undotted_bind? hv hdot query) main rest ctes hctes
    show Mention.names .read (Tree.blockMentions {} main visible
      (cteNode aka query :: (lowerCtes ctes ++ rest))) = _
    rw [Tree.blockMentions, if_pos hkind, Mention.names_append, Tree.mentions_cteDef hkind,
      if_neg (not_listing_cteNode aka query), Tree.bodyMentions_eq, definedNames_cteNode,
      Names.bindAll_toList, hrest, cteReads, freeNames_append, cteNames_cons,
      Names.bindAll_append, Names.bindAll_toList, List.append_assoc]
    exact congrArg (· ++ _) (readNames_lowerQuery hv query hquery)

theorem names_read_recursive {visible : Names} (hv : visible.Undotted) : (ctes : List Cte) →
    ctesAreCore ctes = true →
    Mention.names .read (Tree.listMentions {} true visible (lowerCtes ctes)) =
      freeNames (cteReads true visible ctes)
  | [], _ => rfl
  | ⟨aka, query⟩ :: ctes, h => by
    simp only [ctesAreCore, Bool.and_eq_true, decide_eq_true_eq] at h
    obtain ⟨⟨hdot, hquery⟩, hctes⟩ := h
    have hself := undotted_bind? hv hdot query
    have hdefinition : (cteNode aka query).isDefinition = true := rfl
    show Mention.names .read (Tree.listMentions {} true visible
      (cteNode aka query :: lowerCtes ctes)) = _
    rw [Tree.listMentions, if_pos hdefinition, if_pos rfl, Mention.names_append, alias?_cteNode,
      names_read_recursive hself ctes hctes, Tree.bodyMentions_eq, cteReads, if_pos rfl,
      freeNames_append]
    exact congrArg (· ++ _) (readNames_lowerQuery hself query hquery)

theorem readNames_lowerBody {visible : Names} (hv : visible.Undotted) : (body : SetExpr) →
    body.isCore = true → Tree.readNames visible [lowerBody body] = freeNames (body.reads visible)
  | .select block, h => readNames_lowerSelect hv block h
  | .query query, h => readNames_lowerQuery hv query h
  | .setOperation operator left right, h => by
    simp only [SetExpr.isCore, Bool.and_eq_true] at h
    rw [lowerBody, SetExpr.reads, Tree.readNames_group (by decide), Tree.readNames_cons,
      freeNames_append, readNames_lowerBody hv left h.1, readNames_lowerBody hv right h.2]
  | .insert statement, h => readNames_lower hv statement h
  | .values rows, h => by
    rw [lowerBody, SetExpr.reads, Tree.readNames_group (by decide)]
    exact readNames_subqueriesIn hv rows h
  | .table _, h => absurd h Bool.false_ne_true
  | .write _, h => absurd h Bool.false_ne_true

theorem readNames_lowerSelect {visible : Names} (hv : visible.Undotted) : (block : Select) →
    block.isCore = true →
    Tree.readNames visible [lowerSelect block] = freeNames (block.reads visible)
  | ⟨leading, projection, tables, lateralViews, prewhere, selection, groupBy, placement, having,
      windows, qualify, connectBy⟩, h => by
    simp only [Select.isCore, Bool.and_eq_true] at h
    obtain ⟨⟨⟨⟨⟨⟨htables, hprojection⟩, hselection⟩, hgroupBy⟩, hhaving⟩, hqualify⟩,
      ⟨⟨⟨⟨hleading, hviews⟩, hprewhere⟩, hplacement⟩, hwindows⟩, hconnect⟩ := h
    have hplain : ∀ t ∈ lowerTables tables ++ subqueriesIn projection ++ subqueriesIn selection ++
        subqueriesIn groupBy ++ subqueriesIn having ++ subqueriesIn qualify,
        t.kind ≠ .cteDef := by
      refine Tree.not_cteDef_of_allPlaced ?_
      simp only [Tree.allPlaced_append, placed_lowerTables, placed_subqueriesIn, and_self]
    rw [lowerSelect, Tree.readNames_block_of_plain rfl _ hplain, Select.reads,
      reads_of_queryFree hleading, reads_of_queryFree hviews, reads_of_queryFree hprewhere,
      reads_of_queryFree hplacement, reads_of_queryFree hwindows, reads_of_queryFree hconnect]
    simp only [List.append_nil, Tree.readNames_append, freeNames_append,
      readNames_lowerTables hv tables htables, readNames_subqueriesIn hv projection hprojection,
      readNames_subqueriesIn hv selection hselection,
      readNames_subqueriesIn hv groupBy hgroupBy, readNames_subqueriesIn hv having hhaving,
      readNames_subqueriesIn hv qualify hqualify]

theorem readNames_lowerTables {visible : Names} (hv : visible.Undotted) :
    (tables : List TableWithJoins) → tablesAreCore tables = true →
    Tree.readNames visible (lowerTables tables) = freeNames (tablesReads visible tables)
  | [], _ => rfl
  | t :: ts, h => by
    simp only [tablesAreCore, Bool.and_eq_true] at h
    rw [lowerTables, tablesReads, Tree.readNames_cons, freeNames_append,
      readNames_lowerTable hv t h.1, readNames_lowerTables hv ts h.2]

theorem readNames_lowerTable {visible : Names} (hv : visible.Undotted) : (t : TableWithJoins) →
    t.isCore = true → Tree.readNames visible [lowerTable t] = freeNames (t.reads visible)
  | ⟨relation, []⟩, h => by
    simp only [TableWithJoins.isCore, Bool.and_eq_true] at h
    rw [lowerTable, TableWithJoins.reads, joinReads, List.append_nil]
    exact readNames_lowerFactor hv relation h.1
  | ⟨relation, j :: joins⟩, h => by
    simp only [TableWithJoins.isCore, Bool.and_eq_true] at h
    have hgroup : lowerTable ⟨relation, j :: joins⟩ =
      .branch .join (lowerFactor relation :: lowerJoins (j :: joins)) := rfl
    rw [hgroup, TableWithJoins.reads, Tree.readNames_group (by decide), Tree.readNames_cons,
      freeNames_append, readNames_lowerFactor hv relation h.1,
      readNames_lowerJoins hv (j :: joins) h.2]

theorem readNames_lowerJoins {visible : Names} (hv : visible.Undotted) : (joins : List Join) →
    joinsAreCore joins = true →
    Tree.readNames visible (lowerJoins joins) = freeNames (joinReads visible joins)
  | [], _ => rfl
  | ⟨relation, constraint⟩ :: joins, h => by
    simp only [joinsAreCore, Bool.and_eq_true] at h
    obtain ⟨⟨hrelation, hconstraint⟩, hjoins⟩ := h
    rw [lowerJoins, joinReads, Tree.readNames_cons, readNames_joined, Tree.readNames_cons,
      freeNames_append, freeNames_append, readNames_lowerFactor hv relation hrelation,
      readNames_subqueriesIn hv constraint hconstraint, readNames_lowerJoins hv joins hjoins]

theorem readNames_lowerFactor {visible : Names} (hv : visible.Undotted) : (t : TableFactor) →
    t.isCore = true → Tree.readNames visible [lowerFactor t] = freeNames (t.reads visible)
  | .table name aka operands, h => by
    simp only [TableFactor.isCore, Bool.and_eq_true] at h
    rw [lowerFactor, TableFactor.reads, readNames_relation hv h.1, reads_of_queryFree h.2,
      freeNames, List.filterMap_cons, List.filterMap_nil]
    cases Reference.free? ⟨name, visible⟩ <;> rfl
  | .derived query aka sample, h => by
    simp only [TableFactor.isCore, Bool.and_eq_true] at h
    rw [lowerFactor, TableFactor.reads, Tree.readNames_group (by decide), Tree.readNames_cons,
      readNames_aliasLeaf, reads_of_queryFree h.2, List.append_nil, List.append_nil]
    exact readNames_lowerQuery hv query h.1
  | .nested tables _, h => readNames_lowerTable hv tables h
  | .other .., h => absurd h Bool.false_ne_true

theorem readNames_deleteAll {visible : Names} (hv : visible.Undotted) :
    (tables : List TableWithJoins) → tablesAreCore tables = true →
    Tree.readNames visible (deleteAll tables).2 = freeNames (deleteReads visible tables)
  | [], _ => rfl
  | ⟨relation, joins⟩ :: ts, h => by
    simp only [tablesAreCore, TableWithJoins.isCore, Bool.and_eq_true] at h
    obtain ⟨⟨hrelation, hjoins⟩, hts⟩ := h
    have hfactor := readNames_lowerFactor hv relation hrelation
    have hreads : Tree.readNames visible (lowerJoins joins ++ (deleteAll ts).2) =
        freeNames (joinReads visible joins ++ deleteReads visible ts) := by
      rw [Tree.readNames_append, freeNames_append, readNames_lowerJoins hv joins hjoins,
        readNames_deleteAll hv ts hts]
    rw [deleteReads, List.append_assoc, freeNames_append, ← hreads]
    cases relation with
    | table name => rfl
    | _ => exact (Tree.readNames_cons ..).trans (congrArg (· ++ _) hfactor)

theorem readNames_lower {visible : Names} (hv : visible.Undotted) : (s : Statement) →
    s.isCore = true → Tree.readNames visible [lower s] = freeNames (s.reads visible)
  | .query query, h => readNames_lowerQuery hv query h
  | .insert ⟨target, none, operands⟩, h => by
    simp only [Statement.isCore, Bool.and_eq_true] at h
    rw [Statement.reads, InsertTarget.reads_of_isCore h.1, reads_of_queryFree h.2]
    cases target with
    | table name => exact readNames_write rfl visible name (fun t ht => absurd ht List.not_mem_nil)
    | function call => rfl
  | .insert ⟨target, some source, operands⟩, h => by
    simp only [Statement.isCore, Bool.and_eq_true] at h
    obtain ⟨⟨htarget, hsource⟩, hoperands⟩ := h
    rw [Statement.reads, InsertTarget.reads_of_isCore htarget, reads_of_queryFree hoperands,
      List.nil_append, List.append_nil, ← readNames_lowerQuery hv source hsource]
    cases target with
    | table name => exact readNames_write rfl visible name (not_written_query source)
    | function call =>
      exact Tree.readNames_insert rfl visible (fun t ht => absurd ht List.not_mem_nil)
        (not_written_query source)
  | .update ⟨⟨relation, joins⟩, assignments, tables, selection, operands⟩, h => by
    simp only [Statement.isCore, TableWithJoins.isCore, Bool.and_eq_true] at h
    obtain ⟨⟨⟨⟨⟨hrelation, hjoins⟩, htables⟩, hassignments⟩, hselection⟩, hoperands⟩ := h
    have hfactor := readNames_lowerFactor hv relation hrelation
    have hreads : Tree.readNames visible (lowerJoins joins ++ lowerTables tables ++
        subqueriesIn assignments ++ subqueriesIn selection) =
        freeNames (joinReads visible joins ++ tablesReads visible tables ++
          exprReads visible assignments ++ exprReads visible selection) := by
      simp only [Tree.readNames_append, freeNames_append, readNames_lowerJoins hv joins hjoins,
        readNames_lowerTables hv tables htables,
        readNames_subqueriesIn hv assignments hassignments,
        readNames_subqueriesIn hv selection hselection]
    have hsplit : freeNames (Statement.reads visible
        (.update ⟨⟨relation, joins⟩, assignments, tables, selection, operands⟩)) =
        freeNames (if relation.isNamed then [] else relation.reads visible) ++
          freeNames (joinReads visible joins ++ tablesReads visible tables ++
            exprReads visible assignments ++ exprReads visible selection) := by
      simp only [Statement.reads, reads_of_queryFree hoperands, List.append_nil,
        freeNames_append, List.append_assoc]
    rw [hsplit, ← hreads]
    cases relation with
    | table name => exact readNames_write_other rfl ..
    | _ => exact (readNames_unnamed rfl ..).trans (congrArg (· ++ _) hfactor)
  | .delete ⟨listed, tables, usingTables, selection, returning, orderBy, limit⟩, h => by
    simp only [Statement.isCore, Bool.and_eq_true] at h
    obtain ⟨⟨⟨⟨⟨hlisted, htables⟩, husing⟩, hselection⟩, horder⟩, hreturning, hlimit⟩ := h
    have hdelete : lower
        (.delete ⟨listed, tables, usingTables, selection, returning, orderBy, limit⟩) =
        .branch .delete ((deleteAll tables).1 ++ [.branch .other ((deleteAll tables).2 ++
          (lowerTables usingTables ++ subqueriesIn selection ++ subqueriesIn orderBy))]) :=
      if_pos hlisted
    rw [hdelete, readNames_insert_other rfl visible (destination_deleteAll tables),
      Statement.reads, reads_of_queryFree hreturning, reads_of_queryFree hlimit]
    simp only [Tree.readNames_append, freeNames_append, List.append_nil, List.append_assoc,
      readNames_deleteAll hv tables htables, readNames_lowerTables hv usingTables husing,
      readNames_subqueriesIn hv selection hselection, readNames_subqueriesIn hv orderBy horder]
  | .merge ⟨table, source, condition, clauses, output⟩, h => by
    simp only [Statement.isCore, Bool.and_eq_true] at h
    obtain ⟨⟨⟨⟨htable, hsource⟩, hcondition⟩, hclauses⟩, houtput⟩ := h
    have hfactor := readNames_lowerFactor hv table htable
    have hreads : Tree.readNames visible (lowerFactor source :: subqueries condition ++
        subqueriesIn clauses) =
        freeNames (source.reads visible ++ condition.reads visible ++
          exprReads visible clauses) := by
      rw [Tree.readNames_append, Tree.readNames_cons, freeNames_append, freeNames_append,
        readNames_lowerFactor hv source hsource, readNames_subqueries hv condition hcondition,
        readNames_subqueriesIn hv clauses hclauses]
    have hsplit : freeNames (Statement.reads visible
        (.merge ⟨table, source, condition, clauses, output⟩)) =
        freeNames (if table.isNamed then [] else table.reads visible) ++
          freeNames (source.reads visible ++ condition.reads visible ++
            exprReads visible clauses) := by
      simp only [Statement.reads, reads_of_queryFree houtput, List.append_nil,
        freeNames_append, List.append_assoc]
    rw [hsplit, ← hreads]
    cases table with
    | table name => exact readNames_write_other rfl ..
    | _ => exact (readNames_unnamed rfl ..).trans (congrArg (· ++ _) hfactor)
  | .createTable ⟨name, columns, none⟩, h => by
    rw [Statement.reads, reads_of_queryFree h]
    exact readNames_write rfl visible name (fun t ht => absurd ht List.not_mem_nil)
  | .createTable ⟨name, columns, some query⟩, h => by
    simp only [Statement.isCore, Bool.and_eq_true] at h
    rw [Statement.reads, reads_of_queryFree h.2, List.append_nil,
      ← readNames_lowerQuery hv query h.1]
    exact readNames_write rfl visible name (not_written_query query)
  | .createView ⟨name, query⟩, h => by
    rw [Statement.reads, ← readNames_lowerQuery hv query h]
    exact readNames_write rfl visible name (not_written_query query)
  | .other .., h => absurd h Bool.false_ne_true

end

/-- The sources of a statement are its free references, each at its first
occurrence. -/
theorem sources_lower (s : Statement) (h : s.isCore = true) :
    ((lower s).lineage {}).sources = (freeNames (s.reads Names.none)).eraseDups := by
  have hplaced := placed_lower 0 s
  have hreads := readNames_lower Names.undotted_none s h
  rw [Tree.lineage_eq_ofMentions_run, Tree.mentioned_run_start hplaced, ← hreads,
    Tree.readNames_single]
  rfl

/-- A select block over tables, with a filter. -/
def selectFrom (tables : List TableWithJoins) (selection : List Expr) : Query :=
  ⟨none, .select ⟨[], [.column []], tables, [], [], selection, [], [], [], [], [], []⟩, [], []⟩

def named (parts : List String) : TableFactor :=
  .table ⟨parts.map (⟨·, none⟩)⟩ none []

/-- `INSERT INTO out WITH RECURSIVE a AS (SELECT * FROM A JOIN t ON EXISTS (SELECT * FROM u)),
b AS (SELECT * FROM a) SELECT * FROM B, db.b WHERE EXISTS (SELECT * FROM c, U)` -/
def recursiveInsert : Statement :=
  .insert ⟨.table ⟨[⟨"out", none⟩]⟩, some
    ⟨some ⟨true,
      [⟨⟨⟨"a", none⟩, []⟩, selectFrom [⟨named ["A"],
        [⟨named ["t"], [.subquery (selectFrom [⟨named ["u"], []⟩] [])]⟩]⟩] []⟩,
      ⟨⟨⟨"b", none⟩, []⟩, selectFrom [⟨named ["a"], []⟩] []⟩]⟩,
    .select ⟨[], [.column []], [⟨named ["B"], []⟩, ⟨named ["db", "b"], []⟩], [], [],
      [.subquery (selectFrom [⟨named ["c"], []⟩, ⟨named ["U"], []⟩] [])], [], [], [], [], [], []⟩,
    [], []⟩, []⟩

theorem sources_recursiveInsert :
    recursiveInsert.isCore = true ∧
    ((lower recursiveInsert).lineage {}).sources =
      (freeNames (recursiveInsert.reads Names.none)).eraseDups ∧
    (freeNames (recursiveInsert.reads Names.none)).eraseDups.map (·.text) =
      ["t", "u", "db.b", "c", "U"] := by
  have h : recursiveInsert.isCore = true := by decide
  exact ⟨h, sources_lower recursiveInsert h, by cbv⟩

end Plan
end Lineage
