import Mathlib.Data.List.TakeWhile
import Lineage.Tree.Outline
import Lineage.Proofs.Builder
import Lineage.Proofs.Preorder

/-
The forest of an outline.

The reader keeps the entries that are open on a stack and hangs a node below its
parent when the node is closed.  What comes out is said here without a stack: the
parent of an entry is the nearest earlier one that is indented less, and the nodes
of the forest have these ancestors, in the order of the entries.

In between stands a recursion over blocks.  The entries right behind the first one
that are indented deeper are its block, and what follows the block is arranged on
its own.
-/

namespace Lineage

namespace Outline

/-- The place of the nearest earlier entry that is indented less. -/
def parent? (indents : List Nat) (place : Nat) : Option Nat :=
  (List.range place).reverse.find? fun earlier => indents.getD earlier 0 < indents.getD place 0

theorem lt_of_parent? {indents : List Nat} {place p : Nat} (h : parent? indents place = some p) :
    p < place := by
  have hmem := List.mem_of_find?_eq_some h
  rwa [List.mem_reverse, List.mem_range] at hmem

/-- The places of the ancestors of an entry, its parent first. -/
def ancestors (indents : List Nat) (place : Nat) : List Nat :=
  match _h : parent? indents place with
  | none => []
  | some p => p :: ancestors indents p
termination_by place
decreasing_by exact lt_of_parent? _h

def ancestries (indents : List Nat) : List (List Nat) :=
  (List.range indents.length).map (ancestors indents)

end Outline

namespace Tree

variable {κ : Type}

mutual

/-- The ancestors of every node in preorder, each by its place in preorder, the parent
first.  The ancestors of the root are given, and so is its place. -/
def ancestries (above : List Nat) (place : Nat) : Tree κ → List (List Nat)
  | node _ _ children => above :: ancestriesAll (place :: above) (place + 1) children

def ancestriesAll (above : List Nat) (place : Nat) : List (Tree κ) → List (List Nat)
  | [] => []
  | t :: ts => t.ancestries above place ++ ancestriesAll above (place + t.size) ts

end

/-- The parent of every node in preorder, by its place in preorder. -/
def parents (ts : List (Tree κ)) : List (Option Nat) := (ancestriesAll [] 0 ts).map List.head?

mutual

/-- The number of nodes on the longest path down. -/
def levels : Tree κ → Nat
  | node _ _ children => levelsAll children + 1

def levelsAll : List (Tree κ) → Nat
  | [] => 0
  | t :: ts => max t.levels (levelsAll ts)

end

mutual

/-- A node has as many levels above it as it has ancestors. -/
theorem levels_le_iff (limit : Nat) (above : List Nat) (place : Nat) :
    (t : Tree κ) → (above.length + t.levels ≤ limit ↔
      ∀ a ∈ t.ancestries above place, a.length < limit)
  | node label text children => by
    have hchildren := levelsAll_le_iff limit (place :: above) (place + 1) children
    rw [List.length_cons] at hchildren
    rw [ancestries, List.forall_mem_cons]
    show above.length + (levelsAll children + 1) ≤ limit ↔ _
    constructor
    · intro h
      exact ⟨by omega, (hchildren (by omega)).1 (by omega)⟩
    · rintro ⟨hself, h⟩
      have hbelow := (hchildren (by omega)).2 h
      omega

theorem levelsAll_le_iff (limit : Nat) (above : List Nat) (place : Nat) :
    (ts : List (Tree κ)) → above.length ≤ limit → (above.length + levelsAll ts ≤ limit ↔
      ∀ a ∈ ancestriesAll above place ts, a.length < limit)
  | [], hle => by
    constructor
    · intro _ a ha
      exact absurd ha List.not_mem_nil
    · intro _
      exact hle
  | t :: ts, hle => by
    have ht := levels_le_iff limit above place t
    have hts := levelsAll_le_iff limit above (place + t.size) ts hle
    rw [ancestriesAll, List.forall_mem_append, ← ht, ← hts]
    show above.length + max t.levels (levelsAll ts) ≤ limit ↔ _
    omega

end

end Tree

namespace Outline

/-! ## Ancestors from the latest earlier entry on -/

/-- The ancestors of an entry behind others that are given latest first.  Walking back,
the first one that is indented less is the parent. -/
def ancestorsBehind : List Nat → Nat → List Nat
  | [], _ => []
  | j :: older, indent =>
    if indent ≤ j then ancestorsBehind older indent else older.length :: ancestorsBehind older j

theorem ancestorsBehind_of_le {j indent : Nat} (older : List Nat) (h : indent ≤ j) :
    ancestorsBehind (j :: older) indent = ancestorsBehind older indent := if_pos h

theorem ancestorsBehind_of_lt {j indent : Nat} (older : List Nat) (h : j < indent) :
    ancestorsBehind (j :: older) indent = older.length :: ancestorsBehind older j :=
  if_neg (Nat.not_le.2 h)

/-- Entries that are not indented less are passed over. -/
theorem ancestorsBehind_append {passed : List Nat} (older : List Nat) {indent : Nat}
    (h : ∀ j ∈ passed, indent ≤ j) :
    ancestorsBehind (passed ++ older) indent = ancestorsBehind older indent := by
  induction passed with
  | nil => rfl
  | cons j passed ih =>
    rw [List.cons_append, ancestorsBehind_of_le _ (h j List.mem_cons_self)]
    exact ih (fun x hx => h x (List.mem_cons_of_mem _ hx))

def withAncestors (indents : List Nat) : Option Nat → List Nat
  | none => []
  | some p => p :: ancestors indents p

theorem ancestors_eq (indents : List Nat) (place : Nat) :
    ancestors indents place = withAncestors indents (parent? indents place) := by
  rw [ancestors]
  split
  · next h => rw [h]; rfl
  · next p h => rw [h]; rfl

theorem head?_ancestors (indents : List Nat) (place : Nat) :
    (ancestors indents place).head? = parent? indents place := by
  rw [ancestors_eq]
  cases parent? indents place with
  | none => rfl
  | some p => rfl

theorem getD_reverse_append (older : List Nat) (j : Nat) (later : List Nat) :
    (older.reverse ++ j :: later).getD older.length 0 = j := by
  have hle : older.reverse.length ≤ older.length := Nat.le_of_eq List.length_reverse
  rw [List.getD_eq_getElem?_getD, List.getElem?_append_right hle, List.length_reverse, Nat.sub_self]
  rfl

theorem withAncestors_find? (earlier : List Nat) (indent : Nat) (later : List Nat) :
    withAncestors (earlier.reverse ++ later) ((List.range earlier.length).reverse.find?
        fun i => (earlier.reverse ++ later).getD i 0 < indent) =
      ancestorsBehind earlier indent := by
  induction earlier generalizing indent later with
  | nil => rfl
  | cons j older ih =>
    have hj : (older.reverse ++ j :: later).getD older.length 0 = j := getD_reverse_append older j later
    rw [List.reverse_cons, List.append_assoc, List.singleton_append, List.length_cons,
      List.range_succ, List.reverse_append, List.reverse_singleton, List.singleton_append]
    by_cases h : j < indent
    · rw [List.find?_cons_of_pos (by rw [hj]; exact decide_eq_true h), withAncestors, ancestors_eq,
        parent?, hj, ih j (j :: later), ancestorsBehind_of_lt older h]
    · rw [List.find?_cons_of_neg (by rw [hj]; simpa using h), ih indent (j :: later),
        ancestorsBehind_of_le older (Nat.le_of_not_lt h)]

theorem ancestors_append_cons (earlier : List Nat) (indent : Nat) (later : List Nat) :
    ancestors (earlier.reverse ++ indent :: later) earlier.length =
      ancestorsBehind earlier indent := by
  rw [ancestors_eq, parent?, getD_reverse_append, withAncestors_find?]

/-- The ancestors of all entries behind others that are given latest first. -/
def ancestriesBehind (earlier : List Nat) : List Nat → List (List Nat)
  | [] => []
  | indent :: rest => ancestorsBehind earlier indent :: ancestriesBehind (indent :: earlier) rest

theorem ancestriesBehind_append (earlier a b : List Nat) :
    ancestriesBehind earlier (a ++ b) =
      ancestriesBehind earlier a ++ ancestriesBehind (a.reverse ++ earlier) b := by
  induction a generalizing earlier with
  | nil => rfl
  | cons indent a ih =>
    rw [List.cons_append, ancestriesBehind, ih, ancestriesBehind, List.reverse_cons,
      List.append_assoc, List.singleton_append, List.cons_append]

theorem ancestriesBehind_eq_map (earlier rest : List Nat) :
    ancestriesBehind earlier rest =
      (List.range' earlier.length rest.length).map (ancestors (earlier.reverse ++ rest)) := by
  induction rest generalizing earlier with
  | nil => rfl
  | cons indent rest ih =>
    rw [ancestriesBehind, List.length_cons, List.range'_succ, List.map_cons,
      ancestors_append_cons, ih]
    simp

theorem ancestries_eq_behind (indents : List Nat) :
    ancestries indents = ancestriesBehind [] indents := by
  rw [ancestriesBehind_eq_map, ancestries, List.range_eq_range']
  rfl

/-! ## The first entry that lies too deep -/

theorem dropWhile_le_dropWhile_le {x y : Nat} (h : x ≤ y) (opened : List Nat) :
    (opened.dropWhile (y ≤ ·)).dropWhile (x ≤ ·) = opened.dropWhile (x ≤ ·) := by
  induction opened with
  | nil => rfl
  | cons j opened ih =>
    simp only [List.dropWhile_cons, decide_eq_true_eq]
    by_cases hj : y ≤ j
    · rw [if_pos hj, if_pos (Nat.le_trans h hj), ih]
    · rw [if_neg hj, List.dropWhile_cons]
      simp only [decide_eq_true_eq]

/-- The stack of open entries has the ancestors of whatever comes next. -/
theorem go_eq_findIdx? (limit : Nat) {opened earlier : List Nat}
    (h : ∀ indent, (opened.dropWhile (indent ≤ ·)).length = (ancestorsBehind earlier indent).length)
    (place : Nat) (rest : List Nat) :
    tooDeep?.go limit opened place rest =
      ((ancestriesBehind earlier rest).findIdx? (limit ≤ ·.length)).map (· + place) := by
  induction rest generalizing opened earlier place with
  | nil => rfl
  | cons indent rest ih =>
    have hindent := h indent
    have hnext : ∀ x, ((indent :: opened.dropWhile (indent ≤ ·)).dropWhile (x ≤ ·)).length =
        (ancestorsBehind (indent :: earlier) x).length := by
      intro x
      simp only [List.dropWhile_cons, decide_eq_true_eq]
      by_cases hx : x ≤ indent
      · rw [if_pos hx, dropWhile_le_dropWhile_le hx, h x, ancestorsBehind_of_le _ hx]
      · rw [if_neg hx, List.length_cons, hindent, ancestorsBehind_of_lt _ (Nat.lt_of_not_le hx),
          List.length_cons]
    rw [tooDeep?.go, ancestriesBehind, List.findIdx?_cons]
    by_cases hdeep : limit ≤ (ancestorsBehind earlier indent).length
    · rw [if_pos (by rw [hindent]; exact hdeep), if_pos (decide_eq_true hdeep)]
      simp
    · rw [if_neg (by rw [hindent]; exact hdeep), if_neg (by simpa using hdeep), ih hnext,
        Option.map_map]
      congr 1
      funext i
      show i + (place + 1) = i + 1 + place
      omega

theorem tooDeep?_eq (limit : Nat) (indents : List Nat) :
    tooDeep? limit indents = (ancestries indents).findIdx? (limit ≤ ·.length) := by
  have hgo : tooDeep?.go limit [] 0 indents =
      ((ancestriesBehind [] indents).findIdx? (limit ≤ ·.length)).map (· + 0) :=
    go_eq_findIdx? limit (fun _ => rfl) 0 indents
  rw [ancestries_eq_behind, tooDeep?, hgo]
  exact Option.map_id'

/-! ## The forest block by block -/

variable {κ : Type}

/-- The first entry over its block, and what follows the block. -/
def arrange : List (Entry κ) → List (Tree κ)
  | [] => []
  | e :: rest =>
    .node e.label e.text (arrange (rest.takeWhile (e.indent < ·.indent))) ::
      arrange (rest.dropWhile (e.indent < ·.indent))
termination_by entries => entries.length
decreasing_by
  · exact Nat.lt_succ_of_le (List.takeWhile_sublist _).length_le
  · exact Nat.lt_succ_of_le (List.dropWhile_sublist _).length_le

theorem arrange_cons (e : Entry κ) (rest : List (Entry κ)) :
    arrange (e :: rest) =
      .node e.label e.text (arrange (rest.takeWhile (e.indent < ·.indent))) ::
        arrange (rest.dropWhile (e.indent < ·.indent)) := by
  rw [arrange]

/-- Entries that are indented deeper than the first one, up to one that is not, are its block. -/
theorem arrange_block {e : Entry κ} {block behind : List (Entry κ)}
    (hblock : ∀ x ∈ block, e.indent < x.indent)
    (hbehind : ∀ x ∈ behind.head?, x.indent ≤ e.indent) :
    arrange (e :: (block ++ behind)) = .node e.label e.text (arrange block) :: arrange behind := by
  have hdeeper : ∀ x ∈ block, decide (e.indent < x.indent) = true :=
    fun x hx => decide_eq_true (hblock x hx)
  rw [arrange_cons, List.takeWhile_append_of_pos hdeeper, List.dropWhile_append_of_pos hdeeper]
  cases behind with
  | nil => rw [List.takeWhile_nil, List.append_nil, List.dropWhile_nil]
  | cons next behind =>
    have hnext : ¬ e.indent < next.indent := Nat.not_lt.2 (hbehind next rfl)
    simp only [List.takeWhile_cons, List.dropWhile_cons, decide_eq_true_eq, if_neg hnext,
      List.append_nil]

theorem ended_append {closed kept : List Nat} {indent : Nat} (hclosed : ∀ i ∈ closed, indent ≤ i)
    (hkept : ∀ i ∈ kept.head?, i < indent) : ended (closed ++ kept) indent = closed.length := by
  have hnone : kept.takeWhile (indent ≤ ·) = [] := by
    cases kept with
    | nil => rfl
    | cons i kept =>
      have hi : ¬ indent ≤ i := Nat.not_le.2 (hkept i rfl)
      simp only [List.takeWhile_cons, decide_eq_true_eq, if_neg hi]
  have hall : ∀ i ∈ closed, decide (indent ≤ i) = true := fun i hi => decide_eq_true (hclosed i hi)
  rw [ended, List.takeWhile_append_of_pos hall, hnone, List.append_nil]

/-- An entry ends the open ones that are not indented less, and is open then. -/
theorem add_eq {s : State κ} {e : Entry κ} {closed kept : List Nat}
    (h : s.opened = closed ++ kept) (hclosed : ∀ i ∈ closed, e.indent ≤ i)
    (hkept : ∀ i ∈ kept.head?, i < e.indent) :
    s.add e = ⟨e.indent :: kept, (s.builder.closeMany closed.length).openNode e.label e.text⟩ := by
  rw [State.add, h, ended_append hclosed hkept, List.drop_left]

theorem add_of_deeper {s : State κ} {e : Entry κ} (h : ∀ i ∈ s.opened.head?, i < e.indent) :
    s.add e = ⟨e.indent :: s.opened, s.builder.openNode e.label e.text⟩ :=
  add_eq (List.nil_append _).symm (fun _ hi => absurd hi List.not_mem_nil) h

/-- What was added between two states: entries that are still open, latest first, and
the trees that all of it makes once these are closed. -/
structure Added (s t : State κ) (deeper : List Nat) (ts : List (Tree κ)) : Prop where
  opened : t.opened = deeper ++ s.opened
  closed : t.builder.closeMany deeper.length = s.builder.graftAll ts

section added

variable {s t u : State κ} {deeper further : List Nat} {ts us : List (Tree κ)}

theorem Added.nil (s : State κ) : Added s s [] [] := ⟨rfl, rfl⟩

/-- An entry is a tree over what was added behind it. -/
theorem Added.block {e : Entry κ} (hs : ∀ i ∈ s.opened.head?, i < e.indent)
    (h : Added (s.add e) t deeper ts) :
    Added s t (deeper ++ [e.indent]) [.node e.label e.text ts] := by
  have hopened := h.opened
  have hclosed := h.closed
  rw [add_of_deeper hs] at hopened hclosed
  refine ⟨by rw [hopened, List.append_assoc, List.singleton_append], ?_⟩
  rw [List.length_append, List.length_singleton]
  apply Builder.closeMany_succ
  rw [hclosed, Builder.close?_openNode]
  rfl

/-- An entry that ends all that is open of what was added comes right behind trees. -/
theorem Added.add_eq {e : Entry κ} (h : Added s t deeper ts) (hdeeper : ∀ i ∈ deeper, e.indent ≤ i)
    (hs : ∀ i ∈ s.opened.head?, i < e.indent) :
    t.add e = State.add ⟨s.opened, s.builder.graftAll ts⟩ e := by
  rw [Outline.add_eq h.opened hdeeper hs, h.closed]
  exact (add_of_deeper (s := ⟨s.opened, s.builder.graftAll ts⟩) hs).symm

theorem Added.append (h : Added ⟨s.opened, s.builder.graftAll ts⟩ u further us) :
    Added s u further (ts ++ us) :=
  ⟨h.opened, by rw [h.closed, Builder.graftAll_append]⟩

end added

/-- The first entry behind a block is not indented deeper than the one that the block
belongs to. -/
theorem indent_le_of_dropWhile {e next : Entry κ} {rest behind : List (Entry κ)}
    (h : rest.dropWhile (e.indent < ·.indent) = next :: behind) : next.indent ≤ e.indent := by
  have hfail := List.dropWhile_get_zero_not (fun x : Entry κ => decide (e.indent < x.indent)) rest
    (by rw [h]; exact Nat.succ_pos _)
  simp only [h, List.get_eq_getElem, List.getElem_cons_zero, decide_eq_true_eq] at hfail
  exact Nat.le_of_not_lt hfail

theorem lt_of_mem_takeWhile {e x : Entry κ} {rest : List (Entry κ)}
    (h : x ∈ rest.takeWhile (e.indent < ·.indent)) : e.indent < x.indent :=
  of_decide_eq_true (List.mem_takeWhile_imp (p := fun x : Entry κ => decide (e.indent < x.indent)) h)

/-- Entries that are indented deeper than what is open become a forest below it. -/
theorem added_foldl (entries : List (Entry κ)) :
    ∀ s : State κ, (∀ i ∈ s.opened.head?, ∀ e ∈ entries, i < e.indent) →
      ∃ deeper, Added s (entries.foldl State.add s) deeper (arrange entries) ∧
        ∀ i ∈ deeper, ∃ e ∈ entries, e.indent = i := by
  induction entries using arrange.induct with
  | case1 =>
    intro s _
    rw [arrange]
    exact ⟨[], .nil s, fun i hi => absurd hi List.not_mem_nil⟩
  | case2 e rest ihinner ihouter =>
    intro s hs
    have hinner : ∀ x ∈ rest.takeWhile (e.indent < ·.indent), e.indent < x.indent :=
      fun x hx => lt_of_mem_takeWhile hx
    have hrest : rest = rest.takeWhile (e.indent < ·.indent) ++
        rest.dropWhile (e.indent < ·.indent) := List.takeWhile_append_dropWhile.symm
    generalize hblock : rest.takeWhile (e.indent < ·.indent) = block at ihinner hinner hrest
    generalize hbehind : rest.dropWhile (e.indent < ·.indent) = behind at ihouter hrest
    have hdeeper : ∀ i ∈ s.opened.head?, i < e.indent := fun i hi => hs i hi e List.mem_cons_self
    obtain ⟨deeper, hadded, hdeep⟩ := ihinner (s.add e) (by
      rw [add_of_deeper hdeeper]
      intro i hi x hx
      obtain rfl : e.indent = i := by simpa using hi
      exact hinner x hx)
    have htree := hadded.block hdeeper
    have hmem : ∀ x ∈ behind, x ∈ e :: rest :=
      fun x hx => List.mem_cons_of_mem _ (hrest ▸ List.mem_append_right _ hx)
    have hfold : (e :: rest).foldl State.add s =
        behind.foldl State.add (block.foldl State.add (s.add e)) := by
      rw [List.foldl_cons, ← List.foldl_append, ← hrest]
    rw [arrange_cons, hblock, hbehind, hfold]
    cases behind with
    | nil =>
      rw [arrange]
      refine ⟨deeper ++ [e.indent], htree, fun i hi => ?_⟩
      rcases List.mem_append.1 hi with hi | hi
      · obtain ⟨x, hx, hxi⟩ := hdeep i hi
        exact ⟨x, List.mem_cons_of_mem _ (hrest ▸ List.mem_append_left _ hx), hxi⟩
      · exact ⟨e, List.mem_cons_self, (List.mem_singleton.1 hi).symm⟩
    | cons next behind =>
      have hnext := indent_le_of_dropWhile hbehind
      have hends : ∀ i ∈ deeper ++ [e.indent], next.indent ≤ i := by
        intro i hi
        rcases List.mem_append.1 hi with hi | hi
        · obtain ⟨x, hx, rfl⟩ := hdeep i hi
          have hlt := hinner x hx
          omega
        · rw [List.mem_singleton.1 hi]
          exact hnext
      have hkept : ∀ i ∈ s.opened.head?, i < next.indent :=
        fun i hi => hs i hi next (hmem next List.mem_cons_self)
      rw [List.foldl_cons, htree.add_eq hends hkept, ← List.foldl_cons]
      obtain ⟨further, hfurther, hdeep'⟩ := ihouter
        ⟨s.opened, s.builder.graftAll [.node e.label e.text (arrange block)]⟩
        (fun i hi x hx => hs i hi x (hmem x hx))
      refine ⟨further, hfurther.append, fun i hi => ?_⟩
      obtain ⟨x, hx, hxi⟩ := hdeep' i hi
      exact ⟨x, hmem x hx, hxi⟩

theorem forest_eq_arrange (entries : List (Entry κ)) : forest entries = arrange entries := by
  obtain ⟨deeper, hadded, -⟩ := added_foldl entries .start (by
    intro i hi
    exact absurd hi (by simp [State.start]))
  rw [forest, ← Builder.forest_closeMany deeper.length, hadded.closed]
  exact Builder.forest_graftAll_empty _

/-! ## What the forest has -/

theorem sizeList_arrange (entries : List (Entry κ)) :
    Tree.sizeList (arrange entries) = entries.length := by
  induction entries using arrange.induct with
  | case1 => rw [arrange]; rfl
  | case2 e rest ihblock ihbehind =>
    have hlength := congrArg List.length
      (List.takeWhile_append_dropWhile (p := fun x : Entry κ => decide (e.indent < x.indent)) (l := rest))
    rw [List.length_append] at hlength
    rw [arrange_cons, Tree.sizeList_cons, Tree.size_eq, ihbehind]
    show Tree.sizeList (arrange _) + 1 + _ = rest.length + 1
    rw [ihblock]
    omega

theorem map_partsAll_arrange (entries : List (Entry κ)) :
    (Tree.partsAll (arrange entries)).map (fun t => (t.label, t.text)) =
      entries.map (fun e => (e.label, e.text)) := by
  induction entries using arrange.induct with
  | case1 => rw [arrange]; rfl
  | case2 e rest ihblock ihbehind =>
    rw [arrange_cons, Tree.partsAll, Tree.parts, List.map_append, List.map_cons, ihblock, ihbehind,
      List.cons_append, ← List.map_append, List.takeWhile_append_dropWhile]
    rfl

/-- Behind `older` entries, of which some that are not indented less than what comes
next have `passed`, the nodes of the forest have the ancestors of the entries. -/
theorem ancestriesAll_arrange (entries : List (Entry κ)) :
    ∀ (above passed older : List Nat), (∀ j ∈ passed, ∀ e ∈ entries.head?, e.indent ≤ j) →
      (∀ e ∈ entries, ancestorsBehind older e.indent = above) →
      Tree.ancestriesAll above (passed ++ older).length (arrange entries) =
        ancestriesBehind (passed ++ older) (entries.map (·.indent)) := by
  induction entries using arrange.induct with
  | case1 =>
    intro above passed older _ _
    rw [arrange]
    rfl
  | case2 e rest ihblock ihbehind =>
    intro above passed older hpassed holder
    have hsize := sizeList_arrange (rest.takeWhile (e.indent < ·.indent))
    have hrest : rest = rest.takeWhile (e.indent < ·.indent) ++
        rest.dropWhile (e.indent < ·.indent) := List.takeWhile_append_dropWhile.symm
    have hblock : ∀ x ∈ rest.takeWhile (e.indent < ·.indent), e.indent < x.indent :=
      fun x hx => lt_of_mem_takeWhile hx
    have hnext : ∀ x ∈ (rest.dropWhile (e.indent < ·.indent)).head?, x.indent ≤ e.indent := by
      intro x hx
      obtain ⟨behind, hbehind⟩ := List.head?_eq_some_iff.1 hx
      exact indent_le_of_dropWhile hbehind
    rw [arrange_cons]
    generalize rest.takeWhile (e.indent < ·.indent) = block at *
    generalize rest.dropWhile (e.indent < ·.indent) = behind at *
    have hself : ancestorsBehind (passed ++ older) e.indent = above := by
      rw [ancestorsBehind_append older (fun j hj => hpassed j hj e rfl)]
      exact holder e List.mem_cons_self
    -- in the block the first entry is passed by nothing
    have hinner := ihblock ((passed ++ older).length :: above) [] (e.indent :: (passed ++ older))
      (fun j hj => absurd hj List.not_mem_nil) (by
        intro x hx
        rw [ancestorsBehind_of_lt _ (hblock x hx), hself])
    -- behind it the block and its first entry are passed over
    have houter := ihbehind above ((block.map (·.indent)).reverse ++ e.indent :: passed) older (by
        intro j hj x hx
        have hle := hnext x hx
        rcases List.mem_append.1 hj with hj | hj
        · obtain ⟨y, hy, rfl⟩ := List.mem_map.1 (List.mem_reverse.1 hj)
          have hlt := hblock y hy
          omega
        · rcases List.mem_cons.1 hj with rfl | hj
          · exact hle
          · exact Nat.le_trans hle (hpassed j hj e rfl)) (by
        intro x hx
        exact holder x (List.mem_cons_of_mem _ (hrest ▸ List.mem_append_right _ hx)))
    have hplace : ((block.map (·.indent)).reverse ++ e.indent :: passed ++ older).length =
        (passed ++ older).length + (Tree.node e.label e.text (arrange block)).size := by
      rw [Tree.size_eq]
      show _ = _ + (Tree.sizeList (arrange block) + 1)
      simp only [List.length_append, List.length_reverse, List.length_map, List.length_cons, hsize]
      omega
    rw [hplace] at houter
    have hindents : (e :: rest).map (·.indent) =
        e.indent :: (block.map (·.indent) ++ behind.map (·.indent)) := by
      rw [hrest, List.map_cons, List.map_append]
    have hpassedOlder : (block.map (·.indent)).reverse ++ e.indent :: passed ++ older =
        (block.map (·.indent)).reverse ++ (e.indent :: (passed ++ older)) := by
      rw [List.append_assoc, List.cons_append]
    rw [Tree.ancestriesAll, Tree.ancestries, houter, hindents, ancestriesBehind,
      ancestriesBehind_append, hself, hpassedOlder, List.cons_append]
    exact congrArg (above :: · ++ _) hinner

/-- The forest of an outline has the entries as its nodes, in their order, and each has
the ancestors of its entry. -/
theorem forest_spec (entries : List (Entry κ)) :
    (Tree.partsAll (forest entries)).map (fun t => (t.label, t.text)) =
        entries.map (fun e => (e.label, e.text)) ∧
      Tree.ancestriesAll [] 0 (forest entries) = ancestries (entries.map (·.indent)) := by
  rw [forest_eq_arrange, ancestries_eq_behind]
  refine ⟨map_partsAll_arrange entries, ?_⟩
  exact ancestriesAll_arrange entries [] [] [] (fun j hj => absurd hj List.not_mem_nil)
    (fun e _ => rfl)

end Outline
end Lineage
