import Lineage.Proofs.Walk.Mentions

/-
What more visible names hide.

A tree that is read where some names more are visible mentions what it mentioned
before, less the read tables that go by one of these names.
-/

namespace Lineage

namespace Names

/-- All names of two sets. -/
def union (more names : Names) : Names := fun key => more key || names key

theorem union_none (more : Names) : more.union none = more := by
  funext key
  rw [union, none, Bool.or_false]

theorem union_self (names : Names) : names.union names = names := by
  funext key
  rw [union, Bool.or_self]

theorem bind_union (more names : Names) (name : String) :
    (more.union names).bind name = more.union (names.bind name) := by
  funext key
  simp only [bind, union]
  rw [Bool.or_left_comm]

theorem bind?_union (more names : Names) (name? : Option String) :
    (more.union names).bind? name? = more.union (names.bind? name?) := by
  cases name? with
  | none => rfl
  | some name => exact bind_union more names name

theorem bindAll_union (more names : Names) (added : List String) :
    (more.union names).bindAll added = more.union (names.bindAll added) := by
  induction added generalizing names with
  | nil => rfl
  | cons name added ih =>
    rw [bindAll, bindAll, List.foldl_cons, List.foldl_cons, bind_union]
    exact ih (names.bind name)

end Names

/-- Whether a mention is a read table that is not noted where `more` names are
visible. -/
def Names.hides (more : Names) (o : ExtractOptions) (m : Mention) : Bool :=
  !o.emitCteNames && m.access = .read && more (foldCase m.name.text)

namespace Tree

variable {κ : Type} {o : ExtractOptions} {more : Names}

/-- The mentions that stay where more names are visible. -/
def keep (o : ExtractOptions) (more : Names) (mentions : List Mention) : List Mention :=
  mentions.filter (!more.hides o ·)

theorem keep_append (a b : List Mention) : keep o more (a ++ b) = keep o more a ++ keep o more b :=
  List.filter_append ..

theorem mem_keep {m : Mention} {mentions : List Mention} :
    m ∈ keep o more mentions ↔ m ∈ mentions ∧ more.hides o m = false := by
  rw [keep, List.mem_filter, Bool.not_eq_true']

theorem mentionOf_union (visible : Names) (access : Access) (name? : Option QualifiedName) :
    mentionOf o (more.union visible) access name? = keep o more (mentionOf o visible access name?) := by
  cases name? with
  | none => rfl
  | some name =>
    cases access with
    | write => simp [mentionOf, keep, Names.hides]
    | read =>
      cases ho : o.emitCteNames with
      | true => simp [mentionOf, keep, Names.hides, ho]
      | false =>
        -- a name of either set is hidden, and noted by neither side
        by_cases hmore : more (foldCase name.text) = true
        · by_cases hv : visible (foldCase name.text) = true <;>
            simp [mentionOf, keep, Names.hides, Names.union, ho, hmore, hv]
        · by_cases hv : visible (foldCase name.text) = true <;>
            simp [mentionOf, keep, Names.hides, Names.union, ho, hmore, hv]

theorem keep_mentionOfText (text : Option String) :
    keep o more (mentionOfText o text) = mentionOfText o text := by
  refine List.filter_eq_self.2 (fun m hm => ?_)
  cases ho : o.emitCteNames with
  | true => simp [Names.hides, ho]
  | false => simp [mentionOfText, ho] at hm

variable [Vocabulary κ]

theorem ownMentions_union (visible : Names) (access : Access) (t : Tree κ) :
    t.ownMentions o (more.union visible) access = keep o more (t.ownMentions o visible access) := by
  cases hk : t.kind with
  | destination | table | tableRef =>
    simp only [ownMentions, hk]
    exact mentionOf_union ..
  | tableName =>
    simp only [ownMentions, hk]
    cases access with
    | read => rfl
    | write => exact mentionOf_union ..
  | cteRef =>
    simp only [ownMentions, hk]
    exact (keep_mentionOfText t.text).symm
  | _ =>
    simp only [ownMentions, hk]
    rfl

/-- A tree mentions less where more names are visible, and so does its body. -/
structure Keeps (o : ExtractOptions) (more : Names) (t : Tree κ) : Prop where
  mentions : ∀ visible access,
    t.mentions o (more.union visible) access = keep o more (t.mentions o visible access)
  body : ∀ visible, t.bodyMentions o (more.union visible) = keep o more (t.bodyMentions o visible)

section lists

variable {ts : List (Tree κ)}

theorem childMentions_union_of_keeps (visible : Names) (position : Tree κ → Option Access)
    (h : ∀ t ∈ ts, t.Keeps o more) :
    childMentions o (more.union visible) position ts =
      keep o more (childMentions o visible position ts) := by
  induction ts with
  | nil => rfl
  | cons t ts ih =>
    rw [childMentions, childMentions, keep_append, ih (fun u hu => h u (List.mem_cons_of_mem _ hu))]
    cases position t with
    | none => rfl
    | some access => exact congrArg (· ++ _) ((h t List.mem_cons_self).mentions visible access)

theorem listMentions_union_of_keeps (recursive : Bool) (visible : Names)
    (h : ∀ t ∈ ts, t.Keeps o more) :
    listMentions o recursive (more.union visible) ts =
      keep o more (listMentions o recursive visible ts) := by
  induction ts generalizing visible with
  | nil => rfl
  | cons t ts ih =>
    have ht := h t List.mem_cons_self
    have ih := fun visible => ih visible (fun u hu => h u (List.mem_cons_of_mem _ hu))
    rw [listMentions, listMentions]
    by_cases hd : t.isDefinition = true
    · rw [if_pos hd, if_pos hd, keep_append, Names.bind?_union, ih]
      cases recursive with
      | true => exact congrArg (· ++ _) (ht.body (visible.bind? t.alias?))
      | false => exact congrArg (· ++ _) (ht.body visible)
    · rw [if_neg hd, if_neg hd, keep_append, ht.mentions, ih]

theorem blockMentions_union_of_keeps (main visible : Names) (h : ∀ t ∈ ts, t.Keeps o more) :
    blockMentions o (more.union main) (more.union visible) ts =
      keep o more (blockMentions o main visible ts) := by
  induction ts generalizing visible with
  | nil => rfl
  | cons t ts ih =>
    have ht := h t List.mem_cons_self
    have ih := fun visible => ih visible (fun u hu => h u (List.mem_cons_of_mem _ hu))
    rw [blockMentions, blockMentions]
    by_cases hk : t.kind = .cteDef
    · rw [if_pos hk, if_pos hk, keep_append, ht.mentions, Names.bindAll_union, ih]
    · rw [if_neg hk, if_neg hk, keep_append, ht.mentions, ih]

end lists

theorem keeps_of_children {t : Tree κ} (h : ∀ c ∈ t.children, c.Keeps o more) :
    t.Keeps o more := by
  have hbody (visible : Names) :
      t.bodyMentions o (more.union visible) = keep o more (t.bodyMentions o visible) := by
    rw [bodyMentions_eq, bodyMentions_eq]
    exact childMentions_union_of_keeps visible _ h
  refine ⟨fun visible access => ?_, hbody⟩
  by_cases hb : t.kind.opensScope = true
  · rw [mentions_block hb, mentions_block hb, Names.bindAll_union]
    exact blockMentions_union_of_keeps _ visible h
  · by_cases hd : t.kind = .cteDef
    · rw [mentions_cteDef hd, mentions_cteDef hd]
      by_cases hl : t.children.any isDefinition = true
      · rw [if_pos hl, if_pos hl]
        exact listMentions_union_of_keeps _ visible h
      · rw [if_neg hl, if_neg hl]
        exact hbody visible
    · have hb := Bool.eq_false_iff.2 hb
      rw [mentions_plain hb hd, mentions_plain hb hd, keep_append, ownMentions_union,
        childMentions_union_of_keeps visible _ h]

mutual

theorem keeps (o : ExtractOptions) (more : Names) : ∀ t : Tree κ, t.Keeps o more
  | .node _ _ children => keeps_of_children (keeps_all o more children)

theorem keeps_all (o : ExtractOptions) (more : Names) :
    ∀ ts : List (Tree κ), ∀ t ∈ ts, t.Keeps o more
  | [], _, h => absurd h List.not_mem_nil
  | t :: ts, u, h => by
    rcases List.mem_cons.1 h with h | h
    · exact h ▸ keeps o more t
    · exact keeps_all o more ts u h

end

theorem mentions_union (visible : Names) (access : Access) (t : Tree κ) :
    t.mentions o (more.union visible) access = keep o more (t.mentions o visible access) :=
  (keeps o more t).mentions visible access

theorem blockMentions_union (main visible : Names) (ts : List (Tree κ)) :
    blockMentions o (more.union main) (more.union visible) ts =
      keep o more (blockMentions o main visible ts) :=
  blockMentions_union_of_keeps main visible (keeps_all o more ts)

end Tree
end Lineage
