import Mathlib
import Lineage.Proofs.Scope.Checked

/-
What scopes bind, told from what was done to them.

Scopes are opened and names are bound in any order, in scopes that exist.  Every
lookup can then be read off the list of these changes: a scope binds a name to the
last body that was given to it there, and the nearest scope on the way to the root
that binds the name decides.
-/

namespace Lineage

/-- Two characters are the same but for the case of an ASCII letter. -/
def SameLetter (a b : Char) : Prop :=
  a = b ∨ a.isUpper = true ∧ b.toNat = a.toNat + 32 ∨ b.isUpper = true ∧ a.toNat = b.toNat + 32

instance (a b : Char) : Decidable (SameLetter a b) :=
  inferInstanceAs (Decidable (_ ∨ _ ∧ _ ∨ _ ∧ _))

/-- Two names are the same but for the case of ASCII letters. -/
def SameName (a b : String) : Prop := List.Forall₂ SameLetter a.toList b.toList

instance (a b : String) : Decidable (SameName a b) :=
  inferInstanceAs (Decidable (List.Forall₂ SameLetter a.toList b.toList))

theorem isUpper_iff {c : Char} : c.isUpper = true ↔ 65 ≤ c.toNat ∧ c.toNat ≤ 90 := by
  rw [Char.isUpper, decide_eq_true_iff]
  exact Iff.rfl

theorem toNat_toLower (c : Char) :
    c.toLower.toNat = if 65 ≤ c.toNat ∧ c.toNat ≤ 90 then c.toNat + 32 else c.toNat := by
  unfold Char.toLower
  split
  · next hc =>
    have hupper : 65 ≤ c.toNat ∧ c.toNat ≤ 90 := hc
    have hsum : (c.val + ('a'.val - 'A'.val)).toNat = (c.toNat + 32) % 2 ^ 32 := rfl
    rw [if_pos hupper]
    show (c.val + ('a'.val - 'A'.val)).toNat = c.toNat + 32
    rw [hsum]
    omega
  · next hc =>
    have hupper : ¬ (65 ≤ c.toNat ∧ c.toNat ≤ 90) := hc
    rw [if_neg hupper]

theorem toLower_eq_iff {a b : Char} : a.toLower = b.toLower ↔ SameLetter a b := by
  have ha := toNat_toLower a
  have hb := toNat_toLower b
  rw [SameLetter, isUpper_iff, isUpper_iff, ← Char.toNat_inj, ← Char.toNat_inj, ha, hb]
  split <;> split <;> omega

theorem foldCase_eq_iff {a b : String} : foldCase a = foldCase b ↔ SameName a b := by
  rw [foldCase, foldCase, ← String.toList_inj, String.toList_map, String.toList_map, SameName]
  generalize a.toList = as
  generalize b.toList = bs
  induction as generalizing bs with
  | nil => cases bs <;> simp
  | cons x as ih =>
    cases bs with
    | nil => simp
    | cons y bs =>
      rw [List.map_cons, List.map_cons, List.cons.injEq, toLower_eq_iff, ih, List.forall₂_cons]

/-- What is done to scopes. -/
inductive Change (β : Type) where
  | openIn (parent : ScopeId)
  | define (name : String) (body : β) (scope : ScopeId)

namespace Change

variable {β : Type}

def parent? : Change β → Option ScopeId
  | openIn p => some p
  | define .. => none

/-- The body that a change gives to a name in a scope. -/
def body? (name : String) (scope : ScopeId) : Change β → Option β
  | openIn _ => none
  | define n body i => if i = scope ∧ SameName n name then some body else none

/-- The scopes that were opened in, in the order of the opening. -/
def parents (changes : List (Change β)) : List ScopeId := changes.filterMap parent?

/-- The last body that a name was given in a scope. -/
def lastBody? (changes : List (Change β)) (name : String) (scope : ScopeId) : Option β :=
  (changes.filterMap (body? name scope)).getLast?

theorem parents_openIn (changes : List (Change β)) (p : ScopeId) :
    parents (changes ++ [openIn p]) = parents changes ++ [p] := List.filterMap_append

theorem parents_define (changes : List (Change β)) (name : String) (body : β) (i : ScopeId) :
    parents (changes ++ [define name body i]) = parents changes := by
  rw [parents, List.filterMap_append]
  exact List.append_nil _

theorem lastBody?_openIn (changes : List (Change β)) (p : ScopeId) (name : String)
    (i : ScopeId) : lastBody? (changes ++ [openIn p]) name i = lastBody? changes name i := by
  rw [lastBody?, List.filterMap_append]
  exact congrArg List.getLast? (List.append_nil _)

theorem lastBody?_define (changes : List (Change β)) (n : String) (body : β) (j : ScopeId)
    (name : String) (i : ScopeId) :
    lastBody? (changes ++ [define n body j]) name i =
      if j = i ∧ SameName n name then some body else lastBody? changes name i := by
  have hlast : [define n body j].filterMap (body? name i) =
      (if j = i ∧ SameName n name then some body else none).toList := by
    by_cases h : j = i ∧ SameName n name <;> simp [body?, h]
  rw [lastBody?, List.filterMap_append, List.getLast?_append, hlast]
  split <;> rfl

end Change

namespace Scopes

open Change

variable {β : Type}

/-- Scopes after some changes, and the ids that were given out on the way.  No
change uses another id. -/
inductive Built : List (Change β) → List ScopeId → Scopes β → Prop where
  | new : Built [] [root] initial
  | openIn {changes : List (Change β)} {ids : List ScopeId} {s : Scopes β} {p : ScopeId}
    (h : Built changes ids s) (hp : p ∈ ids) :
    Built (changes ++ [.openIn p]) (ids ++ [(s.openIn p).1]) (s.openIn p).2
  | define {changes : List (Change β)} {ids : List ScopeId} {s : Scopes β} {i : ScopeId}
    (h : Built changes ids s) (name : String) (body : β) (hi : i ∈ ids) :
    Built (changes ++ [.define name body i]) ids (s.define name body i)

section

variable {changes : List (Change β)} {ids : List ScopeId} {s : Scopes β}

/-- The ids given out are those of the scopes there are. -/
theorem Built.mem_ids_iff (h : Built changes ids s) {i : ScopeId} : i ∈ ids ↔ i < s.size := by
  induction h with
  | new => simp [root, initial, size]
  | openIn _ _ ih =>
    rw [List.mem_append, ih, List.mem_singleton, openIn_fst, size_openIn]
    exact Nat.lt_succ_iff_lt_or_eq.symm
  | define _ _ _ _ ih => rw [size_define, ih]

theorem Built.ordered (h : Built changes ids s) : s.Ordered := by
  induction h with
  | new => exact ordered_initial
  | openIn h hp ih => exact ih.openIn (h.mem_ids_iff.1 hp)
  | define _ name body _ ih => exact ih.define name body _

theorem Built.size_eq (h : Built changes ids s) : s.size = (parents changes).length + 1 := by
  induction h with
  | new => rfl
  | openIn _ _ ih => rw [size_openIn, ih, parents_openIn, List.length_append, List.length_singleton]
  | define _ _ _ _ ih => rw [size_define, ih, parents_define]

/-- The root has no parent, and the others were opened one by one. -/
theorem Built.parent?_eq (h : Built changes ids s) (i : ScopeId) :
    s.parent? i = if i = root then none else (parents changes)[i - 1]? := by
  induction h with
  | new =>
    cases i with
    | zero => rfl
    | succ i => simp [initial, parent?, root, parents]
  | @openIn changes ids s p h hp ih =>
    have hsize := h.size_eq
    have hroot : root = 0 := rfl
    rw [parent?_openIn, parents_openIn, ih, hroot]
    by_cases hi : i = s.size
    · have hlast : i - 1 = (parents changes).length := by rw [hi, hsize]; rfl
      have hne : i ≠ 0 := by rw [hi, hsize]; exact Nat.succ_ne_zero _
      rw [if_pos hi, if_neg hne, hlast, List.getElem?_concat_length]
    · rw [if_neg hi]
      split
      · rfl
      · next hne =>
        have hother : i - 1 ≠ (parents changes).length := by
          intro heq
          apply hi
          rw [hsize, ← heq, Nat.sub_add_cancel (Nat.pos_of_ne_zero hne)]
        rw [List.getElem?_append]
        split
        · rfl
        · next hge =>
          rw [List.getElem?_eq_none (Nat.le_of_not_lt hge), List.getElem?_eq_none]
          rw [List.length_singleton]
          exact Nat.sub_pos_of_lt (Nat.lt_of_le_of_ne (Nat.le_of_not_lt hge) hother.symm)
  | define _ _ _ _ ih => rw [parent?_define, parents_define, ih]

theorem Built.binding?_eq (h : Built changes ids s) (name : String) (i : ScopeId) :
    s.binding? i (foldCase name) = lastBody? changes name i := by
  induction h with
  | new => cases i <;> simp [binding?, initial, lastBody?]
  | openIn _ _ ih => rw [binding?_openIn, ih, lastBody?_openIn]
  | @define changes ids s j h n body hj ih =>
    have hkey : foldCase name = foldCase n ↔ SameName n name :=
      eq_comm.trans foldCase_eq_iff
    have hlt := h.mem_ids_iff.1 hj
    rw [binding?_define, ih, lastBody?_define]
    simp only [hkey, hlt, true_and]

/-- A lookup goes to the nearest scope that was given a body for the name. -/
theorem Built.resolve?_eq (h : Built changes ids s) (name : String) (i : ScopeId) :
    s.resolve? name i = (s.chain i).findSome? (lastBody? changes name) := by
  rw [resolve?, find?_eq_findSome?]
  congr 1
  funext j
  exact h.binding?_eq name j

theorem Ordered.chain_eq (hs : s.Ordered) {i : ScopeId} (hi : i < s.size) :
    s.chain i = i :: ((s.parent? i).map s.chain).getD [] := by
  rw [chain_of_lt hi]
  cases hp : s.parent? i with
  | none => rfl
  | some p => simp only [if_pos (hs i p hp), Option.map_some, Option.getD_some]

end

/-- A search through a list where one element has got a new answer finds the new one
if no element before it has any answer. -/
theorem findSome?_of_update {f g : ScopeId → Option β} {t : ScopeId} {b : β} (ht : g t = some b)
    (hne : ∀ j, j ≠ t → g j = f j) (l : List ScopeId) :
    l.findSome? g = if t ∈ l ∧ ∀ j ∈ l.takeWhile (· ≠ t), f j = none then some b
      else l.findSome? f := by
  induction l with
  | nil => simp
  | cons j l ih =>
    by_cases hj : j = t
    · subst hj
      simp [ht]
    · rw [List.findSome?_cons, List.findSome?_cons, hne j hj]
      cases hf : f j with
      | some a => simp [hj, hf]
      | none => simp [hj, hf, ih, Ne.symm hj]

/-- The scopes are a lexical environment with the given history. -/
structure IsEnvironment (changes : List (Change β)) (ids : List ScopeId) (s : Scopes β) :
    Prop where
  parent_eq : ∀ i, s.parent? i = if i = root then none else (parents changes)[i - 1]?
  parent_lt : ∀ i p, s.parent? i = some p → p < i
  chain_eq : ∀ i ∈ ids, s.chain i = i :: ((s.parent? i).map s.chain).getD []
  /-- A lookup that follows the parents ends, after as many scopes as are as old. -/
  ends : ∀ i ∈ ids, ∀ name, s.search? (foldCase name) (i + 1) i = some (s.resolve? name i)
  resolves : ∀ i ∈ ids, ∀ name,
    s.resolve? name i = (s.chain i).findSome? (lastBody? changes name)
  define : ∀ t ∈ ids, ∀ i ∈ ids, ∀ name body m,
    (s.define name body t).resolve? m i =
      if SameName name m ∧ t ∈ s.chain i ∧
          ∀ j ∈ (s.chain i).takeWhile (· ≠ t), lastBody? changes m j = none then some body
      else s.resolve? m i
  openIn : ∀ p ∈ ids, ∀ i ∈ ids, ∀ m, (s.openIn p).2.resolve? m i = s.resolve? m i

/-- Scopes that are opened and filled in any order, each of them by an id that was
given out, are a lexical environment: parents are older, so every lookup ends; it
finds the last body that the nearest scope on the way to the root was given for the
name, in any ASCII case; a new body is found where its scope is that nearest one, and
nowhere else; and a new scope changes nothing for the others. -/
theorem isEnvironment_of_built {changes : List (Change β)} {ids : List ScopeId} {s : Scopes β}
    (h : Built changes ids s) : IsEnvironment changes ids s := by
  have hids {i : ScopeId} (hi : i ∈ ids) : i < s.size := h.mem_ids_iff.1 hi
  refine ⟨h.parent?_eq, h.ordered, fun i hi => h.ordered.chain_eq (hids hi), fun i hi name => ?_,
    fun i _ name => h.resolve?_eq name i, fun t ht i hi name body m => ?_, fun p hp i hi m => ?_⟩
  · exact search?_eq h.ordered _ (hids hi) (Nat.lt_succ_self i)
  · have hafter := (h.define name body ht).resolve?_eq m i
    rw [hafter, chain_define, h.resolve?_eq m i]
    by_cases hname : SameName name m
    · have hself : lastBody? (changes ++ [.define name body t]) m t = some body := by
        rw [lastBody?_define, if_pos ⟨rfl, hname⟩]
      have hother (j : ScopeId) (hj : j ≠ t) :
          lastBody? (changes ++ [.define name body t]) m j = lastBody? changes m j := by
        rw [lastBody?_define, if_neg (fun heq => hj heq.1.symm)]
      rw [findSome?_of_update hself hother]
      simp only [hname, true_and]
    · have hsame : lastBody? (changes ++ [.define name body t]) m = lastBody? changes m := by
        funext j
        rw [lastBody?_define, if_neg (fun heq => hname heq.2)]
      rw [hsame, if_neg (fun heq => hname heq.1)]
  · have hafter := (h.openIn hp).resolve?_eq m i
    have hsame : lastBody? (changes ++ [.openIn p]) m = lastBody? changes m := by
      funext j
      exact lastBody?_openIn ..
    rw [hafter, chain_openIn_of_lt p (hids hi), hsame, h.resolve?_eq m i]

/-- The body of the root is replaced while an inner scope hides it.  A scope beside the
inner one finds the later body, and a letter outside ASCII keeps its case. -/
theorem isEnvironment_rebound : ∃ s : Scopes Nat,
    Built [.define "Clé" 1 0, .openIn 0, .define "clé" 2 1, .openIn 0, .define "CLÉ" 3 0,
      .define "CLé" 4 0] [0, 1, 2] s ∧
    s.resolve? "CLé" 1 = some 2 ∧ s.resolve? "CLé" 2 = some 4 ∧ s.resolve? "clÉ" 2 = some 3 ∧
    (s.define "clé" 5 0).resolve? "clé" 1 = some 2 := by
  obtain ⟨s, hbuilt⟩ : ∃ s : Scopes Nat,
      Built [.define "Clé" 1 0, .openIn 0, .define "clé" 2 1, .openIn 0, .define "CLÉ" 3 0,
        .define "CLé" 4 0] [0, 1, 2] s := by
    have hnew : Built [] [0] (initial : Scopes Nat) := .new
    have hinner := (hnew.define "Clé" 1 (i := 0) (by decide)).openIn (p := 0) (by decide)
    have hbeside := (hinner.define "clé" 2 (i := 1) (by decide)).openIn (p := 0) (by decide)
    have hrebound := hbeside.define "CLÉ" 3 (i := 0) (by decide)
    exact ⟨_, hrebound.define "CLé" 4 (i := 0) (by decide)⟩
  have henv := isEnvironment_of_built hbuilt
  have hchain0 : s.chain 0 = [0] := by
    rw [henv.chain_eq 0 (by decide), henv.parent_eq]
    rfl
  have hchain1 : s.chain 1 = [1, 0] := by
    have hparent : s.parent? 1 = some 0 := henv.parent_eq 1
    rw [henv.chain_eq 1 (by decide), hparent, Option.map_some, hchain0]
    rfl
  have hchain2 : s.chain 2 = [2, 0] := by
    have hparent : s.parent? 2 = some 0 := henv.parent_eq 2
    rw [henv.chain_eq 2 (by decide), hparent, Option.map_some, hchain0]
    rfl
  refine ⟨s, hbuilt, ?_, ?_, ?_, ?_⟩
  · rw [henv.resolves 1 (by decide), hchain1]
    decide
  · rw [henv.resolves 2 (by decide), hchain2]
    decide
  · rw [henv.resolves 2 (by decide), hchain2]
    decide
  · rw [henv.define 0 (by decide) 1 (by decide), hchain1, henv.resolves 1 (by decide), hchain1]
    decide

end Scopes
end Lineage
