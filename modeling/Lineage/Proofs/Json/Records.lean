import Mathlib
import Lineage.Proofs.Json.Strings

/-
Records read back from their compact form.

The names of both lists are given as they are written, repeats included, and a list
with an empty name is refused for it.
-/

namespace Lineage
namespace Json

open Reader

/-- The members that a record's object has, for any strings. -/
def recordOf (targets sources : List String) : Json :=
  .obj [("targets", .arr (targets.map .str)), ("sources", .arr (sources.map .str))]

/-- The items of a list of strings; a comma stands before each but the first. -/
def itemChars : Bool → List String → List Char
  | _, [] => []
  | first, s :: ss => (if first then [] else [',']) ++ ((quote s).toList ++ itemChars false ss)

def memberChars (first : Bool) (key : String) (ss : List String) : List Char :=
  (if first then [] else [',']) ++
    ((quote key).toList ++ ':' :: '[' :: (itemChars true ss ++ [']']))

/-- A record's object behind its opening brace. -/
def objectChars (targets sources : List String) : List Char :=
  memberChars true "targets" targets ++ (memberChars false "sources" sources ++ ['\x7d'])

theorem length_le_itemChars (first : Bool) (ss : List String) :
    ss.length ≤ (itemChars first ss).length := by
  induction ss generalizing first with
  | nil => exact Nat.le_refl _
  | cons s ss ih =>
    have hle := ih false
    rw [itemChars, toList_quote]
    simp only [List.length_append, List.length_cons]
    omega

theorem toList_intercalate_quote (ss : List String) :
    (",".intercalate (ss.map quote)).toList = itemChars true ss := by
  have hrest (s : String) (ss : List String) :
      (",".intercalate (quote s :: ss.map quote)).toList =
        (quote s).toList ++ itemChars false ss := by
    induction ss generalizing s with
    | nil => rw [List.map_nil, String.intercalate_singleton, itemChars, List.append_nil]
    | cons t ss ih =>
      rw [List.map_cons, String.intercalate_cons_cons, String.toList_append, String.toList_append,
        ih t, List.append_assoc]
      rfl
  cases ss with
  | nil => rfl
  | cons s ss => exact hrest s ss

theorem toList_compact_strings (ss : List String) :
    (Json.arr (ss.map .str)).compact.toList = '[' :: (itemChars true ss ++ [']']) := by
  have hitems : compactItems (ss.map .str) = ss.map quote := by
    induction ss with
    | nil => rfl
    | cons s ss ih => rw [List.map_cons, compactItems, compact, ih, List.map_cons]
  rw [compact, hitems, String.toList_append, String.toList_append, toList_intercalate_quote]
  rfl

theorem toList_compact_recordOf (targets sources : List String) :
    (recordOf targets sources).compact.toList = '\x7b' :: objectChars targets sources := by
  rw [recordOf, compact, compactMembers, compactMembers, compactMembers,
    String.intercalate_cons_cons, String.intercalate_singleton]
  simp only [String.toList_append, toList_compact_strings, objectChars, memberChars]
  simp

namespace Reader

theorem isSpace_quote : Cursor.isSpace '"' = false := by decide

theorem quote_append (s : String) (rest : List Char) :
    (quote s).toList ++ rest = '"' :: (s.toList.flatMap escapeChars ++ '"' :: rest) := by
  rw [toList_quote, List.cons_append, List.append_assoc]
  rfl

/-- A string is read for a name, and refused only if it is empty. -/
theorem leads_name (s : String) (rest : List Char) :
    Leads name (match QualifiedName.ofString? s with
      | none => failInside .emptyName
      | some n => return n) ((quote s).toList ++ rest) rest := by
  rw [quote_append]
  refine ((gives_peek isSpace_quote _).leads _).trans ?_
  exact ((gives_advance _ _).leads _).trans ((gives_stringBody s rest).leads _)

theorem gives_name (n : QualifiedName) (rest : List Char) :
    Gives name ((quote n.text).toList ++ rest) rest n := by
  have hn : QualifiedName.ofString? n.text = some n := QualifiedName.ofString?_eq_some_iff.2 rfl
  have hlead := leads_name n.text rest
  rw [hn] at hlead
  exact hlead.gives (gives_pure n rest)

theorem refuses_name (rest : List Char) : Refuses name ((quote "").toList ++ rest) .emptyName := by
  have hn : QualifiedName.ofString? "" = none := QualifiedName.ofString?_eq_none_iff.2 rfl
  have hlead := leads_name "" rest
  rw [hn] at hlead
  exact hlead.refuses fun p => ⟨none, ⟨rest, p⟩, rfl⟩

theorem gives_moreItems_end (first : Bool) (rest : List Char) :
    Gives (moreItems first) (']' :: rest) (']' :: rest) false :=
  (gives_peek (by decide) rest).bind (gives_pure false _)

theorem gives_moreItems (first : Bool) (s : String) (ss : List String) (rest : List Char) :
    Gives (moreItems first) (itemChars first (s :: ss) ++ rest)
      ((quote s).toList ++ (itemChars false ss ++ rest)) true := by
  have hfirst (text : List Char) : Gives (moreItems true) ('"' :: text) ('"' :: text) true :=
    (gives_peek isSpace_quote text).bind (gives_pure true _)
  have hnext (text : List Char) : Gives (moreItems false) (',' :: '"' :: text) ('"' :: text) true :=
    (gives_peek (by decide) _).bind ((gives_advance _ _).bind
      ((gives_peek isSpace_quote text).bind (gives_pure true _)))
  rw [itemChars, toList_quote]
  cases first with
  | true => simpa using hfirst _
  | false => simpa using hnext _

theorem exists_names {ss : List String} (h : "" ∉ ss) :
    ∃ ns : List QualifiedName, ns.map (·.text) = ss :=
  ⟨ss.pmap QualifiedName.mk (fun s hs heq => h (heq ▸ hs)), by simp [List.map_pmap]⟩

/-- A list of names is given as it is written, repeats included. -/
theorem gives_namesFrom (ns : List QualifiedName) (rest : List Char) :
    ∀ {limit : Nat} (done : List QualifiedName), ns.length < limit →
      Gives (namesFrom limit done)
        (itemChars done.isEmpty (ns.map (·.text)) ++ ']' :: rest) (']' :: rest)
        (done.reverse ++ ns) := by
  induction ns with
  | nil =>
    intro limit done hlimit
    obtain ⟨limit, rfl⟩ := Nat.exists_eq_add_one_of_ne_zero (Nat.ne_of_gt hlimit)
    rw [namesFrom, List.append_nil]
    exact (gives_moreItems_end _ rest).bind (gives_pure _ _)
  | cons n ns ih =>
    intro limit done hlimit
    obtain ⟨limit, rfl⟩ := Nat.exists_eq_add_one_of_ne_zero (Nat.ne_zero_of_lt hlimit)
    have hnext := @ih limit (n :: done) (Nat.lt_of_succ_lt_succ hlimit)
    rw [List.reverse_cons, List.append_assoc, List.singleton_append] at hnext
    rw [namesFrom, List.map_cons]
    exact (gives_moreItems _ _ _ _).bind ((gives_name n _).bind hnext)

/-- A list of strings with an empty one among them is no list of names. -/
theorem refuses_namesFrom {ss : List String} (rest : List Char) (h : "" ∈ ss) :
    ∀ {limit : Nat} (done : List QualifiedName), ss.length < limit →
      Refuses (namesFrom limit done) (itemChars done.isEmpty ss ++ ']' :: rest) .emptyName := by
  induction ss with
  | nil => exact absurd h List.not_mem_nil
  | cons s ss ih =>
    intro limit done hlimit
    obtain ⟨limit, rfl⟩ := Nat.exists_eq_add_one_of_ne_zero (Nat.ne_zero_of_lt hlimit)
    rw [namesFrom]
    refine (gives_moreItems _ s ss _).bind_refuses ?_
    cases hs : QualifiedName.ofString? s with
    | none =>
      rw [QualifiedName.ofString?_eq_none_iff.1 hs]
      exact (refuses_name _).bind
    | some n =>
      obtain rfl := QualifiedName.ofString?_eq_some_iff.1 hs
      have hin : "" ∈ ss := (List.mem_cons.1 h).resolve_left (fun heq => n.text_ne heq.symm)
      exact (gives_name n _).bind_refuses (ih hin (n :: done) (Nat.lt_of_succ_lt_succ hlimit))

theorem gives_endList (rest : List Char) : Gives endList (']' :: rest) rest () :=
  (gives_peek (by decide) rest).bind (gives_advance _ _)

/-- Every item takes characters, so there are enough rounds for all of them. -/
theorem rounds_itemChars (ss : List String) (rest : List Char) :
    ss.length < (itemChars true ss ++ ']' :: rest).length + 1 := by
  have hle := length_le_itemChars true ss
  rw [List.length_append]
  omega

theorem gives_names (ns : List QualifiedName) (rest : List Char) :
    Gives names ('[' :: (itemChars true (ns.map (·.text)) ++ ']' :: rest)) rest ns := by
  have hlimit := rounds_itemChars (ns.map (·.text)) rest
  rw [List.length_map] at hlimit
  refine Gives.located ((gives_peek (by decide) _).bind ((gives_advance _ _).bind ?_))
  exact (gives_get _ fun p => gives_namesFrom ns rest [] hlimit).thenEnd (gives_endList rest)

theorem refuses_names {ss : List String} (h : "" ∈ ss) (rest : List Char) :
    Refuses names ('[' :: (itemChars true ss ++ ']' :: rest)) .emptyName := by
  have hitems := refuses_namesFrom rest h [] (rounds_itemChars ss rest)
  refine Refuses.located ((gives_peek (by decide) _).bind_refuses
    ((gives_advance _ _).bind_refuses ?_))
  exact (refuses_get _ fun p => hitems).thenEnd endList

/-! ## The two members -/

theorem memberChars_append (key : String) (ss : List String) (rest : List Char) :
    memberChars true key ss ++ rest =
      '"' :: (key.toList.flatMap escapeChars ++
        '"' :: ':' :: '[' :: (itemChars true ss ++ ']' :: rest)) := by
  rw [← quote_append]
  simp [memberChars]

theorem gives_moreMembers (first : Bool) (key : String) (ss : List String) (rest : List Char) :
    Gives (moreMembers first) (memberChars first key ss ++ rest)
      (memberChars true key ss ++ rest) true := by
  rw [memberChars_append]
  have hpeek := fun text => gives_peek isSpace_quote text
  cases first with
  | true =>
    rw [memberChars_append]
    exact (hpeek _).bind (gives_pure true _)
  | false =>
    have hcomma : memberChars false key ss ++ rest = ',' :: (memberChars true key ss ++ rest) := rfl
    rw [hcomma, memberChars_append]
    exact (gives_peek (by decide) _).bind ((gives_advance _ _).bind
      ((hpeek _).bind (gives_pure true _)))

theorem gives_colon (rest : List Char) : Gives colon (':' :: rest) rest () :=
  (gives_peek (by decide) rest).bind (gives_advance _ _)

theorem gives_endObject (rest : List Char) : Gives endObject ('\x7d' :: rest) rest () :=
  (gives_peek (by decide) rest).bind (gives_advance _ _)

theorem leads_key {α : Type} (first : Bool) (key : String) (ss : List String) (text : List Char)
    (f : String → Reader α) (g : Reader α) :
    Leads (do if ← moreMembers first then do advance; f (← stringBody) else g) (f key)
      (memberChars first key ss ++ text) (':' :: '[' :: (itemChars true ss ++ ']' :: text)) := by
  refine ((gives_moreMembers first key ss text).leads _).trans ?_
  rw [if_pos rfl, memberChars_append]
  exact ((gives_advance _ _).leads _).trans ((gives_stringBody key _).leads _)

section members

variable (limit : Nat) (ss : List String) (text : List Char)

/-- Behind the list of the targets the sources are read. -/
theorem leads_targets :
    Leads (membersFrom (limit + 1) true none none)
      (names >>= fun ns => membersFrom limit false (some ns) none)
      (memberChars true "targets" ss ++ text) ('[' :: (itemChars true ss ++ ']' :: text)) := by
  rw [membersFrom]
  refine (leads_key true "targets" ss text _ _).trans ?_
  rw [if_pos rfl]
  exact (gives_colon _).leads _

theorem leads_sources (ts : List QualifiedName) :
    Leads (membersFrom (limit + 1) false (some ts) none)
      (names >>= fun ns => membersFrom limit false (some ts) (some ns))
      (memberChars false "sources" ss ++ text) ('[' :: (itemChars true ss ++ ']' :: text)) := by
  rw [membersFrom]
  · refine (leads_key false "sources" ss text _ _).trans ?_
    rw [if_neg (by decide), if_pos rfl]
    exact (gives_colon _).leads _
  · exact fun hnone => Option.some_ne_none ts hnone

theorem gives_membersEnd (ts ns : List QualifiedName) :
    Gives (membersFrom (limit + 1) false (some ts) (some ns)) ('\x7d' :: text) ('\x7d' :: text)
      ⟨ts, ns⟩ := by
  have hmore : Gives (moreMembers false) ('\x7d' :: text) ('\x7d' :: text) false :=
    (gives_peek (by decide) text).bind (gives_pure false _)
  rw [membersFrom]
  exact hmore.bind (gives_pure _ _)

end members

section content

variable {targets sources : List String}

/-- There are enough rounds for both members and the end. -/
theorem rounds_objectChars (targets sources : List String) :
    3 ≤ (objectChars targets sources).length + 1 := by
  simp only [objectChars, memberChars, List.length_append, List.length_cons]
  omega

theorem gives_content (r : Record) {limit : Nat} (hlimit : 3 ≤ limit) :
    Gives (membersFrom limit true none none)
      (objectChars (r.targets.map (·.text)) (r.sources.map (·.text))) ['\x7d'] r := by
  obtain ⟨limit, rfl⟩ := Nat.exists_eq_add_of_le' hlimit
  refine (leads_targets _ _ _).gives ((gives_names r.targets _).bind ?_)
  refine (leads_sources _ _ _ _).gives ((gives_names r.sources _).bind ?_)
  exact gives_membersEnd limit [] r.targets r.sources

theorem refuses_content (h : "" ∈ targets ++ sources) {limit : Nat} (hlimit : 3 ≤ limit) :
    Refuses (membersFrom limit true none none) (objectChars targets sources) .emptyName := by
  obtain ⟨limit, rfl⟩ := Nat.exists_eq_add_of_le' hlimit
  refine (leads_targets _ _ _).refuses ?_
  by_cases htargets : "" ∈ targets
  · exact (refuses_names htargets _).bind
  have hsources : "" ∈ sources := (List.mem_append.1 h).resolve_left htargets
  obtain ⟨ts, rfl⟩ := exists_names htargets
  refine (gives_names ts _).bind_refuses ?_
  exact (leads_sources _ _ _ _).refuses (refuses_names hsources _).bind

theorem gives_record (r : Record) :
    Gives record ('\x7b' :: objectChars (r.targets.map (·.text)) (r.sources.map (·.text))) [] r := by
  have hcontent := gives_content r
    (rounds_objectChars (r.targets.map (·.text)) (r.sources.map (·.text)))
  refine Gives.located ((gives_peek (by decide) _).bind ((gives_advance _ _).bind ?_))
  exact (gives_get _ fun p => hcontent).thenEnd (gives_endObject [])

theorem refuses_record (h : "" ∈ targets ++ sources) :
    Refuses record ('\x7b' :: objectChars targets sources) .emptyName := by
  have hcontent := refuses_content h (rounds_objectChars targets sources)
  refine Refuses.located ((gives_peek (by decide) _).bind_refuses
    ((gives_advance _ _).bind_refuses ?_))
  exact (refuses_get _ fun p => hcontent).thenEnd endObject

end content

/-- A value with nothing but white space behind it. -/
def alone {α : Type} (r : Reader α) : Reader α := do
  let a ← r
  match ← peek with
  | none => return a
  | some _ => failAhead .trailingCharacters

section wholes

variable {α : Type} {r : Reader α} {text : String} {a : α} {cause : Cause}

theorem whole_eq (r : Reader α) (text : String) :
    whole r text = (alone r ⟨text.toList, ⟨1, 0⟩⟩).1 := rfl

theorem whole_of_gives (h : Gives r text.toList [] a) : whole r text = .ok a := by
  have hall : Gives (alone r) text.toList [] a := h.bind (gives_peek_end.bind (gives_pure a []))
  obtain ⟨p, hread⟩ := hall ⟨1, 0⟩
  rw [whole_eq, hread]

theorem whole_of_refuses (h : Refuses r text.toList cause) :
    ∃ place, whole r text = .error ⟨cause, place⟩ := by
  have hall : Refuses (alone r) text.toList cause := h.bind
  obtain ⟨place, c, hread⟩ := hall ⟨1, 0⟩
  exact ⟨place, by rw [whole_eq, hread]⟩

end wholes

end Reader
end Json

namespace Record

open Json

theorem toJson_eq (r : Record) :
    r.toJson = recordOf (r.targets.map (·.text)) (r.sources.map (·.text)) := by
  simp [toJson, members, recordOf, QualifiedName.toJson, Function.comp_def]

/-- Every record is read back from its compact form, repeats and all. -/
theorem ofJson_compact (r : Record) : ofJson r.toJson.compact = .ok r := by
  apply Reader.whole_of_gives
  rw [toJson_eq, toList_compact_recordOf]
  exact Reader.gives_record r

/-- No record is read where a name is empty. -/
theorem ofJson_of_empty {targets sources : List String} (h : "" ∈ targets ++ sources) :
    ∃ place, ofJson (recordOf targets sources).compact = .error ⟨.emptyName, place⟩ := by
  apply Reader.whole_of_refuses
  rw [toList_compact_recordOf]
  exact Reader.refuses_record h

end Record
end Lineage
