import Mathlib.Data.List.TakeWhile
import Lineage.Proofs.Hive.Grammar
import Lineage.Proofs.Outline
import Lineage.Proofs.Text.Lines

/-
Dumps are read by indentation.

Every line that is not blank is one node.  Its parent is the nearest earlier line
that is indented less, in bytes, and the lines are the nodes in preorder.  A line
with too many ancestors is refused by its number, the first one of them.
-/

namespace Lineage
namespace Hive

open Outline

/-- The lines that are not blank, each with its number, counted from one. -/
def nonBlankLines (text : List Char) : List (List Char × Nat) :=
  ((Text.lines text).zipIdx 1).filter fun line => !(Text.trim line.1).isEmpty

/-- The bytes of a line in front of its label. -/
def indentation (line : List Char) : Nat :=
  Text.byteCount line - Text.byteCount (Text.trimStart line)

def lineNode (line : List Char) : Tree Token := nodeOf (String.ofList (Text.trim line)) []

def indentations (text : List Char) : List Nat :=
  (nonBlankLines text).map fun line => indentation line.1

theorem dumpLines_eq (text : List Char) :
    dumpLines text = (nonBlankLines text).map fun line =>
      ⟨line.2, indentation line.1, (lineNode line.1).label, (lineNode line.1).text⟩ := by
  rw [dumpLines, nonBlankLines, List.zipIdx_succ, List.filter_map, List.map_map,
    ← List.filterMap_eq_map, List.filterMap_filter]
  congr 1
  funext line
  obtain ⟨line, index⟩ := line
  show (if (Text.trim line).isEmpty then none else some _) =
    if !(Text.trim line).isEmpty then some _ else none
  cases (Text.trim line).isEmpty with
  | true => rfl
  | false =>
    simp only [Function.comp_apply, indentation, ← Text.byteCount_takeWhile]
    rfl

theorem map_indent_dumpLines (text : List Char) :
    (dumpLines text).map (·.entry.indent) = indentations text := by
  rw [dumpLines_eq, List.map_map]
  rfl

theorem map_entry_dumpLines (text : List Char) :
    (dumpLines text).map (·.entry) =
      ((Text.lines text).filter fun line => !(Text.trim line).isEmpty).map fun line =>
        ⟨indentation line, (lineNode line).label, (lineNode line).text⟩ := by
  have hlines : (nonBlankLines text).map Prod.fst =
      (Text.lines text).filter fun line => !(Text.trim line).isEmpty := by
    have hnumbered := List.zipIdx_map_fst 1 (Text.lines text)
    rw [nonBlankLines, ← hnumbered, List.filter_map, hnumbered]
    rfl
  rw [dumpLines_eq, List.map_map, ← hlines, List.map_map]
  rfl

/-- A text that is not blank has a line that is not blank. -/
theorem nonBlankLines_ne_nil {text more : List Char} {first : Char}
    (h : Text.trimStart text = first :: more) : nonBlankLines text ≠ [] := by
  have hfirst : Text.isBlank first = false := by
    have hhead := List.head?_dropWhile_not Text.isBlank text
    rw [Text.trimStart] at h
    rw [h] at hhead
    simpa using hhead
  have hmem : first ∈ text := by
    apply (List.dropWhile_sublist Text.isBlank).subset
    show first ∈ Text.trimStart text
    rw [h]
    exact List.mem_cons_self
  have hfeed : first ≠ '\n' := by rintro rfl; exact absurd hfirst (by decide)
  have hreturn : first ≠ '\r' := by rintro rfl; exact absurd hfirst (by decide)
  obtain ⟨line, hline, hin⟩ := Text.exists_mem_lines hfeed hreturn hmem
  obtain ⟨place, hplace, rfl⟩ := List.getElem_of_mem hline
  have hnonBlank : ((Text.lines text)[place], 1 + place) ∈ nonBlankLines text := by
    refine List.mem_filter.2 ⟨?_, ?_⟩
    · rw [List.mk_mem_zipIdx_iff_le_and_getElem?_sub, Nat.add_sub_cancel_left]
      exact ⟨Nat.le_add_right 1 place, List.getElem?_eq_getElem hplace⟩
    · rw [Bool.not_eq_true', List.isEmpty_eq_false_iff]
      intro hnil
      rw [Text.trim_eq_nil_iff.1 hnil first hin] at hfirst
      exact absurd hfirst (by decide)
  exact List.ne_nil_of_mem hnonBlank

theorem readTree_eq_readDump (limit : Nat) {text : String} {first : Char} {more : List Char}
    (h : Text.trimStart text.toList = first :: more) (hfirst : first ≠ '(') :
    readTree limit text = readDump limit text.toList := by
  rw [readTree]
  simp only [h]
  split
  · next heq => exact absurd heq (by simp)
  · next heq => exact absurd (List.cons.inj heq).1 hfirst
  · rfl

/-- What the reader of dumps does, by the ancestors of the lines. -/
theorem readDump_eq (limit : Nat) {text : List Char} (h : nonBlankLines text ≠ []) :
    readDump limit text =
      match (ancestries (indentations text)).findIdx? (limit ≤ ·.length) with
      | some place => .error (.tooDeep limit (((nonBlankLines text)[place]?.map (·.2)).getD 0))
      | none => .ok (joinForest (forest ((dumpLines text).map (·.entry)))) := by
  have hlines : (dumpLines text).isEmpty = false := by
    rw [List.isEmpty_eq_false_iff, dumpLines_eq]
    exact fun hnil => h (List.map_eq_nil_iff.1 hnil)
  have hnumber (place : Nat) : (dumpLines text)[place]?.map (·.number) =
      (nonBlankLines text)[place]?.map (·.2) := by
    rw [dumpLines_eq, List.getElem?_map, Option.map_map]
    rfl
  rw [readDump, map_indent_dumpLines, tooDeep?_eq]
  simp only [hlines, hnumber]
  rfl

/-- What the reader of dumps does, by the levels of the forest. -/
theorem readDump_of_levels (limit : Nat) {text : List Char} (h : nonBlankLines text ≠ [])
    {ts : List (Tree Token)} (hts : forest ((dumpLines text).map (·.entry)) = ts) :
    (Tree.levelsAll ts ≤ limit → readDump limit text = .ok (joinForest ts)) ∧
    (limit < Tree.levelsAll ts → ∃ line, readDump limit text = .error (.tooDeep limit line)) := by
  have hancestries : Tree.ancestriesAll [] 0 ts = ancestries (indentations text) := by
    rw [← hts, (forest_spec _).2, List.map_map]
    exact congrArg ancestries (map_indent_dumpLines text)
  have hlevels := Tree.levelsAll_le_iff limit [] 0 ts (Nat.zero_le limit)
  rw [hancestries, List.length_nil, Nat.zero_add] at hlevels
  rw [readDump_eq limit h, hts]
  cases hfind : (ancestries (indentations text)).findIdx? (limit ≤ ·.length) with
  | none =>
    have hall : Tree.levelsAll ts ≤ limit := by
      rw [hlevels]
      intro a ha
      have hfalse := List.findIdx?_eq_none_iff.1 hfind a ha
      exact Nat.lt_of_not_le (of_decide_eq_false hfalse)
    exact ⟨fun _ => rfl, fun hlt => absurd hall (Nat.not_le.2 hlt)⟩
  | some place =>
    obtain ⟨hplace, hdeep, -⟩ := List.findIdx?_eq_some_iff_getElem.1 hfind
    have hsome : ¬ Tree.levelsAll ts ≤ limit := by
      rw [hlevels]
      intro hall
      have hlt := hall _ (List.getElem_mem hplace)
      have hle := of_decide_eq_true hdeep
      omega
    exact ⟨fun hle => absurd hle hsome, fun _ => ⟨_, rfl⟩⟩

theorem length_indentations (text : List Char) :
    (indentations text).length = (nonBlankLines text).length := List.length_map _

theorem length_ancestries (indents : List Nat) : (ancestries indents).length = indents.length := by
  rw [ancestries, List.length_map, List.length_range]

theorem getElem_ancestries {indents : List Nat} {place : Nat}
    (h : place < (ancestries indents).length) :
    (ancestries indents)[place] = ancestors indents place := by
  simp [ancestries]

/-- A text that starts with anything but a parenthesis is read as a dump.  Its forest
has the lines that are not blank for its nodes, in preorder, and the parent of a line
is the nearest earlier one that is indented less, if there is one.  It is refused where
a line has as many ancestors as the limit, by the number of the first such line, and
never as an empty text. -/
theorem readTree_dump (limit : Nat) (text : String) {first : Char} {more : List Char}
    (h : Text.trimStart text.toList = first :: more) (hfirst : first ≠ '(') :
    let lines := nonBlankLines text.toList
    let indents := indentations text.toList
    ((∀ place < lines.length, (ancestors indents place).length < limit) →
      ∃ forest, readTree limit text = .ok (joinForest forest) ∧
        (Tree.partsAll forest).map (fun t => (t.label, t.text)) =
          lines.map (fun line => ((lineNode line.1).label, (lineNode line.1).text)) ∧
        Tree.parents forest = (List.range lines.length).map (parent? indents)) ∧
    (∀ place, (hplace : place < lines.length) → limit ≤ (ancestors indents place).length →
      (∀ earlier < place, (ancestors indents earlier).length < limit) →
      readTree limit text = .error (.tooDeep limit lines[place].2)) ∧
    readTree limit text = readDump limit text.toList ∧ readDump limit text.toList ≠ .error .empty := by
  intro lines indents
  have hlines : lines ≠ [] := nonBlankLines_ne_nil h
  have hread : readTree limit text = readDump limit text.toList :=
    readTree_eq_readDump limit h hfirst
  have hlength : (ancestries indents).length = lines.length :=
    (length_ancestries _).trans (length_indentations _)
  have hdump := readDump_eq limit hlines
  refine ⟨fun hall => ?_, fun place hplace hdeep hearlier => ?_, hread, ?_⟩
  · have hnone : (ancestries indents).findIdx? (limit ≤ ·.length) = none := by
      rw [List.findIdx?_eq_none_iff]
      intro a ha
      obtain ⟨place, hplace, rfl⟩ := List.mem_map.1 ha
      rw [List.mem_range, length_indentations] at hplace
      exact decide_eq_false (Nat.not_le.2 (hall place hplace))
    obtain ⟨hnodes, hancestors⟩ := forest_spec ((dumpLines text.toList).map (·.entry))
    rw [List.map_map] at hancestors
    have hindents : (dumpLines text.toList).map ((·.indent) ∘ (·.entry)) = indents :=
      map_indent_dumpLines text.toList
    refine ⟨_, by rw [hread, hdump, hnone], ?_, ?_⟩
    · rw [hnodes, dumpLines_eq, List.map_map, List.map_map]
      rfl
    · rw [Tree.parents, hancestors, hindents, ancestries, List.map_map, length_indentations]
      exact List.map_congr_left fun place _ => head?_ancestors indents place
  · have hsome : (ancestries indents).findIdx? (limit ≤ ·.length) = some place := by
      rw [List.findIdx?_eq_some_iff_getElem]
      refine ⟨hlength ▸ hplace, ?_, fun earlier hlt => ?_⟩
      · rw [getElem_ancestries]
        exact decide_eq_true hdeep
      · rw [getElem_ancestries]
        exact Bool.eq_false_iff.1 (decide_eq_false (Nat.not_le.2 (hearlier earlier hlt)))
    have hnumber : ((nonBlankLines text.toList)[place]?.map (·.2)).getD 0 = lines[place].2 := by
      rw [List.getElem?_eq_getElem hplace]
      rfl
    rw [hread, hdump, hsome]
    simp only [hnumber]
  · rw [hdump]
    split <;> simp

/-- Blank lines, two kinds of line end, and a dedent to where no earlier line stands. -/
def irregularDump : String := "  a\n\n     `b c`\r\n    nil\n d"

theorem nonBlankLines_irregularDump : nonBlankLines irregularDump.toList =
    [([' ', ' ', 'a'], 1), ([' ', ' ', ' ', ' ', ' ', '\x60', 'b', ' ', 'c', '\x60'], 3),
      ([' ', ' ', ' ', ' ', 'n', 'i', 'l'], 4), ([' ', 'd'], 5)] := by
  cbv

theorem indentations_irregularDump : indentations irregularDump.toList = [2, 5, 4, 1] := by
  rw [indentations, nonBlankLines_irregularDump]
  rfl

theorem readTree_irregularDump :
    ∃ forest, readTree 2 irregularDump = .ok (joinForest forest) ∧
      (Tree.partsAll forest).map (fun t => (t.label, t.text)) =
        [(.atom "a", some "a"), (.atom "`b c`", some "b c"), (.nil, none), (.atom "d", some "d")] ∧
      Tree.parents forest = [none, some 0, some 0, none] := by
  have hdepth : ∀ place < 4, (ancestors [2, 5, 4, 1] place).length < 2 := by
    intro place hplace
    have hmem : ancestors [2, 5, 4, 1] place ∈ ancestries [2, 5, 4, 1] :=
      List.mem_map_of_mem (List.mem_range.2 hplace)
    rw [ancestries_eq_behind] at hmem
    have hall : ∀ a ∈ ancestriesBehind [] [2, 5, 4, 1], a.length < 2 := by decide
    exact hall _ hmem
  have hread := (readTree_dump 2 irregularDump rfl (by decide)).1
  rw [nonBlankLines_irregularDump, indentations_irregularDump] at hread
  obtain ⟨forest, hok, hnodes, hparents⟩ := hread hdepth
  exact ⟨forest, hok, hnodes, hparents⟩

end Hive
end Lineage
