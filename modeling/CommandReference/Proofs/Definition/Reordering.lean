import CommandReference.Proofs.Compilation.Policies
import CommandReference.Proofs.Definition.Skipping

namespace CommandReference

/-! Where definitions stand does not matter. If their names differ, each round keeps the
definitions that it can encode and nothing else, and what it encodes them as depends on the
round before, not on what has been declared so far. So corpora that declare the same
definitions, in whatever order and files, have the same table. -/

open Markup (Element)
open DefinitionTable (declarations)

/-! ## The same definitions -/

/-- The corpora declare the same definitions, in whatever order and files. -/
def SameDefinitions (files others : List InterfaceFile) : Prop :=
  ((declarations files).map Prod.snd).Perm ((declarations others).map Prod.snd)

instance (files others : List InterfaceFile) : Decidable (SameDefinitions files others) :=
  inferInstanceAs (Decidable (List.Perm _ _))

variable {files others : List InterfaceFile} {declaration : Scope × Element}

theorem name_of_mem_declarations (member : declaration ∈ declarations files) :
    declaration.1.name = declaration.2.attributeOrEmpty "name" := by
  rcases mem_declarations_iff.mp member with ⟨_, _, _, _, rfl⟩
  rfl

theorem exists_declaration_iff (holds : String → Element → Prop) :
    (∃ declaration ∈ declarations files, holds declaration.1.name declaration.2) ↔
      ∃ element ∈ (declarations files).map Prod.snd,
        holds (element.attributeOrEmpty "name") element := by
  constructor
  · rintro ⟨declaration, member, here⟩
    exact ⟨declaration.2, List.mem_map_of_mem member, name_of_mem_declarations member ▸ here⟩
  · rintro ⟨_, inList, here⟩
    rcases List.mem_map.mp inList with ⟨declaration, member, rfl⟩
    exact ⟨declaration, member, (name_of_mem_declarations member).symm ▸ here⟩

namespace SameDefinitions

theorem exists_iff (same : SameDefinitions files others) (holds : String → Element → Prop) :
    (∃ declaration ∈ declarations files, holds declaration.1.name declaration.2) ↔
      ∃ declaration ∈ declarations others, holds declaration.1.name declaration.2 := by
  rw [exists_declaration_iff, exists_declaration_iff]
  exact exists_congr fun element => and_congr_left fun _ => same.mem_iff

theorem distinct (same : SameDefinitions files others) (distinct : DistinctDefinitions files) :
    DistinctDefinitions others := by
  have names (files : List InterfaceFile) :
      (declarations files).map (fun declaration => declaration.1.name) =
        ((declarations files).map Prod.snd).map (·.attributeOrEmpty "name") := by
    rw [List.map_map]
    exact List.map_congr_left fun _ => name_of_mem_declarations
  rw [DistinctDefinitions, names] at distinct ⊢
  exact (same.map _).nodup_iff.mp distinct

end SameDefinitions

/-! ## Both rounds -/

theorem get?_foldl_eq_some_iff (resolution : Resolution) (distinct : DistinctDefinitions files)
    {name : String} {items : List Item} :
    ((declarations files).foldl (addDeclared resolution) .empty).get? name = some items ↔
      ∃ declaration ∈ declarations files, declaration.1.name = name ∧
        encoding resolution declaration.2.children = some items := by
  constructor
  · intro found
    rw [get?_foldl_eq_lastEncoded?] at found
    rcases Option.bind_eq_some_iff.mp found with ⟨declaration, last, encoded⟩
    rw [lastEncoded?] at last
    have accepted := List.find?_some last
    exact ⟨declaration, List.mem_reverse.mp (List.mem_of_find?_eq_some last),
      of_decide_eq_true (Bool.and_eq_true_iff.mp accepted).1, encoded⟩
  · rintro ⟨declaration, member, rfl, encoded⟩
    rw [get?_foldl_addDeclared resolution distinct .empty (fun _ _ => rfl) member,
      DefinitionTable.declaredItems, toOption_itemsOfAll, encoded]

theorem skippedFailures_filterMap_eq_nil_iff {resolution : Resolution}
    {all : List (Scope × Element)} :
    skippedFailures (all.filterMap (skipWarning? resolution)) = [] ↔
      ¬ ∃ declaration ∈ all, encoding resolution declaration.2.children = none := by
  rw [skippedFailures, List.filterMap_filterMap, List.filterMap_eq_nil_iff, not_exists]
  refine forall_congr' fun declaration => ?_
  rw [not_and, ← ne_eq, ← Option.isSome_iff_ne_none, ← skipWarning?_eq_none_iff]
  refine forall_congr' fun _ => ?_
  rw [skipWarning?]
  split
  · exact iff_of_true rfl rfl
  · exact iff_of_false (Option.some_ne_none _) (Option.some_ne_none _)

section
variable (same : SameDefinitions files others) (distinct : DistinctDefinitions files)
include same distinct

theorem SameDefinitions.foldl_addDeclared_eq (resolution : Resolution) :
    (declarations files).foldl (addDeclared resolution) .empty =
      (declarations others).foldl (addDeclared resolution) .empty := by
  refine SortedMap.eq_of_get?_eq fun name => Option.ext fun items => ?_
  rw [get?_foldl_eq_some_iff resolution distinct,
    get?_foldl_eq_some_iff resolution (same.distinct distinct)]
  exact same.exists_iff fun own element =>
    own = name ∧ encoding resolution element.children = some items

theorem SameDefinitions.ofDeferred_eq :
    DefinitionTable.ofDeferred files = DefinitionTable.ofDeferred others :=
  same.foldl_addDeclared_eq distinct .deferred

end

/-- If the names of definitions differ, their order and the files they are in do not change
what they are resolved to: a tolerant run comes to the same table, and a strict one succeeds
for both corpora or for neither, with the same table. -/
theorem DefinitionTable.ofFiles_reordered (distinct : DistinctDefinitions files)
    (same : SameDefinitions files others) :
    (∃ table, (DefinitionTable.ofFiles .tolerant files).result = .ok table ∧
        (DefinitionTable.ofFiles .tolerant others).result = .ok table) ∧
      ∀ table, (DefinitionTable.ofFiles .strict files).result = .ok table ↔
        (DefinitionTable.ofFiles .strict others).result = .ok table := by
  have tolerant (files : List InterfaceFile) :=
    ofKnown_tolerant (DefinitionTable.ofDeferred files) files
  have known := same.ofDeferred_eq distinct
  have tables := same.foldl_addDeclared_eq distinct
    (.table (DefinitionTable.ofDeferred files))
  refine ⟨⟨_, congrArg Outcome.result (tolerant files), ?_⟩, fun table => ?_⟩
  · rw [tables, known]
    exact congrArg Outcome.result (tolerant others)
  · rw [(ofFiles_cutsShort files).result_eq_ok_iff, (ofFiles_cutsShort others).result_eq_ok_iff,
      DefinitionTable.ofFiles, DefinitionTable.ofFiles, tolerant, tolerant,
      skippedFailures_filterMap_eq_nil_iff, skippedFailures_filterMap_eq_nil_iff, tables, known]
    exact and_congr_right fun _ => not_congr (same.exists_iff fun _ element =>
      encoding (.table (DefinitionTable.ofDeferred others)) element.children = none)

private def definitionOf (name : String) (child : Element) : Element :=
  ⟨"define", [("name", name)], [child]⟩

private def useOf (name : String) : Element := ⟨"resolve", [("name", name)], []⟩

private def textB : Element := ⟨"constant", [("value", "b")], []⟩

private def forwardReference : List InterfaceFile :=
  [⟨"i-a.xml", ⟨"interface", [], [definitionOf "A" (useOf "B"), definitionOf "C" (useOf "D")]⟩⟩,
    ⟨"i-b.xml", ⟨"interface", [], [definitionOf "B" textB]⟩⟩]

private def backwardReference : List InterfaceFile :=
  [⟨"i-c.xml", ⟨"interface", [],
    [definitionOf "B" textB, definitionOf "C" (useOf "D"), definitionOf "A" (useOf "B")]⟩⟩]

/-- A reference says the same before and after what it refers to, and a definition that
fails does so in both places. -/
theorem DefinitionTable.ofFiles_reordered_reference :
    DistinctDefinitions forwardReference ∧
      SameDefinitions forwardReference backwardReference ∧
      (∃ table, (DefinitionTable.ofFiles .tolerant forwardReference).result = .ok table ∧
        (DefinitionTable.ofFiles .tolerant backwardReference).result = .ok table ∧
        table.get? "A" = some [.fragment "b"] ∧ table.get? "C" = none) ∧
      ∀ table, (DefinitionTable.ofFiles .strict forwardReference).result = .ok table ↔
        (DefinitionTable.ofFiles .strict backwardReference).result = .ok table := by
  have distinct : DistinctDefinitions forwardReference := by decide
  have same : SameDefinitions forwardReference backwardReference := by decide
  rcases DefinitionTable.ofFiles_reordered distinct same with
    ⟨⟨table, forward, backward⟩, strict⟩
  have found : ((DefinitionTable.ofFiles .tolerant forwardReference).result.map fun table =>
      (table.get? "A", table.get? "C")) = .ok (some [.fragment "b"], none) := by decide
  rw [forward] at found
  rcases Prod.mk.inj (Except.ok.inj found) with ⟨first, second⟩
  exact ⟨distinct, same, ⟨table, forward, backward, first, second⟩, strict⟩

end CommandReference
