import CommandReference.Proofs.Definition.Reordering
import CommandReference.Proofs.Definition.Transparency

namespace CommandReference

/-! The first round drops a definition without a word. Nothing is lost by that: what fails
while references stand for nothing also fails when they stand for something, so the second
round meets every dropped definition again and reports it, and it keeps no name that the
first round has not kept. -/

open Markup (Element)
open DefinitionTable (declarations declaredItems)

/-! ## One element -/

theorem encoding_deferred_within (definitions : DefinitionTable) (elements : List Element) :
    Within (encoding .deferred elements) (encoding (.table definitions) elements) := by
  induction elements using elements_induction with
  | nil => exact .refl _
  | cons node rest children later =>
      by_cases isReference : node.name = "resolve"
      · rw [encoding_reference _ isReference, encoding_reference _ isReference]
        exact .joined (.nil _) later
      · rw [encoding_other _ isReference, encoding_other _ isReference]
        exact .joined (ownItems_within ⟨"", ""⟩ node children) later

theorem isSome_encoding_deferred {definitions : DefinitionTable} {elements : List Element}
    (encodes : (encoding (.table definitions) elements).isSome) :
    (encoding .deferred elements).isSome := by
  rcases Option.isSome_iff_exists.mp encodes with ⟨many, found⟩
  rcases encoding_deferred_within definitions elements many found with ⟨few, fewFound, _⟩
  exact Option.isSome_iff_exists.mpr ⟨few, fewFound⟩

variable {scope : Scope} {elements : List Element} {failure : Failure}

theorem exists_failure_of_deferred (failed : itemsOfAll scope .deferred elements = .error failure)
    (definitions : DefinitionTable) :
    ∃ later, itemsOfAll scope (.table definitions) elements = .error later := by
  cases encodes : itemsOfAll scope (.table definitions) elements with
  | error later => exact ⟨later, rfl⟩
  | ok items =>
      have known : (encoding (.table definitions) elements).isSome := by
        rw [← toOption_itemsOfAll scope, encodes]
        rfl
      have dropped := isSome_encoding_deferred known
      rw [← toOption_itemsOfAll scope, failed] at dropped
      cases dropped

/-! ## One round -/

theorem mem_keys_foldl_addDeclared_iff (resolution : Resolution)
    (all : List (Scope × Element)) (name : String) :
    name ∈ (all.foldl (addDeclared resolution) .empty).keys ↔
      ∃ declaration ∈ all, declaration.1.name = name ∧
        (encoding resolution declaration.2.children).isSome := by
  have listed : (lastEncoded? resolution all name).isSome ↔
      ∃ declaration ∈ all, declaration.1.name = name ∧
        (encoding resolution declaration.2.children).isSome := by
    simp only [lastEncoded?, List.find?_isSome, List.mem_reverse, Bool.and_eq_true,
      decide_eq_true_eq]
  rw [SortedMap.mem_keys_iff, get?_foldl_eq_lastEncoded?, ← listed]
  cases last : lastEncoded? resolution all name with
  | none => exact iff_of_false (fun differs => differs rfl) Bool.false_ne_true
  | some declaration =>
      have accepted := List.find?_some last
      have encodes := (Bool.and_eq_true_iff.mp accepted).2
      exact iff_of_true (Option.isSome_iff_ne_none.mp encodes) rfl

variable {resolution : Resolution} {declaration : Scope × Element}

theorem skipWarning?_of_error (failed : declaredItems resolution declaration = .error failure) :
    skipWarning? resolution declaration = some (.skipped failure) := by
  rw [skipWarning?, failed]

theorem of_skipWarning?_eq_some {warning : Warning}
    (noted : skipWarning? resolution declaration = some warning) :
    ∃ failure, declaredItems resolution declaration = .error failure ∧
      warning = .skipped failure := by
  rw [skipWarning?] at noted
  cases encoded : declaredItems resolution declaration with
  | ok items =>
      rw [encoded] at noted
      cases noted
  | error failure =>
      rw [encoded] at noted
      exact ⟨failure, rfl, (Option.some.inj noted).symm⟩

/-! ## Both rounds -/

variable {files : List InterfaceFile} {before after : List (Scope × Element)}

/-- What fails in the second round is noted in its place by a tolerant run, and a strict run
stops there, if not before. -/
theorem DefinitionTable.ofFiles_reports
    (placed : declarations files = before ++ declaration :: after)
    (failed : declaredItems (.table (ofDeferred files)) declaration = .error failure) :
    (ofFiles .tolerant files).warnings =
        before.filterMap (skipWarning? (.table (ofDeferred files))) ++
          .skipped failure :: after.filterMap (skipWarning? (.table (ofDeferred files))) ∧
      ∃ stopped ∈ before ++ [declaration], ∃ stop,
        declaredItems (.table (ofDeferred files)) stopped = .error stop ∧
          ofFiles .strict files = ⟨[], .error stop⟩ := by
  have noted : (ofFiles .tolerant files).warnings =
      before.filterMap (skipWarning? (.table (ofDeferred files))) ++
        .skipped failure :: after.filterMap (skipWarning? (.table (ofDeferred files))) := by
    rw [ofFiles, ofKnown_tolerant, placed, List.filterMap_append,
      List.filterMap_cons_some (skipWarning?_of_error failed)]
  refine ⟨noted, ?_⟩
  cases earlier : before.filterMap (skipWarning? (.table (ofDeferred files))) with
  | nil =>
      rw [earlier] at noted
      exact ⟨declaration, List.mem_append_right _ (List.mem_singleton_self _), failure, failed,
        (ofFiles_cutsShort files).eq_of_warnings noted⟩
  | cons first others =>
      rw [earlier] at noted
      have member : first ∈ before.filterMap (skipWarning? (.table (ofDeferred files))) :=
        earlier ▸ List.mem_cons_self
      rcases List.mem_filterMap.mp member with ⟨stopped, inBefore, noticed⟩
      rcases of_skipWarning?_eq_some noticed with ⟨stop, stops, rfl⟩
      exact ⟨stopped, List.mem_append_left _ inBefore, stop, stops,
        (ofFiles_cutsShort files).eq_of_warnings noted⟩

theorem DefinitionTable.of_ofFiles_eq_ok {policy : Policy} {table : DefinitionTable}
    (succeeds : (ofFiles policy files).result = .ok table) :
    table = (declarations files).foldl (addDeclared (.table (ofDeferred files))) .empty := by
  have tolerant : (ofFiles .tolerant files).result = .ok table := by
    cases policy with
    | tolerant => exact succeeds
    | strict => exact ((ofFiles_cutsShort files).result_eq_ok_iff.mp succeeds).1
  rw [ofFiles, ofKnown_tolerant] at tolerant
  exact (Except.ok.inj tolerant).symm

/-- Nothing that the first round drops goes unreported. An element that fails while
references stand for nothing fails with every table. So a definition that the first round
leaves out is noted by a tolerant run, in its place among the others, and makes a strict run
fail with it or with one before it, and no name is known after the second round that was
unknown after the first. -/
theorem DefinitionTable.ofFiles_reports_dropped (files : List InterfaceFile) :
    (∀ scope definitions node failure, items scope .deferred node = .error failure →
        ∃ later, items scope (.table definitions) node = .error later) ∧
      (∀ before declaration after failure,
        declarations files = before ++ declaration :: after →
        declaredItems .deferred declaration = .error failure →
        ∃ later, declaredItems (.table (ofDeferred files)) declaration = .error later ∧
          (ofFiles .tolerant files).warnings =
            before.filterMap (skipWarning? (.table (ofDeferred files))) ++
              .skipped later :: after.filterMap (skipWarning? (.table (ofDeferred files))) ∧
          ∃ stopped ∈ before ++ [declaration], ∃ stop,
            declaredItems (.table (ofDeferred files)) stopped = .error stop ∧
              ofFiles .strict files = ⟨[], .error stop⟩) ∧
      ∀ policy table, (ofFiles policy files).result = .ok table →
        table.keys ⊆ (ofDeferred files).keys := by
  refine ⟨fun scope definitions node failure failed => ?_,
    fun before declaration after failure placed failed => ?_,
    fun policy table succeeds name member => ?_⟩
  · rw [← itemsOfAll_singleton] at failed ⊢
    exact exists_failure_of_deferred failed definitions
  · rcases exists_failure_of_deferred failed (ofDeferred files) with ⟨later, fails⟩
    exact ⟨later, fails, ofFiles_reports placed fails⟩
  · rw [of_ofFiles_eq_ok succeeds, mem_keys_foldl_addDeclared_iff] at member
    rcases member with ⟨declaration, inFiles, named, encodes⟩
    exact (mem_keys_foldl_addDeclared_iff .deferred _ name).mpr
      ⟨declaration, inFiles, named, isSome_encoding_deferred encodes⟩

private def unresolvedDefinition : Element :=
  ⟨"define", [("name", "A")], [⟨"resolve", [("name", "Z")], []⟩]⟩

private def unknownTagDefinition : Element :=
  ⟨"define", [("name", "B")], [⟨"keywords", [], [⟨"sort", [], []⟩]⟩]⟩

private def twoFaults : List InterfaceFile :=
  [⟨"i-test.xml", ⟨"interface", [], [unresolvedDefinition, unknownTagDefinition]⟩⟩]

theorem DefinitionTable.ofFiles_reports_dropped_after_unresolved :
    declaredItems .deferred (⟨"i-test.xml", "B"⟩, unknownTagDefinition) =
        .error (.unexpectedTag "i-test.xml" "B" "sort") ∧
      (∃ later, (ofFiles .tolerant twoFaults).warnings =
        [.skipped (.unresolved "i-test.xml" "A" "Z"), .skipped later]) ∧
      ∃ stop, ofFiles .strict twoFaults = ⟨[], .error stop⟩ := by
  have failed : declaredItems .deferred (⟨"i-test.xml", "B"⟩, unknownTagDefinition) =
      .error (.unexpectedTag "i-test.xml" "B" "sort") := by rfl
  rcases (ofFiles_reports_dropped twoFaults).2.1
    [(⟨"i-test.xml", "A"⟩, unresolvedDefinition)] _ _ _ rfl failed with
    ⟨later, _, noted, _, _, stop, _, stops⟩
  exact ⟨failed, ⟨later, noted⟩, stop, stops⟩

end CommandReference
