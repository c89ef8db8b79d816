import CommandReference.Compilation
import CommandReference.Proofs.Simplification.Reduction
import CommandReference.Proofs.SortedMap

namespace CommandReference

/-! The argument counts that are published describe the signatures that they are
published with. They are taken before anything is simplified and are not taken again:
what is simplified away has no more arguments than what covers it, and what is left
has as many as before. -/

/-! ## Greatest elements -/

theorem max?_eq_of_dominated {first second : List Nat}
    (below : ∀ value ∈ first, ∃ other ∈ second, value ≤ other)
    (above : ∀ value ∈ second, ∃ other ∈ first, value ≤ other) :
    first.max? = second.max? := by
  cases greatest : second.max? with
  | none =>
      rw [List.max?_eq_none_iff] at greatest ⊢
      rw [List.eq_nil_iff_forall_not_mem]
      intro value member
      rcases below value member with ⟨other, otherMember, _⟩
      rw [greatest] at otherMember
      cases otherMember
  | some value =>
      rcases List.max?_eq_some_iff.mp greatest with ⟨member, bound⟩
      rcases above value member with ⟨attained, attainedMember, le⟩
      rcases below attained attainedMember with ⟨other, otherMember, otherLe⟩
      have same : attained = value := Nat.le_antisymm
        (Nat.le_trans otherLe (bound other otherMember)) le
      refine List.max?_eq_some_iff.mpr ⟨same ▸ attainedMember, fun lesser lesserMember => ?_⟩
      rcases below lesser lesserMember with ⟨between, betweenMember, lesserLe⟩
      exact Nat.le_trans lesserLe (bound between betweenMember)

theorem max?_eq_some_foldl {values : List Nat} (nonempty : values ≠ []) :
    values.max? = some (values.foldl max 0) := by
  cases values with
  | nil => exact absurd rfl nonempty
  | cons value rest => rw [List.max?_cons', List.foldl_cons, Nat.zero_max]

/-! ## Signatures -/

theorem Shortens.sublist {full short : List Argument} (shortens : Shortens full short) :
    short.Sublist full := by
  induction shortens with
  | nil => exact .slnil
  | keep argument _ induction => exact induction.cons_cons argument
  | drop _ _ induction => exact induction.cons _

theorem countP_map_unmarked (arguments : List Argument) :
    (arguments.map Argument.unmarked).countP Argument.hasContent =
      arguments.countP Argument.hasContent :=
  List.countP_map

namespace Signature

theorem CoveredBy.argumentCount_le {signature cover : Signature}
    (covered : signature.CoveredBy cover) :
    signature.argumentCount ≤ cover.argumentCount := by
  rcases covered _ ⟨signature.arguments, .refl _, rfl⟩ with ⟨short, shortens, same⟩
  calc signature.argumentCount
      = (signature.arguments.map Argument.unmarked).countP Argument.hasContent :=
        (countP_map_unmarked signature.arguments).symm
    _ = short.countP Argument.hasContent := by rw [← same, countP_map_unmarked]
    _ ≤ cover.argumentCount := shortens.sublist.countP_le

theorem RelaxesTo.argumentCount_eq {signature relaxed : Signature}
    (relaxes : signature.RelaxesTo relaxed) :
    relaxed.argumentCount = signature.argumentCount := by
  have same : relaxed.arguments.map Argument.unmarked =
      signature.arguments.map Argument.unmarked := by
    rw [← List.forall₂_eq_eq_eq, List.forall₂_map_left_iff, List.forall₂_map_right_iff]
    exact relaxes.arguments.flip.imp fun _ _ => Argument.RelaxesTo.unmarked_eq
  rw [argumentCount, argumentCount, ← countP_map_unmarked, same, countP_map_unmarked]

def greatestCount? (signatures : List Signature) : Option Nat :=
  (signatures.map argumentCount).max?

theorem greatestCount?_congr {first second : List Signature}
    (below : ∀ signature ∈ first, ∃ other ∈ second,
      signature.argumentCount ≤ other.argumentCount)
    (above : ∀ signature ∈ second, ∃ other ∈ first,
      signature.argumentCount ≤ other.argumentCount) :
    greatestCount? first = greatestCount? second := by
  apply max?_eq_of_dominated
  · rw [List.forall_mem_map]
    intro signature member
    rcases below signature member with ⟨other, otherMember, le⟩
    exact ⟨_, List.mem_map_of_mem otherMember, le⟩
  · rw [List.forall_mem_map]
    intro signature member
    rcases above signature member with ⟨other, otherMember, le⟩
    exact ⟨_, List.mem_map_of_mem otherMember, le⟩

theorem greatestCount?_simplify (signatures : List Signature) :
    greatestCount? (simplify signatures) = greatestCount? signatures := by
  apply greatestCount?_congr
  · intro kept member
    rcases simplify_relaxes signatures with ⟨originals, sublist, relaxes⟩
    have counts : (simplify signatures).map argumentCount =
        originals.map argumentCount := by
      rw [← List.forall₂_eq_eq_eq, List.forall₂_map_left_iff, List.forall₂_map_right_iff]
      exact relaxes.flip.imp fun _ _ => RelaxesTo.argumentCount_eq
    have counted : kept.argumentCount ∈ originals.map argumentCount :=
      counts ▸ List.mem_map_of_mem member
    rcases List.mem_map.mp counted with ⟨original, originalMember, same⟩
    have given := (sublist.trans (dropRepeated_sublist signatures)).subset originalMember
    exact ⟨original, given, Nat.le_of_eq same.symm⟩
  · intro signature member
    rcases simplify_covered member with ⟨kept, keptMember, covered⟩
    exact ⟨kept, keptMember, CoveredBy.argumentCount_le covered⟩

end Signature

/-! ## Entries -/

namespace Outcome

theorem of_bind_eq_ok {outcome : Outcome α} {next : α → Outcome β} {result : β}
    (succeeded : (outcome >>= next).result = .ok result) :
    ∃ value, outcome.result = .ok value ∧ (next value).result = .ok result := by
  cases first : outcome.result with
  | error failure =>
      rw [bind_error first] at succeeded
      cases succeeded
  | ok value =>
      rw [bind_ok first] at succeeded
      exact ⟨value, rfl, succeeded⟩

theorem foldlM_preserves {invariant : β → Prop} {step : β → α → Outcome β}
    (keeps : ∀ state item next, invariant state → (step state item).result = .ok next →
      invariant next) {items : List α} {state last : β} (start : invariant state)
    (ran : (items.foldlM step state).result = .ok last) : invariant last := by
  induction items generalizing state with
  | nil =>
      cases ran
      exact start
  | cons item rest induction =>
      rcases of_bind_eq_ok ran with ⟨next, stepped, later⟩
      exact induction (keeps state item next start stepped) later

end Outcome

namespace Entry

def AllDocumented (entries : SortedMap String Entry) : Prop :=
  ∀ name entry, entries.get? name = some entry → entry.signatures ≠ []

theorem AllDocumented.empty : AllDocumented .empty := by
  intro name entry found
  cases found

theorem push_signatures_ne_nil (entry : Entry) (signature : Signature) :
    (entry.push signature).signatures ≠ [] := by
  simp only [push]
  split
  case isTrue present =>
    rcases List.any_eq_true.mp present with ⟨kept, member, _⟩
    exact List.ne_nil_of_mem member
  case isFalse => exact List.append_ne_nil_of_right_ne_nil _ (List.cons_ne_nil _ _)

theorem AllDocumented.push {entries : SortedMap String Entry}
    (documented : AllDocumented entries) (command : String × Signature) :
    AllDocumented (entries.alter command.1 fun present =>
      (present.getD .empty).push command.2) := by
  intro name entry found
  by_cases same : name = command.1
  · rw [same, SortedMap.get?_alter_self] at found
    cases found
    exact push_signatures_ne_nil _ _
  · rw [SortedMap.get?_alter_ne _ same] at found
    exact documented name entry found

theorem AllDocumented.record {file : String} {entries next : SortedMap String Entry}
    {command : String × Signature} (documented : AllDocumented entries)
    (recorded : (record file entries command).result = .ok next) : AllDocumented next := by
  rw [Entry.record] at recorded
  split at recorded
  case isTrue =>
    cases recorded
    exact documented
  case isFalse =>
    cases recorded
    exact documented.push command

theorem ofFiles_allDocumented {policy : Policy} {definitions : DefinitionTable}
    {files : List InterfaceFile} {entries : SortedMap String Entry}
    (collected : (Entry.ofFiles policy definitions files).result = .ok entries) :
    AllDocumented entries := by
  refine Outcome.foldlM_preserves ?_ AllDocumented.empty collected
  intro entries located next documented stepped
  rcases located with ⟨file, element⟩
  dsimp only at stepped
  cases expanded : expandElement definitions file element with
  | ok commands =>
      rw [expanded] at stepped
      exact Outcome.foldlM_preserves (fun _ _ _ => AllDocumented.record) documented stepped
  | error failure =>
      rw [expanded] at stepped
      rcases Outcome.of_bind_eq_ok stepped with ⟨_, _, kept⟩
      cases kept
      exact documented

open Signature (greatestCount?)

theorem greatestCount?_sorted (entry : Entry) :
    greatestCount? entry.sorted.signatures = greatestCount? entry.signatures :=
  Signature.greatestCount?_congr
    (fun signature member => ⟨signature, List.mem_mergeSort.mp member, Nat.le_refl _⟩)
    (fun signature member => ⟨signature, List.mem_mergeSort.mpr member, Nat.le_refl _⟩)

theorem greatestCount?_simplified (entry : Entry) :
    greatestCount? entry.simplified.signatures = greatestCount? entry.signatures :=
  (greatestCount?_sorted _).trans (Signature.greatestCount?_simplify entry.signatures)

theorem greatestCount?_eq_some {entry : Entry} (documented : entry.signatures ≠ []) :
    greatestCount? entry.signatures = some entry.argumentCount :=
  max?_eq_some_foldl (List.map_eq_nil_iff.not.mpr documented)

end Entry

/-! ## Databases -/

namespace Database

open Signature (greatestCount?)

/-- The argument count that is published for a name is the greatest one of its
signatures, and there is one for no other name. -/
def CountsArguments (database : Database) : Prop :=
  ∀ name, database.argumentCount? name =
    (database.get? name).bind fun entry => greatestCount? entry.signatures

theorem ofEntries_countsArguments {entries : SortedMap String Entry}
    (documented : Entry.AllDocumented entries) : (ofEntries entries).CountsArguments := by
  intro name
  rw [argumentCount?, get?, ofEntries, SortedMap.get?_mapValues, SortedMap.get?_mapValues]
  cases found : entries.get? name with
  | none => rfl
  | some entry =>
      have greatest := Entry.greatestCount?_eq_some (documented name entry found)
      exact ((Entry.greatestCount?_sorted entry).trans greatest).symm

theorem get?_simplified (database : Database) (name : String) :
    database.simplified.get? name = (database.get? name).map Entry.simplified :=
  SortedMap.get?_mapValues (fun _ entry => Entry.simplified entry) database.entries name

theorem simplified_countsArguments {database : Database}
    (counts : database.CountsArguments) : database.simplified.CountsArguments := by
  intro name
  rw [get?_simplified]
  refine (counts name).trans ?_
  cases database.get? name with
  | none => rfl
  | some entry => exact (Entry.greatestCount?_simplified entry).symm

theorem index_simplified (database : Database) :
    database.simplified.index = database.index := by
  have contains : database.simplified.entries.contains = database.entries.contains :=
    SortedMap.contains_mapValues _ _
  rw [index, index, contains]
  rfl

end Database

/-! ## Compiling with and without simplification -/

namespace Configuration

def withSimplify (configuration : Configuration) (simplify : Bool) : Configuration :=
  { configuration with simplify }

theorem ofFiles_withSimplify (configuration : Configuration) (files : List InterfaceFile) :
    (∃ warnings failure, ∀ simplify,
        Database.ofFiles (configuration.withSimplify simplify) files =
          ⟨warnings, .error failure⟩) ∨
      ∃ warnings raw, Database.CountsArguments raw ∧ ∀ simplify,
        Database.ofFiles (configuration.withSimplify simplify) files =
          ⟨warnings, .ok (if simplify then raw.simplified else raw)⟩ := by
  have staged (simplify : Bool) :
      Database.ofFiles (configuration.withSimplify simplify) files =
        DefinitionTable.ofFiles configuration.policy files >>= fun definitions =>
          Entry.ofFiles configuration.policy definitions files >>= fun entries =>
            pure (if simplify then (Database.ofEntries entries).simplified
              else .ofEntries entries) := rfl
  simp only [staged]
  cases resolved : (DefinitionTable.ofFiles configuration.policy files).result with
  | error failure => exact .inl ⟨_, failure, fun _ => Outcome.bind_error resolved _⟩
  | ok definitions =>
      simp only [Outcome.bind_ok resolved]
      cases collected : (Entry.ofFiles configuration.policy definitions files).result with
      | error failure =>
          simp only [Outcome.bind_error collected]
          exact .inl ⟨_, failure, fun _ => rfl⟩
      | ok entries =>
          simp only [Outcome.bind_ok collected, Outcome.pure_eq]
          exact .inr ⟨_, .ofEntries entries, Database.ofEntries_countsArguments
            (Entry.ofFiles_allDocumented collected), fun _ => rfl⟩

theorem compile_withSimplify (configuration : Configuration) (source : Source)
    (root : Path) (steps : Nat) :
    (∀ simplify, (configuration.withSimplify simplify).compile source root steps = none) ∨
      (∃ warnings failure, ∀ simplify,
        (configuration.withSimplify simplify).compile source root steps =
          some ⟨warnings, .error failure⟩) ∨
      ∃ warnings raw, Database.CountsArguments raw ∧ ∀ simplify,
        (configuration.withSimplify simplify).compile source root steps =
          some ⟨warnings, .ok (if simplify then raw.simplified else raw)⟩ := by
  have compiled (simplify : Bool) :
      (configuration.withSimplify simplify).compile source root steps =
        (configuration.load source root steps).map (· >>= Database.ofFiles
          (configuration.withSimplify simplify)) := rfl
  simp only [compiled]
  cases configuration.load source root steps with
  | none => exact .inl fun _ => rfl
  | some loaded =>
      simp only [Option.map_some, Option.some.injEq]
      cases read : loaded.result with
      | error failure => exact .inr (.inl ⟨_, failure, fun _ => Outcome.bind_error read _⟩)
      | ok files =>
          simp only [Outcome.bind_ok read]
          rcases configuration.ofFiles_withSimplify files with
            ⟨warnings, failure, failed⟩ | ⟨warnings, raw, counts, succeeded⟩
          · simp only [failed]
            exact .inr (.inl ⟨_, failure, fun _ => rfl⟩)
          · simp only [succeeded]
            exact .inr (.inr ⟨_, raw, counts, fun _ => rfl⟩)

/-- Compiling with and without simplification comes to the same failure, or to two
databases with the same names, files, argument counts and index. In both of them, the
argument count of a name is the greatest one of the signatures that are stored for it. -/
theorem compile_simplify_agree (configuration : Configuration) (source : Source)
    (root : Path) (steps : Nat) :
    ((configuration.withSimplify false).compile source root steps = none ∧
        (configuration.withSimplify true).compile source root steps = none) ∨
      (∃ warnings failure,
        (configuration.withSimplify false).compile source root steps =
            some ⟨warnings, .error failure⟩ ∧
          (configuration.withSimplify true).compile source root steps =
            some ⟨warnings, .error failure⟩) ∨
      ∃ warnings raw simplified,
        (configuration.withSimplify false).compile source root steps =
            some ⟨warnings, .ok raw⟩ ∧
          (configuration.withSimplify true).compile source root steps =
            some ⟨warnings, .ok simplified⟩ ∧
          simplified.names = raw.names ∧
          (∀ name, (simplified.get? name).map Entry.files =
            (raw.get? name).map Entry.files) ∧
          (∀ name, simplified.argumentCount? name = raw.argumentCount? name) ∧
          simplified.index = raw.index ∧
          raw.CountsArguments ∧ simplified.CountsArguments := by
  rcases configuration.compile_withSimplify source root steps with
    endless | ⟨warnings, failure, failed⟩ | ⟨warnings, raw, counts, succeeded⟩
  · exact .inl ⟨endless false, endless true⟩
  · exact .inr (.inl ⟨warnings, failure, failed false, failed true⟩)
  · refine .inr (.inr ⟨warnings, raw, raw.simplified, succeeded false, succeeded true,
      SortedMap.keys_mapValues _ _, fun name => ?_, fun _ => rfl, raw.index_simplified,
      counts, Database.simplified_countsArguments counts⟩)
    rw [Database.get?_simplified, Option.map_map]
    rfl

end Configuration

end CommandReference
