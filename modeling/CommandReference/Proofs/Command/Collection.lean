import CommandReference.Proofs.Compilation.ArgumentCounts
import CommandReference.Proofs.Compilation.Policies

namespace CommandReference

/-! What is collected about commands. Entries are built command by command, and in the end
the entry of a name holds what the corpus documents for it: the signatures of all elements
that can be expanded, without those that say the same as an earlier one, and the source
files of all of them. -/

open Markup (Element)

theorem Outcome.foldlM_accumulates (invariant : List α → β → Prop) {step : β → α → Outcome β}
    (keeps : ∀ done state item next, invariant done state →
      (step state item).result = .ok next → invariant (done ++ [item]) next)
    {items done : List α} {state last : β} (start : invariant done state)
    (ran : (items.foldlM step state).result = .ok last) : invariant (done ++ items) last := by
  induction items generalizing done state with
  | nil =>
      cases ran
      rw [List.append_nil]
      exact start
  | cons item rest induction =>
      rcases of_bind_eq_ok ran with ⟨next, stepped, later⟩
      have all := induction (keeps done state item next start stepped) later
      rw [List.append_assoc] at all
      exact all

/-! ## One entry -/

namespace NameSet

theorem mem_keys_insertName (names : NameSet) (name other : String) :
    other ∈ (names.insertName name).keys ↔ other = name ∨ other ∈ names.keys := by
  rw [SortedMap.mem_keys_iff, SortedMap.mem_keys_iff, insertName]
  by_cases same : other = name
  · rw [same, SortedMap.get?_insert_self]
    exact iff_of_true nofun (.inl rfl)
  · rw [SortedMap.get?_insert_ne _ same]
    exact (or_iff_right same).symm

end NameSet

namespace Signature

theorem sameArguments_comm (left right : Signature) :
    left.sameArguments right = right.sameArguments left :=
  decide_eq_decide.mpr eq_comm

theorem dropRepeated_eq_eraseDupsBy (signatures : List Signature) :
    dropRepeated signatures = signatures.eraseDupsBy sameArguments := by
  have looped (kept : List Signature) :
      signatures.foldl
          (fun kept signature =>
            if kept.any (·.sameArguments signature) then kept else kept ++ [signature])
          kept.reverse =
        List.eraseDupsBy.loop sameArguments signatures kept := by
    induction signatures generalizing kept with
    | nil => rfl
    | cons signature rest induction =>
        have asked : kept.reverse.any (·.sameArguments signature) =
            kept.any (signature.sameArguments ·) := by
          rw [List.any_reverse]
          exact congrArg kept.any (funext fun other => sameArguments_comm other signature)
        rw [List.foldl_cons, asked, List.eraseDupsBy.loop]
        cases kept.any (signature.sameArguments ·) with
        | true => exact induction kept
        | false =>
            rw [if_neg Bool.false_ne_true, ← List.reverse_cons]
            exact induction (signature :: kept)
  exact looped []

end Signature

namespace Entry

def ofSignatures (signatures : List Signature) : Entry := signatures.foldl push empty

theorem ofSignatures_concat (signatures : List Signature) (last : Signature) :
    ofSignatures (signatures ++ [last]) = (ofSignatures signatures).push last := by
  rw [ofSignatures, List.foldl_append]
  rfl

theorem signatures_ofSignatures (signatures : List Signature) :
    (ofSignatures signatures).signatures = Signature.dropRepeated signatures := by
  induction signatures using List.reverseRecOn with
  | nil => rfl
  | append_singleton signatures last induction =>
      rw [ofSignatures_concat, Signature.dropRepeated_concat, push, ← induction]

theorem mem_files_ofSignatures {signatures : List Signature} {file : String} :
    file ∈ (ofSignatures signatures).files.keys ↔
      ∃ signature ∈ signatures, signature.file? = some file := by
  induction signatures using List.reverseRecOn with
  | nil => exact iff_of_false List.not_mem_nil (by rintro ⟨_, member, _⟩; cases member)
  | append_singleton signatures last induction =>
      simp only [List.mem_append, List.mem_singleton, or_and_right, exists_or, exists_eq_left]
      rw [ofSignatures_concat, push, ← induction]
      cases last.file? with
      | none => exact (or_iff_left (Option.some_ne_none file).symm).symm
      | some own =>
          refine (NameSet.mem_keys_insertName _ own file).trans ?_
          rw [Option.some.injEq, or_comm, eq_comm (a := file)]

/-! ## All entries -/

def signaturesFor (name : String) (commands : List (String × Signature)) : List Signature :=
  commands.filterMap fun command => if command.1 = name then some command.2 else none

/-- Entries that hold what the commands say about every name. Without a name, a command
says nothing. -/
def Records (entries : SortedMap String Entry) (commands : List (String × Signature)) : Prop :=
  ∀ name, entries.get? name =
    if name = "" ∨ signaturesFor name commands = [] then none
    else some (ofSignatures (signaturesFor name commands))

theorem signaturesFor_concat (name : String) (commands : List (String × Signature))
    (last : String × Signature) :
    signaturesFor name (commands ++ [last]) =
      signaturesFor name commands ++ if last.1 = name then [last.2] else [] := by
  rw [signaturesFor, List.filterMap_append, signaturesFor, List.filterMap_cons]
  split
  case h_1 skipped =>
    split at skipped
    · cases skipped
    case isFalse different => rw [if_neg different]; rfl
  case h_2 found =>
    split at found
    case isTrue same =>
      cases found
      rw [if_pos same]
      rfl
    · cases found

theorem Records.empty : Records .empty [] := fun _ => (if_pos (.inr rfl)).symm

section
variable {entries next : SortedMap String Entry} {commands : List (String × Signature)}

theorem Records.getD (records : Records entries commands) {name : String} (named : name ≠ "") :
    (entries.get? name).getD .empty = ofSignatures (signaturesFor name commands) := by
  rw [records name]
  split
  case isTrue nothing =>
    rw [nothing.resolve_left named]
    rfl
  case isFalse => rfl

theorem Records.record {file : String} {command : String × Signature}
    (records : Records entries commands)
    (recorded : (record file entries command).result = .ok next) :
    Records next (commands ++ [command]) := by
  intro name
  rw [Entry.record] at recorded
  split at recorded
  case isTrue unnamed =>
    cases recorded
    rw [records name, signaturesFor_concat]
    by_cases same : command.1 = name
    · rw [if_pos (.inl (same.symm.trans unnamed)), if_pos (.inl (same.symm.trans unnamed))]
    · rw [if_neg same, List.append_nil]
  case isFalse named =>
    cases recorded
    rw [signaturesFor_concat]
    by_cases same : name = command.1
    · subst same
      have some : ¬ (command.1 = "" ∨ signaturesFor command.1 commands ++ [command.2] = []) := by
        rintro (unnamed | none)
        · exact named unnamed
        · exact List.append_ne_nil_of_right_ne_nil _ (List.cons_ne_nil _ _) none
      rw [SortedMap.get?_alter_self, records.getD named, if_pos rfl, if_neg some,
        ofSignatures_concat]
    · rw [SortedMap.get?_alter_ne _ same, records name, if_neg (Ne.symm same), List.append_nil]

theorem Records.recordAll {file : String} {more : List (String × Signature)}
    (records : Records entries commands)
    (recorded : (more.foldlM (Entry.record file) entries).result = .ok next) :
    Records next (commands ++ more) :=
  Outcome.foldlM_accumulates (fun commands entries => Records entries commands)
    (fun _ _ _ _ => Records.record) records recorded

end

/-! ## All commands -/

/-- The commands that an element documents: all of its expansion, or none if anything in
it fails. -/
def commandsOf (definitions : DefinitionTable) (located : String × Element) :
    List (String × Signature) :=
  match expandElement definitions located.1 located.2 with
  | .ok commands => commands
  | .error _ => []

def documented (definitions : DefinitionTable) (files : List InterfaceFile) :
    List (String × Signature) :=
  (InterfaceFile.elementsNamed files "command").flatMap (commandsOf definitions)

theorem ofFiles_records {policy : Policy} {definitions : DefinitionTable}
    {files : List InterfaceFile} {entries : SortedMap String Entry}
    (collected : (ofFiles policy definitions files).result = .ok entries) :
    Records entries (documented definitions files) := by
  have start : Records .empty (List.flatMap (commandsOf definitions) []) := Records.empty
  refine Outcome.foldlM_accumulates
    (fun done entries => Records entries (done.flatMap (commandsOf definitions))) ?_ start
    collected
  intro done entries located next records stepped
  rw [List.flatMap_append, List.flatMap_singleton, commandsOf]
  rcases located with ⟨file, element⟩
  dsimp only at stepped ⊢
  cases expanded : expandElement definitions file element with
  | ok commands =>
      rw [expanded] at stepped
      exact records.recordAll stepped
  | error failure =>
      rw [expanded] at stepped
      rcases Outcome.of_bind_eq_ok stepped with ⟨_, _, kept⟩
      cases kept
      rw [List.append_nil]
      exact records

/-- A tolerant collection succeeds, and wherever one succeeds, it has an entry for a name
exactly if a command that can be expanded has it. The entry holds all signatures of these
commands in their order, without those that have the arguments of an earlier one, and the
source files of all of them. -/
theorem ofFiles_documented (definitions : DefinitionTable) (files : List InterfaceFile) :
    (∃ entries, (ofFiles .tolerant definitions files).result = .ok entries) ∧
      ∀ policy entries, (ofFiles policy definitions files).result = .ok entries →
        entries.get? "" = none ∧
        ∀ name, name ≠ "" →
          (entries.contains name = true ↔
            signaturesFor name (documented definitions files) ≠ []) ∧
          ∀ entry, entries.get? name = some entry →
            entry.signatures =
                (signaturesFor name (documented definitions files)).eraseDupsBy
                  Signature.sameArguments ∧
              ∀ file, file ∈ entry.files.keys ↔
                ∃ signature ∈ signaturesFor name (documented definitions files),
                  signature.file? = some file := by
  refine ⟨(ofFiles_cutsShort definitions files).succeeds, fun policy entries collected => ?_⟩
  have records := ofFiles_records collected
  refine ⟨(records "").trans (if_pos (.inl rfl)), fun name named => ⟨?_, ?_⟩⟩
  · rw [SortedMap.contains, records name]
    split
    case isTrue nothing =>
      exact iff_of_false Bool.false_ne_true (not_not_intro (nothing.resolve_left named))
    case isFalse something => exact iff_of_true rfl (not_or.mp something).2
  · intro entry found
    rw [records name] at found
    split at found
    · cases found
    · cases found
      rw [signatures_ofSignatures, Signature.dropRepeated_eq_eraseDupsBy]
      exact ⟨rfl, fun file => mem_files_ofSignatures⟩

private def documentedAs (file : String) : Signature :=
  ⟨[.placeholder .content false], some file⟩

private def fooIn (file : String) (nested : List Element) : Element :=
  ⟨"command", [("name", "foo"), ("file", file)],
    ⟨"arguments", [], [⟨"content", [], []⟩]⟩ :: nested⟩

private def repeatedCommand : List InterfaceFile :=
  [⟨"i-a.xml", fooIn "a.mkiv" [⟨"command", [("name", "bar"), ("type", "macro")], []⟩]⟩,
    ⟨"i-b.xml", fooIn "b.mkiv" []⟩]

theorem ofFiles_documented_repeated :
    ∃ entries entry,
      (ofFiles .tolerant .empty repeatedCommand).result = .ok entries ∧
        entries.get? "foo" = some entry ∧ entry.signatures = [documentedAs "a.mkiv"] ∧
        (∀ file, file ∈ entry.files.keys ↔ file = "a.mkiv" ∨ file = "b.mkiv") ∧
        entries.contains "bar" = false := by
  rcases ofFiles_documented .empty repeatedCommand with ⟨⟨entries, collected⟩, each⟩
  rcases each .tolerant entries collected with ⟨_, names⟩
  have said : signaturesFor "foo" (documented .empty repeatedCommand) =
      [documentedAs "a.mkiv", documentedAs "b.mkiv"] := by decide
  have silent : signaturesFor "bar" (documented .empty repeatedCommand) = [] := by decide
  rcases names "foo" (by decide) with ⟨present, holds⟩
  have found := present.mpr (by rw [said]; exact List.cons_ne_nil _ _)
  rcases Option.isSome_iff_exists.mp found with ⟨entry, get⟩
  rcases holds entry get with ⟨signatures, sources⟩
  refine ⟨entries, entry, collected, get, ?_, fun file => ?_, ?_⟩
  · rw [signatures, said]
    decide
  · rw [sources file, said]
    simp [documentedAs, eq_comm]
  · rw [← Bool.not_eq_true, (names "bar" (by decide)).1, silent]
    exact not_not_intro rfl

end Entry

end CommandReference
