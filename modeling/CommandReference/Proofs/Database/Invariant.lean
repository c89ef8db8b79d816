import CommandReference.Proofs.Command.Collection
import CommandReference.Proofs.Simplification.FixedPoint
import CommandReference.Proofs.Text.Order
import Mathlib.Data.List.Nodup
import Mathlib.Logic.Function.Iterate

namespace CommandReference

/-! What holds of every reference, whatever has been collected and however often it has
been simplified: its entries are in canonical form, and they tell the names, source files
and argument counts that were collected. After being simplified once, a reference does not
change any more. -/

/-! ## Collected entries -/

namespace Entry

/-- The entries of signatures pushed one after the other, each onto the entry of its
name. -/
def collect (pushes : List (String × Signature)) : SortedMap String Entry :=
  pushes.foldl
    (fun entries command =>
      entries.alter command.1 fun present => (present.getD .empty).push command.2) .empty

theorem collect_concat (pushes : List (String × Signature)) (last : String × Signature) :
    collect (pushes ++ [last]) =
      (collect pushes).alter last.1 fun present => (present.getD .empty).push last.2 := by
  rw [collect, List.foldl_append]
  rfl

theorem get?_collect (pushes : List (String × Signature)) (name : String) :
    (collect pushes).get? name =
      if signaturesFor name pushes = [] then none
      else some (ofSignatures (signaturesFor name pushes)) := by
  induction pushes using List.reverseRecOn with
  | nil => rfl
  | append_singleton pushes last induction =>
      rw [collect_concat, signaturesFor_concat]
      by_cases same : name = last.1
      · subst same
        have present : ((collect pushes).get? last.1).getD .empty =
            ofSignatures (signaturesFor last.1 pushes) := by
          rw [induction]
          split
          case isTrue nothing => rw [nothing]; rfl
          case isFalse => rfl
        rw [SortedMap.get?_alter_self, present, if_pos rfl,
          if_neg (List.append_ne_nil_of_right_ne_nil _ (List.cons_ne_nil _ _)),
          ofSignatures_concat]
      · rw [SortedMap.get?_alter_ne _ same, induction, if_neg (Ne.symm same), List.append_nil]

theorem collect_allDocumented (pushes : List (String × Signature)) :
    AllDocumented (collect pushes) := by
  induction pushes using List.reverseRecOn with
  | nil => exact AllDocumented.empty
  | append_singleton pushes last induction =>
      rw [collect_concat]
      exact induction.push last

theorem mem_signaturesFor {name : String} {commands : List (String × Signature)}
    {signature : Signature} :
    signature ∈ signaturesFor name commands ↔ (name, signature) ∈ commands := by
  rw [signaturesFor, List.mem_filterMap]
  constructor
  · rintro ⟨command, member, chosen⟩
    split at chosen
    case isTrue same =>
      cases same
      cases chosen
      exact member
    case isFalse => cases chosen
  · intro member
    exact ⟨_, member, if_pos rfl⟩

theorem signaturesFor_filter (name : String) (commands : List (String × Signature)) :
    signaturesFor name (commands.filter (·.1 ≠ "")) =
      if name = "" then [] else signaturesFor name commands := by
  rw [signaturesFor, signaturesFor, List.filterMap_filter]
  split
  case isTrue unnamed =>
    rw [List.filterMap_eq_nil_iff]
    intro command _
    by_cases same : command.1 = name
    · simp [same, unnamed]
    · simp [same]
  case isFalse named =>
    congr 1
    funext command
    by_cases same : command.1 = name
    · simp [same, named]
    · simp [same]

theorem Records.eq_collect {entries : SortedMap String Entry}
    {commands : List (String × Signature)} (records : Records entries commands) :
    entries = collect (commands.filter (·.1 ≠ "")) := by
  apply SortedMap.eq_of_get?_eq
  intro name
  rw [records name, get?_collect, signaturesFor_filter]
  by_cases unnamed : name = ""
  · simp [unnamed]
  · simp [unnamed]

/-! ## Canonical entries -/

/-- What is published of a name: some signatures, no two with the same arguments, in the
order of the bytes of their text. -/
structure IsCanonical (entry : Entry) : Prop where
  nonempty : entry.signatures ≠ []
  distinct : entry.signatures.Pairwise fun left right => left.arguments ≠ right.arguments
  ordered : entry.signatures.Pairwise fun left right =>
    Utf8.encode left.render ≤ Utf8.encode right.render

theorem sortSignatures_perm (signatures : List Signature) :
    (sortSignatures signatures).Perm signatures :=
  List.mergeSort_perm signatures _

theorem sortSignatures_ordered (signatures : List Signature) :
    (sortSignatures signatures).Pairwise fun left right => left.render ≤ right.render :=
  pairwise_mergeSort_text Signature.render signatures

theorem sortSignatures_of_ordered {signatures : List Signature}
    (ordered : signatures.Pairwise fun left right => left.render ≤ right.render) :
    sortSignatures signatures = signatures :=
  List.mergeSort_of_pairwise (ordered.imp fun before => decide_eq_true before)

theorem sortSignatures_eq_of_perm {signatures others : List Signature}
    (perm : others.Perm signatures)
    (ordered : others.Pairwise fun left right => left.render < right.render) :
    sortSignatures signatures = others := by
  have textsDiffer : (others.map Signature.render).Nodup :=
    List.pairwise_map.mpr (ordered.imp fun before => Std.ne_of_lt before)
  have same := (sortSignatures_perm signatures).trans perm.symm
  refine same.eq_of_pairwise ?_ (sortSignatures_ordered signatures)
    (ordered.imp fun before => Std.le_of_lt before)
  intro left right leftMember rightMember before after
  exact List.inj_on_of_nodup_map textsDiffer (same.mem_iff.mp leftMember) rightMember
    (Std.le_antisymm before after)

theorem sorted_isCanonical {entry : Entry} (nonempty : entry.signatures ≠ [])
    (distinct : Signature.Distinct entry.signatures) : entry.sorted.IsCanonical where
  nonempty none := by
    have perm := sortSignatures_perm entry.signatures
    exact nonempty (List.nil_perm.mp (none ▸ perm))
  distinct := distinct.perm (sortSignatures_perm entry.signatures).symm
  ordered := (sortSignatures_ordered entry.signatures).imp Utf8.encode_le_encode_iff.mpr

theorem simplified_isCanonical {entry : Entry} (nonempty : entry.signatures ≠ []) :
    entry.simplified.IsCanonical :=
  sorted_isCanonical (Signature.simplify_ne_nil nonempty)
    (Signature.simplify_irreducible entry.signatures).distinct

/-- Signatures that cannot be merged in one order cannot be merged in another, so that
sorting them does not make anything new to do. -/
theorem simplified_simplified (entry : Entry) :
    entry.simplified.simplified = entry.simplified := by
  have irreducible := (Signature.simplify_irreducible entry.signatures).perm
    (sortSignatures_perm (Signature.simplify entry.signatures)).symm
  have kept : Signature.simplify entry.simplified.signatures = entry.simplified.signatures :=
    Signature.simplify_of_irreducible irreducible
  have ordered : sortSignatures entry.simplified.signatures = entry.simplified.signatures :=
    sortSignatures_of_ordered (sortSignatures_ordered _)
  rw [simplified, sorted, kept, ordered]

theorem collect_distinct {pushes : List (String × Signature)} {name : String} {entry : Entry}
    (found : (collect pushes).get? name = some entry) :
    Signature.Distinct entry.signatures := by
  rw [get?_collect] at found
  split at found
  · cases found
  · cases found
    rw [signatures_ofSignatures]
    exact Signature.dropRepeated_distinct _

end Entry

/-! ## References -/

namespace Database

def IsCanonical (database : Database) : Prop :=
  ∀ name entry, database.get? name = some entry → entry.IsCanonical

/-- A reference that tells of collected entries what it does not get from signatures. -/
structure Describes (database : Database) (entries : SortedMap String Entry) : Prop where
  names : database.names = entries.keys
  files : ∀ name,
    (database.get? name).map Entry.files = (entries.get? name).map Entry.files
  argumentCounts : ∀ name,
    database.argumentCount? name = (entries.get? name).map Entry.argumentCount

variable {database : Database} {entries : SortedMap String Entry}

theorem get?_ofEntries (entries : SortedMap String Entry) (name : String) :
    (ofEntries entries).get? name = (entries.get? name).map Entry.sorted :=
  SortedMap.get?_mapValues (fun _ entry => Entry.sorted entry) entries name

theorem ofEntries_isCanonical (pushes : List (String × Signature)) :
    (ofEntries (Entry.collect pushes)).IsCanonical := by
  intro name entry found
  rw [get?_ofEntries] at found
  rcases Option.map_eq_some_iff.mp found with ⟨collected, present, rfl⟩
  exact Entry.sorted_isCanonical (Entry.collect_allDocumented pushes name collected present)
    (Entry.collect_distinct present)

theorem ofEntries_describes (entries : SortedMap String Entry) :
    (ofEntries entries).Describes entries where
  names := SortedMap.keys_mapValues _ _
  files name := by
    rw [get?_ofEntries, Option.map_map]
    rfl
  argumentCounts name :=
    SortedMap.get?_mapValues (fun _ entry => Entry.argumentCount entry) entries name

theorem IsCanonical.simplified (canonical : database.IsCanonical) :
    database.simplified.IsCanonical := by
  intro name entry found
  rw [get?_simplified] at found
  rcases Option.map_eq_some_iff.mp found with ⟨present, known, rfl⟩
  exact Entry.simplified_isCanonical (canonical name present known).nonempty

theorem Describes.simplified (describes : database.Describes entries) :
    database.simplified.Describes entries where
  names := (SortedMap.keys_mapValues _ _).trans describes.names
  files name := by
    rw [← describes.files name, get?_simplified, Option.map_map]
    rfl
  argumentCounts := describes.argumentCounts

theorem eq_of_get?_eq {left right : Database}
    (entries : ∀ name, left.get? name = right.get? name)
    (counts : left.argumentCounts = right.argumentCounts) : left = right := by
  have same : left.entries = right.entries := SortedMap.eq_of_get?_eq entries
  cases left
  cases right
  cases same
  cases counts
  rfl

theorem simplified_simplified (database : Database) :
    database.simplified.simplified = database.simplified := by
  apply eq_of_get?_eq
  · intro name
    rw [get?_simplified, get?_simplified, Option.map_map]
    congr 1
    funext entry
    exact entry.simplified_simplified
  · rfl

/-! ## Any number of rounds -/

theorem iterate_simplified_isCanonical (pushes : List (String × Signature)) (rounds : Nat) :
    (simplified^[rounds] (ofEntries (Entry.collect pushes))).IsCanonical := by
  induction rounds with
  | zero => exact ofEntries_isCanonical pushes
  | succ rounds induction =>
      rw [Function.iterate_succ_apply']
      exact induction.simplified

theorem iterate_simplified_describes (entries : SortedMap String Entry) (rounds : Nat) :
    (simplified^[rounds] (ofEntries entries)).Describes entries := by
  induction rounds with
  | zero => exact ofEntries_describes entries
  | succ rounds induction =>
      rw [Function.iterate_succ_apply']
      exact induction.simplified

theorem ofFiles_isCanonical {configuration : Configuration} {files : List InterfaceFile}
    (built : (ofFiles configuration files).result = .ok database) : database.IsCanonical := by
  rcases Outcome.of_bind_eq_ok built with ⟨definitions, _, collects⟩
  rcases Outcome.of_bind_eq_ok collects with ⟨entries, collected, published⟩
  have chosen := Except.ok.inj published
  rw [(Entry.ofFiles_records collected).eq_collect] at chosen
  split at chosen
  case isTrue => exact chosen ▸ iterate_simplified_isCanonical _ 1
  case isFalse => exact chosen ▸ iterate_simplified_isCanonical _ 0

/-- However often the reference of collected entries is simplified, its entries are in
canonical form and have the names, source files and argument counts of what was collected.
Once it has been simplified, simplifying it again does not change it. -/
theorem iterate_simplified_invariant (pushes : List (String × Signature)) (rounds : Nat) :
    (simplified^[rounds] (ofEntries (Entry.collect pushes))).IsCanonical ∧
      (simplified^[rounds] (ofEntries (Entry.collect pushes))).Describes
        (Entry.collect pushes) ∧
      simplified^[rounds + 2] (ofEntries (Entry.collect pushes)) =
        simplified^[rounds + 1] (ofEntries (Entry.collect pushes)) := by
  have stays : simplified^[rounds + 2] (ofEntries (Entry.collect pushes)) =
      simplified^[rounds + 1] (ofEntries (Entry.collect pushes)) := by
    rw [Function.iterate_succ_apply', Function.iterate_succ_apply']
    exact simplified_simplified _
  exact ⟨iterate_simplified_isCanonical pushes rounds, iterate_simplified_describes _ rounds,
    stays⟩

private def textsIn (file : String) (texts : List (String × Bool)) : Signature :=
  ⟨texts.map fun text => (Argument.constant text.1).withOptional text.2, some file⟩

private def twoInX : Signature := textsIn "x.mkiv" [("a", false), ("b", false)]

private def oneInY : Signature := textsIn "y.mkiv" [("a!", false)]

private def shorterInZ : Signature := textsIn "z.mkiv" [("b", false)]

/-- The first signature as it covers the last one. Its text is then after that of the second
one. -/
private def relaxedInX : Signature := textsIn "x.mkiv" [("a", true), ("b", false)]

private def overtaken : List (String × Signature) :=
  [("foo", twoInX), ("foo", oneInY), ("foo", shorterInZ)]

private theorem simplify_overtaken :
    Signature.simplify [twoInX, oneInY, shorterInZ] = [relaxedInX, oneInY] := by
  have distinct : Signature.dropRepeated [twoInX, oneInY, shorterInZ] =
      [twoInX, oneInY, shorterInZ] := by decide
  have merge : Signature.firstMerge? [twoInX, oneInY, shorterInZ] =
      some ⟨0, 2, relaxedInX⟩ := by decide
  have none : Signature.firstMerge? [relaxedInX, oneInY] = none := by decide
  rw [Signature.simplify, distinct, Signature.mergeAll_of_some merge]
  exact Signature.mergeAll_of_none none

/-- Two signatures change places, the file of one that is gone is kept, and the second time
nothing is left to do. -/
theorem iterate_simplified_invariant_overtaken :
    ∃ entry, (ofEntries (Entry.collect overtaken)).simplified.get? "foo" = some entry ∧
      entry.signatures = [oneInY, relaxedInX] ∧
      entry.files.keys = ["x.mkiv", "y.mkiv", "z.mkiv"] ∧ entry.IsCanonical ∧
      (ofEntries (Entry.collect overtaken)).simplified.argumentCount? "foo" = some 2 ∧
      (ofEntries (Entry.collect overtaken)).simplified.simplified =
        (ofEntries (Entry.collect overtaken)).simplified := by
  rcases iterate_simplified_invariant overtaken 1 with ⟨canonical, describes, _⟩
  have stays := (iterate_simplified_invariant overtaken 0).2.2
  have collected : ((Entry.collect overtaken).get? "foo").map
      (fun entry => (entry.signatures, entry.files.keys)) =
        some ([twoInX, oneInY, shorterInZ], ["x.mkiv", "y.mkiv", "z.mkiv"]) := by decide
  rcases Option.map_eq_some_iff.mp collected with ⟨entry, found, same⟩
  rcases Prod.mk.inj same with ⟨signatures, files⟩
  have published : (ofEntries (Entry.collect overtaken)).simplified.get? "foo" =
      some entry.sorted.simplified := by
    rw [get?_simplified, get?_ofEntries, found]
    rfl
  have inOrder : entry.sorted.signatures = [twoInX, oneInY, shorterInZ] := by
    rw [Entry.sorted, signatures]
    exact Entry.sortSignatures_of_ordered (by decide)
  have reordered : entry.sorted.simplified.signatures = [oneInY, relaxedInX] := by
    rw [Entry.simplified, inOrder, simplify_overtaken]
    exact Entry.sortSignatures_eq_of_perm (List.Perm.swap _ _ _) (by decide)
  refine ⟨_, published, reordered, files, canonical "foo" _ published, ?_, stays⟩
  exact (describes.argumentCounts "foo").trans (by decide)

end Database

end CommandReference
