import CommandReference.Proofs.Simplification.Reduction
import Mathlib.Data.List.InsertIdx

namespace CommandReference.Signature

/-! Simplification does not look at source files. What is left of signatures without their
files is what is left of the signatures, without their files. -/

def unattributed (signature : Signature) : Signature := { signature with file? := none }

theorem unattributed_eq_iff {left right : Signature} :
    left.unattributed = right.unattributed ↔ left.arguments = right.arguments := by
  rw [unattributed, unattributed, mk.injEq]
  exact and_iff_left rfl

/-! ## Repetitions -/

theorem any_sameArguments_unattributed (kept : List Signature) (signature : Signature) :
    (kept.map unattributed).any (·.sameArguments signature.unattributed) =
      kept.any (·.sameArguments signature) := by
  rw [List.any_map]
  rfl

theorem dropRepeated_unattributed (signatures : List Signature) :
    dropRepeated (signatures.map unattributed) = (dropRepeated signatures).map unattributed := by
  induction signatures using List.reverseRecOn with
  | nil => rfl
  | append_singleton signatures last induction =>
      rw [List.map_append, List.map_singleton, dropRepeated_concat, dropRepeated_concat,
        induction, any_sameArguments_unattributed]
      split
      · rfl
      · rw [List.map_append, List.map_singleton]

/-! ## Merges -/

theorem generalize?_unattributed (signature other : Signature) :
    signature.unattributed.generalize? other.unattributed =
      (signature.generalize? other).map unattributed := by
  rw [generalize?, generalize?]
  dsimp only [unattributed]
  rw [apply_ite (Option.map _), apply_ite (Option.map _)]
  rfl

def Merge.unattributed (merge : Merge) : Merge :=
  { merge with merged := merge.merged.unattributed }

theorem firstMerge?_unattributed (signatures : List Signature) :
    firstMerge? (signatures.map unattributed) =
      (firstMerge? signatures).map Merge.unattributed := by
  rw [firstMerge?, firstMerge?, List.zipIdx_map, List.findSome?_map, List.map_findSome?]
  refine congrArg (signatures.zipIdx.findSome? ·) (funext fun master => ?_)
  dsimp only [Function.comp_apply, Prod.map_fst, Prod.map_snd, id_eq]
  rw [List.findSome?_map, List.map_findSome?]
  refine congrArg (signatures.zipIdx.findSome? ·) (funext fun other => ?_)
  dsimp only [Function.comp_apply, Prod.map_fst, Prod.map_snd, id_eq]
  rw [generalize?_unattributed]
  split
  · rfl
  · cases master.1.generalize? other.1 <;> rfl

theorem Merge.apply_unattributed (merge : Merge) (signatures : List Signature) :
    merge.unattributed.apply (signatures.map Signature.unattributed) =
      (merge.apply signatures).map Signature.unattributed := by
  rw [Merge.apply, Merge.apply, ← List.eraseIdx_map, List.map_set]
  rfl

theorem mergeAll_unattributed (signatures : List Signature) :
    mergeAll (signatures.map unattributed) = (mergeAll signatures).map unattributed := by
  induction signatures using mergeAll.induct with
  | case1 signatures none =>
      have noMerge : firstMerge? (signatures.map unattributed) = .none := by
        rw [firstMerge?_unattributed, none]
        rfl
      rw [mergeAll_of_none none, mergeAll_of_none noMerge]
  | case2 signatures merge found induction =>
      have sameMerge : firstMerge? (signatures.map unattributed) = some merge.unattributed := by
        rw [firstMerge?_unattributed, found]
        rfl
      rw [mergeAll_of_some found, mergeAll_of_some sameMerge, Merge.apply_unattributed, induction]

theorem simplify_unattributed (signatures : List Signature) :
    simplify (signatures.map unattributed) = (simplify signatures).map unattributed := by
  rw [simplify, dropRepeated_unattributed, mergeAll_unattributed, simplify]

end CommandReference.Signature
