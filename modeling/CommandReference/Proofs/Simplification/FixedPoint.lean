import CommandReference.Proofs.Simplification.Reduction

namespace CommandReference

/-! Where simplification ends. No signature that is left can be made to cover another one,
so there are no two with the same arguments, and nothing happens to them when they are
simplified again, whatever the order they are in then. -/

namespace Signature

variable {signatures others : List Signature}

/-! ## Signatures that cannot be merged -/

/-- No signature can be made to cover one in another place. -/
def Irreducible (signatures : List Signature) : Prop :=
  signatures.Pairwise fun left right =>
    left.generalize? right = none ∧ right.generalize? left = none

theorem Irreducible.perm (irreducible : Irreducible signatures)
    (perm : signatures.Perm others) : Irreducible others :=
  (perm.pairwise_iff And.symm).mp irreducible

theorem firstMerge?_eq_none_iff :
    firstMerge? signatures = none ↔
      ∀ (master : Nat) (left : Signature) (other : Nat) (right : Signature),
        signatures[master]? = some left → signatures[other]? = some right →
          master ≠ other → left.generalize? right = none := by
  rw [firstMerge?, List.findSome?_eq_none_iff]
  constructor
  · intro none master left other right atMaster atOther different
    have noOther := none (left, master) (List.mem_zipIdx_iff_getElem?.mpr atMaster)
    have refused := List.findSome?_eq_none_iff.mp noOther (right, other)
      (List.mem_zipIdx_iff_getElem?.mpr atOther)
    dsimp only at refused
    rw [if_neg different] at refused
    exact Option.map_eq_none_iff.mp refused
  · rintro none ⟨left, master⟩ atMaster
    refine List.findSome?_eq_none_iff.mpr ?_
    rintro ⟨right, other⟩ atOther
    dsimp only
    split
    case isTrue => rfl
    case isFalse different =>
      exact Option.map_eq_none_iff.mpr (none master left other right
        (List.mem_zipIdx_iff_getElem?.mp atMaster) (List.mem_zipIdx_iff_getElem?.mp atOther)
        different)

theorem irreducible_iff : Irreducible signatures ↔ firstMerge? signatures = none := by
  rw [Irreducible, List.pairwise_iff_getElem, firstMerge?_eq_none_iff]
  constructor
  · intro pairs master left other right atMaster atOther different
    rcases List.getElem?_eq_some_iff.mp atMaster with ⟨masterBound, rfl⟩
    rcases List.getElem?_eq_some_iff.mp atOther with ⟨otherBound, rfl⟩
    rcases Nat.lt_or_gt_of_ne different with before | after
    · exact (pairs master other masterBound otherBound before).1
    · exact (pairs other master otherBound masterBound after).2
  · intro none first second firstBound secondBound before
    have atFirst := List.getElem?_eq_getElem firstBound
    have atSecond := List.getElem?_eq_getElem secondBound
    exact ⟨none _ _ _ _ atFirst atSecond (Nat.ne_of_lt before),
      none _ _ _ _ atSecond atFirst (Nat.ne_of_gt before)⟩

theorem mergeAll_irreducible (signatures : List Signature) :
    Irreducible (mergeAll signatures) := by
  induction signatures using mergeAll.induct with
  | case1 signatures none =>
      rw [mergeAll_of_none none]
      exact irreducible_iff.mpr none
  | case2 signatures merge found induction =>
      rw [mergeAll_of_some found]
      exact induction

/-! ## Signatures with the same arguments -/

theorem reaches_ofArgument (arguments : List Argument) :
    Position.reaches (arguments.map Position.ofArgument) arguments = true := by
  induction arguments with
  | nil => rfl
  | cons argument rest induction =>
      have meets : (Position.ofArgument argument).mayBe argument = true := by
        rw [Position.mayBe, List.contains_iff_mem, Position.forms, Position.ofArgument]
        cases argument.optional with
        | true | false => exact List.mem_cons_self
      rw [List.map_cons, Position.reaches, meets, induction]
      exact Bool.or_true _

theorem generalize?_ne_none {left right : Signature}
    (same : left.arguments = right.arguments) : left.generalize? right ≠ none := by
  rw [generalize?, ← same]
  dsimp only
  rw [if_neg (Nat.lt_irrefl _), Position.cover_eq_reaches, if_pos (reaches_ofArgument _)]
  exact Option.some_ne_none _

def Distinct (signatures : List Signature) : Prop :=
  signatures.Pairwise fun left right => left.arguments ≠ right.arguments

theorem Distinct.perm (distinct : Distinct signatures) (perm : signatures.Perm others) :
    Distinct others :=
  (perm.pairwise_iff Ne.symm).mp distinct

theorem Irreducible.distinct (irreducible : Irreducible signatures) :
    Distinct signatures := by
  refine List.Pairwise.imp ?_ irreducible
  intro left right apart same
  exact generalize?_ne_none same apart.1

theorem distinct_concat {last : Signature} :
    Distinct (signatures ++ [last]) ↔
      Distinct signatures ∧ signatures.any (·.sameArguments last) = false := by
  rw [Distinct, List.pairwise_append, List.any_eq_false]
  refine and_congr_right fun _ => ?_
  rw [and_iff_right (List.pairwise_singleton _ _)]
  refine forall_congr' fun signature => forall_congr' fun _ => ?_
  rw [List.forall_mem_singleton, sameArguments, decide_eq_true_iff]

theorem dropRepeated_distinct (signatures : List Signature) :
    Distinct (dropRepeated signatures) := by
  induction signatures using List.reverseRecOn with
  | nil => exact .nil
  | append_singleton signatures last induction =>
      rw [dropRepeated_concat]
      split
      case isTrue => exact induction
      case isFalse new => exact distinct_concat.mpr ⟨induction, Bool.not_eq_true _ ▸ new⟩

theorem dropRepeated_of_distinct (distinct : Distinct signatures) :
    dropRepeated signatures = signatures := by
  induction signatures using List.reverseRecOn with
  | nil => rfl
  | append_singleton signatures last induction =>
      rcases distinct_concat.mp distinct with ⟨earlier, new⟩
      rw [dropRepeated_concat, induction earlier, new]
      exact if_neg Bool.false_ne_true

/-! ## Simplifying again -/

theorem simplify_irreducible (signatures : List Signature) :
    Irreducible (simplify signatures) :=
  mergeAll_irreducible (dropRepeated signatures)

theorem simplify_of_irreducible (irreducible : Irreducible signatures) :
    simplify signatures = signatures := by
  rw [simplify, dropRepeated_of_distinct irreducible.distinct,
    mergeAll_of_none (irreducible_iff.mp irreducible)]

/-- Simplification ends where nothing is left to merge: none of its signatures can be made to
cover one in another place, so no two of them have the same arguments. They stay as they are
when they are simplified again, in whatever order. -/
theorem simplify_settled (signatures : List Signature) :
    (∀ (master : Nat) (left : Signature) (other : Nat) (right : Signature),
        (simplify signatures)[master]? = some left →
          (simplify signatures)[other]? = some right → master ≠ other →
            left.generalize? right = none ∧ left.sameArguments right = false) ∧
      (∀ reordered, (simplify signatures).Perm reordered → simplify reordered = reordered) ∧
      simplify (simplify signatures) = simplify signatures := by
  have irreducible := simplify_irreducible signatures
  refine ⟨?_, fun reordered perm => simplify_of_irreducible (irreducible.perm perm),
    simplify_of_irreducible irreducible⟩
  intro master left other right atMaster atOther different
  have refused : left.generalize? right = none :=
    firstMerge?_eq_none_iff.mp (irreducible_iff.mp irreducible) master left other right
      atMaster atOther different
  have apart : left.arguments ≠ right.arguments := fun same =>
    generalize?_ne_none same refused
  exact ⟨refused, decide_eq_false apart⟩

private def withLetters (letters : List (String × Bool)) : Signature :=
  ⟨letters.map fun letter => (Argument.constant letter.1).withOptional letter.2, none⟩

private def threeLetters : Signature :=
  withLetters [("A", false), ("B", false), ("C", false)]

private def lastLetters : Signature := withLetters [("B", false), ("C", false)]

private def firstOptional : Signature := withLetters [("A", true), ("B", false), ("C", false)]

private def otherLetter : Signature := withLetters [("D", false)]

private theorem simplify_threeLetters :
    simplify [threeLetters, firstOptional, otherLetter, lastLetters] =
      [firstOptional, otherLetter] := by
  have distinct : dropRepeated [threeLetters, firstOptional, otherLetter, lastLetters] =
      [threeLetters, firstOptional, otherLetter, lastLetters] := by decide
  have copied : firstMerge? [threeLetters, firstOptional, otherLetter, lastLetters] =
      some ⟨0, 1, firstOptional⟩ := by decide
  have absorbed : firstMerge? [firstOptional, otherLetter, lastLetters] =
      some ⟨0, 2, firstOptional⟩ := by decide
  have none : firstMerge? [firstOptional, otherLetter] = none := by decide
  rw [simplify, distinct, mergeAll_of_some copied]
  exact (mergeAll_of_some absorbed).trans (mergeAll_of_none none)

/-- The first merge makes a copy of the signature that goes. What is left in the end does not
change when it is turned round. -/
theorem simplify_settled_copy :
    firstOptional.generalize? otherLetter = none ∧
      otherLetter.generalize? firstOptional = none ∧
      simplify [otherLetter, firstOptional] = [otherLetter, firstOptional] := by
  have left := simplify_threeLetters
  rcases simplify_settled [threeLetters, firstOptional, otherLetter, lastLetters] with
    ⟨apart, reordered, _⟩
  rw [left] at apart reordered
  exact ⟨(apart 0 firstOptional 1 otherLetter rfl rfl (by decide)).1,
    (apart 1 otherLetter 0 firstOptional rfl rfl (by decide)).1,
    reordered [otherLetter, firstOptional] (.swap _ _ _)⟩

end Signature

end CommandReference
