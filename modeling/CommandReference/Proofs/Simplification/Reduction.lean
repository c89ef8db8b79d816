import CommandReference.Proofs.Simplification.Covering

namespace CommandReference

/-! Simplification loses nothing and invents nothing. What a signature accepts is
what can be written for it, flags of arguments forgotten. One merge keeps all
that is accepted, in one signature for each, and so does a run of merges. -/

/-! ## What a signature accepts -/

def Argument.unmarked (argument : Argument) : Argument := argument.withOptional false

theorem Argument.RelaxesTo.unmarked_eq {argument relaxed : Argument}
    (relaxes : argument.RelaxesTo relaxed) : relaxed.unmarked = argument.unmarked := by
  rcases relaxes with rfl | rfl <;> rfl

theorem Argument.RelaxesTo.optional {argument relaxed : Argument}
    (relaxes : argument.RelaxesTo relaxed) (optional : argument.optional = true) :
    relaxed.optional = true := by
  rcases relaxes with rfl | rfl
  · exact optional
  · rfl

theorem Shortens.refl (arguments : List Argument) : Shortens arguments arguments := by
  induction arguments with
  | nil => exact .nil
  | cons argument rest induction => exact .keep argument induction

theorem Shortens.trans {full middle short : List Argument}
    (before : Shortens full middle) (after : Shortens middle short) :
    Shortens full short := by
  induction before generalizing short with
  | nil => exact after
  | drop optional _ induction => exact .drop optional (induction after)
  | keep argument _ induction =>
      cases after with
      | keep _ after => exact .keep argument (induction after)
      | drop optional after => exact .drop optional (induction after)

theorem Shortens.of_relaxes {arguments relaxed short : List Argument}
    (shortens : Shortens arguments short)
    (relaxes : List.Forall₂ Argument.RelaxesTo arguments relaxed) :
    ∃ relaxedShort, Shortens relaxed relaxedShort ∧
      relaxedShort.map Argument.unmarked = short.map Argument.unmarked := by
  induction shortens generalizing relaxed with
  | nil =>
      cases relaxes
      exact ⟨[], .nil, rfl⟩
  | keep argument _ induction =>
      cases relaxes with
      | cons head tail =>
          rcases induction tail with ⟨relaxedShort, shortens, equal⟩
          refine ⟨_, .keep _ shortens, ?_⟩
          rw [List.map_cons, List.map_cons, head.unmarked_eq, equal]
  | drop optional _ induction =>
      cases relaxes with
      | cons head tail =>
          rcases induction tail with ⟨relaxedShort, shortens, equal⟩
          exact ⟨relaxedShort, .drop (head.optional optional) shortens, equal⟩

namespace Signature

/-- The arguments that remain when some optional ones are left out, flags
forgotten. -/
def Accepts (signature : Signature) (reading : List Argument) : Prop :=
  ∃ short, Shortens signature.arguments short ∧ short.map Argument.unmarked = reading

def CoveredBy (signature cover : Signature) : Prop :=
  ∀ reading, signature.Accepts reading → cover.Accepts reading

theorem CoveredBy.trans {first second third : Signature}
    (before : first.CoveredBy second) (after : second.CoveredBy third) :
    first.CoveredBy third :=
  fun reading accepted => after reading (before reading accepted)

theorem CoveredBy.of_arguments_eq {signature cover : Signature}
    (equal : cover.arguments = signature.arguments) : signature.CoveredBy cover := by
  intro reading accepted
  rw [Accepts, equal]
  exact accepted

theorem CoveredBy.of_shortens {signature cover : Signature}
    (shortens : Shortens cover.arguments signature.arguments) :
    signature.CoveredBy cover := by
  rintro reading ⟨short, further, equal⟩
  exact ⟨short, shortens.trans further, equal⟩

theorem RelaxesTo.coveredBy {signature relaxed : Signature}
    (relaxes : signature.RelaxesTo relaxed) : signature.CoveredBy relaxed := by
  rintro reading ⟨short, shortens, equal⟩
  rcases shortens.of_relaxes relaxes.arguments with ⟨relaxedShort, relaxedShortens, same⟩
  exact ⟨relaxedShort, relaxedShortens, same.trans equal⟩

/-! ## Dropping repetitions -/

theorem dropRepeated_concat (signatures : List Signature) (last : Signature) :
    dropRepeated (signatures ++ [last]) =
      if (dropRepeated signatures).any (·.sameArguments last) then dropRepeated signatures
      else dropRepeated signatures ++ [last] := by
  rw [dropRepeated, List.foldl_append]
  rfl

theorem dropRepeated_sublist (signatures : List Signature) :
    (dropRepeated signatures).Sublist signatures := by
  induction signatures using List.reverseRecOn with
  | nil => exact .slnil
  | append_singleton signatures last induction =>
      rw [dropRepeated_concat]
      split
      · exact induction.trans (List.sublist_append_left signatures [last])
      · exact induction.append_right [last]

theorem exists_mem_dropRepeated {signatures : List Signature} {signature : Signature}
    (member : signature ∈ signatures) :
    ∃ kept ∈ dropRepeated signatures, kept.arguments = signature.arguments := by
  induction signatures using List.reverseRecOn with
  | nil => cases member
  | append_singleton signatures last induction =>
      rw [dropRepeated_concat]
      rcases List.mem_append.mp member with member | member
      · rcases induction member with ⟨kept, keptMember, equal⟩
        split
        · exact ⟨kept, keptMember, equal⟩
        · exact ⟨kept, List.mem_append_left [last] keptMember, equal⟩
      · have equal := List.mem_singleton.mp member
        subst equal
        split
        case isTrue repeated =>
          rcases List.any_eq_true.mp repeated with ⟨kept, keptMember, same⟩
          exact ⟨kept, keptMember, of_decide_eq_true same⟩
        case isFalse => exact ⟨signature, by simp, rfl⟩

/-! ## Merging -/

/-- What a merge does: it joins two signatures in different places, and the first
one is generalized to cover the other one. -/
theorem firstMerge?_eq_some {signatures : List Signature} {merge : Merge}
    (found : firstMerge? signatures = some merge) :
    ∃ master other, signatures[merge.master]? = some master ∧
      signatures[merge.other]? = some other ∧ merge.master ≠ merge.other ∧
      master.generalize? other = some merge.merged := by
  rcases List.exists_of_findSome?_eq_some found with
    ⟨⟨master, masterIndex⟩, masterMember, found⟩
  rcases List.exists_of_findSome?_eq_some found with
    ⟨⟨other, otherIndex⟩, otherMember, found⟩
  dsimp only at found
  split at found
  case isTrue => cases found
  case isFalse different =>
    rcases Option.map_eq_some_iff.mp found with ⟨merged, generalized, rfl⟩
    exact ⟨master, other, List.mem_zipIdx_iff_getElem?.mp masterMember,
      List.mem_zipIdx_iff_getElem?.mp otherMember, different, generalized⟩

/-- What becomes of signatures when some are merged into others: nothing that was
accepted is lost, and each one that is left is one of them, relaxed. -/
structure ReducesTo (signatures result : List Signature) : Prop where
  covered : ∀ signature ∈ signatures, ∃ kept ∈ result, signature.CoveredBy kept
  kept : List.SublistForall₂ (flip RelaxesTo) result signatures

instance : Std.Refl (flip RelaxesTo) := ⟨RelaxesTo.refl⟩

instance : IsTrans Signature (flip RelaxesTo) :=
  ⟨fun _ _ _ later earlier => earlier.trans later⟩

theorem ReducesTo.refl (signatures : List Signature) : ReducesTo signatures signatures where
  covered signature member := ⟨signature, member, (RelaxesTo.refl signature).coveredBy⟩
  kept := Std.Refl.refl signatures

theorem ReducesTo.trans {first second third : List Signature}
    (before : ReducesTo first second) (after : ReducesTo second third) :
    ReducesTo first third where
  covered signature member := by
    rcases before.covered signature member with ⟨middle, middleMember, covered⟩
    rcases after.covered middle middleMember with ⟨kept, keptMember, coveredAfter⟩
    exact ⟨kept, keptMember, covered.trans coveredAfter⟩
  kept := IsTrans.trans _ _ _ after.kept before.kept

theorem forall₂_set {signatures : List Signature} {index : Nat}
    {signature relaxed : Signature} (present : signatures[index]? = some signature)
    (relaxes : signature.RelaxesTo relaxed) :
    List.Forall₂ (flip RelaxesTo) (signatures.set index relaxed) signatures := by
  induction signatures generalizing index with
  | nil => cases present
  | cons head tail induction =>
      cases index with
      | zero =>
          cases present
          exact .cons relaxes (List.forall₂_refl tail)
      | succ index => exact .cons (RelaxesTo.refl head) (induction present)

theorem Merge.apply_reducesTo {signatures : List Signature} {merge : Merge}
    (found : firstMerge? signatures = some merge) :
    ReducesTo signatures (merge.apply signatures) := by
  rcases firstMerge?_eq_some found with
    ⟨master, other, atMaster, atOther, different, generalized⟩
  rcases generalize?_eq_some generalized with ⟨relaxes, shortens⟩
  have mergedMember : merge.merged ∈ merge.apply signatures := by
    have bound := (List.getElem?_eq_some_iff.mp atMaster).1
    exact List.mem_eraseIdx_iff_getElem?.mpr
      ⟨merge.master, different, List.getElem?_set_self bound⟩
  constructor
  · intro signature member
    rcases List.mem_iff_getElem?.mp member with ⟨index, present⟩
    by_cases isMaster : index = merge.master
    · subst isMaster
      cases present.symm.trans atMaster
      exact ⟨merge.merged, mergedMember, relaxes.coveredBy⟩
    · by_cases isOther : index = merge.other
      · subst isOther
        cases present.symm.trans atOther
        exact ⟨merge.merged, mergedMember, .of_shortens shortens⟩
      · refine ⟨signature, ?_, (RelaxesTo.refl signature).coveredBy⟩
        refine List.mem_eraseIdx_iff_getElem?.mpr ⟨index, isOther, ?_⟩
        rw [List.getElem?_set_ne (Ne.symm isMaster)]
        exact present
  · have erased : (merge.apply signatures).Sublist (signatures.set merge.master merge.merged) :=
      List.eraseIdx_sublist _ _
    exact IsTrans.trans _ _ _ erased.sublistForall₂
      (List.sublistForall₂_iff.mpr ⟨_, forall₂_set atMaster relaxes, .refl _⟩)

theorem mergeAll_of_none {signatures : List Signature}
    (none : firstMerge? signatures = none) : mergeAll signatures = signatures := by
  rw [mergeAll]
  split
  · rfl
  · simp_all

theorem mergeAll_of_some {signatures : List Signature} {merge : Merge}
    (found : firstMerge? signatures = some merge) :
    mergeAll signatures = mergeAll (merge.apply signatures) := by
  rw [mergeAll]
  split
  · simp_all
  · simp_all

theorem mergeAll_reducesTo (signatures : List Signature) :
    ReducesTo signatures (mergeAll signatures) := by
  induction signatures using mergeAll.induct with
  | case1 signatures none =>
      rw [mergeAll_of_none none]
      exact .refl signatures
  | case2 signatures merge found induction =>
      rw [mergeAll_of_some found]
      exact (Merge.apply_reducesTo found).trans induction

/-! ## Simplification -/

theorem dropRepeated_covered {signatures : List Signature} {signature : Signature}
    (member : signature ∈ signatures) :
    ∃ kept ∈ dropRepeated signatures, signature.CoveredBy kept := by
  rcases exists_mem_dropRepeated member with ⟨kept, keptMember, equal⟩
  exact ⟨kept, keptMember, .of_arguments_eq equal⟩

theorem simplify_covered {signatures : List Signature} {signature : Signature}
    (member : signature ∈ signatures) :
    ∃ kept ∈ simplify signatures, signature.CoveredBy kept := by
  rcases dropRepeated_covered member with ⟨first, firstMember, covered⟩
  rcases (mergeAll_reducesTo (dropRepeated signatures)).covered first firstMember with
    ⟨kept, keptMember, coveredAfter⟩
  exact ⟨kept, keptMember, covered.trans coveredAfter⟩

theorem simplify_relaxes (signatures : List Signature) :
    ∃ originals, originals.Sublist (dropRepeated signatures) ∧
      List.Forall₂ RelaxesTo originals (simplify signatures) := by
  have kept := (mergeAll_reducesTo (dropRepeated signatures)).kept
  rcases List.sublistForall₂_iff.mp kept with ⟨originals, relaxes, sublist⟩
  exact ⟨originals, sublist, relaxes.flip⟩

theorem length_simplify_le (signatures : List Signature) :
    (simplify signatures).length ≤ signatures.length := by
  rcases simplify_relaxes signatures with ⟨originals, sublist, relaxes⟩
  calc (simplify signatures).length
      = originals.length := relaxes.length_eq.symm
    _ ≤ (dropRepeated signatures).length := sublist.length_le
    _ ≤ signatures.length := (dropRepeated_sublist signatures).length_le

theorem simplify_ne_nil {signatures : List Signature} (nonempty : signatures ≠ []) :
    simplify signatures ≠ [] := by
  rcases List.exists_mem_of_ne_nil signatures nonempty with ⟨signature, member⟩
  rcases simplify_covered member with ⟨kept, keptMember, _⟩
  exact List.ne_nil_of_mem keptMember

/-- Simplification loses nothing: one signature that is left accepts all that a given
one accepts. It invents nothing either: what is left are some of the signatures
without repetitions, in their order, with nothing changed but arguments that have
become optional. -/
theorem simplify_keeps_accepted (signatures : List Signature) :
    (∀ signature ∈ signatures, ∃ kept ∈ simplify signatures,
        ∀ reading, signature.Accepts reading → kept.Accepts reading) ∧
      (∃ originals, originals.Sublist (dropRepeated signatures) ∧
        List.Forall₂ RelaxesTo originals (simplify signatures)) ∧
      (simplify signatures).length ≤ signatures.length ∧
      (signatures ≠ [] → simplify signatures ≠ []) :=
  ⟨fun _ member => simplify_covered member, simplify_relaxes signatures,
    length_simplify_le signatures, simplify_ne_nil⟩

private def oneText : Signature := ⟨[.constant "A"], some "a"⟩

private def twoTexts : Signature := ⟨[.constant "A", .constant "B"], some "b"⟩

theorem simplify_keeps_accepted_shorter :
    oneText ∈ [oneText, twoTexts] ∧ [oneText, twoTexts] ≠ [] ∧
      (∃ kept ∈ simplify [oneText, twoTexts],
        ∀ reading, oneText.Accepts reading → kept.Accepts reading) ∧
      simplify [oneText, twoTexts] ≠ [] := by
  have member : oneText ∈ [oneText, twoTexts] := List.mem_cons_self
  have nonempty : [oneText, twoTexts] ≠ [] := List.cons_ne_nil oneText [twoTexts]
  have keeps := simplify_keeps_accepted [oneText, twoTexts]
  exact ⟨member, nonempty, keeps.1 oneText member, keeps.2.2.2 nonempty⟩

end Signature

end CommandReference
