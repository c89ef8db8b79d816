namespace CommandReference

/-! What is known about a computation from its result: if it comes to a value, so do the
parts that it needs. And values that are read back one by one are read back together. -/

variable {ε : Type u} {α : Type v} {β : Type w} {result : Except ε α}

theorem of_bind_eq_ok {next : α → Except ε β} {value : β}
    (succeeded : result.bind next = .ok value) :
    ∃ own, result = .ok own ∧ next own = .ok value := by
  cases result with
  | error reason => cases succeeded
  | ok own => exact ⟨own, rfl, succeeded⟩

theorem of_map_eq_ok {transform : α → β} {value : β}
    (succeeded : result.map transform = .ok value) :
    ∃ own, result = .ok own ∧ value = transform own := by
  cases result with
  | error reason => cases succeeded
  | ok own => exact ⟨own, rfl, (Except.ok.inj succeeded).symm⟩

theorem of_toOption_eq_some {value : α} (found : result.toOption = some value) :
    result = .ok value := by
  cases result with
  | error reason => cases found
  | ok own => exact congrArg Except.ok (Option.some.inj found)

theorem toOption_map (transform : α → β) (result : Except ε α) :
    (result.map transform).toOption = result.toOption.map transform := by
  cases result <;> rfl

theorem toOption_bind (result : Except ε α) (next : α → Except ε β) :
    (result.bind next).toOption = result.toOption.bind fun value => (next value).toOption := by
  cases result <;> rfl

theorem exists_of_mem_mapM {function : α → Except ε β} {items : List α} {results : List β}
    (mapped : items.mapM function = .ok results) {value : β} (member : value ∈ results) :
    ∃ item ∈ items, function item = .ok value := by
  induction items generalizing results with
  | nil =>
      cases mapped
      cases member
  | cons item rest induction =>
      rw [List.mapM_cons] at mapped
      rcases of_bind_eq_ok mapped with ⟨first, own, later⟩
      rcases of_bind_eq_ok later with ⟨others, further, joined⟩
      cases joined
      rcases List.mem_cons.mp member with rfl | inOthers
      · exact ⟨item, List.mem_cons_self, own⟩
      · rcases induction further inOthers with ⟨source, inRest, gives⟩
        exact ⟨source, List.mem_cons_of_mem _ inRest, gives⟩

theorem mapM_map_of_reads {write : α → β} {read : β → Option α} {values : List α}
    (reads : ∀ value ∈ values, read (write value) = some value) :
    (values.map write).mapM read = some values := by
  induction values with
  | nil => rfl
  | cons value rest induction =>
      rcases List.forall_mem_cons.mp reads with ⟨readsFirst, readsRest⟩
      rw [List.map_cons, List.mapM_cons, readsFirst, induction readsRest]
      rfl

end CommandReference
