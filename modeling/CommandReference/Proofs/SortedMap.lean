import CommandReference.SortedMap
import Mathlib.Data.List.Induction

namespace CommandReference.SortedMap

/-! Lookup in sorted maps as membership of entries, and maps built from entries that
are sorted already. -/

theorem eq_of_entries_eq {κ : Type u} {β : Type v} [LT κ] {left right : SortedMap κ β}
    (equal : left.entries = right.entries) : left = right := by
  cases left
  cases right
  cases equal
  rfl

section
variable {κ : Type u} {β : Type v} {γ : Type w} [DecidableEq κ]

theorem mem_of_find?_eq_some {entries : List (κ × β)} {key : κ} {value : β}
    (found : find? key entries = some value) : (key, value) ∈ entries := by
  induction entries with
  | nil => cases found
  | cons head rest induction =>
      rw [find?] at found
      split at found
      case isTrue equal =>
        cases found
        exact equal ▸ List.mem_cons_self
      case isFalse => exact List.mem_cons_of_mem head (induction found)

theorem find?_eq_none_iff {entries : List (κ × β)} {key : κ} :
    find? key entries = none ↔ key ∉ entries.map Prod.fst := by
  induction entries with
  | nil => simp [find?]
  | cons entry rest induction =>
      rw [find?, List.map_cons, List.mem_cons, not_or]
      split
      case isTrue same => simp [same]
      case isFalse different => rw [induction, and_iff_right different]

theorem find?_map (transform : κ → β → γ) (key : κ) (entries : List (κ × β)) :
    find? key (entries.map fun entry => (entry.1, transform entry.1 entry.2)) =
      (find? key entries).map (transform key) := by
  induction entries with
  | nil => rfl
  | cons head rest induction =>
      rw [List.map_cons, find?, find?]
      split
      case isTrue equal => rw [equal]; rfl
      case isFalse => exact induction

theorem find?_filter (condition : κ → Bool) (key : κ) (entries : List (κ × β)) :
    find? key (entries.filter fun entry => condition entry.1) =
      if condition key then find? key entries else none := by
  induction entries with
  | nil => simp [find?]
  | cons entry rest induction =>
      by_cases same : key = entry.1
      · by_cases kept : condition entry.1 = true
        · simp [find?, same, kept]
        · simpa [kept, same] using induction
      · by_cases kept : condition entry.1 = true
        · simp [find?, same, kept, induction]
        · simp [find?, same, kept, induction]

variable [LT κ]

@[simp] theorem get?_mapValues (transform : κ → β → γ) (map : SortedMap κ β) (key : κ) :
    (map.mapValues transform).get? key = (map.get? key).map (transform key) :=
  find?_map transform key map.entries

theorem contains_mapValues (transform : κ → β → γ) (map : SortedMap κ β) :
    (map.mapValues transform).contains = map.contains := by
  funext key
  rw [contains, contains, get?_mapValues, Option.isSome_map]

theorem get?_filterKeys (condition : κ → Bool) (map : SortedMap κ β) (key : κ) :
    (map.filterKeys condition).get? key = if condition key then map.get? key else none :=
  find?_filter condition key map.entries

theorem alterEntries_ne_nil [DecidableLT κ] (key : κ) (update : Option β → β)
    (entries : List (κ × β)) : alterEntries key update entries ≠ [] := by
  cases entries with
  | nil => exact List.cons_ne_nil _ _
  | cons head rest =>
      rw [alterEntries]
      split
      · exact List.cons_ne_nil _ _
      split
      · exact List.cons_ne_nil _ _
      · exact List.cons_ne_nil _ _

theorem get?_eq_none_iff (map : SortedMap κ β) (key : κ) :
    map.get? key = none ↔ key ∉ map.keys :=
  find?_eq_none_iff

theorem mem_keys_iff (map : SortedMap κ β) (key : κ) :
    key ∈ map.keys ↔ map.get? key ≠ none :=
  (not_congr (map.get?_eq_none_iff key)).trans Decidable.not_not |>.symm

variable [KeyOrder κ]

theorem find?_eq_some_of_mem {entries : List (κ × β)}
    (sorted : entries.Pairwise fun left right => left.1 < right.1) {key : κ} {value : β}
    (member : (key, value) ∈ entries) : find? key entries = some value := by
  induction entries with
  | nil => cases member
  | cons head rest induction =>
      rcases List.pairwise_cons.mp sorted with ⟨above, restSorted⟩
      rw [find?]
      rcases List.mem_cons.mp member with equal | member
      · rw [← equal, if_pos rfl]
      · have different : key ≠ head.1 := fun equal =>
          KeyOrder.irrefl key (equal ▸ above (key, value) member)
        rw [if_neg different]
        exact induction restSorted member

theorem get?_eq_some_iff (map : SortedMap κ β) (key : κ) (value : β) :
    map.get? key = some value ↔ (key, value) ∈ map.entries :=
  ⟨mem_of_find?_eq_some, find?_eq_some_of_mem map.sorted⟩

theorem eq_of_get?_eq {left right : SortedMap κ β}
    (same : ∀ key, left.get? key = right.get? key) : left = right := by
  have distinct (map : SortedMap κ β) : map.entries.Nodup := by
    refine map.sorted.imp fun before => ?_
    rintro rfl
    exact KeyOrder.irrefl _ before
  have perm : left.entries.Perm right.entries := by
    refine (List.perm_ext_iff_of_nodup (distinct left) (distinct right)).mpr ?_
    rintro ⟨key, value⟩
    rw [← left.get?_eq_some_iff, same, right.get?_eq_some_iff]
  refine eq_of_entries_eq (perm.eq_of_pairwise ?_ left.sorted right.sorted)
  intro _ _ _ _ before after
  exact absurd (KeyOrder.trans before after) (KeyOrder.irrefl _)

/-! ## Building maps -/

variable [DecidableLT κ]

theorem alterEntries_of_greater {entries : List (κ × β)} {key : κ}
    (update : Option β → β) (greater : ∀ entry ∈ entries, entry.1 < key) :
    alterEntries key update entries = entries ++ [(key, update none)] := by
  induction entries with
  | nil => rfl
  | cons head rest induction =>
      have below : head.1 < key := greater head List.mem_cons_self
      have notBefore : ¬ key < head.1 := fun before =>
        KeyOrder.irrefl key (KeyOrder.trans before below)
      have different : key ≠ head.1 := fun equal => KeyOrder.irrefl key (equal ▸ below)
      rw [alterEntries, if_neg notBefore, if_neg different, List.cons_append,
        induction fun entry member => greater entry (List.mem_cons_of_mem head member)]

theorem foldl_insert_entries {entries : List (κ × β)} (map : SortedMap κ β)
    (sorted : (map.entries ++ entries).Pairwise fun left right => left.1 < right.1) :
    (entries.foldl (fun map entry => map.insert entry.1 entry.2) map).entries =
      map.entries ++ entries := by
  induction entries generalizing map with
  | nil => exact (List.append_nil map.entries).symm
  | cons entry rest induction =>
      have inserted : (map.insert entry.1 entry.2).entries = map.entries ++ [entry] := by
        refine alterEntries_of_greater _ fun other member => ?_
        exact (List.pairwise_append.mp sorted).2.2 other member entry List.mem_cons_self
      rw [List.foldl_cons, induction, inserted, List.append_assoc, List.singleton_append]
      rw [inserted, List.append_assoc, List.singleton_append]
      exact sorted

theorem entries_ofList {entries : List (κ × β)}
    (sorted : entries.Pairwise fun left right => left.1 < right.1) :
    (ofList entries).entries = entries :=
  foldl_insert_entries empty sorted

theorem ofList_entries (map : SortedMap κ β) : ofList map.entries = map :=
  eq_of_entries_eq (entries_ofList map.sorted)

theorem get?_ofList (entries : List (κ × β)) (key : κ) :
    (ofList entries).get? key = find? key entries.reverse := by
  induction entries using List.reverseRecOn with
  | nil => rfl
  | append_singleton entries last induction =>
      have inserted : ofList (entries ++ [last]) = (ofList entries).insert last.1 last.2 := by
        rw [ofList, List.foldl_append]
        rfl
      rw [inserted, List.reverse_append, List.reverse_singleton, List.singleton_append, find?]
      split
      case isTrue same => rw [same, get?_insert_self]
      case isFalse different => rw [get?_insert_ne _ different, induction]

theorem mem_keys_ofList {entries : List (κ × β)} {key : κ} :
    key ∈ (ofList entries).keys ↔ key ∈ entries.map Prod.fst := by
  rw [mem_keys_iff, get?_ofList, ne_eq, find?_eq_none_iff, Decidable.not_not,
    List.map_reverse, List.mem_reverse]

end

end CommandReference.SortedMap
