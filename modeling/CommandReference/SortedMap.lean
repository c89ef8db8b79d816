namespace CommandReference

/-! Finite maps whose entries are kept in the order of their keys. Two maps with
the same entries are equal, so a map is also the canonical form of its contents,
and reading it off from front to back visits the keys in order. Text keys are
ordered by code point, which is the order of their UTF-8 bytes. -/

/-- Keys that can be put in order: of two different keys, exactly one comes
first. -/
class KeyOrder (κ : Type u) [LT κ] : Prop where
  irrefl (key : κ) : ¬ key < key
  trans {first second third : κ} : first < second → second < third → first < third
  connected {first second : κ} : ¬ first < second → first ≠ second → second < first

instance : KeyOrder String where
  irrefl _ := Std.lt_irrefl
  trans := Std.lt_trans
  connected notBelow different :=
    Std.lt_of_le_of_ne (Std.not_lt.mp notBelow) (Ne.symm different)

instance : KeyOrder (List String) where
  irrefl _ := Std.lt_irrefl
  trans := Std.lt_trans
  connected notBelow different :=
    Std.lt_of_le_of_ne (Std.not_lt.mp notBelow) (Ne.symm different)

structure SortedMap (κ : Type u) (β : Type v) [LT κ] where
  entries : List (κ × β)
  sorted : entries.Pairwise fun left right => left.1 < right.1
  deriving DecidableEq, Repr

namespace SortedMap

section
variable {κ : Type u} {β : Type v} {γ : Type w} [LT κ]

def empty : SortedMap κ β := ⟨[], .nil⟩

instance : Inhabited (SortedMap κ β) := ⟨empty⟩

def keys (map : SortedMap κ β) : List κ := map.entries.map Prod.fst

def size (map : SortedMap κ β) : Nat := map.entries.length

def isEmpty (map : SortedMap κ β) : Bool := map.entries.isEmpty

def mapValues (transform : κ → β → γ) (map : SortedMap κ β) : SortedMap κ γ where
  entries := map.entries.map fun entry => (entry.1, transform entry.1 entry.2)
  sorted := List.pairwise_map.mpr map.sorted

theorem keys_sorted (map : SortedMap κ β) : map.keys.Pairwise (· < ·) :=
  List.pairwise_map.mpr map.sorted

@[simp] theorem keys_mapValues (transform : κ → β → γ) (map : SortedMap κ β) :
    (map.mapValues transform).keys = map.keys := by
  simp [keys, mapValues]

end

section
variable {κ : Type u} {β : Type v} [LT κ] [DecidableEq κ]

def find? (key : κ) : List (κ × β) → Option β
  | [] => none
  | (other, value) :: rest => if key = other then some value else find? key rest

def get? (map : SortedMap κ β) (key : κ) : Option β := find? key map.entries

def contains (map : SortedMap κ β) (key : κ) : Bool := (map.get? key).isSome

/-- Replace the value at `key`, in its place among ordered entries; `update`
is given the value found there, if any. -/
def alterEntries [DecidableLT κ] (key : κ) (update : Option β → β) :
    List (κ × β) → List (κ × β)
  | [] => [(key, update none)]
  | (other, value) :: rest =>
      if key < other then (key, update none) :: (other, value) :: rest
      else if key = other then (key, update (some value)) :: rest
      else (other, value) :: alterEntries key update rest

theorem mem_alterEntries_key [DecidableLT κ] {key : κ} {update : Option β → β}
    {entries : List (κ × β)} {entry : κ × β}
    (member : entry ∈ alterEntries key update entries) :
    entry.1 = key ∨ entry ∈ entries := by
  induction entries with
  | nil => simp_all [alterEntries]
  | cons head rest induction =>
      obtain ⟨other, value⟩ := head
      simp only [alterEntries] at member
      split at member
      · rcases List.mem_cons.mp member with equal | member
        · exact .inl (congrArg Prod.fst equal)
        · exact .inr member
      · split at member
        · rcases List.mem_cons.mp member with equal | member
          · exact .inl (congrArg Prod.fst equal)
          · exact .inr (List.mem_cons_of_mem _ member)
        · rcases List.mem_cons.mp member with equal | member
          · exact .inr (equal ▸ List.mem_cons_self)
          · exact (induction member).imp_right (List.mem_cons_of_mem _)

theorem find?_alterEntries_ne [DecidableLT κ] {key other : κ} (different : other ≠ key)
    (update : Option β → β) (entries : List (κ × β)) :
    find? other (alterEntries key update entries) = find? other entries := by
  induction entries with
  | nil => simp [alterEntries, find?, different]
  | cons head rest induction =>
      obtain ⟨present, value⟩ := head
      simp only [alterEntries]
      split
      · simp [find?, different]
      · split
        case isTrue equal => subst equal; simp [find?, different]
        case isFalse => simp [find?, induction]

end

section
variable {κ : Type u} {β : Type v} [LT κ] [DecidableEq κ] [DecidableLT κ] [KeyOrder κ]

theorem alterEntries_sorted {key : κ} {update : Option β → β}
    {entries : List (κ × β)}
    (sorted : entries.Pairwise fun left right => left.1 < right.1) :
    (alterEntries key update entries).Pairwise fun left right => left.1 < right.1 := by
  induction entries with
  | nil => simp [alterEntries]
  | cons head rest induction =>
      obtain ⟨other, value⟩ := head
      obtain ⟨above, restSorted⟩ := List.pairwise_cons.mp sorted
      simp only [alterEntries]
      split
      case isTrue below =>
        refine List.pairwise_cons.mpr ⟨fun entry member => ?_, sorted⟩
        rcases List.mem_cons.mp member with equal | member
        · exact equal ▸ below
        · exact KeyOrder.trans below (above entry member)
      case isFalse notBelow =>
        split
        case isTrue equal =>
          subst equal
          exact List.pairwise_cons.mpr ⟨above, restSorted⟩
        case isFalse different =>
          refine List.pairwise_cons.mpr ⟨fun entry member => ?_, induction restSorted⟩
          rcases mem_alterEntries_key member with equal | member
          · exact equal ▸ KeyOrder.connected notBelow different
          · exact above entry member

def alter (map : SortedMap κ β) (key : κ) (update : Option β → β) : SortedMap κ β where
  entries := alterEntries key update map.entries
  sorted := alterEntries_sorted map.sorted

def insert (map : SortedMap κ β) (key : κ) (value : β) : SortedMap κ β :=
  map.alter key fun _ => value

/-- The map of a list of entries; of two with one key, the later one counts. -/
def ofList (entries : List (κ × β)) : SortedMap κ β :=
  entries.foldl (fun map entry => map.insert entry.1 entry.2) empty

def filterKeys (condition : κ → Bool) (map : SortedMap κ β) : SortedMap κ β where
  entries := map.entries.filter fun entry => condition entry.1
  sorted := map.sorted.filter _

theorem find?_alterEntries_self (key : κ) (update : Option β → β)
    (entries : List (κ × β))
    (sorted : entries.Pairwise fun left right => left.1 < right.1) :
    find? key (alterEntries key update entries) = some (update (find? key entries)) := by
  induction entries with
  | nil => simp [alterEntries, find?]
  | cons head rest induction =>
      obtain ⟨other, value⟩ := head
      obtain ⟨above, restSorted⟩ := List.pairwise_cons.mp sorted
      simp only [alterEntries]
      split
      case isTrue below =>
        have absent : ∀ entries : List (κ × β),
            (∀ entry ∈ entries, key < entry.1) → find? key entries = none := by
          intro entries greater
          induction entries with
          | nil => rfl
          | cons entry entries inner =>
              have different : key ≠ entry.1 := fun equal =>
                KeyOrder.irrefl key (equal ▸ greater entry List.mem_cons_self)
              simp only [find?, different, if_false]
              exact inner fun later member =>
                greater later (List.mem_cons_of_mem _ member)
        have none : find? key ((other, value) :: rest) = none := by
          apply absent
          intro entry member
          rcases List.mem_cons.mp member with equal | member
          · exact equal ▸ below
          · exact KeyOrder.trans below (above entry member)
        rw [none]
        simp [find?]
      case isFalse =>
        split
        case isTrue equal => simp [find?, equal]
        case isFalse different => simp [find?, different, induction restSorted]

@[simp] theorem get?_alter_self (map : SortedMap κ β) (key : κ)
    (update : Option β → β) :
    (map.alter key update).get? key = some (update (map.get? key)) :=
  find?_alterEntries_self key update map.entries map.sorted

theorem get?_alter_ne (map : SortedMap κ β) {key other : κ} (different : other ≠ key)
    (update : Option β → β) : (map.alter key update).get? other = map.get? other :=
  find?_alterEntries_ne different update map.entries

@[simp] theorem get?_insert_self (map : SortedMap κ β) (key : κ) (value : β) :
    (map.insert key value).get? key = some value := by
  simp [insert]

theorem get?_insert_ne (map : SortedMap κ β) {key other : κ} (different : other ≠ key)
    (value : β) : (map.insert key value).get? other = map.get? other :=
  map.get?_alter_ne different _

end

example : (ofList [("b", 1), ("a", 2), ("b", 3)]).entries = [("a", 2), ("b", 3)] := by
  decide

end SortedMap

abbrev NameSet := SortedMap String Unit

namespace NameSet

def insertName (names : NameSet) (name : String) : NameSet :=
  SortedMap.insert names name ()

end NameSet

end CommandReference
