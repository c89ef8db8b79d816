import CommandReference.Path

namespace CommandReference.Path

/-! Written paths: what is added to a path that is joined with a name, how its
components follow from those of other paths, and that normal forms stay as they are. -/

/-! ## Names without a slash -/

theorem cutSegments_plain {characters : List Char} (noSlash : '/' ∉ characters)
    (current : List Char) :
    cutSegments current characters = (String.ofList (current.reverse ++ characters), []) := by
  induction characters generalizing current with
  | nil => rw [cutSegments, List.append_nil]
  | cons character rest induction =>
      have different : character ≠ '/' := fun equal =>
        noSlash (equal ▸ List.mem_cons_self)
      rw [cutSegments, if_neg different,
        induction fun later => noSlash (List.mem_cons_of_mem character later),
        List.reverse_cons, List.append_assoc, List.singleton_append]

theorem ofText_plain {name : String} (noSlash : '/' ∉ name.toList) :
    ofText name = ⟨name, []⟩ := by
  rw [ofText, cutSegments_plain noSlash, List.reverse_nil, List.nil_append,
    String.ofList_toList]

/-- A name becomes the last segment. One slash at the end of the directory makes no
difference. -/
theorem joinText_plain {directory : Path} (nonempty : directory ≠ empty) {name : String}
    (noSlash : '/' ∉ name.toList) :
    ∃ inner, (directory.rest = inner ∨ directory.rest = inner ++ [""]) ∧
      directory.joinText name = ⟨directory.first, inner ++ [name]⟩ := by
  have relative : isAbsolute ⟨name, []⟩ = false := Bool.and_false _
  have joins : (isAbsolute ⟨name, []⟩ || decide (directory = empty)) = false := by
    rw [relative, decide_eq_false nonempty, Bool.or_false]
  rw [joinText, ofText_plain noSlash, join, joins, if_neg Bool.false_ne_true]
  cases reversed : directory.rest.reverse with
  | nil =>
      have rest : directory.rest = [] := List.reverse_eq_nil_iff.mp reversed
      exact ⟨[], .inl rest, rfl⟩
  | cons last others =>
      have rest : directory.rest = others.reverse ++ [last] := by
        rw [← List.reverse_reverse directory.rest, reversed, List.reverse_cons]
      by_cases ending : last = ""
      · refine ⟨others.reverse, .inr (ending ▸ rest), ?_⟩
        exact if_pos ending
      · refine ⟨directory.rest, .inl rfl, ?_⟩
        exact if_neg ending

theorem joinText_ne_empty {directory : Path} (nonempty : directory ≠ empty) {name : String}
    (noSlash : '/' ∉ name.toList) : directory.joinText name ≠ empty := by
  obtain ⟨inner, _, joined⟩ := joinText_plain nonempty noSlash
  simp [joined, empty]

theorem text_concat (first : String) (rest : List String) (last : String) :
    (⟨first, rest ++ [last]⟩ : Path).text = (⟨first, rest⟩ : Path).text ++ "/" ++ last := by
  rw [text, text, ← List.cons_append,
    String.intercalate_append_of_ne_nil (List.cons_ne_nil _ _) (List.cons_ne_nil _ _),
    String.intercalate_singleton]

theorem length_rest_le (path : Path) : path.rest.length ≤ path.text.utf8ByteSize := by
  rcases path with ⟨first, rest⟩
  induction rest generalizing first with
  | nil => exact Nat.zero_le _
  | cons next rest induction =>
      have later := induction next
      have slash : "/".utf8ByteSize = 1 := rfl
      rw [text] at later ⊢
      rw [String.intercalate_cons_cons, String.utf8ByteSize_append, String.utf8ByteSize_append,
        slash, List.length_cons]
      dsimp only at later
      omega

theorem length_components_le_text (path : Path) :
    path.components.length ≤ path.text.utf8ByteSize + 1 := by
  have kept := List.length_filter_le (!isRedundant ·) path.rest
  have segments := path.length_rest_le
  rw [components, List.length_append]
  split
  · rw [List.length_nil]
    omega
  · rw [List.length_singleton]
    omega

theorem isAbsolute_of_ne_empty {path : Path} (nonempty : path ≠ empty) :
    path.isAbsolute = decide (path.first = "") := by
  obtain ⟨first, rest⟩ := path
  by_cases rooted : first = ""
  · subst rooted
    have notEmpty : rest ≠ [] := fun none => nonempty (none ▸ rfl)
    simp [isAbsolute, notEmpty]
  · simp [isAbsolute, rooted]

/-! ## Components -/

theorem components_eq_nil_iff {path : Path} : path.components = [] ↔ path = empty := by
  rcases path with ⟨first, rest⟩
  cases rest with
  | nil =>
      by_cases noName : first = ""
      · subst noName
        exact iff_of_true rfl rfl
      · rw [components, List.isEmpty_nil, decide_eq_false noName]
        exact iff_of_false (List.cons_ne_nil _ _) fun equal =>
          noName (congrArg Path.first equal)
  | cons segment others =>
      rw [components, List.isEmpty_cons, Bool.and_false]
      exact iff_of_false (List.cons_ne_nil _ _) fun equal =>
        List.cons_ne_nil segment others (congrArg Path.rest equal)

theorem components_of_ne_empty {path : Path} (nonempty : path ≠ empty) :
    path.components = path.first :: path.rest.filter (!isRedundant ·) := by
  have notBoth : ¬ (path.first = "" && path.rest.isEmpty) = true := by
    intro both
    rw [Bool.and_eq_true, decide_eq_true_eq, List.isEmpty_iff] at both
    rcases path with ⟨first, rest⟩
    rcases both with ⟨rfl, rfl⟩
    exact nonempty rfl
  rw [components, if_neg notBoth, List.singleton_append]

def segments (path : Path) : List String := path.first :: path.rest

theorem components_subset_segments (path : Path) : path.components ⊆ path.segments := by
  intro component member
  rcases List.mem_append.mp member with first | later
  · split at first
    · cases first
    · exact List.mem_singleton.mp first ▸ List.mem_cons_self
  · exact List.mem_cons_of_mem path.first (List.mem_filter.mp later).1

theorem components_join (directory path : Path) :
    (directory.join path).components =
      if path.isAbsolute ∨ directory = empty then path.components
      else directory.components ++ path.segments.filter (!isRedundant ·) := by
  rw [join]
  by_cases alone : path.isAbsolute ∨ directory = empty
  · rw [if_pos alone, if_pos]
    rw [Bool.or_eq_true, decide_eq_true_eq]
    exact alone
  · have joins : ¬ (path.isAbsolute || decide (directory = empty)) = true := by
      rw [Bool.or_eq_true, decide_eq_true_eq]
      exact alone
    have nonempty : directory ≠ empty := fun equal => alone (.inr equal)
    rw [if_neg alone, if_neg joins, components_of_ne_empty nonempty]
    have extended (inner : List String) :
        components ⟨directory.first, inner ++ path.first :: path.rest⟩ =
          directory.first :: inner.filter (!isRedundant ·) ++
            path.segments.filter (!isRedundant ·) := by
      have longer : (⟨directory.first, inner ++ path.first :: path.rest⟩ : Path) ≠ empty :=
        fun equal => List.append_ne_nil_of_right_ne_nil inner (List.cons_ne_nil _ _)
          (congrArg Path.rest equal)
      rw [components_of_ne_empty longer, List.filter_append]
      rfl
    cases reversed : directory.rest.reverse with
    | nil =>
        rw [List.reverse_eq_nil_iff.mp reversed]
        exact extended []
    | cons last others =>
        have rest : directory.rest = others.reverse ++ [last] := by
          rw [← List.reverse_reverse directory.rest, reversed, List.reverse_cons]
        by_cases ending : last = ""
        · subst ending
          have dropped : directory.rest.filter (!isRedundant ·) =
              others.reverse.filter (!isRedundant ·) := by
            rw [rest, List.filter_append]
            exact List.append_nil _
          rw [dropped]
          exact extended others.reverse
        · simp only [if_neg ending]
          exact extended directory.rest

theorem filter_dropWhile_isRedundant (names : List String) :
    (names.dropWhile isRedundant).filter (!isRedundant ·) =
      names.filter (!isRedundant ·) := by
  induction names with
  | nil => rfl
  | cons name rest induction =>
      by_cases redundant : isRedundant name = true
      · rw [List.dropWhile_cons_of_pos redundant, induction, List.filter_cons_of_neg]
        rw [redundant]
        decide
      · rw [List.dropWhile_cons_of_neg redundant]

theorem filter_rest_of_dropWhile {rest outer : List String} {last : String}
    (kept : rest.reverse.dropWhile isRedundant = last :: outer) :
    rest.filter (!isRedundant ·) = (outer.filter (!isRedundant ·)).reverse ++ [last] := by
  have named : isRedundant last = false := by
    have found := List.head?_dropWhile_not isRedundant rest.reverse
    rw [kept] at found
    exact found
  have same := filter_dropWhile_isRedundant rest.reverse
  rw [kept, List.filter_cons_of_pos (by rw [named]; rfl), List.filter_reverse] at same
  rw [← List.reverse_reverse (rest.filter _), ← same, List.reverse_cons]

theorem filter_rest_eq_nil {rest : List String}
    (none : rest.reverse.dropWhile isRedundant = []) :
    rest.filter (!isRedundant ·) = [] := by
  have same := filter_dropWhile_isRedundant rest.reverse
  rw [none, List.filter_reverse] at same
  exact List.reverse_eq_nil_iff.mp same.symm

theorem components_parent? (path : Path) :
    path.parent?.map components =
      if path.components = [] ∨ path.components = [""] then none
      else some path.components.dropLast := by
  rcases path with ⟨first, rest⟩
  rw [parent?]
  cases kept : rest.reverse.dropWhile isRedundant with
  | nil =>
      have only : components ⟨first, rest⟩ =
          if first = "" && rest.isEmpty then [] else [first] := by
        rw [components, filter_rest_eq_nil kept, List.append_nil]
      rw [only]
      by_cases noName : first = ""
      · subst noName
        cases rest <;> rfl
      · have named : ¬ (decide (first = "") && rest.isEmpty) = true := by
          rw [decide_eq_false noName, Bool.false_and]
          exact Bool.false_ne_true
        have other : ¬ ([first] = [] ∨ [first] = [""]) := by
          intro alternatives
          rcases alternatives with equal | equal
          · cases equal
          · exact noName (List.singleton_inj.mp equal)
        rw [if_neg named, if_neg other, if_neg noName]
        rfl
  | cons last outer =>
      have nonempty : (⟨first, rest⟩ : Path) ≠ empty := by
        intro equal
        have noRest : rest = [] := congrArg Path.rest equal
        rw [noRest] at kept
        cases kept
      have whole : components ⟨first, rest⟩ =
          first :: (outer.filter (!isRedundant ·)).reverse ++ [last] := by
        rw [components_of_ne_empty nonempty, filter_rest_of_dropWhile kept]
        rfl
      have longer : ¬ (components ⟨first, rest⟩ = [] ∨ components ⟨first, rest⟩ = [""]) := by
        rw [whole]
        simp
      rw [if_neg longer, whole, List.dropLast_concat]
      simp only
      cases inner : outer.dropWhile isRedundant with
      | nil =>
          have none : outer.filter (!isRedundant ·) = [] := by
            rw [← filter_dropWhile_isRedundant, inner]
            rfl
          rw [none]
          by_cases noName : first = ""
          · subst noName
            rfl
          · simp [components, noName]
      | cons name others =>
          have same := filter_dropWhile_isRedundant outer
          rw [inner] at same
          have nonempty : (⟨first, (name :: others).reverse⟩ : Path) ≠ empty := fun equal =>
            List.cons_ne_nil name others
              (List.reverse_eq_nil_iff.mp (congrArg Path.rest equal))
          simp only [Option.map_some]
          rw [components_of_ne_empty nonempty, List.filter_reverse, same]

theorem components_of_parent? {path outer : Path} (inside : path.parent? = some outer) :
    outer.components = path.components.dropLast := by
  have known := components_parent? path
  rw [inside] at known
  split at known
  · cases known
  · exact Option.some.inj known

/-! ## Paths with the same components -/

theorem identity_eq_iff {path other : Path} :
    path.identity = other.identity ↔ path.components = other.components := by
  constructor
  · intro same
    exact congrArg Identity.components same
  · intro same
    rw [identity, identity, same]

section
variable {path other : Path} (same : path.components = other.components)
include same

theorem components_joinText_congr (name : String) :
    (path.joinText name).components = (other.joinText name).components := by
  have bothEmpty : path = empty ↔ other = empty := by
    rw [← components_eq_nil_iff, ← components_eq_nil_iff, same]
  rw [joinText, joinText, components_join, components_join, same]
  simp only [bothEmpty]

theorem components_parent?_congr :
    path.parent?.map components = other.parent?.map components := by
  rw [components_parent?, components_parent?, same]

theorem location_congr : path.location = other.location := by
  rw [location, location, same]

end

/-! ## Parent steps -/

/-- How often a path leads up to the directory around one. -/
def parentSteps (path : Path) : Nat := path.components.count ".."

theorem components_joinText_subset (directory : Path) (name : String) :
    (directory.joinText name).components ⊆
      directory.components ++ (ofText name).segments := by
  rw [joinText, components_join]
  intro component member
  split at member
  · exact List.mem_append_right _ (components_subset_segments _ member)
  · rcases List.mem_append.mp member with outer | inner
    · exact List.mem_append_left _ outer
    · exact List.mem_append_right _ (List.mem_filter.mp inner).1

theorem parentSteps_joinText_le (directory : Path) (name : String) :
    (directory.joinText name).parentSteps ≤
      directory.parentSteps + (ofText name).segments.count ".." := by
  have fewer : (ofText name).components.Sublist (ofText name).segments := by
    rw [components]
    split
    · exact List.filter_sublist.cons (ofText name).first
    · exact List.filter_sublist.cons_cons (ofText name).first
  rw [joinText, parentSteps, parentSteps, components_join]
  split
  · have bound := fewer.count_le ".."
    omega
  · rw [List.count_append]
    have bound := (List.filter_sublist (p := (!isRedundant ·))
      (l := (ofText name).segments)).count_le ".."
    omega

theorem parentSteps_parent?_le {path outer : Path} (inside : path.parent? = some outer) :
    outer.parentSteps ≤ path.parentSteps := by
  rw [parentSteps, parentSteps, components_of_parent? inside]
  exact (List.dropLast_sublist path.components).count_le ".."

theorem length_le_of_foldl_enter (names entered : List String) :
    names.length + entered.length ≤
      (names.foldl enter entered).length + 2 * names.count ".." + names.count "." := by
  induction names generalizing entered with
  | nil => simp
  | cons name rest induction =>
      have later := induction (enter entered name)
      rw [List.foldl_cons, List.length_cons]
      by_cases stays : name = "."
      · subst stays
        rw [show enter entered "." = entered from rfl] at later ⊢
        rw [List.count_cons_self, List.count_cons_of_ne (by decide)]
        omega
      · by_cases up : name = ".."
        · subst up
          rw [show enter entered ".." = entered.tail from rfl] at later ⊢
          rw [List.count_cons_self, List.count_cons_of_ne (by decide)]
          rw [List.length_tail] at later
          omega
        · have deeper : enter entered name = name :: entered := by
            rw [enter, if_neg stays, if_neg up]
          rw [deeper, List.length_cons] at later
          rw [deeper, List.count_cons_of_ne up, List.count_cons_of_ne stays]
          omega

/-- A path that is much longer than its normal form has many parent steps. -/
theorem length_components_le (path : Path) :
    path.components.length ≤ path.location.length + 2 * path.parentSteps + 1 := by
  have dots : path.components.count "." ≤ 1 := by
    have none : (path.rest.filter (!isRedundant ·)).count "." = 0 := by
      rw [List.count_eq_zero]
      intro member
      cases (List.mem_filter.mp member).2
    rw [components, List.count_append, none]
    refine Nat.le_trans List.count_le_length ?_
    split
    · exact Nat.zero_le 1
    · exact Nat.le_refl 1
  have bound := length_le_of_foldl_enter path.components []
  rw [location, List.length_reverse, parentSteps]
  rw [List.length_nil] at bound
  omega

/-! ## Normal forms -/

/-- Locations in which nothing is left to resolve, and whose root directory can only come
first. -/
structure IsNormal (location : Location) : Prop where
  resolved : ∀ name ∈ location, name ≠ "." ∧ name ≠ ".."
  rooted : "" ∉ location.tail

theorem IsNormal.enter {entered : List String} (normal : IsNormal entered.reverse)
    {name : String} (named : name ≠ "" ∨ entered = []) :
    IsNormal (enter entered name).reverse := by
  rw [Path.enter]
  split
  case isTrue => exact normal
  case isFalse stays =>
    split
    case isTrue =>
      rw [← List.dropLast_reverse]
      refine ⟨fun other member => normal.resolved other (List.dropLast_subset _ member), ?_⟩
      rw [List.tail_dropLast]
      exact fun member => normal.rooted (List.dropLast_subset _ member)
    case isFalse up =>
      rw [List.reverse_cons]
      refine ⟨List.forall_mem_append.mpr
        ⟨normal.resolved, List.forall_mem_singleton.mpr ⟨stays, up⟩⟩, fun member => ?_⟩
      by_cases outermost : entered = []
      · subst outermost
        cases member
      · rw [List.tail_append_of_ne_nil (List.reverse_ne_nil_iff.mpr outermost),
          List.mem_append, List.mem_singleton] at member
        exact member.elim normal.rooted (named.resolve_right outermost).symm

theorem IsNormal.foldl_enter {names entered : List String} (normal : IsNormal entered.reverse)
    (named : "" ∉ names) : IsNormal (names.foldl Path.enter entered).reverse := by
  induction names generalizing entered with
  | nil => exact normal
  | cons name rest induction =>
      rcases List.ne_and_not_mem_of_not_mem_cons named with ⟨nameNamed, restNamed⟩
      exact induction (normal.enter (.inl (Ne.symm nameNamed))) restNamed

theorem location_isNormal (path : Path) : IsNormal path.location := by
  have first : IsNormal ([] : List String).reverse := ⟨List.forall_mem_nil _, List.not_mem_nil⟩
  by_cases noSegment : path = empty
  · subst noSegment
    exact first
  · rw [location, components_of_ne_empty noSegment, List.foldl_cons]
    refine IsNormal.foldl_enter (first.enter (.inr rfl)) fun member => ?_
    cases (List.mem_filter.mp member).2

theorem components_ofLocation {location : Location} (normal : IsNormal location) :
    (ofLocation location).components = location := by
  have kept {rest : List String} {first : String} (normal : IsNormal (first :: rest)) :
      rest.filter (!isRedundant ·) = rest := by
    refine List.filter_eq_self.mpr fun name member => ?_
    have named : name ≠ "" := fun noName => normal.rooted (noName ▸ member)
    have resolved := (normal.resolved name (List.mem_cons_of_mem first member)).1
    simp [isRedundant, named, resolved]
  rw [ofLocation.eq_def]
  split
  case h_1 => rfl
  case h_2 => rfl
  case h_3 first rest notRoot =>
    have nonempty : (⟨first, rest⟩ : Path) ≠ empty := by
      intro equal
      cases equal
      exact notRoot rfl rfl
    rw [components_of_ne_empty nonempty, kept normal]

theorem foldl_enter_of_resolved {names : List String}
    (resolved : ∀ name ∈ names, name ≠ "." ∧ name ≠ "..") (entered : List String) :
    names.foldl enter entered = names.reverse ++ entered := by
  induction names generalizing entered with
  | nil => rfl
  | cons name rest induction =>
      rcases List.forall_mem_cons.mp resolved with ⟨⟨stays, up⟩, restResolved⟩
      rw [List.foldl_cons, induction restResolved, enter, if_neg stays, if_neg up,
        List.reverse_cons, List.append_assoc, List.singleton_append]

theorem location_ofLocation {location : Location} (normal : IsNormal location) :
    (ofLocation location).location = location := by
  rw [Path.location, components_ofLocation normal, foldl_enter_of_resolved normal.resolved,
    List.append_nil, List.reverse_reverse]

def normalize (path : Path) : Path := ofLocation path.location

@[simp] theorem components_normalize (path : Path) : path.normalize.components = path.location :=
  components_ofLocation path.location_isNormal

@[simp] theorem location_normalize (path : Path) : path.normalize.location = path.location :=
  location_ofLocation path.location_isNormal

theorem normalize_eq_iff {path other : Path} :
    path.normalize = other.normalize ↔ path.location = other.location := by
  constructor
  · intro same
    rw [← location_normalize path, same, location_normalize]
  · intro same
    rw [normalize, normalize, same]

theorem foldl_enter_components {path : Path} (relative : path.isAbsolute = false) :
    path.components.foldl enter [] =
      (path.segments.filter (!isRedundant ·)).foldl enter [] := by
  by_cases noSegment : path = empty
  · subst noSegment
    rfl
  · have named : path.first ≠ "" := by
      rw [isAbsolute_of_ne_empty noSegment] at relative
      exact of_decide_eq_false relative
    rw [components_of_ne_empty noSegment, segments]
    by_cases stays : path.first = "."
    · rw [stays]
      rfl
    · rw [List.filter_cons_of_pos]
      simp [isRedundant, named, stays]

/-- Joining only asks where the directory is, and enters the segments of the path there. -/
theorem location_join (directory path : Path) :
    (directory.join path).location =
      if path.isAbsolute then path.location
      else ((path.segments.filter (!isRedundant ·)).foldl enter
        directory.location.reverse).reverse := by
  rw [location, components_join]
  by_cases absolute : path.isAbsolute = true
  · rw [if_pos (.inl absolute), if_pos absolute, location]
  · rw [if_neg absolute, location, List.reverse_reverse]
    by_cases noDirectory : directory = empty
    · subst noDirectory
      rw [if_pos (.inr rfl), foldl_enter_components (Bool.eq_false_iff.mpr absolute)]
      rfl
    · rw [if_neg (not_or.mpr ⟨absolute, noDirectory⟩), List.foldl_append]

theorem normalize_join (directory path : Path) :
    (directory.normalize.join path).normalize = (directory.join path).normalize := by
  rw [normalize_eq_iff, location_join, location_join, location_normalize]

theorem components_parent?_ofLocation {location : Location} (normal : IsNormal location) :
    (ofLocation location).parent?.map components = Location.parent? location := by
  rw [components_parent?, components_ofLocation normal, Location.parent?.eq_def]
  split
  case isTrue outermost =>
    rcases outermost with rfl | rfl
    · rfl
    · rfl
  case isFalse inner =>
    split
    case h_1 => exact absurd (.inl rfl) inner
    case h_2 => exact absurd (.inr rfl) inner
    case h_3 => rfl

end CommandReference.Path
