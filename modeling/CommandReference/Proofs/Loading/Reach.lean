import CommandReference.Proofs.Loading.Requests

namespace CommandReference

/-! How far requests reach in a source that is kept in memory. Its files have finitely
many normal forms, and the paths to them are built from finitely many names, so only
more and more parent steps can lead to more and more paths. -/

theorem exists_upper_bound (values : List α) (measure : α → Nat) :
    ∃ bound, ∀ value ∈ values, measure value ≤ bound := by
  induction values with
  | nil => exact ⟨0, fun value member => nomatch member⟩
  | cons first rest induction =>
      rcases induction with ⟨bound, each⟩
      refine ⟨max (measure first) bound, fun value member => ?_⟩
      rcases List.mem_cons.mp member with rfl | later
      · exact Nat.le_max_left _ _
      · exact Nat.le_trans (each value later) (Nat.le_max_right _ _)

/-! ## Lists of names -/

def namesUpTo (alphabet : List String) : Nat → List (List String)
  | 0 => [[]]
  | length + 1 =>
      [] :: alphabet.flatMap fun name => (namesUpTo alphabet length).map (name :: ·)

theorem mem_namesUpTo {alphabet names : List String} (spelled : names ⊆ alphabet)
    {length : Nat} (short : names.length ≤ length) : names ∈ namesUpTo alphabet length := by
  induction length generalizing names with
  | zero =>
      rw [List.length_eq_zero_iff.mp (Nat.le_zero.mp short)]
      exact List.mem_singleton_self []
  | succ length induction =>
      cases names with
      | nil => exact List.mem_cons_self
      | cons name rest =>
          rw [List.cons_subset] at spelled
          have later := induction spelled.2 (Nat.le_of_succ_le_succ short)
          apply List.mem_cons_of_mem
          exact List.mem_flatMap.mpr ⟨name, spelled.1, List.mem_map_of_mem later⟩

/-! ## Names in requests -/

def Request.names : Request → List String
  | .named name referrer? =>
      (Path.ofText name).segments ++ referrer?.toList.flatMap Path.components
  | .listed path => path.components

/-- The names that all paths are built from. -/
structure SpelledIn (settings : LoaderSettings) (first : List Request)
    (alphabet : List String) : Prop where
  search : ∀ directory ∈ settings.search, directory.components ⊆ alphabet
  first : ∀ request ∈ first, request.names ⊆ alphabet
  included : ∀ path file, InterfaceFile.read settings.source path = .ok file →
    ∀ name ∈ inclusionNames file.root, (Path.ofText name).segments ⊆ alphabet

section
variable {settings : LoaderSettings} {first : List Request} {alphabet : List String}
  {request : Request} {path : Path}

theorem SpelledIn.components_subset (spelled : SpelledIn settings first alphabet)
    (names : request.names ⊆ alphabet) (located : settings.target request = .ok path) :
    path.components ⊆ alphabet := by
  cases request with
  | listed other =>
      cases located
      exact names
  | named name referrer? =>
      rcases LoaderSettings.target_named_eq_ok located with ⟨⟨directory, member, rfl⟩, _⟩
      have parts := List.append_subset.mp names
      have outer : directory.components ⊆ alphabet := by
        rcases List.mem_append.mp member with searched | referring
        · exact spelled.search directory searched
        · intro component inside
          exact parts.2 (List.mem_flatMap.mpr ⟨directory, referring, inside⟩)
      intro component inside
      rcases List.mem_append.mp (Path.components_joinText_subset directory name inside) with
        inherited | added
      · exact outer inherited
      · exact parts.1 added

theorem Asked.names_subset (asked : Asked settings first request)
    (spelled : SpelledIn settings first alphabet) : request.names ⊆ alphabet := by
  induction asked with
  | first member => exact spelled.first _ member
  | @included request path file name asked located read member induction =>
      have outer := spelled.components_subset induction located
      rw [Request.names, List.append_subset]
      refine ⟨spelled.included path file read name member, ?_⟩
      intro component inside
      rcases List.mem_flatMap.mp inside with ⟨parent, member, inside⟩
      rw [Path.components_of_parent? (Option.mem_toList.mp member)] at inside
      exact outer (List.dropLast_subset _ inside)

theorem Reached.components_subset (reached : Reached settings first path)
    (spelled : SpelledIn settings first alphabet) : path.components ⊆ alphabet := by
  rcases reached with ⟨request, asked, located⟩
  exact spelled.components_subset (asked.names_subset spelled) located

end

/-! ## Inclusions that never lead up -/

/-- No file includes another one through a directory around its own. -/
def Downward (source : Source) : Prop :=
  ∀ path file, InterfaceFile.read source path = .ok file →
    ∀ name ∈ inclusionNames file.root, ".." ∉ (Path.ofText name).segments

theorem Downward.parentSteps_le {settings : LoaderSettings} {first : List Request}
    (downward : Downward settings.source) :
    ∃ bound, ∀ path, Reached settings first path → path.parentSteps ≤ bound := by
  rcases exists_upper_bound settings.search Path.parentSteps with ⟨searched, directories⟩
  rcases exists_upper_bound first (fun request =>
    ((settings.target request).toOption.map Path.parentSteps).getD 0) with ⟨listed, requests⟩
  refine ⟨max searched listed, fun path reached => ?_⟩
  rcases reached with ⟨request, asked, located⟩
  induction asked generalizing path with
  | @first request member =>
      have bound := requests request member
      rw [located] at bound
      exact Nat.le_trans bound (Nat.le_max_right _ _)
  | @included request outer file name asked outerLocated read member induction =>
      rcases LoaderSettings.target_named_eq_ok located with ⟨⟨directory, found, rfl⟩, _⟩
      have joined := Path.parentSteps_joinText_le directory name
      rw [List.count_eq_zero.mpr (downward outer file read name member)] at joined
      refine Nat.le_trans joined ?_
      rcases List.mem_append.mp found with inSearch | inReferrer
      · exact Nat.le_trans (directories directory inSearch) (Nat.le_max_left _ _)
      · have inside := Path.parentSteps_parent?_le (Option.mem_toList.mp inReferrer)
        exact Nat.le_trans inside (induction outer outerLocated)

/-! ## Finitely many paths -/

def Source.ReadsAmong (source : Source) (documents : List Bytes) : Prop :=
  ∀ path contents, source.read? path = some contents → contents ∈ documents

def includedNames (documents : List Bytes) : List String :=
  documents.flatMap fun contents => (document? contents).toList.flatMap inclusionNames

section
variable {settings : LoaderSettings} {documents : List Bytes}

theorem exists_spelledIn (first : List Request) (among : settings.source.ReadsAmong documents) :
    ∃ alphabet, SpelledIn settings first alphabet := by
  refine ⟨settings.search.flatMap Path.components ++ first.flatMap Request.names ++
    (includedNames documents).flatMap fun name => (Path.ofText name).segments, ?_, ?_, ?_⟩
  · intro directory member component inside
    exact List.mem_append_left _ (List.mem_append_left _
      (List.mem_flatMap.mpr ⟨directory, member, inside⟩))
  · intro request member name inside
    exact List.mem_append_left _ (List.mem_append_right _
      (List.mem_flatMap.mpr ⟨request, member, inside⟩))
  · intro path file read name member segment inside
    rcases InterfaceFile.read_eq_ok_iff.mp read with ⟨contents, root, found, parsed, rfl⟩
    have included : name ∈ includedNames documents :=
      List.mem_flatMap.mpr ⟨contents, among path contents found,
        List.mem_flatMap.mpr ⟨root, Option.mem_toList.mpr parsed, member⟩⟩
    exact List.mem_append_right _ (List.mem_flatMap.mpr ⟨name, included, inside⟩)

/-- Where files are reached under paths of limited length only, the paths are finitely many
up to spelling. -/
theorem exists_places_of_length_le {first : List Request}
    (among : settings.source.ReadsAmong documents) {length : Nat}
    (short : ∀ path, Reached settings first path → settings.source.isFile path = true →
      path.components.length ≤ length) :
    ∃ places : List Path.Identity,
      ∀ path, Reached settings first path → path.identity ∈ places := by
  rcases exists_spelledIn first among with ⟨alphabet, spelled⟩
  rcases exists_upper_bound first fun request => request.names.length with ⟨longest, listed⟩
  refine ⟨(namesUpTo alphabet (max length longest)).map fun names => ⟨names.length, names⟩, ?_⟩
  intro path reached
  have limited : path.components.length ≤ max length longest := by
    rcases reached.isFile_or_listed with present | member
    · exact Nat.le_trans (short path reached present) (Nat.le_max_left _ _)
    · exact Nat.le_trans (listed _ member) (Nat.le_max_right _ _)
  exact List.mem_map_of_mem (f := fun names => (⟨names.length, names⟩ : Path.Identity))
    (mem_namesUpTo (reached.components_subset spelled) limited)

end

/-! ## Paths into memory -/

theorem MemorySource.readsAmong (memory : MemorySource) :
    memory.toSource.ReadsAmong (memory.entries.map Prod.snd) := by
  intro path contents found
  exact List.mem_map_of_mem (f := Prod.snd) (SortedMap.mem_of_find?_eq_some found)

theorem exists_places {memory : MemorySource} {search : List Path} {policy : Policy}
    {first : List Request} {bound : Nat}
    (bounded : ∀ path, Reached ⟨memory.toSource, search, policy⟩ first path →
      path.parentSteps ≤ bound) :
    ∃ places : List Path.Identity,
      ∀ path, Reached ⟨memory.toSource, search, policy⟩ first path →
        path.identity ∈ places := by
  rcases exists_upper_bound memory.entries fun entry => entry.1.length with ⟨deepest, files⟩
  have short (path : Path)
      (reached : Reached ⟨memory.toSource, search, policy⟩ first path)
      (present : memory.isFile path = true) :
      path.components.length ≤ deepest + 2 * bound + 1 := by
    rcases Option.isSome_iff_exists.mp present with ⟨contents, found⟩
    have shallow : path.location.length ≤ deepest :=
      files _ (SortedMap.mem_of_find?_eq_some found)
    have steps := bounded path reached
    have spread := path.length_components_le
    omega
  exact exists_places_of_length_le memory.readsAmong short

end CommandReference
