import CommandReference.Proofs.Path
import CommandReference.Proofs.SortedMap
import CommandReference.Source

namespace CommandReference.MemorySource

/-! What a source in memory answers. Paths are resolved segment by segment, so that a path may
be joined to a directory before or after that is resolved, and every answer depends on the
normal forms of paths only: a path can be read if a file has been stored under its normal form,
and a directory lists the stored files that lie directly in its own. -/

variable {files : List (Path × Bytes)}

/-! ## Stored files -/

theorem mem_keys_iff {location : Location} :
    location ∈ (ofFiles files).keys ↔ ∃ file ∈ files, file.1.location = location := by
  rw [ofFiles, SortedMap.mem_keys_ofList, List.map_map, List.mem_map]
  rfl

theorem isNormal_of_mem_keys {location : Location} (stored : location ∈ (ofFiles files).keys) :
    Path.IsNormal location := by
  rcases mem_keys_iff.mp stored with ⟨file, _, rfl⟩
  exact file.1.location_isNormal

theorem read?_ofFiles (files : List (Path × Bytes)) (path : Path) :
    (ofFiles files).read? path =
      (files.reverse.find? fun file => file.1.normalize = path.normalize).map Prod.snd := by
  rw [read?, ofFiles, SortedMap.get?_ofList, ← List.map_reverse]
  generalize files.reverse = files
  induction files with
  | nil => rfl
  | cons file rest induction =>
      rw [List.map_cons, SortedMap.find?, List.find?_cons]
      by_cases same : path.location = file.1.location
      · rw [if_pos same, decide_eq_true (Path.normalize_eq_iff.mpr same.symm)]
        rfl
      · have different : file.1.normalize ≠ path.normalize := fun equal =>
          same (Path.normalize_eq_iff.mp equal).symm
        rw [if_neg same, decide_eq_false different, induction]

theorem isFile_iff_read? (source : MemorySource) (path : Path) :
    source.isFile path = true ↔ ∃ contents, source.read? path = some contents :=
  Option.isSome_iff_exists

theorem missingMessage_congr {path other : Path} (located : path.location = other.location) :
    missingMessage path = missingMessage other := by
  unfold missingMessage
  rw [located]

/-! ## Directories -/

theorem parent?_eq_some_iff {location : Location} (normal : Path.IsNormal location)
    {directory : Path} :
    Location.parent? location = some directory.location ↔
      ∃ outer, (Path.ofLocation location).parent? = some outer ∧
        outer.components = directory.normalize.components := by
  rw [← Path.components_parent?_ofLocation normal, Path.components_normalize,
    Option.map_eq_some_iff]

theorem mem_list_iff {directory file : Path} :
    file ∈ (ofFiles files).list directory ↔
      (∃ stored ∈ files, file = stored.1.normalize) ∧
        ∃ outer, file.parent? = some outer ∧
          outer.components = directory.normalize.components := by
  rw [list, List.mem_map]
  constructor
  · rintro ⟨location, kept, rfl⟩
    rcases List.mem_filter.mp kept with ⟨isKey, inside⟩
    have normal := isNormal_of_mem_keys isKey
    rcases mem_keys_iff.mp isKey with ⟨stored, inFiles, rfl⟩
    exact ⟨⟨stored, inFiles, rfl⟩, (parent?_eq_some_iff normal).mp (of_decide_eq_true inside)⟩
  · rintro ⟨⟨stored, inFiles, rfl⟩, inside⟩
    have isKey := mem_keys_iff.mpr ⟨stored, inFiles, rfl⟩
    have normal := isNormal_of_mem_keys isKey
    refine ⟨stored.1.location, List.mem_filter.mpr ⟨isKey, ?_⟩, rfl⟩
    exact decide_eq_true ((parent?_eq_some_iff normal).mpr inside)

theorem list_ordered (files : List (Path × Bytes)) (directory : Path) :
    ((ofFiles files).list directory).Pairwise fun left right =>
      left.components < right.components := by
  rw [list, List.pairwise_map]
  refine ((ofFiles files).keys_sorted.filter _).imp_of_mem ?_
  intro left right leftKept rightKept before
  have leftNormal := isNormal_of_mem_keys (List.mem_filter.mp leftKept).1
  have rightNormal := isNormal_of_mem_keys (List.mem_filter.mp rightKept).1
  rw [Path.components_ofLocation leftNormal, Path.components_ofLocation rightNormal]
  exact before

/-! ## Normal forms -/

/-- Normal forms stay as they are, have nothing left to resolve, and may be taken before or
after a path is joined. A source in memory gives paths with one normal form the same answers.
It has a file exactly if that can be read, which is the one stored last under the normal form,
and it lists the stored paths whose parent is the directory, in the order of their
components. -/
theorem resolves_normal_forms (files : List (Path × Bytes)) :
    (∀ path : Path, path.normalize.normalize = path.normalize ∧
      ∀ component ∈ path.normalize.components, component ≠ "." ∧ component ≠ "..") ∧
    (∀ directory path : Path,
      (directory.join path).normalize = (directory.normalize.join path).normalize) ∧
    (∀ path other : Path, path.normalize = other.normalize →
      (ofFiles files).isFile path = (ofFiles files).isFile other ∧
      (ofFiles files).read? path = (ofFiles files).read? other ∧
      missingMessage path = missingMessage other ∧
      (ofFiles files).list path = (ofFiles files).list other) ∧
    (∀ path : Path,
      ((ofFiles files).isFile path = true ↔
        ∃ contents, (ofFiles files).read? path = some contents) ∧
      (ofFiles files).read? path =
        (files.reverse.find? fun file => file.1.normalize = path.normalize).map Prod.snd) ∧
    ∀ directory : Path,
      ((ofFiles files).list directory).Pairwise
        (fun left right => left.components < right.components) ∧
      ∀ file, file ∈ (ofFiles files).list directory ↔
        (∃ stored ∈ files, file = stored.1.normalize) ∧
          ∃ outer, file.parent? = some outer ∧
            outer.components = directory.normalize.components := by
  refine ⟨?_, ?_, ?_, ?_, ?_⟩
  · intro path
    refine ⟨Path.normalize_eq_iff.mpr path.location_normalize, ?_⟩
    rw [Path.components_normalize]
    exact path.location_isNormal.resolved
  · intro directory path
    exact (Path.normalize_join directory path).symm
  · intro path other same
    have located := Path.normalize_eq_iff.mp same
    refine ⟨?_, ?_, ?_, ?_⟩
    · rw [isFile, isFile, located]
    · rw [read?, read?, located]
    · exact missingMessage_congr located
    · rw [list, list, located]
  · intro path
    exact ⟨isFile_iff_read? _ path, read?_ofFiles files path⟩
  · intro directory
    exact ⟨list_ordered files directory, fun file => mem_list_iff⟩

theorem reads_other_spelling :
    let files : List (Path × Bytes) :=
      [(.ofText "/c/a/../x.xml", [1]), (.ofText "/c/a/y.xml", [2])]
    (Path.ofText "/c/./x.xml").normalize = (Path.ofText "//c//b/../x.xml").normalize ∧
      (ofFiles files).read? (.ofText "/c/./x.xml") =
        (ofFiles files).read? (.ofText "//c//b/../x.xml") ∧
      (ofFiles files).read? (.ofText "/c/./x.xml") = some [1] ∧
      (ofFiles files).list (.ofText "//c//b/..") = [.ofText "/c/x.xml"] := by
  intro files
  have same : (Path.ofText "/c/./x.xml").normalize =
      (Path.ofText "//c//b/../x.xml").normalize := by decide
  rcases resolves_normal_forms files with ⟨_, _, answers, _, _⟩
  exact ⟨same, (answers _ _ same).2.1, by decide, by decide⟩

end CommandReference.MemorySource
