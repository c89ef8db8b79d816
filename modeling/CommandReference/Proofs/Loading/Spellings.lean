import CommandReference.Proofs.Loading.Ending
import Mathlib.Data.List.Forall2
import Mathlib.Data.List.Nodup
import Mathlib.Data.List.Perm.Subperm

namespace CommandReference

/-! How often a file is loaded. What has been visited is kept by the components of its
paths, and memory keeps files by their normal forms, so a file is loaded once for each
spelling under which it is visited. Redundant parts do not make another spelling, but
parent steps do. -/

/-- Files that have been read, each from the path at the same position. -/
def ReadFrom (source : Source) (paths : List Path) (files : List InterfaceFile) : Prop :=
  List.Forall₂ (fun path file => InterfaceFile.read source path = .ok file) paths files

def Source.Readable (source : Source) (path : Path) : Prop :=
  ∃ file, InterfaceFile.read source path = .ok file

theorem ReadFrom.concat {source : Source} {paths : List Path} {files : List InterfaceFile}
    (readFrom : ReadFrom source paths files) {path : Path} {file : InterfaceFile}
    (read : InterfaceFile.read source path = .ok file) :
    ReadFrom source (paths ++ [path]) (files ++ [file]) :=
  List.rel_append readFrom (.cons read .nil)

theorem ReadFrom.readable {source : Source} {paths : List Path} {files : List InterfaceFile}
    (readFrom : ReadFrom source paths files) {path : Path} (member : path ∈ paths) :
    source.Readable path := by
  induction readFrom with
  | nil => cases member
  | cons read _ induction =>
      rcases List.mem_cons.mp member with rfl | later
      · exact ⟨_, read⟩
      · exact induction later

theorem Source.IgnoresSpelling.readable_congr {source : Source}
    (ignores : source.IgnoresSpelling) {path other : Path}
    (same : path.components = other.components) (readable : source.Readable path) :
    source.Readable other := by
  rcases readable with ⟨file, read⟩
  exact ⟨_, InterfaceFile.read_congr ignores same read⟩

/-! ## Files in memory -/

theorem MemorySource.location_mem_keys {memory : MemorySource} {path : Path}
    (readable : memory.toSource.Readable path) : path.location ∈ memory.keys := by
  rcases readable with ⟨file, read⟩
  rcases InterfaceFile.read_eq_ok_iff.mp read with ⟨contents, root, found, _, _⟩
  exact List.mem_map_of_mem (SortedMap.mem_of_find?_eq_some found)

theorem ReadFrom.length_le_size {memory : MemorySource} {paths : List Path}
    {files : List InterfaceFile} (readFrom : ReadFrom memory.toSource paths files)
    (different : (paths.map Path.location).Nodup) : files.length ≤ memory.size := by
  have inMemory : paths.map Path.location ⊆ memory.keys := by
    intro location member
    rcases List.mem_map.mp member with ⟨path, inPaths, rfl⟩
    exact MemorySource.location_mem_keys (readFrom.readable inPaths)
  have bound := (different.subperm inMemory).length_le
  rw [List.length_map, readFrom.length_eq] at bound
  exact Nat.le_trans bound (Nat.le_of_eq (List.length_map _))

namespace Loader

/-! ## The paths of the files loaded -/

/-- The paths from which the files of a state of loading have been read: each place that
has been visited and can be read is there once. -/
structure LoadedFrom (settings : LoaderSettings) (loader : Loader)
    (paths : List Path) : Prop where
  readFrom : ReadFrom settings.source paths loader.files
  distinct : (paths.map Path.components).Nodup
  visited : ∀ path ∈ paths, path.identity ∈ loader.visited
  complete : ∀ path, path.identity ∈ loader.visited → settings.source.Readable path →
    path.components ∈ paths.map Path.components

section
variable {settings : LoaderSettings} {first : List Request} {loader next : Loader}
  {paths : List Path}

theorem LoadedFrom.requeue {queue others : List Request} {visited : List Path.Identity}
    {files : List InterfaceFile} (loaded : LoadedFrom settings ⟨queue, visited, files⟩ paths) :
    LoadedFrom settings ⟨others, visited, files⟩ paths :=
  ⟨loaded.readFrom, loaded.distinct, loaded.visited, loaded.complete⟩

theorem LoadedFrom.unread (loaded : LoadedFrom settings loader paths)
    (ignores : settings.source.IgnoresSpelling) {path : Path} {failure : Failure}
    (failed : InterfaceFile.read settings.source path = .error failure) :
    LoadedFrom settings { loader with visited := path.identity :: loader.visited } paths := by
  refine ⟨loaded.readFrom, loaded.distinct,
    fun path member => List.mem_cons_of_mem _ (loaded.visited path member), ?_⟩
  intro other visited readable
  rcases List.mem_cons.mp visited with newest | earlier
  · rcases ignores.readable_congr (Path.identity_eq_iff.mp newest) readable with
      ⟨file, read⟩
    cases failed.symm.trans read
  · exact loaded.complete other earlier readable

theorem LoadedFrom.concat (loaded : LoadedFrom settings loader paths) {path : Path}
    {file : InterfaceFile} (new : path.identity ∉ loader.visited)
    (read : InterfaceFile.read settings.source path = .ok file) :
    LoadedFrom settings
      { loader with visited := path.identity :: loader.visited, files := loader.files ++ [file] }
      (paths ++ [path]) := by
  refine ⟨loaded.readFrom.concat read, ?_, ?_, ?_⟩
  · rw [List.map_append, List.map_singleton, ← List.concat_eq_append]
    refine loaded.distinct.concat fun member => new ?_
    rcases List.mem_map.mp member with ⟨other, inPaths, same⟩
    exact Path.identity_eq_iff.mpr same ▸ loaded.visited other inPaths
  · intro other member
    rcases List.mem_append.mp member with earlier | newest
    · exact List.mem_cons_of_mem _ (loaded.visited other earlier)
    · exact List.mem_singleton.mp newest ▸ List.mem_cons_self
  · intro other visited readable
    rw [List.map_append, List.mem_append]
    rcases List.mem_cons.mp visited with newest | earlier
    · exact .inr (List.mem_singleton.mpr (Path.identity_eq_iff.mp newest))
    · exact .inl (loaded.complete other earlier readable)

theorem LoadedFrom.advance (loaded : LoadedFrom settings loader paths)
    (ignores : settings.source.IgnoresSpelling) (progress : Progress settings first loader)
    (advance : Advance settings loader next) :
    ∃ more, LoadedFrom settings next (paths ++ more) ∧
      ∀ path ∈ more, Reached settings first path := by
  cases advance with
  | unlocated | repeated =>
      refine ⟨[], ?_, List.forall_mem_nil _⟩
      rw [List.append_nil]
      exact loaded.requeue
  | unreadable located new failed =>
      refine ⟨[], ?_, List.forall_mem_nil _⟩
      rw [List.append_nil]
      exact (loaded.unread ignores failed).requeue
  | @loaded request queue visited files path file located new read =>
      refine ⟨[path], (loaded.concat new read).requeue, ?_⟩
      intro other newest
      rw [List.mem_singleton.mp newest]
      exact ⟨request, progress.asked request List.mem_cons_self, located⟩

theorem LoadedFrom.advances (loaded : LoadedFrom settings loader paths)
    (ignores : settings.source.IgnoresSpelling) (progress : Progress settings first loader)
    (advances : Relation.ReflTransGen (Advance settings) loader next) :
    Progress settings first next ∧
      ∃ more, LoadedFrom settings next (paths ++ more) ∧
        ∀ path ∈ more, Reached settings first path := by
  induction advances with
  | refl =>
      refine ⟨progress, [], ?_, List.forall_mem_nil _⟩
      rw [List.append_nil]
      exact loaded
  | tail _ advance induction =>
      rcases induction with ⟨progress, more, loaded, reached⟩
      rcases loaded.advance ignores progress advance with ⟨last, loaded, lastReached⟩
      refine ⟨progress.advance ignores advance, more ++ last, ?_, ?_⟩
      · rw [← List.append_assoc]
        exact loaded
      · exact List.forall_mem_append.mpr ⟨reached, lastReached⟩

end

end Loader

namespace Configuration

/-! ## Loading a corpus -/

/-- The paths that loading a corpus comes to: the path of the common file, and those that
requests lead to. -/
def Visits (configuration : Configuration) (source : Source) (root path : Path) : Prop :=
  locate source (configuration.search root) none configuration.commonFile = .ok path ∨
    ∃ loader, (configuration.firstLoader source root).result = .ok loader ∧
      Reached (configuration.loaderSettings source root) loader.queue path

/-- No file that can be read is visited under two spellings. -/
def OneSpelling (configuration : Configuration) (source : Source) (root : Path) : Prop :=
  ∀ path other, configuration.Visits source root path →
    configuration.Visits source root other → source.Readable path → source.Readable other →
      path.location = other.location → path.components = other.components

section
variable {configuration : Configuration} {source : Source} {root : Path}

theorem loadedFrom_firstLoader {loader : Loader}
    (opened : (configuration.firstLoader source root).result = .ok loader) :
    ∃ path, locate source (configuration.search root) none configuration.commonFile =
        .ok path ∧
      Loader.LoadedFrom (configuration.loaderSettings source root) loader [path] := by
  rcases firstLoader_eq_ok_iff.mp opened with ⟨path, file, located, read, rfl⟩
  refine ⟨path, located, .cons read .nil, List.nodup_singleton _, ?_, ?_⟩
  · exact List.forall_mem_singleton.mpr (List.mem_singleton_self _)
  · intro other visited _
    exact List.mem_singleton.mpr (Path.identity_eq_iff.mp (List.mem_singleton.mp visited))

theorem exists_paths_of_load (ignores : source.IgnoresSpelling) {steps : Nat}
    {warnings : List Warning} {files : List InterfaceFile}
    (loaded : configuration.load source root steps = some ⟨warnings, .ok files⟩) :
    ∃ paths, ReadFrom source paths files ∧ (paths.map Path.components).Nodup ∧
      (∀ path ∈ paths, configuration.Visits source root path) ∧
      ∀ path, configuration.Visits source root path → source.Readable path →
        path.components ∈ paths.map Path.components := by
  rw [load] at loaded
  cases opened : (configuration.firstLoader source root).result with
  | error failure =>
      simp only [opened] at loaded
      cases loaded
  | ok loader =>
      simp only [opened] at loaded
      rcases Loader.advances_of_run loaded with ⟨visited, advances⟩
      rcases loadedFrom_firstLoader opened with ⟨common, located, first⟩
      rcases first.advances ignores (progress_firstLoader ignores opened) advances with
        ⟨progress, more, last, reached⟩
      refine ⟨[common] ++ more, last.readFrom, last.distinct, ?_, ?_⟩
      · rw [List.forall_mem_append, List.forall_mem_singleton]
        exact ⟨.inl located, fun path member => .inr ⟨loader, opened, reached path member⟩⟩
      · intro path visits readable
        refine last.complete path ?_ readable
        rcases visits with isCommon | ⟨other, sameOpened, request, asked, leads⟩
        · cases located.symm.trans isCommon
          exact last.visited common List.mem_cons_self
        · cases opened.symm.trans sameOpened
          exact (Loader.settled_iff_of_located leads).mp (progress.settled_of_finished asked)

/-- Paths with one entry for each spelling that is visited lead to different places
exactly if no place has two of them. -/
theorem nodup_location_iff {paths : List Path}
    (readable : ∀ path ∈ paths, source.Readable path)
    (distinct : (paths.map Path.components).Nodup)
    (visited : ∀ path ∈ paths, configuration.Visits source root path)
    (complete : ∀ path, configuration.Visits source root path → source.Readable path →
      path.components ∈ paths.map Path.components) :
    (paths.map Path.location).Nodup ↔ configuration.OneSpelling source root := by
  constructor
  · intro nodup path other visitsPath visitsOther readablePath readableOther same
    rcases List.mem_map.mp (complete path visitsPath readablePath) with
      ⟨first, firstMember, firstSame⟩
    rcases List.mem_map.mp (complete other visitsOther readableOther) with
      ⟨second, secondMember, secondSame⟩
    have sameLocation : first.location = second.location := by
      rw [Path.location_congr firstSame, same, Path.location_congr secondSame]
    cases List.inj_on_of_nodup_map nodup firstMember secondMember sameLocation
    exact firstSame.symm.trans secondSame
  · intro oneSpelling
    refine List.Nodup.map_on ?_ distinct.of_map
    intro path member other otherMember same
    have components := oneSpelling path other (visited path member)
      (visited other otherMember) (readable path member) (readable other otherMember) same
    exact List.inj_on_of_nodup_map distinct member otherMember components

end

/-- Whatever is loaded from memory is loaded once for each spelling under which it is
visited: the files come from paths that differ in more than redundant parts. So they come
from different places exactly if no file is visited under two spellings, and then there
are no more of them than the source holds. -/
theorem load_once_per_spelling (configuration : Configuration) (memory : MemorySource)
    (root : Path) (steps : Nat) (warnings : List Warning) (files : List InterfaceFile)
    (loaded : configuration.load memory.toSource root steps = some ⟨warnings, .ok files⟩) :
    ∃ paths, ReadFrom memory.toSource paths files ∧ (paths.map Path.components).Nodup ∧
      (∀ path ∈ paths, configuration.Visits memory.toSource root path) ∧
      (∀ path, configuration.Visits memory.toSource root path →
        memory.toSource.Readable path → path.components ∈ paths.map Path.components) ∧
      ((paths.map Path.location).Nodup ↔ configuration.OneSpelling memory.toSource root) ∧
      (configuration.OneSpelling memory.toSource root → files.length ≤ memory.size) := by
  rcases exists_paths_of_load memory.ignoresSpelling loaded with
    ⟨paths, readFrom, distinct, visited, complete⟩
  have different : (paths.map Path.location).Nodup ↔
      configuration.OneSpelling memory.toSource root :=
    nodup_location_iff (fun path member => readFrom.readable member) distinct visited complete
  exact ⟨paths, readFrom, distinct, visited, complete, different,
    fun oneSpelling => readFrom.length_le_size (different.mpr oneSpelling)⟩

/-! ## A file that is included under two spellings -/

private def twoSpellings : MemorySource := .ofFiles
  [(.ofText "/c/i-common-definitions.xml", Utf8.encode "<interface/>"),
    (.ofText "/c/i-context.xml", Utf8.encode ("<interface><interfacefile filename=\"x.xml\"/>" ++
      "<interfacefile filename=\"a/../x.xml\"/></interface>")),
    (.ofText "/c/x.xml", Utf8.encode "<interface/>")]

private def twoSpellingsFiles : List InterfaceFile :=
  [⟨"i-common-definitions.xml", ⟨"interface", [], []⟩⟩,
    ⟨"i-context.xml", ⟨"interface", [], [⟨"interfacefile", [("filename", "x.xml")], []⟩,
      ⟨"interfacefile", [("filename", "a/../x.xml")], []⟩]⟩⟩,
    ⟨"x.xml", ⟨"interface", [], []⟩⟩, ⟨"x.xml", ⟨"interface", [], []⟩⟩]

private theorem load_twoSpellings :
    default.load twoSpellings.toSource (.ofText "/c") 3 =
      some ⟨[], .ok twoSpellingsFiles⟩ :=
  Outcome.eq_some_of_toOption (by decide +kernel)

theorem load_once_per_spelling_parent_step :
    default.load twoSpellings.toSource (.ofText "/c") 3 =
        some ⟨[], .ok twoSpellingsFiles⟩ ∧
      ∃ paths, ReadFrom twoSpellings.toSource paths twoSpellingsFiles ∧
        (paths.map Path.components).Nodup ∧
        (∀ path ∈ paths, default.Visits twoSpellings.toSource (.ofText "/c") path) ∧
        (∀ path, default.Visits twoSpellings.toSource (.ofText "/c") path →
          twoSpellings.toSource.Readable path →
            path.components ∈ paths.map Path.components) ∧
        ((paths.map Path.location).Nodup ↔
          default.OneSpelling twoSpellings.toSource (.ofText "/c")) ∧
        (default.OneSpelling twoSpellings.toSource (.ofText "/c") →
          twoSpellingsFiles.length ≤ twoSpellings.size) :=
  ⟨load_twoSpellings,
    load_once_per_spelling default twoSpellings (.ofText "/c") 3 [] twoSpellingsFiles
      load_twoSpellings⟩

/-- More files are loaded than there are, so they do not come from different places. -/
theorem load_repeats_file :
    default.load twoSpellings.toSource (.ofText "/c") 3 =
        some ⟨[], .ok twoSpellingsFiles⟩ ∧
      twoSpellings.size < twoSpellingsFiles.length ∧
      ¬ ∃ paths, ReadFrom twoSpellings.toSource paths twoSpellingsFiles ∧
        (paths.map Path.location).Nodup := by
  have more : twoSpellings.size < twoSpellingsFiles.length := by decide
  refine ⟨load_twoSpellings, more, ?_⟩
  rintro ⟨paths, readFrom, different⟩
  exact absurd (readFrom.length_le_size different) (Nat.not_le_of_gt more)

end Configuration

end CommandReference
