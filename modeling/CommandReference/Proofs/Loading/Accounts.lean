import CommandReference.Proofs.Loading.Readings
import CommandReference.Proofs.MemorySource
import Mathlib.Data.List.Nodup
import Mathlib.Data.List.Perm.Basic

namespace CommandReference

/-! What a tolerant loading makes of everything that it is asked for. The files loaded are
those at the paths that it reads, none of which it reads twice. Further requests are those of
the files, and whatever comes to nothing is noted. -/

namespace Loader

/-! ## A whole run -/

section
variable {settings : LoaderSettings} {request : Request} {queue : List Request}
  {visited : List Path.Identity} {files : List InterfaceFile}

/-- What a run makes of a state of loading in which `noted` has been noted before, when it
reads `paths`. -/
structure Accounts (settings : LoaderSettings) (loader : Loader) (noted : List Warning)
    (paths : List Path) (files : List InterfaceFile) (warnings : List Warning) : Prop where
  files : files = loader.files ++ paths.filterMap settings.source.fileAt?
  distinct : loader.visited.Nodup → (paths.map Path.identity ++ loader.visited).Nodup
  requested : ∀ before path after, paths = before ++ path :: after →
    ∃ request ∈ loader.queue ++ before.flatMap settings.source.requestsAt,
      settings.target request = .ok path
  visited : ∀ request ∈ loader.queue ++ paths.flatMap settings.source.requestsAt,
    ∀ path, settings.target request = .ok path →
      path.identity ∈ paths.map Path.identity ++ loader.visited
  skipped : (skippedFailures warnings).Perm (skippedFailures noted ++
    ((loader.queue ++ paths.flatMap settings.source.requestsAt).filterMap settings.missing? ++
      paths.filterMap settings.source.failureAt?))

theorem Accounts.done (settings : LoaderSettings) (noted : List Warning) {loader : Loader}
    (done : loader.queue = []) : Accounts settings loader noted [] loader.files noted where
  files := (List.append_nil _).symm
  distinct nodup := nodup
  requested before path after split :=
    absurd split.symm (List.append_ne_nil_of_right_ne_nil before (List.cons_ne_nil path after))
  visited := by
    rw [done]
    exact List.forall_mem_nil _
  skipped := by
    rw [done]
    exact .of_eq (List.append_nil _).symm

theorem Accounts.step {noted warnings : List Warning} {paths : List Path}
    {loaded : List InterfaceFile} {more : List Warning}
    (skips : skippedFailures more = (settings.missing? request).toList ++
      (reads settings visited request).filterMap settings.source.failureAt?)
    (later : Accounts settings
      ⟨queue ++ (reads settings visited request).flatMap settings.source.requestsAt,
        (reads settings visited request).map Path.identity ++ visited,
        files ++ (reads settings visited request).filterMap settings.source.fileAt?⟩
      (noted ++ more) paths loaded warnings) :
    Accounts settings ⟨request :: queue, visited, files⟩ noted
      (reads settings visited request ++ paths) loaded warnings where
  files := by
    rw [later.files, List.filterMap_append, List.append_assoc]
  distinct nodup := by
    rw [List.map_append, List.append_assoc, (List.perm_append_comm_assoc _ _ _).nodup_iff]
    exact later.distinct (nodup_reads request nodup)
  requested before path after split := by
    have requested := later.requested
    rcases reads_cases settings visited request with ⟨none, _⟩ | ⟨other, one, located, _⟩
    · rw [none] at requested split
      rcases requested before path after split with ⟨found, member, leads⟩
      refine ⟨found, List.mem_cons_of_mem request ?_, leads⟩
      rw [List.flatMap_nil, List.append_nil] at member
      exact member
    · rw [one] at requested split
      rcases List.cons_eq_append_iff.mp split with ⟨rfl, same⟩ | ⟨rest, rfl, same⟩
      · cases same
        exact ⟨request, List.mem_cons_self, located⟩
      · rcases requested rest path after same with ⟨found, member, leads⟩
        refine ⟨found, List.mem_cons_of_mem request ?_, leads⟩
        rw [List.flatMap_singleton, List.append_assoc] at member
        exact member
  visited other member path located := by
    rw [List.map_append, List.append_assoc, (List.perm_append_comm_assoc _ _ _).mem_iff]
    rcases List.mem_cons.mp member with rfl | waiting
    · exact List.mem_append_right _ (mem_reads_of_target located)
    · refine later.visited other ?_ path located
      rw [List.append_assoc, ← List.flatMap_append]
      exact waiting
  skipped := by
    refine later.skipped.trans (List.perm_iff_count.mpr fun failure => ?_)
    rw [skippedFailures_append, skips]
    cases missing : settings.missing? request with
    | none =>
        simp only [List.filterMap_append, List.flatMap_append, List.count_append, List.cons_append,
          List.filterMap_cons, missing, Option.toList_none, List.count_nil]
        omega
    | some failure =>
        simp only [List.filterMap_append, List.flatMap_append, List.count_append, List.cons_append,
          List.filterMap_cons, missing, Option.toList_some, List.count_nil, List.count_cons]
        omega

end

/-- Whatever a tolerant run comes to is accounted for by what it reads. -/
theorem accounts_of_run {settings : LoaderSettings} (tolerant : settings.policy = .tolerant)
    {steps : Nat} {noted warnings : List Warning} {loader : Loader} {files : List InterfaceFile}
    (ran : run settings steps noted loader = some ⟨warnings, .ok files⟩) :
    Accounts settings loader noted (readings settings steps loader) files warnings := by
  fun_induction run settings steps noted loader with
  | case1 steps noted loader done =>
      cases ran
      rw [readings_of_done done]
      exact .done settings warnings done
  | case2 => cases ran
  | case3 => cases congrArg Outcome.result (Option.some.inj ran)
  | case4 noted loader request queue steps waiting outcome notedNext next stepped induction =>
      rcases loader with ⟨_, visited, loaded⟩
      cases waiting
      rcases step_tolerant tolerant request queue visited loaded with ⟨result, skips⟩
      cases stepped.symm.trans result
      rw [readings_of_waiting rfl]
      simp only [result]
      exact .step skips (induction ran)

end Loader

/-! ## Sources that can be relied on -/

/-- Sources in which every file that is found or listed can be opened. -/
structure Source.Consistent (source : Source) : Prop where
  isFile {path : Path} (found : source.isFile path = true) : (source.read? path).isSome
  list {directory path : Path} (listed : path ∈ source.list directory) :
    (source.read? path).isSome

theorem MemorySource.consistent_ofFiles (contents : List (Path × Bytes)) :
    (MemorySource.ofFiles contents).toSource.Consistent where
  isFile found := found
  list {directory path} listed := by
    rcases List.mem_map.mp listed with ⟨location, kept, rfl⟩
    have member := (List.mem_filter.mp kept).1
    have normal := MemorySource.isNormal_of_mem_keys member
    show ((MemorySource.ofFiles contents).get? (Path.ofLocation location).location).isSome
    rw [Path.location_ofLocation normal, Option.isSome_iff_ne_none]
    exact (SortedMap.mem_keys_iff _ _).mp member

theorem InterfaceFile.malformed_of_read_eq_error {source : Source} {path : Path}
    (opens : (source.read? path).isSome) {failure : Failure}
    (failed : InterfaceFile.read source path = .error failure) :
    ∃ message, failure = .malformed path.displayName message := by
  rw [InterfaceFile.read] at failed
  split at failed
  case h_1 none =>
    rw [none] at opens
    cases opens
  case h_2 =>
    split at failed
    case h_1 => exact ⟨_, (Except.error.inj failed).symm⟩
    case h_2 =>
      split at failed
      case h_1 => exact ⟨_, (Except.error.inj failed).symm⟩
      case h_2 => cases failed

theorem LoaderSettings.target_eq_error {settings : LoaderSettings} {request : Request}
    {failure : Failure} (missing : settings.target request = .error failure) :
    ∃ name referrer?, request = .named name referrer? ∧ failure = .notFound name := by
  cases request with
  | listed path => cases missing
  | named name referrer? =>
      refine ⟨name, referrer?, rfl, ?_⟩
      rw [target, locate] at missing
      split at missing
      case h_1 => cases missing
      case h_2 => exact (Except.error.inj missing).symm

theorem mem_skippedFailures {warnings : List Warning} {failure : Failure} :
    failure ∈ skippedFailures warnings ↔ .skipped failure ∈ warnings := by
  rw [skippedFailures, List.mem_filterMap]
  constructor
  · rintro ⟨warning, member, same⟩
    cases warning with
    | skipped other =>
        cases same
        exact member
    | unnamedInclusion | unnamedCommand => cases same
  · exact fun member => ⟨_, member, rfl⟩

/-! ## Loading a corpus -/

/-- What a request has come to. -/
inductive Answered (settings : LoaderSettings) (paths : List Path)
    (files : List InterfaceFile) (warnings : List Warning) (request : Request) : Prop
  /-- The file that it leads to is loaded. -/
  | loaded {path place : Path} {file : InterfaceFile}
      (located : settings.target request = .ok path) (member : place ∈ paths)
      (same : place.components = path.components)
      (read : InterfaceFile.read settings.source place = .ok file) (kept : file ∈ files)
  /-- The file that it leads to is read and makes no document, which is noted. -/
  | malformed {path place : Path} {message : String}
      (located : settings.target request = .ok path) (member : place ∈ paths)
      (same : place.components = path.components)
      (read : InterfaceFile.read settings.source place =
        .error (.malformed place.displayName message))
      (noted : .skipped (.malformed place.displayName message) ∈ warnings)
  /-- It leads nowhere, which is noted. -/
  | notFound {name : String} {referrer? : Option Path}
      (named : request = .named name referrer?)
      (missing : settings.target request = .error (.notFound name))
      (noted : .skipped (.notFound name) ∈ warnings)

namespace Configuration

/-- All that a corpus asks for once the files at the given paths have been loaded: the
manifest, the files of modules, and what the files at the paths include. -/
def asks (configuration : Configuration) (source : Source) (root : Path)
    (paths : List Path) : List Request :=
  .named configuration.manifestFile none :: configuration.moduleRequests source root ++
    paths.flatMap source.requestsAt

/-- Loading reads the given paths, returns the files and notes the warnings, and these
account for all that is asked for. -/
structure LoadsFrom (configuration : Configuration) (source : Source) (root : Path)
    (paths : List Path) (files : List InterfaceFile) (warnings : List Warning) : Prop where
  /-- The common file comes first. -/
  common : ∃ path file,
    locate source (configuration.search root) none configuration.commonFile = .ok path ∧
      InterfaceFile.read source path = .ok file ∧
      paths.head? = some path ∧ files.head? = some file
  /-- The files are those that make documents, in the order in which they are read. -/
  loaded : files = paths.filterMap source.fileAt?
  /-- No path is read twice. -/
  once : (paths.map Path.components).Nodup
  /-- A path after the first one is that of the manifest or of a module, or a file loaded
  earlier includes it. -/
  requested : ∀ before path after, paths = before ++ path :: after → before ≠ [] →
    ∃ request ∈ configuration.asks source root before,
      (configuration.loaderSettings source root).target request = .ok path
  /-- Whatever is asked for is loaded, or it is noted why not. -/
  answered : ∀ request ∈ configuration.asks source root paths,
    Answered (configuration.loaderSettings source root) paths files warnings request
  /-- All that is read is there. -/
  opened : ∀ path ∈ paths, ∀ failure, source.failureAt? path = some failure →
    ∃ message, failure = .malformed path.displayName message
  /-- One failure is noted for each request that leads nowhere, one for each path that is
  read and makes no document, and none besides. -/
  noted : (skippedFailures warnings).Perm
    ((configuration.asks source root paths).filterMap
        (configuration.loaderSettings source root).missing? ++
      paths.filterMap source.failureAt?)

section
variable {configuration : Configuration} {source : Source} {root : Path}

theorem asks_perm {path : Path} {file : InterfaceFile}
    (read : InterfaceFile.read source path = .ok file) (paths : List Path) :
    (inclusions path file.root ++ .named configuration.manifestFile none ::
      configuration.moduleRequests source root ++ paths.flatMap source.requestsAt).Perm
        (configuration.asks source root (path :: paths)) := by
  have own : source.requestsAt path = inclusions path file.root := by
    rw [Source.requestsAt, read]
  rw [asks, List.flatMap_cons, own, List.append_assoc]
  exact List.perm_append_comm_assoc _ _ _

theorem skippedFailures_firstLoader {loader : Loader}
    (opened : (configuration.firstLoader source root).result = .ok loader) :
    skippedFailures (configuration.firstLoader source root).warnings = [] := by
  rcases configuration.firstLoader_cases source root with ⟨failure, failed⟩ | cuts
  · rw [failed] at opened
    cases opened
  · exact cuts.clean_of_eq rfl

theorem mem_list_of_listed {paths : List Path} {path : Path}
    (asked : .listed path ∈ configuration.asks source root paths) :
    path ∈ source.list (root.join configuration.moduleDirectory) := by
  rcases List.mem_append.mp asked with first | included
  · rcases List.mem_cons.mp first with manifest | listed
    · cases manifest
    · rw [moduleRequests] at listed
      split at listed
      · rcases List.mem_map.mp listed with ⟨other, kept, same⟩
        cases same
        exact (List.mem_filter.mp kept).1
      · cases listed
  · rcases List.mem_flatMap.mp included with ⟨other, _, member⟩
    rw [Source.requestsAt] at member
    split at member
    · rcases List.mem_map.mp member with ⟨_, _, same⟩
      cases same
    · cases member

theorem opens_of_asked (consistent : source.Consistent) {paths : List Path} {request : Request}
    (asked : request ∈ configuration.asks source root paths) {path : Path}
    (located : (configuration.loaderSettings source root).target request = .ok path) :
    (source.read? path).isSome := by
  cases request with
  | named name referrer? =>
      exact consistent.isFile (LoaderSettings.target_named_eq_ok located).2
  | listed other =>
      cases located
      exact consistent.list (mem_list_of_listed asked)

section
variable {path : Path} {file : InterfaceFile} {noted warnings : List Warning}
  {paths : List Path} {files : List InterfaceFile}
  (read : InterfaceFile.read source path = .ok file)
  (accounts : Loader.Accounts (configuration.loaderSettings source root)
    ⟨inclusions path file.root ++ .named configuration.manifestFile none ::
      configuration.moduleRequests source root, [path.identity], [file]⟩
    noted paths files warnings)
include read accounts

theorem requested_of_accounts : ∀ before place after, path :: paths = before ++ place :: after →
    before ≠ [] → ∃ request ∈ configuration.asks source root before,
      (configuration.loaderSettings source root).target request = .ok place := by
  intro before place after split later
  rcases List.cons_eq_append_iff.mp split with ⟨first, _⟩ | ⟨rest, rfl, same⟩
  · exact absurd first later
  · rcases accounts.requested rest place after same with ⟨request, asked, located⟩
    exact ⟨request, (asks_perm read rest).subset asked, located⟩

theorem opens_of_accounts (consistent : source.Consistent) {place : Path}
    (member : place ∈ path :: paths) : (source.read? place).isSome := by
  rcases List.append_of_mem member with ⟨before, after, split⟩
  by_cases first : before = []
  · subst first
    cases split
    rcases InterfaceFile.read_eq_ok_iff.mp read with ⟨contents, _, found, _⟩
    exact Option.isSome_iff_exists.mpr ⟨contents, found⟩
  · rcases requested_of_accounts read accounts before place after split first with
      ⟨request, asked, located⟩
    exact opens_of_asked consistent asked located

theorem files_of_accounts : files = (path :: paths).filterMap source.fileAt? := by
  have fine : source.fileAt? path = some file := by
    rw [Source.fileAt?, read]
    rfl
  rw [List.filterMap_cons_some fine]
  exact accounts.files

omit read in
theorem once_of_accounts : ((path :: paths).map Path.components).Nodup := by
  have distinct := accounts.distinct (List.nodup_singleton path.identity)
  rw [List.perm_append_comm.nodup_iff] at distinct
  refine List.Nodup.of_map (fun components => Path.Identity.mk components.length components) ?_
  rw [List.map_map]
  exact distinct

theorem noted_of_accounts (clean : skippedFailures noted = []) : (skippedFailures warnings).Perm
    ((configuration.asks source root (path :: paths)).filterMap
        (configuration.loaderSettings source root).missing? ++
      (path :: paths).filterMap source.failureAt?) := by
  have skipped := accounts.skipped
  have fine : source.failureAt? path = none := by
    rw [Source.failureAt?, read]
    rfl
  rw [clean, List.nil_append] at skipped
  rw [List.filterMap_cons_none fine]
  exact skipped.trans (((asks_perm read paths).filterMap _).append_right _)

theorem answered_of_accounts (consistent : source.Consistent)
    (clean : skippedFailures noted = []) {request : Request}
    (asked : request ∈ configuration.asks source root (path :: paths)) :
    Answered (configuration.loaderSettings source root) (path :: paths) files warnings
      request := by
  have skipped := noted_of_accounts read accounts clean
  cases target : (configuration.loaderSettings source root).target request with
  | error failure =>
      rcases LoaderSettings.target_eq_error target with ⟨name, referrer?, named, rfl⟩
      refine .notFound named target (mem_skippedFailures.mp (skipped.mem_iff.mpr ?_))
      exact List.mem_append_left _ (List.mem_filterMap.mpr
        ⟨request, asked, failureOf?_eq_some_iff.mpr target⟩)
  | ok located =>
      have visited := accounts.visited request ((asks_perm read paths).mem_iff.mpr asked)
        located target
      rw [List.perm_append_comm.mem_iff] at visited
      change located.identity ∈ (path :: paths).map Path.identity at visited
      rcases List.mem_map.mp visited with ⟨place, member, same⟩
      have spelled := Path.identity_eq_iff.mp same
      cases result : InterfaceFile.read source place with
      | ok other =>
          refine .loaded target member spelled result ?_
          rw [files_of_accounts read accounts]
          refine List.mem_filterMap.mpr ⟨place, member, ?_⟩
          rw [Source.fileAt?, result]
          rfl
      | error failure =>
          rcases InterfaceFile.malformed_of_read_eq_error
            (opens_of_accounts read accounts consistent member) result with ⟨message, rfl⟩
          refine .malformed target member spelled result
            (mem_skippedFailures.mp (skipped.mem_iff.mpr ?_))
          exact List.mem_append_right _ (List.mem_filterMap.mpr
            ⟨place, member, failureOf?_eq_some_iff.mpr result⟩)

end

theorem loadsFrom_of_load (consistent : source.Consistent)
    (tolerant : configuration.policy = .tolerant) {steps : Nat} {warnings : List Warning}
    {files : List InterfaceFile}
    (loaded : configuration.load source root steps = some ⟨warnings, .ok files⟩) :
    configuration.LoadsFrom source root (configuration.readings source root steps) files
      warnings := by
  rw [load] at loaded
  cases opened : (configuration.firstLoader source root).result with
  | error failure =>
      simp only [opened] at loaded
      cases loaded
  | ok loader =>
      simp only [opened] at loaded
      have accounts := Loader.accounts_of_run tolerant loaded
      have clean := skippedFailures_firstLoader opened
      rcases firstLoader_eq_ok_iff.mp opened with ⟨path, file, located, read, rfl⟩
      rw [readings, located]
      simp only [opened]
      change Loader.Accounts (configuration.loaderSettings source root) _ _
        (Loader.readings (configuration.loaderSettings source root) _ _) _ _ at accounts
      generalize Loader.readings _ steps _ = paths at accounts ⊢
      exact {
        common := ⟨path, file, located, read, rfl, congrArg List.head? accounts.files⟩
        loaded := files_of_accounts read accounts
        once := once_of_accounts accounts
        requested := requested_of_accounts read accounts
        answered := fun request asked => answered_of_accounts read accounts consistent clean asked
        opened := fun place member failure failed =>
          InterfaceFile.malformed_of_read_eq_error
            (opens_of_accounts read accounts consistent member)
            (failureOf?_eq_some_iff.mp failed)
        noted := noted_of_accounts read accounts clean }

end

/-- A tolerant loading from memory loads what is asked for, and accounts for the rest. -/
theorem load_accounts_for_requests (configuration : Configuration)
    (contents : List (Path × Bytes)) (root : Path) (steps : Nat) (warnings : List Warning)
    (files : List InterfaceFile) (tolerant : configuration.policy = .tolerant)
    (loaded : configuration.load (MemorySource.ofFiles contents).toSource root steps =
      some ⟨warnings, .ok files⟩) :
    configuration.LoadsFrom (MemorySource.ofFiles contents).toSource root
      (configuration.readings (MemorySource.ofFiles contents).toSource root steps) files
      warnings :=
  loadsFrom_of_load (MemorySource.consistent_ofFiles contents) tolerant loaded

private def shortNames : Configuration :=
  { default with includeModules := true, commonFile := "d", manifestFile := "m" }

private def faultyFiles : List (Path × Bytes) :=
  [(.ofText "/c/d", Utf8.encode "<i/>"),
    (.ofText "/c/m", Utf8.encode ("<i><interfacefile filename=\"m\"/>" ++
      "<interfacefile filename=\"n\"/><interfacefile filename=\"x\"/></i>")),
    (.ofText "/c/modules/a.xml", Utf8.encode "<i/>"), (.ofText "/c/x", Utf8.encode "<i>")]

private def faultyPaths : List Path :=
  [.ofText "/c/d", .ofText "/c/m", .ofText "/c/modules/a.xml", .ofText "/c/x"]

private def faultyLoaded : List InterfaceFile :=
  [⟨"d", ⟨"i", [], []⟩⟩,
    ⟨"m", ⟨"i", [], ["m", "n", "x"].map fun name => ⟨"interfacefile", [("filename", name)], []⟩⟩⟩,
    ⟨"a.xml", ⟨"i", [], []⟩⟩]

private def faultyWarnings : List Warning :=
  [.skipped (.notFound "n"), .skipped (.malformed "x" "unclosed element <i>")]

private theorem load_faultyFiles :
    shortNames.load (MemorySource.ofFiles faultyFiles).toSource (.ofText "/c") 5 =
      some ⟨faultyWarnings, .ok faultyLoaded⟩ :=
  Outcome.eq_some_of_toOption (by decide +kernel)

private theorem readings_faultyFiles :
    shortNames.readings (MemorySource.ofFiles faultyFiles).toSource (.ofText "/c") 5 =
      faultyPaths := by
  decide +kernel

theorem load_accounts_for_requests_faulty :
    shortNames.LoadsFrom (MemorySource.ofFiles faultyFiles).toSource (.ofText "/c")
      faultyPaths faultyLoaded faultyWarnings := by
  rw [← readings_faultyFiles]
  exact load_accounts_for_requests shortNames faultyFiles (.ofText "/c") 5 faultyWarnings
    faultyLoaded rfl load_faultyFiles

end Configuration

end CommandReference
