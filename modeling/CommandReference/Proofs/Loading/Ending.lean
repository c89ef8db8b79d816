import CommandReference.Proofs.Loading.Advance
import CommandReference.Proofs.Loading.Reach

namespace CommandReference

/-! When loading ends. A file that is reached under one more spelling is loaded once
more, so the requests run out exactly if there is a bound on the parent steps in the
paths that are reached. Only a strict policy may give up before. -/

namespace Loader

section
variable {settings : LoaderSettings} {first : List Request} {loader : Loader}
  {request : Request}

/-! ## Finitely many places -/

def unvisited (places visited : List Path.Identity) : Nat :=
  (places.filter (· ∉ visited)).length

theorem unvisited_cons_lt {places visited : List Path.Identity} {place : Path.Identity}
    (member : place ∈ places) (new : place ∉ visited) :
    unvisited places (place :: visited) < unvisited places visited := by
  have fewer : places.filter (· ∉ place :: visited) =
      (places.filter (· ∉ visited)).filter (· ≠ place) := by
    rw [List.filter_filter]
    apply List.filter_congr
    intro other _
    simp only [List.mem_cons, not_or, Bool.decide_and]
  rw [unvisited, unvisited, fewer, List.length_filter_lt_length_iff_exists]
  refine ⟨place, List.mem_filter.mpr ⟨member, decide_eq_true new⟩, ?_⟩
  simp

/-- Every step either visits a new place or makes the queue shorter. -/
theorem ends_of_places {places : List Path.Identity}
    (complete : ∀ path, Reached settings first path → path.identity ∈ places)
    (asked : ∀ request ∈ loader.queue, Asked settings first request) :
    Ends settings loader := by
  rcases loader with ⟨queue, visited, files⟩
  induction count : unvisited places visited using Nat.strongRecOn
    generalizing queue visited files with
  | ind count visitNew =>
      induction queue generalizing files with
      | nil => exact .finished
      | cons request queue induction =>
          apply Ends.of_advance
          intro next advance
          have later := advance.asked asked
          have arrives {path : Path} (located : settings.target request = .ok path) :
              path.identity ∈ places :=
            complete path ⟨request, asked request List.mem_cons_self, located⟩
          cases advance with
          | unlocated | repeated => exact induction files later
          | unreadable located new | loaded located new =>
              have fewer := unvisited_cons_lt (arrives located) new
              rw [count] at fewer
              exact visitNew _ fewer _ _ _ later rfl

/-! ## Every request is dealt with -/

theorem Progress.ends_of_covered (progress : Progress settings first loader)
    (ignores : settings.source.IgnoresSpelling) (covered : Covered settings loader request)
    (later : ∀ next, Progress settings first next →
      Settled settings next.visited request → Ends settings next) :
    Ends settings loader := by
  rcases covered with settled | ⟨other, member, same⟩
  · exact later loader progress settled
  · rcases loader with ⟨queue, visited, files⟩
    rcases List.append_of_mem member with ⟨before, after, rfl⟩
    clear member
    induction before generalizing after visited files with
    | nil =>
        apply Ends.of_advance
        intro next advance
        exact later next (progress.advance ignores advance)
          (advance.settled.congr ignores same)
    | cons head before induction =>
        apply Ends.of_advance
        intro next advance
        have stillProgress := progress.advance ignores advance
        rcases advance.queue_eq with ⟨more, extended⟩
        rcases next with ⟨queue, nextVisited, nextFiles⟩
        have shorter : queue = before ++ other :: (after ++ more) :=
          extended.trans (List.append_assoc before (other :: after) more)
        subst shorter
        exact induction nextVisited nextFiles (after ++ more) stillProgress

theorem Asked.ends (asked : Asked settings first request)
    (ignores : settings.source.IgnoresSpelling) (progress : Progress settings first loader)
    (later : ∀ next, Progress settings first next →
      Settled settings next.visited request → Ends settings next) :
    Ends settings loader := by
  induction asked generalizing loader with
  | first member => exact progress.ends_of_covered ignores (progress.first _ member) later
  | included asked located read member induction =>
      apply induction progress
      intro next nextProgress settled
      have visited := (settled_iff_of_located located).mp settled
      have covered := nextProgress.included _ _ visited read _ (List.mem_map_of_mem member)
      exact nextProgress.ends_of_covered ignores covered later

theorem Progress.ends_of_fetch_eq_error (progress : Progress settings first loader)
    (ignores : settings.source.IgnoresSpelling) (strict : settings.policy = .strict)
    (asked : Asked settings first request) {failure : Failure}
    (failed : settings.fetch request = .error failure) : Ends settings loader := by
  apply Asked.ends asked ignores progress
  intro next nextProgress settled
  exfalso
  cases located : settings.target request with
  | error missing =>
      rw [Settled, LoaderSettings.place?, located] at settled
      cases strict.symm.trans settled
  | ok path =>
      have visited := (settled_iff_of_located located).mp settled
      rcases nextProgress.readable strict path visited with ⟨file, read⟩
      rw [LoaderSettings.fetch_eq_ok located, read] at failed
      cases failed

/-! ## What an end shows -/

theorem Progress.settled_of_finished {visited : List Path.Identity}
    {files : List InterfaceFile} (progress : Progress settings first ⟨[], visited, files⟩)
    (asked : Asked settings first request) : Settled settings visited request := by
  have settled {request : Request}
      (covered : Covered settings ⟨[], visited, files⟩ request) :
      Settled settings visited request := by
    rcases covered with settled | ⟨other, member, _⟩
    · exact settled
    · cases member
  induction asked with
  | first member => exact settled (progress.first _ member)
  | included asked located read member induction =>
      have known := (settled_iff_of_located located).mp induction
      exact settled (progress.included _ _ known read _ (List.mem_map_of_mem member))

theorem Ends.bounded_or_failing (ends : Ends settings loader)
    (ignores : settings.source.IgnoresSpelling) (progress : Progress settings first loader) :
    (∃ bound, ∀ path, Reached settings first path → path.parentSteps ≤ bound) ∨
      settings.policy = .strict ∧
        ∃ request, Asked settings first request ∧
          ∃ failure, settings.fetch request = .error failure := by
  induction ends with
  | @finished visited files =>
      rcases exists_upper_bound visited fun place => place.components.count ".." with
        ⟨bound, each⟩
      refine .inl ⟨bound, fun path reached => ?_⟩
      rcases reached with ⟨request, asked, located⟩
      exact each path.identity
        ((settled_iff_of_located located).mp (progress.settled_of_finished asked))
  | @stopped request queue visited files failure failed =>
      rcases step_cases settings request queue visited files with
        ⟨next, stepped, _⟩ | ⟨other, _, strict, fetched⟩
      · cases failed.symm.trans stepped
      · exact .inr ⟨strict, request, progress.asked request List.mem_cons_self, other, fetched⟩
  | @advanced request queue visited files next stepped later induction =>
      rcases step_cases settings request queue visited files with
        ⟨other, otherStepped, advance⟩ | ⟨failure, failed, _⟩
      · cases stepped.symm.trans otherStepped
        exact induction (progress.advance ignores advance)
      · cases stepped.symm.trans failed

end

theorem Progress.ends_iff {memory : MemorySource} {search : List Path} {policy : Policy}
    {first : List Request} {loader : Loader}
    (progress : Progress ⟨memory.toSource, search, policy⟩ first loader) :
    Ends ⟨memory.toSource, search, policy⟩ loader ↔
      (∃ bound, ∀ path, Reached ⟨memory.toSource, search, policy⟩ first path →
          path.parentSteps ≤ bound) ∨
        policy = .strict ∧
          ∃ request, Asked ⟨memory.toSource, search, policy⟩ first request ∧
            ∃ failure,
              LoaderSettings.fetch ⟨memory.toSource, search, policy⟩ request =
                .error failure := by
  constructor
  · intro ends
    exact ends.bounded_or_failing memory.ignoresSpelling progress
  · intro alternatives
    rcases alternatives with ⟨bound, bounded⟩ | ⟨strict, request, asked, failure, failed⟩
    · rcases exists_places bounded with ⟨places, complete⟩
      exact ends_of_places complete progress.asked
    · exact progress.ends_of_fetch_eq_error memory.ignoresSpelling strict asked failed

end Loader

namespace Configuration

/-! ## Loading a corpus -/

def loaderSettings (configuration : Configuration) (source : Source) (root : Path) :
    LoaderSettings :=
  ⟨source, configuration.search root, configuration.policy⟩

theorem firstLoader_eq_ok_iff {configuration : Configuration} {source : Source} {root : Path}
    {loader : Loader} :
    (configuration.firstLoader source root).result = .ok loader ↔
      ∃ path file,
        locate source (configuration.search root) none configuration.commonFile = .ok path ∧
          InterfaceFile.read source path = .ok file ∧
          loader = ⟨inclusions path file.root ++ .named configuration.manifestFile none ::
            configuration.moduleRequests source root, [path.identity], [file]⟩ := by
  rw [firstLoader]
  cases locate source (configuration.search root) none configuration.commonFile with
  | error failure =>
      rw [Outcome.bind_error rfl]
      refine iff_of_false (fun opened => nomatch opened) fun found => ?_
      rcases found with ⟨_, _, located, _⟩
      cases located
  | ok path =>
      rw [Outcome.bind_ok rfl]
      cases read : InterfaceFile.read source path with
      | error failure =>
          rw [Outcome.bind_error rfl]
          refine iff_of_false (fun opened => nomatch opened) fun found => ?_
          rcases found with ⟨_, _, located, found, _⟩
          cases located
          cases read.symm.trans found
      | ok file =>
          rw [Outcome.bind_ok rfl, Outcome.bind_ok (Loader.result_accept _ path file)]
          constructor
          · intro opened
            cases opened
            exact ⟨path, file, rfl, read, rfl⟩
          · intro found
            rcases found with ⟨_, _, located, found, rfl⟩
            cases located
            cases read.symm.trans found
            rfl

theorem progress_firstLoader {configuration : Configuration} {source : Source} {root : Path}
    (ignores : source.IgnoresSpelling) {loader : Loader}
    (opened : (configuration.firstLoader source root).result = .ok loader) :
    Loader.Progress (configuration.loaderSettings source root) loader.queue loader := by
  rcases firstLoader_eq_ok_iff.mp opened with ⟨path, file, _, read, rfl⟩
  refine ⟨fun request member => .first member,
    fun request member => .inr ⟨request, member, rfl⟩, ?_, ?_⟩
  · intro other otherFile visited otherRead request member
    have same := Path.identity_eq_iff.mp (List.mem_singleton.mp visited)
    rcases outline_mem_inclusions ignores same otherRead read member with
      ⟨found, included, alike⟩
    exact .inr ⟨found, List.mem_append_left _ included, alike⟩
  · intro _ other visited
    have same := Path.identity_eq_iff.mp (List.mem_singleton.mp visited)
    exact ⟨_, InterfaceFile.read_congr ignores same.symm read⟩

theorem load_isSome_iff (configuration : Configuration) (source : Source) (root : Path) :
    (∃ steps, (configuration.load source root steps).isSome) ↔
      ∀ loader, (configuration.firstLoader source root).result = .ok loader →
        Loader.Ends (configuration.loaderSettings source root) loader := by
  simp only [load]
  cases opened : (configuration.firstLoader source root).result with
  | error failure =>
      refine iff_of_true ⟨0, rfl⟩ fun loader found => ?_
      cases found
  | ok loader =>
      rw [Loader.run_isSome_iff]
      refine ⟨fun ends other found => ?_, fun each => ?_⟩
      · cases found
        exact ends
      · exact each loader rfl

/-- Loading a corpus from memory ends exactly if its common file cannot be opened, or
there is a bound on the parent steps in the paths that are reached, or a strict policy
meets a request that fails. -/
theorem load_ends_iff (configuration : Configuration) (memory : MemorySource) (root : Path) :
    (∃ steps, (configuration.load memory.toSource root steps).isSome) ↔
      ∀ loader, (configuration.firstLoader memory.toSource root).result = .ok loader →
        (∃ bound, ∀ path,
            Reached (configuration.loaderSettings memory.toSource root) loader.queue path →
              path.parentSteps ≤ bound) ∨
          configuration.policy = .strict ∧
            ∃ request,
              Asked (configuration.loaderSettings memory.toSource root) loader.queue request ∧
                ∃ failure,
                  (configuration.loaderSettings memory.toSource root).fetch request =
                    .error failure := by
  rw [load_isSome_iff]
  refine forall_congr' fun loader => forall_congr' fun opened => ?_
  exact (progress_firstLoader memory.ignoresSpelling opened).ends_iff

theorem load_ends_of_downward (configuration : Configuration) {memory : MemorySource}
    (downward : Downward memory.toSource) (root : Path) :
    ∃ steps, (configuration.load memory.toSource root steps).isSome := by
  rw [load_isSome_iff]
  intro loader opened
  exact (progress_firstLoader memory.ignoresSpelling opened).ends_iff.mpr
    (.inl (Downward.parentSteps_le downward))

/-! ## A file that includes itself under ever new spellings -/

private def endlessCorpus : MemorySource := .ofFiles
  [(.ofText "/c/i-common-definitions.xml", Utf8.encode "<interface/>"),
    (.ofText "/c/i-context.xml",
      Utf8.encode "<interface><interfacefile filename=\"a/x.xml\"/></interface>"),
    (.ofText "/c/a/x.xml",
      Utf8.encode "<interface><interfacefile filename=\"../a/x.xml\"/></interface>")]

private def endlessSettings : LoaderSettings :=
  default.loaderSettings endlessCorpus.toSource (.ofText "/c")

private theorem read_endless {path : Path} (there : path.location = ["", "c", "a", "x.xml"]) :
    ∃ file, InterfaceFile.read endlessCorpus.toSource path = .ok file ∧
      inclusionNames file.root = ["../a/x.xml"] := by
  have found : endlessCorpus.get? path.location = some (Utf8.encode
      "<interface><interfacefile filename=\"../a/x.xml\"/></interface>") := by
    rw [there]
    rfl
  have parsed : Markup.parse
      "<interface><interfacefile filename=\"../a/x.xml\"/></interface>" =
        .ok ⟨"interface", [], [⟨"interfacefile", [("filename", "../a/x.xml")], []⟩]⟩ := by rfl
  exact ⟨_, MemorySource.read_of_text found parsed, by rfl⟩

private theorem target_endless {directory : Path}
    (inside : directory.components.foldl Path.enter [] = ["a", "c", ""]) :
    endlessSettings.target (.named "../a/x.xml" (some directory)) =
        .ok (directory.joinText "../a/x.xml") ∧
      (directory.joinText "../a/x.xml").components =
        directory.components ++ ["..", "a"] ++ ["x.xml"] := by
  have joined : (directory.joinText "../a/x.xml").components =
      directory.components ++ ["..", "a"] ++ ["x.xml"] := by
    have nonempty : directory ≠ .empty := by
      intro equal
      rw [equal] at inside
      cases inside
    rw [Path.joinText, Path.components_join, if_neg, List.append_assoc]
    · rfl
    · rintro (absolute | equal)
      · cases absolute
      · exact nonempty equal
  have present : endlessSettings.source.isFile (directory.joinText "../a/x.xml") = true := by
    show endlessCorpus.contains (Path.location _) = true
    rw [Path.location, joined, List.foldl_append, List.foldl_append, inside]
    decide
  have absent : endlessSettings.source.isFile ((Path.ofText "/c").joinText "../a/x.xml") =
      false := by decide
  refine ⟨?_, joined⟩
  have found : ([Path.ofText "/c", directory].map (·.joinText "../a/x.xml")).find?
      endlessSettings.source.isFile = some (directory.joinText "../a/x.xml") := by
    rw [List.map_cons, List.find?_cons, absent, List.map_singleton, List.find?_cons, present]
  have search : endlessSettings.search ++ (some directory).toList =
      [Path.ofText "/c", directory] := rfl
  rw [LoaderSettings.target, locate, search]
  simp only [found]

private theorem asked_endless {first : List Request}
    (manifest : .named "i-context.xml" none ∈ first) :
    Asked endlessSettings first
      (.named "a/x.xml" (Path.ofText "/c/i-context.xml").parent?) := by
  have located : endlessSettings.target (.named "i-context.xml" none) =
      .ok (.ofText "/c/i-context.xml") := by rfl
  have found : endlessCorpus.get? (Path.ofText "/c/i-context.xml").location =
      some (Utf8.encode
        "<interface><interfacefile filename=\"a/x.xml\"/></interface>") := by rfl
  have parsed : Markup.parse
      "<interface><interfacefile filename=\"a/x.xml\"/></interface>" =
        .ok ⟨"interface", [], [⟨"interfacefile", [("filename", "a/x.xml")], []⟩]⟩ := by rfl
  exact .included (.first manifest) located (MemorySource.read_of_text found parsed)
    (List.mem_singleton_self "a/x.xml")

private theorem reached_endless {first : List Request}
    (manifest : .named "i-context.xml" none ∈ first) (steps : Nat) :
    ∃ path outer, Reached endlessSettings first path ∧
      path.components = outer ++ ["x.xml"] ∧
        outer.foldl Path.enter [] = ["a", "c", ""] ∧ steps ≤ path.parentSteps := by
  induction steps with
  | zero =>
      exact ⟨.ofText "/c/a/x.xml", ["", "c", "a"], ⟨_, asked_endless manifest, rfl⟩, by decide,
        by decide, Nat.zero_le _⟩
  | succ steps induction =>
      rcases induction with ⟨path, outer, ⟨request, asked, located⟩, named, inside, many⟩
      have there : path.location = ["", "c", "a", "x.xml"] := by
        rw [Path.location, named, List.foldl_append, inside]
        decide
      rcases read_endless there with ⟨file, read, names⟩
      have included : Asked endlessSettings first (.named "../a/x.xml" path.parent?) :=
        .included asked located read (names ▸ List.mem_singleton_self _)
      have parent := Path.components_parent? path
      rw [named, List.dropLast_concat, if_neg] at parent
      · rcases Option.map_eq_some_iff.mp parent with ⟨directory, referring, rfl⟩
        rw [referring] at included
        rcases target_endless inside with ⟨located, joined⟩
        refine ⟨_, _, ⟨_, included, located⟩, joined, ?_, ?_⟩
        · rw [List.foldl_append, inside]
          decide
        · rw [Path.parentSteps, named, List.count_append] at many
          rw [Path.parentSteps, joined, List.count_append, List.count_append]
          exact Nat.add_le_add_right many 1
      · rintro (empty | root)
        · cases outer <;> cases empty
        · cases outer with
          | nil => cases inside
          | cons name others => cases others <;> cases root

/-- No number of steps is enough to load this corpus. -/
theorem load_endless :
    ¬ ∃ steps, (default.load endlessCorpus.toSource (.ofText "/c") steps).isSome := by
  intro enough
  have ends := (load_isSome_iff default endlessCorpus.toSource (.ofText "/c")).mp enough
  have located : locate endlessCorpus.toSource (default.search (.ofText "/c")) none
      default.commonFile = .ok (.ofText "/c/i-common-definitions.xml") := by rfl
  have found : endlessCorpus.get? (Path.ofText "/c/i-common-definitions.xml").location =
      some (Utf8.encode "<interface/>") := by rfl
  have parsed : Markup.parse "<interface/>" = .ok ⟨"interface", [], []⟩ := by rfl
  have opened := firstLoader_eq_ok_iff.mpr
    ⟨_, _, located, MemorySource.read_of_text found parsed, rfl⟩
  have progress := progress_firstLoader endlessCorpus.ignoresSpelling opened
  rcases progress.ends_iff.mp (ends _ opened) with ⟨bound, bounded⟩ | ⟨strict, _⟩
  · have manifest := List.mem_append_right
      (inclusions (Path.ofText "/c/i-common-definitions.xml") ⟨"interface", [], []⟩)
      (List.mem_cons_self (a := Request.named default.manifestFile none)
        (l := default.moduleRequests endlessCorpus.toSource (.ofText "/c")))
    rcases reached_endless manifest (bound + 1) with ⟨path, _, reached, _, _, many⟩
    exact absurd (bounded path reached) (Nat.not_le_of_gt many)
  · cases strict

end Configuration

end CommandReference
