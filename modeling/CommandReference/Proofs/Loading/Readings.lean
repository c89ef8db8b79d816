import CommandReference.Proofs.Compilation.Policies
import CommandReference.Proofs.Loading.Ending

namespace CommandReference

/-! What loading reads. It reads paths one after another: what a step does follows from the
path that it reads, if any, and what is in other files does not matter. -/

/-! ## Paths and what they hold -/

def failureOf? : Except Failure α → Option Failure
  | .ok _ => none
  | .error failure => some failure

theorem failureOf?_eq_some_iff {result : Except Failure α} {failure : Failure} :
    failureOf? result = some failure ↔ result = .error failure := by
  cases result with
  | ok value => exact iff_of_false nofun nofun
  | error other =>
      rw [failureOf?, Option.some.injEq, Except.error.injEq]

theorem InterfaceFile.read_eq_of_read?_eq {source other : Source} {path : Path}
    (same : other.read? path = source.read? path) :
    InterfaceFile.read other path = InterfaceFile.read source path := by
  rw [InterfaceFile.read, InterfaceFile.read, same]

def Source.fileAt? (source : Source) (path : Path) : Option InterfaceFile :=
  (InterfaceFile.read source path).toOption

def Source.failureAt? (source : Source) (path : Path) : Option Failure :=
  failureOf? (InterfaceFile.read source path)

def Source.requestsAt (source : Source) (path : Path) : List Request :=
  match InterfaceFile.read source path with
  | .ok file => inclusions path file.root
  | .error _ => []

def LoaderSettings.missing? (settings : LoaderSettings) (request : Request) : Option Failure :=
  failureOf? (settings.target request)

namespace Loader

def reads (settings : LoaderSettings) (visited : List Path.Identity) (request : Request) :
    List Path :=
  match settings.target request with
  | .error _ => []
  | .ok path => if visited.contains path.identity then [] else [path]

def readings (settings : LoaderSettings) : (steps : Nat) → Loader → List Path
  | steps, loader =>
      match loader.queue, steps with
      | request :: queue, steps + 1 =>
          reads settings loader.visited request ++
            match (step settings { loader with queue } request).result with
            | .error _ => []
            | .ok next => readings settings steps next
      | _, _ => []

section
variable {settings : LoaderSettings} {steps : Nat} {loader : Loader} {request : Request}
  {queue : List Request} {visited : List Path.Identity} {files : List InterfaceFile}

theorem readings_of_done (done : loader.queue = []) : readings settings steps loader = [] := by
  rcases loader with ⟨_, visited, files⟩
  cases done
  cases steps <;> rfl

theorem readings_of_waiting (waiting : loader.queue = request :: queue) :
    readings settings (steps + 1) loader =
      reads settings loader.visited request ++
        match (step settings { loader with queue } request).result with
        | .error _ => []
        | .ok next => readings settings steps next := by
  rcases loader with ⟨_, visited, files⟩
  cases waiting
  rfl

theorem reads_cases (settings : LoaderSettings) (visited : List Path.Identity)
    (request : Request) :
    (reads settings visited request = [] ∧
        ∀ path, settings.target request = .ok path → path.identity ∈ visited) ∨
      ∃ path, reads settings visited request = [path] ∧
        settings.target request = .ok path ∧ path.identity ∉ visited := by
  rw [reads]
  cases settings.target request with
  | error failure => exact .inl ⟨rfl, nofun⟩
  | ok path =>
      by_cases known : path.identity ∈ visited
      · refine .inl ⟨if_pos (List.contains_iff_mem.mpr known), fun other same => ?_⟩
        cases same
        exact known
      · exact .inr ⟨path, if_neg (known ∘ List.contains_iff_mem.mp), rfl, known⟩

theorem nodup_reads (request : Request) (nodup : visited.Nodup) :
    ((reads settings visited request).map Path.identity ++ visited).Nodup := by
  rcases reads_cases settings visited request with ⟨none, _⟩ | ⟨path, one, _, new⟩
  · rw [none]
    exact nodup
  · rw [one]
    exact List.nodup_cons.mpr ⟨new, nodup⟩

theorem mem_reads_of_target {path : Path} (located : settings.target request = .ok path) :
    path.identity ∈ (reads settings visited request).map Path.identity ++ visited := by
  rcases reads_cases settings visited request with ⟨none, known⟩ | ⟨other, one, leads, _⟩
  · rw [none]
    exact known path located
  · cases located.symm.trans leads
    rw [one]
    exact List.mem_cons_self

theorem skippedFailures_accept (loader : Loader) (path : Path) (file : InterfaceFile) :
    skippedFailures (loader.accept path file).warnings = [] :=
  (accept_cutsShort loader path file).clean_of_eq rfl

theorem step_tolerant (tolerant : settings.policy = .tolerant) (request : Request)
    (queue : List Request) (visited : List Path.Identity) (files : List InterfaceFile) :
    (step settings ⟨queue, visited, files⟩ request).result =
        .ok ⟨queue ++ (reads settings visited request).flatMap settings.source.requestsAt,
          (reads settings visited request).map Path.identity ++ visited,
          files ++ (reads settings visited request).filterMap settings.source.fileAt?⟩ ∧
      skippedFailures (step settings ⟨queue, visited, files⟩ request).warnings =
        (settings.missing? request).toList ++
          (reads settings visited request).filterMap settings.source.failureAt? := by
  have nothing (visited : List Path.Identity) :
      (⟨queue, visited, files⟩ : Loader) = ⟨queue ++ [], visited, files ++ []⟩ := by
    rw [List.append_nil, List.append_nil]
  rw [step_eq, reads, LoaderSettings.missing?]
  cases settings.target request with
  | error failure =>
      rw [tolerant]
      exact ⟨congrArg Except.ok (nothing visited), rfl⟩
  | ok path =>
      simp only [visit, tolerant]
      split
      case isTrue => exact ⟨congrArg Except.ok (nothing visited), rfl⟩
      case isFalse =>
        simp only [List.flatMap_singleton, List.filterMap_cons, List.filterMap_nil,
          Source.requestsAt, Source.fileAt?, Source.failureAt?]
        cases InterfaceFile.read settings.source path with
        | error failure => exact ⟨congrArg Except.ok (nothing _), rfl⟩
        | ok file => exact ⟨result_accept _ path file, skippedFailures_accept _ path file⟩

end

/-! ## What does not matter -/

section
variable {settings : LoaderSettings} {other : Source}
  (sameFiles : other.isFile = settings.source.isFile)
include sameFiles

theorem step_congr {loader : Loader} {request : Request}
    (sameContents : ∀ path ∈ reads settings loader.visited request,
      other.read? path = settings.source.read? path) :
    step { settings with source := other } loader request = step settings loader request := by
  have target : LoaderSettings.target { settings with source := other } request =
      settings.target request := by
    cases request with
    | listed path => rfl
    | named name referrer? =>
        rw [LoaderSettings.target, LoaderSettings.target, locate, locate, sameFiles]
  rw [step_eq, step_eq, target]
  rw [reads] at sameContents
  cases located : settings.target request with
  | error failure => rfl
  | ok path =>
      simp only [located] at sameContents
      simp only [visit]
      split
      case isTrue => rfl
      case isFalse new =>
        rw [if_neg new] at sameContents
        rw [InterfaceFile.read_eq_of_read?_eq (sameContents path List.mem_cons_self)]

theorem run_congr {steps : Nat} {noted : List Warning} {loader : Loader}
    (sameContents : ∀ path ∈ readings settings steps loader,
      other.read? path = settings.source.read? path) :
    run { settings with source := other } steps noted loader =
      run settings steps noted loader := by
  induction steps generalizing noted loader with
  | zero =>
      rcases loader with ⟨queue, visited, files⟩
      cases queue <;> rfl
  | succ steps induction =>
      cases waiting : loader.queue with
      | nil => rw [run_of_done waiting, run_of_done waiting]
      | cons request queue =>
          rw [readings_of_waiting waiting] at sameContents
          rcases List.forall_mem_append.mp sameContents with ⟨now, later⟩
          have stepped : step { settings with source := other } { loader with queue } request =
              step settings { loader with queue } request := step_congr sameFiles now
          rw [run_of_waiting waiting, run_of_waiting waiting, stepped]
          cases result : (step settings { loader with queue } request).result with
          | error failure => rfl
          | ok next =>
              simp only [result] at later
              exact induction later

end

end Loader

namespace Configuration

/-- The paths that loading a corpus reads, in order: that of the common file, and those that
requests lead to. -/
def readings (configuration : Configuration) (source : Source) (root : Path) (steps : Nat) :
    List Path :=
  match locate source (configuration.search root) none configuration.commonFile with
  | .error _ => []
  | .ok path =>
      path :: match (configuration.firstLoader source root).result with
        | .error _ => []
        | .ok loader => loader.readings (configuration.loaderSettings source root) steps

theorem load_congr {configuration : Configuration} {source other : Source} {root : Path}
    {steps : Nat} (sameFiles : other.isFile = source.isFile)
    (sameLists : other.list = source.list)
    (sameContents : ∀ path ∈ configuration.readings source root steps,
      other.read? path = source.read? path) :
    configuration.load other root steps = configuration.load source root steps := by
  have located : locate other (configuration.search root) none configuration.commonFile =
      locate source (configuration.search root) none configuration.commonFile := by
    rw [locate, locate, sameFiles]
  have first : configuration.firstLoader other root = configuration.firstLoader source root := by
    rw [readings] at sameContents
    rw [firstLoader, firstLoader, located, moduleRequests, moduleRequests, sameLists]
    cases found : locate source (configuration.search root) none configuration.commonFile with
    | error failure => rfl
    | ok path =>
        simp only [found] at sameContents
        have opens := InterfaceFile.read_eq_of_read?_eq
          (List.forall_mem_cons.mp sameContents).1
        have begun : (Outcome.ofExcept (.ok path : Except Failure Path)).result = .ok path := rfl
        rw [Outcome.bind_ok begun, Outcome.bind_ok begun, opens]
  rw [load, load, first]
  cases opened : (configuration.firstLoader source root).result with
  | error failure => rfl
  | ok loader =>
      rcases firstLoader_eq_ok_iff.mp opened with ⟨path, file, found, _⟩
      rw [readings, found] at sameContents
      simp only [opened] at sameContents
      exact @Loader.run_congr (configuration.loaderSettings source root) other sameFiles _ _ _
        (List.forall_mem_cons.mp sameContents).2

end Configuration

end CommandReference
