import CommandReference.Proofs.Loading.Requests
import Mathlib.Logic.Relation

namespace CommandReference

/-! Loading step by step: what one request does to the state of loading, what stays true
of the state from the first one on, and what it means that the requests run out. -/

/-! ## One step -/

theorem Outcome.result_mapM {function : α → Outcome β} {value : α → β}
    (each : ∀ item, (function item).result = .ok (value item)) (items : List α) :
    (items.mapM function).result = .ok (items.map value) := by
  have looped (done : List β) :
      (List.mapM.loop function items done).result =
        .ok (done.reverse ++ items.map value) := by
    induction items generalizing done with
    | nil => exact congrArg Except.ok (List.append_nil _).symm
    | cons item rest induction =>
        rw [List.mapM.loop, Outcome.bind_ok (each item)]
        simp only [induction, List.reverse_cons, List.append_assoc, List.singleton_append,
          List.map_cons]
  exact looped []

theorem Outcome.eq_some_of_toOption {found : Option (Outcome α)} {warnings : List Warning}
    {value : α} (answer : found.map (fun outcome => (outcome.warnings, outcome.result.toOption)) =
      some (warnings, some value)) : found = some ⟨warnings, .ok value⟩ := by
  rcases Option.map_eq_some_iff.mp answer with ⟨⟨noted, result⟩, rfl, same⟩
  cases result with
  | error failure => cases same
  | ok other =>
      cases same
      rfl

namespace Loader

theorem result_inclusion (path : Path) (element : Markup.Element) :
    (inclusion path element).result =
      .ok (if element.attributeOrEmpty "filename" = "" then []
        else [.named (element.attributeOrEmpty "filename") path.parent?]) := by
  rw [inclusion]
  split <;> rfl

theorem flatten_map_unless_empty (request : String → Request) (names : List String) :
    (names.map fun name => if name = "" then [] else [request name]).flatten =
      (names.filter (· ≠ "")).map request := by
  induction names with
  | nil => rfl
  | cons name rest induction =>
      rw [List.map_cons, List.flatten_cons, induction]
      by_cases unnamed : name = ""
      · rw [if_pos unnamed, List.filter_cons_of_neg (by simpa using unnamed)]
        rfl
      · rw [if_neg unnamed, List.filter_cons_of_pos (by simpa using unnamed)]
        rfl

theorem result_accept (loader : Loader) (path : Path) (file : InterfaceFile) :
    (loader.accept path file).result =
      .ok ⟨loader.queue ++ inclusions path file.root, loader.visited,
        loader.files ++ [file]⟩ := by
  have requests := Outcome.result_mapM (result_inclusion path)
    (file.root.named "interfacefile")
  rw [accept, Outcome.bind_ok requests, inclusions, inclusionNames,
    ← flatten_map_unless_empty, List.map_map]
  rfl

theorem step_eq (settings : LoaderSettings) (loader : Loader) (request : Request) :
    step settings loader request =
      match settings.target request with
      | .ok path => loader.visit settings path
      | .error failure => do
          settings.policy.handle failure
          return loader := by
  cases request <;> rfl

/-- What dealing with the first request in the queue can do, short of giving up. -/
inductive Advance (settings : LoaderSettings) : Loader → Loader → Prop where
  | unlocated {request : Request} {queue : List Request} {visited : List Path.Identity}
      {files : List InterfaceFile} {failure : Failure}
      (missing : settings.target request = .error failure)
      (tolerant : settings.policy = .tolerant) :
      Advance settings ⟨request :: queue, visited, files⟩ ⟨queue, visited, files⟩
  | repeated {request : Request} {queue : List Request} {visited : List Path.Identity}
      {files : List InterfaceFile} {path : Path}
      (located : settings.target request = .ok path) (known : path.identity ∈ visited) :
      Advance settings ⟨request :: queue, visited, files⟩ ⟨queue, visited, files⟩
  | unreadable {request : Request} {queue : List Request} {visited : List Path.Identity}
      {files : List InterfaceFile} {path : Path} {failure : Failure}
      (located : settings.target request = .ok path) (new : path.identity ∉ visited)
      (failed : InterfaceFile.read settings.source path = .error failure)
      (tolerant : settings.policy = .tolerant) :
      Advance settings ⟨request :: queue, visited, files⟩
        ⟨queue, path.identity :: visited, files⟩
  | loaded {request : Request} {queue : List Request} {visited : List Path.Identity}
      {files : List InterfaceFile} {path : Path} {file : InterfaceFile}
      (located : settings.target request = .ok path) (new : path.identity ∉ visited)
      (read : InterfaceFile.read settings.source path = .ok file) :
      Advance settings ⟨request :: queue, visited, files⟩
        ⟨queue ++ inclusions path file.root, path.identity :: visited, files ++ [file]⟩

theorem step_cases (settings : LoaderSettings) (request : Request) (queue : List Request)
    (visited : List Path.Identity) (files : List InterfaceFile) :
    (∃ next, (step settings ⟨queue, visited, files⟩ request).result = .ok next ∧
        Advance settings ⟨request :: queue, visited, files⟩ next) ∨
      ∃ failure, (step settings ⟨queue, visited, files⟩ request).result = .error failure ∧
        settings.policy = .strict ∧ settings.fetch request = .error failure := by
  rw [step_eq]
  cases located : settings.target request with
  | error failure =>
      cases policy : settings.policy with
      | tolerant => exact .inl ⟨_, rfl, .unlocated located policy⟩
      | strict =>
          refine .inr ⟨failure, rfl, rfl, ?_⟩
          rw [LoaderSettings.fetch, located]
          rfl
  | ok path =>
      simp only [visit]
      by_cases known : path.identity ∈ visited
      · rw [if_pos (List.contains_iff_mem.mpr known)]
        exact .inl ⟨_, rfl, .repeated located known⟩
      · rw [if_neg (known ∘ List.contains_iff_mem.mp), LoaderSettings.fetch_eq_ok located]
        cases read : InterfaceFile.read settings.source path with
        | ok file => exact .inl ⟨_, result_accept _ path file, .loaded located known read⟩
        | error failure =>
            cases policy : settings.policy with
            | tolerant => exact .inl ⟨_, rfl, .unreadable located known read policy⟩
            | strict => exact .inr ⟨failure, rfl, rfl, rfl⟩

section
variable {settings : LoaderSettings} {steps : Nat} {noted : List Warning} {loader : Loader}

theorem run_of_done (done : loader.queue = []) :
    run settings steps noted loader = some ⟨noted, .ok loader.files⟩ := by
  rw [run]
  exact done

theorem run_of_waiting {request : Request} {queue : List Request}
    (waiting : loader.queue = request :: queue) :
    run settings (steps + 1) noted loader =
      match (step settings { loader with queue } request).result with
      | .error failure =>
          some ⟨noted ++ (step settings { loader with queue } request).warnings,
            .error failure⟩
      | .ok next =>
          run settings steps
            (noted ++ (step settings { loader with queue } request).warnings) next := by
  rcases loader with ⟨_, visited, files⟩
  cases waiting
  rfl

end

/-! ## Requests that are dealt with -/

/-- The place that a request leads to has been visited, if there is one. -/
def Settled (settings : LoaderSettings) (visited : List Path.Identity)
    (request : Request) : Prop :=
  match settings.place? request with
  | some place => place ∈ visited
  | none => settings.policy = .tolerant

/-- A request is settled, or one like it is in the queue. -/
def Covered (settings : LoaderSettings) (loader : Loader) (request : Request) : Prop :=
  Settled settings loader.visited request ∨
    ∃ other ∈ loader.queue, other.outline = request.outline

section
variable {settings : LoaderSettings} {loader next : Loader} {request : Request}
  {queue : List Request} {visited : List Path.Identity} {files : List InterfaceFile}
  {path : Path}

theorem place?_eq_some (located : settings.target request = .ok path) :
    settings.place? request = some path.identity := by
  rw [LoaderSettings.place?, located]
  rfl

theorem settled_iff_of_located (located : settings.target request = .ok path) :
    Settled settings visited request ↔ path.identity ∈ visited := by
  rw [Settled, place?_eq_some located]

theorem Settled.mono {more : List Path.Identity} (subset : visited ⊆ more)
    (settled : Settled settings visited request) : Settled settings more request := by
  rw [Settled] at *
  cases place : settings.place? request with
  | none =>
      rw [place] at settled
      exact settled
  | some identity =>
      rw [place] at settled
      exact subset settled

theorem Settled.congr (ignores : settings.source.IgnoresSpelling) {other : Request}
    (same : other.outline = request.outline)
    (settled : Settled settings visited other) : Settled settings visited request := by
  rw [Settled, ← LoaderSettings.place?_congr ignores same]
  exact settled

theorem Advance.visited_subset (advance : Advance settings loader next) :
    loader.visited ⊆ next.visited := by
  cases advance with
  | unlocated | repeated => exact List.Subset.refl _
  | unreadable | loaded => exact List.subset_cons_self _ _

theorem Advance.queue_eq (advance : Advance settings ⟨request :: queue, visited, files⟩ next) :
    ∃ more, next.queue = queue ++ more := by
  cases advance with
  | unlocated | repeated | unreadable => exact ⟨[], (List.append_nil queue).symm⟩
  | loaded => exact ⟨_, rfl⟩

theorem Advance.settled (advance : Advance settings ⟨request :: queue, visited, files⟩ next) :
    Settled settings next.visited request := by
  cases advance with
  | unlocated missing tolerant =>
      rw [Settled, LoaderSettings.place?, missing]
      exact tolerant
  | repeated located known => exact (settled_iff_of_located located).mpr known
  | unreadable located | loaded located =>
      exact (settled_iff_of_located located).mpr List.mem_cons_self

theorem Advance.covered (advance : Advance settings loader next)
    (ignores : settings.source.IgnoresSpelling) (covered : Covered settings loader request) :
    Covered settings next request := by
  rcases covered with settled | ⟨other, member, same⟩
  · exact .inl (settled.mono advance.visited_subset)
  · rcases loader with ⟨queue, visited, files⟩
    cases queue with
    | nil => cases member
    | cons head queue =>
        rcases List.mem_cons.mp member with rfl | later
        · exact .inl (advance.settled.congr ignores same)
        · rcases advance.queue_eq with ⟨more, extended⟩
          exact .inr ⟨other, extended ▸ List.mem_append_left more later, same⟩

end

/-! ## What stays true -/

/-- States of a run that starts with the requests `first`: whatever is asked for on the
way is covered. A strict run has only visited files that can be read. -/
structure Progress (settings : LoaderSettings) (first : List Request)
    (loader : Loader) : Prop where
  asked : ∀ request ∈ loader.queue, Asked settings first request
  first : ∀ request ∈ first, Covered settings loader request
  included : ∀ path file, path.identity ∈ loader.visited →
    InterfaceFile.read settings.source path = .ok file →
      ∀ request ∈ inclusions path file.root, Covered settings loader request
  readable : settings.policy = .strict → ∀ path, path.identity ∈ loader.visited →
    ∃ file, InterfaceFile.read settings.source path = .ok file

section
variable {settings : LoaderSettings} {first : List Request} {loader next : Loader}

theorem Advance.asked (advance : Advance settings loader next)
    (asked : ∀ request ∈ loader.queue, Asked settings first request) :
    ∀ request ∈ next.queue, Asked settings first request := by
  cases advance with
  | unlocated | repeated | unreadable =>
      exact fun request member => asked request (List.mem_cons_of_mem _ member)
  | loaded located new read =>
      intro request member
      rcases List.mem_append.mp member with waiting | included
      · exact asked request (List.mem_cons_of_mem _ waiting)
      · exact (asked _ List.mem_cons_self).inclusion located read included

theorem Progress.advance (progress : Progress settings first loader)
    (ignores : settings.source.IgnoresSpelling) (advance : Advance settings loader next) :
    Progress settings first next := by
  have kept (request : Request) (covered : Covered settings loader request) :
      Covered settings next request := advance.covered ignores covered
  refine ⟨advance.asked progress.asked,
    fun request member => kept request (progress.first request member), ?_, ?_⟩
  · intro path file visited read request member
    cases advance with
    | unlocated | repeated =>
        exact kept request (progress.included path file visited read request member)
    | unreadable located new failed =>
        rcases List.mem_cons.mp visited with newest | earlier
        · have readAgain := InterfaceFile.read_congr ignores
            (Path.identity_eq_iff.mp newest) read
          cases failed.symm.trans readAgain
        · exact kept request (progress.included path file earlier read request member)
    | loaded located new newRead =>
        rcases List.mem_cons.mp visited with newest | earlier
        · rcases outline_mem_inclusions ignores (Path.identity_eq_iff.mp newest) read newRead
            member with ⟨found, included, same⟩
          exact .inr ⟨found, List.mem_append_right _ included, same⟩
        · exact kept request (progress.included path file earlier read request member)
  · intro strict path visited
    cases advance with
    | unlocated | repeated => exact progress.readable strict path visited
    | unreadable located new failed tolerant => cases tolerant.symm.trans strict
    | loaded located new newRead =>
        rcases List.mem_cons.mp visited with newest | earlier
        · exact ⟨_, InterfaceFile.read_congr ignores
            (Path.identity_eq_iff.mp newest).symm newRead⟩
        · exact progress.readable strict path earlier

end

/-! ## The end -/

/-- The requests run out, or a strict policy gives up. -/
inductive Ends (settings : LoaderSettings) : Loader → Prop where
  | finished {visited : List Path.Identity} {files : List InterfaceFile} :
      Ends settings ⟨[], visited, files⟩
  | stopped {request : Request} {queue : List Request} {visited : List Path.Identity}
      {files : List InterfaceFile} {failure : Failure}
      (failed : (step settings ⟨queue, visited, files⟩ request).result = .error failure) :
      Ends settings ⟨request :: queue, visited, files⟩
  | advanced {request : Request} {queue : List Request} {visited : List Path.Identity}
      {files : List InterfaceFile} {next : Loader}
      (stepped : (step settings ⟨queue, visited, files⟩ request).result = .ok next)
      (later : Ends settings next) : Ends settings ⟨request :: queue, visited, files⟩

theorem Ends.of_advance {settings : LoaderSettings} {request : Request}
    {queue : List Request} {visited : List Path.Identity} {files : List InterfaceFile}
    (each : ∀ next, Advance settings ⟨request :: queue, visited, files⟩ next →
      Ends settings next) : Ends settings ⟨request :: queue, visited, files⟩ := by
  rcases step_cases settings request queue visited files with
    ⟨next, stepped, advance⟩ | ⟨failure, failed, _⟩
  · exact .advanced stepped (each next advance)
  · exact .stopped failed

theorem run_isSome_iff (settings : LoaderSettings) (noted : List Warning) (loader : Loader) :
    (∃ steps, (run settings steps noted loader).isSome) ↔ Ends settings loader := by
  constructor
  · intro enough
    rcases enough with ⟨steps, found⟩
    fun_induction run settings steps noted loader with
    | case1 steps noted loader done =>
        rcases loader with ⟨_, visited, files⟩
        cases done
        exact .finished
    | case2 => cases found
    | case3 noted loader request queue steps waiting stepped notedNext failure failed =>
        rcases loader with ⟨_, visited, files⟩
        cases waiting
        exact .stopped failed
    | case4 noted loader request queue steps waiting stepped notedNext next succeeded induction =>
        rcases loader with ⟨_, visited, files⟩
        cases waiting
        exact .advanced succeeded (induction found)
  · intro ends
    induction ends generalizing noted with
    | finished => exact ⟨0, rfl⟩
    | stopped failed =>
        refine ⟨1, ?_⟩
        rw [run_of_waiting rfl]
        simp only [failed]
        rfl
    | advanced stepped later induction =>
        rcases induction (noted ++ (step settings _ _).warnings) with ⟨steps, found⟩
        refine ⟨steps + 1, ?_⟩
        rw [run_of_waiting rfl]
        simp only [stepped]
        exact found

theorem advances_of_run {settings : LoaderSettings} {steps : Nat} {noted warnings : List Warning}
    {loader : Loader} {files : List InterfaceFile}
    (ran : run settings steps noted loader = some ⟨warnings, .ok files⟩) :
    ∃ visited, Relation.ReflTransGen (Advance settings) loader ⟨[], visited, files⟩ := by
  fun_induction run settings steps noted loader with
  | case1 steps noted loader done =>
      rcases loader with ⟨queue, visited, loaded⟩
      cases done
      cases Except.ok.inj (congrArg Outcome.result (Option.some.inj ran))
      exact ⟨visited, .refl⟩
  | case2 => cases ran
  | case3 => cases congrArg Outcome.result (Option.some.inj ran)
  | case4 noted loader request queue steps waiting outcome notedNext next stepped induction =>
      rcases loader with ⟨_, visited, loaded⟩
      cases waiting
      rcases step_cases settings request queue visited loaded with
        ⟨other, otherStepped, advance⟩ | ⟨failure, failed, _⟩
      · cases stepped.symm.trans otherStepped
        rcases induction ran with ⟨places, later⟩
        exact ⟨places, later.head advance⟩
      · cases stepped.symm.trans failed

end Loader

end CommandReference
