import CommandReference.Compilation
import CommandReference.Proofs.Loading.Advance

namespace CommandReference

/-! Strict and tolerant compilation agree. Both do the same until a scope fails for the
first time: there the strict one stops, and the tolerant one notes the failure and goes
on. Only the common file is not in any scope, and both fail with it. -/

/-! ## Cutting an outcome short -/

def Warning.skippedFailure? : Warning → Option Failure
  | .skipped failure => some failure
  | .unnamedInclusion _ | .unnamedCommand _ => none

/-- The failures whose scopes were left out, in order. -/
def skippedFailures (warnings : List Warning) : List Failure :=
  warnings.filterMap Warning.skippedFailure?

theorem skippedFailures_append (first second : List Warning) :
    skippedFailures (first ++ second) = skippedFailures first ++ skippedFailures second :=
  List.filterMap_append

namespace Outcome

/-- The first outcome is the second one, which succeeds, or it stops with a failure in
the place where the second one skips a scope for the first time. -/
inductive CutsShort : (strict tolerant : Outcome α) → Prop
  | complete {warnings : List Warning} {value : α} (clean : skippedFailures warnings = []) :
      CutsShort ⟨warnings, .ok value⟩ ⟨warnings, .ok value⟩
  | stopped {before after : List Warning} {failure : Failure} {value : α}
      (clean : skippedFailures before = []) :
      CutsShort ⟨before, .error failure⟩ ⟨before ++ .skipped failure :: after, .ok value⟩

namespace CutsShort

theorem pure (value : α) : CutsShort (Pure.pure value) (Pure.pure value) := .complete rfl

theorem handle (failure : Failure) :
    CutsShort (Policy.strict.handle failure) (Policy.tolerant.handle failure) :=
  @stopped Unit [] [] failure () rfl

theorem succeeds {strict tolerant : Outcome α} (cuts : strict.CutsShort tolerant) :
    ∃ value, tolerant.result = .ok value := by
  cases cuts with
  | complete | stopped => exact ⟨_, rfl⟩

theorem clean_of_eq {strict tolerant : Outcome α} (cuts : strict.CutsShort tolerant)
    (same : strict = tolerant) : skippedFailures tolerant.warnings = [] := by
  cases cuts with
  | complete clean => exact clean
  | stopped => cases congrArg Outcome.result same

theorem result_eq_ok_iff {strict tolerant : Outcome α} (cuts : strict.CutsShort tolerant)
    {value : α} :
    strict.result = .ok value ↔
      tolerant.result = .ok value ∧ skippedFailures tolerant.warnings = [] := by
  cases cuts with
  | complete clean => exact (and_iff_left clean).symm
  | stopped =>
      refine iff_of_false nofun fun both => ?_
      rw [skippedFailures_append] at both
      exact List.append_ne_nil_of_right_ne_nil _ (List.cons_ne_nil _ _) both.2

/-- A strict outcome is the first failure that the tolerant one notes, if that is noted
before anything else. -/
theorem eq_of_warnings {strict tolerant : Outcome α} (cuts : strict.CutsShort tolerant)
    {failure : Failure} {rest : List Warning}
    (noted : tolerant.warnings = .skipped failure :: rest) : strict = ⟨[], .error failure⟩ := by
  cases cuts with
  | complete clean =>
      cases noted
      cases clean
  | @stopped before after other value clean =>
      cases before with
      | nil =>
          cases noted
          rfl
      | cons first before =>
          cases (List.cons.inj noted).1
          cases clean

theorem after {warnings : List Warning} (clean : skippedFailures warnings = [])
    {strict tolerant : Outcome α} (cuts : strict.CutsShort tolerant) :
    CutsShort ⟨warnings ++ strict.warnings, strict.result⟩
      ⟨warnings ++ tolerant.warnings, tolerant.result⟩ := by
  cases cuts with
  | complete laterClean =>
      refine .complete ?_
      rw [skippedFailures_append, clean, laterClean, List.append_nil]
  | stopped laterClean =>
      rw [← List.append_assoc]
      refine .stopped ?_
      rw [skippedFailures_append, clean, laterClean, List.append_nil]

theorem bind {strict tolerant : Outcome α} {strictNext tolerantNext : α → Outcome β}
    (cuts : strict.CutsShort tolerant)
    (next : ∀ value, (strictNext value).CutsShort (tolerantNext value)) :
    (strict >>= strictNext).CutsShort (tolerant >>= tolerantNext) := by
  cases cuts with
  | complete clean =>
      rw [bind_ok rfl, bind_ok rfl]
      exact (next _).after clean
  | @stopped before _ failure value clean =>
      rcases (next value).succeeds with ⟨_, result⟩
      rw [bind_error rfl, bind_ok rfl, result, List.append_assoc]
      exact .stopped clean

theorem foldlM {strictStep tolerantStep : β → α → Outcome β}
    (step : ∀ state item, (strictStep state item).CutsShort (tolerantStep state item))
    (items : List α) (state : β) :
    (items.foldlM strictStep state).CutsShort (items.foldlM tolerantStep state) := by
  induction items generalizing state with
  | nil => exact .pure state
  | cons item rest induction => exact (step state item).bind induction

theorem mapM {strict tolerant : α → Outcome β}
    (each : ∀ item, (strict item).CutsShort (tolerant item)) (items : List α) :
    (items.mapM strict).CutsShort (items.mapM tolerant) := by
  have looped (done : List β) :
      (List.mapM.loop strict items done).CutsShort (List.mapM.loop tolerant items done) := by
    induction items generalizing done with
    | nil => exact .pure done.reverse
    | cons item rest induction => exact (each item).bind fun value => induction (value :: done)
  exact looped []

end CutsShort

end Outcome

open Outcome (CutsShort)

/-! ## Loading -/

namespace Loader

theorem inclusion_cutsShort (path : Path) (element : Markup.Element) :
    (inclusion path element).CutsShort (inclusion path element) := by
  rw [inclusion]
  split
  · exact .complete rfl
  · exact .pure _

theorem accept_cutsShort (loader : Loader) (path : Path) (file : InterfaceFile) :
    (loader.accept path file).CutsShort (loader.accept path file) :=
  (CutsShort.mapM (inclusion_cutsShort path) _).bind fun _ => .pure _

section
variable (source : Source) (search : List Path)

theorem visit_cutsShort (loader : Loader) (path : Path) :
    (loader.visit ⟨source, search, .strict⟩ path).CutsShort
      (loader.visit ⟨source, search, .tolerant⟩ path) := by
  simp only [visit]
  split
  · exact .pure loader
  · cases InterfaceFile.read source path with
    | ok file => exact accept_cutsShort _ path file
    | error failure => exact (CutsShort.handle failure).bind fun _ => .pure _

theorem step_cutsShort (loader : Loader) (request : Request) :
    (step ⟨source, search, .strict⟩ loader request).CutsShort
      (step ⟨source, search, .tolerant⟩ loader request) := by
  cases request with
  | listed path => exact visit_cutsShort source search loader path
  | named name referrer? =>
      simp only [step]
      cases locate source search referrer? name with
      | ok path => exact visit_cutsShort source search loader path
      | error failure => exact (CutsShort.handle failure).bind fun _ => .pure loader

variable {source search}

theorem run_tolerant {steps : Nat} {noted : List Warning} {loader : Loader}
    {outcome : Outcome (List InterfaceFile)}
    (ran : run ⟨source, search, .tolerant⟩ steps noted loader = some outcome) :
    ∃ more files, outcome = ⟨noted ++ more, .ok files⟩ := by
  fun_induction run ⟨source, search, .tolerant⟩ steps noted loader with
  | case1 steps noted loader done =>
      cases ran
      exact ⟨[], loader.files, by rw [List.append_nil]⟩
  | case2 => cases ran
  | case3 noted loader request queue steps waiting stepped notedNext failure failed =>
      rcases (step_cutsShort source search { loader with queue } request).succeeds with
        ⟨next, succeeded⟩
      cases failed.symm.trans succeeded
  | case4 noted loader request queue steps waiting stepped notedNext next succeeded induction =>
      rcases induction ran with ⟨more, loaded, rfl⟩
      exact ⟨_, loaded, by rw [List.append_assoc]⟩

theorem run_cutsShort {steps : Nat} {noted : List Warning}
    (clean : skippedFailures noted = []) {loader : Loader}
    {tolerant : Outcome (List InterfaceFile)}
    (ran : run ⟨source, search, .tolerant⟩ steps noted loader = some tolerant) :
    ∃ strict, run ⟨source, search, .strict⟩ steps noted loader = some strict ∧
      strict.CutsShort tolerant := by
  fun_induction run ⟨source, search, .tolerant⟩ steps noted loader with
  | case1 steps noted loader done =>
      cases ran
      exact ⟨_, run_of_done done, .complete clean⟩
  | case2 => cases ran
  | case3 noted loader request queue steps waiting stepped notedNext failure failed =>
      rcases (step_cutsShort source search { loader with queue } request).succeeds with
        ⟨next, succeeded⟩
      cases failed.symm.trans succeeded
  | case4 noted loader request queue steps waiting stepped notedNext next succeeded induction =>
      have cuts : (step ⟨source, search, .strict⟩ { loader with queue } request).CutsShort
          stepped := step_cutsShort source search { loader with queue } request
      clear_value stepped
      rw [run_of_waiting waiting]
      generalize step ⟨source, search, .strict⟩ { loader with queue } request =
        strictStep at cuts
      cases cuts with
      | complete stepClean =>
          cases succeeded
          refine induction ?_ ran
          rw [skippedFailures_append, clean, stepClean, List.append_nil]
      | @stopped before _ failure _ stepClean =>
          -- The tolerant run goes on, and what it notes later does not matter.
          rcases run_tolerant ran with ⟨more, loaded, rfl⟩
          refine ⟨_, rfl, ?_⟩
          simp only [notedNext]
          rw [← List.append_assoc, List.append_assoc, List.cons_append]
          refine .stopped ?_
          rw [skippedFailures_append, clean, stepClean, List.append_nil]

end

theorem run_add {settings : LoaderSettings} {steps : Nat} {noted : List Warning}
    {loader : Loader} {outcome : Outcome (List InterfaceFile)}
    (ran : run settings steps noted loader = some outcome) (extra : Nat) :
    run settings (steps + extra) noted loader = some outcome := by
  fun_induction run settings steps noted loader with
  | case1 steps noted loader done => exact (run_of_done done).trans ran
  | case2 => cases ran
  | case3 noted loader request queue steps waiting stepped notedNext failure failed =>
      simp only [stepped] at failed
      rw [Nat.succ_add, run_of_waiting waiting]
      simp only [failed]
      exact ran
  | case4 noted loader request queue steps waiting stepped notedNext next succeeded induction =>
      simp only [stepped] at succeeded
      rw [Nat.succ_add, run_of_waiting waiting]
      simp only [succeeded]
      exact induction ran

end Loader

/-! ## Definitions and commands -/

theorem DefinitionTable.ofFiles_cutsShort (files : List InterfaceFile) :
    (DefinitionTable.ofFiles .strict files).CutsShort
      (DefinitionTable.ofFiles .tolerant files) := by
  refine CutsShort.foldlM (fun table declaration => ?_) _ _
  cases declaredItems (.table (ofDeferred files)) declaration with
  | ok items => exact .pure _
  | error failure => exact (CutsShort.handle failure).bind fun _ => .pure table

namespace Entry

theorem record_cutsShort (file : String) (entries : SortedMap String Entry)
    (command : String × Signature) :
    (record file entries command).CutsShort (record file entries command) := by
  rw [record]
  split
  · exact .complete rfl
  · exact .pure _

theorem ofFiles_cutsShort (definitions : DefinitionTable) (files : List InterfaceFile) :
    (Entry.ofFiles .strict definitions files).CutsShort
      (Entry.ofFiles .tolerant definitions files) := by
  refine CutsShort.foldlM (fun entries located => ?_) _ _
  rcases located with ⟨file, element⟩
  dsimp only
  cases expandElement definitions file element with
  | ok commands => exact .foldlM (record_cutsShort file) commands entries
  | error failure => exact (CutsShort.handle failure).bind fun _ => .pure entries

end Entry

namespace Configuration

def withPolicy (configuration : Configuration) (policy : Policy) : Configuration :=
  { configuration with policy }

theorem ofFiles_cutsShort (configuration : Configuration) (files : List InterfaceFile) :
    (Database.ofFiles (configuration.withPolicy .strict) files).CutsShort
      (Database.ofFiles (configuration.withPolicy .tolerant) files) := by
  refine (DefinitionTable.ofFiles_cutsShort files).bind fun definitions => ?_
  exact (Entry.ofFiles_cutsShort definitions files).bind fun _ => .pure _

/-! ## Compiling a corpus -/

/-- What compilation returns when it is given enough steps. -/
def CompilesTo (configuration : Configuration) (source : Source) (root : Path)
    (outcome : Outcome Database) : Prop :=
  ∃ steps, configuration.compile source root steps = some outcome

section
variable {configuration : Configuration} {source : Source} {root : Path}

theorem load_mono {steps more : Nat} (enough : steps ≤ more)
    {outcome : Outcome (List InterfaceFile)}
    (loaded : configuration.load source root steps = some outcome) :
    configuration.load source root more = some outcome := by
  rcases Nat.exists_eq_add_of_le enough with ⟨extra, rfl⟩
  simp only [load] at loaded ⊢
  split at loaded
  case h_1 failed => exact loaded
  case h_2 opened => exact Loader.run_add loaded extra

theorem CompilesTo.unique {first second : Outcome Database}
    (compiles : configuration.CompilesTo source root first)
    (compilesAgain : configuration.CompilesTo source root second) : first = second := by
  rcases compiles with ⟨steps, ran⟩
  rcases compilesAgain with ⟨otherSteps, ranAgain⟩
  rcases Option.map_eq_some_iff.mp ran with ⟨loaded, load, rfl⟩
  rcases Option.map_eq_some_iff.mp ranAgain with ⟨otherLoaded, otherLoad, rfl⟩
  have same := (load_mono (Nat.le_max_left steps otherSteps) load).symm.trans
    (load_mono (Nat.le_max_right steps otherSteps) otherLoad)
  rw [Option.some.inj same]

theorem firstLoader_cases (configuration : Configuration) (source : Source) (root : Path) :
    (∃ failure, configuration.firstLoader source root = ⟨[], .error failure⟩) ∨
      (configuration.firstLoader source root).CutsShort
        (configuration.firstLoader source root) := by
  rw [firstLoader]
  cases locate source (configuration.search root) none configuration.commonFile with
  | error failure => exact .inl ⟨failure, rfl⟩
  | ok path =>
      rw [Outcome.bind_ok rfl]
      cases InterfaceFile.read source path with
      | error failure => exact .inl ⟨failure, rfl⟩
      | ok file => exact .inr ((Loader.accept_cutsShort _ path file).bind fun _ => .pure _)

theorem compile_cutsShort {steps : Nat} {tolerant : Outcome Database}
    (ran : (configuration.withPolicy .tolerant).compile source root steps = some tolerant) :
    ∃ strict, (configuration.withPolicy .strict).compile source root steps = some strict ∧
      ((∃ failure, (configuration.firstLoader source root).result = .error failure ∧
          strict = ⟨[], .error failure⟩ ∧ tolerant = ⟨[], .error failure⟩) ∨
        strict.CutsShort tolerant) := by
  have first (policy : Policy) : (configuration.withPolicy policy).firstLoader source root =
      configuration.firstLoader source root := rfl
  rcases Option.map_eq_some_iff.mp ran with ⟨tolerantFiles, loaded, rfl⟩
  simp only [compile]
  simp only [load, first] at loaded ⊢
  rcases configuration.firstLoader_cases source root with ⟨failure, failed⟩ | opens
  · rw [failed] at loaded ⊢
    cases loaded
    exact ⟨_, rfl, .inl ⟨failure, rfl, rfl, rfl⟩⟩
  · rcases opens.succeeds with ⟨loader, opened⟩
    simp only [opened] at loaded ⊢
    rcases Loader.run_cutsShort (opens.clean_of_eq rfl) loaded with
      ⟨strictFiles, strictLoaded, cuts⟩
    refine ⟨_, Option.map_eq_some_iff.mpr ⟨strictFiles, strictLoaded, rfl⟩, .inr ?_⟩
    exact cuts.bind configuration.ofFiles_cutsShort

/-- Wherever a tolerant compilation returns, so does the strict one. It succeeds with the
same database if the tolerant one skips nothing, and otherwise fails with what the
tolerant one skips first; only a failure of the common file is that of both. -/
theorem compile_policies_agree (configuration : Configuration) (source : Source)
    (root : Path) {tolerated : Outcome Database}
    (returned : (configuration.withPolicy .tolerant).CompilesTo source root tolerated) :
    (∃ strict, (configuration.withPolicy .strict).CompilesTo source root strict) ∧
      ∀ strict, (configuration.withPolicy .strict).CompilesTo source root strict →
        (∀ database, strict.result = .ok database →
          tolerated.result = .ok database ∧ skippedFailures tolerated.warnings = []) ∧
        (∀ failure, strict.result = .error failure →
          (configuration.firstLoader source root).result = .error failure ∧
              tolerated.result = .error failure ∧
              skippedFailures tolerated.warnings = [] ∨
            (skippedFailures tolerated.warnings).head? = some failure) ∧
        (∀ database, tolerated.result = .ok database →
          skippedFailures tolerated.warnings = [] → strict.result = .ok database) := by
  rcases returned with ⟨steps, ran⟩
  rcases compile_cutsShort ran with ⟨strict, strictRan, agrees⟩
  refine ⟨⟨strict, steps, strictRan⟩, fun other compiles => ?_⟩
  rw [compiles.unique ⟨steps, strictRan⟩]
  rcases agrees with ⟨failure, failed, rfl, rfl⟩ | cuts
  · refine ⟨nofun, fun other same => ?_, nofun⟩
    cases same
    exact .inl ⟨failed, rfl, rfl⟩
  · cases cuts with
    | complete clean =>
        exact ⟨fun database same => ⟨same, clean⟩, nofun, fun database same _ => same⟩
    | @stopped before after failure value clean =>
        have skipped : skippedFailures (before ++ .skipped failure :: after) =
            failure :: skippedFailures after := by
          rw [skippedFailures_append, clean]
          rfl
        refine ⟨nofun, fun other same => ?_, fun database _ none => ?_⟩
        · cases same
          exact .inr (congrArg List.head? skipped)
        · cases skipped.symm.trans none

end

private def faultyCorpus : MemorySource := .ofFiles
  [(.ofText "/c/i-common-definitions.xml", Utf8.encode "<i><command/></i>"),
    (.ofText "/c/i-context.xml",
      Utf8.encode "<i><define name=\"a\"><resolve name=\"b\"/></define></i>")]

/-- All definitions are read before the first command, so the fault in the second file
is the one that counts. -/
theorem compile_policies_agree_definition_first :
    ∃ tolerated, (default.withPolicy .tolerant).CompilesTo faultyCorpus.toSource
        (.ofText "/c") tolerated ∧
      skippedFailures tolerated.warnings =
        [.unresolved "i-context.xml" "a" "b",
          .unsupported "i-common-definitions.xml" "" "name" ""] ∧
      ∃ strict, (default.withPolicy .strict).CompilesTo faultyCorpus.toSource
          (.ofText "/c") strict ∧
        strict.result = .error (.unresolved "i-context.xml" "a" "b") := by
  have ran : ((default.withPolicy .tolerant).compile faultyCorpus.toSource (.ofText "/c")
      1).map (skippedFailures ·.warnings) =
        some [.unresolved "i-context.xml" "a" "b",
          .unsupported "i-common-definitions.xml" "" "name" ""] := by decide +kernel
  rcases Option.map_eq_some_iff.mp ran with ⟨tolerated, compiled, skipped⟩
  have agree := compile_policies_agree default faultyCorpus.toSource (.ofText "/c")
    ⟨1, compiled⟩
  rcases agree.1 with ⟨strict, compiles⟩
  rcases agree.2 strict compiles with ⟨succeeds, fails, _⟩
  refine ⟨tolerated, ⟨1, compiled⟩, skipped, strict, compiles, ?_⟩
  cases result : strict.result with
  | ok database => cases skipped.symm.trans (succeeds database result).2
  | error failure =>
      rcases fails failure result with ⟨_, _, none⟩ | first
      · cases skipped.symm.trans none
      · rw [skipped] at first
        cases first
        rfl

end Configuration

end CommandReference
