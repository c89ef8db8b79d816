import CommandReference.CommandLine.Invocation
import CommandReference.Proofs.Results

namespace CommandReference.CommandLine

/-! What is known about the value of an option that has been read: the option is one of
its level, and takes that value. -/

variable {level : Level} {given next : Given} {name value : String}

/-- Every option that has been given is one of the level, with a value of its kind. -/
def Level.Takes (level : Level) (given : Given) : Prop :=
  ∀ option ∈ given.options, ∃ rule ∈ level.options, rule.name = option.1 ∧
    (rule.kind = .none ∨ rule.kind.accepts option.2 = true)

theorem Level.takes_empty (level : Level) : level.Takes .empty := List.forall_mem_nil _

namespace Level.Takes

theorem addOption (takes : level.Takes given) {rule : OptionRule}
    (found : level.options.find? (·.name = name) = some rule)
    (fits : rule.kind = .none ∨ rule.kind.accepts value = true)
    (added : given.addOption name value = .ok next) : level.Takes next := by
  rw [Given.addOption] at added
  split at added
  · cases added
  · cases added
    have named : rule.name = name := by simpa using List.find?_some found
    exact List.forall_mem_cons.mpr
      ⟨⟨rule, List.mem_of_find?_eq_some found, named, fits⟩, takes⟩

theorem addOperand (takes : level.Takes given)
    (added : given.addOperand level value = .ok next) : level.Takes next := by
  rw [Given.addOperand] at added
  split at added
  · cases added
  split at added
  · cases added
    exact takes
  · cases added

theorem addOperands (takes : level.Takes given) {words : List String}
    (added : words.foldlM (Given.addOperand level) given = .ok next) : level.Takes next := by
  induction words generalizing given with
  | nil =>
      cases added
      exact takes
  | cons word words induction =>
      rw [List.foldlM_cons] at added
      cases first : given.addOperand level word with
      | error halt =>
          rw [first] at added
          cases added
      | ok middle =>
          rw [first] at added
          exact induction (takes.addOperand first) added

end Level.Takes

theorem readLevel_takes {words rest : List String} (takes : level.Takes given)
    (read : readLevel level given words = .ok (next, rest)) : level.Takes next := by
  fun_induction readLevel level given words with
  | case1 =>
      cases read
      exact takes
  | case2 given text words isEnd =>
      obtain ⟨last, added, ended⟩ := of_bind_eq_ok read
      cases ended
      exact takes.addOperands added
  | case4 =>
      cases read
      exact takes
  | case5 given text words operand isOperand notProgram induction =>
      obtain ⟨middle, added, later⟩ := of_bind_eq_ok read
      exact induction middle (takes.addOperand added) later
  | case7 given text name _ words found isLong induction =>
      obtain ⟨middle, added, later⟩ := of_bind_eq_ok read
      exact induction middle (takes.addOption found (.inl rfl) added) later
  | case9 given text name _ kind value words _ found accepted isLong induction =>
      obtain ⟨middle, added, later⟩ := of_bind_eq_ok read
      exact induction middle (takes.addOption found (.inr accepted) added) later
  | case12 given text name _ kind value words _ found accepted isLong induction =>
      obtain ⟨middle, added, later⟩ := of_bind_eq_ok read
      have accepted := (Bool.and_eq_true_iff.mp accepted).2
      exact induction middle (takes.addOption found (.inr accepted) added) later
  | case3 | case6 | case8 | case10 | case11 | case13 => cases read

theorem Given.mem_of_value? {key : String} (found : given.value? key = some value) :
    (key, value) ∈ given.options := by
  obtain ⟨before, after, split, _⟩ := List.lookup_eq_some_iff.mp found
  simp [split]

theorem Level.Takes.accepts {key : String} {kind : ValueKind} (takes : level.Takes given)
    (only : ∀ rule ∈ level.options, rule.name = key → rule.kind = kind) (isValue : kind ≠ .none)
    (found : given.value? key = some value) : kind.accepts value = true := by
  obtain ⟨rule, member, named, fits⟩ := takes _ (Given.mem_of_value? found)
  rw [only rule member named] at fits
  exact fits.resolve_left isValue

theorem subcommand?_eq_compile {out : Path} {shardSize? : Option Nat}
    (isCompile : subcommand? name given = some (.compile out shardSize?)) :
    name = "compile" ∧ ∃ text, given.value? "out" = some text ∧ Path.ofText text = out := by
  unfold subcommand? at isCompile
  split at isCompile
  case h_1 =>
    obtain ⟨text, found, compile⟩ := Option.map_eq_some_iff.mp isCompile
    injection compile with sameOut
    exact ⟨rfl, text, found, sameOut⟩
  all_goals cases isCompile

theorem cutSegments_ne_empty {current characters : List Char}
    (nonempty : current ≠ [] ∨ characters ≠ []) :
    Path.cutSegments current characters ≠ ("", []) := by
  induction characters generalizing current with
  | nil =>
      rw [Path.cutSegments]
      simpa using nonempty
  | cons character rest induction =>
      rw [Path.cutSegments]
      split
      · simp
      · exact induction (.inl (List.cons_ne_nil character current))

theorem ofText_ne_empty {text : String} (nonempty : text ≠ "") :
    Path.ofText text ≠ Path.empty := by
  have characters : text.toList ≠ [] := fun empty => nonempty (String.toList_eq_nil_iff.mp empty)
  have cut := cutSegments_ne_empty (.inr characters : ([] : List Char) ≠ [] ∨ text.toList ≠ [])
  intro empty
  injection empty with first rest
  exact cut (Prod.ext first rest)

theorem Invocation.out_ne_empty {words : List String} {invocation : Invocation} {out : Path}
    {shardSize? : Option Nat} (read : Invocation.ofWords words = .ok invocation)
    (isCompile : invocation.command = .compile out shardSize?) : out ≠ Path.empty := by
  obtain ⟨⟨given, rest⟩, _, read⟩ := of_bind_eq_ok read
  cases rest with
  | nil => cases read
  | cons name rest =>
      dsimp only at read
      split at read
      case h_1 => cases read
      case h_2 level isLevel =>
        obtain ⟨⟨own, after⟩, ownRead, read⟩ := of_bind_eq_ok read
        dsimp only at read
        split at read
        case h_2 => cases read
        case h_1 command root isCommand _ =>
          cases read
          obtain rfl : command = .compile out shardSize? := isCompile
          obtain ⟨rfl, text, found, rfl⟩ := subcommand?_eq_compile isCommand
          cases isLevel
          have takes := readLevel_takes (Level.takes_empty _) ownRead
          have accepted : ValueKind.path.accepts text = true :=
            takes.accepts (by decide) (by decide) found
          apply ofText_ne_empty
          simpa [ValueKind.accepts] using accepted

end CommandReference.CommandLine
