import CommandReference.Proofs.Simplification.Covering
import Mathlib.Algebra.Group.Nat.Defs

namespace CommandReference

/-! The search for a cover finds the least one. Which mandatory arguments become
optional is a number, in which every mandatory argument has a bit and the first one
the lowest. Trying all numbers in order gives the same as settling the positions one
by one from the last to the first, because the last position decides more about the
number than all positions before it. -/

/-! ## Trying everything -/

def remainders : List Argument → List (List Argument)
  | [] => [[]]
  | argument :: rest =>
      (remainders rest).map (argument :: ·) ++
        if argument.optional then remainders rest else []

def mandatoryCount (arguments : List Argument) : Nat :=
  arguments.countP (!·.optional)

def relaxedBy (mask : Nat) : List Argument → List Argument
  | [] => []
  | argument :: rest =>
      if argument.optional then argument :: relaxedBy mask rest
      else argument.withOptional (mask.testBit 0) :: relaxedBy (mask / 2) rest

/-- All ways to make some of the mandatory arguments optional, in the order of their
numbers. -/
def relaxations (arguments : List Argument) : List (List Argument) :=
  (List.range (2 ^ mandatoryCount arguments)).map (relaxedBy · arguments)

def turnsInto (target relaxed : List Argument) : Bool :=
  (remainders relaxed).contains target

/-- The signature with some mandatory arguments made optional, by the first number for
which it turns into `other`. -/
def Signature.leastCover? (signature other : Signature) : Option Signature :=
  ((relaxations signature.arguments).find? (turnsInto other.arguments)).map
    (⟨·, signature.file?⟩)

theorem mem_remainders_iff {full short : List Argument} :
    short ∈ remainders full ↔ Shortens full short := by
  induction full generalizing short with
  | nil =>
      simp only [remainders, List.mem_singleton]
      constructor
      · rintro rfl
        exact .nil
      · intro shortens
        cases shortens
        rfl
  | cons argument full induction =>
      simp only [remainders, List.mem_append, List.mem_map, induction]
      constructor
      · rintro (⟨rest, shortens, rfl⟩ | dropped)
        · exact .keep argument shortens
        · split at dropped
          case isTrue optional => exact .drop optional (induction.mp dropped)
          case isFalse => cases dropped
      · intro shortens
        cases shortens with
        | keep _ shortens => exact .inl ⟨_, shortens, rfl⟩
        | drop optional shortens =>
            rw [if_pos optional]
            exact .inr (induction.mpr shortens)

theorem turnsInto_iff {target relaxed : List Argument} :
    turnsInto target relaxed = true ↔ Shortens relaxed target := by
  rw [turnsInto, List.contains_iff_mem, mem_remainders_iff]

/-! ## The bits of the last argument -/

theorem withOptional_of_mandatory {argument : Argument}
    (mandatory : ¬ argument.optional = true) : argument.withOptional false = argument := by
  rw [Argument.withOptional, ← Bool.eq_false_iff.mpr mandatory]

theorem mandatoryCount_cons_of_mandatory {argument : Argument} (rest : List Argument)
    (mandatory : ¬ argument.optional = true) :
    mandatoryCount (argument :: rest) = mandatoryCount rest + 1 := by
  simp [mandatoryCount, mandatory]

theorem mandatoryCount_cons_of_optional {argument : Argument} (rest : List Argument)
    (optional : argument.optional = true) :
    mandatoryCount (argument :: rest) = mandatoryCount rest := by
  simp [mandatoryCount, optional]

theorem relaxedBy_add (mask beyond : Nat) (arguments : List Argument) :
    relaxedBy (2 ^ mandatoryCount arguments * beyond + mask) arguments =
      relaxedBy mask arguments := by
  induction arguments generalizing mask with
  | nil => rfl
  | cons argument rest induction =>
      rw [relaxedBy, relaxedBy]
      split
      case isTrue optional =>
        rw [mandatoryCount_cons_of_optional rest optional, induction]
      case isFalse mandatory =>
        have doubled : 2 ^ mandatoryCount (argument :: rest) * beyond =
            2 * (2 ^ mandatoryCount rest * beyond) := by
          rw [mandatoryCount_cons_of_mandatory rest mandatory, Nat.pow_succ', Nat.mul_assoc]
        have lowest : (2 ^ mandatoryCount (argument :: rest) * beyond + mask).testBit 0 =
            mask.testBit 0 := by
          rw [doubled, Nat.testBit_zero, Nat.testBit_zero, Nat.mul_add_mod]
        have others : (2 ^ mandatoryCount (argument :: rest) * beyond + mask) / 2 =
            2 ^ mandatoryCount rest * beyond + mask / 2 := by
          rw [doubled, Nat.mul_add_div Nat.two_pos]
        rw [lowest, others, induction]

theorem relaxedBy_append (mask : Nat) (arguments rest : List Argument) :
    relaxedBy mask (arguments ++ rest) =
      relaxedBy mask arguments ++ relaxedBy (mask / 2 ^ mandatoryCount arguments) rest := by
  induction arguments generalizing mask with
  | nil => simp [relaxedBy, mandatoryCount]
  | cons argument arguments induction =>
      rw [List.cons_append, relaxedBy, relaxedBy]
      split
      case isTrue optional =>
        rw [mandatoryCount_cons_of_optional arguments optional, induction, List.cons_append]
      case isFalse mandatory =>
        rw [mandatoryCount_cons_of_mandatory arguments mandatory, induction,
          Nat.div_div_eq_div_mul, Nat.pow_succ', List.cons_append]

theorem relaxations_concat_of_optional (arguments : List Argument) {last : Argument}
    (optional : last.optional = true) :
    relaxations (arguments ++ [last]) = (relaxations arguments).map (· ++ [last]) := by
  have count : mandatoryCount (arguments ++ [last]) = mandatoryCount arguments := by
    simp [mandatoryCount, optional]
  simp [relaxations, count, relaxedBy_append, relaxedBy, optional]

/-- The bit of a mandatory argument at the end is the highest: the numbers without it
come first, and those with it follow in the same order. -/
theorem relaxations_concat_of_mandatory (arguments : List Argument) {last : Argument}
    (mandatory : ¬ last.optional = true) :
    relaxations (arguments ++ [last]) =
      (relaxations arguments).map (· ++ [last]) ++
        (relaxations arguments).map (· ++ [last.withOptional true]) := by
  have count : 2 ^ mandatoryCount (arguments ++ [last]) =
      2 ^ mandatoryCount arguments + 2 ^ mandatoryCount arguments := by
    simp [mandatoryCount, mandatory, Nat.pow_succ]
    omega
  rw [relaxations, count, List.range_add, List.map_append, List.map_map]
  congr 1
  · rw [relaxations, List.map_map]
    apply List.map_congr_left
    intro mask member
    have small : mask / 2 ^ mandatoryCount arguments = 0 :=
      Nat.div_eq_of_lt (List.mem_range.mp member)
    simp [relaxedBy_append, small, relaxedBy, mandatory, withOptional_of_mandatory mandatory]
  · rw [relaxations, List.map_map]
    apply List.map_congr_left
    intro mask member
    have highest : (2 ^ mandatoryCount arguments + mask) / 2 ^ mandatoryCount arguments = 1 := by
      rw [Nat.add_div_left _ (Nat.two_pow_pos _), Nat.div_eq_of_lt (List.mem_range.mp member)]
    have lower := relaxedBy_add mask 1 arguments
    rw [Nat.mul_one] at lower
    simp [relaxedBy_append, highest, lower, relaxedBy, mandatory]

/-! ## Settling finds the first one -/

namespace Position

variable {target : List Argument}

theorem length_le_of_reaches {positions : List Position}
    (reached : reaches positions target = true) : target.length ≤ positions.length := by
  fun_induction reaches positions target with
  | case1 target => simp_all
  | case2 => simp
  | case3 position rest argument target dropped met =>
      simp only [Bool.or_eq_true, Bool.and_eq_true] at reached
      rcases reached with ⟨_, reached⟩ | ⟨_, reached⟩
      · exact Nat.le_succ_of_le (dropped reached)
      · exact Nat.succ_le_succ (met reached)

theorem mayBeDropped_undecided {argument : Argument} {freedom : Freedom}
    (dropped : mayBeDropped ⟨argument, freedom⟩ = true) :
    mayBeDropped ⟨argument, .undecided⟩ = true := by
  cases freedom <;> simp_all [mayBeDropped, forms]

theorem mayBe_undecided {argument other : Argument} {freedom : Freedom}
    (met : mayBe ⟨argument, freedom⟩ other = true) :
    mayBe ⟨argument, .undecided⟩ other = true := by
  cases freedom <;> simp_all [mayBe, forms]

theorem reaches_undecided {before after : List Position} {argument : Argument}
    {freedom : Freedom}
    (reached : reaches (before ++ ⟨argument, freedom⟩ :: after) target = true) :
    reaches (before ++ ⟨argument, .undecided⟩ :: after) target = true := by
  induction before generalizing target with
  | nil =>
      cases target with
      | nil =>
          simp only [List.nil_append, reaches, Bool.and_eq_true] at reached ⊢
          exact reached.imp_left mayBeDropped_undecided
      | cons next target =>
          simp only [List.nil_append, reaches, Bool.or_eq_true, Bool.and_eq_true] at reached ⊢
          exact reached.imp (And.imp_left mayBeDropped_undecided) (And.imp_left mayBe_undecided)
  | cons position before induction =>
      cases target with
      | nil =>
          simp only [List.cons_append, reaches, Bool.and_eq_true] at reached ⊢
          exact reached.imp_right induction
      | cons next target =>
          simp only [List.cons_append, reaches, Bool.or_eq_true, Bool.and_eq_true] at reached ⊢
          exact reached.imp (And.imp_right induction) (And.imp_right induction)

theorem reaches_undecided_iff (before after : List Position) (argument : Argument) :
    reaches (before ++ ⟨argument, .undecided⟩ :: after) target = true ↔
      reaches (before ++ ⟨argument, .fixed⟩ :: after) target = true ∨
        reaches (before ++ ⟨argument, .relaxed⟩ :: after) target = true :=
  ⟨reaches_fixed_or_relaxed before after argument target,
    fun decided => decided.elim reaches_undecided reaches_undecided⟩

/-- The first way to relax arguments so that they and the positions settled after them
turn into the target is the one that settling finds. -/
theorem find?_relaxations (target : List Argument) (arguments : List Argument)
    (later : List Position) (decided : ∀ position ∈ later, position.IsDecided) :
    ((relaxations arguments).map (· ++ later.map settled)).find? (turnsInto target) =
      if reaches (arguments.map ofArgument ++ later) target then
        some ((settle target (arguments.map ofArgument).reverse later).map settled)
      else none := by
  induction arguments using List.reverseRecOn generalizing later with
  | nil =>
      have same : turnsInto target (later.map settled) = reaches later target := by
        rw [Bool.eq_iff_iff, turnsInto_iff, reaches_iff_shortens decided]
      simp [relaxations, mandatoryCount, relaxedBy, settle, same]
  | append_singleton arguments last induction =>
      have step (freedom : Freedom) (isDecided : Position.IsDecided ⟨last, freedom⟩) :=
        induction (⟨last, freedom⟩ :: later) (List.forall_mem_cons.mpr ⟨isDecided, decided⟩)
      rw [List.map_append, List.map_singleton, List.reverse_append, List.reverse_singleton,
        List.singleton_append, List.append_assoc, List.singleton_append]
      by_cases optional : last.optional = true
      · have position : ofArgument last = ⟨last, .fixed⟩ := by simp [ofArgument, optional]
        rw [relaxations_concat_of_optional arguments optional, position]
        simpa [settle, Function.comp_def, settled] using step .fixed (by simp [IsDecided])
      · have position : ofArgument last = ⟨last, .undecided⟩ := by simp [ofArgument, optional]
        have kept := step .fixed (by simp [IsDecided])
        have relaxed := step .relaxed (by simp [IsDecided])
        simp only [List.map_cons, settled] at kept relaxed
        rw [relaxations_concat_of_mandatory arguments optional, position]
        simp only [List.map_append, List.map_map, Function.comp_def, List.append_assoc,
          List.singleton_append, List.find?_append, kept, relaxed, settle, cover_eq_reaches,
          reaches_undecided_iff]
        -- The numbers without the last bit come first, so they are used up before the
        -- last argument is relaxed.
        by_cases kept : reaches (arguments.map ofArgument ++ ⟨last, .fixed⟩ :: later) target = true
        · simp [kept]
        · simp [kept]

end Position

namespace Signature

/-- Settling the positions from the last to the first finds what trying all numbers
in their order finds. -/
theorem generalize?_eq_leastCover? (signature other : Signature) :
    signature.generalize? other = signature.leastCover? other := by
  have first := Position.find?_relaxations other.arguments signature.arguments [] (by simp)
  simp only [List.map_nil, List.append_nil, List.map_id'] at first
  rw [generalize?, leastCover?, first, Position.cover_eq_reaches]
  split
  case isTrue longer =>
    have unreached : ¬ Position.reaches (signature.arguments.map Position.ofArgument)
        other.arguments = true := by
      intro reached
      have bound := Position.length_le_of_reaches reached
      rw [List.length_map] at bound
      omega
    rw [if_neg unreached, Option.map_none]
  case isFalse =>
    rw [apply_ite (Option.map _)]
    simp

private def word (text : String) (optional : Bool) : Argument :=
  (Argument.constant text).withOptional optional

/-- Both masks with one bit would do, and the lower one is taken. -/
example : (Signature.mk [word "A" false, word "A" false] none).leastCover?
    ⟨[word "A" false], none⟩ = some ⟨[word "A" true, word "A" false], none⟩ := by
  decide

end Signature

end CommandReference
