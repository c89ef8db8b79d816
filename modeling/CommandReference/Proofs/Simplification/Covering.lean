import CommandReference.Simplification
import Mathlib.Data.List.Forall2
import Mathlib.Data.List.Infix

namespace CommandReference

/-! What the search for a cover decides. The table of reachable suffixes is the
same as a search from the front, the search only looks for ways to leave out
optional arguments, and settling the open positions keeps the cover that was
found. -/

/-! ## Leaving out and relaxing -/

/-- The second list remains of the first one when some of its optional arguments
are left out. -/
inductive Shortens : List Argument → List Argument → Prop where
  | nil : Shortens [] []
  | keep (argument : Argument) (rest : Shortens full short) :
      Shortens (argument :: full) (argument :: short)
  | drop {argument : Argument} (optional : argument.optional = true)
      (rest : Shortens full short) : Shortens (argument :: full) short

/-- The second argument is the first one, which may have become optional. -/
def Argument.RelaxesTo (argument relaxed : Argument) : Prop :=
  relaxed = argument ∨ relaxed = argument.withOptional true

structure Signature.RelaxesTo (signature relaxed : Signature) : Prop where
  arguments : List.Forall₂ Argument.RelaxesTo signature.arguments relaxed.arguments
  file : relaxed.file? = signature.file?

theorem forall₂_trans {related : α → α → Prop} {first second third : List α}
    (before : List.Forall₂ related first second)
    (after : List.Forall₂ related second third)
    (trans : ∀ {first second third},
      related first second → related second third → related first third) :
    List.Forall₂ related first third := by
  induction before generalizing third with
  | nil => exact after
  | cons head _ induction =>
      cases after with
      | cons next tail => exact .cons (trans head next) (induction tail)

theorem Argument.RelaxesTo.refl (argument : Argument) : argument.RelaxesTo argument :=
  .inl rfl

theorem Argument.RelaxesTo.trans {first second third : Argument}
    (before : first.RelaxesTo second) (after : second.RelaxesTo third) :
    first.RelaxesTo third := by
  rcases before with rfl | rfl
  · exact after
  · rcases after with rfl | rfl
    · exact .inr rfl
    · exact .inr rfl

theorem Signature.RelaxesTo.refl (signature : Signature) :
    signature.RelaxesTo signature where
  arguments := List.forall₂_same.mpr fun argument _ => Argument.RelaxesTo.refl argument
  file := rfl

theorem Signature.RelaxesTo.trans {first second third : Signature}
    (before : first.RelaxesTo second) (after : second.RelaxesTo third) :
    first.RelaxesTo third where
  arguments := forall₂_trans before.arguments after.arguments Argument.RelaxesTo.trans
  file := after.file.trans before.file

namespace Position

/-! ## Searching from the front -/

/-- Whether the positions can turn into the target: each one is left out or meets
the next argument. -/
def reaches : List Position → List Argument → Bool
  | [], target => target.isEmpty
  | position :: rest, [] => position.mayBeDropped && reaches rest []
  | position :: rest, argument :: target =>
      position.mayBeDropped && reaches rest (argument :: target) ||
        position.mayBe argument && reaches rest target

theorem extendReach_tails (position : Position) (rest : List Position)
    (target : List Argument) :
    position.extendReach target (target.tails.map (reaches rest)) =
      target.tails.map (reaches (position :: rest)) := by
  induction target with
  | nil => rfl
  | cons argument target induction =>
      cases target with
      | nil => rfl
      | cons next target =>
          simp only [List.tails, List.map_cons, extendReach] at induction ⊢
          rw [induction]
          rfl

theorem reach_eq_tails (target : List Argument) (positions : List Position) :
    reach target positions = target.tails.map (reaches positions) := by
  induction positions with
  | nil =>
      induction target with
      | nil => rfl
      | cons argument target induction =>
          simp only [reach, List.map_cons, List.cons_append, List.tails] at induction ⊢
          rw [induction]
          rfl
  | cons position rest induction =>
      rw [reach, induction, extendReach_tails]

theorem cover_eq_reaches (positions : List Position) (target : List Argument) :
    cover positions target = reaches positions target := by
  rw [cover, reach_eq_tails]
  cases target <;> rfl

/-! ## Deciding positions -/

def IsDecided (position : Position) : Prop := position.freedom ≠ .undecided

/-- What may become of a position while others are decided and once it is. -/
structure MayBecome (position later : Position) : Prop where
  argument : later.argument = position.argument
  unchanged : position.IsDecided → later = position

theorem MayBecome.refl (position : Position) : position.MayBecome position :=
  ⟨rfl, fun _ => rfl⟩

theorem MayBecome.trans {first second third : Position}
    (before : first.MayBecome second) (after : second.MayBecome third) :
    first.MayBecome third where
  argument := after.argument.trans before.argument
  unchanged decided := by
    have equal := before.unchanged decided
    subst equal
    exact after.unchanged decided

theorem mayBeDropped_of_decided {position : Position} (decided : position.IsDecided) :
    position.mayBeDropped = position.settled.optional := by
  rcases position with ⟨argument, freedom⟩
  cases freedom with
  | fixed => simp [mayBeDropped, forms, settled]
  | relaxed => simp [mayBeDropped, forms, settled]
  | undecided => exact absurd rfl decided

theorem mayBe_of_decided {position : Position} (decided : position.IsDecided)
    (argument : Argument) :
    position.mayBe argument = true ↔ argument = position.settled := by
  rcases position with ⟨own, freedom⟩
  cases freedom with
  | fixed => simp [mayBe, forms, settled]
  | relaxed => simp [mayBe, forms, settled]
  | undecided => exact absurd rfl decided

theorem reaches_iff_shortens {positions : List Position}
    (decided : ∀ position ∈ positions, position.IsDecided) (target : List Argument) :
    reaches positions target = true ↔ Shortens (positions.map settled) target := by
  induction positions generalizing target with
  | nil =>
      constructor
      · intro reached
        rw [List.isEmpty_iff.mp reached]
        exact .nil
      · intro short
        cases short
        rfl
  | cons position rest induction =>
      have here : position.IsDecided := decided position List.mem_cons_self
      have below := induction fun later member =>
        decided later (List.mem_cons_of_mem position member)
      constructor
      · intro reached
        cases target with
        | nil =>
            rw [reaches, Bool.and_eq_true, mayBeDropped_of_decided here] at reached
            exact .drop reached.1 ((below []).mp reached.2)
        | cons argument target =>
            rw [reaches, Bool.or_eq_true, Bool.and_eq_true, Bool.and_eq_true,
              mayBeDropped_of_decided here, mayBe_of_decided here] at reached
            rcases reached with ⟨optional, reached⟩ | ⟨equal, reached⟩
            · exact .drop optional ((below (argument :: target)).mp reached)
            · subst equal
              exact .keep _ ((below target).mp reached)
      · intro short
        cases short with
        | keep _ short =>
            rw [reaches, (mayBe_of_decided here _).mpr rfl, (below _).mpr short]
            exact Bool.or_true _
        | drop optional short =>
            have droppable := (mayBeDropped_of_decided here).trans optional
            cases target with
            | nil => rw [reaches, droppable, (below []).mpr short]; rfl
            | cons argument target =>
                rw [reaches, droppable, (below (argument :: target)).mpr short]
                rfl

/-- A cover that leaves a position open also exists for one of the two ways to
decide it. -/
theorem reaches_fixed_or_relaxed (before after : List Position) (argument : Argument)
    (target : List Argument)
    (reached : reaches (before ++ ⟨argument, .undecided⟩ :: after) target = true) :
    reaches (before ++ ⟨argument, .fixed⟩ :: after) target = true ∨
      reaches (before ++ ⟨argument, .relaxed⟩ :: after) target = true := by
  induction before generalizing target with
  | nil =>
      cases target with
      | nil =>
          simp only [List.nil_append, reaches, mayBeDropped, forms, List.any_cons,
            List.any_nil, Bool.or_false, Bool.and_eq_true, Bool.or_eq_true] at reached ⊢
          exact reached.1.imp (⟨·, reached.2⟩) (⟨·, reached.2⟩)
      | cons next target =>
          simp only [List.nil_append, reaches, mayBeDropped, mayBe, forms, List.any_cons,
            List.any_nil, List.contains_cons, List.contains_nil, Bool.or_false,
            Bool.and_eq_true, Bool.or_eq_true] at reached ⊢
          rcases reached with ⟨fixed | relaxed, reached⟩ | ⟨fixed | relaxed, reached⟩
          · exact .inl (.inl ⟨fixed, reached⟩)
          · exact .inr (.inl ⟨relaxed, reached⟩)
          · exact .inl (.inr ⟨fixed, reached⟩)
          · exact .inr (.inr ⟨relaxed, reached⟩)
  | cons position before induction =>
      cases target with
      | nil =>
          simp only [List.cons_append, reaches, Bool.and_eq_true] at reached ⊢
          exact (induction [] reached.2).imp (⟨reached.1, ·⟩) (⟨reached.1, ·⟩)
      | cons next target =>
          simp only [List.cons_append, reaches, Bool.and_eq_true, Bool.or_eq_true]
            at reached ⊢
          rcases reached with ⟨dropped, reached⟩ | ⟨met, reached⟩
          · exact (induction _ reached).imp (fun fixed => .inl ⟨dropped, fixed⟩)
              fun relaxed => .inl ⟨dropped, relaxed⟩
          · exact (induction _ reached).imp (fun fixed => .inr ⟨met, fixed⟩)
              fun relaxed => .inr ⟨met, relaxed⟩

/-- What settling makes of positions that reach a target. -/
structure SettlesTo (target : List Argument) (positions result : List Position) :
    Prop where
  reached : reaches result target = true
  decided : ∀ position ∈ result, position.IsDecided
  decisions : List.Forall₂ MayBecome positions result

theorem SettlesTo.of_decision {target : List Argument} {before after result : List Position}
    {position chosen : Position} (decision : position.MayBecome chosen)
    (settles : SettlesTo target (before ++ chosen :: after) result) :
    SettlesTo target (before ++ position :: after) result where
  reached := settles.reached
  decided := settles.decided
  decisions := by
    have step : List.Forall₂ MayBecome (before ++ position :: after)
        (before ++ chosen :: after) :=
      List.rel_append (List.forall₂_same.mpr fun other _ => MayBecome.refl other)
        (.cons decision (List.forall₂_same.mpr fun other _ => MayBecome.refl other))
    exact forall₂_trans step settles.decisions MayBecome.trans

theorem settle_settlesTo (target : List Argument) (reversed settled : List Position)
    (reached : reaches (reversed.reverse ++ settled) target = true)
    (decided : ∀ position ∈ settled, position.IsDecided) :
    SettlesTo target (reversed.reverse ++ settled) (settle target reversed settled) := by
  -- The invariant: the target is still reached, and all settled positions are decided.
  induction reversed generalizing settled with
  | nil => exact ⟨reached, decided, List.forall₂_same.mpr fun _ _ => MayBecome.refl _⟩
  | cons position reversed induction =>
      rw [List.reverse_cons, List.append_assoc, List.singleton_append] at reached ⊢
      have continues (chosen : Position) (decision : position.MayBecome chosen)
          (isDecided : chosen.IsDecided)
          (reached : reaches (reversed.reverse ++ chosen :: settled) target = true) :
          SettlesTo target (reversed.reverse ++ position :: settled)
            (settle target reversed (chosen :: settled)) :=
        .of_decision decision <| induction (chosen :: settled) reached
          (List.forall_mem_cons.mpr ⟨isDecided, decided⟩)
      rcases position with ⟨argument, freedom⟩
      cases freedom with
      | fixed => exact continues _ (.refl _) nofun reached
      | relaxed => exact continues _ (.refl _) nofun reached
      | undecided =>
          have opens (freedom : Freedom) :
              MayBecome ⟨argument, .undecided⟩ ⟨argument, freedom⟩ :=
            ⟨rfl, fun decided => absurd rfl decided⟩
          simp only [settle, cover_eq_reaches]
          split
          case isTrue kept => exact continues _ (opens .fixed) nofun kept
          case isFalse notKept =>
            have relaxed := (reaches_fixed_or_relaxed _ _ _ _ reached).resolve_left notKept
            exact continues _ (opens .relaxed) nofun relaxed

theorem relaxesTo_settled {argument : Argument} {position : Position}
    (decision : (ofArgument argument).MayBecome position) :
    argument.RelaxesTo position.settled := by
  rcases position with ⟨own, freedom⟩
  have same : own = argument := decision.argument
  subst same
  cases freedom with
  | fixed => exact .inl rfl
  | relaxed => exact .inr rfl
  | undecided => exact .inl rfl

end Position

namespace Signature

/-- A signature that covers another one has some more optional arguments than before,
and it turns into the other one when some of them are left out. -/
theorem generalize?_eq_some {signature other merged : Signature}
    (found : signature.generalize? other = some merged) :
    signature.RelaxesTo merged ∧ Shortens merged.arguments other.arguments := by
  simp only [generalize?, Position.cover_eq_reaches] at found
  split at found
  case isTrue => cases found
  case isFalse =>
    split at found
    case isFalse => cases found
    case isTrue reached =>
      cases found
      have settles := Position.settle_settlesTo other.arguments
        (signature.arguments.map Position.ofArgument).reverse [] (by simpa using reached)
        (by simp)
      rw [List.reverse_reverse, List.append_nil] at settles
      constructor
      · refine ⟨?_, rfl⟩
        rw [List.forall₂_map_right_iff]
        exact (List.forall₂_map_left_iff.mp settles.decisions).imp fun _ _ =>
          Position.relaxesTo_settled
      · exact (Position.reaches_iff_shortens settles.decided _).mp settles.reached

end Signature

end CommandReference
