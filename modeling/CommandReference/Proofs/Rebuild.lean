import CommandReference.Proofs.SortedMap
import CommandReference.Rebuild
import Mathlib.Data.List.Nodup
import Mathlib.Logic.Function.Basic

namespace CommandReference

/-! One rebuild of a root at a time, and no root that stays reserved without one. Which
reservations are alive is read off the answers alone, by whoever keeps the slots. The
registry gives up a root and not a reservation, so all depends on there never being two
reservations of one root. -/

/-! ## Steps and what they leave alive -/

inductive RebuildStep where
  | begin (slot : String) (root : Path)
  | drop (slot : String)

def RebuildStep.slot : RebuildStep → String
  | .begin slot _ | .drop slot => slot

/-- The roots whose reservations are alive, by the slots that hold them. -/
abbrev Guards := String → Option (List String)

def Guards.after (guards : Guards) : RebuildStep → (answer : Bool) → Guards
  | .begin slot root, true => Function.update guards slot (some root.components)
  | .begin _ _, false => guards
  | .drop slot, _ => Function.update guards slot none

theorem Guards.after_of_ne (guards : Guards) {step : RebuildStep} (answer : Bool)
    {slot : String} (different : slot ≠ step.slot) :
    guards.after step answer slot = guards slot := by
  cases step with
  | drop own => exact Function.update_of_ne different none guards
  | begin own root =>
      cases answer with
      | false => rfl
      | true => exact Function.update_of_ne different _ guards

/-- The given roots, as a set, are those of the reservations that are alive, and no two
of these have the same root. -/
structure Guards.Hold (guards : Guards) (roots : List (List String)) : Prop where
  nodup : roots.Nodup
  mem_iff (root : List String) : root ∈ roots ↔ ∃ slot, guards slot = some root
  exclusive {first second : String} {root : List String} :
    guards first = some root → guards second = some root → first = second

namespace Guards.Hold

variable {guards : Guards} {roots : List (List String)} {slot : String} {root : List String}

/-- Giving up the root of one reservation leaves the others theirs, because none of
them has the same root. -/
theorem drop (hold : guards.Hold roots) (held : guards slot = some root) :
    Guards.Hold (Function.update guards slot none) (roots.erase root) where
  nodup := hold.nodup.erase root
  mem_iff other := by
    rw [hold.nodup.mem_erase_iff, hold.mem_iff]
    constructor
    · rintro ⟨different, elsewhere, holds⟩
      have apart : elsewhere ≠ slot := by
        rintro rfl
        exact different (Option.some.inj (holds.symm.trans held))
      exact ⟨elsewhere, (Function.update_of_ne apart none guards).trans holds⟩
    · rintro ⟨elsewhere, holds⟩
      have apart : elsewhere ≠ slot := by
        rintro rfl
        simp at holds
      rw [Function.update_of_ne apart] at holds
      refine ⟨?_, elsewhere, holds⟩
      rintro rfl
      exact apart (hold.exclusive holds held)
  exclusive {first second _} holdsFirst holdsSecond := by
    have apart {other : String} {root : List String}
        (holds : Function.update guards slot none other = some root) : other ≠ slot := by
      rintro rfl
      simp at holds
    rw [Function.update_of_ne (apart holdsFirst)] at holdsFirst
    rw [Function.update_of_ne (apart holdsSecond)] at holdsSecond
    exact hold.exclusive holdsFirst holdsSecond

theorem add (hold : guards.Hold roots) (free : guards slot = none) (fresh : root ∉ roots) :
    Guards.Hold (Function.update guards slot (some root)) (root :: roots) where
  nodup := List.nodup_cons.mpr ⟨fresh, hold.nodup⟩
  mem_iff other := by
    rw [List.mem_cons, hold.mem_iff]
    constructor
    · rintro (rfl | ⟨elsewhere, holds⟩)
      · exact ⟨slot, Function.update_self slot _ guards⟩
      · have apart : elsewhere ≠ slot := by
          rintro rfl
          simp [free] at holds
        exact ⟨elsewhere, (Function.update_of_ne apart _ guards).trans holds⟩
    · rintro ⟨elsewhere, holds⟩
      by_cases same : elsewhere = slot
      · subst same
        rw [Function.update_self] at holds
        exact .inl (Option.some.inj holds).symm
      · rw [Function.update_of_ne same] at holds
        exact .inr ⟨elsewhere, holds⟩
  exclusive {first second other} holdsFirst holdsSecond := by
    -- Only the new reservation can have a root that nobody had before.
    have taken {elsewhere : String}
        (holds : Function.update guards slot (some root) elsewhere = some other) :
        elsewhere = slot ∧ other = root ∨ guards elsewhere = some other := by
      by_cases same : elsewhere = slot
      · subst same
        rw [Function.update_self] at holds
        exact .inl ⟨rfl, (Option.some.inj holds).symm⟩
      · rw [Function.update_of_ne same] at holds
        exact .inr holds
    rcases taken holdsFirst with ⟨rfl, rfl⟩ | oldFirst
    · rcases taken holdsSecond with ⟨rfl, _⟩ | oldSecond
      · rfl
      · exact absurd ((hold.mem_iff _).mpr ⟨second, oldSecond⟩) fresh
    · rcases taken holdsSecond with ⟨rfl, rfl⟩ | oldSecond
      · exact absurd ((hold.mem_iff _).mpr ⟨first, oldFirst⟩) fresh
      · exact hold.exclusive oldFirst oldSecond

end Guards.Hold

/-! ## Runs -/

namespace RebuildRegistry

def perform (registry : RebuildRegistry) : RebuildStep → Bool × RebuildRegistry
  | .begin slot root => registry.begin? slot root
  | .drop slot => registry.release slot

def runFrom (registry : RebuildRegistry) (guards : Guards) :
    List RebuildStep → RebuildRegistry × Guards
  | [] => (registry, guards)
  | step :: steps =>
      (registry.perform step).2.runFrom (guards.after step (registry.perform step).1) steps

def run (steps : List RebuildStep) : RebuildRegistry × Guards :=
  empty.runFrom (fun _ => none) steps

/-- The registry knows the reservations that are alive, and nothing else. -/
structure Tracks (registry : RebuildRegistry) (guards : Guards) : Prop where
  slots (slot : String) : registry.slots.get? slot = guards slot
  hold : guards.Hold registry.inFlight

variable {registry : RebuildRegistry} {guards : Guards}

theorem tracks_empty : empty.Tracks fun _ => none where
  slots _ := rfl
  hold :=
    { nodup := List.nodup_nil
      mem_iff := by simp [empty]
      exclusive := nofun }

theorem get?_insert_eq_update (slots : SortedMap String (List String)) {guards : Guards}
    (same : ∀ slot, slots.get? slot = guards slot) (slot : String) (root : List String)
    (other : String) :
    (slots.insert slot root).get? other = Function.update guards slot (some root) other := by
  by_cases equal : other = slot
  · subst equal
    rw [SortedMap.get?_insert_self, Function.update_self]
  · rw [SortedMap.get?_insert_ne _ equal, Function.update_of_ne equal, same]

theorem Tracks.release (tracks : registry.Tracks guards) (slot : String) :
    (registry.release slot).2.Tracks (guards.after (.drop slot) (registry.release slot).1) := by
  rw [RebuildRegistry.release, tracks.slots]
  cases held : guards slot with
  | none =>
      have unchanged : Function.update guards slot none = guards := by
        rw [← held, Function.update_eq_self]
      show registry.Tracks (Function.update guards slot none)
      exact unchanged.symm ▸ tracks
  | some root =>
      refine ⟨fun other => ?_, tracks.hold.drop held⟩
      rw [SortedMap.get?_filterKeys, tracks.slots, Guards.after]
      by_cases same : other = slot
      · simp [same]
      · simp [same, Function.update_of_ne]

theorem Tracks.begin? (tracks : registry.Tracks guards) (slot : String) (root : Path) :
    (registry.begin? slot root).2.Tracks
      (guards.after (.begin slot root) (registry.begin? slot root).1) := by
  rw [RebuildRegistry.begin?]
  split
  case isTrue => exact tracks
  case isFalse refused =>
    have fresh : root.components ∉ registry.inFlight := by simpa using refused
    refine ⟨get?_insert_eq_update _ tracks.slots slot root.components, ?_⟩
    rw [tracks.slots]
    cases held : guards slot with
    | none => exact tracks.hold.add held fresh
    | some replaced =>
        -- The root that is given up is another one, as it was still reserved.
        have different : root.components ≠ replaced := by
          rintro rfl
          exact fresh ((tracks.hold.mem_iff _).mpr ⟨slot, held⟩)
        have kept : (root.components :: registry.inFlight).erase replaced =
            root.components :: registry.inFlight.erase replaced :=
          List.erase_cons_tail (by simpa using different)
        have dropped := tracks.hold.drop held
        have still : root.components ∉ registry.inFlight.erase replaced := fun member =>
          fresh (List.mem_of_mem_erase member)
        have added := dropped.add (Function.update_self slot none guards) still
        rw [Function.update_idem] at added
        show Guards.Hold _ ((root.components :: registry.inFlight).erase replaced)
        exact kept.symm ▸ added

theorem Tracks.perform (tracks : registry.Tracks guards) (step : RebuildStep) :
    (registry.perform step).2.Tracks (guards.after step (registry.perform step).1) := by
  cases step with
  | begin slot root => exact tracks.begin? slot root
  | drop slot => exact tracks.release slot

theorem Tracks.runFrom (tracks : registry.Tracks guards) (steps : List RebuildStep) :
    (registry.runFrom guards steps).1.Tracks (registry.runFrom guards steps).2 := by
  induction steps generalizing registry guards with
  | nil => exact tracks
  | cons step steps induction => exact induction (tracks.perform step)

theorem Tracks.begin?_iff (tracks : registry.Tracks guards) (slot : String) (root : Path) :
    (registry.begin? slot root).1 = true ↔ ∀ other, guards other ≠ some root.components := by
  rw [RebuildRegistry.begin?, ← not_exists, ← tracks.hold.mem_iff]
  split <;> simp_all

theorem Tracks.release_iff (tracks : registry.Tracks guards) (slot : String) :
    (registry.release slot).1 = true ↔ guards slot ≠ none := by
  rw [RebuildRegistry.release, tracks.slots]
  cases guards slot <;> simp

/-- After any steps the roots in flight are exactly those of the reservations that are
alive, no two of which have the same root. A root can be reserved if and only if no
reservation of it is alive, and no step takes its root from a reservation in another
slot than its own. -/
theorem run_reserves_live_roots (steps : List RebuildStep) :
    (run steps).1.inFlight.Nodup ∧
      (∀ root, root ∈ (run steps).1.inFlight ↔ ∃ slot, (run steps).2 slot = some root) ∧
      (∀ first second root, (run steps).2 first = some root →
        (run steps).2 second = some root → first = second) ∧
      (∀ slot root, ((run steps).1.begin? slot root).1 = true ↔
        ∀ other, (run steps).2 other ≠ some root.components) ∧
      (∀ slot, ((run steps).1.release slot).1 = true ↔ (run steps).2 slot ≠ none) ∧
      ∀ step slot root, slot ≠ step.slot → (run steps).2 slot = some root →
        root ∈ ((run steps).1.perform step).2.inFlight := by
  have tracks : (run steps).1.Tracks (run steps).2 := tracks_empty.runFrom steps
  refine ⟨tracks.hold.nodup, tracks.hold.mem_iff, fun _ _ _ => tracks.hold.exclusive,
    tracks.begin?_iff, tracks.release_iff, ?_⟩
  intro step slot root different held
  have later := (tracks.perform step).hold
  exact (later.mem_iff root).mpr ⟨slot, (Guards.after_of_ne _ _ different).trans held⟩

private def replacing : List RebuildStep :=
  [.begin "a" (.ofText "/x"), .begin "b" (.ofText "/y/"), .begin "a" (.ofText "/z")]

/-- The reservation of `/x` has been replaced. Another spelling of `/y` is refused, and
giving up `/z` leaves `/y` reserved. -/
theorem run_reserves_live_roots_replaced :
    (run replacing).2 "b" = some ["", "y"] ∧ "b" ≠ (RebuildStep.drop "a").slot ∧
      ["", "x"] ∉ (run replacing).1.inFlight ∧
      ((run replacing).1.begin? "c" (.ofText "//y/.")).1 ≠ true ∧
      ["", "y"] ∈ ((run replacing).1.perform (.drop "a")).2.inFlight ∧
      ∀ other, (run replacing).2 other = some ["", "y"] → other = "b" := by
  obtain ⟨_, roots, exclusive, begins, _, keeps⟩ := run_reserves_live_roots replacing
  have held : (run replacing).2 "b" = some ["", "y"] := by decide
  have different : "b" ≠ (RebuildStep.drop "a").slot := by decide
  refine ⟨held, different, by decide, ?_, keeps (.drop "a") "b" _ different held, ?_⟩
  · intro granted
    exact (begins "c" (.ofText "//y/.")).mp granted "b" held
  · intro other alike
    exact exclusive other "b" _ alike held

end RebuildRegistry

end CommandReference
