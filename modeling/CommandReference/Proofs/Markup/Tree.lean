import CommandReference.Markup.Document

namespace CommandReference.Markup

/-! Trees from their events. A list of events spells a list of elements if it is what their
tags are in document order; the stack of open elements puts such a list together again. What
is on the stack at any time says exactly what has been read, and a second root is the only
thing that it refuses as long as closing tags have something to close. -/

/-- The events spell the elements. One without children may have one tag or two. -/
inductive Spells : List Event → List Element → Prop where
  | nil : Spells [] []
  | empty (name : String) (pairs : List (String × String)) (rest : Spells later siblings) :
      Spells (.empty name pairs :: later) (⟨name, pairs, []⟩ :: siblings)
  | element (name : String) (pairs : List (String × String))
      (inside : Spells within children) (rest : Spells later siblings) :
      Spells (.start name pairs :: within ++ .stop :: later)
        (⟨name, pairs, children⟩ :: siblings)

variable {events : List Event} {elements : List Element}

theorem Builder.run_spelled (spells : Spells events elements) (parent : Element)
    (outer : List Element) (root? : Option Element) (rest : List Event) :
    run ⟨parent :: outer, root?⟩ (events ++ rest) =
      run ⟨{ parent with children := elements.reverse ++ parent.children } :: outer, root?⟩
        rest := by
  induction spells generalizing parent outer rest with
  | nil =>
      cases parent
      rfl
  | empty _ _ _ induction =>
      rw [List.cons_append, run, step, attach]
      dsimp only
      rw [induction]
      simp
  | element _ _ _ _ inside after =>
      rw [List.append_assoc, List.cons_append, run, step]
      dsimp only
      rw [inside, List.cons_append, run, step]
      dsimp only [attach]
      rw [after]
      simp

theorem Builder.run_root {root : Element} (spells : Spells events [root]) :
    run .empty events = .ok ⟨[], some root⟩ := by
  cases spells with
  | empty _ _ rest =>
      cases rest
      rfl
  | element _ _ inside rest =>
      cases rest
      rw [List.cons_append, run, step]
      dsimp only [empty]
      rw [run_spelled inside, run, step]
      simp [attach, run]

theorem Spells.append {later : List Event} {others : List Element}
    (spells : Spells events elements) (spellsLater : Spells later others) :
    Spells (events ++ later) (elements ++ others) := by
  induction spells with
  | nil => exact spellsLater
  | empty name pairs _ induction => exact .empty name pairs induction
  | element name pairs inside _ _ after =>
      rw [List.append_assoc, List.cons_append, List.cons_append]
      exact .element name pairs inside after

theorem Spells.eq_nil (spells : Spells events []) : events = [] := by
  cases spells
  rfl

/-! ## Open elements -/

/-- The events begin the elements, of which the first one is the innermost, and spell the
children that each one has so far. -/
inductive SpellsOpen : List Event → List Element → Prop where
  | nil : SpellsOpen [] []
  | cons {element : Element} (before : SpellsOpen earlier outer)
      (inside : Spells within element.children.reverse) :
      SpellsOpen (earlier ++ .start element.name element.attributes :: within)
        (element :: outer)

namespace Builder

variable {builder next : Builder} {read own : List Event} {element : Element}

/-- What has been read is the root, if it is finished, and what is open after it. -/
def Holds (builder : Builder) (read : List Event) : Prop :=
  ∃ finished pending, read = finished ++ pending ∧
    Spells finished builder.root?.toList ∧ SpellsOpen pending builder.opened

theorem empty_holds : empty.Holds [] := ⟨[], [], rfl, .nil, .nil⟩

theorem Holds.attach (holds : builder.Holds read) (spells : Spells own [element])
    (attached : builder.attach element = .ok next) : next.Holds (read ++ own) := by
  rcases builder with ⟨opened, root?⟩
  obtain ⟨finished, pending, rfl, isRoot, isOpen⟩ := holds
  cases isOpen with
  | nil =>
      cases root? with
      | none =>
          cases attached
          obtain rfl := Spells.eq_nil isRoot
          exact ⟨own, [], by simp, spells, .nil⟩
      | some root => cases attached
  | @cons earlier outer within parent before inside =>
      cases attached
      have extended : Spells (within ++ own) (element :: parent.children).reverse := by
        rw [List.reverse_cons]
        exact inside.append spells
      refine ⟨finished, _, ?_, isRoot, .cons before extended⟩
      simp

theorem Holds.attach_error (holds : builder.Holds read) {reason : DocumentError}
    (refused : builder.attach element = .error reason) :
    reason = .secondRoot element.name ∧ ∃ root, Spells read [root] := by
  rcases builder with ⟨opened, root?⟩
  obtain ⟨finished, pending, rfl, isRoot, isOpen⟩ := holds
  cases isOpen with
  | nil =>
      cases root? with
      | none => cases refused
      | some root =>
          cases refused
          exact ⟨rfl, root, (List.append_nil finished).symm ▸ isRoot⟩
  | cons => cases refused

theorem Holds.pop {outer : List Element} {root? : Option Element}
    (holds : Holds ⟨element :: outer, root?⟩ read) :
    ∃ before own, read = before ++ own ∧ Holds ⟨outer, root?⟩ before ∧
      Spells (own ++ [.stop]) [{ element with children := element.children.reverse }] := by
  obtain ⟨finished, pending, rfl, isRoot, isOpen⟩ := holds
  cases isOpen with
  | @cons earlier _ within _ before inside =>
      refine ⟨finished ++ earlier, _, (List.append_assoc _ _ _).symm,
        ⟨finished, earlier, rfl, isRoot, before⟩, ?_⟩
      exact .element _ _ inside .nil

theorem Holds.step {event : Event} (holds : builder.Holds read)
    (stepped : builder.step event = .ok next) : next.Holds (read ++ [event]) := by
  cases event with
  | start name pairs =>
      cases stepped
      obtain ⟨finished, pending, rfl, isRoot, isOpen⟩ := holds
      have noChildren : Spells [] (⟨name, pairs, []⟩ : Element).children.reverse := .nil
      exact ⟨finished, _, List.append_assoc _ _ _, isRoot, .cons isOpen noChildren⟩
  | empty name pairs => exact holds.attach (.empty name pairs .nil) stepped
  | stop =>
      rcases builder with ⟨opened, root?⟩
      cases opened with
      | nil => cases stepped
      | cons element outer =>
          obtain ⟨before, own, rfl, holdsBefore, spells⟩ := holds.pop
          rw [List.append_assoc]
          exact holdsBefore.attach spells stepped

theorem Holds.run {events : List Event} (holds : builder.Holds read)
    (ran : builder.run events = .ok next) : next.Holds (read ++ events) := by
  induction events generalizing builder read with
  | nil =>
      cases ran
      rwa [List.append_nil]
  | cons event events induction =>
      rw [Builder.run] at ran
      cases stepped : builder.step event with
      | error reason =>
          rw [stepped] at ran
          cases ran
      | ok middle =>
          rw [stepped] at ran
          rw [List.append_cons]
          exact induction (holds.step stepped) ran

theorem run_append (builder : Builder) (events rest : List Event) :
    builder.run (events ++ rest) = (builder.run events).bind fun next => next.run rest := by
  induction events generalizing builder with
  | nil => rfl
  | cons event events induction =>
      rw [List.cons_append, run, run]
      cases builder.step event with
      | error reason => rfl
      | ok middle => exact induction middle

theorem run_spellsOpen {pending : List Event} {opened : List Element}
    (isOpen : SpellsOpen pending opened) (root? : Option Element) :
    run ⟨[], root?⟩ pending = .ok ⟨opened, root?⟩ := by
  induction isOpen with
  | nil => rfl
  | @cons earlier outer within element _ inside induction =>
      have children := run_spelled inside ⟨element.name, element.attributes, []⟩ outer root? []
      rw [List.append_nil] at children
      rw [run_append, induction, Except.bind, run, step]
      dsimp only
      rw [children, run, List.reverse_reverse, List.append_nil]
      cases element
      rfl

/-- The stack holds exactly what has been read. -/
theorem run_eq_ok_iff {events : List Event} :
    run .empty events = .ok builder ↔ builder.Holds events := by
  constructor
  · exact empty_holds.run
  · rintro ⟨finished, pending, rfl, isRoot, isOpen⟩
    rcases builder with ⟨opened, root?⟩
    cases root? with
    | none =>
        obtain rfl := Spells.eq_nil isRoot
        exact run_spellsOpen isOpen none
    | some root =>
        rw [run_append, run_root isRoot]
        exact run_spellsOpen isOpen (some root)

end Builder

/-! ## Second roots -/

/-- The events spell one root, and a second one with the given name. -/
def HasSecondRoot (events : List Event) (name : String) : Prop :=
  ∃ first second rest root other, events = first ++ (second ++ rest) ∧
    Spells first [root] ∧ Spells second [other] ∧ other.name = name

namespace Builder

variable {builder next : Builder} {read own : List Event} {element : Element}

theorem Holds.hasSecondRoot (holds : builder.Holds read) (spells : Spells own [element])
    {reason : DocumentError} (refused : builder.attach element = .error reason)
    (rest : List Event) :
    reason = .secondRoot element.name ∧ HasSecondRoot (read ++ (own ++ rest)) element.name := by
  obtain ⟨rfl, root, isRoot⟩ := holds.attach_error refused
  exact ⟨rfl, read, own, rest, root, element, rfl, isRoot, spells, rfl⟩

theorem Holds.run_error {events : List Event} {reason : DocumentError}
    (holds : builder.Holds read) (failed : builder.run events = .error reason) :
    reason = .strayClosingTag ∨
      ∃ name, reason = .secondRoot name ∧ HasSecondRoot (read ++ events) name := by
  induction events generalizing builder read with
  | nil => cases failed
  | cons event events induction =>
      rw [Builder.run] at failed
      cases stepped : builder.step event with
      | ok middle =>
          rw [stepped] at failed
          rw [List.append_cons]
          exact induction (holds.step stepped) failed
      | error refusal =>
          rw [stepped] at failed
          obtain rfl : refusal = reason := Except.error.inj failed
          cases event with
          | start name pairs => cases stepped
          | empty name pairs =>
              exact .inr ⟨name, holds.hasSecondRoot (.empty name pairs .nil) stepped events⟩
          | stop =>
              rcases builder with ⟨opened, root?⟩
              cases opened with
              | nil =>
                  cases stepped
                  exact .inl rfl
              | cons element outer =>
                  obtain ⟨before, own, rfl, holdsBefore, spells⟩ := holds.pop
                  have second := holdsBefore.hasSecondRoot spells stepped events
                  rw [List.append_assoc, List.singleton_append, ← List.append_assoc] at second
                  exact .inr ⟨element.name, second⟩

theorem run_second {events : List Event} {other : Element} (spells : Spells events [other])
    (root : Element) (rest : List Event) :
    run ⟨[], some root⟩ (events ++ rest) = .error (.secondRoot other.name) := by
  cases spells with
  | empty name pairs after =>
      rw [List.cons_append, run]
      rfl
  | element name pairs inside after =>
      rw [List.cons_append, List.cons_append, run, step]
      dsimp only
      rw [List.append_assoc, run_spelled inside, List.cons_append, run]
      rfl

theorem run_eq_secondRoot_iff {events : List Event} {name : String} :
    run .empty events = .error (.secondRoot name) ↔ HasSecondRoot events name := by
  constructor
  · intro failed
    rcases empty_holds.run_error failed with stray | ⟨_, same, second⟩
    · cases stray
    · cases same
      exact second
  · rintro ⟨first, second, rest, root, other, rfl, isRoot, isOther, rfl⟩
    rw [run_append, run_root isRoot]
    exact run_second isOther root rest

end Builder

/-! ## Answers -/

/-- The events begin an element of the given name that nothing closes: whole elements are all
that follows its tag. -/
def LeavesOpen (events : List Event) (name : String) : Prop :=
  ∃ before pairs within children, events = before ++ .start name pairs :: within ∧
    Spells within children

namespace Builder

variable {builder : Builder}

theorem finish_eq_ok_iff {tree : Element} :
    builder.finish = .ok tree ↔ builder = ⟨[], some tree⟩ := by
  rcases builder with ⟨_ | ⟨element, outer⟩, _ | root⟩ <;> simp [finish]

theorem finish_eq_noRoot_iff : builder.finish = .error .noRoot ↔ builder = ⟨[], none⟩ := by
  rcases builder with ⟨_ | ⟨element, outer⟩, _ | root⟩ <;> simp [finish]

theorem finish_eq_unclosed_iff {name : String} :
    builder.finish = .error (.unclosed name) ↔
      ∃ innermost outer, builder.opened = innermost :: outer ∧ innermost.name = name := by
  rcases builder with ⟨_ | ⟨element, outer⟩, _ | root⟩ <;> simp [finish]

theorem finish_ne_error {reason : DocumentError} (rooted : reason ≠ .noRoot)
    (closed : ∀ name, reason ≠ .unclosed name) : builder.finish ≠ .error reason := by
  rintro failed
  rcases builder with ⟨_ | ⟨element, outer⟩, _ | root⟩
  · exact rooted (Except.error.inj failed).symm
  · cases failed
  · exact closed element.name (Except.error.inj failed).symm
  · exact closed element.name (Except.error.inj failed).symm

theorem Holds.leavesOpen {name : String} (holds : builder.Holds events)
    (innermost : ∃ element outer, builder.opened = element :: outer ∧ element.name = name) :
    LeavesOpen events name := by
  rcases builder with ⟨opened, root?⟩
  obtain ⟨finished, pending, rfl, isRoot, isOpen⟩ := holds
  obtain ⟨element, outer, rfl, rfl⟩ := innermost
  cases isOpen with
  | @cons earlier _ within _ before inside =>
      exact ⟨finished ++ earlier, element.attributes, within, element.children.reverse,
        (List.append_assoc _ _ _).symm, inside⟩

theorem exists_innermost {name : String} (leavesOpen : LeavesOpen events name)
    (ran : run .empty events = .ok builder) :
    ∃ element outer, builder.opened = element :: outer ∧ element.name = name := by
  obtain ⟨before, pairs, within, children, rfl, inside⟩ := leavesOpen
  rw [run_append] at ran
  cases ranBefore : run .empty before with
  | error reason =>
      rw [ranBefore] at ran
      cases ran
  | ok middle =>
      have whole := run_spelled inside ⟨name, pairs, []⟩ middle.opened middle.root? []
      rw [List.append_nil] at whole
      rw [ranBefore, Except.bind, run, step] at ran
      dsimp only at ran
      rw [whole] at ran
      cases ran
      exact ⟨_, _, rfl, rfl⟩

theorem holds_root_iff {root? : Option Element} :
    Holds ⟨[], root?⟩ events ↔ Spells events root?.toList := by
  constructor
  · rintro ⟨finished, pending, rfl, isRoot, isOpen⟩
    cases isOpen
    rwa [List.append_nil]
  · intro isRoot
    exact ⟨events, [], (List.append_nil events).symm, isRoot, .nil⟩

end Builder

namespace Element

variable {reading : Reading Event}

theorem ofEvents_of_ok {builder : Builder}
    (ran : Builder.run .empty reading.items = .ok builder) :
    ofEvents reading =
      match reading.error? with
      | some reason => .error (.event reason)
      | none => builder.finish := by
  rw [ofEvents, ran]
  cases reading.error? <;> rfl

theorem ofEvents_of_error {reason : DocumentError}
    (failed : Builder.run .empty reading.items = .error reason) :
    ofEvents reading = .error reason := by
  rw [ofEvents, failed]

theorem ofEvents_eq_finish_iff (last : Builder) :
    ofEvents reading = last.finish ↔
      reading.error? = none ∧ ∃ builder : Builder, builder.Holds reading.items ∧
        builder.finish = last.finish := by
  cases ran : Builder.run .empty reading.items with
  | error reason =>
      rw [ofEvents_of_error ran]
      refine iff_of_false (Ne.symm ?_) ?_
      · rcases Builder.empty_holds.run_error ran with rfl | ⟨name, rfl, _⟩ <;>
          exact Builder.finish_ne_error nofun nofun
      · rintro ⟨_, builder, holds, _⟩
        rw [Builder.run_eq_ok_iff.mpr holds] at ran
        cases ran
  | ok builder =>
      rw [ofEvents_of_ok ran]
      cases reading.error? with
      | some reason =>
          have notFinal : last.finish ≠ .error (.event reason) :=
            Builder.finish_ne_error nofun nofun
          exact iff_of_false notFinal.symm nofun
      | none =>
          rw [and_iff_right rfl]
          constructor
          · intro same
            exact ⟨builder, Builder.run_eq_ok_iff.mp ran, same⟩
          · rintro ⟨other, holds, same⟩
            rw [Builder.run_eq_ok_iff.mpr holds] at ran
            cases ran
            exact same

theorem ofEvents_eq_ok_iff {tree : Element} :
    ofEvents reading = .ok tree ↔ reading.error? = none ∧ Spells reading.items [tree] := by
  refine (ofEvents_eq_finish_iff ⟨[], some tree⟩).trans (and_congr_right fun _ => ?_)
  rw [← Option.toList_some, ← Builder.holds_root_iff]
  constructor
  · rintro ⟨builder, holds, same⟩
    rwa [← Builder.finish_eq_ok_iff.mp same]
  · exact fun holds => ⟨_, holds, rfl⟩

theorem ofEvents_eq_noRoot_iff :
    ofEvents reading = .error .noRoot ↔ reading.error? = none ∧ reading.items = [] := by
  refine (ofEvents_eq_finish_iff .empty).trans (and_congr_right fun _ => ?_)
  constructor
  · rintro ⟨builder, holds, same⟩
    rw [Builder.finish_eq_noRoot_iff.mp same] at holds
    exact (Builder.holds_root_iff.mp holds).eq_nil
  · intro none
    exact ⟨.empty, none ▸ Builder.empty_holds, rfl⟩

theorem ofEvents_eq_unclosed_iff {name : String} :
    ofEvents reading = .error (.unclosed name) ↔
      reading.error? = none ∧ LeavesOpen reading.items name ∧
        ∃ builder, Builder.run .empty reading.items = .ok builder := by
  refine (ofEvents_eq_finish_iff ⟨[⟨name, [], []⟩], none⟩).trans
    (and_congr_right fun _ => ?_)
  constructor
  · rintro ⟨builder, holds, same⟩
    refine ⟨?_, builder, Builder.run_eq_ok_iff.mpr holds⟩
    exact holds.leavesOpen (Builder.finish_eq_unclosed_iff.mp same)
  · rintro ⟨leavesOpen, builder, ran⟩
    exact ⟨builder, Builder.run_eq_ok_iff.mp ran,
      Builder.finish_eq_unclosed_iff.mpr (Builder.exists_innermost leavesOpen ran)⟩

theorem ofEvents_eq_refusal_iff {reason : DocumentError}
    (noFault : ∀ fault, reason ≠ .event fault) (rooted : reason ≠ .noRoot)
    (closed : ∀ name, reason ≠ .unclosed name) :
    ofEvents reading = .error reason ↔
      Builder.run .empty reading.items = .error reason := by
  cases ran : Builder.run .empty reading.items with
  | error other =>
      rw [ofEvents_of_error ran, Except.error.injEq, Except.error.injEq]
  | ok builder =>
      rw [ofEvents_of_ok ran]
      refine iff_of_false ?_ nofun
      split
      · exact fun same => noFault _ (Except.error.inj same).symm
      · exact Builder.finish_ne_error rooted closed

theorem ofEvents_eq_secondRoot_iff {name : String} :
    ofEvents reading = .error (.secondRoot name) ↔ HasSecondRoot reading.items name := by
  rw [← Builder.run_eq_secondRoot_iff]
  exact ofEvents_eq_refusal_iff nofun nofun nofun

theorem ofEvents_eq_strayClosingTag_iff :
    ofEvents reading = .error .strayClosingTag ↔
      Builder.run .empty reading.items = .error .strayClosingTag :=
  ofEvents_eq_refusal_iff nofun nofun nofun

theorem ofEvents_eq_event_iff {fault : EventError} :
    ofEvents reading = .error (.event fault) ↔
      reading.error? = some fault ∧
        ∃ builder, Builder.run .empty reading.items = .ok builder := by
  cases ran : Builder.run .empty reading.items with
  | error reason =>
      rw [ofEvents_of_error ran]
      refine iff_of_false ?_ nofun
      rcases Builder.empty_holds.run_error ran with rfl | ⟨name, rfl, _⟩ <;> exact nofun
  | ok builder =>
      rw [ofEvents_of_ok ran, and_iff_left ⟨builder, rfl⟩]
      cases reading.error? with
      | some reason => rw [Except.error.injEq, DocumentError.event.injEq, Option.some.injEq]
      | none => exact iff_of_false (Builder.finish_ne_error nofun nofun) nofun

theorem ofEvents_spelled {root : Element} (spells : Spells events [root]) :
    Element.ofEvents ⟨events, none⟩ = .ok root := by
  rw [Element.ofEvents, Builder.run_root spells]
  rfl

end Element

end CommandReference.Markup
