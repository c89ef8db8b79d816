import CommandReference.Proofs.Markup.AttributeList
import CommandReference.Proofs.Markup.Tree

namespace CommandReference.Markup

/-! Which documents are read. The events of a document are what its tags say, up to the first
fault in a tag, and the document is accepted exactly if there is no fault and its events
spell one tree. Otherwise the answer says what is wrong with them. -/

/-! ## Tags -/

/-- What a tag says, once it is known to match what it closes. -/
inductive Tag.Gives : Tag → Event → Prop where
  | opening {content : List Char} (carries : Carries content pairs) :
      Gives (.opening content) (.start (String.ofList (localName (cutName content).1)) pairs)
  | empty {content : List Char} (carries : Carries content pairs) :
      Gives (.empty content) (.empty (String.ofList (localName (cutName content).1)) pairs)
  | closing (content : List Char) : Gives (.closing content) .stop

/-- Nothing is wrong with tags inside of elements with the given full names, the innermost
one first: attributes can be read, and each closing tag matches the element that it closes. -/
def Faultless (opened : List (List Char)) : List Tag → Prop
  | [] => True
  | .opening content :: rest =>
      (∃ pairs, Carries content pairs) ∧ Faultless ((cutName content).1 :: opened) rest
  | .empty content :: rest => (∃ pairs, Carries content pairs) ∧ Faultless opened rest
  | .closing content :: rest =>
      opened.head? = some (closingName content) ∧ Faultless opened.tail rest

/-- The events are what the tags say, one for each tag before the first fault. There is no
error exactly if no tag has a fault and there was none when the tags were found. -/
def Follows (opened : List (List Char)) (placed : List PlacedTag) (error? : Option EventError)
    (reading : Reading Event) : Prop :=
  ∃ read unread, placed.map PlacedTag.tag = read ++ unread ∧
    List.Forall₂ Tag.Gives read reading.items ∧ Faultless opened read ∧
      (∀ tag ∈ unread.head?, ¬ Faultless opened (read ++ [tag])) ∧
        (reading.error? = none ↔ error? = none ∧ unread = [])

namespace Follows

variable {opened inside : List (List Char)} {placed : List PlacedTag} {tag : PlacedTag}
  {error? : Option EventError} {reading : Reading Event}

theorem stop (faulty : ¬ Faultless opened [tag.tag]) (placed : List PlacedTag)
    (error? : Option EventError) (fault : EventError) :
    Follows opened (tag :: placed) error? (.stop (some fault)) := by
  refine ⟨[], _, rfl, .nil, trivial, fun other first => ?_, iff_of_false nofun nofun⟩
  cases first
  exact faulty

theorem prepend {event : Event} (gives : tag.tag.Gives event)
    (sound : ∀ tags, Faultless opened (tag.tag :: tags) ↔ Faultless inside tags)
    (follows : Follows inside placed error? reading) :
    Follows opened (tag :: placed) error? (reading.prepend [event]) := by
  obtain ⟨read, unread, cut, each, faultless, faulty, ends⟩ := follows
  exact ⟨tag.tag :: read, unread, congrArg (List.cons _) cut, .cons gives each,
    (sound read).mpr faultless, fun next first => faulty next first ∘ (sound _).mp, ends⟩

end Follows

theorem not_carries_of_error {content : List Char} {reason : AttributeError}
    (failed : attributes content = .error reason) : ¬ ∃ pairs, Carries content pairs := by
  rintro ⟨pairs, carries⟩
  cases failed.symm.trans (attributes_eq_ok_iff.mpr carries)

theorem eventsFrom_follows (opened : List (List Char)) (error? : Option EventError)
    (placed : List PlacedTag) :
    Follows opened placed error? (eventsFrom opened error? placed) := by
  induction placed generalizing opened with
  | nil => exact ⟨[], [], rfl, .nil, trivial, nofun, (and_iff_left rfl).symm⟩
  | cons first placed induction =>
      rcases first with ⟨content | content | content, position⟩
      · rw [eventsFrom]
        cases read : attributes content with
        | error reason =>
            refine .stop (fun faultless => ?_) _ _ _
            exact not_carries_of_error read faultless.1
        | ok pairs =>
            have carries := attributes_eq_ok_iff.mp read
            exact .prepend (.opening carries) (fun _ => and_iff_right ⟨pairs, carries⟩)
              (induction _)
      · rw [eventsFrom]
        cases read : attributes content with
        | error reason =>
            refine .stop (fun faultless => ?_) _ _ _
            exact not_carries_of_error read faultless.1
        | ok pairs =>
            have carries := attributes_eq_ok_iff.mp read
            exact .prepend (.empty carries) (fun _ => and_iff_right ⟨pairs, carries⟩)
              (induction _)
      · cases opened with
        | nil =>
            refine .stop (fun faultless => ?_) _ _ _
            cases faultless.1
        | cons expected outer =>
            rw [eventsFrom]
            split
            case isTrue found =>
              have closes : (expected :: outer).head? = some (closingName content) :=
                congrArg some found.symm
              exact .prepend (.closing content) (fun _ => and_iff_right closes)
                (induction outer)
            case isFalse differs =>
              refine .stop (fun faultless => ?_) _ _ _
              exact differs (Option.some.inj faultless.1).symm

/-! ## Closing tags -/

namespace Builder

variable {builder next : Builder} {element : Element}

theorem length_opened_attach (attached : builder.attach element = .ok next) :
    next.opened.length = builder.opened.length := by
  rcases builder with ⟨_ | ⟨parent, outer⟩, root?⟩
  · cases root? with
    | none =>
        cases attached
        rfl
    | some root => cases attached
  · cases attached
    rfl

theorem attach_ne_strayClosingTag : builder.attach element ≠ .error .strayClosingTag := by
  rcases builder with ⟨_ | ⟨parent, outer⟩, _ | root⟩ <;> exact nofun

theorem run_stop_ne_error (fault? : Option EventError) (reason : DocumentError) :
    builder.run (Reading.stop fault?).items ≠ .error reason :=
  nofun

theorem run_cons_ne_error {event : Event} {events : List Event} {reason : DocumentError}
    (stepped : builder.step event ≠ .error reason)
    (further : ∀ next, builder.step event = .ok next → next.run events ≠ .error reason) :
    builder.run (event :: events) ≠ .error reason := by
  rw [run]
  cases result : builder.step event with
  | ok next => exact further next result
  | error other => exact fun same => stepped (result.trans same)

/-- The names of the elements that are open and the elements themselves keep in step, so
there is an element for every closing tag that matches. -/
theorem run_eventsFrom_ne_strayClosingTag {opened : List (List Char)}
    (inStep : opened.length = builder.opened.length) (error? : Option EventError)
    (placed : List PlacedTag) :
    builder.run (eventsFrom opened error? placed).items ≠ .error .strayClosingTag := by
  induction placed generalizing opened builder with
  | nil => exact run_stop_ne_error error? _
  | cons first placed induction =>
      rcases first with ⟨content | content | content, position⟩
      · rw [eventsFrom]
        cases attributes content with
        | error reason => exact run_stop_ne_error _ _
        | ok pairs => exact induction (congrArg Nat.succ inStep)
      · rw [eventsFrom]
        cases attributes content with
        | error reason => exact run_stop_ne_error _ _
        | ok pairs =>
            refine run_cons_ne_error attach_ne_strayClosingTag fun next attached => ?_
            exact induction (inStep.trans (length_opened_attach attached).symm)
      · cases opened with
        | nil => exact run_stop_ne_error _ _
        | cons expected outer =>
            rw [eventsFrom]
            split
            case isFalse => exact run_stop_ne_error _ _
            case isTrue =>
              rcases builder with ⟨_ | ⟨element, outside⟩, root?⟩
              · cases inStep
              · refine run_cons_ne_error attach_ne_strayClosingTag fun next attached => ?_
                exact induction ((Nat.succ.inj inStep).trans
                  (length_opened_attach attached).symm)

end Builder

/-! ## Documents -/

theorem exists_run_events_iff (document : String) :
    (∃ builder, Builder.run .empty (events document).items = .ok builder) ↔
      ∀ name, ¬ HasSecondRoot (events document).items name := by
  have noStray : Builder.run .empty (events document).items ≠ .error .strayClosingTag :=
    Builder.run_eventsFrom_ne_strayClosingTag rfl _ _
  constructor
  · rintro ⟨builder, ran⟩ name second
    have failed := Builder.run_eq_secondRoot_iff.mpr second
    rw [ran] at failed
    cases failed
  · intro noSecond
    cases ran : Builder.run .empty (events document).items with
    | ok builder => exact ⟨builder, rfl⟩
    | error reason =>
        rcases Builder.empty_holds.run_error ran with rfl | ⟨name, rfl, second⟩
        · exact absurd ran noStray
        · exact absurd second (noSecond name)

/-- A document is read as a tree exactly if none of its tags has a fault and its events spell
that tree: one element, with an event for each tag in order. Each event has the name of its
tag without a qualifier, and the attributes of its tag, unescaped. A document without an
element, with a second root or with an element that nothing closes is refused, and the refusal
says which; the first fault of a tag is reported unless a second root comes before it. A
closing tag never finds nothing to close. -/
theorem parse_accepts_trees (document : String) :
    Follows [] (tags document).items (tags document).error? (events document) ∧
      (∀ tree, parse document = .ok tree ↔
        (events document).error? = none ∧ Spells (events document).items [tree]) ∧
      (∀ reason, parse document = .error (.event reason) ↔
        (events document).error? = some reason ∧
          ∀ name, ¬ HasSecondRoot (events document).items name) ∧
      (parse document = .error .noRoot ↔
        (events document).error? = none ∧ (events document).items = []) ∧
      (∀ name, parse document = .error (.secondRoot name) ↔
        HasSecondRoot (events document).items name) ∧
      (∀ name, parse document = .error (.unclosed name) ↔
        (events document).error? = none ∧ LeavesOpen (events document).items name ∧
          ∀ other, ¬ HasSecondRoot (events document).items other) ∧
      parse document ≠ .error .strayClosingTag := by
  refine ⟨eventsFrom_follows [] _ _, fun tree => Element.ofEvents_eq_ok_iff, fun reason => ?_,
    Element.ofEvents_eq_noRoot_iff, fun name => Element.ofEvents_eq_secondRoot_iff,
    fun name => ?_, ?_⟩
  · rw [← exists_run_events_iff]
    exact Element.ofEvents_eq_event_iff
  · rw [← exists_run_events_iff]
    exact Element.ofEvents_eq_unclosed_iff
  · rw [ne_eq, parse, Element.ofEvents_eq_strayClosingTag_iff]
    exact Builder.run_eventsFrom_ne_strayClosingTag rfl _ _

end CommandReference.Markup
