import CommandReference.Proofs.Definition.Transparency

namespace CommandReference

/-! Lists within lists. A list without attributes that stands among the entries of another
list of its kind only groups some of them: the list around it is made of the same items,
whether they are grouped or not, and it is refused in the same cases. -/

open Markup (Element)

/-! ## Values of a parameter -/

namespace Item

/-- The values that a name is given by parameters, in their order, unless it is given none
of them. -/
def valuesOf? (name : String) (parameters : List (String × List String)) :
    Option (List String) :=
  let own := parameters.filter fun parameter => parameter.1 = name
  if own = [] then none else some (own.flatMap Prod.snd)

theorem valuesOf?_append (name : String) (first second : List (String × List String)) :
    valuesOf? name (first ++ second) =
      Option.merge (· ++ ·) (valuesOf? name first) (valuesOf? name second) := by
  simp only [valuesOf?, List.filter_append, List.append_eq_nil_iff, List.flatMap_append]
  by_cases noFirst : first.filter (fun parameter => parameter.1 = name) = []
  · by_cases noSecond : second.filter (fun parameter => parameter.1 = name) = []
    · rw [if_pos ⟨noFirst, noSecond⟩, if_pos noFirst, if_pos noSecond]
      rfl
    · rw [if_neg (fun both => noSecond both.2), if_pos noFirst, if_neg noSecond, noFirst]
      rfl
  · by_cases noSecond : second.filter (fun parameter => parameter.1 = name) = []
    · rw [if_neg (fun both => noFirst both.1), if_neg noFirst, if_pos noSecond, noSecond,
        List.flatMap_nil, List.append_nil]
      rfl
    · rw [if_neg (fun both => noFirst both.1), if_neg noFirst, if_neg noSecond]
      rfl

theorem filter_own_eq_nil {name : String} {parameters : List (String × List String)}
    (different : ∀ parameter ∈ parameters, parameter.1 ≠ name) :
    parameters.filter (fun parameter => parameter.1 = name) = [] := by
  refine List.filter_eq_nil_iff.mpr fun parameter member => ?_
  rw [decide_eq_true_eq]
  exact different parameter member

theorem valuesOf?_entries (map : SortedMap String (List String)) (name : String) :
    valuesOf? name map.entries = map.get? name := by
  cases found : map.get? name with
  | none =>
      have absent := (map.get?_eq_none_iff name).mp found
      refine if_pos (filter_own_eq_nil fun entry member => ?_)
      rintro rfl
      exact absent (List.mem_map_of_mem member)
  | some values =>
      rcases List.append_of_mem ((map.get?_eq_some_iff name values).mp found) with
        ⟨before, after, split⟩
      have sorted := map.sorted
      rw [split] at sorted
      rcases List.pairwise_append.mp sorted with ⟨_, fromHere, below⟩
      have noneBefore : before.filter (fun parameter => parameter.1 = name) = [] :=
        filter_own_eq_nil fun entry member =>
          Std.ne_of_lt (below entry member (name, values) List.mem_cons_self)
      have noneAfter : after.filter (fun parameter => parameter.1 = name) = [] :=
        filter_own_eq_nil fun entry member =>
          (Std.ne_of_lt ((List.pairwise_cons.mp fromHere).1 entry member)).symm
      simp [valuesOf?, split, noneBefore, noneAfter]

theorem get?_alter_parameter (map : SortedMap String (List String))
    (parameter : String × List String) (name : String) :
    (map.alter parameter.1 fun present => present.getD [] ++ parameter.2).get? name =
      Option.merge (· ++ ·) (map.get? name) (valuesOf? name [parameter]) := by
  by_cases own : name = parameter.1
  · have values : valuesOf? name [parameter] = some parameter.2 := by simp [valuesOf?, own]
    rw [values, own, SortedMap.get?_alter_self]
    cases map.get? parameter.1 <;> rfl
  · have values : valuesOf? name [parameter] = none :=
      if_pos (filter_own_eq_nil (List.forall_mem_singleton.mpr (Ne.symm own)))
    rw [values, SortedMap.get?_alter_ne _ own]
    cases map.get? name <;> rfl

theorem get?_foldl_parameters (parameters : List (String × List String))
    (map : SortedMap String (List String)) (name : String) :
    (parameters.foldl (fun merged parameter =>
        merged.alter parameter.1 fun present => present.getD [] ++ parameter.2) map).get? name =
      Option.merge (· ++ ·) (map.get? name) (valuesOf? name parameters) := by
  induction parameters generalizing map with
  | nil =>
      rw [List.foldl_nil]
      cases map.get? name <;> rfl
  | cons parameter rest induction =>
      have split := valuesOf?_append name [parameter] rest
      rw [List.singleton_append] at split
      rw [List.foldl_cons, induction, get?_alter_parameter, split]
      exact Std.Associative.assoc _ _ _

theorem get?_mergeParameters (items : List Item) (name : String) :
    (mergeParameters items).get? name = valuesOf? name (items.flatMap parameters) := by
  rw [mergeParameters, get?_foldl_parameters]
  cases valuesOf? name (items.flatMap parameters) <;> rfl

theorem mergeParameters_group {first inner last : List Item} {group : Argument}
    (grouped : group.content = .assignments (mergeParameters inner)) :
    mergeParameters (first ++ [.argument group] ++ last) =
      mergeParameters (first ++ inner ++ last) := by
  apply SortedMap.eq_of_get?_eq
  intro name
  have own : valuesOf? name ([.argument group].flatMap parameters) =
      valuesOf? name (inner.flatMap parameters) := by
    rw [List.flatMap_singleton, parameters, grouped, ← get?_mergeParameters]
    exact valuesOf?_entries _ name
  simp only [get?_mergeParameters, List.flatMap_append, valuesOf?_append, own]

end Item

/-! ## Lists as groups -/

variable {scope : Scope} {resolution : Resolution} {attributes : List (String × String)}
  {first inner last : List Item}

/-- The argument that a list with given attributes makes of items depends on a list of the
same kind among them, if this one has no attributes, only through the items of that list. -/
structure Groups (build : List (String × String) → List Item → Except Failure Argument) :
    Prop where
  transparent {attributes : List (String × String)} {first inner last : List Item}
    {group : Argument} (built : build [] inner = .ok group) :
    build attributes (first ++ [.argument group] ++ last) =
      build attributes (first ++ inner ++ last)
  builds {attributes : List (String × String)} {first inner last : List Item}
    {argument : Argument} (built : build attributes (first ++ inner ++ last) = .ok argument) :
    ∃ group, build [] inner = .ok group

theorem flatMap_group {property : Item → List α} {item : Item}
    (same : property item = inner.flatMap property) :
    (first ++ [item] ++ last).flatMap property = (first ++ inner ++ last).flatMap property := by
  simp only [List.flatMap_append, List.flatMap_singleton, same]

theorem flatMap_inner_eq_nil {property : Item → List α}
    (nothing : (first ++ inner ++ last).flatMap property = []) :
    inner.flatMap property = [] := by
  simp only [List.flatMap_append, List.append_eq_nil_iff] at nothing
  exact nothing.1.2

theorem keywordsArgument_groups (scope : Scope) :
    Groups fun attributes => keywordsArgument scope ⟨"keywords", attributes, []⟩ where
  transparent {attributes first inner last group} built := by
    rcases keywordsArgument_eq_ok_iff.mp built with ⟨noKeys, rendering, _, made⟩
    have texts : (Item.argument group).fragments = inner.flatMap Item.fragments := by
      rw [made]
      rfl
    have names : (Item.argument group).inherits = inner.flatMap Item.inherits := by
      rw [made]
      rfl
    have keys : (Item.argument group).parameters = inner.flatMap Item.parameters := by
      rw [made, noKeys]
      rfl
    rw [keywordsArgument, keywordsArgument, flatMap_group texts, flatMap_group names,
      flatMap_group keys]
  builds {attributes first inner last argument} built := by
    have noKeys := flatMap_inner_eq_nil (keywordsArgument_eq_ok_iff.mp built).1
    exact ⟨_, keywordsArgument_eq_ok_iff.mpr ⟨noKeys, _, rfl, rfl⟩⟩

theorem assignmentsArgument_groups (scope : Scope) :
    Groups fun attributes => assignmentsArgument scope ⟨"assignments", attributes, []⟩ where
  transparent {attributes first inner last group} built := by
    rcases assignmentsArgument_eq_ok_iff.mp built with ⟨noTexts, rendering, _, made⟩
    have texts : (Item.argument group).fragments = inner.flatMap Item.fragments := by
      rw [made, noTexts]
      rfl
    have names : (Item.argument group).inherits = inner.flatMap Item.inherits := by
      rw [made]
      rfl
    have merged : group.content = .assignments (Item.mergeParameters inner) := by rw [made]
    rw [assignmentsArgument, assignmentsArgument, flatMap_group texts, flatMap_group names,
      Item.mergeParameters_group merged]
  builds {attributes first inner last argument} built := by
    have noTexts := flatMap_inner_eq_nil (assignmentsArgument_eq_ok_iff.mp built).1
    exact ⟨_, assignmentsArgument_eq_ok_iff.mpr ⟨noTexts, _, rfl, rfl⟩⟩

/-! ## Lists as elements -/

def IsList (scope : Scope) (resolution : Resolution) (tag : String)
    (build : List (String × String) → List Item → Except Failure Argument) : Prop :=
  ∀ attributes children found,
    items scope resolution ⟨tag, attributes, children⟩ = .ok found ↔
      ∃ inner argument, itemsOfAll scope resolution children = .ok inner ∧
        build attributes inner = .ok argument ∧ found = [.argument argument]

theorem bind_map_eq_ok_iff {inner : Except Failure (List Item)}
    {build : List Item → Except Failure Argument} {found : List Item} :
    ((inner.bind build).map fun argument => [Item.argument argument]) = .ok found ↔
      ∃ own argument, inner = .ok own ∧ build own = .ok argument ∧
        found = [.argument argument] := by
  constructor
  · intro encoded
    rcases of_map_eq_ok encoded with ⟨argument, bound, rfl⟩
    rcases of_bind_eq_ok bound with ⟨own, rfl, built⟩
    exact ⟨own, argument, rfl, built, rfl⟩
  · rintro ⟨own, argument, rfl, built, rfl⟩
    rw [Except.bind, built]
    rfl

theorem isList_keywords (scope : Scope) (resolution : Resolution) :
    IsList scope resolution "keywords" fun attributes =>
      keywordsArgument scope ⟨"keywords", attributes, []⟩ := by
  intro attributes children found
  have kind : NodeKind.ofName? "keywords" = some .keywords := by decide
  rw [items_of_not_reference _ _ (by decide : "keywords" ≠ "resolve"), ownItems]
  simp only [kind]
  exact bind_map_eq_ok_iff

theorem isList_assignments (scope : Scope) (resolution : Resolution) :
    IsList scope resolution "assignments" fun attributes =>
      assignmentsArgument scope ⟨"assignments", attributes, []⟩ := by
  intro attributes children found
  have kind : NodeKind.ofName? "assignments" = some .assignments := by decide
  rw [items_of_not_reference _ _ (by decide : "assignments" ≠ "resolve"), ownItems]
  simp only [kind]
  exact bind_map_eq_ok_iff

theorem itemsOfAll_append_eq_ok_iff {nodes others : List Element} {found : List Item} :
    itemsOfAll scope resolution (nodes ++ others) = .ok found ↔
      ∃ own further, itemsOfAll scope resolution nodes = .ok own ∧
        itemsOfAll scope resolution others = .ok further ∧ found = own ++ further := by
  rw [itemsOfAll_eq_inTurn, itemsOfAll_eq_inTurn, itemsOfAll_eq_inTurn, inTurn_append]
  constructor
  · intro encoded
    rcases of_bind_eq_ok encoded with ⟨own, encodedOwn, later⟩
    rcases of_map_eq_ok later with ⟨further, encodedFurther, rfl⟩
    exact ⟨own, further, encodedOwn, encodedFurther, rfl⟩
  · rintro ⟨own, further, encodedOwn, encodedFurther, rfl⟩
    rw [encodedOwn, Except.bind, encodedFurther]
    rfl

theorem itemsOfAll_between_eq_ok_iff {before group after : List Element} {found : List Item} :
    itemsOfAll scope resolution (before ++ group ++ after) = .ok found ↔
      ∃ first inner last, itemsOfAll scope resolution before = .ok first ∧
        itemsOfAll scope resolution group = .ok inner ∧
        itemsOfAll scope resolution after = .ok last ∧ found = first ++ inner ++ last := by
  simp only [itemsOfAll_append_eq_ok_iff]
  constructor
  · rintro ⟨_, last, ⟨first, inner, encodedFirst, encodedInner, rfl⟩, encodedLast, rfl⟩
    exact ⟨first, inner, last, encodedFirst, encodedInner, encodedLast, rfl⟩
  · rintro ⟨first, inner, last, encodedFirst, encodedInner, encodedLast, rfl⟩
    exact ⟨_, last, ⟨first, inner, encodedFirst, encodedInner, rfl⟩, encodedLast, rfl⟩

theorem items_grouped_iff {tag : String}
    {build : List (String × String) → List Item → Except Failure Argument}
    (isList : IsList scope resolution tag build) (groups : Groups build)
    (attributes : List (String × String)) (before group after : List Element)
    (found : List Item) :
    items scope resolution ⟨tag, attributes, before ++ [⟨tag, [], group⟩] ++ after⟩ = .ok found ↔
      items scope resolution ⟨tag, attributes, before ++ group ++ after⟩ = .ok found := by
  rw [isList, isList]
  simp only [itemsOfAll_between_eq_ok_iff, itemsOfAll_singleton, isList [] group _]
  constructor
  · rintro ⟨_, argument, ⟨first, _, last, encodedFirst, ⟨inner, own, encodedInner, grouped, rfl⟩,
      encodedLast, rfl⟩, built, rfl⟩
    rw [groups.transparent grouped] at built
    exact ⟨_, argument, ⟨first, inner, last, encodedFirst, encodedInner, encodedLast, rfl⟩,
      built, rfl⟩
  · rintro ⟨_, argument, ⟨first, inner, last, encodedFirst, encodedInner, encodedLast, rfl⟩,
      built, rfl⟩
    rcases groups.builds built with ⟨own, grouped⟩
    rw [← groups.transparent grouped] at built
    exact ⟨_, argument, ⟨first, _, last, encodedFirst, ⟨inner, own, encodedInner, grouped, rfl⟩,
      encodedLast, rfl⟩, built, rfl⟩

theorem items_assignments_values {before group after : List Element} {found : List Item}
    (encoded : items scope resolution
      ⟨"assignments", attributes, before ++ [⟨"assignments", [], group⟩] ++ after⟩ = .ok found) :
    ∃ first inner last argument values,
      itemsOfAll scope resolution before = .ok first ∧
        itemsOfAll scope resolution group = .ok inner ∧
        itemsOfAll scope resolution after = .ok last ∧
        found = [.argument argument] ∧ argument.content = .assignments values ∧
        argument.inherits = (first ++ inner ++ last).flatMap Item.inherits ∧
        ∀ name, values.get? name =
          Item.valuesOf? name ((first ++ inner ++ last).flatMap Item.parameters) := by
  rw [items_grouped_iff (isList_assignments scope resolution) (assignmentsArgument_groups scope),
    isList_assignments scope resolution] at encoded
  rcases encoded with ⟨all, argument, encodedAll, built, rfl⟩
  rcases itemsOfAll_between_eq_ok_iff.mp encodedAll with
    ⟨first, inner, last, encodedFirst, encodedInner, encodedLast, rfl⟩
  rcases assignmentsArgument_eq_ok_iff.mp built with ⟨_, rendering, _, rfl⟩
  exact ⟨first, inner, last, _, _, encodedFirst, encodedInner, encodedLast, rfl, rfl, rfl,
    Item.get?_mergeParameters _⟩

/-- Grouping changes nothing. Keywords are encoded with some of their children put into
keywords without attributes exactly if they are without them, and then as the same argument;
so are assignments, whose values are joined for each name in document order. -/
theorem grouped_lists_flatten (scope : Scope) (resolution : Resolution)
    (attributes : List (String × String)) (before group after : List Element) :
    (∀ found,
      items scope resolution
          ⟨"keywords", attributes, before ++ [⟨"keywords", [], group⟩] ++ after⟩ = .ok found ↔
        items scope resolution ⟨"keywords", attributes, before ++ group ++ after⟩ =
          .ok found) ∧
      (∀ found,
        items scope resolution
            ⟨"assignments", attributes, before ++ [⟨"assignments", [], group⟩] ++ after⟩ =
              .ok found ↔
          items scope resolution ⟨"assignments", attributes, before ++ group ++ after⟩ =
            .ok found) ∧
      ∀ found,
        items scope resolution
            ⟨"assignments", attributes, before ++ [⟨"assignments", [], group⟩] ++ after⟩ =
              .ok found →
          ∃ first inner last argument values,
            itemsOfAll scope resolution before = .ok first ∧
              itemsOfAll scope resolution group = .ok inner ∧
              itemsOfAll scope resolution after = .ok last ∧
              found = [.argument argument] ∧ argument.content = .assignments values ∧
              argument.inherits = (first ++ inner ++ last).flatMap Item.inherits ∧
              ∀ name, values.get? name =
                Item.valuesOf? name ((first ++ inner ++ last).flatMap Item.parameters) :=
  ⟨items_grouped_iff (isList_keywords scope resolution) (keywordsArgument_groups scope)
      attributes before group after,
    items_grouped_iff (isList_assignments scope resolution) (assignmentsArgument_groups scope)
      attributes before group after,
    fun _ encoded => items_assignments_values encoded⟩

private def valueOf (name value : String) : Element :=
  ⟨"parameter", [("name", name)], [⟨"constant", [("value", value)], []⟩]⟩

private def styleAssignments (group : List Element) : Element :=
  ⟨"assignments", [("list", "yes")],
    [valueOf "style" "bold"] ++ group ++ [valueOf "style" "slanted"]⟩

private def styleGroup : List Element := [valueOf "style" "italic", valueOf "color" "red"]

theorem grouped_lists_flatten_styles :
    ∃ argument values,
      items ⟨"i-test.xml", "setup"⟩ .deferred
          (styleAssignments [⟨"assignments", [], styleGroup⟩]) = .ok [.argument argument] ∧
        items ⟨"i-test.xml", "setup"⟩ .deferred (styleAssignments styleGroup) =
          .ok [.argument argument] ∧
        argument.content = .assignments values ∧
        values.get? "style" = some ["bold", "italic", "slanted"] := by
  rcases grouped_lists_flatten ⟨"i-test.xml", "setup"⟩ .deferred [("list", "yes")]
      [valueOf "style" "bold"] styleGroup [valueOf "style" "slanted"] with ⟨_, same, joins⟩
  have encoded : ∃ found, items ⟨"i-test.xml", "setup"⟩ .deferred
      (styleAssignments [⟨"assignments", [], styleGroup⟩]) = .ok found := ⟨_, rfl⟩
  rcases encoded with ⟨found, encoded⟩
  rcases joins found encoded with ⟨first, inner, last, argument, values, encodedFirst,
    encodedInner, encodedLast, rfl, content, _, each⟩
  cases (Except.ok.inj encodedFirst : [Item.parameter "style" ["bold"] []] = first)
  cases (Except.ok.inj encodedInner :
    [Item.parameter "style" ["italic"] [], .parameter "color" ["red"] []] = inner)
  cases (Except.ok.inj encodedLast : [Item.parameter "style" ["slanted"] []] = last)
  exact ⟨argument, values, encoded, (same _).mp encoded, content, each "style"⟩

end CommandReference
