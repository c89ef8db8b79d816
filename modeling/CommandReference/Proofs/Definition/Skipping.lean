import CommandReference.Proofs.Definition.Rounds

namespace CommandReference

/-! What a definition leaves behind that the second round skips. It is not in the table in
the end, but what the first round made of it could be referred to. So a corpus without its
skipped definitions has the same table, unless one that stays refers to a name for which
the first round has kept a skipped one. -/

open Markup (Element)
open DefinitionTable (declarations declaredItems)

/-! ## Trees without some elements -/

namespace Markup.Element

mutual

/-- What is left of an element when those that satisfy a condition go, with all that is
in them. -/
def without (gone : Element → Bool) : Element → List Element
  | ⟨name, attributes, children⟩ =>
      if gone ⟨name, attributes, children⟩ then []
      else [⟨name, attributes, withoutAmong gone children⟩]

def withoutAmong (gone : Element → Bool) : List Element → List Element
  | [] => []
  | element :: rest => without gone element ++ withoutAmong gone rest

end

theorem namedAmong_append (name : String) (elements others : List Element) :
    namedAmong name (elements ++ others) = namedAmong name elements ++ namedAmong name others := by
  induction elements with
  | nil => rfl
  | cons element rest induction =>
      rw [List.cons_append, namedAmong, namedAmong, induction, List.append_assoc]

theorem name_of_mem_namedAmong {name : String} {elements : List Element} {element : Element}
    (member : element ∈ namedAmong name elements) : element.name = name := by
  induction elements using elements_induction with
  | nil => cases member
  | cons node rest children later =>
      rcases node with ⟨own, attributes, inner⟩
      rw [namedAmong, named] at member
      rcases List.mem_append.mp member with inNode | inRest
      · split at inNode
        case isTrue same =>
          rcases List.mem_cons.mp inNode with rfl | below
          · exact same
          · exact children below
        case isFalse => exact children inNode
      · exact later inRest

section
variable {name : String} {gone : Element → Bool}
  (only : ∀ element, gone element = true → element.name = name)
include only

theorem withoutAmong_of_none {elements : List Element}
    (none : namedAmong name elements = []) : withoutAmong gone elements = elements := by
  induction elements using elements_induction with
  | nil => rfl
  | cons node rest children later =>
      rcases node with ⟨own, attributes, inner⟩
      rw [namedAmong, List.append_eq_nil_iff, named] at none
      rcases none with ⟨noneHere, noneAfter⟩
      split at noneHere
      case isTrue => cases noneHere
      case isFalse different =>
        rw [withoutAmong, without, if_neg (different ∘ only _), children noneHere,
          later noneAfter]
        rfl

theorem namedAmong_withoutAmong {elements : List Element}
    (flat : ∀ element ∈ namedAmong name elements, namedAmong name element.children = []) :
    namedAmong name (withoutAmong gone elements) =
      (namedAmong name elements).filter fun element => !gone element := by
  induction elements using elements_induction with
  | nil => rfl
  | cons node rest children later =>
      rcases node with ⟨own, attributes, inner⟩
      rw [namedAmong, List.forall_mem_append] at flat
      rw [withoutAmong, namedAmong_append, later flat.2, namedAmong, List.filter_append]
      refine congrArg (· ++ _) ?_
      have flatHere := flat.1
      rw [named] at flatHere ⊢
      rw [without]
      by_cases isNamed : own = name
      · rw [if_pos isNamed] at flatHere ⊢
        have none : namedAmong name inner = [] := flatHere _ List.mem_cons_self
        rw [none]
        cases goes : gone ⟨own, attributes, inner⟩ with
        | true =>
            rw [if_pos rfl, List.filter_cons_of_neg (by rw [goes]; exact Bool.false_ne_true)]
            rfl
        | false =>
            rw [if_neg Bool.false_ne_true, withoutAmong_of_none only none,
              List.filter_cons_of_pos (by rw [goes]; rfl), namedAmong, named, if_pos isNamed,
              none]
            rfl
      · rw [if_neg isNamed] at flatHere ⊢
        rw [if_neg (isNamed ∘ only _), namedAmong, named, if_neg isNamed,
          children flatHere]
        exact List.append_nil _

end

end Markup.Element

/-! ## Corpora without skipped definitions -/

/-- No definition holds another one. -/
def FlatDefinitions (files : List InterfaceFile) : Prop :=
  ∀ declaration ∈ declarations files, Element.namedAmong "define" declaration.2.children = []

instance (files : List InterfaceFile) : Decidable (FlatDefinitions files) :=
  inferInstanceAs (Decidable (∀ declaration ∈ declarations files, _))

/-- Whether the second round leaves a definition out. -/
def isSkipped (files : List InterfaceFile) (definition : Element) : Bool :=
  (encoding (.table (DefinitionTable.ofDeferred files)) definition.children).isNone

/-- The corpus without the definitions that the second round leaves out. -/
def withoutSkipped (files : List InterfaceFile) : List InterfaceFile :=
  files.flatMap fun file =>
    (file.root.without fun element => element.name = "define" && isSkipped files element).map
      fun root => ⟨file.name, root⟩

variable {files : List InterfaceFile} {declaration : Scope × Element}

theorem named_eq_namedAmong (name : String) (element : Element) :
    element.named name = Element.namedAmong name [element] :=
  (List.append_nil _).symm

theorem without_eq_withoutAmong (gone : Element → Bool) (element : Element) :
    element.without gone = Element.withoutAmong gone [element] :=
  (List.append_nil _).symm

theorem flatMap_named (name : String) (elements : List Element) :
    elements.flatMap (·.named name) = Element.namedAmong name elements := by
  induction elements with
  | nil => rfl
  | cons element rest induction => rw [List.flatMap_cons, induction, Element.namedAmong]

theorem mem_declarations_iff :
    declaration ∈ declarations files ↔
      ∃ file ∈ files, ∃ element ∈ file.root.named "define",
        declaration = (⟨file.name, element.attributeOrEmpty "name"⟩, element) := by
  rw [declarations, List.mem_map]
  constructor
  · rintro ⟨⟨name, element⟩, member, rfl⟩
    rcases List.mem_flatMap.mp member with ⟨file, inFiles, found⟩
    rcases List.mem_map.mp found with ⟨_, inside, same⟩
    cases same
    exact ⟨file, inFiles, element, inside, rfl⟩
  · rintro ⟨file, inFiles, element, inside, rfl⟩
    exact ⟨(file.name, element),
      List.mem_flatMap.mpr ⟨file, inFiles, List.mem_map_of_mem inside⟩, rfl⟩

theorem declarations_withoutSkipped (flat : FlatDefinitions files) :
    declarations (withoutSkipped files) =
      (declarations files).filter fun declaration => !isSkipped files declaration.2 := by
  have perFile (file : InterfaceFile) (inFiles : file ∈ files) :
      ((file.root.without fun element =>
          element.name = "define" && isSkipped files element).map
        fun root => (⟨file.name, root⟩ : InterfaceFile)).flatMap
          (fun file => (file.root.named "define").map fun element => (file.name, element)) =
        ((file.root.named "define").map fun element => (file.name, element)).filter
          fun located => !isSkipped files located.2 := by
    have flatHere : ∀ element ∈ Element.namedAmong "define" [file.root],
        Element.namedAmong "define" element.children = [] := by
      intro element member
      rw [← named_eq_namedAmong] at member
      exact flat _ (mem_declarations_iff.mpr ⟨file, inFiles, element, member, rfl⟩)
    have only (element : Element)
        (goes : (decide (element.name = "define") && isSkipped files element) = true) :
        element.name = "define" :=
      of_decide_eq_true (Bool.and_eq_true_iff.mp goes).1
    have kept := Element.namedAmong_withoutAmong only flatHere
    rw [List.flatMap_map]
    dsimp only
    rw [← List.map_flatMap, flatMap_named, without_eq_withoutAmong, kept,
      ← named_eq_namedAmong, List.filter_map]
    refine congrArg _ (List.filter_congr fun element member => ?_)
    rw [named_eq_namedAmong] at member
    simp only [Element.name_of_mem_namedAmong member, decide_true, Bool.true_and,
      Function.comp_apply]
  rw [declarations, declarations, InterfaceFile.elementsNamed, withoutSkipped,
    List.flatMap_assoc, List.flatMap_congr perFile, ← List.filter_flatMap,
    InterfaceFile.elementsNamed, List.filter_map]
  rfl

/-! ## One round -/

theorem addDeclared_eq (resolution : Resolution) (table : DefinitionTable)
    (declaration : Scope × Element) :
    addDeclared resolution table declaration =
      match encoding resolution declaration.2.children with
      | some items => table.insert declaration.1.name items
      | none => table := by
  rw [addDeclared, ← toOption_itemsOfAll declaration.1, ← declaredItems]
  cases declaredItems resolution declaration <;> rfl

/-- What a tolerant round notes about a definition. -/
def skipWarning? (resolution : Resolution) (declaration : Scope × Element) : Option Warning :=
  match declaredItems resolution declaration with
  | .ok _ => none
  | .error failure => some (.skipped failure)

theorem skipWarning?_eq_none_iff (resolution : Resolution) (declaration : Scope × Element) :
    skipWarning? resolution declaration = none ↔
      (encoding resolution declaration.2.children).isSome := by
  rw [skipWarning?, ← toOption_itemsOfAll declaration.1, ← declaredItems]
  cases declaredItems resolution declaration with
  | ok items => exact iff_of_true rfl rfl
  | error failure => exact iff_of_false (Option.some_ne_none _) Bool.false_ne_true

theorem ofKnown_tolerant (known : DefinitionTable) (files : List InterfaceFile) :
    DefinitionTable.ofKnown .tolerant known files =
      ⟨(declarations files).filterMap (skipWarning? (.table known)),
        .ok ((declarations files).foldl (addDeclared (.table known)) .empty)⟩ := by
  rw [DefinitionTable.ofKnown]
  generalize declarations files = all
  generalize (SortedMap.empty : DefinitionTable) = table
  induction all generalizing table with
  | nil => rfl
  | cons declaration rest induction =>
      rw [List.foldlM_cons, List.foldl_cons, List.filterMap_cons, addDeclared, skipWarning?]
      cases declaredItems (.table known) declaration with
      | ok items => rw [Outcome.bind_ok rfl, induction]; rfl
      | error failure => rw [Outcome.bind_ok rfl, induction]; rfl

/-- The last definition of a name that a round can encode. -/
def lastEncoded? (resolution : Resolution) (all : List (Scope × Element)) (name : String) :
    Option (Scope × Element) :=
  all.reverse.find? fun declaration =>
    declaration.1.name = name && (encoding resolution declaration.2.children).isSome

theorem get?_foldl_eq_lastEncoded? (resolution : Resolution) (all : List (Scope × Element))
    (name : String) :
    (all.foldl (addDeclared resolution) .empty).get? name =
      (lastEncoded? resolution all name).bind fun declaration =>
        encoding resolution declaration.2.children := by
  induction all using List.reverseRecOn with
  | nil => rfl
  | append_singleton all last induction =>
      rw [List.foldl_append, lastEncoded?, List.reverse_append, List.reverse_singleton,
        List.singleton_append, List.find?_cons, List.foldl_cons, List.foldl_nil,
        addDeclared_eq]
      by_cases same : last.1.name = name
      · subst same
        cases encoded : encoding resolution last.2.children with
        | none =>
            simp only [Option.isSome_none, Bool.and_false]
            exact induction
        | some items =>
            simp only [decide_true, Option.isSome_some, Bool.and_true, Option.bind_some, encoded]
            exact SortedMap.get?_insert_self _ _ _
      · have kept : (match encoding resolution last.2.children with
            | some items =>
                (all.foldl (addDeclared resolution) .empty).insert last.1.name items
            | none => all.foldl (addDeclared resolution) .empty).get? name =
              (all.foldl (addDeclared resolution) .empty).get? name := by
          split
          · exact SortedMap.get?_insert_ne _ (Ne.symm same) _
          · rfl
        rw [kept, induction]
        simp only [same, decide_false, Bool.false_and]
        rfl

theorem encoding_congr {first second : Resolution} {elements : List Element}
    (same : ∀ name ∈ references elements, first.lookup? name = second.lookup? name) :
    encoding first elements = encoding second elements := by
  induction elements using elements_induction with
  | nil => rfl
  | cons node rest children later =>
      have sameChildren := children fun name member =>
        same name (mem_references_cons.mpr (.inr (.inl member)))
      have sameRest := later fun name member =>
        same name (mem_references_cons.mpr (.inr (.inr member)))
      by_cases isReference : node.name = "resolve"
      · have here := same (node.attributeOrEmpty "name")
          (mem_references_cons.mpr (.inl ⟨isReference, rfl⟩))
        rw [encoding_reference _ isReference, encoding_reference _ isReference, here, sameRest]
      · rw [encoding_other _ isReference, encoding_other _ isReference, sameRest,
          toOption_ownItems ⟨"", ""⟩ ⟨"", ""⟩ node sameChildren]

/-! ## Traces of skipped definitions -/

/-- Whether a skipped definition is what the first round knows by this name. -/
def leavesTrace (files : List InterfaceFile) (name : String) : Bool :=
  (lastEncoded? .deferred (declarations files) name).any fun declaration =>
    isSkipped files declaration.2

theorem get?_ofDeferred_eq (files : List InterfaceFile) (name : String) :
    (DefinitionTable.ofDeferred files).get? name =
      (lastEncoded? .deferred (declarations files) name).bind fun declaration =>
        encoding .deferred declaration.2.children :=
  get?_foldl_eq_lastEncoded? .deferred (declarations files) name

theorem lastEncoded?_filter (resolution : Resolution) (all : List (Scope × Element))
    (name : String) {keeps : Scope × Element → Bool}
    (kept : ∀ declaration, lastEncoded? resolution all name = some declaration →
      keeps declaration = true) :
    lastEncoded? resolution (all.filter keeps) name = lastEncoded? resolution all name := by
  rw [lastEncoded?, lastEncoded?, ← List.filter_reverse, List.find?_filter]
  cases found : lastEncoded? resolution all name with
  | none =>
      rw [lastEncoded?] at found
      rw [found, List.find?_eq_none]
      intro declaration member both
      exact List.find?_eq_none.mp found declaration member (of_decide_eq_true both).2
  | some last =>
      have stays := kept last found
      rw [lastEncoded?] at found
      rw [found]
      rcases List.find?_eq_some_iff_append.mp found with ⟨here, before, after, split, none⟩
      refine List.find?_eq_some_iff_append.mpr
        ⟨decide_eq_true ⟨stays, here⟩, before, after, split, fun other member => ?_⟩
      have refused := none other member
      rw [Bool.not_eq_true'] at refused ⊢
      exact decide_eq_false fun both => Bool.false_ne_true (refused.symm.trans both.2)

theorem get?_ofDeferred_withoutSkipped (flat : FlatDefinitions files) {name : String}
    (clean : leavesTrace files name = false) :
    (DefinitionTable.ofDeferred (withoutSkipped files)).get? name =
      (DefinitionTable.ofDeferred files).get? name := by
  rw [get?_ofDeferred_eq, get?_ofDeferred_eq, declarations_withoutSkipped flat,
    lastEncoded?_filter]
  intro declaration found
  rw [leavesTrace, found] at clean
  rw [Bool.not_eq_true']
  exact clean

theorem isSkipped_iff :
    isSkipped files declaration.2 = true ↔
      (skipWarning? (.table (DefinitionTable.ofDeferred files)) declaration).isSome := by
  have none := skipWarning?_eq_none_iff (.table (DefinitionTable.ofDeferred files)) declaration
  rw [isSkipped]
  cases encoded : encoding (.table (DefinitionTable.ofDeferred files)) declaration.2.children with
  | none =>
      rw [encoded] at none
      cases noted : skipWarning? (.table (DefinitionTable.ofDeferred files)) declaration with
      | none => cases none.mp noted
      | some warning => exact iff_of_true rfl rfl
  | some items =>
      rw [none.mpr (by rw [encoded]; rfl)]
      exact iff_of_false nofun nofun

theorem foldl_addDeclared_withoutSkipped (flat : FlatDefinitions files) :
    (declarations (withoutSkipped files)).foldl
        (addDeclared (.table (DefinitionTable.ofDeferred files))) .empty =
      (declarations files).foldl
        (addDeclared (.table (DefinitionTable.ofDeferred files))) .empty := by
  rw [declarations_withoutSkipped flat, List.foldl_filter]
  congr 1
  funext table declaration
  split
  case isTrue => rfl
  case isFalse skipped =>
    rw [Bool.not_eq_true, Bool.not_eq_false', isSkipped, Option.isNone_iff_eq_none] at skipped
    rw [addDeclared_eq, skipped]

theorem filterMap_skipWarning?_eq_nil {known : DefinitionTable} {all : List (Scope × Element)}
    (encodes : ∀ declaration ∈ all, (encoding (.table known) declaration.2.children).isSome) :
    all.filterMap (skipWarning? (.table known)) = [] :=
  List.filterMap_eq_nil_iff.mpr fun declaration member =>
    (skipWarning?_eq_none_iff _ declaration).mpr (encodes declaration member)

theorem encodes_of_mem_withoutSkipped (flat : FlatDefinitions files)
    (member : declaration ∈ declarations (withoutSkipped files)) :
    (encoding (.table (DefinitionTable.ofDeferred files)) declaration.2.children).isSome := by
  rw [declarations_withoutSkipped flat] at member
  have kept := (List.mem_filter.mp member).2
  rw [isSkipped, Option.not_isNone] at kept
  exact kept

/-- A definition is skipped exactly if a warning says so. The others give the same table
when they are read without it, against what the first round knew of all of them: there a
skipped definition counts as what it is with its references dropped, if that can be encoded
and no later definition of its name can, and it counts for nothing otherwise. So nothing at
all changes without skipped definitions, as long as no other one refers to a name for which
the first round knew one of them. -/
theorem DefinitionTable.ofFiles_withoutSkipped (flat : FlatDefinitions files) :
    ∃ table,
      DefinitionTable.ofFiles .tolerant files =
          ⟨(declarations files).filterMap
              (skipWarning? (.table (DefinitionTable.ofDeferred files))), .ok table⟩ ∧
        (∀ declaration ∈ declarations files, isSkipped files declaration.2 = true ↔
          (skipWarning? (.table (DefinitionTable.ofDeferred files)) declaration).isSome) ∧
        DefinitionTable.ofKnown .tolerant (DefinitionTable.ofDeferred files)
            (withoutSkipped files) = ⟨[], .ok table⟩ ∧
        (∀ name, (DefinitionTable.ofDeferred files).get? name =
          (lastEncoded? .deferred (declarations files) name).bind fun declaration =>
            encoding .deferred declaration.2.children) ∧
        ((∀ declaration ∈ declarations (withoutSkipped files),
            ∀ name ∈ references declaration.2.children, leavesTrace files name = false) →
          DefinitionTable.ofFiles .tolerant (withoutSkipped files) = ⟨[], .ok table⟩) := by
  refine ⟨_, ofKnown_tolerant _ files, fun _ _ => isSkipped_iff, ?_, get?_ofDeferred_eq files, ?_⟩
  · rw [ofKnown_tolerant, foldl_addDeclared_withoutSkipped flat,
      filterMap_skipWarning?_eq_nil fun declaration => encodes_of_mem_withoutSkipped flat]
  · intro untraced
    have same : ∀ declaration ∈ declarations (withoutSkipped files),
        encoding (.table (DefinitionTable.ofDeferred (withoutSkipped files)))
            declaration.2.children =
          encoding (.table (DefinitionTable.ofDeferred files)) declaration.2.children :=
      fun declaration member => encoding_congr fun name mentioned =>
        get?_ofDeferred_withoutSkipped flat (untraced declaration member name mentioned)
    rw [DefinitionTable.ofFiles, ofKnown_tolerant, ← foldl_addDeclared_withoutSkipped flat,
      filterMap_skipWarning?_eq_nil fun declaration member => by
        rw [same declaration member]
        exact encodes_of_mem_withoutSkipped flat member]
    congr 2
    refine List.foldl_ext _ _ _ fun table declaration member => ?_
    rw [addDeclared_eq, addDeclared_eq, same declaration member]

private def constantOf (value : String) : Element := ⟨"constant", [("value", value)], []⟩

private def referring (name : String) : Element := ⟨"resolve", [("name", name)], []⟩

private def defining (name : String) (children : List Element) : Element :=
  ⟨"define", [("name", name)], children⟩

private def unusedFault : List InterfaceFile :=
  [⟨"i-test.xml", ⟨"interface", [],
    [defining "A" [constantOf "a", referring "nowhere"], defining "B" [referring "C"],
      defining "C" [constantOf "c"]]⟩⟩]

theorem DefinitionTable.ofFiles_withoutSkipped_unused :
    FlatDefinitions unusedFault ∧ leavesTrace unusedFault "A" = true ∧
      (declarations (withoutSkipped unusedFault)).map (·.1.name) = ["B", "C"] ∧
      ∃ table, (DefinitionTable.ofFiles .tolerant unusedFault).result = .ok table ∧
        DefinitionTable.ofFiles .tolerant (withoutSkipped unusedFault) = ⟨[], .ok table⟩ := by
  have flat : FlatDefinitions unusedFault := by decide
  have untraced : ∀ declaration ∈ declarations (withoutSkipped unusedFault),
      ∀ name ∈ references declaration.2.children, leavesTrace unusedFault name = false := by
    decide
  rcases DefinitionTable.ofFiles_withoutSkipped flat with ⟨table, ran, _, _, _, unchanged⟩
  exact ⟨flat, by decide, by decide, table, congrArg Outcome.result ran, unchanged untraced⟩

private def usedFault : List InterfaceFile :=
  [⟨"i-test.xml", ⟨"interface", [],
    [defining "A" [constantOf "a", referring "nowhere"], defining "B" [referring "A"]]⟩⟩]

/-- Without its skipped definitions, a corpus need not have the same table: the second
definition is made of what the first round knew of the first one. -/
theorem DefinitionTable.ofFiles_keeps_skipped_content :
    ¬ ∀ files, FlatDefinitions files →
      (DefinitionTable.ofFiles .tolerant (withoutSkipped files)).result =
        (DefinitionTable.ofFiles .tolerant files).result := by
  intro claim
  have same := claim usedFault (by decide)
  have kept : (DefinitionTable.ofFiles .tolerant usedFault).result.map (·.get? "B") =
      .ok (some [.fragment "a"]) := by decide
  have lost : (DefinitionTable.ofFiles .tolerant (withoutSkipped usedFault)).result.map
      (·.get? "B") = .ok none := by decide
  rw [same, kept] at lost
  cases lost

end CommandReference
