import CommandReference.Corpus
import CommandReference.Proofs.Definition.Encoding
import Mathlib.Logic.Relation
import Mathlib.Order.WellFoundedSet

namespace CommandReference

/-! What the two rounds over the definitions of a corpus make of references. A reference
can be replaced by the children of the definition that it names, and again in these. The
two rounds do this once: the references in the children that have been put in stand for
nothing. -/

open Markup (Element)
open DefinitionTable (declarations declaredItems)

/-! ## Trees -/

mutual

theorem children_induction {motive : List Element → Prop} (nil : motive [])
    (cons : ∀ node rest, motive node.children → motive rest → motive (node :: rest)) :
    ∀ node : Element, motive node.children
  | ⟨_, _, children⟩ => elements_induction nil cons children

@[elab_as_elim]
theorem elements_induction {motive : List Element → Prop} (nil : motive [])
    (cons : ∀ node rest, motive node.children → motive rest → motive (node :: rest)) :
    ∀ elements, motive elements
  | [] => nil
  | node :: rest =>
      cons node rest (children_induction nil cons node) (elements_induction nil cons rest)

end

/-! ## Replacing references -/

mutual

/-- The elements that stand in place of an element when its references are replaced. -/
def filled (contents : String → List Element) : Element → List Element
  | ⟨name, attributes, children⟩ =>
      let node : Element := ⟨name, attributes, children⟩
      if name = "resolve" then contents (node.attributeOrEmpty "name")
      else [⟨name, attributes, filledAll contents children⟩]

def filledAll (contents : String → List Element) : List Element → List Element
  | [] => []
  | node :: rest => filled contents node ++ filledAll contents rest

end

def definitionBody (files : List InterfaceFile) (name : String) : List Element :=
  match (declarations files).find? fun declaration => declaration.1.name = name with
  | some declaration => declaration.2.children
  | none => []

/-- What is put in for a reference when references are replaced to the given depth.
Those that are left then are dropped. -/
def standIn (files : List InterfaceFile) : (depth : Nat) → String → List Element
  | 0, _ => []
  | depth + 1, name => filledAll (standIn files depth) (definitionBody files name)

/-- Elements with their references replaced by definitions, the references in these
replaced as well, and so on to the given depth. -/
def inlinedTo (files : List InterfaceFile) (depth : Nat) (elements : List Element) :
    List Element :=
  filledAll (standIn files depth) elements

/-- Elements and the same elements with all references replaced. -/
inductive Inlines (files : List InterfaceFile) : List Element → List Element → Prop
  | nil : Inlines files [] []
  | reference {node : Element} {declaration : Scope × Element}
      {content rest others : List Element} (isReference : node.name = "resolve")
      (member : declaration ∈ declarations files)
      (named : declaration.1.name = node.attributeOrEmpty "name")
      (inlined : Inlines files declaration.2.children content)
      (further : Inlines files rest others) : Inlines files (node :: rest) (content ++ others)
  | other {node : Element} {children rest others : List Element}
      (notReference : node.name ≠ "resolve") (inlined : Inlines files node.children children)
      (further : Inlines files rest others) :
      Inlines files (node :: rest) (⟨node.name, node.attributes, children⟩ :: others)

/-- The names that the references in elements refer to, at any depth. -/
def references (elements : List Element) : List String :=
  (Element.namedAmong "resolve" elements).map (·.attributeOrEmpty "name")

/-- A definition refers to another one. -/
def Refers (files : List InterfaceFile) (name reference : String) : Prop :=
  ∃ declaration ∈ declarations files, declaration.1.name = name ∧
    reference ∈ references declaration.2.children

theorem filledAll_reference (contents : String → List Element) {node : Element}
    (isReference : node.name = "resolve") (rest : List Element) :
    filledAll contents (node :: rest) =
      contents (node.attributeOrEmpty "name") ++ filledAll contents rest := by
  rcases node with ⟨name, attributes, children⟩
  rw [filledAll, filled]
  exact congrArg (· ++ filledAll contents rest) (if_pos isReference)

theorem filledAll_other (contents : String → List Element) {node : Element}
    (notReference : node.name ≠ "resolve") (rest : List Element) :
    filledAll contents (node :: rest) =
      ⟨node.name, node.attributes, filledAll contents node.children⟩ ::
        filledAll contents rest := by
  rcases node with ⟨name, attributes, children⟩
  rw [filledAll, filled]
  exact congrArg (· ++ filledAll contents rest) (if_neg notReference)

theorem mem_references_cons {node : Element} {rest : List Element} {name : String} :
    name ∈ references (node :: rest) ↔
      (node.name = "resolve" ∧ name = node.attributeOrEmpty "name") ∨
        name ∈ references node.children ∨ name ∈ references rest := by
  rcases node with ⟨own, attributes, children⟩
  rw [references, Element.namedAmong, Element.named]
  split
  case isTrue reference =>
    simp [references, reference]
  case isFalse notReference =>
    simp [references, notReference]

/-! ## Encoding what has been replaced -/

/-- The items of elements when failures are of no interest. -/
def encoding (resolution : Resolution) (elements : List Element) : Option (List Item) :=
  (itemsOfAll ⟨"", ""⟩ resolution elements).toOption

def Resolution.lookup? : Resolution → String → Option (List Item)
  | .deferred, _ => some []
  | .table definitions, name => definitions.get? name

theorem toOption_resolvedItems (scope : Scope) (resolution : Resolution) (node : Element) :
    (resolvedItems scope resolution node).toOption =
      resolution.lookup? (node.attributeOrEmpty "name") := by
  cases resolution with
  | deferred => rfl
  | table definitions =>
      simp only [resolvedItems, Resolution.lookup?]
      cases definitions.get? (node.attributeOrEmpty "name") <;> rfl

theorem toOption_itemsOfAll (scope : Scope) (resolution : Resolution)
    (elements : List Element) :
    (itemsOfAll scope resolution elements).toOption = encoding resolution elements := by
  rw [encoding]
  induction elements using elements_induction with
  | nil => rfl
  | cons node rest children later =>
      rw [toOption_itemsOfAll_cons, toOption_itemsOfAll_cons, later]
      by_cases isReference : node.name = "resolve"
      · rw [items_of_reference _ _ isReference, items_of_reference _ _ isReference,
          toOption_resolvedItems, toOption_resolvedItems]
      · rw [items_of_not_reference _ _ isReference, items_of_not_reference _ _ isReference,
          toOption_ownItems scope ⟨"", ""⟩ node children]

theorem encoding_reference (resolution : Resolution) {node : Element}
    (isReference : node.name = "resolve") (rest : List Element) :
    encoding resolution (node :: rest) =
      joined (resolution.lookup? (node.attributeOrEmpty "name"))
        (encoding resolution rest) := by
  rw [encoding, toOption_itemsOfAll_cons, items_of_reference _ _ isReference,
    toOption_resolvedItems, ← encoding]

theorem encoding_other (resolution : Resolution) {node : Element}
    (notReference : node.name ≠ "resolve") (rest : List Element) :
    encoding resolution (node :: rest) =
      joined (ownItems ⟨"", ""⟩ node (itemsOfAll ⟨"", ""⟩ resolution node.children)).toOption
        (encoding resolution rest) := by
  rw [encoding, toOption_itemsOfAll_cons, items_of_not_reference _ _ notReference,
    ← encoding]

theorem encoding_append (resolution : Resolution) (nodes others : List Element) :
    encoding resolution (nodes ++ others) =
      joined (encoding resolution nodes) (encoding resolution others) :=
  toOption_itemsOfAll_append ⟨"", ""⟩ resolution nodes others

/-- References may be replaced by elements that are encoded as what they stand for. -/
theorem encoding_filledAll {first second : Resolution} {contents : String → List Element}
    {elements : List Element}
    (same : ∀ name ∈ references elements,
      first.lookup? name = encoding second (contents name)) :
    encoding first elements = encoding second (filledAll contents elements) := by
  induction elements using elements_induction with
  | nil => rfl
  | cons node rest children later =>
      have sameChildren := children fun name member =>
        same name (mem_references_cons.mpr (.inr (.inl member)))
      have sameRest := later fun name member =>
        same name (mem_references_cons.mpr (.inr (.inr member)))
      by_cases isReference : node.name = "resolve"
      · have here := same (node.attributeOrEmpty "name")
          (mem_references_cons.mpr (.inl ⟨isReference, rfl⟩))
        rw [encoding_reference _ isReference, filledAll_reference _ isReference,
          encoding_append, here, sameRest]
      · have otherwise : (⟨node.name, node.attributes, filledAll contents node.children⟩ :
            Element).name ≠ "resolve" := isReference
        rw [encoding_other _ isReference, filledAll_other _ isReference,
          encoding_other _ otherwise, sameRest,
          toOption_ownItems ⟨"", ""⟩ ⟨"", ""⟩ node sameChildren]
        rfl

/-! ## Full inlining -/

/-- The definitions of a corpus have different names. -/
def DistinctDefinitions (files : List InterfaceFile) : Prop :=
  ((declarations files).map fun declaration => declaration.1.name).Nodup

instance (files : List InterfaceFile) : Decidable (DistinctDefinitions files) :=
  inferInstanceAs (Decidable (List.Nodup _))

variable {files : List InterfaceFile} {declaration : Scope × Element}

theorem declaration_unique (distinct : DistinctDefinitions files)
    {other : Scope × Element} (member : declaration ∈ declarations files)
    (otherMember : other ∈ declarations files)
    (sameName : declaration.1.name = other.1.name) : declaration = other :=
  List.inj_on_of_nodup_map distinct member otherMember sameName

theorem definitionBody_of_mem (distinct : DistinctDefinitions files)
    (member : declaration ∈ declarations files) :
    definitionBody files declaration.1.name = declaration.2.children := by
  rw [definitionBody]
  cases found : (declarations files).find? fun other => other.1.name = declaration.1.name with
  | none =>
      have refused := List.find?_eq_none.mp found declaration member
      exact absurd (decide_eq_true rfl) refused
  | some other =>
      have accepted := List.find?_some (p := fun other : Scope × Element =>
        decide (other.1.name = declaration.1.name)) found
      have sameName := of_decide_eq_true accepted
      rw [declaration_unique distinct (List.mem_of_find?_eq_some found) member sameName]

theorem Inlines.unique (distinct : DistinctDefinitions files)
    {elements content other : List Element} (inlines : Inlines files elements content)
    (inlinesOther : Inlines files elements other) : content = other := by
  induction inlines generalizing other with
  | nil =>
      cases inlinesOther
      rfl
  | reference isReference member named inlined further inlinedSame furtherSame =>
      cases inlinesOther with
      | reference _ otherMember otherNamed otherInlined otherFurther =>
          have same := declaration_unique distinct otherMember member
            (otherNamed.trans named.symm)
          rw [inlinedSame (same ▸ otherInlined), furtherSame otherFurther]
      | other notReference => exact absurd isReference notReference
  | other notReference inlined further inlinedSame furtherSame =>
      cases inlinesOther with
      | reference isReference => exact absurd isReference notReference
      | other _ otherInlined otherFurther =>
          rw [inlinedSame otherInlined, furtherSame otherFurther]

theorem Inlines.within (distinct : DistinctDefinitions files) (resolution : Resolution)
    {elements content : List Element} (inlines : Inlines files elements content)
    (depth : Nat) :
    Within (encoding resolution (inlinedTo files depth elements))
      (encoding resolution content) := by
  induction inlines generalizing depth with
  | nil => exact .refl _
  | @reference node declaration content rest others isReference member named inlined further
      inlinedWithin furtherWithin =>
      rw [inlinedTo, filledAll_reference _ isReference, encoding_append, encoding_append]
      cases depth with
      | zero => exact .joined (.nil _) (furtherWithin 0)
      | succ depth =>
          have body := definitionBody_of_mem distinct member
          rw [named] at body
          rw [standIn, body]
          exact .joined (inlinedWithin depth) (furtherWithin (depth + 1))
  | @other node children rest others notReference inlined further inlinedWithin
      furtherWithin =>
      have filledOtherwise : (⟨node.name, node.attributes,
          filledAll (standIn files depth) node.children⟩ : Element).name ≠ "resolve" :=
        notReference
      have otherwise : (⟨node.name, node.attributes, children⟩ : Element).name ≠ "resolve" :=
        notReference
      rw [inlinedTo, filledAll_other _ notReference, encoding_other _ filledOtherwise,
        encoding_other _ otherwise]
      exact .joined (ownItems_within ⟨"", ""⟩ node (inlinedWithin depth))
        (furtherWithin depth)

/-! ## Depth one -/

theorem references_cons_eq_nil {node : Element} {rest : List Element}
    (none : references (node :: rest) = []) :
    node.name ≠ "resolve" ∧ references node.children = [] ∧ references rest = [] := by
  rw [List.eq_nil_iff_forall_not_mem] at none
  refine ⟨fun isReference => ?_, List.eq_nil_iff_forall_not_mem.mpr fun name member => ?_,
    List.eq_nil_iff_forall_not_mem.mpr fun name member => ?_⟩
  · exact none _ (mem_references_cons.mpr (.inl ⟨isReference, rfl⟩))
  · exact none name (mem_references_cons.mpr (.inr (.inl member)))
  · exact none name (mem_references_cons.mpr (.inr (.inr member)))

theorem filledAll_of_no_references (contents : String → List Element)
    {elements : List Element} (none : references elements = []) :
    filledAll contents elements = elements := by
  induction elements using elements_induction with
  | nil => rfl
  | cons node rest children later =>
      rcases references_cons_eq_nil none with ⟨notReference, noneBelow, noneAfter⟩
      rw [filledAll_other _ notReference, children noneBelow, later noneAfter]
      cases node
      rfl

theorem Inlines.eq_of_no_references {elements content : List Element}
    (inlines : Inlines files elements content) (none : references elements = []) :
    content = elements := by
  induction inlines with
  | nil => rfl
  | reference isReference =>
      exact absurd isReference (references_cons_eq_nil none).1
  | @other node _ _ _ notReference inlined further inlinedSame furtherSame =>
      rcases references_cons_eq_nil none with ⟨_, noneBelow, noneAfter⟩
      rw [inlinedSame noneBelow, furtherSame noneAfter]
      cases node
      rfl

theorem Inlines.eq_inlinedTo_one (distinct : DistinctDefinitions files)
    {elements content : List Element} (inlines : Inlines files elements content)
    (shallow : ∀ name ∈ references elements, references (definitionBody files name) = []) :
    content = inlinedTo files 1 elements := by
  induction inlines with
  | nil => rfl
  | @reference node declaration content rest others isReference member named inlined further
      _ furtherSame =>
      have noneBelow := shallow (node.attributeOrEmpty "name")
        (mem_references_cons.mpr (.inl ⟨isReference, rfl⟩))
      have body := definitionBody_of_mem distinct member
      rw [named] at body
      rw [body] at noneBelow
      have after := furtherSame fun name mentioned =>
        shallow name (mem_references_cons.mpr (.inr (.inr mentioned)))
      rw [inlinedTo, filledAll_reference _ isReference, standIn, body,
        filledAll_of_no_references _ noneBelow, inlined.eq_of_no_references noneBelow, after,
        inlinedTo]
  | other notReference inlined further inlinedSame furtherSame =>
      have below := inlinedSame fun name mentioned =>
        shallow name (mem_references_cons.mpr (.inr (.inl mentioned)))
      have after := furtherSame fun name mentioned =>
        shallow name (mem_references_cons.mpr (.inr (.inr mentioned)))
      rw [below, after, inlinedTo, inlinedTo, inlinedTo, filledAll_other _ notReference]

/-! ## Existence -/

/-- No definition refers to itself, not even through others. -/
def AcyclicDefinitions (files : List InterfaceFile) : Prop :=
  ∀ name, ¬ Relation.TransGen (Refers files) name name

theorem acyclicDefinitions_of_rank (rank : String → Nat)
    (decreases : ∀ name reference, Refers files name reference → rank reference < rank name) :
    AcyclicDefinitions files := by
  have further : ∀ name reference, Relation.TransGen (Refers files) name reference →
      rank reference < rank name := by
    intro name reference leads
    induction leads with
    | single refers => exact decreases _ _ refers
    | tail _ refers induction => exact Nat.lt_trans (decreases _ _ refers) induction
  exact fun name round => Nat.lt_irrefl _ (further name name round)

/-- Every reference in a definition names a definition. -/
def DefinedReferences (files : List InterfaceFile) : Prop :=
  ∀ name reference, Refers files name reference →
    ∃ declaration ∈ declarations files, declaration.1.name = reference

theorem exists_inlines_of_references {elements : List Element}
    (each : ∀ name ∈ references elements, ∃ declaration ∈ declarations files,
      declaration.1.name = name ∧ ∃ content, Inlines files declaration.2.children content) :
    ∃ content, Inlines files elements content := by
  induction elements using elements_induction with
  | nil => exact ⟨[], .nil⟩
  | cons node rest children later =>
      have below := children fun name member =>
        each name (mem_references_cons.mpr (.inr (.inl member)))
      have after := later fun name member =>
        each name (mem_references_cons.mpr (.inr (.inr member)))
      rcases below with ⟨inner, inlined⟩
      rcases after with ⟨others, further⟩
      by_cases isReference : node.name = "resolve"
      · rcases each (node.attributeOrEmpty "name")
          (mem_references_cons.mpr (.inl ⟨isReference, rfl⟩)) with
          ⟨declaration, member, named, content, body⟩
        exact ⟨content ++ others, .reference isReference member named body further⟩
      · exact ⟨_, .other isReference inlined further⟩

theorem wellFounded_refers (defined : DefinedReferences files)
    (acyclic : AcyclicDefinitions files) :
    WellFounded fun reference name => Refers files name reference := by
  let below (reference name : String) : Prop := Relation.TransGen (Refers files) name reference
  have order : IsStrictOrder String below :=
    { irrefl := acyclic
      trans := fun _ _ _ first second => second.trans first }
  let names : Set String :=
    { name | name ∈ (declarations files).map fun declaration => declaration.1.name }
  have finite : names.Finite := List.finite_toSet _
  have founded := Set.wellFoundedOn_iff.mp (finite.wellFoundedOn (r := below))
  refine Subrelation.wf ?_ founded
  intro reference name refers
  rcases defined name reference refers with ⟨target, targetMember, targetNamed⟩
  rcases refers with ⟨declaration, member, named, mentioned⟩
  refine ⟨.single ⟨declaration, member, named, mentioned⟩, ?_, ?_⟩
  · exact List.mem_map.mpr ⟨target, targetMember, targetNamed⟩
  · exact List.mem_map.mpr ⟨declaration, member, named⟩

theorem exists_inlines (defined : DefinedReferences files)
    (acyclic : AcyclicDefinitions files) (member : declaration ∈ declarations files) :
    ∃ content, Inlines files declaration.2.children content := by
  generalize named : declaration.1.name = name
  induction name using (wellFounded_refers defined acyclic).induction generalizing declaration with
  | h name induction =>
      apply exists_inlines_of_references
      intro reference mentioned
      have refers : Refers files name reference := ⟨declaration, member, named, mentioned⟩
      rcases defined name reference refers with ⟨target, targetMember, targetNamed⟩
      exact ⟨target, targetMember, targetNamed,
        induction reference refers targetMember targetNamed⟩

end CommandReference
