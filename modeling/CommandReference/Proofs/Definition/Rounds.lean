import CommandReference.Proofs.Definition.Inlining

namespace CommandReference

/-! The two rounds over the definitions of a corpus. When their names differ, the first
round knows a definition exactly if it can be encoded without its references, and the
second round encodes every definition with its references replaced once. -/

open Markup (Element)
open DefinitionTable (declarations declaredItems)

variable {files : List InterfaceFile} {declaration : Scope × Element}

/-! ## Tables -/

def addDeclared (resolution : Resolution) (table : DefinitionTable)
    (declaration : Scope × Element) : DefinitionTable :=
  match declaredItems resolution declaration with
  | .ok items => table.insert declaration.1.name items
  | .error _ => table

theorem get?_addDeclared_ne (resolution : Resolution) (table : DefinitionTable)
    {name : String} (different : name ≠ declaration.1.name) :
    (addDeclared resolution table declaration).get? name = table.get? name := by
  rw [addDeclared]
  split
  · exact table.get?_insert_ne different _
  · rfl

theorem get?_foldl_of_not_mem (resolution : Resolution) (rest : List (Scope × Element))
    (table : DefinitionTable) {name : String}
    (notMember : name ∉ rest.map fun declaration => declaration.1.name) :
    (rest.foldl (addDeclared resolution) table).get? name = table.get? name := by
  induction rest generalizing table with
  | nil => rfl
  | cons declaration rest induction =>
      rw [List.map_cons, List.mem_cons, not_or] at notMember
      rw [List.foldl_cons, induction _ notMember.2, get?_addDeclared_ne _ _ notMember.1]

theorem get?_foldl_addDeclared (resolution : Resolution) {all : List (Scope × Element)}
    (distinct : (all.map fun declaration => declaration.1.name).Nodup)
    (table : DefinitionTable)
    (fresh : ∀ declaration ∈ all, table.get? declaration.1.name = none)
    (member : declaration ∈ all) :
    (all.foldl (addDeclared resolution) table).get? declaration.1.name =
      (declaredItems resolution declaration).toOption := by
  induction all generalizing table with
  | nil => cases member
  | cons first rest induction =>
      rw [List.map_cons, List.nodup_cons] at distinct
      rw [List.foldl_cons]
      rcases List.mem_cons.mp member with rfl | later
      · rw [get?_foldl_of_not_mem resolution rest _ distinct.1, addDeclared]
        split
        case h_1 items encoded =>
          rw [encoded]
          exact table.get?_insert_self declaration.1.name items
        case h_2 failure failed =>
          rw [failed]
          exact fresh declaration List.mem_cons_self
      · refine induction distinct.2 _ (fun other otherMember => ?_) later
        have different : other.1.name ≠ first.1.name := fun equal =>
          distinct.1 (equal ▸ List.mem_map_of_mem otherMember)
        rw [get?_addDeclared_ne _ _ different]
        exact fresh other (List.mem_cons_of_mem first otherMember)

theorem get?_ofDeferred (distinct : DistinctDefinitions files)
    (member : declaration ∈ declarations files) :
    (DefinitionTable.ofDeferred files).get? declaration.1.name =
      encoding .deferred declaration.2.children := by
  have known := get?_foldl_addDeclared .deferred distinct .empty (fun _ _ => rfl) member
  rw [declaredItems, toOption_itemsOfAll] at known
  exact known

theorem foldlM_addDeclared (policy : Policy) (resolution : Resolution)
    {all : List (Scope × Element)}
    (encodes : ∀ declaration ∈ all, ∃ items, declaredItems resolution declaration = .ok items)
    (table : DefinitionTable) :
    all.foldlM
      (fun table declaration =>
        match declaredItems resolution declaration with
        | .ok items => (pure (table.insert declaration.1.name items) : Outcome DefinitionTable)
        | .error failure => do
            policy.handle failure
            return table) table =
      ⟨[], .ok (all.foldl (addDeclared resolution) table)⟩ := by
  induction all generalizing table with
  | nil => rfl
  | cons declaration rest induction =>
      rcases encodes declaration List.mem_cons_self with ⟨items, encoded⟩
      have later := induction
        (fun other member => encodes other (List.mem_cons_of_mem declaration member))
        (table.insert declaration.1.name items)
      rw [List.foldlM_cons, List.foldl_cons, addDeclared]
      simp only [encoded]
      rw [Outcome.bind_ok rfl, later]
      rfl

/-! ## Both rounds -/

theorem encoding_ofDeferred (distinct : DistinctDefinitions files)
    (defined : DefinedReferences files) (resolution : Resolution)
    (member : declaration ∈ declarations files) :
    encoding (.table (DefinitionTable.ofDeferred files)) declaration.2.children =
      encoding resolution (inlinedTo files 1 declaration.2.children) := by
  rw [inlinedTo]
  apply encoding_filledAll
  intro name mentioned
  rcases defined declaration.1.name name ⟨declaration, member, rfl, mentioned⟩ with
    ⟨target, targetMember, rfl⟩
  rw [Resolution.lookup?, get?_ofDeferred distinct targetMember, standIn,
    definitionBody_of_mem distinct targetMember]
  apply encoding_filledAll
  intro _ _
  rfl

/-- Corpora in which every definition can be inlined, and encoded then. -/
structure Resolvable (files : List InterfaceFile) : Prop where
  distinct : DistinctDefinitions files
  defined : DefinedReferences files
  acyclic : AcyclicDefinitions files
  encodes : ∀ declaration ∈ declarations files, ∀ content,
    Inlines files declaration.2.children content →
      ∃ items, itemsOfAll declaration.1 (.table .empty) content = .ok items

theorem Resolvable.encodes_to (resolvable : Resolvable files) (depth : Nat)
    (member : declaration ∈ declarations files) :
    ∃ items, encoding (.table .empty) (inlinedTo files depth declaration.2.children) =
      some items := by
  rcases exists_inlines resolvable.defined resolvable.acyclic member with ⟨content, inlines⟩
  rcases resolvable.encodes declaration member content inlines with ⟨items, encoded⟩
  have whole : encoding (.table .empty) content = some items := by
    rw [← toOption_itemsOfAll declaration.1, encoded]
    rfl
  rcases inlines.within resolvable.distinct (.table .empty) depth items whole with
    ⟨few, found, _⟩
  exact ⟨few, found⟩

/-- A strict run over such a corpus succeeds without a warning, and gives every
definition the items that it has with its references replaced once. These are the items
of its full inlining if the definitions it refers to refer to no others. -/
theorem DefinitionTable.ofFiles_strict (resolvable : Resolvable files) :
    ∃ table, DefinitionTable.ofFiles .strict files = ⟨[], .ok table⟩ ∧
      ∀ declaration ∈ declarations files, ∃ items,
        table.get? declaration.1.name = some items ∧
        itemsOfAll declaration.1 (.table .empty)
          (inlinedTo files 1 declaration.2.children) = .ok items ∧
        ((∀ reference, Refers files declaration.1.name reference →
            ∀ further, ¬ Refers files reference further) →
          ∀ content, Inlines files declaration.2.children content →
            itemsOfAll declaration.1 (.table .empty) content = .ok items) := by
  have distinct := resolvable.distinct
  have encodes : ∀ declaration ∈ declarations files, ∃ items,
      declaredItems (.table (DefinitionTable.ofDeferred files)) declaration = .ok items ∧
        encoding (.table .empty) (inlinedTo files 1 declaration.2.children) = some items := by
    intro declaration member
    rcases resolvable.encodes_to 1 member with ⟨items, encoded⟩
    refine ⟨items, of_toOption_eq_some ?_, encoded⟩
    rw [declaredItems, toOption_itemsOfAll,
      encoding_ofDeferred distinct resolvable.defined (.table .empty) member, encoded]
  refine ⟨_, foldlM_addDeclared .strict _ ?_ .empty, ?_⟩
  · intro declaration member
    rcases encodes declaration member with ⟨items, declared, _⟩
    exact ⟨items, declared⟩
  · intro declaration member
    rcases encodes declaration member with ⟨items, declared, encoded⟩
    have once : itemsOfAll declaration.1 (.table .empty)
        (inlinedTo files 1 declaration.2.children) = .ok items := by
      apply of_toOption_eq_some
      rw [toOption_itemsOfAll, encoded]
    refine ⟨items, ?_, once, ?_⟩
    · rw [get?_foldl_addDeclared _ distinct .empty (fun _ _ => rfl) member, declared]
      rfl
    · intro shallow content inlines
      rw [inlines.eq_inlinedTo_one distinct ?_, once]
      intro name mentioned
      have refers : Refers files declaration.1.name name :=
        ⟨declaration, member, rfl, mentioned⟩
      rcases resolvable.defined _ _ refers with ⟨target, targetMember, rfl⟩
      rw [definitionBody_of_mem distinct targetMember, List.eq_nil_iff_forall_not_mem]
      intro further furtherMentioned
      exact shallow _ refers further ⟨target, targetMember, rfl, furtherMentioned⟩

/-! ## Chains of references -/

private def referenceTo (name : String) : Element := ⟨"resolve", [("name", name)], []⟩

private def someText : Element := ⟨"constant", [("value", "x")], []⟩

private def defineOf (name : String) (child : Element) : Element :=
  ⟨"define", [("name", name)], [child]⟩

private def chainOfThree : List InterfaceFile :=
  [⟨"i-test.xml", ⟨"interface", [],
    [defineOf "A" (referenceTo "B"), defineOf "B" (referenceTo "C"), defineOf "C" someText]⟩⟩]

private theorem mem_chainOfThree :
    declaration ∈ declarations chainOfThree ↔
      declaration = (⟨"i-test.xml", "A"⟩, defineOf "A" (referenceTo "B")) ∨
        declaration = (⟨"i-test.xml", "B"⟩, defineOf "B" (referenceTo "C")) ∨
        declaration = (⟨"i-test.xml", "C"⟩, defineOf "C" someText) := by
  have listed : declarations chainOfThree =
      [(⟨"i-test.xml", "A"⟩, defineOf "A" (referenceTo "B")),
        (⟨"i-test.xml", "B"⟩, defineOf "B" (referenceTo "C")),
        (⟨"i-test.xml", "C"⟩, defineOf "C" someText)] := rfl
  rw [listed]
  simp only [List.mem_cons, List.not_mem_nil, or_false]

private theorem chainOfThree_inlines :
    ∀ declaration ∈ declarations chainOfThree,
      Inlines chainOfThree declaration.2.children [someText] := by
  have third : Inlines chainOfThree [someText] [someText] := .other (by decide) .nil .nil
  have second : Inlines chainOfThree [referenceTo "C"] [someText] :=
    .reference rfl (mem_chainOfThree.mpr (.inr (.inr rfl))) rfl third .nil
  have first : Inlines chainOfThree [referenceTo "B"] [someText] :=
    .reference rfl (mem_chainOfThree.mpr (.inr (.inl rfl))) rfl second .nil
  intro declaration member
  rcases mem_chainOfThree.mp member with rfl | rfl | rfl
  · exact first
  · exact second
  · exact third

private theorem chainOfThree_refers {name reference : String}
    (refers : Refers chainOfThree name reference) :
    name = "A" ∧ reference = "B" ∨ name = "B" ∧ reference = "C" := by
  rcases refers with ⟨declaration, member, named, mentioned⟩
  rcases mem_chainOfThree.mp member with rfl | rfl | rfl
  · exact .inl ⟨named.symm, List.mem_singleton.mp mentioned⟩
  · exact .inr ⟨named.symm, List.mem_singleton.mp mentioned⟩
  · cases mentioned

private theorem chainOfThree_resolvable : Resolvable chainOfThree := by
  refine ⟨by decide, ?_, ?_, ?_⟩
  · intro name reference refers
    rcases chainOfThree_refers refers with ⟨_, rfl⟩ | ⟨_, rfl⟩
    · exact ⟨_, mem_chainOfThree.mpr (.inr (.inl rfl)), rfl⟩
    · exact ⟨_, mem_chainOfThree.mpr (.inr (.inr rfl)), rfl⟩
  · apply acyclicDefinitions_of_rank fun name =>
      if name = "A" then 2 else if name = "B" then 1 else 0
    intro name reference refers
    rcases chainOfThree_refers refers with ⟨rfl, rfl⟩ | ⟨rfl, rfl⟩ <;> decide
  · intro declaration member content inlines
    have same := inlines.unique (by decide) (chainOfThree_inlines declaration member)
    subst same
    exact ⟨[.fragment "x"], rfl⟩

/-- Not every corpus of this kind keeps the content at the end of its chains: the first
of three definitions becomes empty. -/
theorem DefinitionTable.ofFiles_loses_content :
    ¬ ∀ files, Resolvable files →
      ∃ table, DefinitionTable.ofFiles .strict files = ⟨[], .ok table⟩ ∧
        ∀ declaration ∈ declarations files, ∀ content,
          Inlines files declaration.2.children content →
            ∃ items, table.get? declaration.1.name = some items ∧
              itemsOfAll declaration.1 (.table .empty) content = .ok items := by
  intro claim
  rcases claim chainOfThree chainOfThree_resolvable with ⟨table, ran, each⟩
  have member := mem_chainOfThree.mpr (.inl rfl)
  rcases each _ member _ (chainOfThree_inlines _ member) with ⟨items, found, encoded⟩
  have whole : items = [.fragment "x"] := (Except.ok.inj encoded).symm
  have lost : ((DefinitionTable.ofFiles .strict chainOfThree).result.map
      fun table => table.get? "A") = .ok (some []) := by decide
  rw [ran] at lost
  have empty : table.get? "A" = some [] := Except.ok.inj lost
  cases (found.symm.trans empty).symm.trans (congrArg some whole)

theorem DefinitionTable.ofFiles_strict_chain :
    ∃ table, DefinitionTable.ofFiles .strict chainOfThree = ⟨[], .ok table⟩ ∧
      ∀ declaration ∈ declarations chainOfThree, ∃ items,
        table.get? declaration.1.name = some items ∧
        itemsOfAll declaration.1 (.table .empty)
          (inlinedTo chainOfThree 1 declaration.2.children) = .ok items := by
  rcases DefinitionTable.ofFiles_strict chainOfThree_resolvable with ⟨table, ran, each⟩
  refine ⟨table, ran, fun declaration member => ?_⟩
  rcases each declaration member with ⟨items, found, encoded, _⟩
  exact ⟨items, found, encoded⟩

end CommandReference
