import CommandReference.Proofs.Compilation.Invariants
import CommandReference.Proofs.Database.Recovery

namespace CommandReference

/-! What is published of a signature in a compiled reference determines its arguments. Each
way an argument comes into being ties its rendering to its content, and nothing that happens
to it afterwards changes either, so the kind of an argument can be told from its published
form. -/

open Markup (Element)

/-! ## Arguments that tell their kind -/

theorem backslash_append_ne_empty (name : String) : "\\" ++ name ≠ "" := by
  intro empty
  have letters := congrArg String.toList empty
  rw [String.toList_append] at letters
  cases letters

def Item.TellsKind : Item → Prop
  | argument value => value.TellsKind
  | fragment _ | inherit _ | parameter .. => True

theorem passesOn_tellsKind (node : Element) : PassesOn Item.TellsKind node where
  constant _ _ _ := trivial
  keywords _ _ _ argument built := by
    rcases keywordsArgument_eq_ok_iff.mp built with ⟨_, rendering, _, rfl⟩
    exact trivial
  assignments _ _ _ argument built := by
    rcases assignmentsArgument_eq_ok_iff.mp built with ⟨_, rendering, _, rfl⟩
    exact trivial
  parameter _ _ _ item built := by
    rcases parameterItem_eq_ok_iff.mp built with ⟨_, rfl⟩
    exact trivial
  inherit _ := trivial
  delimiter _ := backslash_append_ne_empty _
  placeholder _ _ := rfl

theorem isKept_tellsKind (files : List InterfaceFile) :
    Argument.IsKept files Item.TellsKind Argument.TellsKind where
  passesOn node _ := passesOn_tellsKind node
  argument _ tells := tells
  fragment _ _ := rfl
  body := (by decide : environmentBody ≠ "")
  closing name := backslash_append_ne_empty name
  optional _ tells := tells

/-! ## Signatures in a reference -/

namespace Configuration

theorem compile_tellsKind {configuration : Configuration} {source : Source} {root : Path}
    {steps : Nat} {warnings : List Warning} {database : Database}
    (compiled : configuration.compile source root steps = some ⟨warnings, .ok database⟩) :
    database.EachArgument Argument.TellsKind := by
  rcases compile_eq_ok compiled with ⟨noted, files, loaded, built⟩
  exact Database.ofFiles_eachArgument (isKept_tellsKind files) built

/-- The published form of a signature identifies its arguments, in whatever compiled reference
it stands. They can be read back from it, and two signatures are published alike exactly if
they have the same arguments. -/
theorem compile_identifies_arguments {configuration otherConfiguration : Configuration}
    {source otherSource : Source} {root otherRoot : Path} {steps otherSteps : Nat}
    {warnings otherWarnings : List Warning} {database otherDatabase : Database}
    (compiled : configuration.compile source root steps = some ⟨warnings, .ok database⟩)
    (otherCompiled : otherConfiguration.compile otherSource otherRoot otherSteps =
      some ⟨otherWarnings, .ok otherDatabase⟩)
    {name otherName : String} {entry otherEntry : Entry} {signature other : Signature}
    (found : database.get? name = some entry) (inEntry : signature ∈ entry.signatures)
    (otherFound : otherDatabase.get? otherName = some otherEntry)
    (inOther : other ∈ otherEntry.signatures) :
    Signature.argumentsOfJson? signature.toJson = some signature.arguments ∧
      (signature.toJson = other.toJson ↔ signature.sameArguments other = true) := by
  have read := Signature.argumentsOfJson?_toJson
    (compile_tellsKind compiled name entry found signature inEntry)
  have readOther := Signature.argumentsOfJson?_toJson
    (compile_tellsKind otherCompiled otherName otherEntry otherFound other inOther)
  refine ⟨read, ?_⟩
  rw [Signature.sameArguments, decide_eq_true_eq]
  constructor
  · intro same
    rw [same, readOther] at read
    exact (Option.some.inj read).symm
  · intro same
    rw [Signature.toJson, same, Signature.toJson]

private def contentSource : MemorySource := .ofFiles
  [(.ofText "/c/i-common-definitions.xml", Utf8.encode "<i/>"),
    (.ofText "/c/i-context.xml", Utf8.encode
      ("<i><command name=\"x\" type=\"environment\"><arguments><constant type=\"CONTENT\"/>" ++
        "<content/></arguments></command></i>"))]

private def contentFiles : List InterfaceFile :=
  [⟨"i-common-definitions.xml", ⟨"i", [], []⟩⟩,
    ⟨"i-context.xml", ⟨"i", [], [⟨"command", [("name", "x"), ("type", "environment")],
      [⟨"arguments", [], [⟨"constant", [("type", "CONTENT")], []⟩,
        ⟨"content", [], []⟩]⟩]⟩]⟩⟩]

private theorem load_contentSource :
    default.load contentSource.toSource (.ofText "/c") 1 = some ⟨[], .ok contentFiles⟩ :=
  Outcome.eq_some_of_toOption (by decide +kernel)

private def openingSignature : Signature :=
  ⟨[.constant "CONTENT", .placeholder .content false, .delimiter "...",
    .delimiter "\\stopx"], none⟩

private def closingSignature : Signature := ⟨[], none⟩

private theorem compile_contentSource :
    ∃ database, default.compile contentSource.toSource (.ofText "/c") 1 =
        some ⟨[], .ok database⟩ ∧
      (database.get? "startx").map Entry.signatures = some [openingSignature] ∧
      (database.get? "stopx").map Entry.signatures = some [closingSignature] := by
  rw [compile, load_contentSource]
  exact ⟨_, rfl, by decide +kernel, by decide +kernel⟩

/-- A constant and a placeholder that are published with the same text are told apart, and
the delimiters of the environment are read back with them. -/
theorem compile_identifies_arguments_content :
    ∃ database, default.compile contentSource.toSource (.ofText "/c") 1 =
        some ⟨[], .ok database⟩ ∧
      (database.get? "startx").map Entry.signatures = some [openingSignature] ∧
      (database.get? "stopx").map Entry.signatures = some [closingSignature] ∧
      Signature.argumentsOfJson? openingSignature.toJson = some openingSignature.arguments ∧
      openingSignature.toJson ≠ closingSignature.toJson := by
  rcases compile_contentSource with ⟨database, compiled, ofOpening, ofClosing⟩
  rcases Option.map_eq_some_iff.mp ofOpening with ⟨entry, found, own⟩
  rcases Option.map_eq_some_iff.mp ofClosing with ⟨otherEntry, otherFound, otherOwn⟩
  have inEntry : openingSignature ∈ entry.signatures := by
    rw [own]
    exact List.mem_singleton_self _
  have inOther : closingSignature ∈ otherEntry.signatures := by
    rw [otherOwn]
    exact List.mem_singleton_self _
  rcases compile_identifies_arguments compiled compiled found inEntry otherFound inOther with
    ⟨read, sameIff⟩
  refine ⟨database, compiled, ofOpening, ofClosing, read, fun same => ?_⟩
  exact absurd (sameIff.mp same) (by decide)

end Configuration

end CommandReference
