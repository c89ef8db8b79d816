import CommandReference.Proofs.Compilation.Invariants
import CommandReference.Proofs.Definition.Texts

namespace CommandReference

/-! The texts that a compiled reference documents. Whatever way a text takes from the corpus
into an entry, it is as it was when it was encoded: commands hand out their arguments as they
are, and entries drop and sort signatures and make arguments optional. So a text is safe
within markup unless it shows a delimiter or a placeholder that stands in a list. -/

open Markup (Element IsSafe)

/-! ## Content in a reference -/

def Signature.EachContent (kind : Content → Prop) (signature : Signature) : Prop :=
  ∀ argument ∈ signature.arguments, kind argument.content

def Entry.EachContent (kind : Content → Prop) (entry : Entry) : Prop :=
  ∀ signature ∈ entry.signatures, signature.EachContent kind

namespace Database

def EachContent (kind : Content → Prop) (database : Database) : Prop :=
  ∀ name entry, database.get? name = some entry → entry.EachContent kind

variable {kind other : Content → Prop} {database : Database}

theorem EachContent.imp (each : database.EachContent kind)
    (implies : ∀ content, kind content → other content) : database.EachContent other :=
  fun name entry found signature inEntry argument inSignature =>
    implies _ (each name entry found signature inEntry argument inSignature)

end Database

theorem isKept_isDrawnFrom (files : List InterfaceFile) :
    Argument.IsKept files (Item.IsDrawnFrom (InterfaceFile.roots files))
      fun argument => argument.content.IsDrawnFrom (InterfaceFile.roots files) where
  passesOn _ inside := passesOn_isDrawnFrom inside
  argument _ drawn := drawn.content
  fragment _ drawn := drawn.constant
  body := .delimiter _
  closing _ := .delimiter _
  optional _ drawn := drawn

/-! ## References -/

theorem Database.ofFiles_isDrawnFrom {configuration : Configuration}
    {files : List InterfaceFile} {database : Database}
    (built : (ofFiles configuration files).result = .ok database) :
    database.EachContent (Content.IsDrawnFrom (InterfaceFile.roots files)) :=
  ofFiles_eachArgument (isKept_isDrawnFrom files) built

theorem isSafe_rendering {kind : Placeholder} (other : kind ≠ .angles) :
    IsSafe kind.rendering.toList := by
  refine .of_harmless ?_
  cases kind with
  | angles => exact absurd rfl other
  | _ => decide

theorem of_shownAmong_roots {files : List InterfaceFile} {text : String}
    (shown : ShownAmong (InterfaceFile.roots files) text) :
    IsDocumented text ∨
      (text = Placeholder.angles.rendering ∧ InterfaceFile.elementsNamed files "angles" ≠ []) ∨
        ∃ located ∈ InterfaceFile.elementsNamed files "delimiter",
          text = "\\" ++ located.2.attributeOrEmpty "name" := by
  cases shown with
  | delimiter member =>
      rw [InterfaceFile.namedAmong_roots] at member
      rcases List.mem_map.mp member with ⟨located, inFiles, rfl⟩
      exact .inr (.inr ⟨located, inFiles, rfl⟩)
  | placeholder kind member =>
      by_cases angles : kind = .angles
      · subst angles
        rw [InterfaceFile.namedAmong_roots] at member
        rcases List.mem_map.mp member with ⟨located, inFiles, _⟩
        exact .inr (.inl ⟨rfl, List.ne_nil_of_mem inFiles⟩)
      · exact .inl (.inl (isSafe_rendering angles))

namespace Configuration

/-- Texts that a compiled reference documents are safe within markup, possibly underlined,
except for those of lists that show a delimiter or angle brackets: the brackets and the name
of the delimiter come into the list unescaped. -/
theorem compile_documents_texts {configuration : Configuration} {source : Source}
    {root : Path} {steps : Nat} {warnings : List Warning} {database : Database}
    (compiled : configuration.compile source root steps = some ⟨warnings, .ok database⟩) :
    ∃ noted files, configuration.load source root steps = some ⟨noted, .ok files⟩ ∧
      (database.EachContent fun content =>
        (∀ text, content = .constant text → IsDocumented text) ∧
          ∀ text ∈ content.texts, IsDocumented text ∨
            (text = Placeholder.angles.rendering ∧
              InterfaceFile.elementsNamed files "angles" ≠ []) ∨
            ∃ located ∈ InterfaceFile.elementsNamed files "delimiter",
              text = "\\" ++ located.2.attributeOrEmpty "name") ∧
      (InterfaceFile.elementsNamed files "angles" = [] →
        (∀ located ∈ InterfaceFile.elementsNamed files "delimiter",
          IsSafe (located.2.attributeOrEmpty "name").toList) →
        database.EachContent fun content => ∀ text ∈ content.texts, IsDocumented text) := by
  rcases compile_eq_ok compiled with ⟨noted, files, loaded, built⟩
  have drawn := Database.ofFiles_isDrawnFrom built
  refine ⟨noted, files, loaded, drawn.imp fun content fromFiles => ?_, ?_⟩
  · refine ⟨fromFiles.constant, fun text member => ?_⟩
    rcases fromFiles.texts text member with safe | shown
    · exact .inl safe
    · exact of_shownAmong_roots shown
  · refine fun noAngles safeNames => drawn.imp fun content fromFiles text member => ?_
    rcases fromFiles.texts text member with safe | shown
    · exact safe
    · rcases of_shownAmong_roots shown with safe | ⟨_, angles⟩ | ⟨located, inFiles, rfl⟩
      · exact safe
      · exact absurd noAngles angles
      · exact .inl (isSafe_append (.of_harmless (by decide)) (safeNames located inFiles))

private def rangeSource : MemorySource := .ofFiles
  [(.ofText "/c/i-common-definitions.xml", Utf8.encode "<i/>"),
    (.ofText "/c/i-context.xml", Utf8.encode
      ("<i><command name=\"x\"><arguments><keywords><constant type=\"p&lt;q\"/>" ++
        "<delimiter name=\"a&lt;b\"/></keywords></arguments></command></i>"))]

private def rangeFiles : List InterfaceFile :=
  [⟨"i-common-definitions.xml", ⟨"i", [], []⟩⟩,
    ⟨"i-context.xml", ⟨"i", [], [⟨"command", [("name", "x")],
      [⟨"arguments", [], [⟨"keywords", [], [⟨"constant", [("type", "p<q")], []⟩,
        ⟨"delimiter", [("name", "a<b")], []⟩]⟩]⟩]⟩]⟩⟩]

private theorem load_rangeSource :
    default.load rangeSource.toSource (.ofText "/c") 1 = some ⟨[], .ok rangeFiles⟩ :=
  Outcome.eq_some_of_toOption (by decide +kernel)

private def rangeKeywords : Argument :=
  ⟨.keywords ["p&lt;q", "\\a<b"], "[...]", [], false⟩

private theorem compile_rangeSource :
    ∃ database, default.compile rangeSource.toSource (.ofText "/c") 1 =
        some ⟨[], .ok database⟩ ∧
      (database.get? "x").map Entry.signatures = some [⟨[rangeKeywords], none⟩] := by
  rw [compile, load_rangeSource]
  exact ⟨_, rfl, by decide +kernel⟩

theorem compile_documents_texts_delimiter :
    ∃ database, default.compile rangeSource.toSource (.ofText "/c") 1 =
        some ⟨[], .ok database⟩ ∧
      database.EachContent fun content => ∀ text ∈ content.texts,
        IsDocumented text ∨ text = "\\a<b" := by
  rcases compile_rangeSource with ⟨database, compiled, _⟩
  rcases compile_documents_texts compiled with ⟨noted, files, loaded, each, _⟩
  cases load_rangeSource.symm.trans loaded
  have delimiters : InterfaceFile.elementsNamed rangeFiles "delimiter" =
      [("i-context.xml", ⟨"delimiter", [("name", "a<b")], []⟩)] := by decide
  refine ⟨database, compiled, each.imp fun content texts text member => ?_⟩
  rcases texts.2 text member with safe | ⟨_, angles⟩ | ⟨located, inFiles, rfl⟩
  · exact .inl safe
  · exact absurd (by decide) angles
  · rw [delimiters] at inFiles
    cases List.mem_singleton.mp inFiles
    exact .inr rfl

/-- The name of a delimiter can begin a tag in a list. -/
theorem compile_documents_markup :
    ¬ ∀ (configuration : Configuration) (source : Source) (root : Path) (steps : Nat)
      (warnings : List Warning) (database : Database),
      configuration.compile source root steps = some ⟨warnings, .ok database⟩ →
        database.EachContent fun content => ∀ text ∈ content.texts, IsDocumented text := by
  intro claim
  rcases compile_rangeSource with ⟨database, compiled, signatures⟩
  rcases Option.map_eq_some_iff.mp signatures with ⟨entry, found, only⟩
  have listed : (⟨[rangeKeywords], none⟩ : Signature) ∈ entry.signatures := by
    rw [only]
    exact List.mem_singleton_self _
  have texts := claim _ _ _ _ _ _ compiled "x" entry found _ listed rangeKeywords
    (List.mem_singleton_self _)
  rcases texts "\\a<b" (by decide) with safe | ⟨inner, same, _⟩
  · exact (safe.unmarked '<' (by decide)).1 rfl
  · have starts := congrArg (fun text : String => text.toList.head?) same
    simp only [String.toList_append] at starts
    cases starts

end Configuration

end CommandReference
