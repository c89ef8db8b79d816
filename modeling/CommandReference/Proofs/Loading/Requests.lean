import CommandReference.Loading
import CommandReference.Proofs.Path
import CommandReference.Proofs.SortedMap
import CommandReference.Proofs.Text.Utf8

namespace CommandReference

/-! What a corpus asks for, whatever the order in which it is loaded. Requests lead to
paths, and what is read there makes more requests. A source that keeps files by the
normal forms of their paths answers alike for all spellings of a path. -/

open Markup (Element)

/-! ## One request -/

def document? (contents : Bytes) : Option Element :=
  match Utf8.decode contents with
  | .ok text => (Markup.parse text).toOption
  | .error _ => none

theorem InterfaceFile.read_eq_ok_iff {source : Source} {path : Path}
    {file : InterfaceFile} :
    InterfaceFile.read source path = .ok file ↔
      ∃ contents root, source.read? path = some contents ∧
        document? contents = some root ∧ file = ⟨path.displayName, root⟩ := by
  rw [InterfaceFile.read]
  cases found : source.read? path with
  | none => simp
  | some contents =>
      simp only [Option.some.injEq, exists_and_left, exists_eq_left', document?]
      cases Utf8.decode contents with
      | error malformation => simp
      | ok text =>
          simp only
          cases Markup.parse text with
          | error reason => simp [Except.toOption]
          | ok root =>
              simp only [Except.toOption, Except.ok.injEq, Option.some.injEq, exists_eq_left']
              exact eq_comm

theorem MemorySource.read_of_text {memory : MemorySource} {path : Path} {text : String}
    {root : Element} (there : memory.get? path.location = some (Utf8.encode text))
    (parsed : Markup.parse text = .ok root) :
    InterfaceFile.read memory.toSource path = .ok ⟨path.displayName, root⟩ := by
  refine InterfaceFile.read_eq_ok_iff.mpr ⟨_, root, there, ?_, rfl⟩
  rw [document?, Utf8.decode_encode]
  simp only [parsed]
  rfl

def inclusionNames (root : Element) : List String :=
  ((root.named "interfacefile").map (·.attributeOrEmpty "filename")).filter (· ≠ "")

def inclusions (path : Path) (root : Element) : List Request :=
  (inclusionNames root).map (.named · path.parent?)

namespace LoaderSettings

def target (settings : LoaderSettings) : Request → Except Failure Path
  | .named name referrer? => locate settings.source settings.search referrer? name
  | .listed path => .ok path

def fetch (settings : LoaderSettings) (request : Request) : Except Failure InterfaceFile :=
  (settings.target request).bind (InterfaceFile.read settings.source)

theorem fetch_eq_ok {settings : LoaderSettings} {request : Request} {path : Path}
    (located : settings.target request = .ok path) :
    settings.fetch request = InterfaceFile.read settings.source path := by
  rw [fetch, located]
  rfl

theorem target_named_eq_ok {settings : LoaderSettings} {name : String}
    {referrer? : Option Path} {path : Path}
    (located : settings.target (.named name referrer?) = .ok path) :
    (∃ directory ∈ settings.search ++ referrer?.toList, path = directory.joinText name) ∧
      settings.source.isFile path = true := by
  rw [target, locate] at located
  split at located
  case h_1 candidate found =>
    cases located
    rcases List.mem_map.mp (List.mem_of_find?_eq_some found) with
      ⟨directory, member, joined⟩
    exact ⟨⟨directory, member, joined.symm⟩, List.find?_some found⟩
  case h_2 => cases located

end LoaderSettings

/-! ## All requests -/

/-- The requests that are made from the first ones on. -/
inductive Asked (settings : LoaderSettings) (first : List Request) : Request → Prop where
  | first {request : Request} (member : request ∈ first) : Asked settings first request
  | included {request : Request} {path : Path} {file : InterfaceFile} {name : String}
      (asked : Asked settings first request)
      (located : settings.target request = .ok path)
      (read : InterfaceFile.read settings.source path = .ok file)
      (member : name ∈ inclusionNames file.root) :
      Asked settings first (.named name path.parent?)

/-- The paths that these requests lead to. -/
def Reached (settings : LoaderSettings) (first : List Request) (path : Path) : Prop :=
  ∃ request, Asked settings first request ∧ settings.target request = .ok path

theorem Asked.inclusion {settings : LoaderSettings} {first : List Request}
    {request other : Request} {path : Path} {file : InterfaceFile}
    (asked : Asked settings first request) (located : settings.target request = .ok path)
    (read : InterfaceFile.read settings.source path = .ok file)
    (member : other ∈ inclusions path file.root) : Asked settings first other := by
  rcases List.mem_map.mp member with ⟨name, named, rfl⟩
  exact .included asked located read named

theorem Reached.isFile_or_listed {settings : LoaderSettings} {first : List Request}
    {path : Path} (reached : Reached settings first path) :
    settings.source.isFile path = true ∨ .listed path ∈ first := by
  rcases reached with ⟨request, asked, located⟩
  cases request with
  | named name referrer? =>
      exact .inl (LoaderSettings.target_named_eq_ok located).2
  | listed other =>
      cases located
      cases asked with
      | first member => exact .inr member

/-! ## Spelling -/

/-- Sources that answer alike for paths that differ in redundant parts. -/
structure Source.IgnoresSpelling (source : Source) : Prop where
  read? {path other : Path} (same : path.components = other.components) :
    source.read? path = source.read? other
  isFile {path other : Path} (same : path.components = other.components) :
    source.isFile path = source.isFile other

theorem MemorySource.ignoresSpelling (memory : MemorySource) :
    memory.toSource.IgnoresSpelling where
  read? same := congrArg memory.get? (Path.location_congr same)
  isFile same := congrArg memory.contains (Path.location_congr same)

/-- What matters about a request: names, and the components of paths. -/
def Request.outline : Request → Option String × Option (List String)
  | .named name referrer? => (some name, referrer?.map Path.components)
  | .listed path => (none, some path.components)

theorem Request.outline_named_parent? {path other : Path}
    (same : path.components = other.components) (name : String) :
    (Request.named name path.parent?).outline = (Request.named name other.parent?).outline :=
  congrArg (some name, ·) (Path.components_parent?_congr same)

def LoaderSettings.place? (settings : LoaderSettings) (request : Request) :
    Option Path.Identity :=
  (settings.target request).toOption.map Path.identity

section
variable {source : Source} (ignores : source.IgnoresSpelling)
include ignores

theorem InterfaceFile.read_congr {path other : Path} {file : InterfaceFile}
    (same : path.components = other.components)
    (read : InterfaceFile.read source path = .ok file) :
    InterfaceFile.read source other = .ok ⟨other.displayName, file.root⟩ := by
  rcases InterfaceFile.read_eq_ok_iff.mp read with ⟨contents, root, found, parsed, rfl⟩
  exact InterfaceFile.read_eq_ok_iff.mpr
    ⟨contents, root, (ignores.read? same).symm.trans found, parsed, rfl⟩

theorem find?_isFile_congr {candidates others : List Path}
    (same : candidates.map Path.components = others.map Path.components) :
    (candidates.find? source.isFile).map Path.components =
      (others.find? source.isFile).map Path.components := by
  induction candidates generalizing others with
  | nil => rw [List.map_eq_nil_iff.mp same.symm]
  | cons candidate rest induction =>
      cases others with
      | nil => cases same
      | cons other others =>
          have heads : candidate.components = other.components := (List.cons.inj same).1
          have later := induction (List.cons.inj same).2
          rw [List.find?_cons, List.find?_cons, ignores.isFile heads]
          cases source.isFile other with
          | true => exact congrArg some heads
          | false => exact later

theorem outline_mem_inclusions {path other : Path}
    (same : path.components = other.components) {file otherFile : InterfaceFile}
    (read : InterfaceFile.read source path = .ok file)
    (otherRead : InterfaceFile.read source other = .ok otherFile)
    {request : Request} (member : request ∈ inclusions path file.root) :
    ∃ found ∈ inclusions other otherFile.root, found.outline = request.outline := by
  cases (InterfaceFile.read_congr ignores same read).symm.trans otherRead
  rcases List.mem_map.mp member with ⟨name, named, rfl⟩
  exact ⟨_, List.mem_map_of_mem named,
    Request.outline_named_parent? same.symm name⟩

end

theorem LoaderSettings.place?_congr {settings : LoaderSettings}
    (ignores : settings.source.IgnoresSpelling) {request other : Request}
    (same : request.outline = other.outline) :
    settings.place? request = settings.place? other := by
  have identities {found others : Option Path}
      (same : found.map Path.components = others.map Path.components) :
      found.map Path.identity = others.map Path.identity := by
    have counted := congrArg (Option.map fun components : List String =>
      (⟨components.length, components⟩ : Path.Identity)) same
    rw [Option.map_map, Option.map_map] at counted
    exact counted
  have located (name : String) (referrer? : Option Path) :
      (settings.target (.named name referrer?)).toOption =
        ((settings.search ++ referrer?.toList).map (·.joinText name)).find?
          settings.source.isFile := by
    rw [target, locate]
    cases ((settings.search ++ referrer?.toList).map (·.joinText name)).find?
      settings.source.isFile <;> rfl
  apply identities
  cases request with
  | listed path =>
      cases other with
      | named name referrer? => cases same
      | listed other => exact (Prod.ext_iff.mp same).2
  | named name referrer? =>
      cases other with
      | listed other => cases same
      | named otherName otherReferrer? =>
          cases Option.some.inj (Prod.ext_iff.mp same).1
          have referrers : referrer?.map Path.components =
              otherReferrer?.map Path.components := (Prod.ext_iff.mp same).2
          rw [located, located]
          apply find?_isFile_congr ignores
          rw [List.map_append, List.map_append, List.map_append, List.map_append]
          congr 1
          cases referrer? with
          | none => cases otherReferrer? <;> trivial
          | some directory =>
              cases otherReferrer? with
              | none => cases referrers
              | some otherDirectory =>
                  have components := Option.some.inj referrers
                  exact congrArg ([·]) (Path.components_joinText_congr components name)

end CommandReference
