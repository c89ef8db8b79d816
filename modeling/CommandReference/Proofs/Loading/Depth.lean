import CommandReference.Proofs.Loading.Spellings

namespace CommandReference

/-! In which order files are loaded. All requests wait in one queue, so the order is that
of rounds: what takes fewer inclusions to reach comes first, and only among files that take
as many inclusions, those to which the common file or the manifest leads come before those
of modules. -/

open Markup (Element)

/-! ## Depth -/

/-- The requests that are made by that many inclusions from the first ones on. -/
inductive AskedAfter (settings : LoaderSettings) (first : List Request) :
    Nat → Request → Prop where
  | first {request : Request} (member : request ∈ first) : AskedAfter settings first 0 request
  | included {depth : Nat} {request : Request} {path : Path} {file : InterfaceFile}
      {name : String} (asked : AskedAfter settings first depth request)
      (located : settings.target request = .ok path)
      (read : InterfaceFile.read settings.source path = .ok file)
      (member : name ∈ inclusionNames file.root) :
      AskedAfter settings first (depth + 1) (.named name path.parent?)

def ReachedAfter (settings : LoaderSettings) (first : List Request) (depth : Nat)
    (path : Path) : Prop :=
  ∃ request target, AskedAfter settings first depth request ∧
    settings.target request = .ok target ∧ target.components = path.components

theorem AskedAfter.asked {settings : LoaderSettings} {group first : List Request}
    {depth : Nat} {request : Request} (subset : group ⊆ first)
    (asked : AskedAfter settings group depth request) : Asked settings first request := by
  induction asked with
  | first member => exact .first (subset member)
  | included _ located read member induction => exact .included induction located read member

/-! ## Turns -/

/-- Where a chain of inclusions starts: with the common file and the manifest, or with the
files of modules. -/
inductive Origin where
  | core
  | modules
  deriving DecidableEq, Repr

/-- The turn of what is that many inclusions away. In each round the core comes first. -/
def Origin.turn : Origin → Nat → Nat
  | core, depth => 2 * depth
  | modules, depth => 2 * depth + 1

theorem Origin.turn_succ (origin : Origin) (depth : Nat) :
    origin.turn (depth + 1) = origin.turn depth + 2 := by
  cases origin <;> rfl

def ReachedBy (settings : LoaderSettings) (start : Origin → List Request) (turn : Nat)
    (path : Path) : Prop :=
  ∃ origin depth, origin.turn depth ≤ turn ∧ ReachedAfter settings (start origin) depth path

theorem ReachedBy.mono {settings : LoaderSettings} {start : Origin → List Request}
    {turn later : Nat} {path : Path} (reached : ReachedBy settings start turn path)
    (le : turn ≤ later) : ReachedBy settings start later path := by
  rcases reached with ⟨origin, depth, early, reached⟩
  exact ⟨origin, depth, Nat.le_trans early le, reached⟩

namespace Loader

/-! ## The queue -/

/-- A request in the queue, with the chain of inclusions that has led to it. -/
structure Scheduled where
  request : Request
  origin : Origin
  depth : Nat

def Scheduled.turn (entry : Scheduled) : Nat := entry.origin.turn entry.depth

/-- A request is settled, or one like it has its turn by then. -/
def DueBy (settings : LoaderSettings) (visited : List Path.Identity)
    (schedule : List Scheduled) (turn : Nat) (request : Request) : Prop :=
  Settled settings visited request ∨
    ∃ entry ∈ schedule, entry.turn ≤ turn ∧ entry.request.outline = request.outline

/-- States of loading in which the queue is in the order of turns and never more than one
round long, and in which all that has been asked for is due by its turn. -/
structure OnSchedule (settings : LoaderSettings) (start : Origin → List Request)
    (loader : Loader) (schedule : List Scheduled) : Prop where
  queue : schedule.map Scheduled.request = loader.queue
  asked : ∀ entry ∈ schedule,
    AskedAfter settings (start entry.origin) entry.depth entry.request
  spread : schedule.Pairwise fun earlier later =>
    earlier.turn ≤ later.turn ∧ later.turn ≤ earlier.turn + 2
  started : ∀ origin, ∀ request ∈ start origin,
    DueBy settings loader.visited schedule (origin.turn 0) request
  included : ∀ path file, path.identity ∈ loader.visited →
    InterfaceFile.read settings.source path = .ok file →
      ∀ turn, ReachedBy settings start turn path → ∀ request ∈ inclusions path file.root,
        DueBy settings loader.visited schedule (turn + 2) request

section
variable {settings : LoaderSettings} {start : Origin → List Request} {loader next : Loader}
  {schedule rest added : List Scheduled} {head : Scheduled} {request : Request}
  {visited : List Path.Identity} {path common : Path} {paths : List Path} {turn : Nat}

theorem DueBy.settled (due : DueBy settings visited schedule turn request)
    (past : ∀ entry ∈ schedule, turn < entry.turn) : Settled settings visited request := by
  rcases due with settled | ⟨entry, member, early, _⟩
  · exact settled
  · exact absurd early (Nat.not_le_of_gt (past entry member))

theorem DueBy.advance (due : DueBy settings visited (head :: rest) turn request)
    (ignores : settings.source.IgnoresSpelling) {more : List Path.Identity}
    (grown : visited ⊆ more) (done : Settled settings more head.request) :
    DueBy settings more (rest ++ added) turn request := by
  rcases due with settled | ⟨entry, member, early, same⟩
  · exact .inl (settled.mono grown)
  · rcases List.mem_cons.mp member with rfl | waiting
    · exact .inl (done.congr ignores same)
    · exact .inr ⟨entry, List.mem_append_left added waiting, early, same⟩

theorem OnSchedule.settled (on : OnSchedule settings start loader schedule) {origin : Origin}
    {depth : Nat} (asked : AskedAfter settings (start origin) depth request)
    (past : ∀ entry ∈ schedule, origin.turn depth < entry.turn) :
    Settled settings loader.visited request := by
  -- Along the chain of inclusions, each file has been visited because its turn has passed, and
  -- so what it includes is due.
  induction asked with
  | first member => exact (on.started origin _ member).settled past
  | @included depth request path file name asked located read member induction =>
      rw [Origin.turn_succ] at past
      have earlier : ∀ entry ∈ schedule, origin.turn depth < entry.turn := by
        intro entry entryMember
        have later := past entry entryMember
        omega
      have known := (settled_iff_of_located located).mp (induction earlier)
      have reached : ReachedBy settings start (origin.turn depth) path :=
        ⟨origin, depth, Nat.le_refl _, request, path, asked, located, rfl⟩
      exact (on.included path file known read _ reached _ (List.mem_map_of_mem member)).settled
        past

theorem OnSchedule.turn_le (on : OnSchedule settings start loader (head :: rest))
    (new : path.identity ∉ loader.visited) (reached : ReachedBy settings start turn path) :
    head.turn ≤ turn := by
  by_contra past
  rcases reached with ⟨origin, depth, early, request, target, asked, located, same⟩
  have settled : Settled settings loader.visited request := by
    apply on.settled asked
    intro entry member
    have first : head.turn ≤ entry.turn := by
      rcases List.mem_cons.mp member with rfl | waiting
      · exact Nat.le_refl _
      · exact ((List.pairwise_cons.mp on.spread).1 entry waiting).1
    omega
  have known := (settled_iff_of_located located).mp settled
  rw [Path.identity_eq_iff.mpr same] at known
  exact new known

theorem OnSchedule.proceed (on : OnSchedule settings start loader (head :: rest))
    (ignores : settings.source.IgnoresSpelling)
    (queue : (rest ++ added).map Scheduled.request = next.queue)
    (grown : loader.visited ⊆ next.visited)
    (done : Settled settings next.visited head.request)
    (asked : ∀ entry ∈ added,
      AskedAfter settings (start entry.origin) entry.depth entry.request)
    (round : ∀ entry ∈ added, entry.turn = head.turn + 2)
    (included : ∀ path file, path.identity ∈ next.visited →
      InterfaceFile.read settings.source path = .ok file → path.identity ∉ loader.visited →
        ∀ request ∈ inclusions path file.root,
          ∃ entry ∈ added, entry.request.outline = request.outline) :
    OnSchedule settings start next (rest ++ added) := by
  rcases List.pairwise_cons.mp on.spread with ⟨first, spread⟩
  refine ⟨queue, ?_, ?_, ?_, ?_⟩
  · intro entry member
    rcases List.mem_append.mp member with waiting | new
    · exact on.asked entry (List.mem_cons_of_mem head waiting)
    · exact asked entry new
  · refine List.pairwise_append.mpr ⟨spread, ?_, ?_⟩
    · refine List.pairwise_of_forall_mem_list fun earlier member later laterMember => ?_
      have same := (round earlier member).trans (round later laterMember).symm
      omega
    · intro earlier member later laterMember
      have bounds := first earlier member
      have after := round later laterMember
      omega
  · intro origin request member
    exact (on.started origin request member).advance ignores grown done
  · intro path file known read turn reached request member
    by_cases before : path.identity ∈ loader.visited
    · exact (on.included path file before read turn reached request member).advance ignores
        grown done
    · rcases included path file known read before request member with ⟨entry, new, same⟩
      have early := on.turn_le before reached
      have after := round entry new
      exact .inr ⟨entry, List.mem_append_right rest new, by omega, same⟩

/-! ## Files in the order of turns -/

/-- Files of which each but the common one has been loaded no later than the others that
are reached by the same turn. -/
structure LoadedInTurn (settings : LoaderSettings) (start : Origin → List Request)
    (loader : Loader) (schedule : List Scheduled) (common : Path) (paths : List Path) :
    Prop where
  loaded : LoadedFrom settings loader (common :: paths)
  reached : ∀ path ∈ paths, ∃ turn, ReachedBy settings start turn path
  begun : ∀ path ∈ paths, ∀ entry ∈ schedule, ReachedBy settings start entry.turn path
  ordered : paths.Pairwise fun earlier later =>
    ∀ turn, ReachedBy settings start turn later → ReachedBy settings start turn earlier

theorem LoadedInTurn.proceed
    (inTurn : LoadedInTurn settings start loader (head :: rest) common paths)
    (loaded : LoadedFrom settings next (common :: paths))
    (round : ∀ entry ∈ added, entry.turn = head.turn + 2) :
    LoadedInTurn settings start next (rest ++ added) common paths := by
  refine ⟨loaded, inTurn.reached, ?_, inTurn.ordered⟩
  intro path member entry entryMember
  rcases List.mem_append.mp entryMember with waiting | new
  · exact inTurn.begun path member entry (List.mem_cons_of_mem head waiting)
  · have after := round entry new
    exact (inTurn.begun path member head List.mem_cons_self).mono (by omega)

theorem LoadedInTurn.concat
    (inTurn : LoadedInTurn settings start loader (head :: rest) common paths)
    (on : OnSchedule settings start loader (head :: rest))
    (located : settings.target head.request = .ok path)
    (new : path.identity ∉ loader.visited)
    (loaded : LoadedFrom settings next (common :: (paths ++ [path])))
    (round : ∀ entry ∈ added, entry.turn = head.turn + 2) :
    LoadedInTurn settings start next (rest ++ added) common (paths ++ [path]) := by
  have own : ReachedBy settings start head.turn path :=
    ⟨head.origin, head.depth, Nat.le_refl _, head.request, path,
      on.asked head List.mem_cons_self, located, rfl⟩
  refine ⟨loaded, ?_, ?_, ?_⟩
  · exact List.forall_mem_append.mpr
      ⟨inTurn.reached, List.forall_mem_singleton.mpr ⟨head.turn, own⟩⟩
  · intro other member entry entryMember
    have begun : ReachedBy settings start head.turn other := by
      rcases List.mem_append.mp member with earlier | newest
      · exact inTurn.begun other earlier head List.mem_cons_self
      · exact List.mem_singleton.mp newest ▸ own
    refine begun.mono ?_
    rcases List.mem_append.mp entryMember with waiting | added
    · exact ((List.pairwise_cons.mp on.spread).1 entry waiting).1
    · have after := round entry added
      omega
  · -- No turn before this one leads to the new path, and all others have begun by now.
    refine List.pairwise_append.mpr ⟨inTurn.ordered, List.pairwise_singleton _ _, ?_⟩
    intro earlier member later newest turn reached
    rw [List.mem_singleton.mp newest] at reached
    exact (inTurn.begun earlier member head List.mem_cons_self).mono (on.turn_le new reached)

def Scheduled.inclusions (entry : Scheduled) (path : Path) (root : Element) :
    List Scheduled :=
  (CommandReference.inclusions path root).map (⟨·, entry.origin, entry.depth + 1⟩)

theorem Scheduled.turn_of_mem_inclusions {entry inclusion : Scheduled} {root : Element}
    (member : inclusion ∈ entry.inclusions path root) : inclusion.turn = entry.turn + 2 := by
  rcases List.mem_map.mp member with ⟨request, _, rfl⟩
  exact entry.origin.turn_succ entry.depth

theorem OnSchedule.advance (on : OnSchedule settings start loader schedule)
    (inTurn : LoadedInTurn settings start loader schedule common paths)
    (ignores : settings.source.IgnoresSpelling) (advance : Advance settings loader next) :
    ∃ later more, OnSchedule settings start next later ∧
      LoadedInTurn settings start next later common (paths ++ more) := by
  rcases loader with ⟨queue, visited, files⟩
  cases queue with
  | nil => cases advance
  | cons request queue =>
      rcases List.map_eq_cons_iff.mp on.queue with ⟨head, rest, rfl, rfl, rfl⟩
      have done := advance.settled
      have grown := advance.visited_subset
      have nothing : ∀ entry ∈ ([] : List Scheduled), entry.turn = head.turn + 2 :=
        List.forall_mem_nil _
      cases advance with
      | unlocated | repeated =>
          refine ⟨rest ++ [], [], on.proceed ignores ?_ grown done (List.forall_mem_nil _) nothing
            ?_, ?_⟩
          · rw [List.append_nil]
          · intro path file known _ new
            exact absurd known new
          · rw [List.append_nil paths]
            exact inTurn.proceed inTurn.loaded.requeue nothing
      | unreadable located new failed =>
          refine ⟨rest ++ [], [], on.proceed ignores ?_ grown done (List.forall_mem_nil _) nothing
            ?_, ?_⟩
          · rw [List.append_nil]
          · intro path file known read unknown
            rcases List.mem_cons.mp known with newest | earlier
            · have again := InterfaceFile.read_congr ignores (Path.identity_eq_iff.mp newest) read
              cases failed.symm.trans again
            · exact absurd earlier unknown
          · rw [List.append_nil paths]
            exact inTurn.proceed (inTurn.loaded.unread ignores failed).requeue nothing
      | @loaded _ _ _ _ path file located new read =>
          have round (entry : Scheduled) (member : entry ∈ head.inclusions path file.root) :=
            Scheduled.turn_of_mem_inclusions member
          refine ⟨rest ++ head.inclusions path file.root, [path],
            on.proceed ignores ?_ grown done ?_ round ?_,
            inTurn.concat on located new (inTurn.loaded.concat new read).requeue round⟩
          · rw [List.map_append, Scheduled.inclusions, List.map_map]
            exact congrArg (_ ++ ·) (List.map_id _)
          · intro entry member
            rcases List.mem_map.mp member with ⟨request, included, rfl⟩
            rcases List.mem_map.mp included with ⟨name, named, rfl⟩
            exact .included (on.asked head List.mem_cons_self) located read named
          · intro other otherFile known otherRead unknown request member
            rcases List.mem_cons.mp known with newest | earlier
            · rcases outline_mem_inclusions ignores (Path.identity_eq_iff.mp newest) otherRead
                read member with ⟨found, included, same⟩
              exact ⟨_, List.mem_map_of_mem included, same⟩
            · exact absurd earlier unknown

theorem OnSchedule.advances (on : OnSchedule settings start loader schedule)
    (inTurn : LoadedInTurn settings start loader schedule common paths)
    (ignores : settings.source.IgnoresSpelling)
    (advances : Relation.ReflTransGen (Advance settings) loader next) :
    ∃ later more, OnSchedule settings start next later ∧
      LoadedInTurn settings start next later common (paths ++ more) := by
  induction advances with
  | refl =>
      refine ⟨schedule, [], on, ?_⟩
      rw [List.append_nil]
      exact inTurn
  | tail _ advance induction =>
      rcases induction with ⟨between, more, on, inTurn⟩
      rcases on.advance inTurn ignores advance with ⟨later, last, on, inTurn⟩
      refine ⟨later, more ++ last, on, ?_⟩
      rw [← List.append_assoc]
      exact inTurn

end

/-! ## The first requests -/

def firstSchedule (start : Origin → List Request) : List Scheduled :=
  (start .core).map (⟨·, .core, 0⟩) ++ (start .modules).map (⟨·, .modules, 0⟩)

theorem mem_firstSchedule {start : Origin → List Request} {entry : Scheduled} :
    entry ∈ firstSchedule start ↔ entry.depth = 0 ∧ entry.request ∈ start entry.origin := by
  rw [firstSchedule, List.mem_append, List.mem_map, List.mem_map]
  constructor
  · rintro (⟨request, member, rfl⟩ | ⟨request, member, rfl⟩)
    · exact ⟨rfl, member⟩
    · exact ⟨rfl, member⟩
  · rcases entry with ⟨request, origin, depth⟩
    rintro ⟨rfl, member⟩
    cases origin with
    | core => exact .inl ⟨request, member, rfl⟩
    | modules => exact .inr ⟨request, member, rfl⟩

/-- The common file need not wait for its turn: what it includes is among the first
requests. -/
theorem onSchedule_firstSchedule {settings : LoaderSettings} {start : Origin → List Request}
    (ignores : settings.source.IgnoresSpelling) {common : Path} {file : InterfaceFile}
    (read : InterfaceFile.read settings.source common = .ok file)
    (among : inclusions common file.root ⊆ start .core) :
    OnSchedule settings start ⟨start .core ++ start .modules, [common.identity], [file]⟩
      (firstSchedule start) := by
  have turns (entry : Scheduled) (member : entry ∈ firstSchedule start) : entry.turn ≤ 1 := by
    rw [Scheduled.turn, (mem_firstSchedule.mp member).1]
    cases entry.origin <;> decide
  refine ⟨?_, ?_, ?_, ?_, ?_⟩
  · rw [firstSchedule, List.map_append, List.map_map, List.map_map]
    exact congrArg₂ _ (List.map_id _) (List.map_id _)
  · intro entry member
    rcases mem_firstSchedule.mp member with ⟨same, first⟩
    rw [same]
    exact .first first
  · have together {entry later : Scheduled} (first : entry.turn ≤ later.turn)
        (second : later.turn ≤ 1) :
        entry.turn ≤ later.turn ∧ later.turn ≤ entry.turn + 2 := ⟨first, by omega⟩
    refine List.pairwise_append.mpr ⟨List.pairwise_map.mpr ?_, List.pairwise_map.mpr ?_, ?_⟩
    · exact List.pairwise_of_forall fun _ _ => together (Nat.le_refl _) (Nat.zero_le _)
    · exact List.pairwise_of_forall fun _ _ => together (Nat.le_refl _) (Nat.le_refl _)
    · rintro entry member later laterMember
      rcases List.mem_map.mp member with ⟨_, _, rfl⟩
      exact together (Nat.zero_le _) (turns later (List.mem_append_right _ laterMember))
  · intro origin request member
    exact .inr ⟨⟨request, origin, 0⟩, mem_firstSchedule.mpr ⟨rfl, member⟩, Nat.le_refl _, rfl⟩
  · intro path other known otherRead turn _ request member
    have same := Path.identity_eq_iff.mp (List.mem_singleton.mp known)
    rcases outline_mem_inclusions ignores same otherRead read member with
      ⟨found, included, alike⟩
    exact .inr ⟨⟨found, .core, 0⟩, mem_firstSchedule.mpr ⟨rfl, among included⟩,
      Nat.zero_le _, alike⟩

end Loader

/-! ## Loading a corpus -/

/-- Files that have been loaded in the order of turns, after the common one. -/
structure LoadedByDepth (settings : LoaderSettings) (start : Origin → List Request)
    (common : Path) (paths : List Path) (files : List InterfaceFile) : Prop where
  readFrom : ReadFrom settings.source (common :: paths) files
  distinct : ((common :: paths).map Path.components).Nodup
  reached : ∀ path ∈ paths, ∃ turn, ReachedBy settings start turn path
  complete : ∀ turn path, ReachedBy settings start turn path →
    settings.source.Readable path → path.components ∈ (common :: paths).map Path.components
  ordered : paths.Pairwise fun earlier later =>
    ∀ turn, ReachedBy settings start turn later → ReachedBy settings start turn earlier

theorem sublist_or_sublist {first second : α} {items : List α} (firstMember : first ∈ items)
    (secondMember : second ∈ items) (different : first ≠ second) :
    [first, second].Sublist items ∨ [second, first].Sublist items := by
  rcases List.append_of_mem firstMember with ⟨before, after, rfl⟩
  rcases List.mem_append.mp secondMember with earlier | later
  · have first : [first].Sublist (first :: after) :=
      List.singleton_sublist.mpr List.mem_cons_self
    exact .inr ((List.singleton_sublist.mpr earlier).append first)
  · rcases List.mem_cons.mp later with same | later
    · exact absurd same.symm different
    · have both := (List.singleton_sublist.mpr later).cons_cons first
      exact .inl (both.trans (List.sublist_append_right before _))

namespace LoadedByDepth

variable {settings : LoaderSettings} {start : Origin → List Request} {common path other : Path}
  {paths : List Path} {files : List InterfaceFile}

/-- The core comes before what only modules lead to, unless they lead to it by fewer
inclusions. -/
theorem core_before (loaded : LoadedByDepth settings start common paths files)
    (member : path ∈ paths) (otherMember : other ∈ paths) {depth : Nat}
    (reached : ReachedAfter settings (start .core) depth path)
    (modulesOnly : ∀ lesser, ¬ ReachedAfter settings (start .core) lesser other)
    (noSooner : ∀ lesser < depth, ¬ ReachedAfter settings (start .modules) lesser other) :
    [path, other].Sublist paths := by
  have different : path ≠ other := by
    rintro rfl
    exact modulesOnly depth reached
  rcases sublist_or_sublist member otherMember different with inOrder | reversed
  · exact inOrder
  · have no_later := List.pairwise_pair.mp (loaded.ordered.sublist reversed)
    rcases no_later (Origin.core.turn depth) ⟨.core, depth, Nat.le_refl _, reached⟩ with
      ⟨origin, lesser, early, otherReached⟩
    cases origin with
    | core => exact absurd otherReached (modulesOnly lesser)
    | modules =>
        simp only [Origin.turn] at early
        exact absurd otherReached (noSooner lesser (by omega))

theorem core_before_iff (loaded : LoadedByDepth settings start common paths files)
    (member : path ∈ paths) (otherMember : other ∈ paths)
    (coreOnly : ∀ depth, ¬ ReachedAfter settings (start .modules) depth path)
    (modulesOnly : ∀ depth, ¬ ReachedAfter settings (start .core) depth other) :
    [path, other].Sublist paths ↔
      ∀ depth, ReachedAfter settings (start .modules) depth other →
        ∃ lesser ≤ depth, ReachedAfter settings (start .core) lesser path := by
  constructor
  · intro inOrder depth reached
    have no_later := List.pairwise_pair.mp (loaded.ordered.sublist inOrder)
    rcases no_later (Origin.modules.turn depth) ⟨.modules, depth, Nat.le_refl _, reached⟩ with
      ⟨origin, lesser, early, pathReached⟩
    cases origin with
    | core =>
        simp only [Origin.turn] at early
        exact ⟨lesser, by omega, pathReached⟩
    | modules => exact absurd pathReached (coreOnly lesser)
  · intro sooner
    rcases loaded.reached path member with ⟨_, origin, depth, -, reached⟩
    cases origin with
    | modules => exact absurd reached (coreOnly depth)
    | core =>
        -- A way to the other file that is too short shows a shorter one to the path.
        induction depth using Nat.strongRecOn with
        | ind depth induction =>
            by_cases noSooner :
              ∀ lesser < depth, ¬ ReachedAfter settings (start .modules) lesser other
            · exact loaded.core_before member otherMember reached modulesOnly noSooner
            · push Not at noSooner
              rcases noSooner with ⟨lesser, less, otherReached⟩
              rcases sooner lesser otherReached with ⟨least, le, again⟩
              exact induction least (Nat.lt_of_le_of_lt le less) again

end LoadedByDepth

namespace Configuration

def requestsFrom (configuration : Configuration) (source : Source) (root common : Path)
    (document : Element) : Origin → List Request
  | .core => inclusions common document ++ [.named configuration.manifestFile none]
  | .modules => configuration.moduleRequests source root

theorem loadedByDepth_of_load {configuration : Configuration} {source : Source} {root : Path}
    (ignores : source.IgnoresSpelling) {steps : Nat} {warnings : List Warning}
    {files : List InterfaceFile}
    (loaded : configuration.load source root steps = some ⟨warnings, .ok files⟩) :
    ∃ common file paths,
      locate source (configuration.search root) none configuration.commonFile = .ok common ∧
        InterfaceFile.read source common = .ok file ∧
        LoadedByDepth (configuration.loaderSettings source root)
          (configuration.requestsFrom source root common file.root) common paths files := by
  rw [load] at loaded
  cases opened : (configuration.firstLoader source root).result with
  | error failure =>
      simp only [opened] at loaded
      cases loaded
  | ok loader =>
      simp only [opened] at loaded
      rcases Loader.advances_of_run loaded with ⟨visited, advances⟩
      rcases loadedFrom_firstLoader opened with ⟨common, located, first⟩
      have progress := progress_firstLoader ignores opened
      rcases firstLoader_eq_ok_iff.mp opened with ⟨path, file, samePath, read, rfl⟩
      cases located.symm.trans samePath
      let start := configuration.requestsFrom source root common file.root
      have queue : inclusions common file.root ++ .named configuration.manifestFile none ::
          configuration.moduleRequests source root = start .core ++ start .modules :=
        List.append_cons _ _ _
      rw [queue] at advances first progress
      have on : Loader.OnSchedule (configuration.loaderSettings source root) start
          ⟨start .core ++ start .modules, [common.identity], [file]⟩
          (Loader.firstSchedule start) :=
        Loader.onSchedule_firstSchedule ignores read (List.subset_append_left _ _)
      have inTurn : Loader.LoadedInTurn (configuration.loaderSettings source root) start
          ⟨start .core ++ start .modules, [common.identity], [file]⟩
          (Loader.firstSchedule start) common [] :=
        ⟨first, List.forall_mem_nil _, List.forall_mem_nil _, .nil⟩
      rcases on.advances inTurn ignores advances with ⟨later, paths, _, last⟩
      refine ⟨common, file, paths, located, read, last.loaded.readFrom, last.loaded.distinct,
        last.reached, ?_, last.ordered⟩
      rintro turn path ⟨origin, depth, _, request, target, asked, leads, same⟩ readable
      have finished := (first.advances ignores progress advances).1
      have among : start origin ⊆ start .core ++ start .modules := by
        cases origin with
        | core => exact List.subset_append_left _ _
        | modules => exact List.subset_append_right _ _
      have known := (Loader.settled_iff_of_located leads).mp
        (finished.settled_of_finished (asked.asked among))
      exact last.loaded.complete path (Path.identity_eq_iff.mpr same ▸ known) readable

/-- Whatever is loaded from memory is loaded breadth-first: the common file comes first, and
then each path before those that take more inclusions to reach. A file of the core comes
before one that only modules lead to unless they lead to it by fewer inclusions, and a file
that only the core leads to comes before it in no other case. -/
theorem load_by_depth (configuration : Configuration) (memory : MemorySource) (root : Path)
    (steps : Nat) (warnings : List Warning) (files : List InterfaceFile)
    (loaded : configuration.load memory.toSource root steps = some ⟨warnings, .ok files⟩) :
    ∃ settings start common file paths,
      settings = configuration.loaderSettings memory.toSource root ∧
      start = configuration.requestsFrom memory.toSource root common file.root ∧
      locate memory.toSource (configuration.search root) none configuration.commonFile =
        .ok common ∧
      InterfaceFile.read memory.toSource common = .ok file ∧
      LoadedByDepth settings start common paths files ∧
      ∀ path ∈ paths, ∀ other ∈ paths,
        (∀ depth, ¬ ReachedAfter settings (start .core) depth other) →
          (∀ depth, ReachedAfter settings (start .core) depth path →
            (∀ lesser < depth, ¬ ReachedAfter settings (start .modules) lesser other) →
              [path, other].Sublist paths) ∧
          ((∀ depth, ¬ ReachedAfter settings (start .modules) depth path) →
            ([path, other].Sublist paths ↔
              ∀ depth, ReachedAfter settings (start .modules) depth other →
                ∃ lesser ≤ depth, ReachedAfter settings (start .core) lesser path)) := by
  rcases loadedByDepth_of_load memory.ignoresSpelling loaded with
    ⟨common, file, paths, located, read, inOrder⟩
  refine ⟨_, _, common, file, paths, rfl, rfl, located, read, inOrder, ?_⟩
  intro path member other otherMember modulesOnly
  refine ⟨fun depth reached noSooner => ?_, fun coreOnly => ?_⟩
  · exact inOrder.core_before member otherMember reached modulesOnly noSooner
  · exact inOrder.core_before_iff member otherMember coreOnly modulesOnly

/-! ## A file of a module before an inclusion of the manifest -/

private def withModules : Configuration := { default with includeModules := true }

private def definingX (text : String) : String :=
  "<i><define name=\"x\"><constant value=\"" ++ text ++ "\"/></define></i>"

private def lateInclusion : MemorySource := .ofFiles
  [(.ofText "/c/i-common-definitions.xml", Utf8.encode "<i/>"),
    (.ofText "/c/i-context.xml",
      Utf8.encode "<i><interfacefile filename=\"i-a.xml\"/></i>"),
    (.ofText "/c/i-a.xml", Utf8.encode (definingX "core")),
    (.ofText "/c/modules/t.xml", Utf8.encode (definingX "module"))]

private def xDefinedAs (text : String) : Element :=
  ⟨"i", [], [⟨"define", [("name", "x")], [⟨"constant", [("value", text)], []⟩]⟩]⟩

private def lateInclusionFiles : List InterfaceFile :=
  [⟨"i-common-definitions.xml", ⟨"i", [], []⟩⟩,
    ⟨"i-context.xml", ⟨"i", [], [⟨"interfacefile", [("filename", "i-a.xml")], []⟩]⟩⟩,
    ⟨"t.xml", xDefinedAs "module"⟩, ⟨"i-a.xml", xDefinedAs "core"⟩]

private theorem load_lateInclusion :
    withModules.load lateInclusion.toSource (.ofText "/c") 3 =
      some ⟨[], .ok lateInclusionFiles⟩ :=
  Outcome.eq_some_of_toOption (by decide +kernel)

private def lateSettings : LoaderSettings :=
  withModules.loaderSettings lateInclusion.toSource (.ofText "/c")

private theorem read_manifest :
    InterfaceFile.read lateInclusion.toSource (.ofText "/c/i-context.xml") =
      .ok ⟨"i-context.xml", ⟨"i", [], [⟨"interfacefile", [("filename", "i-a.xml")], []⟩]⟩⟩ := by
  decide +kernel

private theorem read_included :
    InterfaceFile.read lateInclusion.toSource (.ofText "/c/i-a.xml") =
      .ok ⟨"i-a.xml", xDefinedAs "core"⟩ := by
  decide +kernel

private theorem read_lateInclusion :
    ReadFrom lateInclusion.toSource
      [.ofText "/c/i-common-definitions.xml", .ofText "/c/i-context.xml",
        .ofText "/c/modules/t.xml", .ofText "/c/i-a.xml"] lateInclusionFiles :=
  .cons (by decide +kernel) (.cons read_manifest
    (.cons (by decide +kernel) (.cons read_included .nil)))

theorem load_by_depth_late_inclusion :
    withModules.load lateInclusion.toSource (.ofText "/c") 3 =
        some ⟨[], .ok lateInclusionFiles⟩ ∧
      ∃ paths, LoadedByDepth lateSettings
        (withModules.requestsFrom lateInclusion.toSource (.ofText "/c")
          (.ofText "/c/i-common-definitions.xml") ⟨"i", [], []⟩)
        (.ofText "/c/i-common-definitions.xml") paths lateInclusionFiles := by
  rcases load_by_depth withModules lateInclusion (.ofText "/c") 3 [] lateInclusionFiles
    load_lateInclusion with ⟨_, _, common, file, paths, rfl, rfl, located, read, inOrder, _⟩
  have isCommon : locate lateInclusion.toSource (withModules.search (.ofText "/c")) none
      withModules.commonFile = .ok (.ofText "/c/i-common-definitions.xml") := by decide +kernel
  cases isCommon.symm.trans located
  rcases read_lateInclusion with _ | ⟨isRead, _⟩
  cases isRead.symm.trans read
  exact ⟨load_lateInclusion, paths, inOrder⟩

private theorem asked_lateInclusion {depth : Nat} {request : Request}
    (asked : AskedAfter lateSettings [.named "i-context.xml" none] depth request) :
    lateSettings.target request = .ok (.ofText "/c/i-context.xml") ∨
      lateSettings.target request = .ok (.ofText "/c/i-a.xml") := by
  induction asked with
  | first member =>
      rw [List.mem_singleton.mp member]
      exact .inl rfl
  | included _ located read member induction =>
      rcases induction with manifest | included
      · cases Except.ok.inj (manifest.symm.trans located)
        cases read_manifest.symm.trans read
        rw [List.mem_singleton.mp member]
        exact .inr (by decide +kernel)
      · cases Except.ok.inj (included.symm.trans located)
        cases read_included.symm.trans read
        cases member

/-- The manifest includes `i-a.xml`, but a module that it does not lead to is loaded before
that file, and what the module says about `x` is not what counts. -/
theorem load_module_before_inclusion :
    withModules.load lateInclusion.toSource (.ofText "/c") 3 =
        some ⟨[], .ok lateInclusionFiles⟩ ∧
      ReadFrom lateInclusion.toSource
        [.ofText "/c/i-common-definitions.xml", .ofText "/c/i-context.xml",
          .ofText "/c/modules/t.xml", .ofText "/c/i-a.xml"] lateInclusionFiles ∧
      ReachedAfter lateSettings [.named "i-context.xml" none] 1 (.ofText "/c/i-a.xml") ∧
      .listed (.ofText "/c/modules/t.xml") ∈
        withModules.moduleRequests lateInclusion.toSource (.ofText "/c") ∧
      (∀ depth, ¬ ReachedAfter lateSettings [.named "i-context.xml" none] depth
        (.ofText "/c/modules/t.xml")) ∧
      (DefinitionTable.ofFiles .tolerant lateInclusionFiles).result.map (·.get? "x") =
        .ok (some [.fragment "core"]) := by
  refine ⟨load_lateInclusion, read_lateInclusion, ?_, by decide +kernel, ?_, by decide⟩
  · have manifest : AskedAfter lateSettings [.named "i-context.xml" none] 0
        (.named "i-context.xml" none) := .first (List.mem_singleton_self _)
    have included := manifest.included rfl read_manifest (List.mem_singleton_self "i-a.xml")
    exact ⟨_, .ofText "/c/i-a.xml", included, by decide +kernel, rfl⟩
  · rintro depth ⟨request, target, asked, located, same⟩
    rcases asked_lateInclusion asked with manifest | included
    · cases Except.ok.inj (manifest.symm.trans located)
      exact absurd same (by decide)
    · cases Except.ok.inj (included.symm.trans located)
      exact absurd same (by decide)

end Configuration

end CommandReference
