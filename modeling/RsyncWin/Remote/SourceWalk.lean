import RsyncWin.Fs.WalkEnds
import RsyncWin.Remote.SenderClaims

/-!
# The sender's walk over its source (`rsync-cli/src/remote/flist.rs`)

`collect_local_directory_source_entries_with_callback` over a file system that
may hold symlinks. It hands every entry to a callback and goes down into the
directories, through a followed link as the local walk does.
-/

namespace RsyncWin.LocalSource

open ByteString Fs

/-- The errors of the walk: those of the file system, the texts it bails out
with, and what the checksum or the callback fails with. -/
inductive CollectError where
  | fs (err : FsError)
  | noFileName (path : PathBuf)
  | bail (message : String) (path : PathBuf)
  | notTransferred (fileType : FileType) (path : PathBuf)
  | caller (message : String)
deriving DecidableEq

structure RemoteSourceEntry where
  wire : RsyncFileListEntry
  localPath : PathBuf

structure LocalSourceCollectOptions where
  recursive : Bool
  filterRules : RuleSet
  filesFrom : Option (List PathBuf)
  symlinkMode : SymlinkMode
  includeChecksums : Bool
  preserveHardLinks : Bool

/-- `remoteWireMode` is the function of that name with the options it reads;
`checksumLocalPath` and `remoteFileListMetadata` ask the operating system. -/
structure LocalSourceCollectContext where
  fs : MemoryFileSystem
  options : LocalSourceCollectOptions
  remoteWireMode : PortableMetadata → WireFileType → Key → Nat
  checksumLocalPath : PathBuf → Except String Bytes
  remoteFileListMetadata : PathBuf → RsyncFileListMetadata

/-- Whole seconds; a time before the epoch counts as none. -/
def systemTimeToUnix (value : Option Int) : Int :=
  match value with
  | none => 0
  | some time => if time < 0 then 0 else min (time / 1000000000) (2 ^ 63 - 1)

def remoteHardlinkGroup (metadata : PortableMetadata) (preserveHardLinks : Bool) :
    Option RsyncHardLinkGroup :=
  if !preserveHardLinks || metadata.fileType ≠ .file then none
  else if metadata.hardlinkCount.getD 1 ≤ 1 then none
  else metadata.hardlinkId.map fun id => ⟨id.volume, id.file⟩

def followedRemoteSenderMetadata (fs : MemoryFileSystem) (path : PathBuf) :
    Except CollectError PortableMetadata :=
  match fs.metadataFollow path with
  | .error e => .error (.fs e)
  | .ok metadata =>
      if metadata.fileType ≠ .file ∧ metadata.fileType ≠ .directory then
        .error (.bail ("remote-shell sender can only copy symlink referents that are " ++
          "ordinary files or directories: ") path)
      else .ok metadata

def remoteSenderMetadata (fs : MemoryFileSystem) (path : PathBuf) (metadata : PortableMetadata)
    (symlinkMode : SymlinkMode) : Except CollectError (Option PortableMetadata) :=
  if metadata.fileType ≠ .symlink then .ok (some metadata)
  else
    let isUnsafe := metadata.symlinkTarget.any isUnsafeSymlinkTarget
    match symlinkMode with
    | .skip => .ok none
    | .preserve =>
        .error (.bail ("remote-shell sender cannot preserve symlink metadata yet; " ++
          "use --copy-links for ") path)
    | .safeOnly =>
        if isUnsafe then .ok none
        else
          .error (.bail "remote-shell sender cannot preserve safe symlink metadata yet: " path)
    | .copyAll => (followedRemoteSenderMetadata fs path).map some
    | .copyDirLinks =>
        match followedRemoteSenderMetadata fs path with
        | .error e => .error e
        | .ok copied =>
            if copied.fileType = .directory then .ok (some copied)
            else
              .error (.bail ("remote-shell sender cannot preserve non-directory symlink " ++
                "metadata yet: ") path)
    | .copyUnsafe =>
        if isUnsafe then (followedRemoteSenderMetadata fs path).map some
        else
          .error (.bail "remote-shell sender cannot preserve safe symlink metadata yet: " path)
    | .munge => .error (.bail "remote-shell sender cannot munge symlink metadata yet: " path)

def remoteFollowedDirectoryPath (linkPath : PathBuf) (original copied : PortableMetadata)
    (symlinkMode : SymlinkMode) : Option PathBuf :=
  if original.fileType ≠ .symlink ∨ copied.fileType ≠ .directory then none
  else
    match original.symlinkTarget with
    | none => none
    | some target =>
        let shouldFollow :=
          match symlinkMode with
          | .copyAll | .copyDirLinks => true
          | .copyUnsafe => isUnsafeSymlinkTarget target
          | .skip | .preserve | .safeOnly | .munge => false
        if shouldFollow then some (resolveSymlinkTarget linkPath target) else none

/-- The copy of the filter test in `flist.rs`. -/
def remoteSourcePathIsFiltered (rules : RuleSet) (relative : PathBuf) (fileType : WireFileType) :
    Bool :=
  componentsAreFiltered rules .sender (fun action => action = .exclude || action = .hide)
    fileType [] relative

def wireFileType : FileType → Option WireFileType
  | .directory => some .directory
  | .file => some .file
  | _ => none

/-- What the walk makes of one listed entry: what it hands over, and the
directory it then goes down into. -/
def visitSource (ctx : LocalSourceCollectContext) (relative : Key) (entry : WalkEntry) :
    Except CollectError (Option (RemoteSourceEntry × Option PathBuf)) :=
  match remoteSenderMetadata ctx.fs entry.path entry.metadata ctx.options.symlinkMode with
  | .error e => .error e
  | .ok none => .ok none
  | .ok (some metadata) =>
      match wireFileType metadata.fileType with
      | none => .error (.notTransferred metadata.fileType entry.path)
      | some fileType =>
          if remoteSourcePathIsFiltered ctx.options.filterRules relative.path fileType ||
              ctx.options.filesFrom.any fun filesFrom => !filesFromMatches relative filesFrom then
            .ok none
          else
            let checksum :=
              if ctx.options.includeChecksums && fileType = .file then
                (ctx.checksumLocalPath entry.path).map some
              else .ok none
            match checksum with
            | .error message => .error (.caller message)
            | .ok checksum =>
                let source :=
                  { wire :=
                      { path := joinNames relative
                        fileType
                        len := if fileType = .file then metadata.len else 0
                        mtimeUnix := systemTimeToUnix metadata.modified
                        mode := ctx.remoteWireMode metadata fileType relative
                        checksum
                        hardlinkGroup := remoteHardlinkGroup metadata ctx.options.preserveHardLinks
                        metadata := ctx.remoteFileListMetadata entry.path }
                    localPath := entry.path }
                let child :=
                  if ctx.options.recursive && fileType = .directory then
                    some ((remoteFollowedDirectoryPath entry.path entry.metadata metadata
                      ctx.options.symlinkMode).getD entry.path)
                  else none
                .ok (some (source, child))

section Collect

variable {σ : Type} (ctx : LocalSourceCollectContext)
  (onEntry : RemoteSourceEntry → σ → Except String σ)

/-- The body of the loop; `descend` is the walk below an entry. -/
def collectSourceEntry (relativeRoot : Key) (descend : PathBuf → Key → σ → Except CollectError σ)
    (entry : WalkEntry) (s : σ) : Except CollectError σ :=
  match entry.path.fileName with
  | none => .error (.noFileName entry.path)
  | some name =>
      let relative := relativeRoot ++ [name]
      match visitSource ctx relative entry with
      | .error e => .error e
      | .ok none => .ok s
      | .ok (some (source, child)) =>
          match onEntry source s with
          | .error message => .error (.caller message)
          | .ok s =>
              match child with
              | none => .ok s
              | some childRoot => descend childRoot relative s

def collectSourceEntries (relativeRoot : Key)
    (descend : PathBuf → Key → σ → Except CollectError σ) :
    List WalkEntry → σ → Except CollectError σ
  | [], s => .ok s
  | entry :: listed, s =>
      match collectSourceEntry ctx onEntry relativeRoot descend entry s with
      | .error e => .error e
      | .ok s => collectSourceEntries relativeRoot descend listed s

/-- The first argument is the stack, as in the local walk. -/
def collectLocalDirectorySourceEntriesWithCallback :
    Nat → PathBuf → Key → σ → Except CollectError σ
  | 0, _, _, _ => .error (.fs .stackOverflow)
  | stack + 1, current, relativeRoot, s =>
      match ctx.fs.list current with
      | .error e => .error (.fs e)
      | .ok listed =>
          collectSourceEntries ctx onEntry relativeRoot
            (collectLocalDirectorySourceEntriesWithCallback stack) listed s

end Collect

/-! ## As a walk of the library -/

/-- A directory and its relative path. -/
abbrev SourceDirectory := PathBuf × Key

def openSource (ctx : LocalSourceCollectContext) (directory : SourceDirectory) :
    Except CollectError (List (Key × WalkEntry)) :=
  match ctx.fs.list directory.1 with
  | .error e => .error (.fs e)
  | .ok listed => .ok (listed.map fun entry => (directory.2, entry))

def visitFoundSource (ctx : LocalSourceCollectContext) (found : Key × WalkEntry) :
    Except CollectError (Option (RemoteSourceEntry × Option SourceDirectory)) :=
  match found.2.path.fileName with
  | none => .error (.noFileName found.2.path)
  | some name =>
      let relative := found.1 ++ [name]
      match visitSource ctx relative found.2 with
      | .error e => .error e
      | .ok none => .ok none
      | .ok (some (source, child)) =>
          .ok (some (source, child.map fun childRoot => (childRoot, relative)))

def senderWalk (ctx : LocalSourceCollectContext) :
    Walk SourceDirectory (Key × WalkEntry) RemoteSourceEntry CollectError where
  opens := openSource ctx
  visit := visitFoundSource ctx

def handOver {σ : Type} (onEntry : RemoteSourceEntry → σ → Except String σ)
    (source : RemoteSourceEntry) (s : σ) : Except CollectError σ :=
  match onEntry source s with
  | .error message => .error (.caller message)
  | .ok s => .ok s

section Walk

variable {ctx : LocalSourceCollectContext}

theorem collectSourceEntries_eq_entries {σ : Type}
    {onEntry : RemoteSourceEntry → σ → Except String σ} {relativeRoot : Key}
    {descend : PathBuf → Key → σ → Except CollectError σ}
    {below : SourceDirectory → σ → Except CollectError σ}
    (hbelow : ∀ childRoot relative s, descend childRoot relative s = below (childRoot, relative) s)
    (listed : List WalkEntry) (s : σ) :
    collectSourceEntries ctx onEntry relativeRoot descend listed s =
      (senderWalk ctx).entries (handOver onEntry) below (listed.map fun entry =>
        (relativeRoot, entry)) s := by
  induction listed generalizing s with
  | nil => rfl
  | cons entry listed ih =>
      have hentry : collectSourceEntry ctx onEntry relativeRoot descend entry s =
          (senderWalk ctx).entry (handOver onEntry) below (relativeRoot, entry) s := by
        unfold collectSourceEntry Walk.entry
        rw [show (senderWalk ctx).visit = visitFoundSource ctx from rfl, visitFoundSource]
        cases entry.path.fileName with
        | none => rfl
        | some name =>
            simp only []
            cases visitSource ctx (relativeRoot ++ [name]) entry with
            | error e => rfl
            | ok visited =>
                rcases visited with - | ⟨source, - | childRoot⟩
                · rfl
                · rfl
                · simp only [handOver, Option.map_some]
                  cases onEntry source s with
                  | error message => rfl
                  | ok s => exact hbelow _ _ _
      rw [collectSourceEntries, List.map_cons, Walk.entries, hentry]
      cases (senderWalk ctx).entry (handOver onEntry) below (relativeRoot, entry) s with
      | error e => rfl
      | ok s => exact ih s

theorem collect_eq_run {σ : Type} (onEntry : RemoteSourceEntry → σ → Except String σ)
    (stack : Nat) (current : PathBuf) (relativeRoot : Key) (s : σ) :
    collectLocalDirectorySourceEntriesWithCallback ctx onEntry stack current relativeRoot s =
      (senderWalk ctx).run (handOver onEntry) (.fs .stackOverflow) stack
        (current, relativeRoot) s := by
  induction stack generalizing current relativeRoot s with
  | zero => rfl
  | succ stack ih =>
      unfold collectLocalDirectorySourceEntriesWithCallback Walk.run
      rw [show (senderWalk ctx).opens = openSource ctx from rfl, openSource]
      cases ctx.fs.list current with
      | error e => rfl
      | ok listed => exact collectSourceEntries_eq_entries ih listed s

theorem followedRemoteSenderMetadata_ne (fs : MemoryFileSystem) (path : PathBuf) :
    followedRemoteSenderMetadata fs path ≠ .error (.fs .stackOverflow) := by
  unfold followedRemoteSenderMetadata
  cases hmeta : fs.metadataFollow path with
  | error e =>
      intro h
      obtain rfl : e = .stackOverflow := CollectError.fs.inj (Except.error.inj h)
      exact MemoryFileSystem.metadataFollow_ne path hmeta
  | ok metadata =>
      simp only []
      split <;> exact fun h => by cases h

theorem remoteSenderMetadata_ne (fs : MemoryFileSystem) (path : PathBuf)
    (metadata : PortableMetadata) (symlinkMode : SymlinkMode) :
    remoteSenderMetadata fs path metadata symlinkMode ≠ .error (.fs .stackOverflow) := by
  have hmap : (followedRemoteSenderMetadata fs path).map some ≠ .error (.fs .stackOverflow) := by
    cases hfollowed : followedRemoteSenderMetadata fs path with
    | error e =>
        intro h
        obtain rfl := Except.error.inj h
        exact followedRemoteSenderMetadata_ne fs path hfollowed
    | ok copied => exact fun h => by cases h
  unfold remoteSenderMetadata
  split
  · exact fun h => by cases h
  · cases symlinkMode with
    | skip => exact fun h => by cases h
    | preserve => exact fun h => by cases h
    | munge => exact fun h => by cases h
    | safeOnly =>
        simp only []
        split <;> exact fun h => by cases h
    | copyAll => exact hmap
    | copyDirLinks =>
        simp only []
        cases hfollowed : followedRemoteSenderMetadata fs path with
        | error e =>
            intro h
            obtain rfl := Except.error.inj h
            exact followedRemoteSenderMetadata_ne fs path hfollowed
        | ok copied =>
            simp only []
            split <;> exact fun h => by cases h
    | copyUnsafe =>
        simp only []
        split
        · exact hmap
        · exact fun h => by cases h

/-- All there is to an entry that the walk hands over. -/
theorem visitSource_cases (ctx : LocalSourceCollectContext) (relative : Key)
    (entry : WalkEntry) :
    (∃ e, visitSource ctx relative entry = .error e ∧ e ≠ .fs .stackOverflow) ∨
      visitSource ctx relative entry = .ok none ∨
      ∃ metadata source child, visitSource ctx relative entry = .ok (some (source, child)) ∧
        ∀ childRoot, child = some childRoot →
          remoteSenderMetadata ctx.fs entry.path entry.metadata ctx.options.symlinkMode =
              .ok (some metadata) ∧
            childRoot = (remoteFollowedDirectoryPath entry.path entry.metadata metadata
              ctx.options.symlinkMode).getD entry.path := by
  unfold visitSource
  cases hmeta : remoteSenderMetadata ctx.fs entry.path entry.metadata ctx.options.symlinkMode with
  | error e =>
      refine .inl ⟨e, rfl, ?_⟩
      rintro rfl
      exact remoteSenderMetadata_ne _ _ _ _ hmeta
  | ok copied =>
      cases copied with
      | none => exact .inr (.inl rfl)
      | some metadata =>
          simp only []
          cases wireFileType metadata.fileType with
          | none => exact .inl ⟨_, rfl, fun h => by cases h⟩
          | some fileType =>
              simp only []
              split
              · exact .inr (.inl rfl)
              · split
                · exact .inl ⟨_, rfl, fun h => by cases h⟩
                · refine .inr (.inr ⟨metadata, _, _, rfl, ?_⟩)
                  intro childRoot hchild
                  split at hchild
                  · exact ⟨rfl, (Option.some.inj hchild).symm⟩
                  · cases hchild

theorem senderWalk_visit_ne (found : Key × WalkEntry) :
    (senderWalk ctx).visit found ≠ .error (.fs .stackOverflow) := by
  show visitFoundSource ctx found ≠ _
  unfold visitFoundSource
  cases found.2.path.fileName with
  | none => exact fun h => by cases h
  | some name =>
      simp only []
      rcases visitSource_cases ctx (found.1 ++ [name]) found.2 with
        ⟨e, hvisit, hne⟩ | hvisit | ⟨metadata, source, child, hvisit, -⟩
      · rw [hvisit]
        exact fun h => hne (Except.error.inj h)
      · rw [hvisit]
        exact fun h => by cases h
      · rw [hvisit]
        exact fun h => by cases h

theorem senderWalk_visit {found : Key × WalkEntry} {source : RemoteSourceEntry}
    {directory : SourceDirectory}
    (h : (senderWalk ctx).visit found = .ok (some (source, some directory))) :
    ∃ metadata, remoteSenderMetadata ctx.fs found.2.path found.2.metadata
        ctx.options.symlinkMode = .ok (some metadata) ∧
      directory.1 = (remoteFollowedDirectoryPath found.2.path found.2.metadata metadata
        ctx.options.symlinkMode).getD found.2.path := by
  replace h : visitFoundSource ctx found = .ok (some (source, some directory)) := h
  unfold visitFoundSource at h
  cases hname : found.2.path.fileName with
  | none =>
      simp only [hname] at h
      cases h
  | some name =>
      simp only [hname] at h
      rcases visitSource_cases ctx (found.1 ++ [name]) found.2 with
        ⟨e, hvisit, -⟩ | hvisit | ⟨metadata, source', child, hvisit, hchild⟩
      · rw [hvisit] at h
        cases h
      · rw [hvisit] at h
        cases h
      · rw [hvisit] at h
        cases child with
        | none => cases h
        | some childRoot =>
            cases h
            exact ⟨metadata, hchild childRoot rfl⟩

theorem senderWalk_opens {directory : SourceDirectory} {founds : List (Key × WalkEntry)}
    (h : (senderWalk ctx).opens directory = .ok founds) :
    ∃ listed, ctx.fs.list directory.1 = .ok listed ∧ ∀ found ∈ founds, found.2 ∈ listed := by
  replace h : openSource ctx directory = .ok founds := h
  unfold openSource at h
  cases hlist : ctx.fs.list directory.1 with
  | error e =>
      simp only [hlist] at h
      cases h
  | ok listed =>
      simp only [hlist] at h
      cases h
      refine ⟨listed, rfl, ?_⟩
      intro found hfound
      obtain ⟨entry, hentry, rfl⟩ := List.mem_map.mp hfound
      exact hentry

theorem senderWalk_not_hangs (directory : SourceDirectory) :
    ¬ (senderWalk ctx).Hangs (.fs .stackOverflow) directory := by
  rintro ⟨reached, -, hopens⟩
  replace hopens : openSource ctx reached = .error (.fs .stackOverflow) := hopens
  unfold openSource at hopens
  cases hlist : ctx.fs.list reached.1 with
  | error e =>
      simp only [hlist] at hopens
      obtain rfl : e = .stackOverflow := CollectError.fs.inj (Except.error.inj hopens)
      exact MemoryFileSystem.list_ne _ hlist
  | ok listed =>
      simp only [hlist] at hopens
      cases hopens

end Walk

/-! ## The loop -/

/-- The entry is a link to a directory that the walk follows. -/
def FollowsLink (ctx : LocalSourceCollectContext) (entry : WalkEntry) : Prop :=
  ∃ metadata, remoteSenderMetadata ctx.fs entry.path entry.metadata ctx.options.symlinkMode =
      .ok (some metadata) ∧
    (remoteFollowedDirectoryPath entry.path entry.metadata metadata
      ctx.options.symlinkMode).isSome

/-- The walk can go down for ever, through one followed link again and again. -/
def LinkLoop (ctx : LocalSourceCollectContext) (directory : SourceDirectory) : Prop :=
  ∃ (places : Nat → SourceDirectory) (finds : Nat → Key × WalkEntry) (link : Key),
    places 0 = directory ∧
    (∀ n, (senderWalk ctx).Enters (places n) (finds n) (places (n + 1))) ∧
    ∀ n, ∃ m, n ≤ m ∧ FollowsLink ctx (finds m).2 ∧ (finds m).2.path = link.path

section Loop

variable {ctx : LocalSourceCollectContext}

theorem endless_iff {directory : SourceDirectory} :
    (senderWalk ctx).Endless directory ↔ LinkLoop ctx directory := by
  constructor
  · rintro ⟨places, finds, hzero, hsteps⟩
    have hlisted : ∀ n, ∃ listed, ctx.fs.list (places n).1 = .ok listed ∧
        (finds n).2 ∈ listed := by
      intro n
      obtain ⟨founds, hopens, hmem⟩ := (hsteps n).listed
      obtain ⟨listed, hlist, hfounds⟩ := senderWalk_opens hopens
      exact ⟨listed, hlist, hfounds _ hmem⟩
    have hdown : ∀ n, ¬ FollowsLink ctx (finds n).2 → (places (n + 1)).1 = (finds n).2.path := by
      intro n hn
      obtain ⟨before, after, b, -, -, hvisit⟩ := hsteps n
      obtain ⟨metadata, hmeta, hcurrent⟩ := senderWalk_visit hvisit
      have hnone : remoteFollowedDirectoryPath (finds n).2.path (finds n).2.metadata metadata
          ctx.options.symlinkMode = none := by
        rw [← Option.not_isSome_iff_eq_none]
        exact fun hsome => hn ⟨metadata, hmeta, hsome⟩
      rw [hcurrent, hnone]
      rfl
    obtain ⟨link, hlink⟩ := exists_followed_again hlisted hdown
    exact ⟨places, finds, link, hzero, hsteps, hlink⟩
  · rintro ⟨places, finds, link, hzero, hsteps, -⟩
    exact ⟨places, finds, hzero, hsteps⟩

/-- Whatever the callback does, the walk comes back. -/
theorem ends_of_not_linkLoop {directory : SourceDirectory} (h : ¬ LinkLoop ctx directory)
    {σ : Type} (onEntry : RemoteSourceEntry → σ → Except String σ) (s : σ) :
    (senderWalk ctx).Ends (handOver onEntry) (.fs .stackOverflow) directory s := by
  refine (senderWalk ctx).ends_of senderWalk_visit_ne ?_ (fun hendless => h (endless_iff.mp hendless))
    (senderWalk_not_hangs directory) s
  intro source s
  unfold handOver
  split <;> exact fun h => by cases h

/-- With a callback that takes every entry, it does not. -/
theorem not_ends_of_linkLoop {directory : SourceDirectory} (h : LinkLoop ctx directory)
    {σ : Type} {onEntry : RemoteSourceEntry → σ → Except String σ}
    (htotal : ∀ source s, ∃ s', onEntry source s = .ok s') (s : σ) :
    ¬ (senderWalk ctx).Ends (handOver onEntry) (.fs .stackOverflow) directory s := by
  refine (senderWalk ctx).not_ends ?_ (.inl (endless_iff.mpr h)) s
  intro source s
  obtain ⟨s', hs'⟩ := htotal source s
  exact ⟨s', by rw [handOver, hs']⟩

end Loop

/-! ## Both walks -/

/-- A callback that takes every entry. -/
def takeAll (_ : RemoteSourceEntry) (s : Unit) : Except String Unit := .ok s

/-- The local walk comes back if it can neither pass one followed link for ever
nor get to a merge file behind endless links, the sender's walk, which reads no
merge files, if it cannot pass one followed link for ever. -/
theorem source_walks_end_iff (fs : MemoryFileSystem) (ctx : LocalSourceCollectContext)
    (root current : PathBuf) (relativeRoot : Key) (options : RelativeEntryOptions)
    (entries : Entries) :
    ((∃ answer least, answer ≠ .error .stackOverflow ∧ ∀ stack, least ≤ stack →
        collectRelativeEntries fs root stack current relativeRoot options entries = answer) ↔
      ¬ Fs.LinkLoop fs root ⟨current, relativeRoot, options⟩ ∧
        ¬ MergeLoop fs root ⟨current, relativeRoot, options⟩) ∧
    ((∀ (σ : Type) (onEntry : RemoteSourceEntry → σ → Except String σ) (s : σ),
        ∃ answer least, answer ≠ .error (.fs .stackOverflow) ∧ ∀ stack, least ≤ stack →
          collectLocalDirectorySourceEntriesWithCallback ctx onEntry stack current relativeRoot s =
            answer) ↔
      ¬ LinkLoop ctx (current, relativeRoot)) := by
  constructor
  · simp only [collectRelativeEntries_eq_run]
    exact sourceWalk_ends_iff
  · simp only [collect_eq_run]
    constructor
    · intro hends hloop
      exact not_ends_of_linkLoop hloop (fun source s => ⟨s, rfl⟩) () (hends Unit takeAll ())
    · intro hloop σ onEntry s
      exact ends_of_not_linkLoop hloop onEntry s

/-- A directory `s` with a link `x` to itself. -/
def selfLink : MemoryFileSystem := (({} : MemoryFileSystem).createSymlink
  [.normal [0x73], .normal [0x78]] [.curDir]).2

def linkEntry : WalkEntry :=
  ⟨[.normal [0x73], .normal [0x78]], { fileType := .symlink, symlinkTarget := some [.curDir] }⟩

def followAll : RelativeEntryOptions := ⟨none, true, .copyAll, false⟩

def followAllContext : LocalSourceCollectContext where
  fs := selfLink
  options := ⟨true, {}, none, .copyAll, false, false⟩
  remoteWireMode _ _ _ := 0o40755
  checksumLocalPath _ := .ok []
  remoteFileListMetadata _ := {}

theorem list_selfLink : selfLink.list [.normal [0x73]] = .ok [linkEntry] := by decide +kernel

theorem visitEntry_linkEntry (root : PathBuf) (relative : Key) :
    ∃ entry, visitEntry selfLink root followAll relative linkEntry =
      .ok (some (entry, some [.normal [0x73]])) := by
  have happly : applySymlinkMode selfLink linkEntry .copyAll = .ok (some { linkEntry with
      metadata := { fileType := .directory, symlinkTarget := some [.curDir] } }) := by
    decide +kernel
  unfold visitEntry
  rw [show followAll.symlinkMode = .copyAll from rfl, happly]
  exact ⟨_, rfl⟩

theorem collectRelativeEntries_selfLink (root : PathBuf) (stack : Nat) (relative : Key)
    (entries : Entries) :
    collectRelativeEntries selfLink root stack [.normal [0x73]] relative followAll entries =
      .error .stackOverflow := by
  induction stack generalizing relative entries with
  | zero => rfl
  | succ stack ih =>
      obtain ⟨entry, hvisit⟩ := visitEntry_linkEntry root (relative ++ [[0x78]])
      have hentry : ∀ descend, collectEntry selfLink root relative followAll descend linkEntry
          entries = descend [.normal [0x73]] (relative ++ [[0x78]])
            (entries.insert (relative ++ [[0x78]]) entry) := by
        intro descend
        unfold collectEntry
        rw [show linkEntry.path.fileName = some [0x78] from rfl]
        simp only [hvisit]
      unfold collectRelativeEntries
      rw [list_selfLink]
      show (collectEntry selfLink root relative followAll _ linkEntry entries).bind _ = _
      rw [hentry]
      exact congrArg (fun answer : Except FsError Entries => answer.bind _) (ih _ _)

theorem not_filtered_nil (fileType : WireFileType) (current relative : Key) :
    componentsAreFiltered {} .sender (fun action => action = .exclude || action = .hide) fileType
      current relative.path = false := by
  induction relative generalizing current with
  | nil => rfl
  | cons name relative ih =>
      rw [show Key.path (name :: relative) = .normal name :: Key.path relative from rfl,
        componentsAreFiltered_normal, ih (current ++ [name])]
      rfl

theorem visitSource_linkEntry (relative : Key) :
    ∃ source, visitSource followAllContext relative linkEntry =
      .ok (some (source, some [.normal [0x73]])) := by
  have hmeta : remoteSenderMetadata selfLink linkEntry.path linkEntry.metadata .copyAll =
      .ok (some { fileType := .directory }) := by
    decide +kernel
  unfold visitSource
  rw [show followAllContext.fs = selfLink from rfl,
    show followAllContext.options.symlinkMode = .copyAll from rfl, hmeta]
  simp only [wireFileType, remoteSourcePathIsFiltered]
  rw [show followAllContext.options.filterRules = {} from rfl, not_filtered_nil]
  exact ⟨_, rfl⟩

theorem collectLocalDirectorySourceEntries_selfLink (stack : Nat) (relative : Key) :
    collectLocalDirectorySourceEntriesWithCallback followAllContext takeAll stack
      [.normal [0x73]] relative () = .error (.fs .stackOverflow) := by
  induction stack generalizing relative with
  | zero => rfl
  | succ stack ih =>
      obtain ⟨source, hvisit⟩ := visitSource_linkEntry (relative ++ [[0x78]])
      have hentry : ∀ descend, collectSourceEntry followAllContext takeAll
          relative descend linkEntry () = descend [.normal [0x73]] (relative ++ [[0x78]]) () := by
        intro descend
        unfold collectSourceEntry
        rw [show linkEntry.path.fileName = some [0x78] from rfl]
        simp only [hvisit, takeAll]
      unfold collectLocalDirectorySourceEntriesWithCallback
      rw [show followAllContext.fs = selfLink from rfl, list_selfLink]
      simp only [collectSourceEntries, hentry, ih]

/-- Each time a walk follows `x`, it finds `x` again. -/
theorem source_walks_do_not_end :
    (¬ ∃ answer least, answer ≠ .error .stackOverflow ∧ ∀ stack, least ≤ stack →
      collectRelativeEntries selfLink [.normal [0x73]] stack [.normal [0x73]] [] followAll ∅ =
        answer) ∧
    ¬ ∃ answer least, answer ≠ .error (.fs .stackOverflow) ∧ ∀ stack, least ≤ stack →
      collectLocalDirectorySourceEntriesWithCallback followAllContext takeAll
        stack [.normal [0x73]] [] () = answer := by
  constructor
  · rintro ⟨answer, least, hne, h⟩
    apply hne
    rw [← h least le_rfl]
    exact collectRelativeEntries_selfLink [.normal [0x73]] least [] ∅
  · rintro ⟨answer, least, hne, h⟩
    apply hne
    rw [← h least le_rfl]
    exact collectLocalDirectorySourceEntries_selfLink least []

end RsyncWin.LocalSource
