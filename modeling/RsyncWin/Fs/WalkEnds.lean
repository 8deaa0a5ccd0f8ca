import RsyncWin.Fs.LinkLoops

/-!
# When the walk over a tree ends

`collect_relative_entries` as a walk of the library, so that it ends exactly if
it can neither pass one followed directory link for ever nor run into a merge
file behind endless links. In the modes that follow no directory link only the
merge files are left.
-/

namespace RsyncWin.Fs

open ByteString

/-- A directory that the walk goes down into, and under which name and options. -/
structure WalkedDirectory where
  current : PathBuf
  relativeRoot : Key
  options : RelativeEntryOptions

/-- The entries of a directory, each with the rules that are active there. -/
def openDirectory (fs : MemoryFileSystem) (directory : WalkedDirectory) :
    Except FsError (List (WalkedDirectory × WalkEntry)) :=
  match loadDirMergeRules fs directory.current directory.options.filterRules with
  | .error e => .error e
  | .ok directoryRules =>
      let options := { directory.options with
        filterRules := directoryRules.or directory.options.filterRules }
      match fs.list directory.current with
      | .error e => .error e
      | .ok listed => .ok (listed.map fun original => ({ directory with options }, original))

def visitFound (fs : MemoryFileSystem) (root : PathBuf) (found : WalkedDirectory × WalkEntry) :
    Except FsError (Option ((Key × WalkEntry) × Option WalkedDirectory)) :=
  match found.2.path.fileName with
  | none => .error (.invalidPortablePath found.2.path)
  | some name =>
      let relative := found.1.relativeRoot ++ [name]
      match visitEntry fs root found.1.options relative found.2 with
      | .error e => .error e
      | .ok none => .ok none
      | .ok (some (entry, child)) =>
          .ok (some ((relative, entry), child.map fun childRoot =>
            ⟨childRoot, relative, found.1.options⟩))

def sourceWalk (fs : MemoryFileSystem) (root : PathBuf) :
    Walk WalkedDirectory (WalkedDirectory × WalkEntry) (Key × WalkEntry) FsError where
  opens := openDirectory fs
  visit := visitFound fs root

def recordEntry (found : Key × WalkEntry) (entries : Entries) : Except FsError Entries :=
  .ok (entries.insert found.1 found.2)

section Walk

variable {fs : MemoryFileSystem} {root : PathBuf}

theorem collectListed_eq_entries (directory : WalkedDirectory)
    {descend : PathBuf → Key → Entries → Except FsError Entries}
    {below : WalkedDirectory → Entries → Except FsError Entries}
    (hbelow : ∀ childRoot relative entries,
      descend childRoot relative entries = below ⟨childRoot, relative, directory.options⟩ entries)
    (listed : List WalkEntry) (entries : Entries) :
    collectListed fs root directory.relativeRoot directory.options descend listed entries =
      (sourceWalk fs root).entries recordEntry below (listed.map fun original =>
        (directory, original)) entries := by
  induction listed generalizing entries with
  | nil => rfl
  | cons original listed ih =>
      have hentry : collectEntry fs root directory.relativeRoot directory.options descend original
          entries = (sourceWalk fs root).entry recordEntry below (directory, original) entries := by
        unfold collectEntry Walk.entry
        rw [show (sourceWalk fs root).visit = visitFound fs root from rfl, visitFound]
        cases original.path.fileName with
        | none => rfl
        | some name =>
            simp only []
            cases visitEntry fs root directory.options (directory.relativeRoot ++ [name])
                original with
            | error e => rfl
            | ok visited =>
                rcases visited with - | ⟨entry, - | childRoot⟩
                · rfl
                · rfl
                · exact hbelow _ _ _
      rw [collectListed, List.map_cons, Walk.entries, hentry]
      cases (sourceWalk fs root).entry recordEntry below (directory, original) entries with
      | error e => rfl
      | ok entries => exact ih entries

theorem collectRelativeEntries_eq_run (stack : Nat) (current : PathBuf) (relativeRoot : Key)
    (options : RelativeEntryOptions) (entries : Entries) :
    collectRelativeEntries fs root stack current relativeRoot options entries =
      (sourceWalk fs root).run recordEntry .stackOverflow stack
        ⟨current, relativeRoot, options⟩ entries := by
  induction stack generalizing current relativeRoot options entries with
  | zero => rfl
  | succ stack ih =>
      unfold collectRelativeEntries Walk.run
      rw [show (sourceWalk fs root).opens = openDirectory fs from rfl, openDirectory]
      cases loadDirMergeRules fs current options.filterRules with
      | error e => rfl
      | ok directoryRules =>
          cases fs.list current with
          | error e => rfl
          | ok listed =>
              simp only [bind, Except.bind]
              exact collectListed_eq_entries
                ⟨current, relativeRoot, { options with
                  filterRules := directoryRules.or options.filterRules }⟩
                (fun childRoot relative entries => ih childRoot relative _ entries) listed entries

theorem followedEntry_ne (entry : WalkEntry) :
    followedEntry fs entry ≠ .error .stackOverflow := by
  unfold followedEntry followedFileMetadataOrOther
  cases hmeta : fs.metadataFollow entry.path with
  | error e =>
      intro h
      obtain rfl : e = .stackOverflow := Except.error.inj h
      exact MemoryFileSystem.metadataFollow_ne _ hmeta
  | ok metadata => exact fun h => by cases h

theorem applySymlinkMode_ne (entry : WalkEntry) (symlinkMode : SymlinkMode) :
    applySymlinkMode fs entry symlinkMode ≠ .error .stackOverflow := by
  have hfollowed : ∀ k : WalkEntry → Option WalkEntry,
      (followedEntry fs entry).bind (fun followed => .ok (k followed)) ≠
        .error .stackOverflow := by
    intro k
    cases hentry : followedEntry fs entry with
    | error e =>
        intro h
        obtain rfl : e = .stackOverflow := Except.error.inj h
        exact followedEntry_ne entry hentry
    | ok followed => exact fun h => by cases h
  unfold applySymlinkMode
  split
  · exact fun h => by cases h
  · cases symlinkMode with
    | skip => exact fun h => by cases h
    | preserve => exact fun h => by cases h
    | munge => exact fun h => by cases h
    | safeOnly => exact fun h => by cases h
    | copyAll => exact hfollowed some
    | copyDirLinks =>
        exact hfollowed fun followed =>
          some (if followed.metadata.fileType = .directory then followed else entry)
    | copyUnsafe =>
        simp only []
        split
        · exact hfollowed some
        · exact fun h => by cases h

theorem visitEntry_ne (options : RelativeEntryOptions) (relative : Key) (original : WalkEntry) :
    visitEntry fs root options relative original ≠ .error .stackOverflow := by
  unfold visitEntry
  cases happly : applySymlinkMode fs original options.symlinkMode with
  | error e =>
      intro h
      obtain rfl : e = .stackOverflow := Except.error.inj h
      exact applySymlinkMode_ne original options.symlinkMode happly
  | ok entry =>
      cases entry with
      | none => exact fun h => by cases h
      | some entry =>
          simp only [bind, Except.bind, onSameFileSystem_eq, Bool.not_true, Bool.false_eq_true,
            if_false]
          split
          · exact fun h => by cases h
          · split <;> exact fun h => by cases h

theorem applySymlinkMode_path {entry entry' : WalkEntry} {symlinkMode : SymlinkMode}
    (h : applySymlinkMode fs entry symlinkMode = .ok (some entry')) : entry'.path = entry.path := by
  have hfollowed : ∀ followed, followedEntry fs entry = .ok followed →
      followed.path = entry.path := by
    intro followed hf
    unfold followedEntry at hf
    cases hmeta : followedFileMetadataOrOther fs entry.path with
    | error e =>
        rw [hmeta] at hf
        cases hf
    | ok metadata =>
        rw [hmeta] at hf
        cases hf
        rfl
  unfold applySymlinkMode at h
  split at h
  · cases h
    rfl
  · cases symlinkMode with
    | skip => cases h
    | preserve =>
        cases h
        rfl
    | munge =>
        cases h
        rfl
    | safeOnly =>
        simp only [] at h
        split at h
        · cases h
        · cases h
          rfl
    | copyAll =>
        cases hf : followedEntry fs entry with
        | error e =>
            simp only [hf] at h
            cases h
        | ok followed =>
            simp only [hf] at h
            cases h
            exact hfollowed _ hf
    | copyDirLinks =>
        cases hf : followedEntry fs entry with
        | error e =>
            simp only [hf] at h
            cases h
        | ok followed =>
            simp only [hf] at h
            cases h
            show (if followed.metadata.fileType = .directory then followed else entry).path = _
            split
            · exact hfollowed _ hf
            · rfl
    | copyUnsafe =>
        simp only [] at h
        split at h
        · cases hf : followedEntry fs entry with
          | error e =>
              simp only [hf] at h
              cases h
          | ok followed =>
              simp only [hf] at h
              cases h
              exact hfollowed _ hf
        · cases h
          rfl

/-- The walk goes down into the entry, or into what its link leads to. -/
theorem visitEntry_child {options : RelativeEntryOptions} {relative : Key}
    {original entry : WalkEntry} {childRoot : PathBuf}
    (h : visitEntry fs root options relative original = .ok (some (entry, some childRoot))) :
    applySymlinkMode fs original options.symlinkMode = .ok (some entry) ∧
      childRoot = (followedDirectoryWalkPath entry options.symlinkMode).getD original.path := by
  unfold visitEntry at h
  cases happly : applySymlinkMode fs original options.symlinkMode with
  | error e =>
      rw [happly] at h
      cases h
  | ok applied =>
      rw [happly] at h
      cases applied with
      | none => cases h
      | some applied =>
          simp only [bind, Except.bind, onSameFileSystem_eq, Bool.not_true, Bool.false_eq_true,
            if_false] at h
          split at h
          · cases h
          · split at h
            · cases h
              exact ⟨rfl, by rw [applySymlinkMode_path happly]⟩
            · cases h

end Walk

/-! ## The loops -/

/-- The entry is a link to a directory that the walk follows. -/
def FollowsLink (fs : MemoryFileSystem) (found : WalkedDirectory × WalkEntry) : Prop :=
  ∃ entry, applySymlinkMode fs found.2 found.1.options.symlinkMode = .ok (some entry) ∧
    (followedDirectoryWalkPath entry found.1.options.symlinkMode).isSome

/-- The walk can go down for ever, through one followed link again and again. -/
def LinkLoop (fs : MemoryFileSystem) (root : PathBuf) (directory : WalkedDirectory) : Prop :=
  ∃ (places : Nat → WalkedDirectory) (finds : Nat → WalkedDirectory × WalkEntry) (link : Key),
    places 0 = directory ∧
    (∀ n, (sourceWalk fs root).Enters (places n) (finds n) (places (n + 1))) ∧
    ∀ n, ∃ m, n ≤ m ∧ FollowsLink fs (finds m) ∧ (finds m).2.path = link.path

/-- The walk gets to a directory whose merge rules run into endless links. -/
def MergeLoop (fs : MemoryFileSystem) (root : PathBuf) (directory : WalkedDirectory) : Prop :=
  ∃ reached rules, (sourceWalk fs root).Reaches directory reached ∧
    reached.options.filterRules = some rules ∧ MergesEndlessly fs reached.current rules

section Loops

variable {fs : MemoryFileSystem} {root : PathBuf}

theorem sourceWalk_opens {directory : WalkedDirectory} {found : WalkedDirectory × WalkEntry}
    {founds : List (WalkedDirectory × WalkEntry)}
    (h : (sourceWalk fs root).opens directory = .ok founds) (hmem : found ∈ founds) :
    (∃ listed, fs.list directory.current = .ok listed ∧ found.2 ∈ listed) ∧
      found.1.options.symlinkMode = directory.options.symlinkMode := by
  replace h : openDirectory fs directory = .ok founds := h
  unfold openDirectory at h
  cases hload : loadDirMergeRules fs directory.current directory.options.filterRules with
  | error e =>
      simp only [hload] at h
      cases h
  | ok directoryRules =>
      cases hlist : fs.list directory.current with
      | error e =>
          simp only [hload, hlist] at h
          cases h
      | ok listed =>
          simp only [hload, hlist] at h
          cases h
          obtain ⟨original, horiginal, rfl⟩ := List.mem_map.mp hmem
          exact ⟨⟨listed, rfl, horiginal⟩, rfl⟩

theorem sourceWalk_visit {found : WalkedDirectory × WalkEntry} {b : Key × WalkEntry}
    {directory : WalkedDirectory}
    (h : (sourceWalk fs root).visit found = .ok (some (b, some directory))) :
    ∃ entry, applySymlinkMode fs found.2 found.1.options.symlinkMode = .ok (some entry) ∧
      directory.current =
        (followedDirectoryWalkPath entry found.1.options.symlinkMode).getD found.2.path ∧
      directory.options = found.1.options := by
  replace h : visitFound fs root found = .ok (some (b, some directory)) := h
  unfold visitFound at h
  cases hname : found.2.path.fileName with
  | none =>
      simp only [hname] at h
      cases h
  | some name =>
      cases hvisit : visitEntry fs root found.1.options (found.1.relativeRoot ++ [name])
          found.2 with
      | error e =>
          simp only [hname, hvisit] at h
          cases h
      | ok visited =>
          rcases visited with - | ⟨entry, - | childRoot⟩
          · simp only [hname, hvisit] at h
            cases h
          · simp only [hname, hvisit] at h
            cases h
          · simp only [hname, hvisit] at h
            cases h
            obtain ⟨happly, rfl⟩ := visitEntry_child hvisit
            exact ⟨entry, happly, rfl, rfl⟩

theorem sourceWalk_visit_ne (found : WalkedDirectory × WalkEntry) :
    (sourceWalk fs root).visit found ≠ .error .stackOverflow := by
  show visitFound fs root found ≠ _
  unfold visitFound
  cases hname : found.2.path.fileName with
  | none => simp
  | some name =>
      cases hvisit : visitEntry fs root found.1.options (found.1.relativeRoot ++ [name])
          found.2 with
      | error e =>
          simp only [hvisit]
          intro h
          obtain rfl : e = .stackOverflow := Except.error.inj h
          exact visitEntry_ne _ _ _ hvisit
      | ok visited =>
          rcases visited with - | ⟨entry, child⟩ <;> simp [hvisit]

theorem sourceWalk_opens_overflow_iff {directory : WalkedDirectory} :
    (sourceWalk fs root).opens directory = .error .stackOverflow ↔
      ∃ rules, directory.options.filterRules = some rules ∧
        MergesEndlessly fs directory.current rules := by
  rw [← loadDirMergeRules_overflow_iff]
  show openDirectory fs directory = _ ↔ _
  unfold openDirectory
  cases hload : loadDirMergeRules fs directory.current directory.options.filterRules with
  | error e =>
      simp only []
      constructor
      · intro h
        rw [Except.error.inj h]
      · intro h
        rw [Except.error.inj h]
  | ok directoryRules =>
      cases hlist : fs.list directory.current with
      | error e =>
          simp only [reduceCtorEq, iff_false]
          intro h
          obtain rfl : e = .stackOverflow := Except.error.inj h
          exact MemoryFileSystem.list_ne _ hlist
      | ok listed => simp

theorem hangs_iff {directory : WalkedDirectory} :
    (sourceWalk fs root).Hangs .stackOverflow directory ↔ MergeLoop fs root directory := by
  constructor
  · rintro ⟨reached, hreach, hopens⟩
    obtain ⟨rules, hrules, hmerges⟩ := sourceWalk_opens_overflow_iff.mp hopens
    exact ⟨reached, rules, hreach, hrules, hmerges⟩
  · rintro ⟨reached, rules, hreach, hrules, hmerges⟩
    exact ⟨reached, hreach, sourceWalk_opens_overflow_iff.mpr ⟨rules, hrules, hmerges⟩⟩

/-- The tree is finite, so an endless path goes through a link. -/
theorem endless_iff {directory : WalkedDirectory} :
    (sourceWalk fs root).Endless directory ↔ LinkLoop fs root directory := by
  constructor
  · rintro ⟨places, finds, hzero, hsteps⟩
    have hlisted : ∀ n, ∃ listed, fs.list (places n).current = .ok listed ∧
        (finds n).2 ∈ listed := by
      intro n
      obtain ⟨founds, hopens, hmem⟩ := (hsteps n).listed
      exact (sourceWalk_opens hopens hmem).1
    have hdown : ∀ n, ¬ FollowsLink fs (finds n) →
        (places (n + 1)).current = (finds n).2.path := by
      intro n hn
      obtain ⟨before, after, b, -, -, hvisit⟩ := hsteps n
      obtain ⟨entry, happly, hcurrent, -⟩ := sourceWalk_visit hvisit
      have hnone : followedDirectoryWalkPath entry (finds n).1.options.symlinkMode = none := by
        rw [← Option.not_isSome_iff_eq_none]
        exact fun hsome => hn ⟨entry, happly, hsome⟩
      rw [hcurrent, hnone]
      rfl
    obtain ⟨link, hlink⟩ := exists_followed_again hlisted hdown
    exact ⟨places, finds, link, hzero, hsteps, hlink⟩
  · rintro ⟨places, finds, link, hzero, hsteps, -⟩
    exact ⟨places, finds, hzero, hsteps⟩

theorem recordEntry_ok (found : Key × WalkEntry) (entries : Entries) :
    ∃ entries', recordEntry found entries = .ok entries' := ⟨_, rfl⟩

theorem sourceWalk_ends_iff {directory : WalkedDirectory} {entries : Entries} :
    (sourceWalk fs root).Ends recordEntry .stackOverflow directory entries ↔
      ¬ LinkLoop fs root directory ∧ ¬ MergeLoop fs root directory := by
  rw [← endless_iff, ← hangs_iff, ← not_or]
  constructor
  · intro hends hloop
    exact (sourceWalk fs root).not_ends recordEntry_ok hloop entries hends
  · intro hloop
    rw [not_or] at hloop
    exact (sourceWalk fs root).ends_of sourceWalk_visit_ne (fun _ _ h => by cases h) hloop.1
      hloop.2 entries

/-! ## The modes that follow no directory link -/

theorem symlinkMode_of_enters {directory below : WalkedDirectory}
    {found : WalkedDirectory × WalkEntry}
    (h : (sourceWalk fs root).Enters directory found below) :
    found.1.options.symlinkMode = directory.options.symlinkMode ∧
      below.options.symlinkMode = directory.options.symlinkMode := by
  obtain ⟨founds, hopens, hmem⟩ := h.listed
  have hmode := (sourceWalk_opens hopens hmem).2
  obtain ⟨before, after, b, -, -, hvisit⟩ := h
  obtain ⟨-, -, -, hoptions⟩ := sourceWalk_visit hvisit
  exact ⟨hmode, by rw [hoptions, hmode]⟩

theorem not_linkLoop {directory : WalkedDirectory}
    (hmode : directory.options.symlinkMode ∈ [.skip, .preserve, .safeOnly, .munge]) :
    ¬ LinkLoop fs root directory := by
  rintro ⟨places, finds, link, rfl, hsteps, hagain⟩
  have hmodes : ∀ n, (places n).options.symlinkMode = (places 0).options.symlinkMode := by
    intro n
    induction n with
    | zero => rfl
    | succ n ih => rw [(symlinkMode_of_enters (hsteps n)).2, ih]
  obtain ⟨m, -, ⟨entry, -, hfollows⟩, -⟩ := hagain 0
  rw [(symlinkMode_of_enters (hsteps m)).1, hmodes m] at hfollows
  have hnone : followedDirectoryWalkPath entry (places 0).options.symlinkMode = none := by
    unfold followedDirectoryWalkPath
    simp only [List.mem_cons, List.not_mem_nil, or_false] at hmode
    rcases hmode with h | h | h | h <;> rw [h] <;> split <;> try rfl
    all_goals split <;> rfl
  rw [hnone] at hfollows
  cases hfollows

theorem ends_iff_of_mode {directory : WalkedDirectory}
    (hmode : directory.options.symlinkMode ∈ [.skip, .preserve, .safeOnly, .munge])
    {entries : Entries} :
    (sourceWalk fs root).Ends recordEntry .stackOverflow directory entries ↔
      ¬ MergeLoop fs root directory := by
  rw [sourceWalk_ends_iff]
  exact and_iff_right (not_linkLoop hmode)

end Loops

end RsyncWin.Fs
