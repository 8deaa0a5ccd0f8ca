import RsyncWin.Fs.SourceFrame

/-!
# What a sync reaches

Node by node: without symlinks a change of the file system reaches the paths it
names, and all else stays up to new directories above those. A sync names only
paths below its destination, and beside it where the backup and the staged copy of
a single file go. A new hard link is counted in every node of its file.
-/

namespace RsyncWin.Fs

open ByteString MemoryFileSystem

/-! ## One change -/

/-- The paths whose node a change may replace, alter or take. -/
def FsAct.Reaches (x : Key) : FsAct → Prop
  | .createDirAll path => path.names = some x
  | .createHardLink existing link => existing.names = some x ∨ link.names = some x
  | .setMtime path _ => path.names = some x
  | change => change.Hits x

section Run

variable {β : Type} {f : MemoryNode → β} {T : Key → Prop} {fs : MemoryFileSystem} {key : Key}

/-- A view of nodes that does not show how many links they have. -/
def Uncounted (f : MemoryNode → β) : Prop :=
  ∀ node count, f { node with metadata := { node.metadata with hardlinkCount := count } } = f node

theorem framed_insert (hkey : T key) (node : MemoryNode) :
    PathTree.Framed f directoryNode T fs.get (fs.insert key node).get := by
  rw [get_insert]
  exact PathTree.framed_update hkey _

theorem framed_erase (hkey : T key) : PathTree.Framed f directoryNode T fs.get (fs.erase key).get := by
  rw [get_erase]
  exact PathTree.framed_update hkey _

/-- Making the directory of a path reaches nothing but what is above the path. -/
theorem framed_createParent (hclear : Clear fs.content key) (hkey : T key) :
    ∃ fs', fs.createParent key = (.ok (), fs') ∧
      PathTree.Framed f directoryNode T fs.get fs'.get := by
  cases key using List.reverseRecOn with
  | nil => exact ⟨fs, rfl, .refl _⟩
  | append_singleton k n =>
      refine ⟨fs.createDirs k, ?_, ?_⟩
      · unfold createParent
        rw [parent_key_concat]
        exact createDirAll_of_clear (names_key k) (hclear.of_prefix (List.prefix_append k [n]))
      · rw [get_createDirs]
        exact PathTree.framed_fill (List.prefix_append k [n]) hkey

theorem framed_writeFileAtomic {path : PathBuf} (hp : path.names = some key)
    (hclear : Clear fs.content key) (hkey : T key) (bytes : Bytes) :
    PathTree.Framed f directoryNode T fs.get (fs.writeFileAtomic path bytes).2.get := by
  obtain ⟨fs', hparent, hframed⟩ := framed_createParent hclear hkey
  unfold writeFileAtomic
  rw [resolveWritePath_of_clear hp hclear]
  simp only [hparent, Outcome.andThen]
  exact hframed.trans (framed_insert hkey _)

theorem framed_refreshHardlinkCount (hf : Uncounted f) (id : HardlinkId) :
    PathTree.Framed f directoryNode T fs.get (fs.refreshHardlinkCount id).get := by
  refine PathTree.framed_of_map fun x => ?_
  unfold refreshHardlinkCount MemoryFileSystem.get
  rw [Std.TreeMap.getElem?_map, Option.map_map]
  congr 1
  funext node
  simp only [Function.comp]
  split
  · exact hf node _
  · rfl

theorem framed_ensureHardlinkId {id : HardlinkId} {fs' : MemoryFileSystem} (hkey : T key)
    (h : fs.ensureHardlinkId key = .ok (id, fs')) :
    PathTree.Framed f directoryNode T fs.get fs'.get := by
  unfold ensureHardlinkId at h
  split at h
  · cases h
  · split at h
    · cases h
    · split at h
      · cases h
        exact .refl _
      · cases h
        exact framed_insert hkey _

theorem framed_createHardLink {existing link : PathBuf} {ekey : Key} (hf : Uncounted f)
    (he : existing.names = some ekey) (hp : link.names = some key)
    (hclearE : Clear fs.content ekey) (hclear : Clear fs.content key) (hekey : T ekey)
    (hkey : T key) :
    PathTree.Framed f directoryNode T fs.get (fs.createHardLink existing link).2.get := by
  unfold createHardLink
  rw [resolveWritePath_of_clear he hclearE, resolveWritePath_of_clear hp hclear]
  simp only
  cases hid : fs.ensureHardlinkId ekey with
  | error e => exact .refl _
  | ok idfs =>
      obtain ⟨id, fs₁⟩ := idfs
      have hframed₁ : PathTree.Framed f directoryNode T fs.get fs₁.get := framed_ensureHardlinkId hekey hid
      simp only
      split
      · exact hframed₁
      · rename_i node _
        have hclear₁ : Clear fs₁.content key := by rwa [(content_ensureHardlinkId hid).1]
        obtain ⟨fs₂, hparent, hframed₂⟩ := framed_createParent (f := f) hclear₁ hkey
        simp only [hparent, Outcome.andThen]
        exact ((hframed₁.trans hframed₂).trans (framed_insert hkey _)).trans
          (framed_refreshHardlinkCount hf id)

theorem framed_renameFile {source path : PathBuf} {skey : Key} (hs : source.names = some skey)
    (hp : path.names = some key) (hclear : Clear fs.content key) (hskey : T skey) (hkey : T key) :
    PathTree.Framed f directoryNode T fs.get (fs.renameFile source path).2.get := by
  obtain ⟨fs', hparent, hframed⟩ := framed_createParent (f := f) hclear hkey
  unfold renameFile
  rw [normalizePortablePath_of_names hs, resolveWritePath_of_clear hp hclear]
  simp only [hparent, Outcome.andThen]
  split
  · exact hframed
  · exact (hframed.trans (framed_erase hskey)).trans (framed_insert hkey _)

theorem framed_appendFileFrom {path source : PathBuf} (hp : path.names = some key)
    (hclear : Clear fs.content key) (hkey : T key) (offset : Nat) :
    PathTree.Framed f directoryNode T fs.get (fs.appendFileFrom path source offset).2.get := by
  unfold appendFileFrom
  split
  · exact .refl _
  · split
    · exact .refl _
    · unfold appendFile
      rw [resolveWritePath_of_clear hp hclear]
      simp only
      split
      · exact .refl _
      · split
        · exact .refl _
        · exact framed_insert hkey _

/-- A change alters what it reaches. -/
theorem framed_run (hfree : SymlinkFree fs.content) {change : FsAct}
    (hf : ∀ existing link, change = .createHardLink existing link → Uncounted f)
    (hT : ∀ x, change.Reaches x → T x) :
    PathTree.Framed f directoryNode T fs.get (change.run fs).2.get := by
  cases change with
  | createDirAll path =>
      rw [FsAct.run]
      cases hp : path.names with
      | none =>
          rw [createDirAll_of_none hp]
          exact .refl _
      | some key =>
          rw [createDirAll_of_clear hp (hfree.clear key), get_createDirs]
          exact PathTree.framed_fill (List.prefix_refl key) (hT key hp)
  | removeFile path =>
      rw [FsAct.run]
      cases hp : path.names with
      | none =>
          rw [removeFile_of_none hp]
          exact .refl _
      | some key =>
          unfold removeFile
          rw [normalizePortablePath_of_names hp]
          simp only
          split
          · exact .refl _
          · split
            · exact .refl _
            · exact framed_erase (hT key hp)
  | removeDirAll path =>
      rw [FsAct.run]
      cases hp : path.names with
      | none =>
          rw [removeDirAll_of_none hp]
          exact .refl _
      | some key =>
          unfold removeDirAll
          rw [normalizePortablePath_of_names hp]
          simp only
          split
          · exact .refl _
          · split
            · rw [get_eraseBelow]
              exact PathTree.framed_prune fun x hx => hT x ⟨key, hp, hx⟩
            · exact .refl _
  | copyFile source dest mode =>
      rw [FsAct.run]
      cases hp : dest.names with
      | none =>
          rw [copyFile_of_none hp]
          exact .refl _
      | some key =>
          unfold copyFileWithOptions
          split
          · exact .refl _
          · cases mode <;> exact framed_writeFileAtomic hp (hfree.clear key) (hT key hp) _
  | renameFile source dest =>
      rw [FsAct.run]
      cases hs : source.names with
      | none =>
          rw [renameFile_of_none (Or.inl hs)]
          exact .refl _
      | some skey =>
          cases hp : dest.names with
          | none =>
              rw [renameFile_of_none (Or.inr hp)]
              exact .refl _
          | some key =>
              exact framed_renameFile hs hp (hfree.clear key) (hT skey (Or.inl hs))
                (hT key (Or.inr hp))
  | appendFileFrom path source offset =>
      rw [FsAct.run]
      cases hp : path.names with
      | none =>
          rw [appendFileFrom_of_none hp]
          exact .refl _
      | some key => exact framed_appendFileFrom hp (hfree.clear key) (hT key hp) offset
  | createSymlink path target =>
      rw [FsAct.run]
      cases hp : path.names with
      | none =>
          rw [createSymlink_of_none hp]
          exact .refl _
      | some key =>
          obtain ⟨fs', hparent, hframed⟩ := framed_createParent (f := f) (hfree.clear key) (hT key hp)
          unfold createSymlink
          rw [normalizePortablePath_of_names hp]
          simp only [hparent, Outcome.andThen]
          exact hframed.trans (framed_insert (hT key hp) _)
  | createHardLink existing link =>
      rw [FsAct.run]
      cases he : existing.names with
      | none =>
          rw [createHardLink_of_none (Or.inl he)]
          exact .refl _
      | some ekey =>
          cases hp : link.names with
          | none =>
              rw [createHardLink_of_none (Or.inr hp)]
              exact .refl _
          | some key =>
              exact framed_createHardLink (hf existing link rfl) he hp (hfree.clear ekey)
                (hfree.clear key) (hT ekey (Or.inl he)) (hT key (Or.inr hp))
  | setMtime path modified =>
      rw [FsAct.run]
      cases hp : path.names with
      | none =>
          unfold setMtime
          rw [normalizePortablePath_of_none hp]
          exact .refl _
      | some key =>
          unfold setMtime
          rw [normalizePortablePath_of_names hp]
          simp only
          split
          · exact .refl _
          · exact framed_insert (hT key hp) _

end Run

/-! ## The changes of a sync -/

/-- What a change reaches it hits, or it makes a directory, sets a time or links there. -/
theorem FsAct.reaches_cases {change : FsAct} {x : Key} (h : change.Reaches x) :
    change.Hits x ∨ ∃ path, path.names = some x ∧
      (change = .createDirAll path ∨ (∃ modified, change = .setMtime path modified) ∨
        ∃ link, change = .createHardLink path link) := by
  cases change with
  | createDirAll path => exact Or.inr ⟨path, h, Or.inl rfl⟩
  | createHardLink existing link =>
      rcases h with h | h
      · exact Or.inr ⟨existing, h, Or.inr (Or.inr ⟨link, rfl⟩)⟩
      · exact Or.inl h
  | setMtime path modified => exact Or.inr ⟨path, h, Or.inr (Or.inl ⟨modified, rfl⟩)⟩
  | _ => exact Or.inl h

theorem DeleteAct.hits_of_reaches {dest : PathBuf} {relative : Key} {entry : WalkEntry}
    {options : SyncOptions} {fs : MemoryFileSystem} {change : FsAct} {x : Key}
    (h : DeleteAct dest relative entry options fs change) (hx : change.Reaches x) :
    change.Hits x := by
  cases h <;> exact hx

/-- Without alternate directories to link from, the changes of a run's source entries
reach only what is below the destination. -/
theorem SyncRun.entryAct_reaches_below {run : SyncRun} {relative base : Key}
    (hrel : relative ≠ []) (hlink : run.options.linkDest = []) {entry : WalkEntry}
    {fs : MemoryFileSystem} {change : FsAct} {x : Key} (hdest : Below base run.dest)
    (h : run.entryAct relative entry fs change) (hx : change.Reaches x) : base <+: x := by
  have htarget : Below base (run.dest.join relative.path) := hdest.join _
  rcases FsAct.reaches_cases hx with hhit | ⟨path, hpath, hchange⟩
  · exact SyncRun.entryAct_hits_below hrel hdest h hhit
  · cases h with
    | makeDir hdir =>
        obtain rfl : run.dest.join relative.path = path := by simpa using hchange
        exact htarget x hpath
    | link existing hfile hexisting =>
        obtain rfl : existing = path := by simpa using hchange
        rcases hexisting with ⟨-, r, e, -, -, rfl⟩ | hdirs
        · exact (hdest.join _) x hpath
        · simp [hlink] at hdirs
    | mtime modified =>
        obtain rfl : run.dest.join relative.path = path := by simpa using hchange
        exact htarget x hpath
    | _ => simp at hchange

section Kept

variable {β : Type} {f : MemoryNode → β} {T : Key → Prop} {start : MemoryFileSystem}

/-- All that a sync has done so far is within `T`. -/
def Within (f : MemoryNode → β) (T : Key → Prop) (start : MemoryFileSystem) (w : World) : Prop :=
  SymlinkFree w.fs.content ∧ PathTree.Framed f directoryNode T start.get w.fs.get

theorem kept_within {dryRun : Bool} {allowed : MemoryFileSystem → FsAct → Prop}
    (hf : ∀ fs existing link, allowed fs (.createHardLink existing link) → Uncounted f)
    (hT : ∀ fs change x, allowed fs change → change.Reaches x → T x)
    (hsym : ∀ fs path target, ¬ allowed fs (.createSymlink path target)) :
    Kept dryRun allowed (Within f T start) where
  push _ _ h := h
  act w change _ h hallowed := by
    refine ⟨symlinkFree_run h.1 fun path target hchange => ?_, h.2.trans (framed_run h.1 ?_ ?_)⟩
    · exact hsym w.fs path target (hchange ▸ hallowed)
    · exact fun existing link hchange => hf w.fs existing link (hchange ▸ hallowed)
    · exact fun x => hT w.fs change x hallowed

end Kept

/-! ## A whole sync -/

/-- A node as it can be seen where links are not kept: with its link count. -/
def MemoryNode.seen (preserveHardLinks : Bool) (node : MemoryNode) : MemoryNode :=
  if preserveHardLinks then { node with metadata := { node.metadata with hardlinkCount := none } }
  else node

theorem uncounted_seen {preserveHardLinks : Bool} (h : preserveHardLinks = true) :
    Uncounted (MemoryNode.seen preserveHardLinks) := by
  intro node count
  unfold MemoryNode.seen
  rw [if_pos h, if_pos h]

/-- Beside its destination, where it is no directory, a single file may leave its
backup, and its staged copy on the way. -/
def Beside (fs : MemoryFileSystem) (source dest : PathBuf) (options : SyncOptions) (x : Key) :
    Prop :=
  singleFileTarget fs source dest = .ok dest ∧
    ((options.backup = true ∧ (appendSuffix dest options.backupSuffix).names = some x) ∨
      (options.delayUpdates = true ∧
        (((singleFileRoot dest).join [.normal delayedDirName]).join
          (singleFileRelative dest)).names = some x))

/-- The paths that a sync may reach. -/
def Reachable (fs : MemoryFileSystem) (source dest : PathBuf) (options : SyncOptions) (x : Key) :
    Prop :=
  (∃ dk, dest.names = some dk ∧ dk <+: x) ∨
    ((∃ metadata, fs.metadata source = .ok metadata ∧ metadata.fileType = .file) ∧
      Beside fs source dest options x)

section Sync

variable {fs : MemoryFileSystem} {source dest : PathBuf} {options : SyncOptions} {dk : Key}

theorem ensures_execute_within {T : Key → Prop} {stack : Nat} {run : SyncRun}
    (hfree : SymlinkFree fs.content) (hlink : options.linkDest = []) (hd : dest.names = some dk)
    (hT : ∀ x, dk <+: x → T x) (hrun : Prepared stack fs source dest options run) :
    run.execute.Ensures syncHandler (Within (MemoryNode.seen options.preserveHardLinks) T fs)
      (fun _ _ => True) ⟨fs, []⟩ := by
  have hsource := all_sourceEntriesOf (visits_symlinkFree hfree _ _) trivial hrun.source
  have hdestEntries := all_destEntriesOf (visits_preserve fs dest dk) (by simpa using hd)
    hrun.destination
  have hbelow : Below dk run.dest := by
    rw [hrun.dest_eq]
    exact below_of_names hd (List.prefix_refl dk)
  refine (SyncRun.ensures_execute ?_ ?_ ?_ ⟨hfree, .refl _⟩).mono fun _ _ _ => trivial
  · refine kept_within (by simp) ?_ (by simp)
    rintro _ _ x rfl hx
    exact hT x (hbelow x hx)
  · intro relative entry hentry
    obtain ⟨hrel, htype⟩ := hsource relative entry hentry
    refine kept_within ?_ ?_ ?_
    · intro fs' existing link hact
      cases hact with
      | link _ _ hpreserve =>
          simp only [hrun.options_eq, hlink] at hpreserve
          exact uncounted_seen (hpreserve.resolve_right (by simp)).1
    · intro fs' change x hact hx
      refine hT x (SyncRun.entryAct_reaches_below hrel ?_ hbelow hact hx)
      rw [hrun.options_eq, hlink]
    · intro fs' path target hact
      cases hact with
      | symlink _ hsym => exact htype hsym
  · intro relative entry hentry _ _
    obtain ⟨hrel, hpath⟩ := hdestEntries relative entry hentry
    refine kept_within (fun _ _ _ hact => by cases hact) ?_ (fun _ _ _ hact => by cases hact)
    exact fun fs' change x hact hx =>
      hT x (hact.hits_below hrel hpath hbelow (hact.hits_of_reaches hx))

/-- The paths that a single file names. -/
theorem singleFile_reachable {metadata : PortableMetadata} {target : PathBuf}
    (hbackup : options.backupDir = none) (htemp : options.tempDir = none)
    (hlink : options.linkDest = []) (hd : dest.names = some dk)
    (hmeta : fs.metadata source = .ok metadata) (hfile : metadata.fileType = .file)
    (htarget : singleFileTarget fs source dest = .ok target) {fs' : MemoryFileSystem}
    {change : FsAct} {x : Key}
    (hact : EntryAct (singleFileRoot target) target (singleFileRelative target) ⟨source, metadata⟩
      options (fun _ => False) fs' change) (hx : change.Reaches x) :
    Reachable fs source dest options x := by
  have hbelow : Below dk target := below_singleFileTarget hd htarget
  have hat : ∀ {y}, target.names = some y → y <+: x → Reachable fs source dest options x :=
    fun hy hpre => Or.inl ⟨dk, hd, (hbelow _ hy).trans hpre⟩
  have hhere : target.names = some x → Reachable fs source dest options x :=
    fun h => hat h (List.prefix_refl x)
  -- a target inside the destination has its backup and its staged copy there
  have hinside : target ≠ dest → ∃ name, target = dest ++ [.normal name] := by
    intro hne
    unfold singleFileTarget at htarget
    split at htarget
    · split at htarget
      · split at htarget
        · rename_i name _
          refine ⟨name, ?_⟩
          rw [← Except.ok.inj htarget]
          exact join_key dest [name]
        · cases htarget
      · exact absurd (Except.ok.inj htarget).symm hne
    · exact absurd (Except.ok.inj htarget).symm hne
  have hkept : options.backup = true →
      (backupPathFor (singleFileRoot target) target (singleFileRelative target) options).names =
        some x → Reachable fs source dest options x := by
    intro hb hpath
    unfold backupPathFor at hpath
    rw [hbackup] at hpath
    by_cases heq : target = dest
    · subst heq
      exact Or.inr ⟨⟨metadata, hmeta, hfile⟩, htarget, Or.inl ⟨hb, hpath⟩⟩
    · obtain ⟨name, rfl⟩ := hinside heq
      exact Or.inl ⟨dk, hd,
        below_appendSuffix (below_of_names hd (List.prefix_refl dk)) _ x hpath⟩
  have hstaged : options.delayUpdates = true →
      (delayedUpdatePath (singleFileRoot target) (singleFileRelative target) options).names =
        some x → Reachable fs source dest options x := by
    intro hdelay hpath
    unfold delayedUpdatePath at hpath
    rw [htemp] at hpath
    by_cases heq : target = dest
    · subst heq
      exact Or.inr ⟨⟨metadata, hmeta, hfile⟩, htarget, Or.inr ⟨hdelay, hpath⟩⟩
    · obtain ⟨name, rfl⟩ := hinside heq
      have hroot : singleFileRoot (dest ++ [Component.normal name]) = dest := by
        simp [singleFileRoot, PathBuf.parent]
      rw [hroot] at hpath
      exact Or.inl ⟨dk, hd, ((below_of_names hd (List.prefix_refl dk)).join _).join _ x hpath⟩
  cases hact with
  | makeDir hdir => exact hhere hx
  | clearDir hm hdir hentry hkeep =>
      obtain ⟨key, hkey, hpre⟩ := hx
      exact hat hkey hpre
  | clearFile => exact hhere hx
  | backup hb hm ht => exact hkept hb hx
  | link existing hf hlinked =>
      rcases hlinked with ⟨-, h⟩ | h
      · exact h.elim
      · simp [hlink] at h
  | copy source mode hf => exact hhere hx
  | stage hdelay hf => exact hstaged hdelay hx
  | append offset happend hf => exact hhere hx
  | symlink linkTarget hsym => exact hhere hx
  | mtime modified => exact hhere hx
  | settle hdelay hf =>
      rcases hx with hx | hx
      · exact hstaged hdelay hx
      · exact hhere hx
  | unstage hdelay hf => exact hstaged hdelay hx

theorem ensures_syncSingleFile_within {metadata : PortableMetadata}
    (hfree : SymlinkFree fs.content) (hbackup : options.backupDir = none)
    (htemp : options.tempDir = none) (hlink : options.linkDest = []) (hd : dest.names = some dk)
    (hmeta : fs.metadata source = .ok metadata) (hfile : metadata.fileType = .file) :
    (syncSingleFile source metadata dest options).Ensures syncHandler
      (Within (MemoryNode.seen options.preserveHardLinks) (Reachable fs source dest options) fs)
      (fun _ _ => True) ⟨fs, []⟩ := by
  refine (ensures_syncSingleFile hfile (fun target htarget => ?_)
    ⟨hfree, .refl _⟩).mono fun _ _ _ => trivial
  refine kept_within ?_ ?_ ?_
  · intro fs' existing link hact
    cases hact with
    | link _ _ hlinked =>
        rcases hlinked with ⟨hpreserve, -⟩ | h
        · exact uncounted_seen hpreserve
        · simp [hlink] at h
  · exact fun fs' change x hact hx =>
      singleFile_reachable hbackup htemp hlink hd hmeta hfile htarget hact hx
  · intro fs' path linkTarget hact
    cases hact with
    | symlink _ hsym =>
        rw [show (⟨source, metadata⟩ : WalkEntry).metadata.fileType = _ from hfile] at hsym
        cases hsym

end Sync

/-- In every state of a sync, what it may not reach is as it was, up to link counts
where links are kept, or is a new directory above what it may reach. -/
theorem syncTree_reaches {fs : MemoryFileSystem} (hfree : SymlinkFree fs.content)
    {options : SyncOptions} (hbackup : options.backupDir = none) (htemp : options.tempDir = none)
    (hlink : options.linkDest = []) (stack : Nat) (source dest : PathBuf) :
    ∀ w ∈ (syncTree stack source dest options).states syncHandler ⟨fs, []⟩,
      ∀ x, ¬ Reachable fs source dest options x →
        (w.fs.get x).map (MemoryNode.seen options.preserveHardLinks) =
            (fs.get x).map (MemoryNode.seen options.preserveHardLinks) ∨
          (fs.get x = none ∧
            (w.fs.get x).map (MemoryNode.seen options.preserveHardLinks) = some directoryNode ∧
            ∃ y, Reachable fs source dest options y ∧ x <+: y) := by
  have hdir : MemoryNode.seen options.preserveHardLinks directoryNode = directoryNode := by
    unfold MemoryNode.seen
    split <;> rfl
  have hensures : (syncTree stack source dest options).Ensures syncHandler
      (Within (MemoryNode.seen options.preserveHardLinks) (Reachable fs source dest options) fs)
      (fun _ _ => True) ⟨fs, []⟩ := by
    refine ensures_syncTree ⟨hfree, .refl _⟩ ?_ ?_
    · intro metadata hroots hfile
      obtain ⟨sk, dk, -, hd, -, hmeta⟩ := checkRoots_eq_ok hroots
      exact ensures_syncSingleFile_within hfree hbackup htemp hlink hd hmeta hfile
    · intro metadata run hroots _ hprepare
      obtain ⟨sk, dk, -, hd, -, -⟩ := checkRoots_eq_ok hroots
      exact ensures_execute_within hfree hlink hd (fun x hx => Or.inl ⟨dk, hd, hx⟩)
        (prepared_of_prepare hprepare)
  intro w hw x hx
  have hframed := (hensures.always w hw).2 x hx
  rwa [hdir] at hframed

/-- `s/f` goes to `d` with backups, delayed updates and deletion. -/
theorem syncTree_reaches_backup :
    (let fs := withFiles [([[0x73], [0x66]], [1]), ([[0x64], [0x66]], [2]), ([[0x64], [0x67]], [3])]
     let options : SyncOptions :=
       { dryRun := false, delete := true, backup := true, delayUpdates := true,
         updateMode := .ignoreTimes }
     ∀ w ∈ (syncTree 8 (Key.path [[0x73]]) (Key.path [[0x64]]) options).states syncHandler ⟨fs, []⟩,
       ∀ x, ¬ Reachable fs (Key.path [[0x73]]) (Key.path [[0x64]]) options x →
         (w.fs.get x).map (MemoryNode.seen false) = (fs.get x).map (MemoryNode.seen false) ∨
           (fs.get x = none ∧ (w.fs.get x).map (MemoryNode.seen false) = some directoryNode ∧
             ∃ y, Reachable fs (Key.path [[0x73]]) (Key.path [[0x64]]) options y ∧ x <+: y)) :=
  syncTree_reaches (by decide +kernel) rfl rfl rfl 8 (Key.path [[0x73]]) (Key.path [[0x64]])

/-- A file that replaces `d` leaves its backup at `d~` and its staging directory
beside `d`; a link to `d/a`, which is the file `x` as well, is counted in `x`. -/
theorem syncTree_reaches_beside :
    (let fs := withFiles [([[0x73]], [1]), ([[0x64]], [2])]
     let after := ((syncTree 8 (Key.path [[0x73]]) (Key.path [[0x64]])
       { dryRun := false, backup := true, delayUpdates := true,
         updateMode := .ignoreTimes }).run syncHandler ⟨fs, []⟩).state.fs
     fs.get [[0x64, 0x7e]] = none ∧ after.get [[0x64, 0x7e]] = some (fileNode [2]) ∧
       fs.get [delayedDirName] = none ∧ after.get [delayedDirName] = some directoryNode) ∧
    (let linked := (withFiles [([[0x73], [0x61]], [1]), ([[0x64], [0x61]], [1])]).createHardLink
       (Key.path [[0x73], [0x61]]) (Key.path [[0x73], [0x62]])
     let fs := (linked.2.createHardLink (Key.path [[0x64], [0x61]]) (Key.path [[0x78]])).2
     let after := ((syncTree 8 (Key.path [[0x73]]) (Key.path [[0x64]])
       { dryRun := false, preserveHardLinks := true, ignoreExisting := true }).run syncHandler
         ⟨fs, []⟩).state.fs
     ((fs.get [[0x78]]).bind fun node => node.metadata.hardlinkCount) = some 2 ∧
       ((after.get [[0x78]]).bind fun node => node.metadata.hardlinkCount) = some 3) := by
  decide +kernel

end RsyncWin.Fs
