import RsyncWin.Fs.RunRules

/-!
# What a change reaches

Where there are no symlinks, a change of the file system reaches the path it
names: everything else stays, up to new directories. The paths that a sync
names all lie below its destination.
-/

namespace RsyncWin.Fs

open ByteString MemoryFileSystem

/-- The paths whose content a change may replace or take. -/
def FsAct.Hits (x : Key) : FsAct → Prop
  | .createDirAll _ => False
  | .removeFile path => path.names = some x
  | .removeDirAll path => ∃ key, path.names = some key ∧ key <+: x
  | .copyFile _ dest _ => dest.names = some x
  | .renameFile source dest => source.names = some x ∨ dest.names = some x
  | .appendFileFrom path _ _ => path.names = some x
  | .createSymlink path _ => path.names = some x
  | .createHardLink _ link => link.names = some x
  | .setMtime _ _ => False

/-- The paths that a change resolves, following the symlinks on the way. -/
def FsAct.Resolves (x : Key) : FsAct → Prop
  | .createDirAll path => path.names = some x
  | .removeFile _ => False
  | .removeDirAll _ => False
  | .copyFile _ dest _ => dest.names = some x
  | .renameFile _ dest => dest.names = some x
  | .appendFileFrom path _ _ => path.names = some x
  | .createSymlink path _ => ∃ key, path.names = some key ∧ x = key.dropLast
  | .createHardLink existing link => existing.names = some x ∨ link.names = some x
  | .setMtime _ _ => False

section Touches

variable {fs : MemoryFileSystem}

/-- What a change brings to a path it hits: nothing, a file, or what it has moved there. -/
def Brought (c : PathTree Bytes Content) (change : FsAct) (brought : Option Content) : Prop :=
  brought = none ∨ (∃ bytes, brought = some (.file, bytes)) ∨ brought = some dirContent ∨
    ∃ source dest y, change = .renameFile source dest ∧ source.names = some y ∧ brought = c y

theorem brought_placed {c : PathTree Bytes Content} {change : FsAct} {key x : Key} {bytes : Bytes}
    {Hits : Prop} (hhits : x = key → Hits) :
    Stays c (c.place key (.file, bytes) dirContent) x ∨
      (Hits ∧ Brought c change (c.place key (.file, bytes) dirContent x)) := by
  by_cases hx : x = key
  · rw [hx, PathTree.place_self]
    exact Or.inr ⟨hhits hx, Or.inr (Or.inl ⟨bytes, rfl⟩)⟩
  · exact Or.inl (stays_place hx)

theorem brought_updated {c : PathTree Bytes Content} {change : FsAct} {key x : Key}
    {brought : Option Content} {Hits : Prop} (hhits : x = key → Hits)
    (hbrought : Brought c change brought) :
    Stays c (Function.update c key brought) x ∨
      (Hits ∧ Brought c change (Function.update c key brought x)) := by
  by_cases hx : x = key
  · rw [hx, Function.update_self]
    exact Or.inr ⟨hhits hx, hbrought⟩
  · rw [Stays, Function.update_of_ne hx]
    exact Or.inl (Or.inl rfl)

/-- Every change, path by path. A symlink is brought only by making one. -/
theorem content_run (change : FsAct) (hclear : ∀ y, change.Resolves y → Clear fs.content y)
    (x : Key) :
    Stays fs.content (change.run fs).2.content x ∨
      (change.Hits x ∧ (Brought fs.content change ((change.run fs).2.content x) ∨
        ∃ path target, change = .createSymlink path target)) := by
  cases change with
  | createDirAll path =>
      rw [FsAct.run]
      cases hp : path.names with
      | none =>
          rw [createDirAll_of_none hp]
          exact Or.inl (.refl _ _)
      | some key =>
          rw [createDirAll_of_clear hp (hclear key hp), content_createDirs]
          exact Or.inl (stays_fill _ _ _)
  | removeFile path =>
      rw [FsAct.run]
      cases hp : path.names with
      | none =>
          rw [removeFile_of_none hp]
          exact Or.inl (.refl _ _)
      | some key =>
          rcases removeFile_cases hp with ⟨e, hrun, -⟩ | ⟨c, fs', -, -, hrun, hc⟩
          · rw [hrun]
            exact Or.inl (.refl _ _)
          · rw [hrun, hc]
            refine (brought_updated ?_ (Or.inl rfl)).imp_right fun h => ⟨h.1, Or.inl h.2⟩
            rintro rfl
            exact hp
  | removeDirAll path =>
      rw [FsAct.run]
      cases hp : path.names with
      | none =>
          rw [removeDirAll_of_none hp]
          exact Or.inl (.refl _ _)
      | some key =>
          rcases removeDirAll_cases hp with ⟨e, hrun, -⟩ | ⟨fs', -, hrun, hc⟩
          · rw [hrun]
            exact Or.inl (.refl _ _)
          · rw [hrun, Stays, hc]
            by_cases hpre : key <+: x
            · rw [PathTree.prune_of_prefix hpre]
              exact Or.inr ⟨⟨key, hp, hpre⟩, Or.inl (Or.inl rfl)⟩
            · rw [PathTree.prune_of_not hpre]
              exact Or.inl (Or.inl rfl)
  | copyFile source dest mode =>
      rw [FsAct.run]
      cases hp : dest.names with
      | none =>
          rw [copyFile_of_none hp]
          exact Or.inl (.refl _ _)
      | some key =>
          rcases copyFile_of_clear hp (hclear key hp) mode with
            ⟨e, -, hrun⟩ | ⟨bytes, fs', -, hrun, hc⟩
          · rw [hrun]
            exact Or.inl (.refl _ _)
          · rw [hrun, hc]
            refine (brought_placed ?_).imp_right fun h => ⟨h.1, Or.inl h.2⟩
            rintro rfl
            exact hp
  | renameFile source dest =>
      rw [FsAct.run]
      cases hs : source.names with
      | none =>
          rw [renameFile_of_none (Or.inl hs)]
          exact Or.inl (.refl _ _)
      | some skey =>
          cases hp : dest.names with
          | none =>
              rw [renameFile_of_none (Or.inr hp)]
              exact Or.inl (.refl _ _)
          | some key =>
              obtain ⟨fs₁, hc₁, -, ⟨e, hrun⟩ | ⟨c, fs', hcs, hrun, hc⟩⟩ :=
                renameFile_of_clear hs hp (hclear key hp)
              · rw [hrun]
                exact Or.inl (hc₁ x)
              · rw [hrun, Stays, hc]
                by_cases hxk : x = key
                · rw [hxk, Function.update_self]
                  refine Or.inr ⟨Or.inr (hxk ▸ hp), Or.inl (Or.inr (Or.inr ?_))⟩
                  rcases hc₁ skey with h | ⟨-, h⟩
                  · exact Or.inr ⟨source, dest, skey, rfl, hs, by rw [← h, hcs]⟩
                  · exact Or.inl (by rw [← h, hcs])
                · rw [Function.update_of_ne hxk]
                  by_cases hxs : x = skey
                  · rw [hxs, Function.update_self]
                    exact Or.inr ⟨Or.inl (hxs ▸ hs), Or.inl (Or.inl rfl)⟩
                  · rw [Function.update_of_ne hxs]
                    exact Or.inl (hc₁ x)
  | appendFileFrom path source offset =>
      rw [FsAct.run]
      cases hp : path.names with
      | none =>
          rw [appendFileFrom_of_none hp]
          exact Or.inl (.refl _ _)
      | some key =>
          rcases appendFileFrom_of_clear hp (hclear key hp) offset with
            ⟨e, hrun⟩ | ⟨bytes, tail, fs', -, -, hrun, hc⟩
          · rw [hrun]
            exact Or.inl (.refl _ _)
          · rw [hrun, hc]
            refine (brought_updated ?_ (Or.inr (Or.inl ⟨_, rfl⟩))).imp_right
              fun h => ⟨h.1, Or.inl h.2⟩
            rintro rfl
            exact hp
  | createSymlink path target =>
      rw [FsAct.run]
      cases hp : path.names with
      | none =>
          rw [createSymlink_of_none hp]
          exact Or.inl (.refl _ _)
      | some key =>
          obtain ⟨fs', hrun, hc⟩ := createSymlink_of_clear hp (hclear _ ⟨key, hp, rfl⟩)
          rw [hrun, hc]
          by_cases hx : x = key
          · exact Or.inr ⟨hx ▸ hp, Or.inr ⟨path, target, rfl⟩⟩
          · exact Or.inl (stays_place hx)
  | createHardLink existing link =>
      rw [FsAct.run]
      cases he : existing.names with
      | none =>
          rw [createHardLink_of_none (Or.inl he)]
          exact Or.inl (.refl _ _)
      | some ekey =>
          cases hp : link.names with
          | none =>
              rw [createHardLink_of_none (Or.inr hp)]
              exact Or.inl (.refl _ _)
          | some key =>
              rcases createHardLink_of_clear he hp (hclear ekey (Or.inl he))
                (hclear key (Or.inr hp)) with ⟨e, hrun⟩ | ⟨bytes, fs', -, hrun, hc⟩
              · rw [hrun]
                exact Or.inl (.refl _ _)
              · rw [hrun, hc]
                refine (brought_placed ?_).imp_right fun h => ⟨h.1, Or.inl h.2⟩
                rintro rfl
                exact hp
  | setMtime path modified =>
      rw [FsAct.run, Stays, content_setMtime]
      exact Or.inl (Or.inl rfl)

/-- A change leaves what it does not hit. -/
theorem stays_run_of_clear {change : FsAct} {x : Key}
    (hclear : ∀ y, change.Resolves y → Clear fs.content y) (hx : ¬ change.Hits x) :
    Stays fs.content (change.run fs).2.content x :=
  (content_run change hclear x).resolve_right fun h => hx h.1

theorem stays_run (hfree : SymlinkFree fs.content) {change : FsAct} {x : Key}
    (hx : ¬ change.Hits x) : Stays fs.content (change.run fs).2.content x :=
  stays_run_of_clear (fun y _ => hfree.clear y) hx

/-- A path that is not a symlink becomes one only where one is made. -/
theorem not_symlink_run {change : FsAct} {x : Key}
    (hclear : ∀ y, change.Resolves y → Clear fs.content y)
    (hsource : ∀ source dest y b, change = .renameFile source dest → source.names = some y →
      fs.content y ≠ some (.symlink, b))
    (hmade : ∀ path target, change = .createSymlink path target → path.names ≠ some x)
    (hx : ∀ b, fs.content x ≠ some (.symlink, b)) (b : Bytes) :
    (change.run fs).2.content x ≠ some (.symlink, b) := by
  intro hsym
  rcases content_run change hclear x with (hstay | ⟨-, hstay⟩) | ⟨hhits, hbrought | h⟩
  · exact hx b (hstay ▸ hsym)
  · rw [hsym] at hstay
    cases hstay
  · rcases hbrought with h | ⟨b, h⟩ | h | ⟨source, dest, y, hchange, hy, h⟩
    · rw [hsym] at h
      cases h
    · rw [hsym] at h
      cases h
    · rw [hsym] at h
      cases h
    · exact hsource source dest y b hchange hy (h ▸ hsym)
  · obtain ⟨path, target, rfl⟩ := h
    exact hmade path target rfl hhits

theorem symlinkFree_run (hfree : SymlinkFree fs.content) {change : FsAct}
    (hchange : ∀ path target, change ≠ .createSymlink path target) :
    SymlinkFree (change.run fs).2.content :=
  fun x => not_symlink_run (fun y _ => hfree.clear y) (fun _ _ y b _ _ => hfree y b)
    (fun path target h => absurd h (hchange path target)) (hfree x)

end Touches

/-! ## What a change takes

With or without symlinks, only removals and the source of a rename disappear. -/

/-- The paths whose node a change may take away. -/
def FsAct.Takes (x : Key) : FsAct → Prop
  | .removeFile path => path.names = some x
  | .removeDirAll path => ∃ key, path.names = some key ∧ key <+: x
  | .renameFile source _ => source.names = some x
  | .createDirAll _ => False
  | .copyFile _ _ _ => False
  | .appendFileFrom _ _ _ => False
  | .createSymlink _ _ => False
  | .createHardLink _ _ => False
  | .setMtime _ _ => False

section Takes

variable {fs : MemoryFileSystem} {x : Key}

theorem isSome_insert (h : (fs.content x).isSome) (key : Key) (node : MemoryNode) :
    ((fs.insert key node).content x).isSome := by
  rw [content_insert, Function.update_apply]
  split
  · rfl
  · exact h

theorem isSome_createDirAll (h : (fs.content x).isSome) (path : PathBuf) :
    ((fs.createDirAll path).2.content x).isSome := by
  unfold createDirAll
  split
  · exact h
  · rename_i key _
    obtain ⟨c, hc⟩ := Option.isSome_iff_exists.mp h
    rw [content_createDirs, PathTree.fill_eq_some_of hc]
    rfl

theorem isSome_createParent (h : (fs.content x).isSome) (key : Key) :
    ((fs.createParent key).2.content x).isSome := by
  unfold createParent
  split
  · exact isSome_createDirAll h _
  · exact h

theorem isSome_andThen {r : Outcome} {k : MemoryFileSystem → Outcome}
    (h : (r.2.content x).isSome)
    (hk : ∀ fs' : MemoryFileSystem, (fs'.content x).isSome → ((k fs').2.content x).isSome) :
    ((r.andThen k).2.content x).isSome := by
  obtain ⟨result, fs'⟩ := r
  cases result with
  | error e => exact h
  | ok _ => exact hk fs' h

theorem isSome_writeFileAtomic (h : (fs.content x).isSome) (path : PathBuf) (bytes : Bytes) :
    ((fs.writeFileAtomic path bytes).2.content x).isSome := by
  unfold writeFileAtomic
  split
  · exact h
  · exact isSome_andThen (isSome_createParent h _) fun fs' h' => isSome_insert h' _ _

theorem isSome_createHardLink (h : (fs.content x).isSome) (existing link : PathBuf) :
    ((fs.createHardLink existing link).2.content x).isSome := by
  unfold createHardLink
  split
  · exact h
  · split
    · exact h
    · split
      · exact h
      · rename_i hid
        have h' := h
        rw [← (content_ensureHardlinkId hid).1] at h'
        split
        · exact h'
        · refine isSome_andThen (isSome_createParent h' _) fun fs' h'' => ?_
          rw [content_refreshHardlinkCount]
          exact isSome_insert h'' _ _

/-- What is there stays unless the change takes it. -/
theorem isSome_run {change : FsAct} (hx : ¬ change.Takes x) (h : (fs.content x).isSome) :
    ((change.run fs).2.content x).isSome := by
  cases change with
  | createDirAll path => exact isSome_createDirAll h path
  | removeFile path =>
      rw [FsAct.run]
      cases hp : path.names with
      | none => rwa [removeFile_of_none hp]
      | some key =>
          rcases removeFile_cases hp with ⟨e, hrun, -⟩ | ⟨c, fs', -, -, hrun, hc⟩
          · rwa [hrun]
          · rwa [hrun, hc, Function.update_of_ne (by rintro rfl; exact hx hp)]
  | removeDirAll path =>
      rw [FsAct.run]
      cases hp : path.names with
      | none => rwa [removeDirAll_of_none hp]
      | some key =>
          rcases removeDirAll_cases hp with ⟨e, hrun, -⟩ | ⟨fs', -, hrun, hc⟩
          · rwa [hrun]
          · rwa [hrun, hc, PathTree.prune_of_not fun hpre => hx ⟨key, hp, hpre⟩]
  | copyFile source dest mode =>
      rw [FsAct.run]
      unfold copyFileWithOptions
      split
      · exact h
      · cases mode <;> exact isSome_writeFileAtomic h _ _
  | renameFile source dest =>
      rw [FsAct.run]
      cases hs : source.names with
      | none => rwa [renameFile_of_none (Or.inl hs)]
      | some skey =>
          unfold renameFile
          rw [normalizePortablePath_of_names hs]
          simp only
          split
          · exact h
          · refine isSome_andThen (isSome_createParent h _) fun fs' h' => ?_
            split
            · exact h'
            · refine isSome_insert ?_ _ _
              rwa [content_erase, Function.update_of_ne (by rintro rfl; exact hx hs)]
  | appendFileFrom path source offset =>
      rw [FsAct.run]
      unfold appendFileFrom
      split
      · exact h
      · split
        · exact h
        · unfold appendFile
          split
          · exact h
          · split
            · exact h
            · split
              · exact h
              · exact isSome_insert h _ _
  | createSymlink path target =>
      rw [FsAct.run]
      unfold createSymlink
      split
      · exact h
      · exact isSome_andThen (isSome_createParent h _) fun fs' h' => isSome_insert h' _ _
  | createHardLink existing link => exact isSome_createHardLink h existing link
  | setMtime path modified => rwa [FsAct.run, content_setMtime]

end Takes

/-! ## The paths of a sync -/

section Paths

variable {base : Key} {dest : PathBuf} {options : SyncOptions}

theorem below_appendSuffix {path : PathBuf} {name : Bytes} (h : Below base path) (suffix : Bytes) :
    Below base (appendSuffix (path ++ [.normal name]) suffix) := by
  unfold appendSuffix
  split
  · exact h.append _
  · exact h.withFileName _

/-- A backup is made below the destination. -/
theorem below_backupPathFor (hdest : Below base dest) {path : PathBuf} {relative : Key}
    {name : Bytes} (hpath : Below base path) :
    Below base (backupPathFor dest (path ++ [.normal name]) (Key.path (relative ++ [name]))
      options) := by
  unfold backupPathFor
  cases options.backupDir with
  | none => exact below_appendSuffix hpath _
  | some backupDir =>
      simp only [join_key]
      rw [Key.path_append, show Key.path [name] = [Component.normal name] from rfl,
        ← List.append_assoc, ← List.append_assoc]
      split
      · rename_i habs
        exact below_appendSuffix ((below_of_absolute habs).append _) _
      · exact below_appendSuffix ((hdest.join _).append _) _

theorem below_delayedUpdatePath (hdest : Below base dest) (relative : PathBuf) :
    Below base (delayedUpdatePath dest relative options) := by
  unfold delayedUpdatePath
  cases options.tempDir with
  | none => exact (hdest.join _).join _
  | some tempDir =>
      simp only
      split
      · rename_i habs
        exact (below_of_absolute habs).join _
      · exact (hdest.join _).join _

theorem below_basisFilePath (hdest : Below base dest) (dir relative : PathBuf) :
    Below base (basisFilePath dest dir relative) := by
  unfold basisFilePath
  split
  · rename_i habs
    exact (below_of_absolute habs).join _
  · exact (hdest.join _).join _

/-- The backup of a path that is somewhere below a base is made below the base. -/
theorem below_backup_join {path : PathBuf} {relative : Key} (hrel : relative ≠ [])
    (hdest : Below base dest) (hpath : Below base path) :
    Below base (backupPathFor dest (path ++ Key.path relative) (Key.path relative) options) := by
  cases relative using List.reverseRecOn with
  | nil => exact absurd rfl hrel
  | append_singleton r n =>
      rw [show path ++ Key.path (r ++ [n]) = (path ++ Key.path r) ++ [Component.normal n] by
        rw [Key.path_append, ← List.append_assoc]; rfl]
      exact below_backupPathFor hdest (hpath.append _)

/-- The changes for one entry hit only what is below the destination. -/
theorem EntryAct.hits_below {relative : Key} {name : Bytes} {path : PathBuf} {entry : WalkEntry}
    {linked : PathBuf → Prop} {fs : MemoryFileSystem} {change : FsAct} {x : Key}
    (hdest : Below base dest) (hpath : Below base path)
    (h : EntryAct dest (path ++ [.normal name]) (Key.path (relative ++ [name])) entry options
      linked fs change) (hx : change.Hits x) : base <+: x := by
  have htarget : Below base (path ++ [Component.normal name]) := hpath.append _
  cases h with
  | makeDir hdir => exact hx.elim
  | clearDir hmeta hdir hentry hkeep =>
      obtain ⟨key, hkey, hpre⟩ := hx
      exact (htarget key hkey).trans hpre
  | clearFile => exact htarget x hx
  | backup hbackup hmeta hfile => exact below_backupPathFor hdest hpath x hx
  | link existing hfile hlink => exact htarget x hx
  | copy source mode hfile => exact htarget x hx
  | stage hdelay hfile => exact below_delayedUpdatePath hdest _ x hx
  | append offset happend hfile => exact htarget x hx
  | symlink linkTarget hsym => exact htarget x hx
  | mtime modified => exact hx.elim
  | settle hdelay hfile =>
      rcases hx with hx | hx
      · exact below_delayedUpdatePath hdest _ x hx
      · exact htarget x hx
  | unstage hdelay hfile => exact below_delayedUpdatePath hdest _ x hx

theorem DeleteAct.hits_below {relative : Key} (hrel : relative ≠ []) {entry : WalkEntry}
    (hentry : entry.path = Key.path (base ++ relative)) {fs : MemoryFileSystem} {change : FsAct}
    {x : Key} (hdest : Below base dest) (h : DeleteAct dest relative entry options fs change)
    (hx : change.Hits x) : base <+: x := by
  have hpath : Below base entry.path :=
    below_of_names (by rw [hentry]; exact names_key _) (List.prefix_append _ _)
  cases h with
  | backup hbackup hmeta hfile =>
      rw [hentry, Key.path_append] at hx
      exact below_backup_join hrel hdest (below_of_names (names_key base) List.prefix_rfl) x hx
  | file htype => exact hpath x hx
  | dir htype =>
      obtain ⟨key, hkey, hpre⟩ := hx
      exact (hpath key hkey).trans hpre

/-- The changes of a run's source entries hit only what is below the destination. -/
theorem SyncRun.entryAct_hits_below {run : SyncRun} {relative : Key} (hrel : relative ≠ [])
    {entry : WalkEntry} {fs : MemoryFileSystem} {change : FsAct} {x : Key}
    (hdest : Below base run.dest) (h : run.entryAct relative entry fs change)
    (hx : change.Hits x) : base <+: x := by
  cases relative using List.reverseRecOn with
  | nil => exact absurd rfl hrel
  | append_singleton r n =>
      have htarget : run.dest.join (Key.path (r ++ [n])) =
          (run.dest ++ Key.path r) ++ [Component.normal n] := by
        rw [join_key, Key.path_append, ← List.append_assoc]
        rfl
      unfold SyncRun.entryAct at h
      rw [htarget] at h
      exact h.hits_below hdest (hdest.append _) hx

end Paths

end RsyncWin.Fs
