import RsyncWin.Fs.Effects

/-!
# The source of a sync

A sync refuses a destination inside its source, not a source inside its
destination: there the source is one more directory to clear away. Where the
destination does not contain the source and no symlink leads elsewhere, every
file of the source outlives the run. A single file may be copied to a name of
its own directory, so that its backup and staging paths are paths of that
directory; those must not be the source.
-/

namespace RsyncWin.Fs

open ByteString MemoryFileSystem

/-- What has a content in `c` keeps it on the paths that no change may hit. -/
theorem kept_frame {P : Key → Prop} {c : PathTree Bytes Content} {dryRun : Bool}
    {allowed : MemoryFileSystem → FsAct → Prop}
    (hhits : ∀ fs change x, allowed fs change → P x → ¬ change.Hits x)
    (hsym : ∀ fs change path target, allowed fs change → change ≠ .createSymlink path target) :
    Kept dryRun allowed fun w =>
      SymlinkFree w.fs.content ∧ ∀ x a, P x → c x = some a → w.fs.content x = some a where
  push _ _ h := h
  act w change _ h hallowed :=
    ⟨symlinkFree_run h.1 fun path target => hsym w.fs change path target hallowed,
      fun x a hx ha => (stays_run h.1 (hhits w.fs change x hallowed hx)).some (h.2 x a hx ha)⟩

theorem not_prefix_of_apart {sk dk x : Key} (hsd : ¬ sk <+: dk) (hds : ¬ dk <+: sk)
    (hx : sk <+: x) : ¬ dk <+: x := by
  intro hdx
  rcases List.prefix_or_prefix_of_prefix hx hdx with h | h
  · exact hsd h
  · exact hds h

section Source

variable {fs : MemoryFileSystem} {source dest : PathBuf} {options : SyncOptions} {sk dk : Key}

/-- The source of a run stays as it was in all its states. -/
theorem ensures_execute_source {stack : Nat} {run : SyncRun} (hwf : WellFormed fs)
    (hfree : SymlinkFree fs.content) (hs : source.names = some sk) (hd : dest.names = some dk)
    (hsd : ¬ sk <+: dk) (hds : ¬ dk <+: sk)
    (hrun : Prepared stack fs source dest options run) (actions : List SyncAction) :
    run.execute.Ensures syncHandler (fun w => SymlinkFree w.fs.content ∧
        ∀ x a, sk <+: x → fs.content x = some a → w.fs.content x = some a)
      (fun _ _ => True) ⟨fs, actions⟩ := by
  have hsource := hrun.sourceTree (hwf.noFollow_of_symlinkFree hfree _) hs
  have hdest := hrun.destTree hwf hd
  have hbelow : Below dk run.dest := by
    rw [hrun.dest_eq]
    exact below_of_names hd (List.prefix_refl dk)
  refine (SyncRun.ensures_execute ?_ ?_ ?_ ⟨hfree, fun x a _ ha => ha⟩).mono fun _ _ _ => trivial
  · refine kept_frame ?_ ?_
    · rintro _ _ x rfl _ hhit
      exact hhit
    · rintro _ _ path target rfl h
      cases h
  · intro relative entry hentry
    refine kept_frame ?_ ?_
    · intro _ change x hact hx hhit
      exact not_prefix_of_apart hsd hds hx
        (SyncRun.entryAct_hits_below (hsource.ne_nil _ _ hentry) hbelow hact hhit)
    · rintro _ _ path target hact rfl
      cases hact with
      | symlink _ hsym =>
          obtain ⟨bytes, hc⟩ := hsource.content hentry
          exact hfree _ bytes (hsym ▸ hc)
  · intro relative entry hentry _ _
    refine kept_frame ?_ ?_
    · intro _ change x hact hx hhit
      exact not_prefix_of_apart hsd hds hx
        (hact.hits_below (hdest.ne_nil _ _ hentry) (hdest.path_eq hentry) hbelow hhit)
    · rintro _ _ path target hact rfl
      cases hact

/-- Neither the backup nor the staged copy of a single target is made at the source. -/
def SparesSource (options : SyncOptions) (target : PathBuf) (sk : Key) : Prop :=
  (options.backup = true → (backupPathFor (singleFileRoot target) target
    (singleFileRelative target) options).names ≠ some sk) ∧
  (options.delayUpdates = true → (delayedUpdatePath (singleFileRoot target)
    (singleFileRelative target) options).names ≠ some sk)

theorem below_singleFileTarget {target : PathBuf} (hd : dest.names = some dk)
    (h : singleFileTarget fs source dest = .ok target) : Below dk target := by
  have hdest : Below dk dest := below_of_names hd (List.prefix_refl dk)
  unfold singleFileTarget at h
  split at h
  · split at h
    · split at h
      · cases h
        exact hdest.join _
      · cases h
    · cases h
      exact hdest
  · cases h
    exact hdest

theorem ensures_syncSingleFile_source {metadata : PortableMetadata} (hfree : SymlinkFree fs.content)
    (hfile : metadata.fileType = .file) (hd : dest.names = some dk) (hds : ¬ dk <+: sk)
    (hside : ∀ target, singleFileTarget fs source dest = .ok target →
      SparesSource options target sk) (actions : List SyncAction) :
    (syncSingleFile source metadata dest options).Ensures syncHandler
      (fun w => SymlinkFree w.fs.content ∧
        ∀ x a, x = sk → fs.content x = some a → w.fs.content x = some a)
      (fun _ _ => True) ⟨fs, actions⟩ := by
  refine (ensures_syncSingleFile hfile (fun target htarget => ?_)
    ⟨hfree, fun x a _ ha => ha⟩).mono fun _ _ _ => trivial
  have hbelow := below_singleFileTarget hd htarget
  obtain ⟨hbackup, hstage⟩ := hside target htarget
  refine kept_frame ?_ ?_
  · rintro _ change x hact rfl hhit
    have htargetHit : target.names ≠ some x := fun h => hds (hbelow x h)
    cases hact with
    | makeDir hdir => exact hhit
    | clearDir hmeta hdir hentry hkeep =>
        obtain ⟨key, hkey, hpre⟩ := hhit
        exact hds ((hbelow key hkey).trans hpre)
    | clearFile => exact htargetHit hhit
    | backup hb hmeta hfile => exact hbackup hb hhit
    | link existing hfile hlink => exact htargetHit hhit
    | copy source mode hfile => exact htargetHit hhit
    | stage hdelay hfile => exact hstage hdelay hhit
    | append offset happend hfile => exact htargetHit hhit
    | symlink linkTarget hsym => exact htargetHit hhit
    | mtime modified => exact hhit
    | settle hdelay hfile =>
        rcases hhit with hhit | hhit
        · exact hstage hdelay hhit
        · exact htargetHit hhit
    | unstage hdelay hfile => exact hstage hdelay hhit
  · rintro _ _ path target hact rfl
    cases hact with
    | symlink _ hsym =>
        rw [hfile] at hsym
        cases hsym

end Source

/-- In every state of every run the files of the source are what they were. -/
theorem syncTree_source_outlives {fs : MemoryFileSystem} {stack : Nat} {source dest : PathBuf}
    {options : SyncOptions} {sk : Key} (hwf : WellFormed fs) (hfree : SymlinkFree fs.content)
    (hs : source.names = some sk) (hds : ∀ dk, dest.names = some dk → ¬ dk <+: sk)
    (hside : ∀ bytes target, fs.content sk = some (.file, bytes) →
      singleFileTarget fs source dest = .ok target → SparesSource options target sk) :
    ∀ w ∈ (syncTree stack source dest options).states syncHandler ⟨fs, []⟩,
      ∀ x bytes, sk <+: x → fs.content x = some (.file, bytes) →
        w.fs.content x = some (.file, bytes) := by
  refine Prog.Ensures.always (Q := fun _ _ => True)
    (ensures_syncTree (fun x bytes _ hx => hx) ?_ ?_)
  · intro metadata hroots hfile
    obtain ⟨sk', dk, hs', hd, -, hmeta⟩ := checkRoots_eq_ok hroots
    obtain ⟨b, hc⟩ := content_of_metadata hs hmeta
    rw [hfile] at hc
    refine (ensures_syncSingleFile_source hfree hfile hd (hds dk hd)
      (fun target htarget => hside b target hc htarget) []).mono_always ?_
    rintro w ⟨-, hkeep⟩ x bytes ⟨rest, rfl⟩ hx
    -- nothing is below a file
    by_cases hrest : rest = []
    · subst hrest
      rw [List.append_nil] at hx ⊢
      exact hkeep sk _ rfl hx
    · obtain ⟨p, hp, hdir⟩ := hwf.tree.above hx hrest
      rw [hc] at hp
      cases hp
      cases hdir
  · intro metadata run hroots _ hprepare
    obtain ⟨sk', dk, hs', hd, hsd, -⟩ := checkRoots_eq_ok hroots
    obtain rfl : sk = sk' := Option.some.inj (hs.symm.trans hs')
    refine (ensures_execute_source hwf hfree hs hd hsd (hds dk hd) (prepared_of_prepare hprepare)
      []).mono_always ?_
    exact fun w h x bytes hx hc => h.2 x _ hx hc

/-- `s/f` goes to `d` with a deleting sync, and stays. -/
theorem syncTree_source_outlives_delete :
    (withFiles [([[0x73], [0x66]], [1]), ([[0x64], [0x67]], [2])]).content [[0x73], [0x66]] =
      some (.file, [1]) ∧
    ∀ w ∈ (syncTree 8 (Key.path [[0x73]]) (Key.path [[0x64]])
        { dryRun := false, delete := true }).states syncHandler
        ⟨withFiles [([[0x73], [0x66]], [1]), ([[0x64], [0x67]], [2])], []⟩,
      ∀ x bytes, [[0x73]] <+: x →
        (withFiles [([[0x73], [0x66]], [1]), ([[0x64], [0x67]], [2])]).content x =
          some (.file, bytes) → w.fs.content x = some (.file, bytes) := by
  refine ⟨by decide +kernel,
    syncTree_source_outlives (by decide +kernel) (by decide +kernel) rfl ?_ ?_⟩
  · rintro dk ⟨⟩
    decide
  · intro bytes target hfile _
    exact absurd hfile (by
      rw [show (withFiles [([[0x73], [0x66]], [1]), ([[0x64], [0x67]], [2])]).content [[0x73]] =
        some (.directory, []) by decide +kernel]
      simp)

/-- `d/s` is synced to `d` with deletion; `s` holds a directory that is a link
back to `s` in `d`; `f~` is copied to `f` with a backup. -/
theorem syncTree_loses_source :
    (let fs := withFiles [([[0x64], [0x73], [0x66]], [1])]
     fs.content [[0x64], [0x73], [0x66]] = some (.file, [1]) ∧
      ((syncTree 8 (Key.path [[0x64], [0x73]]) (Key.path [[0x64]])
        { dryRun := false, delete := true }).run syncHandler ⟨fs, []⟩).state.fs.content
          [[0x64], [0x73], [0x66]] = none) ∧
    (let fs := ((withFiles [([[0x73], [0x6c], [0x66]], [1]), ([[0x73], [0x66]], [2]),
        ([[0x64], [0x67]], [3])]).createSymlink (Key.path [[0x64], [0x6c]])
          [.parentDir, .normal [0x73]]).2
     fs.content [[0x73], [0x66]] = some (.file, [2]) ∧
      ((syncTree 8 (Key.path [[0x73]]) (Key.path [[0x64]])
        { dryRun := false, keepDirlinks := true }).run syncHandler ⟨fs, []⟩).state.fs.content
          [[0x73], [0x66]] = some (.file, [1])) ∧
    (let fs := withFiles [([[0x66, 0x7e]], [1]), ([[0x66]], [2])]
     fs.content [[0x66, 0x7e]] = some (.file, [1]) ∧
      ((syncTree 8 (Key.path [[0x66, 0x7e]]) (Key.path [[0x66]])
        { dryRun := false, backup := true }).run syncHandler ⟨fs, []⟩).state.fs.content
          [[0x66, 0x7e]] = some (.file, [2])) := by
  decide +kernel

end RsyncWin.Fs
