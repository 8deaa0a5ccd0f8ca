import RsyncWin.Fs.Sync
import RsyncWin.Fs.EntriesLaws

/-!
# What the steps of a sync may do to the file system

For every step of a sync the changes it may make, each with what the step has
seen just before. A property that those changes and the report keep holds all
along the step, whether it succeeds or not.
-/

namespace RsyncWin.Fs

open ByteString

/-! ## The operations -/

section Rules

variable {I : World → Prop} {α : Type} {Q : α → World → Prop} {w : World}

theorem ensures_look {k : MemoryFileSystem → SyncProg α} (hw : I w)
    (hk : (k w.fs).Ensures syncHandler I Q w) : (look >>= k).Ensures syncHandler I Q w := by
  refine ⟨hw, fun r s' h => ?_⟩
  obtain ⟨rfl, rfl⟩ := Prod.mk.inj (Option.some.inj h)
  exact hk

theorem ensures_report {k : Unit → SyncProg α} {action : SyncAction} (hw : I w)
    (hk : (k ()).Ensures syncHandler I Q { w with report := w.report ++ [action] }) :
    (report action >>= k).Ensures syncHandler I Q w := by
  refine ⟨hw, fun r s' h => ?_⟩
  obtain ⟨rfl, rfl⟩ := Prod.mk.inj (Option.some.inj h)
  exact hk

theorem ensures_tryAct {k : Except FsError Unit → SyncProg α} {change : FsAct} (hw : I w)
    (hk : (k (change.run w.fs).1).Ensures syncHandler I Q
      { w with fs := (change.run w.fs).2 }) :
    (tryAct change >>= k).Ensures syncHandler I Q w := by
  refine ⟨hw, fun r s' h => ?_⟩
  obtain ⟨rfl, rfl⟩ := Prod.mk.inj (Option.some.inj h)
  exact hk

/-- A change that fails ends the program, in the state it has reached. -/
theorem ensures_act {k : Unit → SyncProg α} {change : FsAct} (hw : I w)
    (hdone : I { w with fs := (change.run w.fs).2 })
    (hk : (change.run w.fs).1 = .ok () →
      (k ()).Ensures syncHandler I Q { w with fs := (change.run w.fs).2 }) :
    (act change >>= k).Ensures syncHandler I Q w := by
  unfold act
  rw [Prog.bind_assoc]
  refine ensures_tryAct hw ?_
  cases hr : (change.run w.fs).1 with
  | error e => exact hdone
  | ok u => exact hk hr

theorem ensures_actUnlessDry {k : Unit → SyncProg α} {options : SyncOptions} {change : FsAct}
    (hw : I w) (hdry : options.dryRun = true → (k ()).Ensures syncHandler I Q w)
    (hdone : options.dryRun = false → I { w with fs := (change.run w.fs).2 })
    (hk : options.dryRun = false → (change.run w.fs).1 = .ok () →
      (k ()).Ensures syncHandler I Q { w with fs := (change.run w.fs).2 }) :
    (actUnlessDry options change >>= k).Ensures syncHandler I Q w := by
  unfold actUnlessDry
  cases h : options.dryRun with
  | true => exact hdry h
  | false => exact ensures_act hw (hdone h) (hk h)

theorem run_look (k : MemoryFileSystem → SyncProg α) (w : World) :
    (look >>= k).run syncHandler w = (k w.fs).run syncHandler w := rfl

/-- One program after another, by what is known when the first returns. -/
theorem ensures_seq {β : Type} {p : SyncProg β} {k : β → SyncProg α} {R : β → World → Prop}
    (hp : p.Ensures syncHandler I R w)
    (hk : ∀ b t, R b t → (k b).Ensures syncHandler I Q t) :
    (p >>= k).Ensures syncHandler I Q w :=
  (hp.mono hk).bind

end Rules

/-! ## One entry -/

/-- The changes that bringing one entry to its target may make, from the file
system as it is then; `linked` are the targets that earlier entries left to link to. -/
inductive EntryAct (destRoot target relative : PathBuf) (entry : WalkEntry)
    (options : SyncOptions) (linked : PathBuf → Prop) (fs : MemoryFileSystem) : FsAct → Prop
  | makeDir (hdir : entry.metadata.fileType = .directory) :
      EntryAct destRoot target relative entry options linked fs (.createDirAll target)
  | clearDir {metadata : PortableMetadata} (hmeta : fs.metadata target = .ok metadata)
      (hdir : metadata.fileType = .directory)
      (hentry : entry.metadata.fileType = .file ∨ entry.metadata.fileType = .symlink)
      (hkeep : keepsDirectory fs target options = .ok false) :
      EntryAct destRoot target relative entry options linked fs (.removeDirAll target)
  | clearFile : EntryAct destRoot target relative entry options linked fs (.removeFile target)
  | backup {metadata : PortableMetadata} (hbackup : options.backup = true)
      (hmeta : fs.metadata target = .ok metadata) (hfile : metadata.fileType = .file) :
      EntryAct destRoot target relative entry options linked fs
        (.copyFile target (backupPathFor destRoot target relative options) .atomic)
  | link (existing : PathBuf) (hfile : entry.metadata.fileType = .file)
      (hlink : (options.preserveHardLinks = true ∧ linked existing) ∨
        ∃ dir ∈ options.linkDest, existing = basisFilePath destRoot dir relative) :
      EntryAct destRoot target relative entry options linked fs (.createHardLink existing target)
  | copy (source : PathBuf) (mode : FileWriteMode)
      (hfile : entry.metadata.fileType = .file) :
      EntryAct destRoot target relative entry options linked fs (.copyFile source target mode)
  | stage (hdelay : options.delayUpdates = true) (hfile : entry.metadata.fileType = .file) :
      EntryAct destRoot target relative entry options linked fs
        (.copyFile entry.path (delayedUpdatePath destRoot relative options) .atomic)
  | append (offset : Nat) (happend : options.appendVerify = true)
      (hfile : entry.metadata.fileType = .file) :
      EntryAct destRoot target relative entry options linked fs
        (.appendFileFrom target entry.path offset)
  | symlink (linkTarget : PathBuf) (hsym : entry.metadata.fileType = .symlink) :
      EntryAct destRoot target relative entry options linked fs (.createSymlink target linkTarget)
  | mtime (modified : Int) :
      EntryAct destRoot target relative entry options linked fs (.setMtime target modified)
  | settle (hdelay : options.delayUpdates = true) (hfile : entry.metadata.fileType = .file) :
      EntryAct destRoot target relative entry options linked fs
        (.renameFile (delayedUpdatePath destRoot relative options) target)
  | unstage (hdelay : options.delayUpdates = true) (hfile : entry.metadata.fileType = .file) :
      EntryAct destRoot target relative entry options linked fs
        (.removeFile (delayedUpdatePath destRoot relative options))

/-- A property of a run that the report does not touch and that every change of
`allowed` keeps, unless the run is dry. -/
structure Kept (dryRun : Bool) (allowed : MemoryFileSystem → FsAct → Prop) (I : World → Prop) :
    Prop where
  push : ∀ w action, I w → I { w with report := w.report ++ [action] }
  act : ∀ w change, dryRun = false → I w → allowed w.fs change →
    I { w with fs := (change.run w.fs).2 }

namespace Kept

variable {I : World → Prop} {dryRun : Bool} {allowed : MemoryFileSystem → FsAct → Prop}
  {options : SyncOptions} {w : World}

theorem ensures_report_end (hI : Kept dryRun allowed I) (hw : I w) (action : SyncAction) :
    (report action).Ensures syncHandler I (fun _ => I) w :=
  ensures_report (k := .ret) hw ⟨hI.push w action hw, hI.push w action hw⟩

theorem ensures_act_end (hI : Kept dryRun allowed I) (hdry : dryRun = false) (hw : I w)
    {change : FsAct} (hallowed : allowed w.fs change) :
    (Fs.act change).Ensures syncHandler I (fun _ => I) w := by
  have hdone := hI.act w change hdry hw hallowed
  rw [← Prog.bind_ret (Fs.act change)]
  exact ensures_act hw hdone fun _ => ⟨hdone, hdone⟩

theorem ensures_actUnlessDry_end (hI : Kept options.dryRun allowed I) (hw : I w)
    {change : FsAct} (hallowed : allowed w.fs change) :
    (actUnlessDry options change).Ensures syncHandler I (fun _ => I) w := by
  unfold actUnlessDry
  cases h : options.dryRun with
  | true => exact ⟨hw, hw⟩
  | false => exact hI.ensures_act_end h hw hallowed

end Kept

/-- What a state remembers to link to. -/
def Remembered (linked : PathBuf → Prop) (state : TransferState) : Prop :=
  ∀ link ∈ state.hardlinkTargets, linked link.2

theorem remembered_empty (linked : PathBuf → Prop) : Remembered linked {} := by
  simp [Remembered]

theorem Remembered.of_hardlinkTarget {linked : PathBuf → Prop} {target : PathBuf}
    {state : TransferState} {id : HardlinkId} (h : Remembered linked state)
    (htarget : state.hardlinkTarget id = some target) : linked target := by
  unfold TransferState.hardlinkTarget at htarget
  obtain ⟨link, hfind, rfl⟩ := Option.map_eq_some_iff.mp htarget
  exact h link (List.mem_of_find?_eq_some hfind)

section Entry

variable {I : World → Prop} {destRoot target relative : PathBuf} {entry : WalkEntry}
  {options : SyncOptions} {linked : PathBuf → Prop} {w : World}

/-- A backup, for whatever step allows it. -/
theorem ensures_backup {allowed : MemoryFileSystem → FsAct → Prop}
    (hI : Kept options.dryRun allowed I)
    (hallowed : ∀ metadata, options.backup = true → w.fs.metadata target = .ok metadata →
      metadata.fileType = .file →
      allowed w.fs (.copyFile target (backupPathFor destRoot target relative options) .atomic))
    (hw : I w) :
    (backupReceiverFile destRoot target relative options).Ensures syncHandler I (fun _ => I) w := by
  unfold backupReceiverFile
  by_cases hbackup : options.backup = true
  · rw [if_pos hbackup]
    refine ensures_look hw ?_
    cases hmeta : w.fs.metadata target with
    | error e => exact ⟨hw, hw⟩
    | ok metadata =>
        by_cases hfile : metadata.fileType = .file
        · simp only [hfile, ne_eq, not_true_eq_false, if_false]
          refine ensures_report hw ?_
          exact hI.ensures_actUnlessDry_end (hI.push w _ hw) (hallowed metadata hbackup hmeta hfile)
        · simp only [ne_eq, hfile, not_false_eq_true, if_true]
          exact ⟨hw, hw⟩
  · rw [if_neg hbackup]
    exact ⟨hw, hw⟩

theorem ensures_backupReceiverFile
    (hI : Kept options.dryRun (EntryAct destRoot target relative entry options linked) I) (hw : I w) :
    (backupReceiverFile destRoot target relative options).Ensures syncHandler I (fun _ => I) w :=
  ensures_backup hI (fun _ hbackup hmeta hfile => .backup hbackup hmeta hfile) hw

/-- Making way, for whatever step allows the changes it takes. -/
theorem ensures_makeWay {allowed : MemoryFileSystem → FsAct → Prop} {sourceType : FileType}
    (hI : Kept options.dryRun allowed I)
    (hbackup : ∀ t metadata, options.backup = true → t.fs.metadata target = .ok metadata →
      metadata.fileType = .file → I t →
      allowed t.fs (.copyFile target (backupPathFor destRoot target relative options) .atomic))
    (hdirectory : ∀ t metadata, t.fs.metadata target = .ok metadata →
      metadata.fileType = .directory → sourceType ≠ .directory →
      keepsDirectory t.fs target options = .ok false → I t → allowed t.fs (.removeDirAll target))
    (hfile : ∀ t, I t → allowed t.fs (.removeFile target)) (hw : I w) :
    (removeConflictingTarget destRoot target relative sourceType options).Ensures syncHandler I
      (fun _ => I) w := by
  unfold removeConflictingTarget
  refine ensures_look hw ?_
  cases hmeta : w.fs.metadata target with
  | error e => exact ⟨hw, hw⟩
  | ok metadata =>
      simp only
      split
      · exact ⟨hw, hw⟩
      · split
        · exact ⟨hw, hw⟩
        · rename_i hne
          split
          · rename_i hdir
            cases hkeep : keepsDirectory w.fs target options with
            | error e => exact hw
            | ok keep =>
                cases keep with
                | true => exact ensures_report hw ⟨hI.push w _ hw, hI.push w _ hw⟩
                | false =>
                    have hallowed := hdirectory w metadata hmeta hdir
                      (fun h => hne (hdir.trans h.symm)) hkeep hw
                    refine ensures_report hw ?_
                    exact ensures_seq (hI.ensures_actUnlessDry_end (hI.push w _ hw) hallowed)
                      fun _ t ht => ⟨ht, ht⟩
          · refine ensures_seq (ensures_backup hI
              (fun metadata hb hmeta htype => hbackup w metadata hb hmeta htype hw) hw)
              fun _ t ht => ?_
            refine ensures_report ht ?_
            exact ensures_seq (hI.ensures_actUnlessDry_end (hI.push t _ ht) (hfile t ht))
              fun _ u hu => ⟨hu, hu⟩

theorem ensures_removeConflictingTarget {sourceType : FileType}
    (hI : Kept options.dryRun (EntryAct destRoot target relative entry options linked) I)
    (htype : sourceType = entry.metadata.fileType)
    (hkind : sourceType = .directory ∨ sourceType = .file ∨ sourceType = .symlink) (hw : I w) :
    (removeConflictingTarget destRoot target relative sourceType options).Ensures syncHandler I
      (fun _ => I) w := by
  refine ensures_makeWay hI (fun t metadata hbackup hmeta hfile _ => .backup hbackup hmeta hfile)
    (fun t metadata hmeta hdir hne hkeep _ => ?_) (fun _ _ => .clearFile) hw
  rw [htype] at hkind hne
  exact .clearDir hmeta hdir (hkind.resolve_left hne) hkeep

theorem ensures_removeExistingFileBeforeHardlink
    (hI : Kept options.dryRun (EntryAct destRoot target relative entry options linked) I)
    (hdry : options.dryRun = false) (hw : I w) :
    (removeExistingFileBeforeHardlink target).Ensures syncHandler I (fun _ => I) w := by
  unfold removeExistingFileBeforeHardlink
  refine ensures_look hw ?_
  cases w.fs.metadata target with
  | ok metadata =>
      simp only
      split
      · exact hI.ensures_act_end hdry hw .clearFile
      · exact ⟨hw, hw⟩
  | error e =>
      cases e with
      | notFound path => exact ⟨hw, hw⟩
      | _ => exact hw

/-- The changes that set the time of one path. -/
def MtimeAct (target : PathBuf) (_ : MemoryFileSystem) (change : FsAct) : Prop :=
  ∃ modified, change = .setMtime target modified

theorem Kept.mtime
    (hI : Kept options.dryRun (EntryAct destRoot target relative entry options linked) I) :
    Kept options.dryRun (MtimeAct target) I where
  push := hI.push
  act w change hdry hw hchange := by
    obtain ⟨modified, rfl⟩ := hchange
    exact hI.act w _ hdry hw (.mtime modified)

theorem ensures_preserveTransferredMtime (hI : Kept options.dryRun (MtimeAct target) I)
    {source : WalkEntry} (hw : I w) :
    (preserveTransferredMtime target source options).Ensures syncHandler I (fun _ => I) w := by
  unfold preserveTransferredMtime
  split
  · exact ⟨hw, hw⟩
  · split
    · exact ⟨hw, hw⟩
    · cases source.metadata.modified with
      | none => exact ⟨hw, hw⟩
      | some modified =>
          refine ensures_report hw ?_
          exact hI.ensures_actUnlessDry_end (hI.push w _ hw) ⟨modified, rfl⟩

theorem ensures_preserveExistingFileMtime (hI : Kept options.dryRun (MtimeAct target) I)
    {source : WalkEntry} (hw : I w) :
    (preserveExistingFileMtime target source options).Ensures syncHandler I (fun _ => I) w := by
  unfold preserveExistingFileMtime
  split
  · exact ⟨hw, hw⟩
  · cases source.metadata.modified with
    | none => exact ⟨hw, hw⟩
    | some modified =>
        refine ensures_look hw ?_
        cases w.fs.metadata target with
        | error e => exact ⟨hw, hw⟩
        | ok metadata =>
            simp only
            split
            · exact ⟨hw, hw⟩
            · refine ensures_report hw ?_
              exact hI.ensures_actUnlessDry_end (hI.push w _ hw) ⟨modified, rfl⟩

theorem ensures_transferHardLink
    (hI : Kept options.dryRun (EntryAct destRoot target relative entry options linked) I)
    (hfile : entry.metadata.fileType = .file) {state : TransferState}
    (hstate : Remembered linked state) (hw : I w) :
    (transferHardLink destRoot target relative entry options state).Ensures syncHandler I
      (fun _ => I) w := by
  unfold transferHardLink
  split
  · exact ⟨hw, hw⟩
  · rename_i existing hexisting
    have hlink : options.preserveHardLinks = true := by
      by_contra h
      simp [h] at hexisting
    have hpath : linked existing := by
      rw [if_pos hlink] at hexisting
      obtain ⟨id, -, htarget⟩ := Option.bind_eq_some_iff.mp hexisting
      exact hstate.of_hardlinkTarget htarget
    refine ensures_report hw ?_
    have hw := hI.push w (.createHardLink existing target) hw
    split
    · exact ⟨hw, hw⟩
    · rename_i hdry
      rw [Bool.not_eq_true] at hdry
      refine ensures_seq (ensures_backupReceiverFile hI hw) fun _ t ht => ?_
      refine ensures_seq (ensures_removeExistingFileBeforeHardlink hI hdry ht) fun _ u hu => ?_
      refine ensures_tryAct hu ?_
      have hdone := hI.act u (.createHardLink existing target) hdry hu
        (.link existing hfile (Or.inl ⟨hlink, hpath⟩))
      cases (FsAct.run u.fs (.createHardLink existing target)).1 with
      | ok _ =>
          exact ensures_seq (ensures_preserveTransferredMtime hI.mtime hdone) fun _ v hv => ⟨hv, hv⟩
      | error err => exact ensures_report hdone ⟨hI.push _ _ hdone, hI.push _ _ hdone⟩

theorem findBasis_eq_some {fs : MemoryFileSystem} {dirs : List PathBuf} {basis : PathBuf}
    (h : findBasis fs destRoot relative entry dirs = some basis) :
    ∃ dir ∈ dirs, basis = basisFilePath destRoot dir relative := by
  obtain ⟨dir, hdir, heq⟩ := List.mem_map.mp (List.mem_of_find?_eq_some h)
  exact ⟨dir, hdir, heq.symm⟩

/-- Without basis directories no basis is found. -/
theorem checkBasisDirs_nil {fs : MemoryFileSystem} {destRoot relative : PathBuf} {source : WalkEntry}
    {options : SyncOptions} (hlink : options.linkDest = []) (hcopy : options.copyDest = [])
    (hcompare : options.compareDest = []) :
    checkBasisDirs fs destRoot relative source options = none := by
  simp [checkBasisDirs, hlink, hcopy, hcompare, findBasis]

theorem linkDest_of_checkBasisDirs {fs : MemoryFileSystem} {basis : PathBuf}
    (h : checkBasisDirs fs destRoot relative entry options = some (.linkFrom basis)) :
    ∃ dir ∈ options.linkDest, basis = basisFilePath destRoot dir relative := by
  unfold checkBasisDirs at h
  split at h
  · rename_i hfind
    cases h
    exact findBasis_eq_some hfind
  · split at h
    · cases h
    · split at h <;> cases h

theorem copyDest_of_checkBasisDirs {fs : MemoryFileSystem} {basis : PathBuf}
    (h : checkBasisDirs fs destRoot relative entry options = some (.copyFrom basis)) :
    ∃ dir ∈ options.copyDest, basis = basisFilePath destRoot dir relative := by
  unfold checkBasisDirs at h
  split at h
  · cases h
  · split at h
    · rename_i hfind
      cases h
      exact findBasis_eq_some hfind
    · split at h <;> cases h

theorem compareDest_of_checkBasisDirs {fs : MemoryFileSystem}
    (h : checkBasisDirs fs destRoot relative entry options = some .skip) :
    ∃ dir, dir ∈ options.compareDest := by
  unfold checkBasisDirs at h
  split at h
  · cases h
  · split at h
    · cases h
    · split at h
      · rename_i hfind
        obtain ⟨dir, hdir, -⟩ := findBasis_eq_some hfind
        exact ⟨dir, hdir⟩
      · cases h

theorem ensures_transferBasis
    (hI : Kept options.dryRun (EntryAct destRoot target relative entry options linked) I)
    (hfile : entry.metadata.fileType = .file) (hw : I w) :
    (transferBasis destRoot target relative entry options).Ensures syncHandler I
      (fun _ => I) w := by
  have hend : ∀ t, I t → ((do
      preserveTransferredMtime target entry options
      pure true) : SyncProg Bool).Ensures syncHandler I (fun _ => I) t := fun t ht =>
    ensures_seq (ensures_preserveTransferredMtime hI.mtime ht) fun _ u hu => ⟨hu, hu⟩
  unfold transferBasis
  refine ensures_look hw ?_
  cases hbasis : checkBasisDirs w.fs destRoot relative entry options with
  | none => exact ⟨hw, hw⟩
  | some basisAction =>
      cases basisAction with
      | skip => exact ensures_report hw ⟨hI.push w _ hw, hI.push w _ hw⟩
      | copyFrom basis =>
          refine ensures_report hw ?_
          have hw := hI.push w (.writeFile target entry.metadata.len) hw
          split
          · exact hend _ hw
          · rename_i hdry
            rw [Bool.not_eq_true] at hdry
            refine ensures_seq (ensures_backupReceiverFile hI hw) fun _ t ht => ?_
            refine ensures_seq (ensures_removeExistingFileBeforeHardlink hI hdry ht) fun _ u hu => ?_
            have hdone := hI.act u _ hdry hu (.copy basis options.fileWriteMode hfile)
            exact ensures_act hu hdone fun _ => hend _ hdone
      | linkFrom basis =>
          have hlink := linkDest_of_checkBasisDirs hbasis
          refine ensures_report hw ?_
          have hw := hI.push w (.createHardLink basis target) hw
          split
          · exact hend _ hw
          · rename_i hdry
            rw [Bool.not_eq_true] at hdry
            refine ensures_seq (ensures_backupReceiverFile hI hw) fun _ t ht => ?_
            refine ensures_seq (ensures_removeExistingFileBeforeHardlink hI hdry ht) fun _ u hu => ?_
            refine ensures_tryAct hu ?_
            have hdone := hI.act u _ hdry hu (.link basis hfile (Or.inr hlink))
            cases (FsAct.run u.fs (.createHardLink basis target)).1 with
            | ok _ => exact hend _ hdone
            | error err =>
                refine ensures_report hdone ?_
                have hwarn := hI.push _ (.warn target (.linkDestFallback err)) hdone
                have hcopy := hI.act _ _ hdry hwarn (.copy basis options.fileWriteMode hfile)
                exact ensures_act hwarn hcopy fun _ => hend _ hcopy

theorem ensures_transferFuzzy
    (hI : Kept options.dryRun (EntryAct destRoot target relative entry options linked) I)
    (hfile : entry.metadata.fileType = .file) (hw : I w) :
    (transferFuzzy target entry options).Ensures syncHandler I (fun _ => I) w := by
  unfold transferFuzzy
  split
  · rename_i hfuzzy
    rw [Bool.and_eq_true, Bool.not_eq_true'] at hfuzzy
    have hdry : options.dryRun = false := hfuzzy.2
    refine ensures_look hw ?_
    split
    · exact ⟨hw, hw⟩
    · split
      · exact ⟨hw, hw⟩
      · refine ensures_report hw ?_
        exact hI.ensures_act_end hdry (hI.push w _ hw) (.copy _ _ hfile)
  · exact ⟨hw, hw⟩

theorem ensures_transferAppend
    (hI : Kept options.dryRun (EntryAct destRoot target relative entry options linked) I)
    (hfile : entry.metadata.fileType = .file) (hw : I w) :
    (transferAppend target entry options).Ensures syncHandler I (fun _ => I) w := by
  have hend : ∀ t, I t → ((do
      preserveTransferredMtime target entry options
      pure true) : SyncProg Bool).Ensures syncHandler I (fun _ => I) t := fun t ht =>
    ensures_seq (ensures_preserveTransferredMtime hI.mtime ht) fun _ u hu => ⟨hu, hu⟩
  unfold transferAppend
  split
  · rename_i happend
    refine ensures_look hw ?_
    cases appendVerifyOffset w.fs entry.path target entry.metadata.len with
    | error e => exact hw
    | ok offset =>
        cases offset with
        | none => exact ⟨hw, hw⟩
        | some offset =>
            simp only [Prog.ofExcept_ok, Prog.ret_bind]
            split
            · refine ensures_report hw ?_
              have hw := hI.push w (.appendFile target (entry.metadata.len - offset)) hw
              exact ensures_seq (hI.ensures_actUnlessDry_end hw (.append offset happend hfile))
                fun _ t ht => hend t ht
            · exact hend _ hw
  · exact ⟨hw, hw⟩

/-- What a transfer may add to the state: the file it has staged, or its target as
one to link to. -/
structure Extends (destRoot target relative : PathBuf) (entry : WalkEntry) (options : SyncOptions)
    (state state' : TransferState) : Prop where
  mtimes : state'.directoryMtimes = state.directoryMtimes
  delayed : state'.delayedTransfers = state.delayedTransfers ∨
    (options.dryRun = false ∧ options.delayUpdates = true ∧
      state'.delayedTransfers = state.delayedTransfers ++
        [⟨delayedUpdatePath destRoot relative options, target, relative, entry⟩])
  links : state'.hardlinkTargets = state.hardlinkTargets ∨
    ∃ id, entry.metadata.hardlinkId = some id ∧
      state'.hardlinkTargets = state.hardlinkTargets ++ [(id, target)]

theorem Extends.refl (state : TransferState) :
    Extends destRoot target relative entry options state state :=
  ⟨rfl, Or.inl rfl, Or.inl rfl⟩

theorem Extends.remember (state : TransferState) (preserve : Bool) :
    Extends destRoot target relative entry options state
      (rememberHardlinkTarget entry target preserve state) := by
  unfold rememberHardlinkTarget
  split
  · exact .refl state
  · rename_i id hid
    split
    · exact ⟨rfl, Or.inl rfl, Or.inr ⟨id, hid, rfl⟩⟩
    · exact .refl state

theorem ensures_transferWhole
    (hI : Kept options.dryRun (EntryAct destRoot target relative entry options linked) I)
    (hfile : entry.metadata.fileType = .file) {state : TransferState} (hw : I w) :
    (transferWhole destRoot target relative entry options state).Ensures syncHandler I
      (fun state' t => I t ∧ Extends destRoot target relative entry options state state') w := by
  have hend : ∀ t, I t → ((do
      preserveTransferredMtime target entry options
      pure (rememberHardlinkTarget entry target options.preserveHardLinks state)) :
        SyncProg TransferState).Ensures syncHandler I
      (fun state' t => I t ∧ Extends destRoot target relative entry options state state') t :=
    fun t ht => ensures_seq (ensures_preserveTransferredMtime hI.mtime ht) fun _ u hu =>
      ⟨hu, hu, .remember state _⟩
  unfold transferWhole
  refine ensures_report hw ?_
  have hw := hI.push w (writeAction target entry options.fileWriteMode) hw
  split
  · rename_i hdelay
    rw [Bool.and_eq_true, Bool.not_eq_true'] at hdelay
    have hdone := hI.act _ _ hdelay.1 hw (.stage hdelay.2 hfile)
    exact ensures_act hw hdone fun _ =>
      ⟨hdone, hdone, rfl, Or.inr ⟨hdelay.1, hdelay.2, rfl⟩, Or.inl rfl⟩
  · split
    · exact hend _ hw
    · rename_i hdry
      rw [Bool.not_eq_true] at hdry
      refine ensures_seq (ensures_backupReceiverFile hI hw) fun _ t ht => ?_
      have hdone := hI.act t _ hdry ht (.copy entry.path options.fileWriteMode hfile)
      exact ensures_act ht hdone fun _ => hend _ hdone

theorem ensures_transferFile
    (hI : Kept options.dryRun (EntryAct destRoot target relative entry options linked) I)
    (hfile : entry.metadata.fileType = .file) {state : TransferState}
    (hstate : Remembered linked state) (hw : I w) :
    (transferFile destRoot target relative entry options state).Ensures syncHandler I
      (fun state' t => I t ∧ Extends destRoot target relative entry options state state') w := by
  unfold transferFile
  refine ensures_seq (ensures_transferHardLink hI hfile hstate hw) fun linked t ht => ?_
  split
  · exact ⟨ht, ht, .refl state⟩
  · refine ensures_seq (ensures_transferBasis hI hfile ht) fun based t ht => ?_
    split
    · exact ⟨ht, ht, .refl state⟩
    · refine ensures_seq (ensures_transferFuzzy hI hfile ht) fun _ t ht => ?_
      refine ensures_seq (ensures_transferAppend hI hfile ht) fun appended t ht => ?_
      split
      · exact ⟨ht, ht, .refl state⟩
      · exact ensures_transferWhole hI hfile ht

theorem ensures_placeSymlink
    (hI : Kept options.dryRun (EntryAct destRoot target relative entry options linked) I)
    (hdry : options.dryRun = false) (hsym : entry.metadata.fileType = .symlink)
    {linkTarget : PathBuf} (hw : I w) :
    (placeSymlink target linkTarget).Ensures syncHandler I (fun _ => I) w := by
  unfold placeSymlink
  refine ensures_look hw ?_
  split
  · refine ensures_tryAct hw ?_
    exact hI.ensures_act_end hdry (hI.act _ _ hdry hw .clearFile) (.symlink _ hsym)
  · exact hI.ensures_act_end hdry hw (.symlink _ hsym)

theorem ensures_transferSymlink
    (hI : Kept options.dryRun (EntryAct destRoot target relative entry options linked) I)
    (hsym : entry.metadata.fileType = .symlink) (hw : I w) :
    (transferSymlink destRoot target relative entry options).Ensures syncHandler I
      (fun _ => I) w := by
  unfold transferSymlink
  split
  · exact hI.ensures_report_end hw _
  · rename_i linkTarget _
    refine ensures_seq (ensures_removeConflictingTarget hI hsym.symm (by simp) hw) fun removed t ht => ?_
    split
    · refine ensures_report ht ?_
      have ht := hI.push t (.createSymlink target (storedLinkTarget linkTarget options)) ht
      split
      · exact ensures_preserveTransferredMtime hI.mtime ht
      · rename_i hdry
        rw [Bool.not_eq_true] at hdry
        exact ensures_seq (ensures_placeSymlink hI hdry hsym ht)
          fun _ u hu => ensures_preserveTransferredMtime hI.mtime hu
    · exact ⟨ht, ht⟩

theorem ensures_handleNonRegularEntry {allowed : MemoryFileSystem → FsAct → Prop}
    (hI : Kept options.dryRun allowed I) (hw : I w) :
    (handleNonRegularEntry entry options).Ensures syncHandler I (fun _ => I) w := by
  unfold handleNonRegularEntry
  split
  · split
    · exact hw
    · exact hI.ensures_report_end hw _
  · split
    · exact hw
    · exact hI.ensures_report_end hw _
  · exact hI.ensures_report_end hw _

end Entry

end RsyncWin.Fs
