import RsyncWin.Fs.Effects

/-!
# Syncs without side files

Without backups, staging, links and bases all changes for an entry are made at
its target. The target is written only where no symlink leads away: the way to
it has been made, so that its directories are directories and it is itself
nothing or of the right type.
-/

namespace RsyncWin.Fs

open ByteString MemoryFileSystem

structure PlainOptions (options : SyncOptions) : Prop where
  dryRun : options.dryRun = false
  backup : options.backup = false
  delayUpdates : options.delayUpdates = false
  appendVerify : options.appendVerify = false
  fuzzy : options.fuzzy = false
  preserveHardLinks : options.preserveHardLinks = false
  compareDest : options.compareDest = []
  copyDest : options.copyDest = []
  linkDest : options.linkDest = []

/-! ## The changes -/

/-- The changes that bringing one entry to its target makes. -/
inductive StepAct (target : PathBuf) (key : Key) (entry : WalkEntry) (options : SyncOptions)
    (fs : MemoryFileSystem) : FsAct → Prop
  | makeDir (hdir : entry.metadata.fileType = .directory) (hclear : Clear fs.content key) :
      StepAct target key entry options fs (.createDirAll target)
  | clearDir {metadata : PortableMetadata} (hmeta : fs.metadata target = .ok metadata)
      (hdir : metadata.fileType = .directory) (hentry : entry.metadata.fileType ≠ .directory)
      (hkind : entry.metadata.fileType = .file ∨ entry.metadata.fileType = .symlink)
      (hkeep : keepsDirectory fs target options = .ok false) :
      StepAct target key entry options fs (.removeDirAll target)
  | clearFile : StepAct target key entry options fs (.removeFile target)
  | copy (source : PathBuf) (mode : FileWriteMode) (hfile : entry.metadata.fileType = .file)
      (hclear : Clear fs.content key) (htype : ∀ a, fs.content key = some a → a.1 = .file) :
      StepAct target key entry options fs (.copyFile source target mode)
  | symlink (linkTarget : PathBuf) (hsym : entry.metadata.fileType = .symlink)
      (hclear : Clear fs.content key) :
      StepAct target key entry options fs (.createSymlink target linkTarget)
  | mtime (modified : Int) : StepAct target key entry options fs (.setMtime target modified)

section StepAct

variable {target : PathBuf} {key x : Key} {entry : WalkEntry} {options : SyncOptions}
  {fs : MemoryFileSystem} {change : FsAct}

theorem place_away {c : PathTree Bytes Content} {a : Content} (hx : ¬ x <+: key) :
    c.place key a dirContent x = c x := by
  rw [PathTree.place_of_ne, PathTree.fill_of_not]
  · intro h
    exact hx (h.trans (List.dropLast_prefix key))
  · rintro rfl
    exact hx (List.prefix_refl x)

/-- Off the way to the target everything stays, but for what a directory that
makes way held. -/
theorem StepAct.away (hk : target.names = some key)
    (h : StepAct target key entry options fs change) (hx : ¬ x <+: key) :
    (change.run fs).2.content x = fs.content x ∨
      ((change.run fs).2.content x = none ∧ key <+: x ∧ entry.metadata.fileType ≠ .directory ∧
        (entry.metadata.fileType = .file ∨ entry.metadata.fileType = .symlink) ∧
        (∃ b, fs.content key = some (.directory, b)) ∧
        keepsDirectory fs target options = .ok false) := by
  cases h with
  | makeDir hdir hclear =>
      rw [FsAct.run, createDirAll_of_clear hk hclear, content_createDirs, PathTree.fill_of_not hx]
      exact Or.inl rfl
  | clearDir hmeta hdir hentry hkind hkeep =>
      rw [FsAct.run]
      rcases removeDirAll_cases hk with ⟨e, hrun, -⟩ | ⟨fs', -, hrun, hc⟩
      · rw [hrun]
        exact Or.inl rfl
      · rw [hrun, hc]
        by_cases hpre : key <+: x
        · obtain ⟨b, hb⟩ := content_of_metadata hk hmeta
          rw [hdir] at hb
          exact Or.inr ⟨PathTree.prune_of_prefix hpre, hpre, hentry, hkind, ⟨b, hb⟩, hkeep⟩
        · exact Or.inl (PathTree.prune_of_not hpre)
  | clearFile =>
      rw [FsAct.run]
      rcases removeFile_cases hk with ⟨e, hrun, -⟩ | ⟨c, fs', -, -, hrun, hc⟩
      · rw [hrun]
        exact Or.inl rfl
      · rw [hrun, hc, Function.update_of_ne]
        · exact Or.inl rfl
        · rintro rfl
          exact hx (List.prefix_refl x)
  | copy source mode hfile hclear htype =>
      rw [FsAct.run]
      rcases copyFile_of_clear hk hclear mode with ⟨e, -, hrun⟩ | ⟨bytes, fs', -, hrun, hc⟩
      · rw [hrun]
        exact Or.inl rfl
      · rw [hrun, hc, place_away hx]
        exact Or.inl rfl
  | symlink linkTarget hsym hclear =>
      obtain ⟨fs', hrun, hc⟩ := createSymlink_of_clear hk (hclear.of_prefix (List.dropLast_prefix key))
      rw [FsAct.run, hrun, hc, place_away hx]
      exact Or.inl rfl
  | mtime modified =>
      rw [FsAct.run, content_setMtime]
      exact Or.inl rfl

/-- What is on the way to the target stays. -/
theorem StepAct.above (hk : target.names = some key)
    (h : StepAct target key entry options fs change) (hx : x <+: key) (hne : x ≠ key)
    {a : Content} (ha : fs.content x = some a) : (change.run fs).2.content x = some a := by
  have hnot : ¬ key <+: x := fun h => hne (hx.eq_of_length_le h.length_le)
  cases h with
  | makeDir hdir hclear =>
      rw [FsAct.run, createDirAll_of_clear hk hclear, content_createDirs]
      exact PathTree.fill_eq_some_of ha
  | clearDir =>
      rw [FsAct.run]
      rcases removeDirAll_cases hk with ⟨e, hrun, -⟩ | ⟨fs', -, hrun, hc⟩
      · rwa [hrun]
      · rwa [hrun, hc, PathTree.prune_of_not hnot]
  | clearFile =>
      rw [FsAct.run]
      rcases removeFile_cases hk with ⟨e, hrun, -⟩ | ⟨c, fs', -, -, hrun, hc⟩
      · rwa [hrun]
      · rwa [hrun, hc, Function.update_of_ne hne]
  | copy source mode hfile hclear htype =>
      rw [FsAct.run]
      rcases copyFile_of_clear hk hclear mode with ⟨e, -, hrun⟩ | ⟨bytes, fs', -, hrun, hc⟩
      · rwa [hrun]
      · rw [hrun, hc, PathTree.place_of_ne hne]
        exact PathTree.fill_eq_some_of ha
  | symlink linkTarget hsym hclear =>
      obtain ⟨fs', hrun, hc⟩ := createSymlink_of_clear hk (hclear.of_prefix (List.dropLast_prefix key))
      rw [FsAct.run, hrun, hc, PathTree.place_of_ne hne]
      exact PathTree.fill_eq_some_of ha
  | mtime modified => rwa [FsAct.run, content_setMtime]

end StepAct

/-- A deletion without a backup takes its entry, with what is below a directory. -/
theorem DeleteAct.away {dest : PathBuf} {relative key : Key} {entry : WalkEntry}
    {options : SyncOptions} {fs : MemoryFileSystem} {change : FsAct}
    (hbackup : options.backup = false) (hk : entry.path.names = some key)
    (h : DeleteAct dest relative entry options fs change) (x : Key) :
    (change.run fs).2.content x = fs.content x ∨
      ((change.run fs).2.content x = none ∧
        (x = key ∨ entry.metadata.fileType = .directory ∧ key <+: x)) := by
  cases h with
  | backup h =>
      rw [hbackup] at h
      cases h
  | file htype =>
      rw [FsAct.run]
      rcases removeFile_cases hk with ⟨e, hrun, -⟩ | ⟨c, fs', -, -, hrun, hc⟩
      · rw [hrun]
        exact Or.inl rfl
      · rw [hrun, hc, Function.update_apply]
        split
        · rename_i hx
          exact Or.inr ⟨rfl, Or.inl hx⟩
        · exact Or.inl rfl
  | dir htype =>
      rw [FsAct.run]
      rcases removeDirAll_cases hk with ⟨e, hrun, -⟩ | ⟨fs', -, hrun, hc⟩
      · rw [hrun]
        exact Or.inl rfl
      · rw [hrun, hc]
        by_cases hpre : key <+: x
        · exact Or.inr ⟨PathTree.prune_of_prefix hpre, Or.inr ⟨htype, hpre⟩⟩
        · exact Or.inl (PathTree.prune_of_not hpre)

/-! ## What a step has done when it returns -/

section Returns

variable {options : SyncOptions} {target : PathBuf} {key : Key} {w : World}

/-- A change that succeeds, in a run that is not dry. -/
theorem ensures_actUnlessDry_ok (hdry : options.dryRun = false) {change : FsAct}
    {Q : World → Prop} (hQ : (change.run w.fs).1 = .ok () → Q { w with fs := (change.run w.fs).2 }) :
    (actUnlessDry options change).Ensures syncHandler (fun _ => True) (fun _ => Q) w := by
  rw [← Prog.bind_ret (actUnlessDry options change)]
  refine ensures_actUnlessDry trivial (fun h => ?_) (fun _ => trivial) fun _ hrun => ?_
  · rw [hdry] at h
    cases h
  · exact ⟨trivial, hQ hrun⟩

/-- Where the way is made, there is nothing or something of the right type. -/
theorem ensures_removeConflictingTarget_way (hdry : options.dryRun = false)
    (hlink : options.keepDirlinks = true → ∀ b, w.fs.content key ≠ some (.symlink, b))
    (hk : target.names = some key) (sourceType : FileType) (destRoot relative : PathBuf) :
    (removeConflictingTarget destRoot target relative sourceType options).Ensures syncHandler
      (fun _ => True) (fun cleared t =>
        (cleared = true → t.fs.content key = none ∨
          (t = w ∧ ∀ a, w.fs.content key = some a → a.1 = sourceType)) ∧
        (cleared = false → sourceType ≠ .directory ∧ options.effectiveDeleteMode = .none ∧
          .protectDelete target ∈ t.report ∧ (t.fs.content key).isSome)) w := by
  unfold removeConflictingTarget
  refine ensures_look trivial ?_
  cases hmeta : w.fs.metadata target with
  | error e => exact ⟨trivial, fun _ => Or.inl (content_of_metadata_error hk hmeta), by simp⟩
  | ok metadata =>
      obtain ⟨b, hc⟩ := content_of_metadata hk hmeta
      have hkept : isKeptDirlink w.fs target metadata.fileType sourceType options = false := by
        unfold isKeptDirlink
        cases hkeep : options.keepDirlinks with
        | false => simp
        | true =>
            have hsym : metadata.fileType ≠ .symlink := fun h => hlink hkeep b (h ▸ hc)
            simp [hsym]
      simp only [hkept, Bool.false_eq_true, if_false]
      split
      · rename_i heq
        refine ⟨trivial, fun _ => Or.inr ⟨rfl, fun a ha => ?_⟩, by simp⟩
        rw [hc] at ha
        cases ha
        exact heq
      · rename_i hne
        split
        · rename_i hdir
          cases hkeep : keepsDirectory w.fs target options with
          | error e => exact trivial
          | ok keep =>
              cases keep with
              | true =>
                  have htype : sourceType ≠ .directory := fun h => hne (hdir.trans h.symm)
                  refine ensures_report trivial
                    ⟨trivial, by simp, fun _ => ⟨htype, ?_, by simp, by rw [hc]; rfl⟩⟩
                  by_contra hmode
                  simp [keepsDirectory, hmode, pure, Except.pure] at hkeep
              | false =>
                  refine ensures_report trivial (ensures_seq (ensures_actUnlessDry_ok hdry
                    (Q := fun t => t.fs.content key = none)
                    fun hrun => content_of_removeDirAll hk hrun) fun _ t ht => ?_)
                  exact ⟨trivial, fun _ => Or.inl ht, by simp⟩
        · refine ensures_seq (Prog.ensures_true _ _) fun _ t _ => ?_
          refine ensures_report trivial (ensures_seq (ensures_actUnlessDry_ok hdry
            (Q := fun t => t.fs.content key = none)
            fun hrun => content_of_removeFile hk hrun) fun _ t ht => ?_)
          exact ⟨trivial, fun _ => Or.inl ht, by simp⟩

/-- A deletion that returns has taken its entry, and with a directory what it held. -/
theorem ensures_deleteReceiverEntry_gone (hdry : options.dryRun = false) (dest : PathBuf)
    (relative : Key) {entry : WalkEntry} (hk : entry.path.names = some key) :
    (deleteReceiverEntry dest entry.path relative entry.metadata.fileType options).Ensures
      syncHandler (fun _ => True) (fun _ t => t.fs.content key = none ∧
        (entry.metadata.fileType = .directory → ∀ x, key <+: x → t.fs.content x = none)) w := by
  unfold deleteReceiverEntry
  split
  · refine ensures_report trivial (ensures_actUnlessDry_ok hdry fun hrun => ?_)
    have hall : ∀ x, key <+: x → (w.fs.removeDirAll entry.path).2.content x = none := by
      intro x hx
      rcases removeDirAll_cases hk with ⟨e, herr, -⟩ | ⟨fs', -, hok, hc⟩
      · rw [FsAct.run, herr] at hrun
        cases hrun
      · rw [hok, hc]
        exact PathTree.prune_of_prefix hx
    exact ⟨hall key (List.prefix_refl key), fun _ => hall⟩
  · rename_i hdir
    refine ensures_seq (Prog.ensures_true _ _) fun _ t _ => ?_
    refine ensures_report trivial (ensures_actUnlessDry_ok hdry fun hrun => ?_)
    exact ⟨content_of_removeFile hk hrun, fun h => absurd h hdir⟩

/-- Without links, bases and appending, a file is transferred whole. -/
theorem transferFile_whole (hpreserve : options.preserveHardLinks = false)
    (hlink : options.linkDest = []) (hcopy : options.copyDest = [])
    (hcompare : options.compareDest = []) (hfuzzy : options.fuzzy = false)
    (happend : options.appendVerify = false) (destRoot target relative : PathBuf)
    (entry : WalkEntry) (state : TransferState) :
    transferFile destRoot target relative entry options state =
      look >>= fun _ => transferWhole destRoot target relative entry options state := by
  have hbasis : ∀ fs, checkBasisDirs fs destRoot relative entry options = none :=
    fun _ => checkBasisDirs_nil hlink hcopy hcompare
  unfold transferFile transferHardLink transferBasis transferFuzzy transferAppend
  simp only [hpreserve, hfuzzy, happend, hbasis, Bool.false_eq_true, if_false, Bool.false_and,
    Prog.bind_assoc, Prog.pure_eq, Prog.ret_bind]

theorem transferFile_eq (hoptions : PlainOptions options) (destRoot target relative : PathBuf)
    (entry : WalkEntry) (state : TransferState) :
    transferFile destRoot target relative entry options state =
      look >>= fun _ => transferWhole destRoot target relative entry options state :=
  transferFile_whole hoptions.preserveHardLinks hoptions.linkDest hoptions.copyDest
    hoptions.compareDest hoptions.fuzzy hoptions.appendVerify destRoot target relative entry state

/-- Times are no content. -/
theorem mtime_kept {dryRun : Bool} {P : PathTree Bytes Content → Prop} :
    Kept dryRun (MtimeAct target) (fun t => P t.fs.content) := by
  refine ⟨fun w _ h => h, fun w change _ h hact => ?_⟩
  obtain ⟨modified, rfl⟩ := hact
  show P (w.fs.setMtime target modified).2.content
  rw [content_setMtime]
  exact h

end Returns

/-! ## One entry -/

theorem clear_of_dropLast {c : PathTree Bytes Content} {key : Key} (h : Clear c key.dropLast)
    (hkey : ∀ b, c key ≠ some (.symlink, b)) : Clear c key := by
  intro q b hq hsym
  by_cases hqk : q = key
  · exact hkey b (hqk ▸ hsym)
  · refine h q b ?_ hsym
    cases key using List.reverseRecOn with
    | nil => exact absurd (List.prefix_nil.mp hq) hqk
    | append_singleton key name =>
        rw [List.dropLast_concat]
        exact (List.prefix_concat_iff.mp hq).resolve_left hqk

namespace SyncRun

variable {run : SyncRun} {q key : Key} {e : WalkEntry} {I J : World → Prop} {w : World}
  {state : TransferState}

/-- The changes of a run's source entry. -/
abbrev stepAct (run : SyncRun) (key q : Key) (e : WalkEntry) : MemoryFileSystem → FsAct → Prop :=
  StepAct (run.dest.join q.path) key e run.options

theorem stepAct_mtime (hI : Kept run.options.dryRun (run.stepAct key q e) I) :
    Kept run.options.dryRun (MtimeAct (run.dest.join q.path)) I := by
  refine ⟨hI.push, fun t change hdry ht hact => ?_⟩
  obtain ⟨modified, rfl⟩ := hact
  exact hI.act t _ hdry ht (.mtime modified)

/-- What an entry needs to be brought to its target: the way there is clear. -/
structure Steps (run : SyncRun) (key q : Key) (e : WalkEntry) (I : World → Prop) : Prop where
  options : PlainOptions run.options
  names : (run.dest.join q.path).names = some key
  kept : Kept run.options.dryRun (run.stepAct key q e) I
  way : ∀ t, I t → Clear t.fs.content key.dropLast
  dirlinks : ∀ t, I t → run.options.keepDirlinks = true →
    ∀ b, t.fs.content key ≠ some (.symlink, b)

theorem Steps.ensures_removeConflictingTarget (h : run.Steps key q e I)
    (hkind : e.metadata.fileType = .directory ∨ e.metadata.fileType = .file ∨
      e.metadata.fileType = .symlink) (hw : I w) :
    (removeConflictingTarget run.dest (run.dest.join q.path) q.path e.metadata.fileType
      run.options).Ensures syncHandler I (fun cleared t => I t ∧
        (cleared = true → ∀ a, t.fs.content key = some a → a.1 = e.metadata.fileType) ∧
        (cleared = false → e.metadata.fileType ≠ .directory ∧
          run.options.effectiveDeleteMode = .none ∧
          .protectDelete (run.dest.join q.path) ∈ t.report ∧ (t.fs.content key).isSome)) w := by
  have hkept : (removeConflictingTarget run.dest (run.dest.join q.path) q.path
      e.metadata.fileType run.options).Ensures syncHandler I (fun _ => I) w := by
    refine ensures_makeWay h.kept (fun t metadata hb _ _ _ => ?_)
      (fun t metadata hmeta hdir hne hkeep _ => ?_) (fun t _ => .clearFile) hw
    · rw [h.options.backup] at hb
      cases hb
    · exact .clearDir hmeta hdir hne (hkind.resolve_left hne) hkeep
  have hway := ensures_removeConflictingTarget_way h.options.dryRun (h.dirlinks w hw) h.names
    e.metadata.fileType run.dest q.path
  refine ((hkept.and hway).mono_always fun t ht => ht.1).mono fun cleared t ht => ?_
  obtain ⟨hI, htrue, hfalse⟩ := ht
  refine ⟨hI, fun hc a ha => ?_, hfalse⟩
  rcases htrue hc with hnone | ⟨rfl, htype⟩
  · rw [hnone] at ha
    cases ha
  · exact htype a ha

/-- Once the way is made, the target itself leads nowhere else. -/
theorem Steps.clear (h : run.Steps key q e I) {t : World} (ht : I t)
    (htype : ∀ a, t.fs.content key = some a → a.1 = e.metadata.fileType)
    (hsym : e.metadata.fileType ≠ .symlink) : Clear t.fs.content key := by
  refine clear_of_dropLast (h.way t ht) fun b hb => ?_
  exact hsym (htype _ hb).symm

theorem Steps.ensures_syncDirectory (h : run.Steps key q e I)
    (hdir : e.metadata.fileType = .directory) (hw : I w) :
    (run.syncDirectory q e state).Ensures syncHandler I
      (fun state' t => I t ∧ Advances run q e state state' ∧
        (run.options.recursive = true → ∃ b, t.fs.content key = some (.directory, b))) w := by
  have hway := h.ensures_removeConflictingTarget (Or.inl hdir) hw
  rw [hdir] at hway
  unfold syncDirectory
  simp only
  split
  · rename_i hrec
    refine ensures_report hw ⟨h.kept.push w _ hw, h.kept.push w _ hw, .refl .., fun hr => ?_⟩
    rw [hr] at hrec
    cases hrec
  · refine ensures_seq hway fun cleared t ht => ?_
    obtain ⟨hI, htrue, hfalse⟩ := ht
    cases cleared with
    | false => exact absurd rfl (hfalse rfl).1
    | true =>
        have hclear := h.clear hI (hdir ▸ htrue rfl) (by simp [hdir])
        have hdone := h.kept.act _ _ h.options.dryRun
          (h.kept.push t (.createDir (run.dest.join q.path)) hI) (.makeDir hdir hclear)
        refine ensures_report hI (ensures_actUnlessDry (h.kept.push t _ hI) (fun hdry => ?_)
          (fun _ => hdone) fun _ _ =>
            ⟨hdone, hdone, ⟨Or.inl rfl, Or.inr ⟨hdir, rfl⟩, Or.inl rfl⟩, fun _ => ?_⟩)
        · rw [h.options.dryRun] at hdry
          cases hdry
        · rw [FsAct.run, createDirAll_of_clear h.names hclear]
          simp only [content_createDirs, PathTree.fill_self]
          cases hc : t.fs.content key with
          | none => exact ⟨[], rfl⟩
          | some a =>
              obtain ⟨type, b⟩ := a
              obtain rfl : type = .directory := htrue rfl _ hc
              exact ⟨b, rfl⟩

theorem Steps.ensures_preserveTransferredMtime (h : run.Steps key q e I)
    {P : PathTree Bytes Content → Prop} (hw : I w) (hP : P w.fs.content) :
    (preserveTransferredMtime (run.dest.join q.path) e run.options).Ensures syncHandler I
      (fun _ t => I t ∧ P t.fs.content) w :=
  ((Fs.ensures_preserveTransferredMtime (stepAct_mtime h.kept) hw).and
    (Fs.ensures_preserveTransferredMtime mtime_kept hP)).mono_always fun _ ht => ht.1

theorem Steps.ensures_preserveExistingFileMtime (h : run.Steps key q e I)
    {P : PathTree Bytes Content → Prop} (hw : I w) (hP : P w.fs.content) :
    (preserveExistingFileMtime (run.dest.join q.path) e run.options).Ensures syncHandler I
      (fun _ t => I t ∧ P t.fs.content) w :=
  ((Fs.ensures_preserveExistingFileMtime (stepAct_mtime h.kept) hw).and
    (Fs.ensures_preserveExistingFileMtime mtime_kept hP)).mono_always fun _ ht => ht.1

theorem Steps.ensures_transferFile (h : run.Steps key q e I)
    (hfile : e.metadata.fileType = .file) (hclear : Clear w.fs.content key)
    (htype : ∀ a, w.fs.content key = some a → a.1 = .file) (hw : I w) :
    (transferFile run.dest (run.dest.join q.path) q.path e run.options state).Ensures syncHandler I
      (fun state' t => I t ∧ Advances run q e state state' ∧
        ∃ bytes, w.fs.readFile e.path = .ok bytes ∧ t.fs.content key = some (.file, bytes)) w := by
  rw [transferFile_eq h.options]
  refine ensures_look hw ?_
  unfold transferWhole
  refine ensures_report hw ?_
  have hw' := h.kept.push w (writeAction (run.dest.join q.path) e run.options.fileWriteMode) hw
  simp only [h.options.delayUpdates, Bool.and_false, Bool.false_eq_true, if_false, h.options.dryRun]
  unfold backupReceiverFile
  rw [if_neg (by rw [h.options.backup]; simp)]
  have hdone := h.kept.act _ _ h.options.dryRun hw'
    (.copy e.path run.options.fileWriteMode hfile hclear htype)
  refine ensures_act hw' hdone fun hrun => ?_
  have hcopied : ∃ bytes, w.fs.readFile e.path = .ok bytes ∧
      (w.fs.copyFileWithOptions e.path (run.dest.join q.path)
        run.options.fileWriteMode).2.content key = some (.file, bytes) := by
    rcases copyFile_of_clear h.names hclear run.options.fileWriteMode with
      ⟨err, -, herr⟩ | ⟨bytes, fs', hread, hok, hc⟩
    · rw [FsAct.run, herr] at hrun
      cases hrun
    · refine ⟨bytes, hread, ?_⟩
      rw [hok, hc]
      exact PathTree.place_self
  obtain ⟨bytes, hread, hcopied⟩ := hcopied
  refine ensures_seq (h.ensures_preserveTransferredMtime
    (P := fun c => c key = some (.file, bytes)) hdone hcopied) fun _ t ht => ?_
  exact ⟨ht.1, ht.1, .of_extends hfile (.remember state _), bytes, hread, ht.2⟩

/-- A file at its target: either it could not be brought, or the last look found it
needing no update, or it has just been copied. -/
theorem Steps.ensures_syncFile (hJI : ∀ t, I t → J t) (h : run.Steps key q e I)
    (hfail : ∀ err t, I t →
      (run.afterFailure state err).Ensures syncHandler J (fun _ _ => False) t)
    (hfile : e.metadata.fileType = .file) (hw : I w) :
    (run.syncFile q e state).Ensures syncHandler J
      (fun state' t => I t ∧ Advances run q e state state' ∧
        (run.options.effectiveDeleteMode = .none ∧
            .protectDelete (run.dest.join q.path) ∈ t.report ∧ (t.fs.content key).isSome ∨
          ∃ u, I u ∧ ((∀ a, u.fs.content key = some a → a.1 = .file) ∧
            fileNeedsUpdate u.fs e (run.dest.join q.path) run.options = .ok false ∧
            t.fs.content key = u.fs.content key ∨
            ∃ bytes, u.fs.readFile e.path = .ok bytes ∧
              t.fs.content key = some (.file, bytes)))) w := by
  have hway := h.ensures_removeConflictingTarget (Or.inr (Or.inl hfile)) hw
  rw [hfile] at hway
  unfold syncFile
  simp only
  refine ensures_seq (hway.mono_always hJI) fun cleared t ht => ?_
  obtain ⟨hI, htrue, hfalse⟩ := ht
  cases cleared with
  | false => exact ⟨hJI t hI, hI, .refl .., Or.inl (hfalse rfl).2⟩
  | true =>
      simp only [if_true]
      have htype := htrue rfl
      refine ensures_look (hJI t hI) ?_
      cases hneeds : fileNeedsUpdate t.fs e (run.dest.join q.path) run.options with
      | error err => exact hJI t hI
      | ok needed =>
          cases needed with
          | true =>
              have hclear := h.clear hI (hfile ▸ htype) (by simp [hfile])
              refine ensures_orCleanUp hJI ?_ hfail
              refine (h.ensures_transferFile hfile hclear htype hI).mono fun state' u hu => ?_
              exact ⟨hu.1, hu.2.1, Or.inr ⟨t, hI, Or.inr hu.2.2⟩⟩
          | false =>
              simp only [Prog.ofExcept_ok, Prog.ret_bind, Bool.false_eq_true, if_false]
              refine ensures_seq ((h.ensures_preserveExistingFileMtime
                (P := fun c => c key = t.fs.content key) hI rfl).mono_always hJI) fun _ u hu => ?_
              exact ⟨hJI u hu.1, hu.1, .of_extends hfile (.remember state _),
                Or.inr ⟨t, hI, Or.inl ⟨htype, hneeds, hu.2⟩⟩⟩

theorem Steps.ensures_transferSymlink (h : run.Steps key q e I)
    (hsym : e.metadata.fileType = .symlink) (hw : I w) :
    (transferSymlink run.dest (run.dest.join q.path) q.path e run.options).Ensures syncHandler I
      (fun _ => I) w := by
  have hway := h.ensures_removeConflictingTarget (Or.inr (Or.inr hsym)) hw
  rw [hsym] at hway
  have hplace : ∀ linkTarget t, I t →
      (placeSymlink (run.dest.join q.path) linkTarget).Ensures syncHandler I (fun _ => I) t := by
    intro linkTarget t ht
    -- what is not a directory is taken away first, so that no link is written through
    have hcreate : ∀ u, I u → (∀ a, u.fs.content key = some a → a.1 = .directory) →
        (Fs.act (.createSymlink (run.dest.join q.path) linkTarget)).Ensures syncHandler I
          (fun _ => I) u := by
      intro u hu htype
      refine h.kept.ensures_act_end h.options.dryRun hu (.symlink linkTarget hsym ?_)
      refine clear_of_dropLast (h.way u hu) fun b hb => ?_
      have := htype _ hb
      cases this
    unfold placeSymlink
    refine ensures_look ht ?_
    split
    · refine ensures_tryAct ht (hcreate _ (h.kept.act t _ h.options.dryRun ht .clearFile) ?_)
      intro a ha
      rw [FsAct.run] at ha
      rcases removeFile_cases h.names with ⟨err, hrun, hdir⟩ | ⟨c, fs', -, -, hrun, hc⟩
      · rw [hrun] at ha
        exact hdir a ha
      · rw [hrun, hc, Function.update_self] at ha
        cases ha
    · rename_i hdir
      refine hcreate t ht fun a ha => ?_
      obtain ⟨node, hget, rfl⟩ := get_of_content ha
      simp only [isNonDirectory, metadata_of_get h.names hget, ne_eq, decide_not,
        Bool.not_eq_true', decide_eq_false_iff_not, not_not] at hdir
      exact hdir
  unfold transferSymlink
  split
  · exact h.kept.ensures_report_end hw _
  · rename_i linkTarget _
    refine ensures_seq hway fun cleared t ht => ?_
    cases cleared with
    | false => exact ⟨ht.1, ht.1⟩
    | true =>
        refine ensures_report ht.1 ?_
        simp only [h.options.dryRun, Bool.false_eq_true, if_false]
        refine ensures_seq (hplace _ _ (h.kept.push t _ ht.1)) fun _ u hu => ?_
        exact Fs.ensures_preserveTransferredMtime (stepAct_mtime h.kept) hu

/-- One entry: when its step returns, a directory is one, and a file has no directory
in its place unless the mode keeps it there. -/
theorem Steps.ensures_syncEntry (hJI : ∀ t, I t → J t) (h : run.Steps key q e I)
    (hfail : ∀ err t, I t →
      (run.afterFailure state err).Ensures syncHandler J (fun _ _ => False) t) (hw : I w) :
    (run.syncEntry q e state).Ensures syncHandler J
      (fun state' t => I t ∧ Advances run q e state state' ∧
        (e.metadata.fileType = .directory → run.options.recursive = true →
          ∃ b, t.fs.content key = some (.directory, b)) ∧
        (e.metadata.fileType = .file → run.options.effectiveDeleteMode ≠ .none →
          ∀ a, t.fs.content key = some a → a.1 = .file)) w := by
  have hother : e.metadata.fileType ≠ .directory → e.metadata.fileType ≠ .file →
      (run.orCleanUp state (do
        handleNonRegularEntry e run.options
        pure state)).Ensures syncHandler J (fun state' t => I t ∧ Advances run q e state state' ∧
          (e.metadata.fileType = .directory → run.options.recursive = true →
            ∃ b, t.fs.content key = some (.directory, b)) ∧
          (e.metadata.fileType = .file → run.options.effectiveDeleteMode ≠ .none →
            ∀ a, t.fs.content key = some a → a.1 = .file)) w := by
    intro hdir hfile
    refine ensures_orCleanUp hJI ?_ hfail
    refine ensures_seq (ensures_handleNonRegularEntry h.kept hw) fun _ t ht => ?_
    exact ⟨ht, ht, .refl .., fun h => absurd h hdir, fun h => absurd h hfile⟩
  unfold syncEntry
  simp only
  split
  · rename_i hdir
    refine ((h.ensures_syncDirectory hdir hw).mono_always hJI).mono fun state' t ht => ?_
    refine ⟨ht.1, ht.2.1, fun _ => ht.2.2, fun hfile => ?_⟩
    rw [hdir] at hfile
    cases hfile
  · rename_i hfile
    refine (h.ensures_syncFile hJI hfail hfile hw).mono fun state' t ht => ?_
    refine ⟨ht.1, ht.2.1, fun hdir => ?_, fun _ hmode a ha => ?_⟩
    · rw [hfile] at hdir
      cases hdir
    · rcases ht.2.2 with hkept | ⟨u, -, ⟨htype, -, hsame⟩ | ⟨bytes, -, hc⟩⟩
      · exact absurd hkept.1 hmode
      · exact htype a (hsame ▸ ha)
      · rw [hc] at ha
        cases ha
        rfl
  · rename_i hsym
    refine ensures_orCleanUp hJI ?_ hfail
    refine ensures_seq (h.ensures_transferSymlink hsym hw) fun _ t ht => ?_
    refine ⟨ht, ht, .refl .., fun hdir => ?_, fun hfile => ?_⟩
    · rw [hsym] at hdir
      cases hdir
    · rw [hsym] at hfile
      cases hfile
  · rename_i htype
    exact hother (by simp [htype]) (by simp [htype])
  · rename_i htype
    exact hother (by simp [htype]) (by simp [htype])
  · rename_i htype
    exact hother (by simp [htype]) (by simp [htype])
  · rename_i htype
    exact hother (by simp [htype]) (by simp [htype])

theorem ensures_afterFailure_true (state : TransferState) (err : FsError) (w : World) :
    (run.afterFailure state err).Ensures syncHandler (fun _ => True) (fun _ _ => False) w := by
  unfold afterFailure
  refine ensures_seq (Prog.ensures_true _ _) fun _ t _ => ?_
  split
  · exact ensures_seq (Prog.ensures_true _ _) fun _ u _ => (trivial : True)
  · exact (trivial : True)

/-- Nothing is staged. -/
theorem Staged.eq_nil {state : TransferState} (h : run.Staged state)
    (hoptions : PlainOptions run.options) : state.delayedTransfers = [] := by
  rw [List.eq_nil_iff_forall_not_mem]
  intro d hd
  have hdelay := (h d hd).2.1
  rw [hoptions.delayUpdates] at hdelay
  cases hdelay

theorem Staged.finish_eq {state : TransferState} (h : run.Staged state)
    (hoptions : PlainOptions run.options) : run.finish state = pure () := by
  unfold finish
  rw [h.eq_nil hoptions]
  rfl

end SyncRun

/-! ## The order of the entries -/

theorem compare_lt_of_prefix {r q : Key} (h : r <+: q) (hne : r ≠ q) : compare r q = .lt := by
  induction r generalizing q with
  | nil =>
      cases q with
      | nil => exact absurd rfl hne
      | cons n q => rfl
  | cons n r ih =>
      cases q with
      | nil => exact absurd (List.prefix_nil.mp h) (by simp)
      | cons m q =>
          obtain ⟨rfl, htail⟩ := List.cons_prefix_cons.mp h
          have hrest := ih htail fun heq => hne (heq ▸ rfl)
          show List.compareLex compare _ _ = _
          rw [List.compareLex_cons_cons, Std.ReflOrd.compare_self]
          exact hrest

section Order

variable {entries : Entries} {done rest : List (Key × WalkEntry)} {q r : Key} {e e' : WalkEntry}

theorem key_ne_of_toList (h : entries.toList = done ++ (q, e) :: rest) (hr : (r, e') ∈ done) :
    r ≠ q := by
  have hnodup : (entries.toList.map Prod.fst).Nodup := by
    rw [Std.TreeMap.map_fst_toList_eq_keys]
    exact Std.TreeMap.nodup_keys
  rw [h, List.map_append, List.map_cons] at hnodup
  have hdisjoint := (List.nodup_append.mp hnodup).2.2
  exact hdisjoint r (List.mem_map.mpr ⟨(r, e'), hr, rfl⟩) q List.mem_cons_self

/-- The directories of an entry come before it. -/
theorem mem_done_of_prefix (h : entries.toList = done ++ (q, e) :: rest)
    (hr : entries[r]? = some e') (hpre : r <+: q) (hne : r ≠ q) : (r, e') ∈ done := by
  have hmem : (r, e') ∈ entries.toList := Std.TreeMap.mem_toList_iff_getElem?_eq_some.mpr hr
  have hsorted := Std.TreeMap.ordered_keys_toList (t := entries)
  rw [h] at hmem hsorted
  rcases List.mem_append.mp hmem with hmem | hmem
  · exact hmem
  · rcases List.mem_cons.mp hmem with heq | hmem
    · exact absurd (congrArg Prod.fst heq) hne
    · -- behind `q` there are only greater keys
      have hlt := (List.pairwise_cons.mp (List.pairwise_append.mp hsorted).2.1).1 _ hmem
      have hgt := compare_lt_of_prefix hpre hne
      rw [Std.OrientedOrd.eq_swap, hlt] at hgt
      cases hgt

end Order

/-! ## Walks that leave nothing out -/

section Walks

variable {fs : MemoryFileSystem} {stack : Nat} {source dest : PathBuf} {options : SyncOptions}
  {sk dk : Key} {run : SyncRun}

/-- Without filters the walk of the source takes in everything. -/
theorem Prepared.source_listed (hrun : Prepared stack fs source dest options run)
    (hwf : WellFormed fs) (hfree : SymlinkFree fs.content) (hs : source.names = some sk)
    (hrules : options.filterRules.rules = []) (hfilesFrom : options.filesFrom = none)
    (hrec : options.recursive = true) {r : Key} (hr : r ≠ [])
    (hc : (fs.content (sk ++ r)).isSome) : (run.sourceEntries[r]?).isSome := by
  obtain ⟨entries, hwalk, heq⟩ := sourceEntriesOf_eq_ok hrun.source
  rw [hfilesFrom] at heq
  rw [heq]
  obtain ⟨c, hc⟩ := Option.isSome_iff_exists.mp hc
  obtain ⟨node, hnode, -⟩ := get_of_content hc
  have hall := (treeEntries_relativeEntries (hwf.noFollow_of_symlinkFree hfree _) hs hwalk).2
  refine hall hwf.tree ⟨?_, fun key node hnode hsym => ?_⟩ r node hr (Or.inl hrec) hnode
  · rintro _ ⟨⟩
    exact hrules
  · exact absurd hsym ((hfree.clear key).not_symlink (List.prefix_refl key) hnode)

/-- The walk of the destination takes in everything. -/
theorem Prepared.dest_listed (hrun : Prepared stack fs source dest options run)
    (hwf : WellFormed fs) (hd : dest.names = some dk) (hrec : options.recursive = true) {r : Key}
    (hr : r ≠ []) (hc : (fs.content (dk ++ r)).isSome) : (run.destEntries[r]?).isSome := by
  obtain ⟨c, hc⟩ := Option.isSome_iff_exists.mp hc
  have hdest := hrun.destination
  unfold destEntriesOf at hdest
  split at hdest
  · obtain ⟨node, hnode, -⟩ := get_of_content hc
    have hall := (treeEntries_relativeEntries (hwf.noFollow (by simp)) hd hdest).2
    exact hall hwf.tree ⟨by simp, by simp⟩ r node hr (Or.inl hrec) hnode
  · -- what is not there has nothing below it
    rename_i hmissing
    rw [existsAt_iff hd, Option.not_isSome_iff_eq_none] at hmissing
    rw [hwf.tree.eq_none hr (by simp [hmissing])] at hc
    cases hc

end Walks

end RsyncWin.Fs
