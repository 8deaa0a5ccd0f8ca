import RsyncWin.Fs.DeletePlan
import RsyncWin.Fs.SyncRules

/-!
# Rules for the stages of a sync

Deletions and the transfer loop, each with a property of how far it has come.
`I` holds in every state, also where a stage fails; what the loop has established
so far is a property of the entries behind it.
-/

namespace RsyncWin.Fs

open ByteString

/-! ## Deletions -/

/-- The changes that deleting one destination entry may make. -/
inductive DeleteAct (dest : PathBuf) (relative : Key) (entry : WalkEntry) (options : SyncOptions)
    (fs : MemoryFileSystem) : FsAct → Prop
  | backup {metadata : PortableMetadata} (hbackup : options.backup = true)
      (hmeta : fs.metadata entry.path = .ok metadata) (hfile : metadata.fileType = .file) :
      DeleteAct dest relative entry options fs
        (.copyFile entry.path (backupPathFor dest entry.path relative.path options) .atomic)
  | file (htype : entry.metadata.fileType ≠ .directory) :
      DeleteAct dest relative entry options fs (.removeFile entry.path)
  | dir (htype : entry.metadata.fileType = .directory) :
      DeleteAct dest relative entry options fs (.removeDirAll entry.path)

theorem ensures_deleteReceiverEntry {I : World → Prop} {dest : PathBuf} {relative : Key}
    {entry : WalkEntry} {options : SyncOptions} {w : World}
    (hI : Kept options.dryRun (DeleteAct dest relative entry options) I) (hw : I w) :
    (deleteReceiverEntry dest entry.path relative entry.metadata.fileType options).Ensures
      syncHandler I (fun _ => I) w := by
  unfold deleteReceiverEntry
  split
  · rename_i hdir
    refine ensures_report hw ?_
    exact hI.ensures_actUnlessDry_end (hI.push w _ hw) (.dir hdir)
  · rename_i hdir
    refine ensures_seq (ensures_backup hI
      (fun _ hbackup hmeta hfile => .backup hbackup hmeta hfile) hw) fun _ t ht => ?_
    refine ensures_report ht ?_
    exact hI.ensures_actUnlessDry_end (hI.push t _ ht) (.file hdir)

section Decisions

variable {dest : PathBuf} {destEntries : Entries} {options : SyncOptions} {I : World → Prop}
  {K : Nat → List IncrementalDeleteDecision → World → Prop}

/-- The decisions one by one: `K` speaks of the deletions so far and the decisions to come. -/
theorem ensures_applyDecisions (hKI : ∀ n ds w, K n ds w → I w)
    (hskip : ∀ n d ds w e, K n (d :: ds) w → destEntries[d.relative]? = some e →
      w.fs.existsAt e.path = false → K n ds w)
    (hprotect : ∀ n d ds w e, K n (d :: ds) w → destEntries[d.relative]? = some e →
      d.isProtected = true → K n ds { w with report := w.report ++ [.protectDelete e.path] })
    (hdelete : ∀ n d ds w e, K n (d :: ds) w → destEntries[d.relative]? = some e →
      w.fs.existsAt e.path = true → d.isProtected = false →
      (∀ limit, options.maxDelete = some limit → n < limit) →
      (deleteReceiverEntry dest e.path d.relative e.metadata.fileType options).Ensures syncHandler I
        (fun _ => K (n + 1) ds) w) :
    ∀ {ds : List IncrementalDeleteDecision} {n : Nat} {w : World},
      (∀ d ∈ ds, ∃ e, destEntries[d.relative]? = some e) → K n ds w →
      (applyDecisions dest destEntries options n ds).Ensures syncHandler I
        (fun _ t => ∃ m, K m [] t) w
  | [], n, w, _, hw => ⟨hKI _ _ _ hw, n, hw⟩
  | d :: ds, n, w, hds, hw => by
      have hrest := fun d hd => hds d (List.mem_cons_of_mem _ hd)
      obtain ⟨e, he⟩ := hds d (by simp)
      have ih : ∀ {m t}, K m ds t → (applyDecisions dest destEntries options m ds).Ensures
          syncHandler I (fun _ t => ∃ m, K m [] t) t :=
        fun ht => ensures_applyDecisions hKI hskip hprotect hdelete hrest ht
      have hwI := hKI _ _ _ hw
      unfold applyDecisions
      rw [he]
      refine ensures_look hwI ?_
      cases hex : w.fs.existsAt e.path with
      | false => exact ih (hskip n d ds w e hw he hex)
      | true =>
          simp only [Bool.not_true, Bool.false_eq_true, if_false]
          cases hprot : d.isProtected with
          | true =>
              simp only [if_true]
              exact ensures_report hwI (ih (hprotect n d ds w e hw he hprot))
          | false =>
              simp only [Bool.false_eq_true, if_false]
              split
              · exact hwI
              · rename_i hlimit
                refine ensures_seq (hdelete n d ds w e hw he hex hprot fun limit hl => ?_)
                  fun _ t ht => ih ht
                rw [hl, Option.filter_eq_none_iff] at hlimit
                simpa using hlimit limit rfl

end Decisions

theorem ensures_applyReceiverDeletes {dest : PathBuf} {sourceEntries destEntries : Entries}
    {options : SyncOptions} {I : World → Prop} {Q : Unit → World → Prop} {w : World} (hw : I w)
    (hnone : options.effectiveDeleteMode = .none → Q () w)
    (hplan : ∀ decisions, options.effectiveDeleteMode ≠ .none →
      Plan sourceEntries destEntries options decisions →
      (applyDecisions dest destEntries options 0 decisions).Ensures syncHandler I Q w) :
    (applyReceiverDeletes dest sourceEntries destEntries options).Ensures syncHandler I Q w := by
  unfold applyReceiverDeletes
  split
  · rename_i hmode
    exact ⟨hw, hnone hmode⟩
  · rename_i hmode
    cases hdecisions : planReceiverDeletes sourceEntries destEntries options with
    | error e => exact hw
    | ok decisions => exact hplan decisions hmode (plan_of_planReceiverDeletes hmode hdecisions)

/-! ## Staged files -/

/-- A staged transfer whose changes keep `I`. -/
structure Settleable (destRoot : PathBuf) (options : SyncOptions) (linked : PathBuf → Prop)
    (I : World → Prop) (d : DelayedTransfer) : Prop where
  dry : options.dryRun = false
  delay : options.delayUpdates = true
  file : d.entry.metadata.fileType = .file
  temp : d.temp = delayedUpdatePath destRoot d.relative options
  kept : Kept options.dryRun (EntryAct destRoot d.target d.relative d.entry options linked) I

section Staging

variable {destRoot : PathBuf} {options : SyncOptions} {linked : PathBuf → Prop}
  {I : World → Prop}

theorem ensures_finishDelayedUpdates :
    ∀ {transfers : List DelayedTransfer} {w : World},
      (∀ d ∈ transfers, Settleable destRoot options linked I d) → I w →
      (finishDelayedUpdates destRoot options transfers).Ensures syncHandler I (fun _ => I) w
  | [], w, _, hw => ⟨hw, hw⟩
  | d :: transfers, w, hd, hw => by
      have hd₀ := hd d (by simp)
      unfold finishDelayedUpdates
      refine ensures_seq (ensures_backupReceiverFile hd₀.kept hw) fun _ t ht => ?_
      rw [hd₀.temp]
      have hdone := hd₀.kept.act t _ hd₀.dry ht (.settle hd₀.delay hd₀.file)
      refine ensures_act ht hdone fun _ => ?_
      refine ensures_seq (ensures_preserveTransferredMtime hd₀.kept.mtime hdone) fun _ u hu => ?_
      exact ensures_finishDelayedUpdates (fun d hd' => hd d (List.mem_cons_of_mem _ hd')) hu

theorem ensures_removeStaged :
    ∀ {transfers : List DelayedTransfer} {w : World},
      (∀ d ∈ transfers, Settleable destRoot options linked I d) → I w →
      (removeStaged transfers).Ensures syncHandler I (fun _ => I) w
  | [], w, _, hw => ⟨hw, hw⟩
  | d :: transfers, w, hd, hw => by
      have hd₀ := hd d (by simp)
      unfold removeStaged
      rw [hd₀.temp]
      have hdone := hd₀.kept.act w _ hd₀.dry hw (.unstage hd₀.delay hd₀.file)
      refine ensures_tryAct hw ?_
      exact ensures_removeStaged (fun d hd' => hd d (List.mem_cons_of_mem _ hd')) hdone

end Staging

/-! ## The transfer loop -/

namespace SyncRun

variable {run : SyncRun}

/-- The targets of the source files. -/
def Linked (run : SyncRun) (existing : PathBuf) : Prop :=
  ∃ (relative : Key) (entry : WalkEntry), run.sourceEntries[relative]? = some entry ∧
    entry.metadata.fileType = .file ∧ existing = run.dest.join relative.path

/-- The changes that one source entry may make. -/
abbrev entryAct (run : SyncRun) (relative : Key) (entry : WalkEntry) :
    MemoryFileSystem → FsAct → Prop :=
  EntryAct run.dest (run.dest.join relative.path) relative.path entry run.options run.Linked

/-- The transfer that one source entry leaves for the end of the run. -/
def delayed (run : SyncRun) (relative : Key) (entry : WalkEntry) : DelayedTransfer :=
  ⟨delayedUpdatePath run.dest relative.path run.options, run.dest.join relative.path,
    relative.path, entry⟩

/-- What one entry adds to the state of the loop. -/
structure Advances (run : SyncRun) (relative : Key) (entry : WalkEntry)
    (state state' : TransferState) : Prop where
  delayed : state'.delayedTransfers = state.delayedTransfers ∨
    (run.options.dryRun = false ∧ run.options.delayUpdates = true ∧
      entry.metadata.fileType = .file ∧
      state'.delayedTransfers = state.delayedTransfers ++ [run.delayed relative entry])
  mtimes : state'.directoryMtimes = state.directoryMtimes ∨
    (entry.metadata.fileType = .directory ∧ state'.directoryMtimes =
      state.directoryMtimes ++ [(run.dest.join relative.path, entry)])
  links : state'.hardlinkTargets = state.hardlinkTargets ∨
    ∃ id, entry.metadata.fileType = .file ∧ entry.metadata.hardlinkId = some id ∧
      state'.hardlinkTargets = state.hardlinkTargets ++ [(id, run.dest.join relative.path)]

theorem Advances.refl (relative : Key) (entry : WalkEntry) (state : TransferState) :
    Advances run relative entry state state :=
  ⟨Or.inl rfl, Or.inl rfl, Or.inl rfl⟩

theorem Advances.of_extends {relative : Key} {entry : WalkEntry} {state state' : TransferState}
    (hfile : entry.metadata.fileType = .file)
    (h : Extends run.dest (run.dest.join relative.path) relative.path entry run.options state
      state') : Advances run relative entry state state' := by
  refine ⟨?_, Or.inl h.mtimes, h.links.imp_right fun ⟨id, hid, heq⟩ => ⟨id, hfile, hid, heq⟩⟩
  rcases h.delayed with heq | ⟨hdry, hdelay, heq⟩
  · exact Or.inl heq
  · exact Or.inr ⟨hdry, hdelay, hfile, heq⟩

section Entry

variable {I J : World → Prop} {relative : Key} {entry : WalkEntry} {state : TransferState}
  {w : World}

/-- A failure leaves the loop by way of `afterFailure`. -/
theorem ensures_orCleanUp {p : SyncProg TransferState} {Q : TransferState → World → Prop}
    (hJI : ∀ t, J t → I t) (hp : p.Ensures syncHandler J Q w)
    (hfail : ∀ err t, J t →
      (run.afterFailure state err).Ensures syncHandler I (fun _ _ => False) t) :
    (run.orCleanUp state p).Ensures syncHandler I Q w := by
  unfold orCleanUp
  refine ensures_seq (hp.attempt.mono_always hJI) fun r t ht => ?_
  cases r with
  | ok state' => exact ⟨hJI t ht.1, ht.2 state' rfl⟩
  | error err => exact (hfail err t ht.1).mono fun _ _ h => h.elim

theorem ensures_syncDirectory (hJ : Kept run.options.dryRun (run.entryAct relative entry) J)
    (hdir : entry.metadata.fileType = .directory) (hw : J w) :
    (run.syncDirectory relative entry state).Ensures syncHandler J
      (fun state' t => J t ∧ Advances run relative entry state state') w := by
  unfold syncDirectory
  simp only
  split
  · exact ensures_report hw ⟨hJ.push w _ hw, hJ.push w _ hw, .refl ..⟩
  · refine ensures_seq (ensures_removeConflictingTarget hJ hdir.symm (by simp) hw) fun removed t ht => ?_
    split
    · refine ensures_report ht ?_
      refine ensures_seq (hJ.ensures_actUnlessDry_end (hJ.push t _ ht) (.makeDir hdir))
        fun _ u hu => ?_
      exact ⟨hu, hu, Or.inl rfl, Or.inr ⟨hdir, rfl⟩, Or.inl rfl⟩
    · exact ⟨ht, ht, .refl ..⟩

theorem ensures_syncFile (hJI : ∀ t, J t → I t)
    (hJ : Kept run.options.dryRun (run.entryAct relative entry) J)
    (hfail : ∀ err t, J t →
      (run.afterFailure state err).Ensures syncHandler I (fun _ _ => False) t)
    (hfile : entry.metadata.fileType = .file) (hstate : Remembered run.Linked state) (hw : J w) :
    (run.syncFile relative entry state).Ensures syncHandler I
      (fun state' t => J t ∧ Advances run relative entry state state') w := by
  unfold syncFile
  simp only
  refine ensures_seq ((ensures_removeConflictingTarget hJ hfile.symm (by simp) hw).mono_always hJI)
    fun removed t ht => ?_
  split
  · refine ensures_look (hJI t ht) ?_
    cases fileNeedsUpdate t.fs entry (run.dest.join relative.path) run.options with
    | error e => exact hJI t ht
    | ok needed =>
        cases needed with
        | true =>
            refine ensures_orCleanUp hJI ?_ hfail
            exact (ensures_transferFile hJ hfile hstate ht).mono fun _ _ h => ⟨h.1, .of_extends hfile h.2⟩
        | false =>
            simp only [Prog.ofExcept_ok, Prog.ret_bind, Bool.false_eq_true, if_false]
            refine ensures_seq ((ensures_preserveExistingFileMtime hJ.mtime ht).mono_always hJI)
              fun _ u hu => ?_
            exact ⟨hJI u hu, hu, .of_extends hfile (.remember state _)⟩
  · exact ⟨hJI t ht, ht, .refl ..⟩

theorem ensures_syncEntry (hJI : ∀ t, J t → I t)
    (hJ : Kept run.options.dryRun (run.entryAct relative entry) J)
    (hfail : ∀ err t, J t →
      (run.afterFailure state err).Ensures syncHandler I (fun _ _ => False) t)
    (hstate : Remembered run.Linked state) (hw : J w) :
    (run.syncEntry relative entry state).Ensures syncHandler I
      (fun state' t => J t ∧ Advances run relative entry state state') w := by
  have hother : (run.orCleanUp state (do
      handleNonRegularEntry entry run.options
      pure state)).Ensures syncHandler I
      (fun state' t => J t ∧ Advances run relative entry state state') w := by
    refine ensures_orCleanUp hJI ?_ hfail
    exact ensures_seq (ensures_handleNonRegularEntry hJ hw) fun _ t ht => ⟨ht, ht, .refl ..⟩
  unfold syncEntry
  simp only
  split
  · rename_i hdir
    exact (ensures_syncDirectory hJ hdir hw).mono_always hJI
  · rename_i hfile
    exact ensures_syncFile hJI hJ hfail hfile hstate hw
  · rename_i hsym
    refine ensures_orCleanUp hJI ?_ hfail
    exact ensures_seq (ensures_transferSymlink hJ hsym hw) fun _ t ht => ⟨ht, ht, .refl ..⟩
  · exact hother
  · exact hother
  · exact hother
  · exact hother

end Entry

theorem getElem?_of_toList {entries : Entries} {done rest : List (Key × WalkEntry)}
    {relative : Key} {entry : WalkEntry}
    (h : entries.toList = done ++ (relative, entry) :: rest) : entries[relative]? = some entry := by
  refine Std.TreeMap.mem_toList_iff_getElem?_eq_some.mp ?_
  rw [h]
  simp

/-- The loop, by what holds of the entries behind it. -/
theorem ensures_syncEntries {I : World → Prop}
    {J : List (Key × WalkEntry) → TransferState → World → Prop} {all : List (Key × WalkEntry)}
    (hJI : ∀ done state t, J done state t → I t)
    (hstep : ∀ done relative entry rest state t, all = done ++ (relative, entry) :: rest →
      J done state t → (run.syncEntry relative entry state).Ensures syncHandler I
        (fun state' => J (done ++ [(relative, entry)]) state') t) :
    ∀ {rest done : List (Key × WalkEntry)} {check : Nat} {state : TransferState} {w : World},
      all = done ++ rest → J done state w →
      (run.syncEntries check rest state).Ensures syncHandler I (fun state' => J all state') w
  | [], done, check, state, w, hall, hw => by
      rw [List.append_nil] at hall
      rw [hall]
      exact ⟨hJI _ _ _ hw, hw⟩
  | (relative, entry) :: rest, done, check, state, w, hall, hw => by
      unfold syncEntries
      cases checkSyncDeadline run.options.stopDeadline check with
      | error e => exact hJI _ _ _ hw
      | ok _ =>
          simp only [Prog.ofExcept_ok, Prog.ret_bind]
          refine ensures_seq (hstep done relative entry rest state w hall hw) fun state' t ht => ?_
          exact ensures_syncEntries hJI hstep (by simpa using hall) ht

/-! ## Staged files and directory times -/

/-- Everything staged is a source file's, staged by this run. -/
def Staged (run : SyncRun) (state : TransferState) : Prop :=
  ∀ d ∈ state.delayedTransfers, run.options.dryRun = false ∧ run.options.delayUpdates = true ∧
    ∃ (relative : Key) (entry : WalkEntry), run.sourceEntries[relative]? = some entry ∧
      entry.metadata.fileType = .file ∧ d = run.delayed relative entry

/-- Every directory whose times are to be set is a source directory's target. -/
def DirsNoted (run : SyncRun) (state : TransferState) : Prop :=
  ∀ d ∈ state.directoryMtimes, ∃ (relative : Key) (entry : WalkEntry), run.sourceEntries[relative]? = some entry ∧
    entry.metadata.fileType = .directory ∧ d = (run.dest.join relative.path, entry)

theorem Advances.remembered {relative : Key} {entry : WalkEntry} {state state' : TransferState}
    (hadv : Advances run relative entry state state')
    (hentry : run.sourceEntries[relative]? = some entry)
    (h : Remembered run.Linked state) : Remembered run.Linked state' := by
  intro link hlink
  rcases hadv.links with heq | ⟨id, hfile, -, heq⟩
  · exact h link (heq ▸ hlink)
  · rw [heq, List.mem_append, List.mem_singleton] at hlink
    rcases hlink with hlink | rfl
    · exact h link hlink
    · exact ⟨relative, entry, hentry, hfile, rfl⟩

theorem Staged.advance {relative : Key} {entry : WalkEntry} {state state' : TransferState}
    (h : run.Staged state) (hentry : run.sourceEntries[relative]? = some entry)
    (hadv : Advances run relative entry state state') : run.Staged state' := by
  intro d hd
  rcases hadv.delayed with heq | ⟨hdry, hdelay, hfile, heq⟩
  · exact h d (heq ▸ hd)
  · rw [heq, List.mem_append, List.mem_singleton] at hd
    rcases hd with hd | rfl
    · exact h d hd
    · exact ⟨hdry, hdelay, relative, entry, hentry, hfile, rfl⟩

theorem DirsNoted.advance {relative : Key} {entry : WalkEntry} {state state' : TransferState}
    (h : run.DirsNoted state) (hentry : run.sourceEntries[relative]? = some entry)
    (hadv : Advances run relative entry state state') : run.DirsNoted state' := by
  intro d hd
  rcases hadv.mtimes with heq | ⟨hdir, heq⟩
  · exact h d (heq ▸ hd)
  · rw [heq, List.mem_append, List.mem_singleton] at hd
    rcases hd with hd | rfl
    · exact h d hd
    · exact ⟨relative, entry, hentry, hdir, rfl⟩

section Finish

variable {I : World → Prop} {w : World}

/-- A property that every source entry's changes keep. -/
def EntriesKeep (run : SyncRun) (I : World → Prop) : Prop :=
  ∀ (relative : Key) entry, run.sourceEntries[relative]? = some entry →
    Kept run.options.dryRun (run.entryAct relative entry) I

theorem Staged.settleable {state : TransferState} (h : run.Staged state) (hI : run.EntriesKeep I) :
    ∀ d ∈ state.delayedTransfers, Settleable run.dest run.options run.Linked I d := by
  intro d hd
  obtain ⟨hdry, hdelay, relative, entry, hentry, hfile, rfl⟩ := h d hd
  exact ⟨hdry, hdelay, hfile, rfl, hI relative entry hentry⟩

theorem ensures_cleanupDelayedUpdates (hI : run.EntriesKeep I) {state : TransferState}
    (hstaged : run.Staged state) (hw : I w) :
    (cleanupDelayedUpdates state.delayedTransfers run.options).Ensures syncHandler I
      (fun _ => I) w := by
  unfold cleanupDelayedUpdates
  split
  · exact ⟨hw, hw⟩
  · exact ensures_removeStaged (hstaged.settleable hI) hw

theorem ensures_finish (hI : run.EntriesKeep I) {state : TransferState}
    (hstaged : run.Staged state) (hw : I w) :
    (run.finish state).Ensures syncHandler I (fun _ => I) w := by
  unfold finish
  refine ensures_seq (ensures_finishDelayedUpdates (hstaged.settleable hI) hw).attempt fun r t ht => ?_
  cases r with
  | ok _ => exact ⟨ht.1, ht.1⟩
  | error err =>
      exact ensures_seq (ensures_cleanupDelayedUpdates hI hstaged ht.1) fun _ u hu => hu

/-- After a failure: what staged files keep, and then what deletions keep. -/
theorem ensures_afterFailure {J : World → Prop} (hJI : ∀ t, J t → I t)
    (hJ : run.EntriesKeep J) {state : TransferState} (hstaged : run.Staged state)
    (hdeletes : ∀ t, J t → (run.deletesWhen [.delay, .after]).Ensures syncHandler I
      (fun _ _ => True) t) (err : FsError) (hw : J w) :
    (run.afterFailure state err).Ensures syncHandler I (fun _ _ => False) w := by
  unfold afterFailure
  refine ensures_seq ((ensures_cleanupDelayedUpdates hJ hstaged hw).mono_always hJI)
    fun _ t ht => ?_
  split
  · exact ensures_seq (hdeletes t ht).with_always fun _ u hu => hu
  · exact hJI t ht

/-- A property that setting the times of the run's directories keeps. -/
def MtimesKeep (run : SyncRun) (I : World → Prop) : Prop :=
  ∀ (relative : Key) entry, run.sourceEntries[relative]? = some entry →
    Kept run.options.dryRun (MtimeAct (run.dest.join relative.path)) I

theorem EntriesKeep.mtimes (hI : run.EntriesKeep I) : run.MtimesKeep I :=
  fun relative entry hentry => (hI relative entry hentry).mtime

theorem ensures_preserveDirectoryMtimes (hI : run.MtimesKeep I) :
    ∀ {directories : List (PathBuf × WalkEntry)} {w : World},
      (∀ d ∈ directories, ∃ (relative : Key) (entry : WalkEntry), run.sourceEntries[relative]? = some entry ∧
        entry.metadata.fileType = .directory ∧ d = (run.dest.join relative.path, entry)) → I w →
      (preserveDirectoryMtimes run.options directories).Ensures syncHandler I (fun _ => I) w
  | [], w, _, hw => ⟨hw, hw⟩
  | d :: directories, w, hd, hw => by
      obtain ⟨relative, entry, hentry, -, rfl⟩ := hd d (by simp)
      unfold preserveDirectoryMtimes
      refine ensures_seq (ensures_preserveTransferredMtime (hI relative entry hentry) hw)
        fun _ t ht => ?_
      exact ensures_preserveDirectoryMtimes hI (fun d hd' => hd d (List.mem_cons_of_mem _ hd')) ht

end Finish

/-! ## The whole run -/

/-- A property that every deletion of the run keeps. -/
def DeletesKeep (run : SyncRun) (I : World → Prop) : Prop :=
  ∀ (relative : Key) entry, run.destEntries[relative]? = some entry →
    run.sourceEntries[relative]? = none →
    isProtected run.options relative entry.metadata.fileType = false →
    Kept run.options.dryRun (DeleteAct run.dest relative entry run.options) I

/-- Deletions by the plan they follow. -/
theorem ensures_deletesWhen_plan {I Q : World → Prop} {w : World} {modes : List DeleteMode}
    (hmodes : .none ∉ modes) (hw : I w)
    (hoff : run.options.effectiveDeleteMode ∉ modes → Q w)
    (hon : ∀ decisions, run.options.effectiveDeleteMode ∈ modes →
      Plan run.sourceEntries run.destEntries run.options decisions →
      (applyDecisions run.dest run.destEntries run.options 0 decisions).Ensures syncHandler I
        (fun _ => Q) w) :
    (run.deletesWhen modes).Ensures syncHandler I (fun _ => Q) w := by
  unfold deletesWhen
  split
  · rename_i hmem
    refine ensures_applyReceiverDeletes hw (fun hnone => ?_) fun decisions _ hplan =>
      hon decisions hmem hplan
    rw [hnone] at hmem
    exact absurd hmem hmodes
  · rename_i hmem
    exact ⟨hw, hoff hmem⟩

theorem ensures_deletesWhen {I : World → Prop} {w : World} (modes : List DeleteMode)
    (hpush : ∀ t action, I t → I { t with report := t.report ++ [action] })
    (hI : run.DeletesKeep I) (hw : I w) :
    (run.deletesWhen modes).Ensures syncHandler I (fun _ => I) w := by
  unfold deletesWhen
  split
  · refine ensures_applyReceiverDeletes hw (fun _ => hw) fun decisions _ hplan => ?_
    have hentries : ∀ d ∈ decisions, ∃ e, run.destEntries[d.relative]? = some e := fun d hd =>
      let ⟨e, he, _⟩ := hplan.entry d hd
      ⟨e, he⟩
    let K : Nat → List IncrementalDeleteDecision → World → Prop :=
      fun _ ds t => I t ∧ ∀ d ∈ ds, d ∈ decisions
    have hdelete : ∀ n d ds t e, K n (d :: ds) t → run.destEntries[d.relative]? = some e →
        t.fs.existsAt e.path = true → d.isProtected = false →
        (∀ limit, run.options.maxDelete = some limit → n < limit) →
        (deleteReceiverEntry run.dest e.path d.relative e.metadata.fileType
          run.options).Ensures syncHandler I (fun _ => K (n + 1) ds) t := by
      intro n d ds t e h he _ hprot _
      obtain ⟨e', he', hnone, hdec⟩ := hplan.entry d (h.2 d (by simp))
      obtain rfl : e = e' := Option.some.inj (he.symm.trans he')
      refine (ensures_deleteReceiverEntry (hI _ e he hnone (by rw [← hdec, hprot])) h.1).mono ?_
      exact fun _ u hu => ⟨hu, fun d' hd' => h.2 d' (List.mem_cons_of_mem _ hd')⟩
    have hrule : (applyDecisions run.dest run.destEntries run.options 0 decisions).Ensures
        syncHandler I (fun _ t => ∃ m, K m [] t) w :=
      ensures_applyDecisions (K := K) (fun _ _ _ h => h.1)
        (fun n d ds t e h _ _ => ⟨h.1, fun d' hd' => h.2 d' (List.mem_cons_of_mem _ hd')⟩)
        (fun n d ds t e h _ _ =>
          ⟨hpush _ _ h.1, fun d' hd' => h.2 d' (List.mem_cons_of_mem _ hd')⟩)
        hdelete hentries ⟨hw, fun d hd => hd⟩
    exact hrule.mono fun _ t ⟨_, ht⟩ => ht.1
  · exact ⟨hw, hw⟩

/-- A run by its stages: `A` before the early deletions, `J` in the transfer loop,
`B` before the late deletions and `C` after them. -/
theorem ensures_execute_stages {I A B C : World → Prop}
    {J : List (Key × WalkEntry) → TransferState → World → Prop} {w : World}
    (hdest : Kept run.options.dryRun (fun _ change => change = .createDirAll run.dest) A)
    (hA : ∀ t, A t → I t) (hJ : ∀ done state t, J done state t → I t)
    (hC : ∀ t, C t → I t)
    (hearly : ∀ t, A t →
      (run.deletesWhen [.before, .during]).Ensures syncHandler I (fun _ => J [] {}) t)
    (hstep : ∀ done relative entry rest state t,
      run.sourceEntries.toList = done ++ (relative, entry) :: rest → J done state t →
      (run.syncEntry relative entry state).Ensures syncHandler I
        (fun state' => J (done ++ [(relative, entry)]) state') t)
    (hnoted : ∀ state t, J run.sourceEntries.toList state t → run.DirsNoted state)
    (hfinish : ∀ state t, J run.sourceEntries.toList state t →
      (run.finish state).Ensures syncHandler I (fun _ => B) t)
    (hlate : ∀ t, B t →
      (run.deletesWhen [.delay, .after]).Ensures syncHandler I (fun _ => C) t)
    (hmtimes : run.MtimesKeep C) (hw : A w) :
    run.execute.Ensures syncHandler I (fun _ => C) w := by
  have hrest : ∀ t, A t → ((do
      run.deletesWhen [.before, .during]
      let state ← run.syncEntries 0 run.sourceEntries.toList {}
      run.finish state
      run.deletesWhen [.delay, .after]
      preserveDirectoryMtimes run.options state.directoryMtimes.reverse) : SyncProg Unit).Ensures
      syncHandler I (fun _ => C) t := by
    intro t ht
    refine ensures_seq (hearly t ht) fun _ t ht => ?_
    have hloop : (run.syncEntries 0 run.sourceEntries.toList {}).Ensures syncHandler I
        (fun state => J run.sourceEntries.toList state) t :=
      ensures_syncEntries hJ hstep (List.nil_append _).symm ht
    refine ensures_seq hloop fun state u hu => ?_
    refine ensures_seq (hfinish state u hu) fun _ u' hu' => ?_
    refine ensures_seq (hlate u' hu') fun _ v hv => ?_
    refine (ensures_preserveDirectoryMtimes hmtimes (fun d hd => hnoted state u hu d ?_)
      hv).mono_always hC
    exact List.mem_reverse.mp hd
  unfold execute
  refine ensures_look (hA w hw) ?_
  split
  · refine ensures_report (hA w hw) ?_
    refine ensures_seq ((hdest.ensures_actUnlessDry_end (hdest.push w _ hw) rfl).mono_always hA)
      fun _ t ht => ?_
    exact hrest t ht
  · exact hrest w hw

/-- A run whose transfers all keep `J`, between the deletions. -/
theorem ensures_execute_between {I A J C : World → Prop} {w : World}
    (hdest : Kept run.options.dryRun (fun _ change => change = .createDirAll run.dest) A)
    (hA : ∀ t, A t → I t) (hJ : ∀ t, J t → I t) (hC : ∀ t, C t → I t)
    (hearly : ∀ t, A t →
      (run.deletesWhen [.before, .during]).Ensures syncHandler I (fun _ => J) t)
    (hentries : run.EntriesKeep J)
    (hlate : ∀ t, J t →
      (run.deletesWhen [.delay, .after]).Ensures syncHandler I (fun _ => C) t)
    (hmtimes : run.MtimesKeep C) (hw : A w) :
    run.execute.Ensures syncHandler I (fun _ => C) w := by
  refine ensures_execute_stages (B := J)
    (J := fun _ state t => J t ∧ run.Staged state ∧ run.DirsNoted state ∧ Remembered run.Linked state)
    hdest hA (fun _ _ t h => hJ t h.1) hC (fun t ht => (hearly t ht).mono fun _ u hu =>
      ⟨hu, by simp [Staged], by simp [DirsNoted], remembered_empty _⟩) ?_ (fun _ _ h => h.2.2.1)
    (fun state t h => (ensures_finish hentries h.2.1 h.1).mono_always hJ) hlate hmtimes hw
  intro done relative entry rest state t hall h
  have hmem := getElem?_of_toList hall
  refine (ensures_syncEntry hJ (hentries relative entry hmem)
    (fun err u hu => ensures_afterFailure hJ hentries h.2.1
      (fun v hv => (hlate v hv).mono fun _ _ _ => trivial) err hu) h.2.2.2 h.1).mono ?_
  exact fun state' u hu => ⟨hu.1, h.2.1.advance hmem hu.2, h.2.2.1.advance hmem hu.2,
    hu.2.remembered hmem h.2.2.2⟩

/-- A property that every change of the run keeps holds all along it. -/
theorem ensures_execute {I : World → Prop} {w : World}
    (hdest : Kept run.options.dryRun (fun _ change => change = .createDirAll run.dest) I)
    (hentries : run.EntriesKeep I) (hdeletes : run.DeletesKeep I) (hw : I w) :
    run.execute.Ensures syncHandler I (fun _ => I) w :=
  ensures_execute_between hdest (fun _ h => h) (fun _ h => h) (fun _ h => h)
    (fun _ ht => ensures_deletesWhen _ hdest.push hdeletes ht) hentries
    (fun _ ht => ensures_deletesWhen _ hdest.push hdeletes ht) hentries.mtimes hw

end SyncRun

/-! ## A single file, and the whole -/

theorem ensures_syncSingleFile {I : World → Prop} {source dest : PathBuf}
    {metadata : PortableMetadata} {options : SyncOptions} {w : World}
    (hfile : metadata.fileType = .file)
    (hI : ∀ target, singleFileTarget w.fs source dest = .ok target →
      Kept options.dryRun (EntryAct (singleFileRoot target) target (singleFileRelative target)
        ⟨source, metadata⟩ options (fun _ => False)) I) (hw : I w) :
    (syncSingleFile source metadata dest options).Ensures syncHandler I (fun _ => I) w := by
  unfold syncSingleFile
  refine ensures_look hw ?_
  cases htarget : singleFileTarget w.fs source dest with
  | error e => exact hw
  | ok target =>
      have hkept := hI target htarget
      simp only [Prog.ofExcept_ok, Prog.ret_bind]
      cases ensureMissingDestinationParentAllowed w.fs target options.mkpath with
      | error e => exact hw
      | ok _ =>
          cases preflight options [destinationPreflightPath target] with
          | error e => exact hw
          | ok _ =>
              simp only [Prog.ofExcept_ok, Prog.ret_bind]
              refine ensures_seq (ensures_removeConflictingTarget hkept hfile.symm (by simp) hw)
                fun removed t ht => ?_
              split
              · refine ensures_look ht ?_
                cases fileNeedsUpdate t.fs ⟨source, metadata⟩ target options with
                | error e => exact ht
                | ok needed =>
                    cases needed with
                    | false => exact ensures_preserveExistingFileMtime hkept.mtime ht
                    | true =>
                        simp only [Prog.ofExcept_ok, Prog.ret_bind, if_true]
                        refine ensures_seq (ensures_transferFile hkept hfile (remembered_empty _) ht)
                          fun state u hu => ?_
                        have hsettle : ∀ d ∈ state.delayedTransfers,
                            Settleable (singleFileRoot target) options (fun _ => False) I d := by
                          intro d hd
                          rcases hu.2.delayed with heq | ⟨hdry, hdelay, heq⟩
                          · rw [heq] at hd
                            cases hd
                          · rw [heq] at hd
                            obtain rfl := List.mem_singleton.mp hd
                            exact ⟨hdry, hdelay, hfile, rfl, hkept⟩
                        exact ensures_finishDelayedUpdates hsettle hu.1
              · exact ⟨ht, ht⟩

theorem ensures_syncTree {I : World → Prop} {Q : Unit → World → Prop} {stack : Nat}
    {source dest : PathBuf} {options : SyncOptions} {w : World} (hw : I w)
    (hsingle : ∀ metadata, checkRoots w.fs source dest = .ok metadata → metadata.fileType = .file →
      (syncSingleFile source metadata dest options).Ensures syncHandler I Q w)
    (hrun : ∀ metadata run, checkRoots w.fs source dest = .ok metadata →
      metadata.fileType ≠ .file → prepare stack w.fs source dest options = .ok run →
      run.execute.Ensures syncHandler I Q w) :
    (syncTree stack source dest options).Ensures syncHandler I Q w := by
  unfold syncTree
  refine ensures_look hw ?_
  cases hroots : checkRoots w.fs source dest with
  | error e => exact hw
  | ok metadata =>
      simp only [Prog.ofExcept_ok, Prog.ret_bind]
      split
      · rename_i hfile
        exact hsingle metadata hroots hfile
      · rename_i hfile
        cases hprepare : prepare stack w.fs source dest options with
        | error e => exact hw
        | ok run => exact hrun metadata run hroots hfile hprepare

theorem checkRoots_eq_ok {fs : MemoryFileSystem} {source dest : PathBuf}
    {metadata : PortableMetadata} (h : checkRoots fs source dest = .ok metadata) :
    ∃ sk dk, source.names = some sk ∧ dest.names = some dk ∧ ¬ sk <+: dk ∧
      fs.metadata source = .ok metadata := by
  unfold checkRoots at h
  cases hs : source.names with
  | none => simp [normalizePortablePath, hs, bind, Except.bind] at h
  | some sk =>
      cases hd : dest.names with
      | none => simp [normalizePortablePath, hs, hd, bind, Except.bind] at h
      | some dk =>
          simp only [normalizePortablePath, hs, hd, bind, Except.bind] at h
          split at h
          · cases h
          · rename_i hpre
            rw [List.isPrefixOf_iff_prefix] at hpre
            exact ⟨sk, dk, rfl, rfl, hpre, h⟩

/-- What a run that has passed its checks works on. -/
structure Prepared (stack : Nat) (fs : MemoryFileSystem) (source dest : PathBuf)
    (options : SyncOptions) (run : SyncRun) : Prop where
  dest_eq : run.dest = dest
  options_eq : run.options = options
  source : sourceEntriesOf stack fs source options = .ok run.sourceEntries
  destination : destEntriesOf stack fs dest options = .ok run.destEntries
  parent : ensureMissingDestinationParentAllowed fs dest options.mkpath = .ok ()

theorem prepared_of_prepare {stack : Nat} {fs : MemoryFileSystem} {source dest : PathBuf}
    {options : SyncOptions} {run : SyncRun} (h : prepare stack fs source dest options = .ok run) :
    Prepared stack fs source dest options run := by
  unfold prepare at h
  cases hs : sourceEntriesOf stack fs source options with
  | error e => simp [hs, bind, Except.bind] at h
  | ok sourceEntries =>
      simp only [hs, bind, Except.bind] at h
      cases hp : preflight options (sourceEntries.keys.map Key.path) with
      | error e => simp [hp] at h
      | ok _ =>
          simp only [hp] at h
          cases hd : destEntriesOf stack fs dest options with
          | error e => simp [hd] at h
          | ok destEntries =>
              simp only [hd] at h
              cases hparent : ensureMissingDestinationParentAllowed fs dest options.mkpath with
              | error e => simp [hparent] at h
              | ok _ =>
                  simp only [hparent] at h
                  cases h
                  exact ⟨rfl, rfl, hs, hd, hparent⟩

/-- The source is walked, and then only what is asked for is kept. -/
theorem sourceEntriesOf_eq_ok {stack : Nat} {fs : MemoryFileSystem} {source : PathBuf}
    {options : SyncOptions} {sourceEntries : Entries}
    (h : sourceEntriesOf stack fs source options = .ok sourceEntries) :
    ∃ entries, relativeEntries stack fs source
      { filterRules := some options.filterRules
        recursive := options.recursive
        symlinkMode := options.symlinkMode
        oneFileSystem := options.oneFileSystem } = .ok entries ∧
      sourceEntries = match options.filesFrom with
        | some filesFrom => retainFilesFromEntries entries filesFrom
        | none => entries := by
  unfold sourceEntriesOf at h
  cases hwalk : relativeEntries stack fs source
      { filterRules := some options.filterRules
        recursive := options.recursive
        symlinkMode := options.symlinkMode
        oneFileSystem := options.oneFileSystem } with
  | error e => simp [hwalk, bind, Except.bind] at h
  | ok entries =>
      simp only [hwalk, bind, Except.bind] at h
      exact ⟨entries, rfl, (Except.ok.inj h).symm⟩

/-- A sync whose source can be walked is a run. -/
theorem ensures_syncTree_walked {fs : MemoryFileSystem} {stack : Nat} {source dest : PathBuf}
    {options : SyncOptions} {sourceEntries : Entries} {I : World → Prop} {Q : Unit → World → Prop}
    (hsource : sourceEntriesOf stack fs source options = .ok sourceEntries) (hw : I ⟨fs, []⟩)
    (hrun : ∀ run sk, source.names = some sk → Prepared stack fs source dest options run →
      run.sourceEntries = sourceEntries → run.execute.Ensures syncHandler I Q ⟨fs, []⟩) :
    (syncTree stack source dest options).Ensures syncHandler I Q ⟨fs, []⟩ := by
  refine ensures_syncTree hw ?_ ?_
  · -- a file cannot be walked
    intro metadata hroots hfile
    obtain ⟨entries, hwalk, -⟩ := sourceEntriesOf_eq_ok hsource
    obtain ⟨sk, bytes, hs, hdir⟩ := directory_of_relativeEntries hwalk
    obtain ⟨_, _, _, _, _, hmeta⟩ := checkRoots_eq_ok hroots
    obtain ⟨b, hc⟩ := MemoryFileSystem.content_of_metadata hs hmeta
    rw [hdir, hfile] at hc
    cases hc
  · intro metadata run hroots _ hprepare
    obtain ⟨sk, _, hs, _⟩ := checkRoots_eq_ok hroots
    have hprepared := prepared_of_prepare hprepare
    exact hrun run sk hs hprepared (Except.ok.inj (hprepared.source.symm.trans hsource))

theorem all_sourceEntriesOf {fs : MemoryFileSystem} {stack : Nat} {source : PathBuf}
    {options : SyncOptions} {sourceEntries : Entries} {P : Key → WalkEntry → Prop}
    {R : PathBuf → Key → Prop} (hvisits : Visits fs source options.symlinkMode P R)
    (hR : R source []) (h : sourceEntriesOf stack fs source options = .ok sourceEntries) :
    sourceEntries.All P := by
  obtain ⟨entries, hwalk, heq⟩ := sourceEntriesOf_eq_ok h
  have hall : entries.All P := all_relativeEntries hvisits hR rfl hwalk
  rw [heq]
  cases options.filesFrom with
  | none => exact hall
  | some filesFrom => exact hall.filter filesFrom

theorem all_destEntriesOf {fs : MemoryFileSystem} {stack : Nat} {dest : PathBuf}
    {options : SyncOptions} {destEntries : Entries} {P : Key → WalkEntry → Prop}
    {R : PathBuf → Key → Prop} (hvisits : Visits fs dest .preserve P R) (hR : R dest [])
    (h : destEntriesOf stack fs dest options = .ok destEntries) : destEntries.All P := by
  unfold destEntriesOf at h
  split at h
  · exact all_relativeEntries hvisits hR rfl h
  · cases h
    simp [Entries.All]

theorem linkFree_sourceEntriesOf {fs : MemoryFileSystem} {stack : Nat} {source : PathBuf}
    {options : SyncOptions} {sourceEntries : Entries} (hskip : options.symlinkMode = .skip)
    (h : sourceEntriesOf stack fs source options = .ok sourceEntries) : LinkFree sourceEntries :=
  all_sourceEntriesOf (hskip ▸ visits_skip fs source) trivial h

theorem treeEntries_destEntriesOf {stack : Nat} {fs : MemoryFileSystem} {dest : PathBuf}
    {options : SyncOptions} {dk : Key} {destEntries : Entries} (hwf : WellFormed fs)
    (hd : dest.names = some dk) (h : destEntriesOf stack fs dest options = .ok destEntries) :
    TreeEntries fs dk destEntries := by
  unfold destEntriesOf at h
  split at h
  · exact (treeEntries_relativeEntries (hwf.noFollow (by simp)) hd h).1
  · rw [← Except.ok.inj h]
    exact ⟨by simp, by simp, by simp⟩

theorem Prepared.sourceTree {stack : Nat} {fs : MemoryFileSystem} {source dest : PathBuf}
    {options : SyncOptions} {run : SyncRun} {sk : Key}
    (h : Prepared stack fs source dest options run) (hno : NoFollow fs options.symlinkMode)
    (hs : source.names = some sk) : TreeEntries fs sk run.sourceEntries := by
  obtain ⟨entries, hwalk, heq⟩ := sourceEntriesOf_eq_ok h.source
  have htree := (treeEntries_relativeEntries hno hs hwalk).1
  rw [heq]
  cases options.filesFrom with
  | none => exact htree
  | some filesFrom => exact htree.retain filesFrom

theorem Prepared.destTree {stack : Nat} {fs : MemoryFileSystem} {source dest : PathBuf}
    {options : SyncOptions} {run : SyncRun} {dk : Key}
    (h : Prepared stack fs source dest options run) (hwf : WellFormed fs)
    (hd : dest.names = some dk) : TreeEntries fs dk run.destEntries :=
  treeEntries_destEntriesOf hwf hd h.destination

theorem ok_of_isOk {ε α : Type} {r : Except ε α} (a : α) (h : r.isOk = true) :
    r = .ok (r.toOption.getD a) := by
  cases r with
  | error e => cases h
  | ok b => rfl

end RsyncWin.Fs
