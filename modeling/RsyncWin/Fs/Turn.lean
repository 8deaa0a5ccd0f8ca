import RsyncWin.Fs.PlainSync

/-!
# What a transfer brings

Without symlinks a transfer writes to its target, to the backup and to the staging
path of its target, and nowhere else. Whatever way a file takes, by a link to an
earlier target, from a basis directory, by appending, whole or staged, one lemma a
way says what is at the target when it returns.
-/

namespace RsyncWin.Fs

open ByteString MemoryFileSystem

/-! ## Lengths -/

/-- The length of a file is that of its bytes. -/
def Measured (fs : MemoryFileSystem) : Prop :=
  ∀ key node, fs.get key = some node → node.metadata.fileType = .file →
    node.metadata.len = node.bytes.length

instance (fs : MemoryFileSystem) : Decidable (Measured fs) :=
  decidable_of_iff (∀ entry ∈ fs.nodes.toList, entry.2.metadata.fileType = .file →
      entry.2.metadata.len = entry.2.bytes.length) <| by
    constructor
    · intro h key node hget
      exact h (key, node) (Std.TreeMap.mem_toList_iff_getElem?_eq_some.mpr hget)
    · rintro h ⟨key, node⟩ hmem
      exact h key node (Std.TreeMap.mem_toList_iff_getElem?_eq_some.mp hmem)

section Measured

variable {fs : MemoryFileSystem}

theorem Measured.insert (h : Measured fs) (key : Key) {node : MemoryNode}
    (hnode : node.metadata.fileType = .file → node.metadata.len = node.bytes.length) :
    Measured (fs.insert key node) := by
  intro x node' hget
  rw [get_insert, Function.update_apply] at hget
  split at hget
  · cases hget
    exact hnode
  · exact h x node' hget

theorem Measured.erase (h : Measured fs) (key : Key) : Measured (fs.erase key) := by
  intro x node hget
  rw [get_erase, Function.update_apply] at hget
  split at hget
  · cases hget
  · exact h x node hget

theorem Measured.createDirAll (h : Measured fs) (path : PathBuf) :
    Measured (fs.createDirAll path).2 := by
  unfold MemoryFileSystem.createDirAll
  split
  · exact h
  · intro x node hget
    rw [get_createDirs] at hget
    rcases PathTree.fill_eq_some hget with hget | ⟨-, -, rfl⟩
    · exact h x node hget
    · intro htype
      cases htype

theorem Measured.createParent (h : Measured fs) (key : Key) :
    Measured (fs.createParent key).2 := by
  unfold MemoryFileSystem.createParent
  split
  · exact h.createDirAll _
  · exact h

theorem Measured.andThen {r : Outcome} {k : MemoryFileSystem → Outcome} (h : Measured r.2)
    (hk : ∀ fs', Measured fs' → Measured (k fs').2) : Measured (r.andThen k).2 := by
  obtain ⟨result, fs'⟩ := r
  cases result with
  | error e => exact h
  | ok _ => exact hk fs' h

theorem Measured.writeFileAtomic (h : Measured fs) (path : PathBuf) (bytes : Bytes) :
    Measured (fs.writeFileAtomic path bytes).2 := by
  unfold MemoryFileSystem.writeFileAtomic
  split
  · exact h
  · exact (h.createParent _).andThen fun fs' h' => h'.insert _ fun _ => rfl

theorem Measured.refreshHardlinkCount (h : Measured fs) (id : HardlinkId) :
    Measured (fs.refreshHardlinkCount id) := by
  intro x node hget
  unfold MemoryFileSystem.refreshHardlinkCount MemoryFileSystem.get at hget
  rw [Std.TreeMap.getElem?_map, Option.map_eq_some_iff] at hget
  obtain ⟨old, hold, rfl⟩ := hget
  have hlen := h x old hold
  split
  · exact hlen
  · exact hlen

theorem Measured.ensureHardlinkId (h : Measured fs) {key : Key} {id : HardlinkId}
    {fs' : MemoryFileSystem} (hid : fs.ensureHardlinkId key = .ok (id, fs')) : Measured fs' := by
  unfold MemoryFileSystem.ensureHardlinkId at hid
  split at hid
  · cases hid
  · rename_i node hnode
    have hlen := h key node hnode
    split at hid
    · cases hid
    · split at hid
      · cases hid
        exact h
      · obtain ⟨-, rfl⟩ := Prod.mk.inj (Except.ok.inj hid)
        have hinsert : Measured (fs.insert key { node with metadata := { node.metadata with
            hardlinkId := some ⟨0, fs.nextHardlinkFile⟩, hardlinkCount := some 1 } }) :=
          h.insert key hlen
        exact fun x node' hget => hinsert x node' hget

theorem Measured.createHardLink (h : Measured fs) (existing link : PathBuf) :
    Measured (fs.createHardLink existing link).2 := by
  unfold MemoryFileSystem.createHardLink
  split
  · exact h
  · split
    · exact h
    · split
      · exact h
      · rename_i hid
        have h' := h.ensureHardlinkId hid
        split
        · exact h'
        · rename_i node hnode
          have hlen := h' _ node hnode
          refine (h'.createParent _).andThen fun fs' h'' => ?_
          refine Measured.refreshHardlinkCount ?_ _
          refine h''.insert _ ?_
          exact hlen

/-- No change loses the length of a file. -/
theorem measured_run (h : Measured fs) (change : FsAct) : Measured (change.run fs).2 := by
  cases change with
  | createDirAll path => exact h.createDirAll path
  | removeFile path =>
      rw [FsAct.run]
      unfold removeFile
      repeat' split
      all_goals first | exact h | exact h.erase _
  | removeDirAll path =>
      rw [FsAct.run]
      unfold removeDirAll
      split
      · exact h
      · split
        · exact h
        · split
          · intro x node hget
            rw [get_eraseBelow] at hget
            exact h x node (PathTree.prune_eq_some hget).1
          · exact h
  | copyFile source dest mode =>
      rw [FsAct.run]
      unfold copyFileWithOptions
      split
      · exact h
      · cases mode <;> exact h.writeFileAtomic _ _
  | renameFile source dest =>
      rw [FsAct.run]
      unfold renameFile
      split
      · exact h
      · split
        · exact h
        · refine (h.createParent _).andThen fun fs' h' => ?_
          split
          · exact h'
          · rename_i node hnode
            exact (h'.erase _).insert _ (h' _ node hnode)
  | appendFileFrom path source offset =>
      rw [FsAct.run]
      unfold appendFileFrom
      split
      · exact h
      · split
        · exact h
        · unfold appendFile
          repeat' split
          all_goals first | exact h | exact h.insert _ fun _ => rfl
  | createSymlink path target =>
      rw [FsAct.run]
      unfold createSymlink
      split
      · exact h
      · exact (h.createParent _).andThen fun fs' h' => h'.insert _ fun htype => by cases htype
  | createHardLink existing link => exact h.createHardLink existing link
  | setMtime path modified =>
      rw [FsAct.run]
      unfold setMtime
      split
      · exact h
      · split
        · exact h
        · rename_i node hnode
          exact h.insert _ (h _ node hnode)

end Measured

/-! ## Contents -/

/-- A path is free for a file: nothing is there but perhaps a regular file. -/
def Room (c : PathTree Bytes Content) (key : Key) : Prop :=
  ∀ a, c key = some a → a.1 = .file

theorem room_of_file {c : PathTree Bytes Content} {key : Key} {bytes : Bytes}
    (h : c key = some (.file, bytes)) : Room c key := by
  intro a ha
  rw [h] at ha
  cases ha
  rfl

theorem Stays.trans {c c' c'' : PathTree Bytes Content} {x : Key} (h : Stays c c' x)
    (h' : Stays c' c'' x) : Stays c c'' x := by
  rcases h with h | ⟨hnone, hdir⟩
  · rcases h' with h' | ⟨hnone', hdir'⟩
    · exact Or.inl (h'.trans h)
    · exact Or.inr ⟨h ▸ hnone', hdir'⟩
  · rcases h' with h' | ⟨hnone', -⟩
    · exact Or.inr ⟨hnone, h'.trans hdir⟩
    · rw [hnone'] at hdir
      cases hdir

/-- The paths of `O` that a path can name. -/
def Inside (O : Key → Prop) (path : PathBuf) : Prop := ∀ y, path.names = some y → O y

/-- A target that is brought up by changes that keep `I`. The paths that its turn
writes to or links from are in `O`, where no symlink leads away. -/
structure Placing (destRoot target relative : PathBuf) (entry : WalkEntry) (options : SyncOptions)
    (linked : PathBuf → Prop) (key : Key) (O : Key → Prop) (I : World → Prop) : Prop where
  dryRun : options.dryRun = false
  names : target.names = some key
  kept : Kept options.dryRun (EntryAct destRoot target relative entry options linked) I
  clear : ∀ t, I t → ∀ y, O y → Clear t.fs.content y
  here : O key
  backup : options.backup = true → Inside O (backupPathFor destRoot target relative options)
  staging : options.delayUpdates = true → Inside O (delayedUpdatePath destRoot relative options)
  linked : ∀ existing, linked existing → Inside O existing
  basis : ∀ dir ∈ options.linkDest ++ options.copyDest,
    Inside O (basisFilePath destRoot dir relative)

/-- Off a target and its backup everything stays. -/
def OffTarget (destRoot target relative : PathBuf) (options : SyncOptions) (key : Key)
    (c c' : PathTree Bytes Content) : Prop :=
  ∀ x, x ≠ key →
    (options.backup = true →
      (backupPathFor destRoot target relative options).names ≠ some x) → Stays c c' x

/-- What the basis directories give to a target are the bytes that belong there. -/
def BasisHonest (destRoot relative : PathBuf) (entry : WalkEntry) (options : SyncOptions)
    (key : Key) (bytes : Bytes) (fs : MemoryFileSystem) : Prop :=
  match checkBasisDirs fs destRoot relative entry options with
  | none => True
  | some .skip => fs.content key = some (.file, bytes)
  | some (.copyFrom basis) | some (.linkFrom basis) =>
      ∀ y b, basis.names = some y → fs.content y = some (.file, b) → b = bytes

/-- What a transfer needs to bring the bytes of its source: they stay what they are,
a target to link to has them, and so has the basis that is asked after no link was made. -/
structure Faithful (destRoot target relative : PathBuf) (entry : WalkEntry) (options : SyncOptions)
    (key : Key) (I : World → Prop) (state : TransferState) (bytes : Bytes) (w : World) : Prop where
  file : entry.metadata.fileType = .file
  source : ∀ t, I t → t.fs.readFile entry.path = .ok bytes
  len : bytes.length = entry.metadata.len
  measured : ∀ t, I t → Measured t.fs
  links : ∀ t id existing ekey b, I t → options.preserveHardLinks = true →
    entry.metadata.hardlinkId = some id → state.hardlinkTarget id = some existing →
    existing.names = some ekey → t.fs.content ekey = some (.file, b) → b = bytes
  basis : ∀ v, (transferHardLink destRoot target relative entry options state).run syncHandler w =
    .ret false v → BasisHonest destRoot relative entry options key bytes v.fs
  apart : options.backup = true → ∀ dir ∈ options.linkDest ++ options.copyDest, ∀ y,
    (basisFilePath destRoot dir relative).names = some y →
    (backupPathFor destRoot target relative options).names ≠ some y

/-- A file that has been transferred is at the target, or staged. -/
def Transferred (destRoot target relative : PathBuf) (entry : WalkEntry) (options : SyncOptions)
    (key : Key) (bytes : Bytes) (state state' : TransferState) (t : World) : Prop :=
  (t.fs.content key = some (.file, bytes) ∧
      (state' = state ∨
        state' = rememberHardlinkTarget entry target options.preserveHardLinks state)) ∨
    (options.delayUpdates = true ∧
      state' = { state with delayedTransfers := state.delayedTransfers ++
        [⟨delayedUpdatePath destRoot relative options, target, relative, entry⟩] } ∧
      ∃ tkey, (delayedUpdatePath destRoot relative options).names = some tkey ∧
        t.fs.content tkey = some (.file, bytes))

/-- What `append_verify` finds at a target that it continues. -/
theorem offset_of_appendVerify {fs : MemoryFileSystem} {source target : PathBuf} {key : Key}
    {sourceLen offset : Nat} (hk : target.names = some key)
    (hmeasured : Measured fs)
    (h : appendVerifyOffset fs source target sourceLen = .ok (some offset)) :
    ∃ old bytes, fs.content key = some (.file, old) ∧ fs.readFile source = .ok bytes ∧
      old <+: bytes ∧ offset = old.length ∧ offset ≤ sourceLen := by
  unfold appendVerifyOffset at h
  cases hmeta : fs.metadata target with
  | error e =>
      rw [hmeta] at h
      cases h
  | ok metadata =>
      obtain ⟨key', node, hk', hnode, rfl⟩ := metadata_eq_ok hmeta
      obtain rfl : key = key' := Option.some.inj (hk.symm.trans hk')
      rw [hmeta] at h
      simp only at h
      split at h
      · cases h
      · rename_i hnot
        rw [not_or, not_not, Nat.not_lt] at hnot
        unfold filePrefixMatches at h
        cases hsource : fs.readFile source with
        | error e => simp [hsource, bind, Except.bind] at h
        | ok bytes =>
            have hc : fs.content key = some (.file, node.bytes) := by
              rw [content_of_get hnode, MemoryNode.content, hnot.1]
            rw [readFile_of_content hk hc, hsource] at h
            simp only [bind, Except.bind, pure, Except.pure] at h
            split at h
            · rename_i hpre
              cases h
              exact ⟨node.bytes, bytes, hc, rfl, List.isPrefixOf_iff_prefix.mp hpre,
                hmeasured key node hnode hnot.1, hnot.2⟩
            · cases h

namespace Placing

variable {destRoot target relative : PathBuf} {entry : WalkEntry} {options : SyncOptions}
  {linked : PathBuf → Prop} {key : Key} {O : Key → Prop} {I : World → Prop} {w : World}
  {state : TransferState}

theorem ensures_preserveTransferredMtime
    (h : Placing destRoot target relative entry options linked key O I)
    {P : PathTree Bytes Content → Prop} (hw : I w) (hP : P w.fs.content) :
    (preserveTransferredMtime target entry options).Ensures syncHandler I
      (fun _ t => I t ∧ P t.fs.content) w :=
  ((Fs.ensures_preserveTransferredMtime h.kept.mtime hw).and
    (Fs.ensures_preserveTransferredMtime mtime_kept hP)).mono_always fun _ ht => ht.1

theorem ensures_preserveExistingFileMtime
    (h : Placing destRoot target relative entry options linked key O I)
    {P : PathTree Bytes Content → Prop} (hw : I w) (hP : P w.fs.content) :
    (preserveExistingFileMtime target entry options).Ensures syncHandler I
      (fun _ t => I t ∧ P t.fs.content) w :=
  ((Fs.ensures_preserveExistingFileMtime h.kept.mtime hw).and
    (Fs.ensures_preserveExistingFileMtime mtime_kept hP)).mono_always fun _ ht => ht.1

/-- A backup leaves what it copies, also where it is made in the same place. -/
theorem ensures_backupReceiverFile
    (h : Placing destRoot target relative entry options linked key O I) (hw : I w) :
    (backupReceiverFile destRoot target relative options).Ensures syncHandler I
      (fun _ t => I t ∧ t.fs.content key = w.fs.content key ∧
        OffTarget destRoot target relative options key w.fs.content t.fs.content) w := by
  have hsame : ∀ report : List SyncAction, I ⟨w.fs, report⟩ →
      I ⟨w.fs, report⟩ ∧ w.fs.content key = w.fs.content key ∧
        OffTarget destRoot target relative options key w.fs.content w.fs.content :=
    fun report hI => ⟨hI, rfl, fun x _ _ => .refl _ x⟩
  unfold backupReceiverFile
  by_cases hbackup : options.backup = true
  · rw [if_pos hbackup]
    refine ensures_look hw ?_
    cases hmeta : w.fs.metadata target with
    | error e => exact ⟨hw, hsame w.report hw⟩
    | ok metadata =>
        by_cases hfile : metadata.fileType = .file
        · simp only [hfile, ne_eq, not_true_eq_false, if_false]
          have hpush := h.kept.push w
            (.backupFile target (backupPathFor destRoot target relative options)) hw
          refine ensures_report hw ?_
          have hdone := h.kept.act _ _ h.dryRun hpush (.backup hbackup hmeta hfile)
          unfold actUnlessDry
          simp only [h.dryRun, Bool.false_eq_true, if_false]
          rw [← Prog.bind_ret (act _)]
          refine ensures_act hpush hdone fun hrun => ⟨hdone, hdone, ?_⟩
          obtain ⟨bytes, hc⟩ := content_of_metadata h.names hmeta
          rw [hfile] at hc
          cases hb : (backupPathFor destRoot target relative options).names with
          | none =>
              have hstay : (FsAct.run w.fs (.copyFile target
                  (backupPathFor destRoot target relative options) .atomic)).2 = w.fs :=
                copyFile_of_none hb _
              show (FsAct.run w.fs _).2.content key = _ ∧
                OffTarget destRoot target relative options key w.fs.content
                  (FsAct.run w.fs _).2.content
              rw [hstay]
              exact ⟨rfl, fun x _ _ => .refl _ x⟩
          | some bkey =>
              have hclear : Clear w.fs.content bkey := h.clear w hw bkey (h.backup hbackup bkey hb)
              rcases @copyFile_of_clear w.fs target _ _ hb hclear .atomic with
                ⟨e, -, herr⟩ | ⟨bytes', fs', hread, hok, hcontent⟩
              · rw [FsAct.run, herr] at hrun
                cases hrun
              · have hbytes : w.fs.content key = some (.file, bytes') :=
                  content_of_readFile h.names (fun b hb => by simp [hc] at hb) hread
                show (FsAct.run w.fs _).2.content key = _ ∧
                  OffTarget destRoot target relative options key w.fs.content
                    (FsAct.run w.fs _).2.content
                rw [FsAct.run, hok, hcontent]
                refine ⟨?_, fun x _ hx => stays_place fun heq => hx hbackup (heq ▸ hb)⟩
                by_cases hkey : key = bkey
                · rw [← hkey, PathTree.place_self, hbytes]
                · exact ((stays_place hkey).some hbytes).trans hbytes.symm
        · simp only [ne_eq, hfile, not_false_eq_true, if_true]
          exact ⟨hw, hsame w.report hw⟩
  · rw [if_neg hbackup]
    exact ⟨hw, hsame w.report hw⟩

/-- Before a link or a copy from a basis, the file in its place goes. -/
theorem ensures_removeExisting
    (h : Placing destRoot target relative entry options linked key O I)
    (hroom : Room w.fs.content key) (hw : I w) :
    (removeExistingFileBeforeHardlink target).Ensures syncHandler I
      (fun _ t => I t ∧ t.fs.content key = none ∧
        OffTarget destRoot target relative options key w.fs.content t.fs.content) w := by
  unfold removeExistingFileBeforeHardlink
  refine ensures_look hw ?_
  cases hmeta : w.fs.metadata target with
  | ok metadata =>
      obtain ⟨bytes, hc⟩ := content_of_metadata h.names hmeta
      have hfile : metadata.fileType = .file := hroom _ hc
      simp only [hfile, ne_eq, reduceCtorEq, not_false_eq_true, if_true]
      have hdone := h.kept.act w (.removeFile target) h.dryRun hw .clearFile
      rw [← Prog.bind_ret (act _)]
      refine ensures_act hw hdone fun hrun => ?_
      refine ⟨hdone, hdone, content_of_removeFile h.names hrun, fun x hx _ => ?_⟩
      rcases removeFile_cases h.names with ⟨e, herr, -⟩ | ⟨_, fs', -, -, hok, hcontent⟩
      · rw [FsAct.run, herr] at hrun
        cases hrun
      · rw [FsAct.run, hok, hcontent, Stays, Function.update_of_ne hx]
        exact Or.inl rfl
  | error e =>
      have hnone := content_of_metadata_error h.names hmeta
      cases e with
      | notFound path => exact ⟨hw, hw, hnone, fun x _ _ => .refl _ x⟩
      | _ => exact hw

/-- A backup, and then the file in its place goes. -/
theorem ensures_clearPlace {α : Type} {Q : α → World → Prop} {k : Unit → SyncProg α}
    (h : Placing destRoot target relative entry options linked key O I)
    (hroom : Room w.fs.content key) (hw : I w)
    (hk : ∀ u, I u → u.fs.content key = none →
      OffTarget destRoot target relative options key w.fs.content u.fs.content →
      (k ()).Ensures syncHandler I Q u) :
    (backupReceiverFile destRoot target relative options >>= fun _ =>
      removeExistingFileBeforeHardlink target >>= k).Ensures syncHandler I Q w := by
  refine ensures_seq (h.ensures_backupReceiverFile hw) fun _ t ht => ?_
  obtain ⟨hI, hsame, hoff⟩ := ht
  have hroom' : Room t.fs.content key := fun a ha => hroom a (hsame ▸ ha)
  refine ensures_seq (h.ensures_removeExisting hroom' hI) fun _ u hu => ?_
  exact hk u hu.1 hu.2.1 fun x hx hb => Stays.trans (hoff x hx hb) (hu.2.2 x hx hb)

/-- A link that is made has the content of what it links to. -/
theorem content_link (h : Placing destRoot target relative entry options linked key O I) (hw : I w)
    {existing : PathBuf} (hexisting : Inside O existing)
    (hrun : (FsAct.run w.fs (.createHardLink existing target)).1 = .ok ()) :
    ∃ ekey bytes, existing.names = some ekey ∧ w.fs.content ekey = some (.file, bytes) ∧
      (FsAct.run w.fs (.createHardLink existing target)).2.content key = some (.file, bytes) := by
  cases he : existing.names with
  | none =>
      have herr : w.fs.createHardLink existing target =
          (.error (.invalidPortablePath existing), w.fs) := by
        unfold createHardLink
        rw [resolveWritePath_of_none he]
      rw [FsAct.run, herr] at hrun
      cases hrun
  | some ekey =>
      rcases createHardLink_of_clear he h.names (h.clear w hw ekey (hexisting ekey he))
        (h.clear w hw key h.here) with
        ⟨e, herr⟩ | ⟨bytes, fs', hfile, hok, hcontent⟩
      · rw [FsAct.run, herr] at hrun
        cases hrun
      · refine ⟨ekey, bytes, rfl, hfile, ?_⟩
        rw [FsAct.run, hok, hcontent]
        exact PathTree.place_self

/-- A link that cannot be made changes nothing. -/
theorem link_error (h : Placing destRoot target relative entry options linked key O I) (hw : I w)
    {existing : PathBuf} (hexisting : Inside O existing) {e : FsError}
    (hrun : (FsAct.run w.fs (.createHardLink existing target)).1 = .error e) :
    (FsAct.run w.fs (.createHardLink existing target)).2 = w.fs := by
  cases he : existing.names with
  | none => exact createHardLink_of_none (Or.inl he)
  | some ekey =>
      rcases createHardLink_of_clear he h.names (h.clear w hw ekey (hexisting ekey he))
        (h.clear w hw key h.here) with
        ⟨e, herr⟩ | ⟨bytes, fs', hfile, hok, hcontent⟩
      · rw [FsAct.run, herr]
      · rw [FsAct.run, hok] at hrun
        cases hrun

/-- A file that is copied to the target. -/
theorem content_copy (h : Placing destRoot target relative entry options linked key O I) (hw : I w)
    {source : PathBuf} {mode : FileWriteMode}
    (hrun : (FsAct.run w.fs (.copyFile source target mode)).1 = .ok ()) :
    ∃ bytes, w.fs.readFile source = .ok bytes ∧
      (FsAct.run w.fs (.copyFile source target mode)).2.content key = some (.file, bytes) := by
  rcases @copyFile_of_clear w.fs source _ _ h.names (h.clear w hw key h.here) mode with
    ⟨e, -, herr⟩ | ⟨bytes, fs', hread, hok, hcontent⟩
  · rw [FsAct.run, herr] at hrun
    cases hrun
  · refine ⟨bytes, hread, ?_⟩
    rw [FsAct.run, hok, hcontent]
    exact PathTree.place_self

/-- A linked file has the bytes of the target it was linked to. -/
theorem ensures_transferHardLink
    (h : Placing destRoot target relative entry options linked key O I)
    (hfile : entry.metadata.fileType = .file) (hstate : Remembered linked state)
    (hroom : Room w.fs.content key) (hw : I w) :
    (transferHardLink destRoot target relative entry options state).Ensures syncHandler I
      (fun done t => I t ∧
        (done = true → ∃ id existing ekey bytes u, options.preserveHardLinks = true ∧
          entry.metadata.hardlinkId = some id ∧ state.hardlinkTarget id = some existing ∧
          existing.names = some ekey ∧ I u ∧ u.fs.content ekey = some (.file, bytes) ∧
          t.fs.content key = some (.file, bytes)) ∧
        (done = false → Room t.fs.content key ∧
          (t = w ∨ ∃ id existing, options.preserveHardLinks = true ∧
            entry.metadata.hardlinkId = some id ∧
            state.hardlinkTarget id = some existing))) w := by
  unfold transferHardLink
  split
  · exact ⟨hw, hw, by simp, fun _ => ⟨hroom, Or.inl rfl⟩⟩
  · rename_i existing hexisting
    have hlink : options.preserveHardLinks = true := by
      by_contra h
      simp [h] at hexisting
    rw [if_pos hlink] at hexisting
    obtain ⟨id, hid, htarget⟩ := Option.bind_eq_some_iff.mp hexisting
    refine ensures_report hw ?_
    have hw' := h.kept.push w (.createHardLink existing target) hw
    simp only [h.dryRun, Bool.false_eq_true, if_false]
    refine h.ensures_clearPlace hroom hw' fun u hu hnone _ => ?_
    refine ensures_tryAct hu ?_
    have hlinked := hstate.of_hardlinkTarget htarget
    have hdone := h.kept.act u (.createHardLink existing target) h.dryRun hu
      (.link existing hfile (Or.inl ⟨hlink, hlinked⟩))
    cases hrun : (FsAct.run u.fs (.createHardLink existing target)).1 with
    | ok _ =>
        obtain ⟨ekey, bytes, he, hecontent, hkey⟩ :=
          h.content_link hu (h.linked existing hlinked) hrun
        refine ensures_seq (h.ensures_preserveTransferredMtime
          (P := fun c => c key = some (.file, bytes)) hdone hkey) fun _ v hv => ?_
        exact ⟨hv.1, hv.1, fun _ => ⟨id, existing, ekey, bytes, u, hlink, hid, htarget, he, hu,
          hecontent, hv.2⟩, by simp⟩
    | error err =>
        have hsame := h.link_error hu (h.linked existing hlinked) hrun
        refine ensures_report hdone ⟨h.kept.push _ _ hdone, h.kept.push _ _ hdone, by simp, ?_⟩
        refine fun _ => ⟨fun a ha => ?_, Or.inr ⟨id, existing, hlink, hid, htarget⟩⟩
        change (FsAct.run u.fs (.createHardLink existing target)).2.content key = some a at ha
        rw [hsame, hnone] at ha
        cases ha

/-- What a transfer from a basis directory leaves: after a plain match nothing has
changed, else the bytes of the basis, as they were when it was read, are at the target. -/
def FromBasis (destRoot target relative : PathBuf) (options : SyncOptions) (key : Key)
    (I : World → Prop) (w t : World) : BasisMatchAction → Prop
  | .skip => t.fs = w.fs
  | .copyFrom basis | .linkFrom basis => ∃ u bkey bytes, I u ∧
      OffTarget destRoot target relative options key w.fs.content u.fs.content ∧
      u.fs.content key = none ∧ basis.names = some bkey ∧
      u.fs.content bkey = some (.file, bytes) ∧ t.fs.content key = some (.file, bytes)

theorem ensures_transferBasis
    (h : Placing destRoot target relative entry options linked key O I)
    (hfile : entry.metadata.fileType = .file) (hroom : Room w.fs.content key) (hw : I w) :
    (transferBasis destRoot target relative entry options).Ensures syncHandler I
      (fun done t => I t ∧ (done = false → t = w) ∧
        (done = true → ∃ action,
          checkBasisDirs w.fs destRoot relative entry options = some action ∧
          FromBasis destRoot target relative options key I w t action)) w := by
  have hread : ∀ {u : World} {basis : PathBuf} {bytes : Bytes}, I u → Inside O basis →
      u.fs.readFile basis = .ok bytes →
      ∃ bkey, basis.names = some bkey ∧ u.fs.content bkey = some (.file, bytes) := by
    intro u basis bytes hu hinside hbytes
    cases hb : basis.names with
    | none =>
        unfold readFile at hbytes
        rw [normalizePortablePath_of_none hb] at hbytes
        cases hbytes
    | some bkey =>
        have hclear := h.clear u hu bkey (hinside bkey hb)
        exact ⟨bkey, rfl, content_of_readFile hb (hclear bkey · (List.prefix_refl bkey)) hbytes⟩
  unfold transferBasis
  refine ensures_look hw ?_
  cases hbasis : checkBasisDirs w.fs destRoot relative entry options with
  | none => exact ⟨hw, hw, fun _ => rfl, by simp⟩
  | some action =>
      cases action with
      | skip =>
          have hpush := h.kept.push w (.warn target .compareDestMatch) hw
          exact ensures_report hw ⟨hpush, hpush, by simp, fun _ => ⟨.skip, rfl, rfl⟩⟩
      | copyFrom basis =>
          obtain ⟨dir, hdir, rfl⟩ := copyDest_of_checkBasisDirs hbasis
          have hinside := h.basis dir (List.mem_append_right _ hdir)
          refine ensures_report hw ?_
          have hw' := h.kept.push w (.writeFile target entry.metadata.len) hw
          simp only [h.dryRun, Bool.false_eq_true, if_false]
          refine h.ensures_clearPlace hroom hw' fun u hu hnone hoff => ?_
          have hdone := h.kept.act u _ h.dryRun hu
            (.copy (basisFilePath destRoot dir relative) options.fileWriteMode hfile)
          refine ensures_act hu hdone fun hrun => ?_
          obtain ⟨bytes, hbytes, hkey⟩ := h.content_copy hu hrun
          obtain ⟨bkey, hb, hcontent⟩ := hread hu hinside hbytes
          refine ensures_seq (h.ensures_preserveTransferredMtime
            (P := fun c => c key = some (.file, bytes)) hdone hkey) fun _ v hv => ?_
          exact ⟨hv.1, hv.1, by simp,
            fun _ => ⟨.copyFrom _, rfl, u, bkey, bytes, hu, hoff, hnone, hb, hcontent, hv.2⟩⟩
      | linkFrom basis =>
          obtain ⟨dir, hdir, rfl⟩ := linkDest_of_checkBasisDirs hbasis
          have hinside := h.basis dir (List.mem_append_left _ hdir)
          refine ensures_report hw ?_
          have hw' := h.kept.push w
            (.createHardLink (basisFilePath destRoot dir relative) target) hw
          simp only [h.dryRun, Bool.false_eq_true, if_false]
          refine h.ensures_clearPlace hroom hw' fun u hu hnone hoff => ?_
          refine ensures_tryAct hu ?_
          have hdone := h.kept.act u _ h.dryRun hu
            (.link (basisFilePath destRoot dir relative) hfile (Or.inr ⟨dir, hdir, rfl⟩))
          cases hrun : (FsAct.run u.fs
              (.createHardLink (basisFilePath destRoot dir relative) target)).1 with
          | ok _ =>
              obtain ⟨bkey, bytes, hb, hcontent, hkey⟩ := h.content_link hu hinside hrun
              refine ensures_seq (h.ensures_preserveTransferredMtime
                (P := fun c => c key = some (.file, bytes)) hdone hkey) fun _ v hv => ?_
              exact ⟨hv.1, hv.1, by simp, fun _ =>
                ⟨.linkFrom _, rfl, u, bkey, bytes, hu, hoff, hnone, hb, hcontent, hv.2⟩⟩
          | error err =>
              have hsame := h.link_error hu hinside hrun
              refine ensures_report hdone ?_
              have hwarn := h.kept.push _ (.warn target (.linkDestFallback err)) hdone
              have hcopied := h.kept.act _ _ h.dryRun hwarn
                (.copy (basisFilePath destRoot dir relative) options.fileWriteMode hfile)
              refine ensures_act hwarn hcopied fun hcopy => ?_
              obtain ⟨bytes, hbytes, hkey⟩ := h.content_copy hwarn hcopy
              have hbytes' : u.fs.readFile (basisFilePath destRoot dir relative) = .ok bytes := by
                rw [← hsame]
                exact hbytes
              obtain ⟨bkey, hb, hcontent⟩ := hread hu hinside hbytes'
              refine ensures_seq (h.ensures_preserveTransferredMtime
                (P := fun c => c key = some (.file, bytes)) hcopied hkey) fun _ v hv => ?_
              exact ⟨hv.1, hv.1, by simp, fun _ =>
                ⟨.linkFrom _, rfl, u, bkey, bytes, hu, hoff, hnone, hb, hcontent, hv.2⟩⟩

/-- A similar file that is taken as a start leaves a file. -/
theorem ensures_transferFuzzy
    (h : Placing destRoot target relative entry options linked key O I)
    (hfile : entry.metadata.fileType = .file) (hroom : Room w.fs.content key) (hw : I w) :
    (transferFuzzy target entry options).Ensures syncHandler I
      (fun _ t => I t ∧ Room t.fs.content key) w := by
  unfold transferFuzzy
  split
  · refine ensures_look hw ?_
    split
    · exact ⟨hw, hw, hroom⟩
    · split
      · exact ⟨hw, hw, hroom⟩
      · rename_i basis _
        refine ensures_report hw ?_
        have hw' := h.kept.push w (.warn target (.fuzzyBasis basis)) hw
        have hdone := h.kept.act _ _ h.dryRun hw' (.copy basis options.fileWriteMode hfile)
        rw [← Prog.bind_ret (act _)]
        refine ensures_act hw' hdone fun hrun => ⟨hdone, hdone, ?_⟩
        obtain ⟨bytes, -, hkey⟩ := h.content_copy hw' hrun
        exact room_of_file hkey
  · exact ⟨hw, hw, hroom⟩

/-- An appended file has the bytes of its source. -/
theorem ensures_transferAppend
    (h : Placing destRoot target relative entry options linked key O I)
    (hfile : entry.metadata.fileType = .file) (hmeasured : Measured w.fs)
    (hlen : ∀ bytes, w.fs.readFile entry.path = .ok bytes → bytes.length = entry.metadata.len)
    (hw : I w) :
    (transferAppend target entry options).Ensures syncHandler I
      (fun done t => I t ∧ (done = false → t = w) ∧
        (done = true → ∃ bytes, w.fs.readFile entry.path = .ok bytes ∧
          t.fs.content key = some (.file, bytes))) w := by
  have hend : ∀ {bytes : Bytes} {t : World}, w.fs.readFile entry.path = .ok bytes → I t →
      t.fs.content key = some (.file, bytes) → ((do
        preserveTransferredMtime target entry options
        pure true) : SyncProg Bool).Ensures syncHandler I
      (fun done t => I t ∧ (done = false → t = w) ∧
        (done = true → ∃ bytes, w.fs.readFile entry.path = .ok bytes ∧
          t.fs.content key = some (.file, bytes))) t := by
    intro bytes t hread ht hc
    refine ensures_seq (h.ensures_preserveTransferredMtime
      (P := fun c => c key = some (.file, bytes)) ht hc) fun _ u hu => ?_
    exact ⟨hu.1, hu.1, by simp, fun _ => ⟨bytes, hread, hu.2⟩⟩
  unfold transferAppend
  split
  · rename_i happend
    refine ensures_look hw ?_
    cases hoffset : appendVerifyOffset w.fs entry.path target entry.metadata.len with
    | error e => exact hw
    | ok offset =>
        cases offset with
        | none => exact ⟨hw, hw, fun _ => rfl, by simp⟩
        | some offset =>
            simp only [Prog.ofExcept_ok, Prog.ret_bind]
            obtain ⟨old, bytes, hc, hread, hpre, rfl, hle⟩ :=
              offset_of_appendVerify h.names hmeasured hoffset
            have hbytes := hlen bytes hread
            split
            · rename_i hpos
              refine ensures_report hw ?_
              have hw' := h.kept.push w (.appendFile target (entry.metadata.len - old.length)) hw
              have hdone := h.kept.act _ _ h.dryRun hw' (.append old.length happend hfile)
              unfold actUnlessDry
              simp only [h.dryRun, Bool.false_eq_true, if_false]
              refine ensures_act hw' hdone fun hrun => hend hread hdone ?_
              rcases @appendFileFrom_of_clear w.fs _ entry.path _ h.names
                (h.clear w hw key h.here) old.length with
                ⟨e, herr⟩ | ⟨old', tail, fs', hc', hread', hok, hcontent⟩
              · rw [FsAct.run, herr] at hrun
                cases hrun
              · cases hc.symm.trans hc'
                cases hread.symm.trans hread'
                show (FsAct.run w.fs _).2.content key = _
                rw [FsAct.run, hok, hcontent, Function.update_self]
                obtain ⟨rest, rfl⟩ := hpre
                rw [List.drop_left]
            · rename_i hzero
              -- nothing is missing, so that the target has been compared whole
              have heq : old = bytes := hpre.eq_of_length (by omega)
              exact hend hread hw (heq ▸ hc)
  · exact ⟨hw, hw, fun _ => rfl, by simp⟩

/-- What is transferred whole is at the target, or staged. -/
theorem ensures_transferWhole
    (h : Placing destRoot target relative entry options linked key O I)
    (hfile : entry.metadata.fileType = .file) (hw : I w) :
    (transferWhole destRoot target relative entry options state).Ensures syncHandler I
      (fun state' t => I t ∧
        ((options.delayUpdates = false ∧
            state' = rememberHardlinkTarget entry target options.preserveHardLinks state ∧
            ∃ u bytes, I u ∧ u.fs.readFile entry.path = .ok bytes ∧
              t.fs.content key = some (.file, bytes)) ∨
          (options.delayUpdates = true ∧
            state' = { state with delayedTransfers := state.delayedTransfers ++
              [⟨delayedUpdatePath destRoot relative options, target, relative, entry⟩] } ∧
            ∃ tkey bytes, (delayedUpdatePath destRoot relative options).names = some tkey ∧
              w.fs.readFile entry.path = .ok bytes ∧
              t.fs.content tkey = some (.file, bytes)))) w := by
  unfold transferWhole
  refine ensures_report hw ?_
  have hw' := h.kept.push w (writeAction target entry options.fileWriteMode) hw
  simp only [h.dryRun, Bool.not_false, Bool.true_and]
  split
  · rename_i hdelay
    have hdone := h.kept.act _ _ h.dryRun hw' (.stage hdelay hfile)
    refine ensures_act hw' hdone fun hrun => ⟨hdone, hdone, Or.inr ⟨hdelay, rfl, ?_⟩⟩
    cases hp : (delayedUpdatePath destRoot relative options).names with
    | none =>
        have herr : ∃ e, (FsAct.run w.fs (.copyFile entry.path
            (delayedUpdatePath destRoot relative options) .atomic)).1 = .error e := by
          rw [FsAct.run]
          unfold copyFileWithOptions
          cases w.fs.readFile entry.path with
          | error e => exact ⟨e, rfl⟩
          | ok bytes =>
              refine ⟨.invalidPortablePath (delayedUpdatePath destRoot relative options), ?_⟩
              simp only [writeFileWithOptions, writeFileAtomic, resolveWritePath_of_none hp]
        obtain ⟨e, herr⟩ := herr
        rw [herr] at hrun
        cases hrun
    | some tkey =>
        have hclear : Clear w.fs.content tkey := h.clear w hw tkey (h.staging hdelay tkey hp)
        rcases @copyFile_of_clear w.fs entry.path _ _ hp hclear .atomic with
          ⟨e, -, herr⟩ | ⟨bytes, fs', hread, hok, hcontent⟩
        · rw [FsAct.run, herr] at hrun
          cases hrun
        · refine ⟨tkey, bytes, rfl, hread, ?_⟩
          show (FsAct.run w.fs _).2.content tkey = _
          rw [FsAct.run, hok, hcontent]
          exact PathTree.place_self
  · rename_i hdelay
    rw [Bool.not_eq_true] at hdelay
    simp only [Bool.false_eq_true, if_false]
    refine ensures_seq (h.ensures_backupReceiverFile hw') fun _ u hu => ?_
    have hdone := h.kept.act u _ h.dryRun hu.1 (.copy entry.path options.fileWriteMode hfile)
    refine ensures_act hu.1 hdone fun hrun => ?_
    obtain ⟨bytes, hread, hkey⟩ := h.content_copy hu.1 hrun
    refine ensures_seq (h.ensures_preserveTransferredMtime
      (P := fun c => c key = some (.file, bytes)) hdone hkey) fun _ v hv => ?_
    exact ⟨hv.1, hv.1, Or.inl ⟨hdelay, rfl, u, bytes, hu.1, hread, hv.2⟩⟩

/-- The bytes of a basis are still there when it is copied or linked. -/
theorem content_of_fromBasis {bytes : Bytes} {t : World} {action : BasisMatchAction}
    (h : Placing destRoot target relative entry options linked key O I)
    (hfaithful : Faithful destRoot target relative entry options key I state bytes t)
    (haction : checkBasisDirs w.fs destRoot relative entry options = some action)
    (hhonest : BasisHonest destRoot relative entry options key bytes w.fs) {u : World}
    (hbasis : FromBasis destRoot target relative options key I w u action) :
    u.fs.content key = some (.file, bytes) := by
  -- neither the target nor its backup is the basis
  have hsame : ∀ {v : World} {dir : PathBuf} {y : Key} {b : Bytes},
      dir ∈ options.linkDest ++ options.copyDest →
      OffTarget destRoot target relative options key w.fs.content v.fs.content →
      v.fs.content key = none → (basisFilePath destRoot dir relative).names = some y →
      v.fs.content y = some (.file, b) → w.fs.content y = some (.file, b) := by
    intro v dir y b hdir hoff hnone hy hc
    have hne : y ≠ key := by
      rintro rfl
      rw [hnone] at hc
      cases hc
    rcases hoff y hne (fun hb => hfaithful.apart hb dir hdir y hy) with heq | ⟨-, heq⟩
    · rw [← heq, hc]
    · rw [hc] at heq
      cases heq
  unfold BasisHonest at hhonest
  rw [haction] at hhonest
  cases action with
  | skip => rwa [show u.fs = w.fs from hbasis]
  | copyFrom basis =>
      obtain ⟨v, y, b, -, hoff, hnone, hy, hc, hkey⟩ := hbasis
      obtain ⟨dir, hdir, rfl⟩ := copyDest_of_checkBasisDirs haction
      have hfound := hsame (List.mem_append_right _ hdir) hoff hnone hy hc
      rw [hkey, hhonest y b hy hfound]
  | linkFrom basis =>
      obtain ⟨v, y, b, -, hoff, hnone, hy, hc, hkey⟩ := hbasis
      obtain ⟨dir, hdir, rfl⟩ := linkDest_of_checkBasisDirs haction
      have hfound := hsame (List.mem_append_left _ hdir) hoff hnone hy hc
      rw [hkey, hhonest y b hy hfound]

theorem ensures_transferFile {bytes : Bytes}
    (h : Placing destRoot target relative entry options linked key O I)
    (hfaithful : Faithful destRoot target relative entry options key I state bytes w)
    (hstate : Remembered linked state) (hroom : Room w.fs.content key) (hw : I w) :
    (transferFile destRoot target relative entry options state).Ensures syncHandler I
      (fun state' t => I t ∧
        Transferred destRoot target relative entry options key bytes state state' t) w := by
  have hfile := hfaithful.file
  unfold transferFile
  refine ensures_seq (h.ensures_transferHardLink hfile hstate hroom hw).with_run
    fun linked t ht => ?_
  obtain ⟨⟨hI, hlinked, hnot⟩, hrun⟩ := ht
  cases linked with
  | true =>
      obtain ⟨id, existing, ekey, b, u, hlink, hid, htarget, he, hu, hc, hkey⟩ := hlinked rfl
      obtain rfl := hfaithful.links u id existing ekey b hu hlink hid htarget he hc
      exact ⟨hI, hI, Or.inl ⟨hkey, Or.inl rfl⟩⟩
  | false =>
      simp only [Bool.false_eq_true, if_false]
      refine ensures_seq (h.ensures_transferBasis hfile (hnot rfl).1 hI) fun based u hu => ?_
      obtain ⟨hI', hsame, hbasis⟩ := hu
      cases based with
      | true =>
          obtain ⟨action, haction, hfrom⟩ := hbasis rfl
          have hkey := h.content_of_fromBasis hfaithful haction (hfaithful.basis t hrun) hfrom
          exact ⟨hI', hI', Or.inl ⟨hkey, Or.inl rfl⟩⟩
      | false =>
          obtain rfl := hsame rfl
          simp only [Bool.false_eq_true, if_false]
          refine ensures_seq (h.ensures_transferFuzzy hfile (hnot rfl).1 hI') fun _ v hv => ?_
          refine ensures_seq (h.ensures_transferAppend hfile (hfaithful.measured v hv.1)
            (fun b hb => ?_) hv.1) fun appended x hx => ?_
          · cases (hfaithful.source v hv.1).symm.trans hb
            exact hfaithful.len
          cases appended with
          | true =>
              obtain ⟨b, hread, hkey⟩ := hx.2.2 rfl
              cases (hfaithful.source v hv.1).symm.trans hread
              exact ⟨hx.1, hx.1, Or.inl ⟨hkey, Or.inl rfl⟩⟩
          | false =>
              refine (h.ensures_transferWhole hfile hx.1).mono fun state' y hy => ?_
              rcases hy with ⟨hy, ⟨-, rfl, z, b, hz, hread, hkey⟩ |
                ⟨hdelay, rfl, tkey, b, htkey, hread, hstaged⟩⟩
              · cases (hfaithful.source z hz).symm.trans hread
                exact ⟨hy, Or.inl ⟨hkey, Or.inr rfl⟩⟩
              · cases (hfaithful.source x hx.1).symm.trans hread
                exact ⟨hy, Or.inr ⟨hdelay, rfl, tkey, htkey, hstaged⟩⟩

end Placing

end RsyncWin.Fs
