import RsyncWin.Fs.Bringing

/-!
# Checksums and basis directories

With checksums the target of a source file is compared byte by byte, but a basis file
is taken for it by its length and, where both have one, its time. What a sync brings
is exact as far as the basis files that it picks are.
-/

namespace RsyncWin.Fs

open ByteString MemoryFileSystem

/-! ## Files that need no update -/

/-- A regular file with these bytes is at a path. -/
def Holds (fs : MemoryFileSystem) (path : PathBuf) (bytes : Bytes) : Prop :=
  ∃ key, path.names = some key ∧ fs.content key = some (.file, bytes)

/-- The limits of a sync leave a file out, by its size or by what is at its target. -/
def LeftOut (fs : MemoryFileSystem) (entry : WalkEntry) (target : PathBuf)
    (options : SyncOptions) : Prop :=
  options.maxSize.any (· < entry.metadata.len) = true ∨
    options.minSize.any (entry.metadata.len < ·) = true ∨
    (options.ignoreExisting = true ∧ ∃ bytes, Holds fs target bytes) ∨
    (options.existingOnly = true ∧ ∀ bytes, ¬ Holds fs target bytes)

/-- Why a file needs no update when checksums are compared. -/
theorem checksum_idle {fs : MemoryFileSystem} {entry : WalkEntry} {target : PathBuf} {key : Key}
    {options : SyncOptions} (hmode : options.updateMode = .checksum)
    (hk : target.names = some key) (h : fileNeedsUpdate fs entry target options = .ok false) :
    options.maxSize.any (· < entry.metadata.len) = true ∨
      options.minSize.any (entry.metadata.len < ·) = true ∨
      (options.existingOnly = true ∧ fs.content key = none) ∨
      ∃ metadata bytes, fs.metadata target = .ok metadata ∧ metadata.fileType = .file ∧
        fs.content key = some (.file, bytes) ∧
        (options.ignoreExisting = true ∨
          (options.skipNewerReceiver = true ∧
            isNewer entry.metadata.modified metadata.modified = true) ∨
          fs.readFile entry.path = .ok bytes) := by
  unfold fileNeedsUpdate at h
  simp only at h
  split at h
  · rename_i hmax
    exact Or.inl hmax
  · split at h
    · rename_i hmin
      exact Or.inr (Or.inl hmin)
    · refine Or.inr (Or.inr ?_)
      cases hmeta : fs.metadata target with
      | error e =>
          rw [hmeta] at h
          simp only [Except.ok.injEq, Bool.not_eq_false'] at h
          exact Or.inl ⟨h, content_of_metadata_error hk hmeta⟩
      | ok metadata =>
          obtain ⟨bytes, hc⟩ := content_of_metadata hk hmeta
          rw [hmeta] at h
          simp only at h
          split at h
          · cases h
          · rename_i hfile
            rw [not_not] at hfile
            rw [hfile] at hc
            refine Or.inr ⟨metadata, bytes, rfl, hfile, hc, ?_⟩
            split at h
            · rename_i hignore
              exact Or.inl hignore
            · split at h
              · rename_i hnewer
                rw [Bool.and_eq_true] at hnewer
                exact Or.inr (Or.inl hnewer)
              · rw [hmode] at h
                refine Or.inr (Or.inr ?_)
                cases hequal : fs.filesEqual entry.path target with
                | error e =>
                    rw [hequal] at h
                    cases h
                | ok equal =>
                    rw [hequal] at h
                    cases equal with
                    | false => cases h
                    | true =>
                        obtain ⟨b, hleft, hright⟩ := readFile_of_filesEqual hequal
                        rw [readFile_of_content hk hc] at hright
                        cases hright
                        exact hleft

/-- A file in the place of a file needs no way made. -/
theorem run_removeConflictingTarget_file {destRoot target relative : PathBuf} {key : Key}
    {options : SyncOptions} {w : World} {bytes : Bytes} (hk : target.names = some key)
    (hc : w.fs.content key = some (.file, bytes)) :
    (removeConflictingTarget destRoot target relative .file options).run syncHandler w =
      .ret true w := by
  obtain ⟨node, hget, hnode⟩ := get_of_content hc
  have hmeta : w.fs.metadata target = .ok node.metadata := metadata_of_get hk hget
  have hfile : node.metadata.fileType = .file := congrArg Prod.fst hnode
  unfold removeConflictingTarget
  rw [run_look]
  simp only [hmeta, hfile, if_true, ite_self]
  rfl

/-! ## Runs -/

/-- The source file of an entry is at its target. -/
def Delivered (fs : MemoryFileSystem) (entry : WalkEntry) (target : PathBuf) (w : World) : Prop :=
  ∃ bytes, Holds fs entry.path bytes ∧ Holds w.fs target bytes

/-- A newer file at a target, which is to be skipped, has the bytes of its source. -/
def NewerEqual (fs₀ fs : MemoryFileSystem) (entry : WalkEntry) (target : PathBuf)
    (options : SyncOptions) : Prop :=
  options.skipNewerReceiver = true → ∀ metadata bytes, fs.metadata target = .ok metadata →
    isNewer entry.metadata.modified metadata.modified = true → Holds fs target bytes →
    Holds fs₀ entry.path bytes

namespace SyncRun

variable {run : SyncRun} {fs : MemoryFileSystem} {sk dk : Key}

/-- A run in which whatever stands in for a transfer has the bytes of the source. -/
structure Exact (run : SyncRun) (fs : MemoryFileSystem) (sk dk : Key) : Prop where
  unfollowed : run.Unfollowed fs sk dk
  apart : run.Apart dk fun _ _ => True
  one : run.OneContent fs sk
  turn : ∀ done rest q e state w, run.sourceEntries.toList = done ++ (q, e) :: rest →
    run.Reached ⟨fs, []⟩ done state w → e.metadata.fileType = .file →
    run.TurnHonest fs sk dk q e state w
  newer : ∀ done rest q e state w, run.sourceEntries.toList = done ++ (q, e) :: rest →
    run.Reached ⟨fs, []⟩ done state w → e.metadata.fileType = .file →
    NewerEqual fs w.fs e (run.dest.join q.path) run.options

/-- Every source file is to be brought, unless limits leave it out or the report says
that a directory in its place stays. -/
def exactCharge (run : SyncRun) (fs : MemoryFileSystem) (sk : Key) : Charge where
  tracked _ _ := True
  excused r report := (∃ e, run.sourceEntries[r]? = some e ∧
    LeftOut fs e (run.dest.join r.path) run.options) ∨
    .protectDelete (run.dest.join r.path) ∈ report
  excused_push _ _ _ h := h.imp_right (List.mem_append_left _)
  good := SourceContent fs sk
  good_dir := sourceContent_dir

theorem Exact.turnExcused (h : run.Exact fs sk dk) (hmode : run.options.updateMode = .checksum)
    (hbackup : run.options.backup = false) {done rest : List (Key × WalkEntry)} {q : Key}
    {e : WalkEntry} {state : TransferState} {w : World}
    (hsplit : run.sourceEntries.toList = done ++ (q, e) :: rest)
    (hreached : run.Reached ⟨fs, []⟩ done state w) (hfile : e.metadata.fileType = .file)
    (hw : run.Progress fs sk dk (run.exactCharge fs sk) done done state w) :
    run.TurnExcused fs sk dk (run.exactCharge fs sk) q e w := by
  have he := getElem?_of_toList hsplit
  have hnames := h.unfollowed.names q
  have hnot : (q, e) ∉ done := fun hmem => key_ne_of_toList hsplit hmem rfl
  -- until its turn the target is what it was before the run
  have hahead := hw.ahead hbackup q e he hfile hnot
  refine ⟨fun t _ hreport => Or.inl (Or.inr hreport), fun u t hway hclear hidle hsame => ?_,
    fun _ bytes _ _ hbytes => ⟨bytes, hbytes, rfl⟩⟩
  have hleft : LeftOut fs e (run.dest.join q.path) run.options →
      (run.exactCharge fs sk).excused q t.report ∨ (run.exactCharge fs sk).Good dk q t :=
    fun hleft => Or.inl (Or.inl ⟨e, he, hleft⟩)
  rcases checksum_idle hmode hnames hidle with hmax | hmin | ⟨hexisting, hnone⟩ |
    ⟨metadata, bytes, hmeta, htype, hc, hwhy⟩
  · exact hleft (Or.inl hmax)
  · exact hleft (Or.inr (Or.inl hmin))
  · refine hleft (Or.inr (Or.inr (Or.inr ⟨hexisting, ?_⟩)))
    rintro bytes ⟨key, hkey, hc⟩
    rw [hnames, Option.some.injEq] at hkey
    subst hkey
    have hfound := hahead.some hc
    have hstay : (run.makeWay q).run syncHandler w = .ret true w :=
      run_removeConflictingTarget_file hnames hfound
    rw [hstay] at hway
    cases hway
    rw [hfound] at hnone
    cases hnone
  · obtain rfl : u = w := by
      rcases hclear with hnone | ⟨rfl, -⟩
      · rw [hnone] at hc
        cases hc
      · rfl
    rcases hwhy with hignore | hnewer | hread
    · refine hleft (Or.inr (Or.inr (Or.inl ⟨hignore, bytes, dk ++ q, hnames, ?_⟩)))
      rcases hahead with heq | ⟨-, hdir⟩
      · rw [← heq, hc]
      · rw [hc] at hdir
        cases hdir
    · obtain ⟨key, hkey, hsource⟩ := h.newer done rest q e state u hsplit hreached hfile hnewer.1
        metadata bytes hmeta hnewer.2 ⟨dk ++ q, hnames, hc⟩
      rw [h.unfollowed.source.path_eq he, names_key, Option.some.injEq] at hkey
      exact Or.inr ⟨bytes, hkey ▸ hsource, hsame.trans hc⟩
    · obtain ⟨b, hsource, -⟩ := h.unfollowed.sourceBytes he hfile
      cases hread.symm.trans (h.unfollowed.read hw.framing he hsource)
      exact Or.inr ⟨bytes, hsource, hsame.trans hc⟩

/-- An exact run brings every source file that is not left out. -/
theorem Exact.ensures_execute (h : run.Exact fs sk dk)
    (hmode : run.options.updateMode = .checksum) (hbackup : run.options.backup = false) :
    run.execute.Ensures syncHandler (fun _ => True) (fun _ w =>
      ∀ (r : Key) e, run.sourceEntries[r]? = some e → e.metadata.fileType = .file →
        LeftOut fs e (run.dest.join r.path) run.options ∨
          .protectDelete (run.dest.join r.path) ∈ w.report ∨
          Delivered fs e (run.dest.join r.path) w) ⟨fs, []⟩ := by
  have hcharged : run.Charged fs sk dk (run.exactCharge fs sk) :=
    ⟨h.unfollowed, h.apart, fun _ _ _ => trivial⟩
  refine (hcharged.ensures_execute [] h.one
    (fun done rest q e state w hsplit hreached hfile _ =>
      h.turn done rest q e state w hsplit hreached hfile)
    (fun done rest q e state w hsplit hreached hfile _ hw =>
      h.turnExcused hmode hbackup hsplit hreached hfile hw)).mono fun _ w hw r e he hfile => ?_
  rcases hw r e he hfile trivial with (⟨e', he', hleft⟩ | hreport) | ⟨bytes, hsource, hc⟩
  · obtain rfl : e = e' := Option.some.inj (he.symm.trans he')
    exact Or.inl hleft
  · exact Or.inr (Or.inl hreport)
  · refine Or.inr (Or.inr ⟨bytes, ⟨sk ++ r, ?_, hsource⟩, dk ++ r, h.unfollowed.names r, hc⟩)
    rw [h.unfollowed.source.path_eq he, names_key]

end SyncRun

/-! ## Single files -/

section Single

variable {fs : MemoryFileSystem} {source dest target : PathBuf} {metadata : PortableMetadata}
  {options : SyncOptions} {sk dk key : Key} {bytes : Bytes}

/-- The paths that the sync of a single file without backups writes to or links from. -/
def SinglePath (target : PathBuf) (options : SyncOptions) (y : Key) : Prop :=
  target.names = some y ∨
    (options.delayUpdates = true ∧ (delayedUpdatePath (singleFileRoot target)
      (singleFileRelative target) options).names = some y) ∨
    ∃ dir ∈ options.linkDest ++ options.copyDest,
      (basisFilePath (singleFileRoot target) dir (singleFileRelative target)).names = some y

/-- The sync of a single file in which whatever stands in for the transfer has the
bytes of the source. -/
structure ExactSingle (fs : MemoryFileSystem) (source : PathBuf) (metadata : PortableMetadata)
    (options : SyncOptions) (target : PathBuf) : Prop where
  clear : ∀ y, SinglePath target options y → Clear fs.content y
  apart : options.delayUpdates = true → (delayedUpdatePath (singleFileRoot target)
    (singleFileRelative target) options).names ≠ source.names
  basis : ∀ u key bytes, (removeConflictingTarget (singleFileRoot target) target
      (singleFileRelative target) .file options).run syncHandler ⟨fs, []⟩ = .ret true u →
    fileNeedsUpdate u.fs ⟨source, metadata⟩ target options = .ok true →
    target.names = some key → Holds fs source bytes →
    BasisHonest (singleFileRoot target) (singleFileRelative target) ⟨source, metadata⟩ options
      key bytes u.fs
  newer : NewerEqual fs fs ⟨source, metadata⟩ target options
  measured : Measured fs

/-- What the sync of a single file keeps. -/
structure SingleFrame (target : PathBuf) (options : SyncOptions) (sk : Key) (bytes : Bytes)
    (w : World) : Prop where
  clear : ∀ y, SinglePath target options y → Clear w.fs.content y
  source : w.fs.content sk = some (.file, bytes)
  measured : Measured w.fs

theorem names_singleFileTarget (hd : dest.names = some dk)
    (h : singleFileTarget fs source dest = .ok target) :
    ∃ key, target.names = some key ∧ dk <+: key := by
  unfold singleFileTarget at h
  split at h
  · split at h
    · split at h
      · rename_i name _
        cases h
        exact ⟨dk ++ [name], names_join_key hd [name], List.prefix_append dk [name]⟩
      · cases h
    · cases h
      exact ⟨dk, hd, List.prefix_refl dk⟩
  · cases h
    exact ⟨dk, hd, List.prefix_refl dk⟩

theorem singleFrame_kept (hfile : metadata.fileType = .file) (hbackup : options.backup = false)
    (hs : source.names = some sk) (hk : target.names = some key) (hnot : ¬ key <+: sk)
    (hapart : options.delayUpdates = true → (delayedUpdatePath (singleFileRoot target)
      (singleFileRelative target) options).names ≠ source.names) :
    Kept options.dryRun (EntryAct (singleFileRoot target) target (singleFileRelative target)
      ⟨source, metadata⟩ options fun _ => False) (SingleFrame target options sk bytes) := by
  refine ⟨fun w action hw => ⟨hw.clear, hw.source, hw.measured⟩, fun w change _ hw hact => ?_⟩
  have htarget : target.names ≠ some sk := by
    rw [hk]
    rintro h
    exact hnot (Option.some.inj h ▸ List.prefix_refl key)
  rw [hs] at hapart
  have hparts : (∀ y, change.Resolves y → SinglePath target options y) ∧ ¬ change.Hits sk ∧
      (∀ source dest y, change = .renameFile source dest → source.names = some y →
        SinglePath target options y) ∧ ∀ path link, change ≠ .createSymlink path link := by
    cases hact with
    | makeDir hdir => exact absurd (hdir.symm.trans hfile) (by simp)
    | clearDir =>
        refine ⟨fun _ hy => hy.elim, ?_, by simp, by simp⟩
        rintro ⟨key', hkey', hpre⟩
        rw [hk, Option.some.injEq] at hkey'
        exact hnot (hkey' ▸ hpre)
    | clearFile => exact ⟨fun _ hy => hy.elim, htarget, by simp, by simp⟩
    | backup hb =>
        rw [hbackup] at hb
        cases hb
    | link existing hf hlink =>
        refine ⟨fun y hy => ?_, htarget, by simp, by simp⟩
        rcases hy with hy | hy
        · rcases hlink with ⟨-, h⟩ | ⟨dir, hdir, rfl⟩
          · exact h.elim
          · exact Or.inr (Or.inr ⟨dir, List.mem_append_left _ hdir, hy⟩)
        · exact Or.inl hy
    | copy source mode hf => exact ⟨fun y hy => Or.inl hy, htarget, by simp, by simp⟩
    | stage hdelay hf =>
        exact ⟨fun y hy => Or.inr (Or.inl ⟨hdelay, hy⟩), hapart hdelay, by simp, by simp⟩
    | append offset happend hf => exact ⟨fun y hy => Or.inl hy, htarget, by simp, by simp⟩
    | symlink linkTarget hsym => exact absurd (hsym.symm.trans hfile) (by simp)
    | mtime => exact ⟨fun _ hy => hy.elim, id, by simp, by simp⟩
    | settle hdelay hf =>
        refine ⟨fun y hy => Or.inl hy, ?_, fun temp place y hchange hy => ?_, by simp⟩
        · exact fun hx => hx.elim (hapart hdelay) htarget
        · obtain ⟨rfl, -⟩ : delayedUpdatePath (singleFileRoot target) (singleFileRelative target)
            options = temp ∧ target = place := by simpa using hchange
          exact Or.inr (Or.inl ⟨hdelay, hy⟩)
    | unstage hdelay hf => exact ⟨fun _ hy => hy.elim, hapart hdelay, by simp, by simp⟩
  obtain ⟨hresolves, hhits, hmoves, hmakes⟩ := hparts
  have hclear : ∀ y, change.Resolves y → Clear w.fs.content y :=
    fun y hy => hw.clear y (hresolves y hy)
  refine ⟨fun y hy x b hx => ?_, (stays_run_of_clear hclear hhits).some hw.source,
    measured_run hw.measured change⟩
  refine not_symlink_run hclear (fun temp place z b' hchange hz hsym => ?_)
    (fun path link hchange => absurd hchange (hmakes path link))
    (fun b' hsym => hw.clear y hy x b' hx hsym) b
  exact hw.clear z (hmoves temp place z hchange hz) z b' (List.prefix_refl z) hsym

/-- A single file that is staged goes to its place. -/
theorem ensures_settleSingle {transfer : DelayedTransfer} {tkey : Key} {w : World}
    (hbackup : options.backup = false) (htarget : transfer.target.names = some key)
    (htemp : transfer.temp.names = some tkey) (hclear : Clear w.fs.content key)
    (hstaged : w.fs.content tkey = some (.file, bytes)) (destRoot : PathBuf) :
    (finishDelayedUpdates destRoot options [transfer]).Ensures syncHandler (fun _ => True)
      (fun _ t => t.fs.content key = some (.file, bytes)) w := by
  have hmade : (backupReceiverFile destRoot transfer.target transfer.relative options).Ensures
      syncHandler (fun _ => True) (fun _ t => t = w) w := by
    unfold backupReceiverFile
    simp only [hbackup, Bool.false_eq_true, if_false]
    exact ⟨trivial, rfl⟩
  simp only [finishDelayedUpdates]
  refine ensures_seq hmade fun _ t ht => ?_
  subst ht
  refine ensures_act trivial trivial fun hrun => ?_
  have hkey : (FsAct.run t.fs (.renameFile transfer.temp transfer.target)).2.content key =
      some (.file, bytes) := by
    obtain ⟨fs₁, hstays, -, ⟨err, herr⟩ | ⟨c, fs', hc, hok, hcontent⟩⟩ :=
      renameFile_of_clear htemp htarget hclear
    · rw [FsAct.run, herr] at hrun
      cases hrun
    · rw [(hstays tkey).some hstaged] at hc
      cases hc
      rw [FsAct.run, hok, hcontent, Function.update_self]
  refine ensures_seq ((ensures_preserveTransferredMtime
    (mtime_kept (P := fun c => c key = some (.file, bytes))) hkey).mono_always
    fun _ _ => trivial) fun _ u hu => ⟨trivial, hu⟩

/-- A single file for which no way is left to be made is brought by its transfer. -/
theorem ensures_transferSingle {u : World} {destRoot relative : PathBuf} {O : Key → Prop}
    (hplacing : Placing destRoot target relative ⟨source, metadata⟩ options (fun _ => False) key O
      (SingleFrame target options sk bytes))
    (hfile : metadata.fileType = .file) (hbackup : options.backup = false)
    (hs : source.names = some sk) (hlen : bytes.length = metadata.len)
    (hbasis : BasisHonest destRoot relative ⟨source, metadata⟩ options key bytes u.fs)
    (hroom : Room u.fs.content key) (hu : SingleFrame target options sk bytes u) :
    (transferFile destRoot target relative ⟨source, metadata⟩ options {} >>= fun state =>
      finishDelayedUpdates destRoot options state.delayedTransfers).Ensures syncHandler
        (fun _ => True) (fun _ t => t.fs.content key = some (.file, bytes)) u := by
  have hfaithful : Faithful destRoot target relative ⟨source, metadata⟩ options key
      (SingleFrame target options sk bytes) {} bytes u := by
    refine ⟨hfile, fun t ht => readFile_of_content hs ht.source, hlen, fun t ht => ht.measured,
      fun t id existing ekey b _ _ _ hlinked => by simp [TransferState.hardlinkTarget] at hlinked,
      fun v hv => ?_, by simp [hbackup]⟩
    -- there is no earlier target to link to
    have hnone : transferHardLink destRoot target relative ⟨source, metadata⟩ options {} =
        pure false := by
      unfold transferHardLink
      cases metadata.hardlinkId <;> cases options.preserveHardLinks <;> rfl
    rw [hnone] at hv
    cases hv
    exact hbasis
  refine ensures_seq ((hplacing.ensures_transferFile hfaithful (remembered_empty _) hroom
    hu).mono_always fun _ _ => trivial) fun state t ht => ?_
  obtain ⟨hframe, ⟨hkey, hstate⟩ | ⟨hdelay, rfl, tkey, htkey, hstaged⟩⟩ := ht
  · have hnone : state.delayedTransfers = [] := by
      rcases hstate with rfl | rfl
      · rfl
      · unfold rememberHardlinkTarget
        split
        · rfl
        · split <;> rfl
    rw [hnone]
    exact ⟨trivial, hkey⟩
  · exact ensures_settleSingle hbackup hplacing.names htkey
      (hplacing.clear t hframe key hplacing.here) hstaged destRoot

/-- A single file that needs no update is left out, or has been found at its target. -/
theorem single_idle {u : World} (hmode : options.updateMode = .checksum)
    (hs : source.names = some sk) (hk : target.names = some key)
    (hsource : fs.content sk = some (.file, bytes))
    (hnewer : NewerEqual fs fs ⟨source, metadata⟩ target options)
    (hway : (removeConflictingTarget (singleFileRoot target) target (singleFileRelative target)
      .file options).run syncHandler ⟨fs, []⟩ = .ret true u)
    (hclear : u.fs.content key = none ∨
      (u = ⟨fs, []⟩ ∧ ∀ a, fs.content key = some a → a.1 = .file))
    (hstay : u.fs.content sk = some (.file, bytes))
    (hidle : fileNeedsUpdate u.fs ⟨source, metadata⟩ target options = .ok false) :
    LeftOut fs ⟨source, metadata⟩ target options ∨ u.fs.content key = some (.file, bytes) := by
  rcases checksum_idle hmode hk hidle with hmax | hmin | ⟨hexisting, hnone⟩ |
    ⟨found, old, hfound, htype, hc, hwhy⟩
  · exact Or.inl (Or.inl hmax)
  · exact Or.inl (Or.inr (Or.inl hmin))
  · refine Or.inl (Or.inr (Or.inr (Or.inr ⟨hexisting, ?_⟩)))
    rintro old ⟨key', hkey', hc⟩
    obtain rfl : key = key' := Option.some.inj (hk.symm.trans hkey')
    have hrun := @run_removeConflictingTarget_file (singleFileRoot target) target
      (singleFileRelative target) key options ⟨fs, []⟩ _ hk hc
    rw [hrun] at hway
    cases hway
    rw [hnone] at hc
    cases hc
  · obtain rfl : u = ⟨fs, []⟩ := by
      rcases hclear with hnone | ⟨rfl, -⟩
      · rw [hnone] at hc
        cases hc
      · rfl
    rcases hwhy with hignore | ⟨hskip, hlater⟩ | hread
    · exact Or.inl (Or.inr (Or.inr (Or.inl ⟨hignore, old, key, hk, hc⟩)))
    · obtain ⟨skey, hskey, hcs⟩ := hnewer hskip found old hfound hlater ⟨key, hk, hc⟩
      obtain rfl : sk = skey := Option.some.inj (hs.symm.trans hskey)
      exact Or.inr (hc.trans (hcs.symm.trans hsource))
    · cases (readFile_of_content hs hstay).symm.trans hread
      exact Or.inr hc

/-- How the turn of a single file ends: a directory in its place was kept, it was found to
need no update, or it has been brought. -/
inductive SingleEnd (fs : MemoryFileSystem) (source : PathBuf) (metadata : PortableMetadata)
    (options : SyncOptions) (target : PathBuf) (key : Key) (bytes : Bytes) : World → Prop
  | kept {t : World} (hway : (removeConflictingTarget (singleFileRoot target) target
        (singleFileRelative target) .file options).run syncHandler ⟨fs, []⟩ = .ret false t)
      (hreport : .protectDelete target ∈ t.report) :
      SingleEnd fs source metadata options target key bytes t
  | idle {u t : World} (hway : (removeConflictingTarget (singleFileRoot target) target
        (singleFileRelative target) .file options).run syncHandler ⟨fs, []⟩ = .ret true u)
      (hclear : u.fs.content key = none ∨ (u = ⟨fs, []⟩ ∧ Room fs.content key))
      (hstay : Holds u.fs source bytes)
      (hidle : fileNeedsUpdate u.fs ⟨source, metadata⟩ target options = .ok false)
      (hsame : t.fs.content key = u.fs.content key) :
      SingleEnd fs source metadata options target key bytes t
  | brought {u t : World} (hway : (removeConflictingTarget (singleFileRoot target) target
        (singleFileRelative target) .file options).run syncHandler ⟨fs, []⟩ = .ret true u)
      (hneeded : fileNeedsUpdate u.fs ⟨source, metadata⟩ target options = .ok true)
      (hkey : t.fs.content key = some (.file, bytes)) :
      SingleEnd fs source metadata options target key bytes t

/-- What follows the checks of a single file, whose transfer brings it. -/
theorem ensures_singleTurn (hdry : options.dryRun = false) (hk : target.names = some key)
    (hsym : ∀ b, fs.content key ≠ some (.symlink, b))
    (hstay : ∀ u, (removeConflictingTarget (singleFileRoot target) target
        (singleFileRelative target) .file options).run syncHandler ⟨fs, []⟩ = .ret true u →
      Holds u.fs source bytes)
    (htransfer : ∀ u, (removeConflictingTarget (singleFileRoot target) target
        (singleFileRelative target) .file options).run syncHandler ⟨fs, []⟩ = .ret true u →
      fileNeedsUpdate u.fs ⟨source, metadata⟩ target options = .ok true → Room u.fs.content key →
      (transferFile (singleFileRoot target) target (singleFileRelative target) ⟨source, metadata⟩
        options {} >>= fun state =>
      finishDelayedUpdates (singleFileRoot target) options state.delayedTransfers).Ensures
        syncHandler (fun _ => True) (fun _ t => t.fs.content key = some (.file, bytes)) u) :
    (removeConflictingTarget (singleFileRoot target) target (singleFileRelative target) .file
        options >>= fun cleared =>
      if cleared then look >>= fun fs' =>
        Prog.ofExcept (fileNeedsUpdate fs' ⟨source, metadata⟩ target options) >>= fun needed =>
        if needed then
          transferFile (singleFileRoot target) target (singleFileRelative target)
            ⟨source, metadata⟩ options {} >>= fun state =>
          finishDelayedUpdates (singleFileRoot target) options state.delayedTransfers
        else preserveExistingFileMtime target ⟨source, metadata⟩ options
      else pure ()).Ensures syncHandler (fun _ => True)
      (fun _ w => SingleEnd fs source metadata options target key bytes w) ⟨fs, []⟩ := by
  have hway := (ensures_removeConflictingTarget_way (w := ⟨fs, []⟩) hdry (fun _ => hsym) hk .file
    (singleFileRoot target) (singleFileRelative target)).with_run
  refine ensures_seq hway fun cleared u hu => ?_
  obtain ⟨⟨htrue, hfalse⟩, hrun⟩ := hu
  cases cleared with
  | false => exact ⟨trivial, .kept hrun (hfalse rfl).2.2.1⟩
  | true =>
      simp only [if_true]
      refine ensures_look trivial ?_
      cases hneeds : fileNeedsUpdate u.fs ⟨source, metadata⟩ target options with
      | error err => exact trivial
      | ok needed =>
          simp only [Prog.ofExcept_ok, Prog.ret_bind]
          cases needed with
          | true =>
              have hroom : Room u.fs.content key := by
                rcases htrue rfl with hnone | ⟨rfl, hroom⟩
                · intro a ha
                  rw [hnone] at ha
                  cases ha
                · exact hroom
              exact (htransfer u hrun hneeds hroom).mono fun _ t ht => .brought hrun hneeds ht
          | false =>
              refine ((ensures_preserveExistingFileMtime
                (mtime_kept (P := fun c => c key = u.fs.content key)) rfl).mono_always
                fun _ _ => trivial).mono fun _ t ht => ?_
              exact .idle hrun (htrue rfl) (hstay u hrun) hneeds ht

/-- The sync of a single file that returns has come to the end of its turn. -/
theorem ensures_syncSingleFile_ends (hdry : options.dryRun = false) (hd : dest.names = some dk)
    (hsym : ∀ target key, singleFileTarget fs source dest = .ok target →
      target.names = some key → ∀ b, fs.content key ≠ some (.symlink, b))
    (hstay : ∀ target key u, singleFileTarget fs source dest = .ok target →
      target.names = some key → dk <+: key → (removeConflictingTarget (singleFileRoot target) target
        (singleFileRelative target) .file options).run syncHandler ⟨fs, []⟩ = .ret true u →
      Holds u.fs source bytes)
    (htransfer : ∀ target key u, singleFileTarget fs source dest = .ok target →
      target.names = some key → dk <+: key → (removeConflictingTarget (singleFileRoot target) target
        (singleFileRelative target) .file options).run syncHandler ⟨fs, []⟩ = .ret true u →
      fileNeedsUpdate u.fs ⟨source, metadata⟩ target options = .ok true → Room u.fs.content key →
      (transferFile (singleFileRoot target) target (singleFileRelative target) ⟨source, metadata⟩
        options {} >>= fun state =>
      finishDelayedUpdates (singleFileRoot target) options state.delayedTransfers).Ensures
        syncHandler (fun _ => True) (fun _ t => t.fs.content key = some (.file, bytes)) u) :
    (syncSingleFile source metadata dest options).Ensures syncHandler (fun _ => True)
      (fun _ w => ∀ target key, singleFileTarget fs source dest = .ok target →
        target.names = some key → SingleEnd fs source metadata options target key bytes w)
      ⟨fs, []⟩ := by
  unfold syncSingleFile
  refine ensures_look trivial ?_
  cases htarget : singleFileTarget fs source dest with
  | error e => exact trivial
  | ok target =>
      obtain ⟨key, hk, hpre⟩ := names_singleFileTarget hd htarget
      simp only [Prog.ofExcept_ok, Prog.ret_bind]
      cases ensureMissingDestinationParentAllowed fs target options.mkpath with
      | error e => exact trivial
      | ok _ =>
          cases preflight options [destinationPreflightPath target] with
          | error e => exact trivial
          | ok _ =>
              simp only [Prog.ofExcept_ok, Prog.ret_bind]
              refine (ensures_singleTurn hdry hk (hsym target key htarget hk)
                (fun u => hstay target key u htarget hk hpre)
                fun u => htransfer target key u htarget hk hpre).mono
                fun _ w hw target' key' htarget' hk' => ?_
              cases htarget'
              cases hk.symm.trans hk'
              exact hw

/-- The single file is brought, unless limits leave it out or a directory in its place stays. -/
theorem ensures_syncSingleFile_exact (hfile : metadata.fileType = .file)
    (hmode : options.updateMode = .checksum) (hdry : options.dryRun = false)
    (hbackup : options.backup = false) (hs : source.names = some sk) (hd : dest.names = some dk)
    (hds : ¬ dk <+: sk) (hmeta : fs.metadata source = .ok metadata)
    (hexact : ∀ target, singleFileTarget fs source dest = .ok target →
      ExactSingle fs source metadata options target) :
    (syncSingleFile source metadata dest options).Ensures syncHandler (fun _ => True)
      (fun _ w => ∀ target, singleFileTarget fs source dest = .ok target →
        LeftOut fs ⟨source, metadata⟩ target options ∨ .protectDelete target ∈ w.report ∨
          Delivered fs ⟨source, metadata⟩ target w) ⟨fs, []⟩ := by
  obtain ⟨key', node, hkey', hnode, rfl⟩ := metadata_eq_ok hmeta
  obtain rfl : sk = key' := Option.some.inj (hs.symm.trans hkey')
  have hsource : fs.content sk = some (.file, node.bytes) := by
    rw [content_of_get hnode, MemoryNode.content, hfile]
  -- the frame of a turn whose parts are honest
  have hkept : ∀ {target key}, singleFileTarget fs source dest = .ok target →
      target.names = some key → dk <+: key → Kept options.dryRun (EntryAct (singleFileRoot target)
        target (singleFileRelative target) ⟨source, node.metadata⟩ options fun _ => False)
        (SingleFrame target options sk node.bytes) := fun htarget hk hpre =>
    singleFrame_kept hfile hbackup hs hk (fun h => hds (hpre.trans h)) (hexact _ htarget).apart
  have hframe : ∀ {target key u}, singleFileTarget fs source dest = .ok target →
      target.names = some key → dk <+: key → (removeConflictingTarget (singleFileRoot target) target
        (singleFileRelative target) .file options).run syncHandler ⟨fs, []⟩ = .ret true u →
      SingleFrame target options sk node.bytes u := fun htarget hk hpre hway =>
    (ensures_removeConflictingTarget (hkept htarget hk hpre) hfile.symm (by simp)
      ⟨(hexact _ htarget).clear, hsource, (hexact _ htarget).measured⟩).returns hway
  refine (@ensures_syncSingleFile_ends _ _ _ _ _ _ node.bytes hdry hd ?_ ?_ ?_).mono
    fun _ w hw target htarget => ?_
  · intro target key htarget hk b hb
    exact (hexact target htarget).clear key (Or.inl hk) key b (List.prefix_refl key) hb
  · intro target key u htarget hk hpre hway
    exact ⟨sk, hs, (hframe htarget hk hpre hway).source⟩
  · intro target key u htarget hk hpre hway hneeds hroom
    have hex := hexact target htarget
    have hplacing : Placing (singleFileRoot target) target (singleFileRelative target)
        ⟨source, node.metadata⟩ options (fun _ => False) key (SinglePath target options)
        (SingleFrame target options sk node.bytes) :=
      { dryRun := hdry, names := hk, kept := hkept htarget hk hpre, clear := fun t ht => ht.clear
        here := Or.inl hk
        backup := by simp [hbackup]
        staging := fun hdelay y hy => Or.inr (Or.inl ⟨hdelay, hy⟩)
        linked := fun _ h => h.elim
        basis := fun dir hdir y hy => Or.inr (Or.inr ⟨dir, hdir, hy⟩) }
    exact ensures_transferSingle hplacing hfile hbackup hs (hex.measured sk node hnode hfile).symm
      (hex.basis u key node.bytes hway hneeds hk ⟨sk, hs, hsource⟩) hroom (hframe htarget hk hpre hway)
  · have hex := hexact target htarget
    obtain ⟨key, hk, -⟩ := names_singleFileTarget hd htarget
    have hdelivered : w.fs.content key = some (.file, node.bytes) →
        Delivered fs ⟨source, node.metadata⟩ target w :=
      fun hkey => ⟨node.bytes, ⟨sk, hs, hsource⟩, key, hk, hkey⟩
    cases hw target key htarget hk with
    | kept hway hreport => exact Or.inr (Or.inl hreport)
    | idle hway hclear hstay hidle hsame =>
        obtain ⟨sk', hs', hstay⟩ := hstay
        obtain rfl : sk = sk' := Option.some.inj (hs.symm.trans hs')
        exact (single_idle hmode hs hk hsource hex.newer hway hclear hstay hidle).imp_right
          fun h => Or.inr (hdelivered (hsame.trans h))
    | brought hway hneeded hkey => exact Or.inr (Or.inr (hdelivered hkey))

end Single

/-! ## A whole sync -/

/-- The source files of a sync and their targets. -/
inductive SourceFile (stack : Nat) (fs : MemoryFileSystem) (source dest : PathBuf)
    (options : SyncOptions) : WalkEntry → PathBuf → Prop
  | entry {metadata : PortableMetadata} {run : SyncRun} {r : Key} {e : WalkEntry}
      (hroots : checkRoots fs source dest = .ok metadata) (htype : metadata.fileType ≠ .file)
      (hprepare : prepare stack fs source dest options = .ok run)
      (he : run.sourceEntries[r]? = some e) (hfile : e.metadata.fileType = .file) :
      SourceFile stack fs source dest options e (dest.join r.path)
  | single {metadata : PortableMetadata} {target : PathBuf}
      (hroots : checkRoots fs source dest = .ok metadata) (htype : metadata.fileType = .file)
      (htarget : singleFileTarget fs source dest = .ok target) :
      SourceFile stack fs source dest options ⟨source, metadata⟩ target

/-- A sync in which whatever stands in for a transfer has the bytes of the source. -/
structure ExactSync (stack : Nat) (fs : MemoryFileSystem) (source dest : PathBuf)
    (options : SyncOptions) (sk dk : Key) : Prop where
  run : ∀ run, prepare stack fs source dest options = .ok run → run.Exact fs sk dk
  single : ∀ metadata target, fs.metadata source = .ok metadata → metadata.fileType = .file →
    singleFileTarget fs source dest = .ok target → ExactSingle fs source metadata options target

end RsyncWin.Fs
