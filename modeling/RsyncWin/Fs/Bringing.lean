import RsyncWin.Fs.Staging
import RsyncWin.Fs.Turn

/-!
# What a run has brought

A run that follows no symlink writes where its paths say. Entry by entry its loop
brings each source file to its target or stages it, unless the file is excused, and
what it remembers to link to has the bytes of its own source. The paths it writes
beside its targets must not be targets themselves.
-/

namespace RsyncWin.Fs

open ByteString MemoryFileSystem

namespace SyncRun

variable {run : SyncRun} {fs : MemoryFileSystem} {sk dk : Key}

/-! ## Runs that follow no symlink -/

/-- The paths beside its targets that a run writes to or links from. -/
inductive Side (run : SyncRun) : PathBuf → Prop
  | staging {q : Key} {e : WalkEntry} (hdelay : run.options.delayUpdates = true)
      (he : run.sourceEntries[q]? = some e) (hfile : e.metadata.fileType = .file) :
      Side run (delayedUpdatePath run.dest q.path run.options)
  | backup {q : Key} {e : WalkEntry} (hbackup : run.options.backup = true)
      (he : run.sourceEntries[q]? = some e) :
      Side run (backupPathFor run.dest (run.dest.join q.path) q.path run.options)
  | deletion {x : Key} {e : WalkEntry} (hbackup : run.options.backup = true)
      (he : run.destEntries[x]? = some e) :
      Side run (backupPathFor run.dest e.path x.path run.options)
  | basis {q : Key} {e : WalkEntry} {dir : PathBuf} (he : run.sourceEntries[q]? = some e)
      (hfile : e.metadata.fileType = .file)
      (hdir : dir ∈ run.options.linkDest ++ run.options.copyDest) :
      Side run (basisFilePath run.dest dir q.path)

/-- The paths at or below the destination that no symlink of the source goes to or above. -/
def Open (run : SyncRun) (dk x : Key) : Prop :=
  dk <+: x ∧ ∀ (q : Key) e, run.sourceEntries[q]? = some e → e.metadata.fileType = .symlink →
    ¬ dk ++ q <+: x

/-- A run for which no symlink is followed: its source entries are the nodes under
their names, and none is or will be on the way to a path that it writes. -/
structure Unfollowed (run : SyncRun) (fs : MemoryFileSystem) (sk dk : Key) : Prop where
  dryRun : run.options.dryRun = false
  dest : run.dest.names = some dk
  apart : ¬ sk <+: dk
  apart' : ¬ dk <+: sk
  source : TreeEntries fs sk run.sourceEntries
  destination : ∀ (x : Key) e, run.destEntries[x]? = some e → x ≠ [] ∧ e.path = Key.path (dk ++ x)
  clear : ∀ y, dk <+: y → Clear fs.content y
  sides : ∀ path, run.Side path → Inside (run.Open dk) path
  measured : Measured fs

/-- What such a run keeps: no symlink is on the way to an open path, and off the
destination everything stays. -/
structure Framing (run : SyncRun) (fs : MemoryFileSystem) (dk : Key) (w : World) : Prop where
  clear : ∀ y, run.Open dk y → Clear w.fs.content y
  away : ∀ x, ¬ dk <+: x → Stays fs.content w.fs.content x
  measured : Measured w.fs

section Unfollowed

variable {q r : Key} {e e' : WalkEntry} {w : World} {change : FsAct}

theorem Unfollowed.names (h : run.Unfollowed fs sk dk) (q : Key) :
    (run.dest.join q.path).names = some (dk ++ q) :=
  names_join_key h.dest q

theorem Unfollowed.framing (h : run.Unfollowed fs sk dk) (report : List SyncAction) :
    run.Framing fs dk ⟨fs, report⟩ :=
  ⟨fun y hy => h.clear y hy.1, fun x _ => .refl _ x, h.measured⟩

/-- An entry that is above another is a directory. -/
theorem Unfollowed.eq_of_prefix (h : run.Unfollowed fs sk dk) (he : run.sourceEntries[q]? = some e)
    (he' : run.sourceEntries[r]? = some e') (hne : e'.metadata.fileType ≠ .directory)
    (hpre : r <+: q) : r = q := by
  by_contra hrq
  obtain ⟨e'', he'', hdir⟩ := h.source.above_of_prefix (h.source.ne_nil r e' he') hpre hrq he
  obtain rfl : e' = e'' := Option.some.inj (he'.symm.trans he'')
  exact hne hdir

theorem Unfollowed.open_target (h : run.Unfollowed fs sk dk) (he : run.sourceEntries[q]? = some e)
    (hsym : e.metadata.fileType ≠ .symlink) : run.Open dk (dk ++ q) := by
  refine ⟨List.prefix_append dk q, fun r e' he' hsym' hpre => ?_⟩
  rw [List.prefix_append_right_inj] at hpre
  obtain rfl := h.eq_of_prefix he he' (by simp [hsym']) hpre
  obtain rfl : e' = e := Option.some.inj (he'.symm.trans he)
  exact hsym hsym'

theorem Unfollowed.open_parent (h : run.Unfollowed fs sk dk) (he : run.sourceEntries[q]? = some e) :
    run.Open dk (dk ++ q).dropLast := by
  have hq := h.source.ne_nil q e he
  rw [List.dropLast_append_of_ne_nil hq]
  refine ⟨List.prefix_append dk _, fun r e' he' hsym' hpre => ?_⟩
  rw [List.prefix_append_right_inj] at hpre
  obtain rfl := h.eq_of_prefix he he' (by simp [hsym']) (hpre.trans (List.dropLast_prefix q))
  have hlength := hpre.length_le
  rw [List.length_dropLast] at hlength
  have := List.length_pos_of_ne_nil hq
  omega

/-- The bytes of a source file, which the run leaves alone. -/
theorem Unfollowed.read (h : run.Unfollowed fs sk dk) (hw : run.Framing fs dk w)
    (he : run.sourceEntries[q]? = some e) {bytes : Bytes}
    (hc : fs.content (sk ++ q) = some (.file, bytes)) : w.fs.readFile e.path = .ok bytes := by
  rw [h.source.path_eq he]
  refine readFile_of_content (names_key _) ((hw.away _ fun hpre => ?_).some hc)
  rcases List.prefix_or_prefix_of_prefix hpre (List.prefix_append sk q) with hds | hsd
  · exact h.apart' hds
  · exact h.apart hsd

theorem Unfollowed.sourceBytes (h : run.Unfollowed fs sk dk) (he : run.sourceEntries[q]? = some e)
    (hfile : e.metadata.fileType = .file) :
    ∃ bytes, fs.content (sk ++ q) = some (.file, bytes) ∧ bytes.length = e.metadata.len := by
  obtain ⟨node, hnode, rfl⟩ := h.source.node q e he
  refine ⟨node.bytes, ?_, (h.measured _ node hnode hfile).symm⟩
  rw [content_of_get hnode, MemoryNode.content]
  exact congrArg (fun type => some (type, node.bytes)) hfile

/-- A change that resolves open paths only and hits nothing off the destination. -/
structure Tame (run : SyncRun) (dk : Key) (change : FsAct) : Prop where
  resolves : ∀ y, change.Resolves y → run.Open dk y
  hits : ∀ x, change.Hits x → dk <+: x
  moves : ∀ source dest y, change = .renameFile source dest → source.names = some y → run.Open dk y
  makes : ∀ path target x, change = .createSymlink path target → path.names = some x →
    ∀ y, run.Open dk y → ¬ x <+: y

theorem Framing.act (h : run.Framing fs dk w) (htame : run.Tame dk change) :
    run.Framing fs dk { w with fs := (change.run w.fs).2 } := by
  have hclear : ∀ y, change.Resolves y → Clear w.fs.content y :=
    fun y hy => h.clear y (htame.resolves y hy)
  refine ⟨fun y hy x b hx => ?_, fun x hx => ?_, measured_run h.measured change⟩
  · refine not_symlink_run hclear (fun source dest z b' hchange hz => ?_)
      (fun path target hchange hpath => htame.makes path target x hchange hpath y hy hx)
      (fun b' hsym => h.clear y hy x b' hx hsym) b
    exact fun hsym => h.clear z (htame.moves source dest z hchange hz) z b' (List.prefix_refl z) hsym
  · exact Stays.trans (h.away x hx) (stays_run_of_clear hclear fun hhit => hx (htame.hits x hhit))

theorem Unfollowed.entryAct_tame (h : run.Unfollowed fs sk dk)
    (he : run.sourceEntries[q]? = some e) {fs' : MemoryFileSystem}
    (hact : run.entryAct q e fs' change) : run.Tame dk change := by
  have hbelow : Below dk run.dest := below_of_names h.dest (List.prefix_refl dk)
  have hhits : ∀ x, change.Hits x → dk <+: x :=
    fun x hx => entryAct_hits_below (h.source.ne_nil q e he) hbelow hact hx
  have htarget : ∀ y, (run.dest.join q.path).names = some y → y = dk ++ q :=
    fun y hy => Option.some.inj (hy.symm.trans (h.names q))
  have hopen : e.metadata.fileType = .file → Inside (run.Open dk) (run.dest.join q.path) := by
    intro hfile y hy
    rw [htarget y hy]
    exact h.open_target he (by simp [hfile])
  cases hact with
  | makeDir hdir =>
      refine ⟨fun y hy => ?_, hhits, by simp, by simp⟩
      rw [htarget y hy]
      exact h.open_target he (by simp [hdir])
  | clearDir => exact ⟨fun _ hy => hy.elim, hhits, by simp, by simp⟩
  | clearFile => exact ⟨fun _ hy => hy.elim, hhits, by simp, by simp⟩
  | backup hbackup =>
      exact ⟨h.sides _ (.backup hbackup he), hhits, by simp, by simp⟩
  | link existing hfile hlink =>
      refine ⟨fun y hy => ?_, hhits, by simp, by simp⟩
      rcases hy with hy | hy
      · rcases hlink with ⟨-, r, e', he', hfile', rfl⟩ | ⟨dir, hdir, rfl⟩
        · obtain rfl : y = dk ++ r := Option.some.inj (hy.symm.trans (h.names r))
          exact h.open_target he' (by simp [hfile'])
        · exact h.sides _ (.basis he hfile (List.mem_append_left _ hdir)) y hy
      · exact hopen hfile y hy
  | copy source mode hfile => exact ⟨hopen hfile, hhits, by simp, by simp⟩
  | stage hdelay hfile => exact ⟨h.sides _ (.staging hdelay he hfile), hhits, by simp, by simp⟩
  | append offset happend hfile => exact ⟨hopen hfile, hhits, by simp, by simp⟩
  | symlink linkTarget hsym =>
      refine ⟨?_, hhits, by simp, ?_⟩
      · rintro y ⟨key, hkey, rfl⟩
        rw [htarget key hkey]
        exact h.open_parent he
      · intro path target x hchange hx y hy hpre
        obtain ⟨rfl, -⟩ : run.dest.join q.path = path ∧ linkTarget = target := by simpa using hchange
        rw [htarget x hx] at hpre
        exact hy.2 q e he hsym hpre
  | mtime => exact ⟨fun _ hy => hy.elim, hhits, by simp, by simp⟩
  | settle hdelay hfile =>
      refine ⟨hopen hfile, hhits, fun source dest y hchange hy => ?_, by simp⟩
      obtain ⟨rfl, -⟩ : delayedUpdatePath run.dest q.path run.options = source ∧
        run.dest.join q.path = dest := by simpa using hchange
      exact h.sides _ (.staging hdelay he hfile) y hy
  | unstage => exact ⟨fun _ hy => hy.elim, hhits, by simp, by simp⟩

theorem Unfollowed.deleteAct_tame (h : run.Unfollowed fs sk dk)
    (he : run.destEntries[q]? = some e) {fs' : MemoryFileSystem}
    (hact : DeleteAct run.dest q e run.options fs' change) : run.Tame dk change := by
  obtain ⟨hq, hpath⟩ := h.destination q e he
  have hbelow : Below dk run.dest := below_of_names h.dest (List.prefix_refl dk)
  have hhits : ∀ x, change.Hits x → dk <+: x := fun x hx => hact.hits_below hq hpath hbelow hx
  cases hact with
  | backup hbackup => exact ⟨h.sides _ (.deletion hbackup he), hhits, by simp, by simp⟩
  | file => exact ⟨fun _ hy => hy.elim, hhits, by simp, by simp⟩
  | dir => exact ⟨fun _ hy => hy.elim, hhits, by simp, by simp⟩

end Unfollowed

/-! ## The turn of a file -/

/-- Making way for a file at its target. -/
abbrev makeWay (run : SyncRun) (q : Key) : SyncProg Bool :=
  removeConflictingTarget run.dest (run.dest.join q.path) q.path .file run.options

/-- How the turn of a file ends that began in `w`: a directory in its place was kept,
the file was found to need no update, or it has been transferred. -/
inductive FileEnd (run : SyncRun) (q : Key) (e : WalkEntry) (key : Key) (bytes : Bytes)
    (state : TransferState) (w : World) : TransferState → World → Prop
  | kept {t : World} (hway : (run.makeWay q).run syncHandler w = .ret false t)
      (hreport : .protectDelete (run.dest.join q.path) ∈ t.report) :
      FileEnd run q e key bytes state w state t
  | idle {u t : World} (hway : (run.makeWay q).run syncHandler w = .ret true u)
      (hclear : u.fs.content key = none ∨ (u = w ∧ Room w.fs.content key))
      (hidle : fileNeedsUpdate u.fs e (run.dest.join q.path) run.options = .ok false)
      (hsame : t.fs.content key = u.fs.content key) :
      FileEnd run q e key bytes state w
        (rememberHardlinkTarget e (run.dest.join q.path) run.options.preserveHardLinks state) t
  | transferred {u t : World} {state' : TransferState}
      (hway : (run.makeWay q).run syncHandler w = .ret true u)
      (hneeded : fileNeedsUpdate u.fs e (run.dest.join q.path) run.options = .ok true)
      (h : Transferred run.dest (run.dest.join q.path) q.path e run.options key bytes state
        state' t) : FileEnd run q e key bytes state w state' t

theorem ensures_syncFile_ends {q key : Key} {e : WalkEntry} {O : Key → Prop} {I : World → Prop}
    {state : TransferState} {bytes : Bytes} {w : World}
    (h : Placing run.dest (run.dest.join q.path) q.path e run.options run.Linked key O I)
    (hfile : e.metadata.fileType = .file) (hstate : Remembered run.Linked state)
    (hfaithful : ∀ u, I u → (run.makeWay q).run syncHandler w = .ret true u →
      fileNeedsUpdate u.fs e (run.dest.join q.path) run.options = .ok true →
      Faithful run.dest (run.dest.join q.path) q.path e run.options key I state bytes u)
    (hw : I w) :
    (run.syncFile q e state).Ensures syncHandler (fun _ => True)
      (fun state' t => I t ∧ run.FileEnd q e key bytes state w state' t) w := by
  have hsym : ∀ b, w.fs.content key ≠ some (.symlink, b) := fun b hb =>
    h.clear w hw key h.here key b (List.prefix_refl key) hb
  have hway := (ensures_removeConflictingTarget_way h.dryRun (fun _ => hsym) h.names .file
    run.dest q.path).and ((ensures_removeConflictingTarget h.kept hfile.symm (by simp) hw).with_run)
  unfold syncFile
  simp only
  refine ensures_seq (hway.mono_always fun _ _ => trivial) fun cleared u hu => ?_
  obtain ⟨⟨htrue, hfalse⟩, hI, hrun⟩ := hu
  cases cleared with
  | false => exact ⟨trivial, hI, .kept hrun (hfalse rfl).2.2.1⟩
  | true =>
      simp only [if_true]
      refine ensures_look trivial ?_
      cases hneeds : fileNeedsUpdate u.fs e (run.dest.join q.path) run.options with
      | error err => exact trivial
      | ok needed =>
          cases needed with
          | true =>
              have hroom : Room u.fs.content key := by
                rcases htrue rfl with hnone | ⟨rfl, hroom⟩
                · intro a ha
                  rw [hnone] at ha
                  cases ha
                · exact hroom
              refine ensures_orCleanUp (fun _ _ => trivial) ?_
                fun err t (_ : I t) => ensures_afterFailure_true state err t
              refine (h.ensures_transferFile (hfaithful u hI hrun hneeds) hstate hroom hI).mono
                fun state' t ht => ?_
              exact ⟨ht.1, .transferred hrun hneeds ht.2⟩
          | false =>
              simp only [Prog.ofExcept_ok, Prog.ret_bind, Bool.false_eq_true, if_false]
              refine ensures_seq ((h.ensures_preserveExistingFileMtime
                (P := fun c => c key = u.fs.content key) hI rfl).mono_always fun _ _ => trivial)
                fun _ t ht => ?_
              exact ⟨trivial, ht.1, .idle hrun (htrue rfl) hneeds ht.2⟩

/-! ## What the loop answers for -/

/-- A source file is at its target. -/
def Right (fs : MemoryFileSystem) (sk dk r : Key) (w : World) : Prop :=
  ∃ bytes, fs.content (sk ++ r) = some (.file, bytes) ∧
    w.fs.content (dk ++ r) = some (.file, bytes)

/-- The content of a source file. -/
def SourceContent (fs : MemoryFileSystem) (sk r : Key) (content : Option Content) : Prop :=
  ∃ bytes, fs.content (sk ++ r) = some (.file, bytes) ∧ content = some (.file, bytes)

theorem sourceContent_dir (r : Key) (h : SourceContent fs sk r none) :
    SourceContent fs sk r (some dirContent) := by
  obtain ⟨_, -, hc⟩ := h
  cases hc

/-- A file at the target of a source file has the bytes of that file. -/
def Honest (fs : MemoryFileSystem) (sk dk r : Key) (w : World) : Prop :=
  ∀ bytes, w.fs.content (dk ++ r) = some (.file, bytes) →
    fs.content (sk ++ r) = some (.file, bytes)

/-- The paths beside the targets keep off the targets of the files `K`, as long as
these have to stay, and off the staged copies. -/
structure Apart (run : SyncRun) (dk : Key) (K : Key → WalkEntry → Prop) : Prop where
  staging : run.options.delayUpdates = true → ∀ (q r : Key) e e' y,
    run.sourceEntries[q]? = some e → e.metadata.fileType = .file →
    (delayedUpdatePath run.dest q.path run.options).names = some y →
    run.sourceEntries[r]? = some e' → dk ++ r <+: y →
    e'.metadata.fileType = .directory ∧ dk ++ r ≠ y
  backup : run.options.backup = true → ∀ (q r : Key) e e' done rest,
    run.sourceEntries.toList = done ++ (q, e) :: rest →
    run.sourceEntries[r]? = some e' → e'.metadata.fileType = .file → K r e' →
    ((r, e') ∈ done ∨ (run.options.delayUpdates = true ∧ r ≠ q)) →
    (backupPathFor run.dest (run.dest.join q.path) q.path run.options).names ≠ some (dk ++ r)
  backupStaging : run.options.backup = true → run.options.delayUpdates = true →
    ∀ (q r : Key) e e' y, run.sourceEntries[q]? = some e → run.sourceEntries[r]? = some e' →
    e'.metadata.fileType = .file → K r e' →
    (delayedUpdatePath run.dest r.path run.options).names = some y →
    (backupPathFor run.dest (run.dest.join q.path) q.path run.options).names ≠ some y
  backupBasis : run.options.backup = true → ∀ (q : Key) e, run.sourceEntries[q]? = some e →
    e.metadata.fileType = .file → K q e →
    ∀ dir ∈ run.options.linkDest ++ run.options.copyDest, ∀ y,
    (basisFilePath run.dest dir q.path).names = some y →
    (backupPathFor run.dest (run.dest.join q.path) q.path run.options).names ≠ some y
  deletion : run.options.backup = true → run.options.effectiveDeleteMode ∈ [.delay, .after] →
    ∀ (x r : Key) e e', run.destEntries[x]? = some e → run.sourceEntries[x]? = none →
    isProtected run.options x e.metadata.fileType = false →
    run.sourceEntries[r]? = some e' → e'.metadata.fileType = .file → K r e' →
    (backupPathFor run.dest e.path x.path run.options).names ≠ some (dk ++ r)

section Misses

variable {K : Key → WalkEntry → Prop} {q r : Key} {e e' : WalkEntry} {fs' : MemoryFileSystem}
  {change : FsAct}

theorem Unfollowed.key_eq (h : run.Unfollowed fs sk dk)
    (hx : (run.dest.join q.path).names = some (dk ++ r)) : q = r := by
  rw [h.names, Option.some.injEq, List.append_right_inj] at hx
  exact hx

theorem eq_of_delayedUpdatePath {root : PathBuf} {options : SyncOptions} {y : Key}
    (hq : (delayedUpdatePath root q.path options).names = some y)
    (hr : (delayedUpdatePath root r.path options).names = some y) : q = r := by
  unfold delayedUpdatePath at hq hr
  simp only [join_key] at hq hr
  obtain ⟨a, b, ha, hb, rfl⟩ := names_append_eq_some hq
  obtain ⟨a', b', ha', hb', heq⟩ := names_append_eq_some hr
  rw [names_key] at hb hb'
  cases hb
  cases hb'
  obtain rfl : a = a' := Option.some.inj (ha.symm.trans ha')
  exact List.append_cancel_left heq

/-- The turn of another entry leaves the target of a file alone. -/
theorem Unfollowed.entryAct_misses (h : run.Unfollowed fs sk dk) (hapart : run.Apart dk K)
    (he : run.sourceEntries[q]? = some e) (he' : run.sourceEntries[r]? = some e') (hne : r ≠ q)
    (hbackup : run.options.backup = true →
      (backupPathFor run.dest (run.dest.join q.path) q.path run.options).names ≠ some (dk ++ r))
    (hact : run.entryAct q e fs' change) : ¬ change.Hits (dk ++ r) := by
  have htarget : (run.dest.join q.path).names ≠ some (dk ++ r) :=
    fun hx => hne (h.key_eq hx).symm
  have hstaging : run.options.delayUpdates = true → e.metadata.fileType = .file →
      (delayedUpdatePath run.dest q.path run.options).names ≠ some (dk ++ r) := by
    intro hdelay hfile hx
    exact (hapart.staging hdelay q r e e' _ he hfile hx he' (List.prefix_refl _)).2 rfl
  cases hact with
  | makeDir hdir => exact id
  | clearDir hmeta hdir hentry hkeep =>
      rintro ⟨key, hkey, hpre⟩
      rw [h.names, Option.some.injEq] at hkey
      rw [← hkey, List.prefix_append_right_inj] at hpre
      refine hne (h.eq_of_prefix he' he ?_ hpre).symm
      rcases hentry with hentry | hentry <;> simp [hentry]
  | clearFile => exact htarget
  | backup hb => exact hbackup hb
  | link existing hfile hlink => exact htarget
  | copy source mode hfile => exact htarget
  | stage hdelay hfile => exact hstaging hdelay hfile
  | append offset happend hfile => exact htarget
  | symlink linkTarget hsym => exact htarget
  | mtime modified => exact id
  | settle hdelay hfile => exact fun hx => hx.elim (hstaging hdelay hfile) htarget
  | unstage hdelay hfile => exact hstaging hdelay hfile

/-- The turn of another entry leaves a staged file alone. -/
theorem Unfollowed.entryAct_misses_staged (h : run.Unfollowed fs sk dk) (hapart : run.Apart dk K)
    (hdelay : run.options.delayUpdates = true) (he : run.sourceEntries[q]? = some e)
    (he' : run.sourceEntries[r]? = some e') (hfile' : e'.metadata.fileType = .file) (hK : K r e')
    (hne : r ≠ q) {y : Key} (hy : (delayedUpdatePath run.dest r.path run.options).names = some y)
    (hact : run.entryAct q e fs' change) : ¬ change.Hits y := by
  have htarget : (run.dest.join q.path).names ≠ some y := by
    intro hx
    rw [h.names, Option.some.injEq] at hx
    exact (hapart.staging hdelay r q e' e y he' hfile' hy he (hx ▸ List.prefix_refl _)).2 hx
  have hstaging : (delayedUpdatePath run.dest q.path run.options).names ≠ some y :=
    fun hx => hne (eq_of_delayedUpdatePath hx hy).symm
  cases hact with
  | makeDir hdir => exact id
  | clearDir hmeta hdir hentry hkeep =>
      rintro ⟨key, hkey, hpre⟩
      rw [h.names, Option.some.injEq] at hkey
      have hdirectory := (hapart.staging hdelay r q e' e y he' hfile' hy he (hkey ▸ hpre)).1
      rcases hentry with hentry | hentry <;> simp [hentry] at hdirectory
  | clearFile => exact htarget
  | backup hb => exact hapart.backupStaging hb hdelay q r e e' y he he' hfile' hK hy
  | link existing hfile hlink => exact htarget
  | copy source mode hfile => exact htarget
  | stage hdelay hfile => exact hstaging
  | append offset happend hfile => exact htarget
  | symlink linkTarget hsym => exact htarget
  | mtime modified => exact id
  | settle hdelay hfile => exact fun hx => hx.elim hstaging htarget
  | unstage hdelay hfile => exact hstaging

/-- A deletion leaves the target of a source entry alone. -/
theorem Unfollowed.deleteAct_misses (h : run.Unfollowed fs sk dk)
    (he : run.destEntries[q]? = some e) (hnone : run.sourceEntries[q]? = none)
    (he' : run.sourceEntries[r]? = some e') (hbackup : run.options.backup = true →
      (backupPathFor run.dest e.path q.path run.options).names ≠ some (dk ++ r))
    (hact : DeleteAct run.dest q e run.options fs' change) : ¬ change.Hits (dk ++ r) := by
  obtain ⟨hq, hpath⟩ := h.destination q e he
  have hnot : ¬ q <+: r := by
    intro hpre
    by_cases hqr : q = r
    · rw [hqr, he'] at hnone
      cases hnone
    · obtain ⟨e'', he'', -⟩ := h.source.above_of_prefix hq hpre hqr he'
      rw [hnone] at he''
      cases he''
  cases hact with
  | backup hb => exact hbackup hb
  | file htype =>
      intro hx
      change e.path.names = some (dk ++ r) at hx
      rw [hpath, names_key, Option.some.injEq, List.append_right_inj] at hx
      exact hnot (hx ▸ List.prefix_refl q)
  | dir htype =>
      rintro ⟨key, hkey, hpre⟩
      rw [hpath, names_key, Option.some.injEq] at hkey
      rw [← hkey, List.prefix_append_right_inj] at hpre
      exact hnot hpre

end Misses

/-! ## How far the loop has come -/

/-- What a run is to answer for: the files that are tracked, unless the report excuses
them, and what is good at their targets. -/
structure Charge where
  tracked : Key → WalkEntry → Prop
  excused : Key → List SyncAction → Prop
  excused_push : ∀ r report action, excused r report → excused r (report ++ [action])
  good : Key → Option Content → Prop
  good_dir : ∀ r, good r none → good r (some dirContent)

def Charge.Good (charge : Charge) (dk r : Key) (w : World) : Prop :=
  charge.good r (w.fs.content (dk ++ r))

/-- At the staging path of a file there is what is good at its target. -/
def Charge.Staged (charge : Charge) (run : SyncRun) (r : Key) (w : World) : Prop :=
  ∃ key bytes, (delayedUpdatePath run.dest r.path run.options).names = some key ∧
    charge.good r (some (.file, bytes)) ∧ w.fs.content key = some (.file, bytes)

/-- Every tracked file of `done` is excused, at its target or staged, what is remembered
to link to is honest, and without backups the files not `seen` yet are as they were. -/
structure Progress (run : SyncRun) (fs : MemoryFileSystem) (sk dk : Key) (charge : Charge)
    (done seen : List (Key × WalkEntry)) (state : TransferState) (w : World) : Prop where
  framing : run.Framing fs dk w
  right : ∀ (r : Key) e, (r, e) ∈ done → e.metadata.fileType = .file → charge.tracked r e →
    charge.excused r w.report ∨ charge.Good dk r w ∨ run.delayed r e ∈ state.delayedTransfers
  links : ∀ link ∈ state.hardlinkTargets, ∃ (r : Key) (e : WalkEntry), (r, e) ∈ done ∧
    e.metadata.fileType = .file ∧ e.metadata.hardlinkId = some link.1 ∧
    link.2 = run.dest.join r.path ∧ Honest fs sk dk r w
  staged : ∀ d ∈ state.delayedTransfers, run.options.delayUpdates = true ∧
    ∃ (r : Key) (e : WalkEntry), (r, e) ∈ done ∧ e.metadata.fileType = .file ∧
      d = run.delayed r e ∧ (charge.tracked r e → charge.Staged run r w)
  nodup : state.delayedTransfers.Nodup
  noted : run.DirsNoted state
  ahead : run.options.backup = false → ∀ (r : Key) e, run.sourceEntries[r]? = some e →
    e.metadata.fileType = .file → (r, e) ∉ seen → Stays fs.content w.fs.content (dk ++ r)

section Progress

variable {charge : Charge} {done rest : List (Key × WalkEntry)} {q : Key} {e : WalkEntry}
  {state state' : TransferState} {w : World}

theorem Honest.stays {r : Key} {w' : World} (h : Honest fs sk dk r w)
    (hstays : Stays w.fs.content w'.fs.content (dk ++ r)) : Honest fs sk dk r w' := by
  intro bytes hc
  rcases hstays with heq | ⟨-, hdir⟩
  · exact h bytes (heq ▸ hc)
  · rw [hdir] at hc
    cases hc

theorem Right.honest {r : Key} (h : Right fs sk dk r w) : Honest fs sk dk r w := by
  obtain ⟨bytes, hsource, hc⟩ := h
  intro bytes' hc'
  rw [hc] at hc'
  cases hc'
  exact hsource

theorem Charge.Good.stays {r : Key} {w' : World} (h : charge.Good dk r w)
    (hstays : Stays w.fs.content w'.fs.content (dk ++ r)) : charge.Good dk r w' := by
  unfold Charge.Good at h ⊢
  rcases hstays with heq | ⟨hnone, hdir⟩
  · rwa [heq]
  · rw [hdir]
    exact charge.good_dir r (hnone ▸ h)

theorem mem_of_done (hsplit : run.sourceEntries.toList = done ++ (q, e) :: rest) {r : Key}
    {e' : WalkEntry} (hr : (r, e') ∈ done) : run.sourceEntries[r]? = some e' :=
  Std.TreeMap.mem_toList_iff_getElem?_eq_some.mp (hsplit ▸ List.mem_append_left _ hr)

theorem Progress.push {seen : List (Key × WalkEntry)}
    (h : run.Progress fs sk dk charge done seen state w) (action : SyncAction) :
    run.Progress fs sk dk charge done seen state { w with report := w.report ++ [action] } :=
  ⟨⟨h.framing.clear, h.framing.away, h.framing.measured⟩,
    fun r e hr hfile hK => (h.right r e hr hfile hK).imp_left
      (charge.excused_push r w.report action),
    h.links, h.staged, h.nodup, h.noted, h.ahead⟩

/-- A run and what it is to answer for: it follows no symlink, its side paths keep
off the files, and what can be linked to is tracked. -/
structure Charged (run : SyncRun) (fs : MemoryFileSystem) (sk dk : Key) (charge : Charge) :
    Prop where
  unfollowed : run.Unfollowed fs sk dk
  apart : run.Apart dk charge.tracked
  linked : ∀ r e, e.metadata.hardlinkId ≠ none → charge.tracked r e

/-- The turn of an entry keeps what holds of those before it, as long as the state
stays what it was. -/
theorem Charged.kept_progress (h : run.Charged fs sk dk charge)
    (hsplit : run.sourceEntries.toList = done ++ (q, e) :: rest) :
    Kept run.options.dryRun (run.entryAct q e)
      (run.Progress fs sk dk charge done (done ++ [(q, e)]) state) := by
  have he := getElem?_of_toList hsplit
  refine ⟨fun w action hw => hw.push action, fun w change _ hw hact => ?_⟩
  · have htame := h.unfollowed.entryAct_tame he hact
    have hclear : ∀ y, change.Resolves y → Clear w.fs.content y :=
      fun y hy => hw.framing.clear y (htame.resolves y hy)
    -- a tracked file that is done keeps what it has
    have hdone : ∀ r e', (r, e') ∈ done → e'.metadata.fileType = .file → charge.tracked r e' →
        Stays w.fs.content (change.run w.fs).2.content (dk ++ r) := by
      intro r e' hr hfile hK
      have he' := mem_of_done hsplit hr
      refine stays_run_of_clear hclear (h.unfollowed.entryAct_misses h.apart he he'
        (key_ne_of_toList hsplit hr) (fun hb => ?_) hact)
      exact h.apart.backup hb q r e e' done rest hsplit he' hfile hK (Or.inl hr)
    refine ⟨hw.framing.act htame, ?_, ?_, ?_, hw.nodup, hw.noted, ?_⟩
    · intro r e' hr hfile hK
      refine (hw.right r e' hr hfile hK).imp_right (Or.imp_left fun hright => ?_)
      exact hright.stays (hdone r e' hr hfile hK)
    · intro link hlink
      obtain ⟨r, e', hr, hfile, hid, hpath, hhonest⟩ := hw.links link hlink
      refine ⟨r, e', hr, hfile, hid, hpath, hhonest.stays (hdone r e' hr hfile ?_)⟩
      exact h.linked r e' (by simp [hid])
    · intro d hd
      obtain ⟨hdelay, r, e', hr, hfile, rfl, hstaged⟩ := hw.staged d hd
      refine ⟨hdelay, r, e', hr, hfile, rfl, fun hK => ?_⟩
      obtain ⟨y, bytes, hy, hsource, hc⟩ := hstaged hK
      refine ⟨y, bytes, hy, hsource, (stays_run_of_clear hclear ?_).some hc⟩
      exact h.unfollowed.entryAct_misses_staged h.apart hdelay he (mem_of_done hsplit hr) hfile hK
        (key_ne_of_toList hsplit hr) hy hact
    · intro hb r e' he' hfile hr
      have hne : r ≠ q := by
        rintro rfl
        obtain rfl : e' = e := Option.some.inj (he'.symm.trans he)
        exact hr (by simp)
      refine Stays.trans (hw.ahead hb r e' he' hfile hr) (stays_run_of_clear hclear ?_)
      exact h.unfollowed.entryAct_misses h.apart he he' hne (by simp [hb]) hact

theorem Unfollowed.placing {I : World → Prop} (h : run.Unfollowed fs sk dk)
    (he : run.sourceEntries[q]? = some e) (hfile : e.metadata.fileType = .file)
    (hkept : Kept run.options.dryRun (run.entryAct q e) I)
    (hI : ∀ t, I t → run.Framing fs dk t) :
    Placing run.dest (run.dest.join q.path) q.path e run.options run.Linked (dk ++ q) (run.Open dk)
      I where
  dryRun := h.dryRun
  names := h.names q
  kept := hkept
  clear t ht := (hI t ht).clear
  here := h.open_target he (by simp [hfile])
  backup hb := h.sides _ (.backup hb he)
  staging hdelay := h.sides _ (.staging hdelay he hfile)
  linked existing hlinked y hy := by
    obtain ⟨r, e', he', hfile', rfl⟩ := hlinked
    obtain rfl : y = dk ++ r := Option.some.inj (hy.symm.trans (h.names r))
    exact h.open_target he' (by simp [hfile'])
  basis dir hdir := h.sides _ (.basis he hfile hdir)

/-- What the turn of a tracked file must find: a file that needs no update and may be
linked to has the bytes of its source, and so has what the basis directories give it. -/
structure TurnHonest (run : SyncRun) (fs : MemoryFileSystem) (sk dk q : Key) (e : WalkEntry)
    (state : TransferState) (w : World) : Prop where
  idle : run.options.preserveHardLinks = true → e.metadata.hardlinkId ≠ none →
    fileNeedsUpdate w.fs e (run.dest.join q.path) run.options = .ok false → Honest fs sk dk q w
  basis : ∀ u v bytes, (run.makeWay q).run syncHandler w = .ret true u →
    fileNeedsUpdate u.fs e (run.dest.join q.path) run.options = .ok true →
    (transferHardLink run.dest (run.dest.join q.path) q.path e run.options state).run syncHandler u =
      .ret false v →
    fs.content (sk ++ q) = some (.file, bytes) →
    BasisHonest run.dest q.path e run.options (dk ++ q) bytes v.fs

/-- Source files with one identity have the same bytes. -/
def OneContent (run : SyncRun) (fs : MemoryFileSystem) (sk : Key) : Prop :=
  run.options.preserveHardLinks = true → ∀ (q r : Key) e e' id,
    run.sourceEntries[q]? = some e → run.sourceEntries[r]? = some e' →
    e.metadata.fileType = .file → e'.metadata.fileType = .file →
    e.metadata.hardlinkId = some id → e'.metadata.hardlinkId = some id →
    fs.content (sk ++ q) = fs.content (sk ++ r)

theorem Progress.remembered {seen : List (Key × WalkEntry)}
    (h : run.Progress fs sk dk charge done seen state w)
    (hsplit : run.sourceEntries.toList = done ++ (q, e) :: rest) : Remembered run.Linked state := by
  intro link hlink
  obtain ⟨r, e', hr, hfile, -, hpath, -⟩ := h.links link hlink
  exact ⟨r, e', mem_of_done hsplit hr, hfile, hpath⟩

theorem Charged.faithful (h : run.Charged fs sk dk charge)
    (hsplit : run.sourceEntries.toList = done ++ (q, e) :: rest)
    (hfile : e.metadata.fileType = .file) (hK : charge.tracked q e) (hone : run.OneContent fs sk)
    (hturn : run.TurnHonest fs sk dk q e state w) {bytes : Bytes}
    (hbytes : fs.content (sk ++ q) = some (.file, bytes)) {u : World}
    (hway : (run.makeWay q).run syncHandler w = .ret true u)
    (hneeded : fileNeedsUpdate u.fs e (run.dest.join q.path) run.options = .ok true) :
    Faithful run.dest (run.dest.join q.path) q.path e run.options (dk ++ q)
      (run.Progress fs sk dk charge done (done ++ [(q, e)]) state) state bytes u := by
  have he := getElem?_of_toList hsplit
  obtain ⟨bytes', hbytes', hlen⟩ := h.unfollowed.sourceBytes he hfile
  obtain rfl : bytes = bytes' := by
    rw [hbytes] at hbytes'
    cases hbytes'
    rfl
  refine ⟨hfile, fun t ht => h.unfollowed.read ht.framing he hbytes, hlen,
    fun t ht => ht.framing.measured, ?_, fun v hv => hturn.basis u v bytes hway hneeded hv hbytes,
    fun hb => h.apart.backupBasis hb q e he hfile hK⟩
  intro t id existing ekey b ht hlink hid htarget hekey hc
  -- what is linked to is an honest target of a file with the same identity
  unfold TransferState.hardlinkTarget at htarget
  obtain ⟨link, hfind, rfl⟩ := Option.map_eq_some_iff.mp htarget
  obtain ⟨r, e', hr, hfile', hid', hpath, hhonest⟩ := ht.links link (List.mem_of_find?_eq_some hfind)
  have hsame : link.1 = id := by simpa using List.find?_some hfind
  rw [hpath, h.unfollowed.names, Option.some.injEq] at hekey
  subst hekey
  have hsource := hhonest b hc
  rw [← hone hlink q r e e' id he (mem_of_done hsplit hr) hfile hfile' hid (hsame ▸ hid'),
    hbytes] at hsource
  cases hsource
  rfl

theorem delayed_inj {q r : Key} {e e' : WalkEntry} (h : run.delayed q e = run.delayed r e') :
    q = r :=
  Key.path_inj (congrArg DelayedTransfer.relative h)

/-- One more entry is behind the loop. -/
theorem Progress.extend
    (h : run.Progress fs sk dk charge done (done ++ [(q, e)]) state w)
    (hsplit : run.sourceEntries.toList = done ++ (q, e) :: rest)
    (hright : e.metadata.fileType = .file → charge.tracked q e →
      charge.excused q w.report ∨ charge.Good dk q w ∨ run.delayed q e ∈ state'.delayedTransfers)
    (hlinks : state'.hardlinkTargets = state.hardlinkTargets ∨
      ∃ id, e.metadata.fileType = .file ∧ e.metadata.hardlinkId = some id ∧
        state'.hardlinkTargets = state.hardlinkTargets ++ [(id, run.dest.join q.path)] ∧
        Honest fs sk dk q w)
    (hstaged : state'.delayedTransfers = state.delayedTransfers ∨
      (run.options.delayUpdates = true ∧ e.metadata.fileType = .file ∧
        state'.delayedTransfers = state.delayedTransfers ++ [run.delayed q e] ∧
        (charge.tracked q e → charge.Staged run q w)))
    (hnoted : run.DirsNoted state') :
    run.Progress fs sk dk charge (done ++ [(q, e)]) (done ++ [(q, e)]) state' w := by
  refine ⟨h.framing, ?_, ?_, ?_, ?_, hnoted, h.ahead⟩
  · intro r e' hr hfile hK
    rw [List.mem_append, List.mem_singleton, Prod.mk.injEq] at hr
    rcases hr with hr | ⟨rfl, rfl⟩
    · refine (h.right r e' hr hfile hK).imp_right (Or.imp_right fun hmem => ?_)
      rcases hstaged with heq | ⟨-, -, heq, -⟩
      · rwa [heq]
      · rw [heq]
        exact List.mem_append_left _ hmem
    · exact hright hfile hK
  · intro link hlink
    have hold : ∀ link ∈ state.hardlinkTargets, ∃ (r : Key) (e' : WalkEntry),
        (r, e') ∈ done ++ [(q, e)] ∧ e'.metadata.fileType = .file ∧
        e'.metadata.hardlinkId = some link.1 ∧ link.2 = run.dest.join r.path ∧
        Honest fs sk dk r w := by
      intro link hlink
      obtain ⟨r, e', hr, hrest⟩ := h.links link hlink
      exact ⟨r, e', List.mem_append_left _ hr, hrest⟩
    rcases hlinks with heq | ⟨id, hfile, hid, heq, hhonest⟩
    · exact hold link (heq ▸ hlink)
    · rw [heq, List.mem_append, List.mem_singleton] at hlink
      rcases hlink with hlink | rfl
      · exact hold link hlink
      · exact ⟨q, e, by simp, hfile, hid, rfl, hhonest⟩
  · intro d hd
    have hold : ∀ d ∈ state.delayedTransfers, run.options.delayUpdates = true ∧
        ∃ (r : Key) (e' : WalkEntry), (r, e') ∈ done ++ [(q, e)] ∧
          e'.metadata.fileType = .file ∧ d = run.delayed r e' ∧
          (charge.tracked r e' → charge.Staged run r w) := by
      intro d hd
      obtain ⟨hdelay, r, e', hr, hrest⟩ := h.staged d hd
      exact ⟨hdelay, r, e', List.mem_append_left _ hr, hrest⟩
    rcases hstaged with heq | ⟨hdelay, hfile, heq, hright⟩
    · exact hold d (heq ▸ hd)
    · rw [heq, List.mem_append, List.mem_singleton] at hd
      rcases hd with hd | rfl
      · exact hold d hd
      · exact ⟨hdelay, q, e, by simp, hfile, rfl, hright⟩
  · rcases hstaged with heq | ⟨-, -, heq, -⟩
    · rw [heq]
      exact h.nodup
    · rw [heq, ← List.concat_eq_append]
      refine h.nodup.concat fun hmem => ?_
      obtain ⟨-, r, e', hr, -, heq, -⟩ := h.staged _ hmem
      exact key_ne_of_toList hsplit hr (delayed_inj heq).symm

/-- What the turn of a tracked file must come to: the report excuses the file, or what is
at its target is good, and so are the bytes that it transfers. -/
structure TurnExcused (run : SyncRun) (fs : MemoryFileSystem) (sk dk : Key) (charge : Charge)
    (q : Key) (e : WalkEntry) (w : World) : Prop where
  kept : ∀ t, (run.makeWay q).run syncHandler w = .ret false t →
    .protectDelete (run.dest.join q.path) ∈ t.report →
    charge.excused q t.report ∨ charge.Good dk q t
  idle : ∀ u t, (run.makeWay q).run syncHandler w = .ret true u →
    (u.fs.content (dk ++ q) = none ∨ (u = w ∧ Room w.fs.content (dk ++ q))) →
    fileNeedsUpdate u.fs e (run.dest.join q.path) run.options = .ok false →
    t.fs.content (dk ++ q) = u.fs.content (dk ++ q) →
    charge.excused q t.report ∨ charge.Good dk q t
  transferred : ∀ u bytes, (run.makeWay q).run syncHandler w = .ret true u →
    fileNeedsUpdate u.fs e (run.dest.join q.path) run.options = .ok true →
    fs.content (sk ++ q) = some (.file, bytes) → charge.good q (some (.file, bytes))

theorem Charged.ensures_syncFile (h : run.Charged fs sk dk charge)
    (hsplit : run.sourceEntries.toList = done ++ (q, e) :: rest)
    (hfile : e.metadata.fileType = .file) (hK : charge.tracked q e) (hone : run.OneContent fs sk)
    (hturn : run.TurnHonest fs sk dk q e state w)
    (hexcused : run.TurnExcused fs sk dk charge q e w)
    (hw : run.Progress fs sk dk charge done (done ++ [(q, e)]) state w) :
    (run.syncFile q e state).Ensures syncHandler (fun _ => True)
      (fun state' => run.Progress fs sk dk charge (done ++ [(q, e)]) (done ++ [(q, e)]) state') w := by
  have he := getElem?_of_toList hsplit
  obtain ⟨bytes, hbytes, -⟩ := h.unfollowed.sourceBytes he hfile
  have hkept : Kept run.options.dryRun (run.entryAct q e)
      (run.Progress fs sk dk charge done (done ++ [(q, e)]) state) := h.kept_progress hsplit
  have hplacing := h.unfollowed.placing he hfile hkept fun t ht => ht.framing
  refine (ensures_syncFile_ends hplacing hfile (hw.remembered hsplit)
    (fun u _ hway hneeded => h.faithful hsplit hfile hK hone hturn hbytes hway hneeded) hw).mono ?_
  rintro state' t ⟨ht, hend⟩
  -- what may be remembered is the target, when it is honest
  have hremember : Honest fs sk dk q t ∨ (run.options.preserveHardLinks = false ∨
      e.metadata.hardlinkId = none) → (rememberHardlinkTarget e (run.dest.join q.path)
        run.options.preserveHardLinks state).hardlinkTargets = state.hardlinkTargets ∨
      ∃ id, e.metadata.fileType = .file ∧ e.metadata.hardlinkId = some id ∧
        (rememberHardlinkTarget e (run.dest.join q.path) run.options.preserveHardLinks
          state).hardlinkTargets = state.hardlinkTargets ++ [(id, run.dest.join q.path)] ∧
        Honest fs sk dk q t := by
    intro hhonest
    unfold rememberHardlinkTarget
    split
    · exact Or.inl rfl
    · rename_i id hid
      split
      · rename_i hpreserve
        rcases hhonest with hhonest | hoff | hoff
        · exact Or.inr ⟨id, hfile, hid, rfl, hhonest⟩
        · simp [hoff] at hpreserve
        · rw [hid] at hoff
          cases hoff
      · exact Or.inl rfl
  have hsame : ∀ state' : TransferState, state' = state ∨ state' = rememberHardlinkTarget e
      (run.dest.join q.path) run.options.preserveHardLinks state →
      state'.delayedTransfers = state.delayedTransfers ∧ run.DirsNoted state' := by
    rintro state' (rfl | rfl)
    · exact ⟨rfl, ht.noted⟩
    · have hextends : Extends run.dest (run.dest.join q.path) q.path e run.options state
          (rememberHardlinkTarget e (run.dest.join q.path) run.options.preserveHardLinks state) :=
        .remember state _
      refine ⟨?_, fun d hd => ht.noted d (hextends.mtimes ▸ hd)⟩
      unfold rememberHardlinkTarget
      split
      · rfl
      · split <;> rfl
  cases hend with
  | kept hway hreport =>
      exact ht.extend hsplit (fun _ _ => (hexcused.kept t hway hreport).imp_right Or.inl)
        (Or.inl rfl) (Or.inl rfl) ht.noted
  | idle hway hclear hidle hsamekey =>
      rename_i u
      obtain ⟨hstaged, hnoted⟩ := hsame _ (Or.inr rfl)
      refine ht.extend hsplit (fun _ _ => ?_) (hremember ?_) (Or.inl hstaged) hnoted
      · exact (hexcused.idle u t hway hclear hidle hsamekey).imp_right Or.inl
      · by_cases hoff : run.options.preserveHardLinks = false ∨ e.metadata.hardlinkId = none
        · exact Or.inr hoff
        · rw [not_or, Bool.not_eq_false] at hoff
          refine Or.inl fun bytes hc => ?_
          rw [hsamekey] at hc
          rcases hclear with hnone | ⟨rfl, -⟩
          · rw [hnone] at hc
            cases hc
          · exact hturn.idle hoff.1 hoff.2 hidle bytes hc
  | transferred hway hneeded htransferred =>
      have hgood := hexcused.transferred _ bytes hway hneeded hbytes
      rcases htransferred with ⟨hkey, hstate⟩ | ⟨hdelay, rfl, y, hy, hc⟩
      · obtain ⟨hstaged, hnoted⟩ := hsame _ hstate
        have hright : Right fs sk dk q t := ⟨bytes, hbytes, hkey⟩
        have hthere : charge.Good dk q t := by
          unfold Charge.Good
          rwa [hkey]
        refine ht.extend hsplit (fun _ _ => Or.inr (Or.inl hthere)) ?_ (Or.inl hstaged) hnoted
        rcases hstate with rfl | rfl
        · exact Or.inl rfl
        · exact hremember (Or.inl hright.honest)
      · refine ht.extend hsplit (fun _ _ => Or.inr (Or.inr (by simp [delayed]))) (Or.inl rfl)
          (Or.inr ⟨hdelay, hfile, rfl, fun _ => ⟨y, bytes, hy, hgood, hc⟩⟩) ht.noted

/-- One entry of the loop. -/
theorem Charged.ensures_syncEntry (h : run.Charged fs sk dk charge)
    (hsplit : run.sourceEntries.toList = done ++ (q, e) :: rest) (hone : run.OneContent fs sk)
    (hturn : e.metadata.fileType = .file → charge.tracked q e →
      run.TurnHonest fs sk dk q e state w)
    (hexcused : e.metadata.fileType = .file → charge.tracked q e →
      run.TurnExcused fs sk dk charge q e w)
    (hw : run.Progress fs sk dk charge done done state w) :
    (run.syncEntry q e state).Ensures syncHandler (fun _ => True)
      (fun state' => run.Progress fs sk dk charge (done ++ [(q, e)]) (done ++ [(q, e)]) state') w := by
  have he := getElem?_of_toList hsplit
  have hbegin : run.Progress fs sk dk charge done (done ++ [(q, e)]) state w :=
    { hw with ahead := fun hb r e' he' hfile hr =>
        hw.ahead hb r e' he' hfile fun hmem => hr (List.mem_append_left _ hmem) }
  by_cases hcase : e.metadata.fileType = .file ∧ charge.tracked q e
  · obtain ⟨hfile, hK⟩ := hcase
    have hrule := h.ensures_syncFile hsplit hfile hK hone (hturn hfile hK) (hexcused hfile hK) hbegin
    unfold syncEntry
    simp only [hfile]
    exact hrule
  · refine (SyncRun.ensures_syncEntry (fun _ _ => trivial) (h.kept_progress hsplit)
      (fun err t (_ : run.Progress fs sk dk charge done (done ++ [(q, e)]) state t) =>
        ensures_afterFailure_true state err t) (hbegin.remembered hsplit) hbegin).mono ?_
    rintro state' t ⟨ht, hadvances⟩
    refine ht.extend hsplit (fun hfile hK => absurd ⟨hfile, hK⟩ hcase) ?_ ?_
      (ht.noted.advance he hadvances)
    · rcases hadvances.links with heq | ⟨id, hfile, hid, -⟩
      · exact Or.inl heq
      · exact absurd ⟨hfile, h.linked q e (by simp [hid])⟩ hcase
    · rcases hadvances.delayed with heq | ⟨-, hdelay, hfile, heq⟩
      · exact Or.inl heq
      · exact Or.inr ⟨hdelay, hfile, heq, fun hK => absurd ⟨hfile, hK⟩ hcase⟩

end Progress

/-! ## Before the loop and after it -/

section Stages

variable {charge : Charge} {w : World}

theorem Unfollowed.createDest_tame (h : run.Unfollowed fs sk dk) :
    run.Tame dk (.createDirAll run.dest) := by
  refine ⟨fun y hy => ?_, fun _ hx => hx.elim, by simp, by simp⟩
  obtain rfl : y = dk := Option.some.inj (hy.symm.trans h.dest)
  refine ⟨List.prefix_refl y, fun q e he _ hpre => h.source.ne_nil q e he ?_⟩
  have hlength := hpre.length_le
  rw [List.length_append] at hlength
  exact List.eq_nil_of_length_eq_zero (by omega)

/-- Before the loop nothing is behind it. -/
theorem Charged.ensures_prologue (h : run.Charged fs sk dk charge) (report : List SyncAction) :
    run.prologue.Ensures syncHandler (fun _ => True)
      (fun _ => run.Progress fs sk dk charge [] [] {}) ⟨fs, report⟩ := by
  have hstart : run.Progress fs sk dk charge [] [] {} ⟨fs, report⟩ :=
    ⟨h.unfollowed.framing report, by simp, by simp, by simp, List.nodup_nil, by simp [DirsNoted],
      fun _ r e _ _ _ => .refl _ _⟩
  have hact : ∀ (t : World) (change : FsAct), run.Progress fs sk dk charge [] [] {} t →
      run.Tame dk change →
      (run.options.backup = false → ∀ (r : Key) e, run.sourceEntries[r]? = some e →
        ¬ change.Hits (dk ++ r)) →
      run.Progress fs sk dk charge [] [] {} { t with fs := (change.run t.fs).2 } := by
    intro t change ht htame hmiss
    refine ⟨ht.framing.act htame, by simp, by simp, by simp, List.nodup_nil, ht.noted, ?_⟩
    intro hb r e he hfile hr
    exact Stays.trans (ht.ahead hb r e he hfile hr) (stays_run_of_clear
      (fun y hy => ht.framing.clear y (htame.resolves y hy)) (hmiss hb r e he))
  have hdeletes : run.DeletesKeep (run.Progress fs sk dk charge [] [] {}) := by
    intro x e he hnone _
    refine ⟨fun t action ht => ht.push action, fun t change _ ht hchange => ?_⟩
    refine hact t change ht (h.unfollowed.deleteAct_tame he hchange) fun hb r e' he' => ?_
    exact h.unfollowed.deleteAct_misses he hnone he' (by simp [hb]) hchange
  have hlate : ∀ t, run.Progress fs sk dk charge [] [] {} t →
      (run.deletesWhen [.before, .during]).Ensures syncHandler (fun _ => True)
        (fun _ => run.Progress fs sk dk charge [] [] {}) t := fun t ht =>
    (ensures_deletesWhen _ (fun _ action ht => ht.push action) hdeletes ht).mono_always
      fun _ _ => trivial
  unfold prologue
  refine ensures_look trivial ?_
  split
  · refine ensures_report trivial (ensures_actUnlessDry trivial (fun _ => ?_) (fun _ => trivial)
      fun _ _ => ?_)
    · exact hlate _ (hstart.push _)
    · exact hlate _ (hact _ _ (hstart.push _) h.unfollowed.createDest_tame fun _ _ _ _ => id)
  · exact hlate _ hstart

/-- Every tracked file is excused, at its target or among what is still staged; `q` is
being settled. -/
structure Settling (run : SyncRun) (fs : MemoryFileSystem) (sk dk : Key) (charge : Charge)
    (q : Option Key) (transfers : List DelayedTransfer) (w : World) : Prop where
  framing : run.Framing fs dk w
  right : ∀ (r : Key) e, run.sourceEntries[r]? = some e → e.metadata.fileType = .file →
    charge.tracked r e → some r ≠ q →
    charge.excused r w.report ∨ charge.Good dk r w ∨ run.delayed r e ∈ transfers
  staged : ∀ d ∈ transfers, run.options.delayUpdates = true ∧
    ∃ (r : Key) (e : WalkEntry), run.sourceEntries[r]? = some e ∧ e.metadata.fileType = .file ∧
      some r ≠ q ∧ d = run.delayed r e ∧ (charge.tracked r e → charge.Staged run r w)
  nodup : transfers.Nodup

theorem Settling.push {q : Option Key} {staged : List DelayedTransfer}
    (h : run.Settling fs sk dk charge q staged w) (action : SyncAction) :
    run.Settling fs sk dk charge q staged { w with report := w.report ++ [action] } :=
  ⟨⟨h.framing.clear, h.framing.away, h.framing.measured⟩,
    fun r e he hfile hK hne => (h.right r e he hfile hK hne).imp_left
      (charge.excused_push r w.report action), h.staged, h.nodup⟩

/-- Settling one file keeps what holds of the others. -/
theorem Charged.settling_act (h : run.Charged fs sk dk charge) {q : Key} {e : WalkEntry}
    (hdelay : run.options.delayUpdates = true) (he : run.sourceEntries[q]? = some e)
    {staged : List DelayedTransfer} {change : FsAct}
    (hw : run.Settling fs sk dk charge (some q) staged w)
    (hact : run.entryAct q e w.fs change) :
    run.Settling fs sk dk charge (some q) staged { w with fs := (change.run w.fs).2 } := by
  have htame := h.unfollowed.entryAct_tame he hact
  have hclear : ∀ y, change.Resolves y → Clear w.fs.content y :=
    fun y hy => hw.framing.clear y (htame.resolves y hy)
  refine ⟨hw.framing.act htame, ?_, ?_, hw.nodup⟩
  · intro r e' he' hfile hK hne
    have hrq : r ≠ q := fun heq => hne (congrArg some heq)
    refine (hw.right r e' he' hfile hK hne).imp_right (Or.imp_left fun hright => ?_)
    refine hright.stays (stays_run_of_clear hclear ?_)
    refine h.unfollowed.entryAct_misses h.apart he he' hrq (fun hb => ?_) hact
    obtain ⟨done, rest, hsplit⟩ := List.append_of_mem
      (Std.TreeMap.mem_toList_iff_getElem?_eq_some.mpr he)
    exact h.apart.backup hb q r e e' done rest hsplit he' hfile hK (Or.inr ⟨hdelay, hrq⟩)
  · intro d hd
    obtain ⟨_, r, e', he', hfile, hne, rfl, hstaged⟩ := hw.staged d hd
    refine ⟨hdelay, r, e', he', hfile, hne, rfl, fun hK => ?_⟩
    obtain ⟨y, bytes, hy, hgood, hc⟩ := hstaged hK
    refine ⟨y, bytes, hy, hgood, (stays_run_of_clear hclear ?_).some hc⟩
    exact h.unfollowed.entryAct_misses_staged h.apart hdelay he he' hfile hK
      (fun heq => hne (congrArg some heq)) hy hact

/-- One staged file goes to its place. -/
theorem Charged.ensures_settle (h : run.Charged fs sk dk charge) {d : DelayedTransfer}
    {transfers : List DelayedTransfer} {k : Unit → SyncProg Unit} {Q : Unit → World → Prop}
    (hw : run.Settling fs sk dk charge none (d :: transfers) w)
    (hk : ∀ t, run.Settling fs sk dk charge none transfers t →
      (k ()).Ensures syncHandler (fun _ => True) Q t) :
    (backupReceiverFile run.dest d.target d.relative run.options >>= fun _ =>
      act (.renameFile d.temp d.target) >>= fun _ =>
      preserveTransferredMtime d.target d.entry run.options >>= k).Ensures syncHandler
        (fun _ => True) Q w := by
  obtain ⟨hdelay, q, e, he, hfile, -, rfl, hstaged⟩ := hw.staged d (by simp)
  have hnot : run.delayed q e ∉ transfers := (List.nodup_cons.mp hw.nodup).1
  have hothers : run.Settling fs sk dk charge (some q) transfers w := by
    refine ⟨hw.framing, fun r e' he' hfile' hK hne => ?_, fun d hd => ?_,
      (List.nodup_cons.mp hw.nodup).2⟩
    · refine (hw.right r e' he' hfile' hK (by simp)).imp_right (Or.imp_right fun hmem => ?_)
      refine (List.mem_cons.mp hmem).resolve_left fun heq => hne (congrArg some ?_)
      exact delayed_inj heq
    · obtain ⟨hdelay, r, e', he', hfile', -, rfl, hright⟩ := hw.staged d (List.mem_cons_of_mem _ hd)
      refine ⟨hdelay, r, e', he', hfile', fun heq => hnot ?_, rfl, hright⟩
      obtain rfl := Option.some.inj heq
      obtain rfl : e' = e := Option.some.inj (he'.symm.trans he)
      exact hd
  let B : World → Prop := fun t => run.Settling fs sk dk charge (some q) transfers t ∧
    (charge.tracked q e → charge.Staged run q t)
  let backup : FsAct := .copyFile (run.dest.join q.path)
    (backupPathFor run.dest (run.dest.join q.path) q.path run.options) .atomic
  -- the backup of the target leaves the staged copy alone
  have hbackup : Kept run.options.dryRun (fun fs' change => run.entryAct q e fs' change ∧
      run.options.backup = true ∧ change = backup) B := by
    refine ⟨fun t action ht => ⟨ht.1.push action, ht.2⟩, fun t change _ ht hact => ?_⟩
    obtain ⟨hact, hb, rfl⟩ := hact
    refine ⟨h.settling_act hdelay he ht.1 hact, fun hK => ?_⟩
    obtain ⟨y, bytes, hy, hsource, hc⟩ := ht.2 hK
    refine ⟨y, bytes, hy, hsource, (stays_run_of_clear (fun z hz => ?_) ?_).some hc⟩
    · exact ht.1.framing.clear z ((h.unfollowed.entryAct_tame he hact).resolves z hz)
    · exact h.apart.backupStaging hb hdelay q q e e y he he hfile hK hy
  have hmade := (ensures_backup hbackup (fun metadata hb hmeta htype =>
    ⟨.backup hb hmeta htype, hb, rfl⟩) ⟨hothers, hstaged⟩).mono_always fun _ _ => trivial
  refine ensures_seq hmade fun _ t ht => ensures_act trivial trivial fun hrun => ?_
  have hsettle : run.entryAct q e t.fs (.renameFile (run.delayed q e).temp (run.dest.join q.path)) :=
    .settle hdelay hfile
  let A : World → Prop := fun u => run.Settling fs sk dk charge (some q) transfers u ∧
    (charge.tracked q e → charge.Good dk q u)
  have hdone : A { t with fs := (FsAct.run t.fs (.renameFile (run.delayed q e).temp
      (run.dest.join q.path))).2 } := by
    refine ⟨h.settling_act hdelay he ht.1 hsettle, fun hK => ?_⟩
    obtain ⟨y, bytes, hy, hgood, hc⟩ := ht.2 hK
    have hclear := ht.1.framing.clear _ (h.unfollowed.open_target he (by simp [hfile]))
    obtain ⟨fs₁, hstays, -, ⟨err, herr⟩ | ⟨c, fs', hcs, hok, hcontent⟩⟩ :=
      renameFile_of_clear hy (h.unfollowed.names q) hclear
    · have herror : (t.fs.renameFile (delayedUpdatePath run.dest q.path run.options)
        (run.dest.join q.path)).1 = .ok () := hrun
      rw [herr] at herror
      cases herror
    · rw [(hstays y).some hc] at hcs
      cases hcs
      show charge.good q ((t.fs.renameFile (delayedUpdatePath run.dest q.path run.options)
        (run.dest.join q.path)).2.content (dk ++ q))
      rwa [hok, hcontent, Function.update_self]
  have hmtime : Kept run.options.dryRun (MtimeAct (run.dest.join q.path)) A := by
    refine ⟨fun u action hu => ⟨hu.1.push action, hu.2⟩, fun u change _ hu hact => ?_⟩
    obtain ⟨modified, rfl⟩ := hact
    refine ⟨h.settling_act hdelay he hu.1 (.mtime modified), fun hK => ?_⟩
    refine (hu.2 hK).stays (Or.inl ?_)
    show (u.fs.setMtime _ modified).2.content _ = _
    rw [content_setMtime]
  refine ensures_seq ((ensures_preserveTransferredMtime hmtime hdone).mono_always
    fun _ _ => trivial) fun _ u hu => hk u ⟨hu.1.framing, fun r e' he' hfile' hK _ => ?_, ?_, hu.1.nodup⟩
  · by_cases hrq : r = q
    · subst hrq
      obtain rfl : e' = e := Option.some.inj (he'.symm.trans he)
      exact Or.inr (Or.inl (hu.2 hK))
    · exact hu.1.right r e' he' hfile' hK fun heq => hrq (Option.some.inj heq)
  · intro d hd
    obtain ⟨hdelay, r, e', he', hfile', -, hrest⟩ := hu.1.staged d hd
    exact ⟨hdelay, r, e', he', hfile', by simp, hrest⟩

theorem Charged.ensures_finishDelayedUpdates (h : run.Charged fs sk dk charge) :
    ∀ {transfers : List DelayedTransfer} {w : World},
      run.Settling fs sk dk charge none transfers w →
      (finishDelayedUpdates run.dest run.options transfers).Ensures syncHandler (fun _ => True)
        (fun _ => run.Settling fs sk dk charge none []) w
  | [], w, hw => ⟨trivial, hw⟩
  | d :: transfers, w, hw => by
      unfold finishDelayedUpdates
      exact h.ensures_settle hw fun t ht => h.ensures_finishDelayedUpdates ht

/-- A run that returns has brought every tracked file, unless its report excuses it. -/
theorem Charged.ensures_execute (h : run.Charged fs sk dk charge) (report : List SyncAction)
    (hone : run.OneContent fs sk)
    (hturn : ∀ done rest q e state w, run.sourceEntries.toList = done ++ (q, e) :: rest →
      run.Reached ⟨fs, report⟩ done state w → e.metadata.fileType = .file → charge.tracked q e →
      run.TurnHonest fs sk dk q e state w)
    (hexcused : ∀ done rest q e state w, run.sourceEntries.toList = done ++ (q, e) :: rest →
      run.Reached ⟨fs, report⟩ done state w → e.metadata.fileType = .file → charge.tracked q e →
      run.Progress fs sk dk charge done done state w → run.TurnExcused fs sk dk charge q e w) :
    run.execute.Ensures syncHandler (fun _ => True) (fun _ w =>
      ∀ (r : Key) e, run.sourceEntries[r]? = some e → e.metadata.fileType = .file →
        charge.tracked r e → charge.excused r w.report ∨ charge.Good dk r w) ⟨fs, report⟩ := by
  let C : World → Prop := fun w => run.Framing fs dk w ∧
    ∀ (r : Key) e, run.sourceEntries[r]? = some e → e.metadata.fileType = .file →
      charge.tracked r e → charge.excused r w.report ∨ charge.Good dk r w
  have hpush : ∀ w action, C w → C { w with report := w.report ++ [action] } :=
    fun w action hw => ⟨⟨hw.1.clear, hw.1.away, hw.1.measured⟩, fun r e he hfile hK =>
      (hw.2 r e he hfile hK).imp_left (charge.excused_push r w.report action)⟩
  refine (ensures_execute_reached (B := C) (C := C)
    (J := fun done => run.Progress fs sk dk charge done done) (h.ensures_prologue report) ?_
    (fun _ _ ht => ht.noted) ?_ ?_ ?_).mono fun _ _ hw => hw.2
  · intro done q e rest state t hsplit hreached ht
    exact h.ensures_syncEntry hsplit hone (hturn done rest q e state t hsplit hreached)
      (fun hfile hK => hexcused done rest q e state t hsplit hreached hfile hK ht) ht
  · intro state t ht
    have hsettling : run.Settling fs sk dk charge none state.delayedTransfers t := by
      refine ⟨ht.framing, fun r e he hfile hK _ => ht.right r e ?_ hfile hK, fun d hd => ?_, ht.nodup⟩
      · exact Std.TreeMap.mem_toList_iff_getElem?_eq_some.mpr he
      · obtain ⟨hdelay, r, e, hr, hfile, hrest⟩ := ht.staged d hd
        exact ⟨hdelay, r, e, Std.TreeMap.mem_toList_iff_getElem?_eq_some.mp hr, hfile, by simp, hrest⟩
    unfold finish
    refine ensures_seq (h.ensures_finishDelayedUpdates hsettling).attempt fun r u hu => ?_
    cases r with
    | ok _ =>
        have hall := hu.2 () rfl
        refine ⟨trivial, hall.framing, fun r e he hfile hK => ?_⟩
        exact (hall.right r e he hfile hK (by simp)).imp_right fun h => h.resolve_right (by simp)
    | error err =>
        exact ensures_seq (Prog.ensures_true _ _) fun _ _ _ => trivial
  · intro t ht
    by_cases hmode : run.options.effectiveDeleteMode ∈ [.delay, .after]
    · have hdeletes : run.DeletesKeep C := by
        intro x e he hnone hprotected
        refine ⟨hpush, fun w change _ hw hact => ?_⟩
        have htame := h.unfollowed.deleteAct_tame he hact
        refine ⟨hw.1.act htame, fun r e' he' hfile hK => ?_⟩
        refine (hw.2 r e' he' hfile hK).imp_right fun hright => hright.stays ?_
        refine stays_run_of_clear (fun y hy => hw.1.clear y (htame.resolves y hy)) ?_
        refine h.unfollowed.deleteAct_misses he hnone he' (fun hb => ?_) hact
        exact h.apart.deletion hb hmode x r e e' he hnone hprotected he' hfile hK
      exact (ensures_deletesWhen _ hpush hdeletes ht).mono_always fun _ _ => trivial
    · unfold deletesWhen
      rw [if_neg hmode]
      exact ⟨trivial, ht⟩
  · intro r e he
    refine ⟨hpush, fun w change _ hw hchange => ?_⟩
    obtain ⟨modified, rfl⟩ := hchange
    refine ⟨hw.1.act (@Unfollowed.entryAct_tame _ _ _ _ _ _ _ h.unfollowed he w.fs
      (.mtime modified)),
      fun r' e' he' hfile hK => ?_⟩
    refine (hw.2 r' e' he' hfile hK).imp_right fun hright => hright.stays (Or.inl ?_)
    show (w.fs.setMtime _ modified).2.content _ = _
    rw [content_setMtime]

end Stages

/-! ## File systems without symlinks -/

theorem Side.below (hbelow : Below dk run.dest) (hsource : TreeEntries fs sk run.sourceEntries)
    (hdest : TreeEntries fs dk run.destEntries) {path : PathBuf} (h : run.Side path) :
    Below dk path := by
  cases h with
  | staging => exact below_delayedUpdatePath hbelow _
  | backup hbackup he =>
      rw [join_key]
      exact below_backup_join (hsource.ne_nil _ _ he) hbelow hbelow
  | deletion hbackup he =>
      rw [hdest.path_eq he, Key.path_append]
      refine below_backup_join (hdest.ne_nil _ _ he) hbelow ?_
      exact below_of_names (names_key dk) (List.prefix_refl dk)
  | basis => exact below_basisFilePath hbelow _ _

/-- Where there are no symlinks none is followed. -/
theorem unfollowed_of_trees (hdry : run.options.dryRun = false) (hd : run.dest.names = some dk)
    (hsd : ¬ sk <+: dk) (hds : ¬ dk <+: sk) (hsource : TreeEntries fs sk run.sourceEntries)
    (hdest : TreeEntries fs dk run.destEntries) (hfree : SymlinkFree fs.content)
    (hmeasured : Measured fs) : run.Unfollowed fs sk dk := by
  refine ⟨hdry, hd, hsd, hds, hsource,
    fun x e he => ⟨hdest.ne_nil x e he, hdest.path_eq he⟩, fun y _ => hfree.clear y,
    fun path hside y hy => ⟨?_, fun q e he hsym => ?_⟩, hmeasured⟩
  · exact hside.below (below_of_names hd (List.prefix_refl dk)) hsource hdest y hy
  · obtain ⟨bytes, hc⟩ := hsource.content he
    exact absurd (hsym ▸ hc) (hfree _ bytes)

theorem unfollowed_of_symlinkFree {stack : Nat} {source dest : PathBuf} {options : SyncOptions}
    (hrun : Prepared stack fs source dest options run) (hdry : options.dryRun = false)
    (hwf : WellFormed fs) (hfree : SymlinkFree fs.content) (hmeasured : Measured fs)
    (hs : source.names = some sk) (hd : dest.names = some dk) (hsd : ¬ sk <+: dk)
    (hds : ¬ dk <+: sk) : run.Unfollowed fs sk dk :=
  unfollowed_of_trees (hrun.options_eq ▸ hdry) (hrun.dest_eq ▸ hd) hsd hds
    (hrun.sourceTree (hwf.noFollow_of_symlinkFree hfree _) hs) (hrun.destTree hwf hd) hfree hmeasured

end SyncRun

end RsyncWin.Fs
