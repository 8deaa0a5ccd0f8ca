import RsyncWin.Fs.PlainSync
import RsyncWin.Fs.SourceFrame

/-!
# A sync makes a mirror

With every file compared or copied and no option that leaves something out, a
sync that returns has brought all of the source to the destination, and a
deleting one nothing else. Deletions and type conflicts are handled over a
snapshot; the invariant of the transfer loop says what is right behind it and
that nothing without a source entry is new.
-/

namespace RsyncWin.Fs

open ByteString MemoryFileSystem

/-- The options of a sync that copies whatever differs. -/
structure MirrorOptions (options : SyncOptions) : Prop where
  recursive : options.recursive = true
  dryRun : options.dryRun = false
  updateMode : options.updateMode = .ignoreTimes ∨ options.updateMode = .checksum
  filterRules : options.filterRules.rules = []
  filesFrom : options.filesFrom = none
  maxSize : options.maxSize = none
  minSize : options.minSize = none
  existingOnly : options.existingOnly = false
  ignoreExisting : options.ignoreExisting = false
  skipNewerReceiver : options.skipNewerReceiver = false
  backup : options.backup = false
  delayUpdates : options.delayUpdates = false
  appendVerify : options.appendVerify = false
  fuzzy : options.fuzzy = false
  preserveHardLinks : options.preserveHardLinks = false
  compareDest : options.compareDest = []
  copyDest : options.copyDest = []
  linkDest : options.linkDest = []

/-- Files and directories only. -/
def Regular (c : PathTree Bytes Content) : Prop :=
  ∀ key a, c key = some a → a.1 = .file ∨ a.1 = .directory

theorem Regular.symlinkFree {c : PathTree Bytes Content} (h : Regular c) : SymlinkFree c := by
  intro key bytes hc
  rcases h key _ hc with h | h
  · cases h
  · cases h

instance (fs : MemoryFileSystem) : Decidable (Regular fs.content) :=
  decidable_of_iff (∀ entry ∈ fs.nodes.toList,
      entry.2.metadata.fileType = .file ∨ entry.2.metadata.fileType = .directory) <| by
    constructor
    · intro h key a hc
      obtain ⟨node, hget, rfl⟩ := get_of_content hc
      exact h (key, node) (Std.TreeMap.mem_toList_iff_getElem?_eq_some.mpr hget)
    · rintro h ⟨key, node⟩ hmem
      exact h key _ (content_of_get (Std.TreeMap.mem_toList_iff_getElem?_eq_some.mp hmem))

theorem MirrorOptions.plain {options : SyncOptions} (h : MirrorOptions options) :
    PlainOptions options :=
  ⟨h.dryRun, h.backup, h.delayUpdates, h.appendVerify, h.fuzzy, h.preserveHardLinks,
    h.compareDest, h.copyDest, h.linkDest⟩

/-! ## The invariant -/

/-- What is the same for the whole run: the source, and that only `left` is at the
destination without a source entry. -/
structure MirrorFrame (fs : MemoryFileSystem) (sk dk : Key) (sourceEntries : Entries)
    (left : Key → Prop) (w : World) : Prop where
  free : SymlinkFree w.fs.content
  source : ∀ x, sk <+: x → w.fs.content x = fs.content x
  rest : ∀ r, r ≠ [] → sourceEntries[r]? = none → (w.fs.content (dk ++ r)).isSome → left r

/-- The entry `r` is as it is to be, or the report says that it could not be. -/
def Mirrored (fs : MemoryFileSystem) (sk dk : Key) (dest : PathBuf) (r : Key) (w : World) : Prop :=
  (∃ b b', fs.content (sk ++ r) = some (.directory, b) ∧
    w.fs.content (dk ++ r) = some (.directory, b')) ∨
  (∃ bytes, fs.content (sk ++ r) = some (.file, bytes) ∧
    w.fs.content (dk ++ r) = some (.file, bytes)) ∨
  (.protectDelete (dest.join r.path) ∈ w.report ∧ (w.fs.content (dk ++ r)).isSome)

section Mirrored

variable {fs : MemoryFileSystem} {sk dk : Key} {dest : PathBuf} {sourceEntries : Entries}
  {left : Key → Prop} {w : World}

theorem Mirrored.isSome {r : Key} (h : Mirrored fs sk dk dest r w) :
    (w.fs.content (dk ++ r)).isSome := by
  rcases h with ⟨b, b', -, h⟩ | ⟨bytes, -, h⟩ | ⟨-, h⟩
  · rw [h]
    rfl
  · rw [h]
    rfl
  · exact h

theorem Mirrored.stays {r : Key} {w' : World} (h : Mirrored fs sk dk dest r w)
    (hreport : ∀ action ∈ w.report, action ∈ w'.report)
    (hstays : Stays w.fs.content w'.fs.content (dk ++ r)) : Mirrored fs sk dk dest r w' := by
  rcases h with ⟨b, b', hs, h⟩ | ⟨bytes, hs, h⟩ | ⟨hmem, h⟩
  · exact Or.inl ⟨b, b', hs, hstays.some h⟩
  · exact Or.inr (Or.inl ⟨bytes, hs, hstays.some h⟩)
  · obtain ⟨c, hc⟩ := Option.isSome_iff_exists.mp h
    refine Or.inr (Or.inr ⟨hreport _ hmem, ?_⟩)
    rw [hstays.some hc]
    rfl

theorem MirrorFrame.mono {left' : Key → Prop} (h : MirrorFrame fs sk dk sourceEntries left w)
    (hleft : ∀ r, r ≠ [] → sourceEntries[r]? = none → (w.fs.content (dk ++ r)).isSome →
      left r → left' r) :
    MirrorFrame fs sk dk sourceEntries left' w :=
  ⟨h.free, h.source, fun r hne hnone hr => hleft r hne hnone hr (h.rest r hne hnone hr)⟩

/-- A change at `q` of the destination that makes nothing off the way to it. -/
theorem MirrorFrame.act (hsd : ¬ sk <+: dk) (hds : ¬ dk <+: sk)
    (h : MirrorFrame fs sk dk sourceEntries left w) (q : Key) {change : FsAct}
    (hchange : ∀ path target, change ≠ .createSymlink path target)
    (haway : ∀ x, ¬ x <+: dk ++ q → (change.run w.fs).2.content x = w.fs.content x ∨
      (change.run w.fs).2.content x = none ∧ dk ++ q <+: x)
    (hway : ∀ r, r ≠ [] → sourceEntries[r]? = none → r <+: q →
      ((change.run w.fs).2.content (dk ++ r)).isSome → (w.fs.content (dk ++ r)).isSome) :
    MirrorFrame fs sk dk sourceEntries left { w with fs := (change.run w.fs).2 } := by
  refine ⟨symlinkFree_run h.free hchange, fun x hx => ?_, fun r hne hnone hr => ?_⟩
  · rw [← h.source x hx]
    refine (haway x fun hpre => ?_).resolve_right fun hgone => ?_
    · rcases List.prefix_or_prefix_of_prefix (hx.trans hpre) (List.prefix_append dk q) with h | h
      · exact hsd h
      · exact hds h
    · exact not_prefix_of_apart hsd hds hx ((List.prefix_append dk q).trans hgone.2)
  · refine h.rest r hne hnone ?_
    by_cases hpre : r <+: q
    · exact hway r hne hnone hpre hr
    · rcases haway (dk ++ r) fun h => hpre ((List.prefix_append_right_inj dk).mp h) with h | ⟨h, -⟩
      · rwa [h] at hr
      · rw [h] at hr
        cases hr

end Mirrored

namespace SyncRun

variable {run : SyncRun} {fs : MemoryFileSystem} {sk dk : Key}

/-- The invariant between two steps: `right` are the entries that are done. -/
structure Mirroring (run : SyncRun) (fs : MemoryFileSystem) (sk dk : Key)
    (left right : Key → Prop) (w : World) : Prop where
  frame : MirrorFrame fs sk dk run.sourceEntries left w
  done : ∀ r, right r → Mirrored fs sk dk run.dest r w

theorem Mirroring.push {left right : Key → Prop} {w : World} (action : SyncAction)
    (h : run.Mirroring fs sk dk left right w) :
    run.Mirroring fs sk dk left right { w with report := w.report ++ [action] } := by
  refine ⟨⟨h.frame.free, h.frame.source, h.frame.rest⟩, fun r hr => ?_⟩
  exact (h.done r hr).stays (fun a ha => List.mem_append_left _ ha) (.refl _ _)

/-- What the two trees are for the run. -/
structure MirrorRun (run : SyncRun) (fs : MemoryFileSystem) (sk dk : Key) : Prop where
  options : MirrorOptions run.options
  regular : Regular fs.content
  dest : run.dest.names = some dk
  apart : ¬ sk <+: dk
  apart' : ¬ dk <+: sk
  source : TreeEntries fs sk run.sourceEntries
  destination : TreeEntries fs dk run.destEntries
  listed : ∀ r, r ≠ [] → (fs.content (dk ++ r)).isSome → (run.destEntries[r]?).isSome

theorem MirrorRun.entry_type (h : run.MirrorRun fs sk dk) {q : Key} {e : WalkEntry}
    (he : run.sourceEntries[q]? = some e) :
    e.metadata.fileType = .file ∨ e.metadata.fileType = .directory := by
  obtain ⟨bytes, hc⟩ := h.source.content he
  exact h.regular _ _ hc

/-- The transfer of an entry keeps what is done, if it is not done itself. -/
theorem MirrorRun.steps (h : run.MirrorRun fs sk dk) {left right : Key → Prop} {q : Key}
    {e : WalkEntry} (he : run.sourceEntries[q]? = some e)
    (hright : ∀ r, right r → (run.sourceEntries[r]?).isSome ∧ r ≠ q) :
    run.Steps (dk ++ q) q e (run.Mirroring fs sk dk left right) := by
  have hk := names_join_key h.dest q
  refine ⟨h.options.plain, hk, ⟨fun w action hw => hw.push action, fun w change _ hw hact => ?_⟩,
    fun t ht => ht.frame.free.clear _, fun t ht _ b => ht.frame.free _ b⟩
  refine ⟨hw.frame.act h.apart h.apart' q ?_ (fun x hx => ?_) ?_, fun r hr => ?_⟩
  · rintro path target rfl
    cases hact with
    | symlink _ hsym =>
        rcases h.entry_type he with htype | htype
        · rw [htype] at hsym
          cases hsym
        · rw [htype] at hsym
          cases hsym
  · exact (hact.away hk hx).imp_right fun hgone => ⟨hgone.1, hgone.2.1⟩
  · -- the way to an entry of the source is made of entries
    intro r hne hnone hpre _
    by_cases hrq : r = q
    · rw [hrq, he] at hnone
      cases hnone
    · obtain ⟨e', he', -⟩ := h.source.above_of_prefix hne hpre hrq he
      rw [he'] at hnone
      cases hnone
  · obtain ⟨hsome, hne⟩ := hright r hr
    obtain ⟨er, her⟩ := Option.isSome_iff_exists.mp hsome
    refine (hw.done r hr).stays (fun a ha => ha) (Or.inl ?_)
    by_cases hpre : r <+: q
    · obtain ⟨a, ha⟩ := Option.isSome_iff_exists.mp (hw.done r hr).isSome
      have hpre' := (List.prefix_append_right_inj dk).mpr hpre
      show (change.run w.fs).2.content (dk ++ r) = w.fs.content (dk ++ r)
      rw [hact.above hk hpre' (fun heq => hne (List.append_cancel_left heq)) ha, ha]
    · refine (hact.away hk fun h => hpre ((List.prefix_append_right_inj dk).mp h)).resolve_right ?_
      -- an entry that has an entry below it is a directory, and those are not cleared away
      rintro ⟨-, hbelow, hdir, -⟩
      obtain ⟨e', he', hdir'⟩ := h.source.above_of_prefix (h.source.ne_nil q e he)
        ((List.prefix_append_right_inj dk).mp hbelow) (Ne.symm hne) her
      obtain rfl : e = e' := Option.some.inj (he.symm.trans he')
      exact hdir hdir'

/-! ## Deletions -/

/-- A deletion keeps the entries of the source, none of which is below it. -/
theorem MirrorRun.delete_kept (h : run.MirrorRun fs sk dk) {left right : Key → Prop} {q : Key}
    {e : WalkEntry} (he : run.destEntries[q]? = some e) (hnone : run.sourceEntries[q]? = none)
    (hright : ∀ r, right r → (run.sourceEntries[r]?).isSome) :
    Kept run.options.dryRun (DeleteAct run.dest q e run.options)
      (run.Mirroring fs sk dk left right) := by
  refine ⟨fun w action hw => hw.push action, fun w change _ hw hact => ?_⟩
  have hk : e.path.names = some (dk ++ q) := by
    rw [h.destination.path_eq he]
    exact names_key _
  have haway := fun x => hact.away h.options.backup hk x
  refine ⟨hw.frame.act h.apart h.apart' q ?_ (fun x _ => ?_) (fun r _ _ _ hr => ?_), fun r hr => ?_⟩
  · rintro path target rfl
    cases hact
  · refine (haway x).imp_right fun hgone => ⟨hgone.1, ?_⟩
    rcases hgone.2 with rfl | ⟨-, hpre⟩
    · exact List.prefix_refl _
    · exact hpre
  · rcases haway (dk ++ r) with heq | ⟨hgone, -⟩
    · rwa [heq] at hr
    · rw [hgone] at hr
      cases hr
  refine (hw.done r hr).stays (fun a ha => ha) (Or.inl ((haway _).resolve_right ?_))
  rintro ⟨-, hbelow⟩
  have hpre : q <+: r := by
    rcases hbelow with heq | ⟨-, hpre⟩
    · exact (List.append_cancel_left heq) ▸ List.prefix_refl r
    · exact (List.prefix_append_right_inj dk).mp hpre
  obtain ⟨er, her⟩ := Option.isSome_iff_exists.mp (hright r hr)
  by_cases hqr : q = r
  · rw [hqr, her] at hnone
    cases hnone
  · obtain ⟨e', he', -⟩ := h.source.above_of_prefix (h.destination.ne_nil q e he) hpre hqr her
    rw [he'] at hnone
    cases hnone

theorem isProtected_mirror {options : SyncOptions} (hoptions : MirrorOptions options) (r : Key)
    (fileType : FileType) : isProtected options r fileType = false := by
  unfold isProtected deleteIsProtected
  rw [hoptions.filesFrom, Option.any_none, Bool.false_or, List.any_eq_false]
  rintro ⟨current, kind⟩ -
  simp [RuleSet.decideForSide, hoptions.filterRules]

/-- The decisions of a plan leave nothing without a source entry. -/
theorem MirrorRun.ensures_applyDecisions (h : run.MirrorRun fs sk dk)
    {decisions : List IncrementalDeleteDecision}
    (hplan : Plan run.sourceEntries run.destEntries run.options decisions)
    {right : Key → Prop} (hright : ∀ r, right r → (run.sourceEntries[r]?).isSome) {w : World}
    (hw : run.Mirroring fs sk dk (fun r => (run.destEntries[r]?).isSome) right w) :
    (applyDecisions run.dest run.destEntries run.options 0 decisions).Ensures syncHandler
      (fun _ => True) (fun _ => run.Mirroring fs sk dk (fun _ => False) right) w := by
  -- what is left has a decision that is still to come
  let K : List IncrementalDeleteDecision → World → Prop := fun ds t =>
    run.Mirroring fs sk dk (fun r => ∃ d ∈ ds, d.relative = r) right t ∧ ∀ d ∈ ds, d ∈ decisions
  have hcons : ∀ {d ds t}, K (d :: ds) t → t.fs.content (dk ++ d.relative) = none → K ds t := by
    rintro d ds t ⟨hmirror, hmem⟩ hnone
    refine ⟨⟨hmirror.frame.mono fun r _ _ hr hleft => ?_, hmirror.done⟩,
      fun d' hd' => hmem d' (List.mem_cons_of_mem _ hd')⟩
    obtain ⟨d', hd', rfl⟩ := hleft
    rcases List.mem_cons.mp hd' with rfl | hd'
    · rw [hnone] at hr
      cases hr
    · exact ⟨d', hd', rfl⟩
  have hkey : ∀ {q : Key} {e}, run.destEntries[q]? = some e → e.path.names = some (dk ++ q) := by
    intro q e he
    rw [h.destination.path_eq he]
    exact names_key _
  have hrule : (applyDecisions run.dest run.destEntries run.options 0 decisions).Ensures
      syncHandler (fun _ => True) (fun _ t => ∃ _ : Nat, K [] t) w := by
    refine Fs.ensures_applyDecisions (K := fun _ => K) (fun _ _ _ _ => trivial) ?_ ?_ ?_
      (fun d hd => (hplan.entry d hd).imp fun _ h => h.1)
      ⟨⟨hw.frame.mono fun r _ hnone _ hr => ?_, hw.done⟩, fun d hd => hd⟩
    · intro n d ds t e ht he hex
      refine hcons ht ?_
      rw [existsAt_iff (hkey he)] at hex
      simpa using hex
    · intro n d ds t e ht he hprot
      obtain ⟨e', -, -, hdec⟩ := hplan.entry d (ht.2 d List.mem_cons_self)
      rw [hprot, isProtected_mirror h.options] at hdec
      cases hdec
    · intro n d ds t e ht he _ _ _
      obtain ⟨e', he', hnone, -⟩ := hplan.entry d (ht.2 d List.mem_cons_self)
      have hboth := (ensures_deleteReceiverEntry (h.delete_kept he hnone hright) ht.1).and
        (ensures_deleteReceiverEntry_gone h.options.dryRun run.dest d.relative (hkey he))
      refine (hboth.mono_always fun _ _ => trivial).mono fun _ u hu => ?_
      exact hcons ⟨hu.1, ht.2⟩ hu.2.1
    · obtain ⟨e, he⟩ := Option.isSome_iff_exists.mp hr
      exact hplan.all r e he hnone
  refine hrule.mono fun _ t ⟨m, hmirror, _⟩ => ?_
  exact ⟨hmirror.frame.mono fun r _ _ _ ⟨d, hd, _⟩ => absurd hd (by simp), hmirror.done⟩

end SyncRun

/-! ## One entry -/

section Entry

variable {options : SyncOptions} {target : PathBuf} {key : Key}

/-- Only a file that is equal needs no update. -/
theorem readFile_of_fileNeedsUpdate (hoptions : MirrorOptions options) {entry : WalkEntry}
    {fs : MemoryFileSystem} (htype : ∀ a, fs.content key = some a → a.1 = .file)
    (hk : target.names = some key) (h : fileNeedsUpdate fs entry target options = .ok false) :
    ∃ bytes, fs.readFile entry.path = .ok bytes ∧ fs.readFile target = .ok bytes := by
  unfold fileNeedsUpdate at h
  simp only [hoptions.maxSize, hoptions.minSize, Option.any_none, Bool.false_eq_true, if_false] at h
  cases hmeta : fs.metadata target with
  | error e =>
      rw [hmeta] at h
      simp [hoptions.existingOnly] at h
  | ok metadata =>
      obtain ⟨b, hc⟩ := content_of_metadata hk hmeta
      have hfile : metadata.fileType = .file := htype _ hc
      rw [hmeta] at h
      simp only [hfile, ne_eq, not_true_eq_false, if_false, hoptions.ignoreExisting,
        hoptions.skipNewerReceiver, Bool.false_and, Bool.false_eq_true] at h
      rcases hoptions.updateMode with hmode | hmode
      · rw [hmode] at h
        cases h
      · rw [hmode] at h
        cases hequal : fs.filesEqual entry.path target with
        | error e =>
            rw [hequal] at h
            cases h
        | ok equal =>
            rw [hequal] at h
            cases equal with
            | true => exact readFile_of_filesEqual hequal
            | false => cases h

end Entry

namespace SyncRun

variable {run : SyncRun} {fs : MemoryFileSystem} {sk dk : Key} {left right : Key → Prop}
  {q : Key} {e : WalkEntry} {w : World}

/-- After its transfer an entry is done, and so is what was done before. -/
theorem MirrorRun.ensures_syncEntry (h : run.MirrorRun fs sk dk)
    (he : run.sourceEntries[q]? = some e)
    (hright : ∀ r, right r → (run.sourceEntries[r]?).isSome ∧ r ≠ q)
    (hw : run.Mirroring fs sk dk left right w) (state : TransferState) :
    (run.syncEntry q e state).Ensures syncHandler (fun _ => True)
      (fun state' t => run.Mirroring fs sk dk left (fun r => right r ∨ r = q) t ∧
        Advances run q e state state') w := by
  have hsteps : run.Steps (dk ++ q) q e (run.Mirroring fs sk dk left right) := h.steps he hright
  have hfail : ∀ err t, run.Mirroring fs sk dk left right t →
      (run.afterFailure state err).Ensures syncHandler (fun _ => True) (fun _ _ => False) t :=
    fun err t _ => ensures_afterFailure_true state err t
  obtain ⟨b, hs⟩ := h.source.content he
  have hdone : ∀ t, run.Mirroring fs sk dk left right t → Mirrored fs sk dk run.dest q t →
      run.Mirroring fs sk dk left (fun r => right r ∨ r = q) t := by
    refine fun t ht hq => ⟨ht.frame, fun r hr => ?_⟩
    rcases hr with hr | rfl
    · exact ht.done r hr
    · exact hq
  unfold syncEntry
  rcases h.entry_type he with hfile | hdir
  · simp only [hfile]
    rw [hfile] at hs
    -- the source is as it was when it was walked
    have hread : ∀ u, run.Mirroring fs sk dk left right u → u.fs.readFile e.path = .ok b := by
      intro u hu
      rw [h.source.path_eq he]
      refine readFile_of_content (names_key _) ?_
      rw [hu.frame.source _ (List.prefix_append sk q), hs]
    refine (hsteps.ensures_syncFile (fun _ _ => trivial) hfail hfile hw).mono fun state' t ht => ?_
    obtain ⟨hmirror, hadv, hpost⟩ := ht
    refine ⟨hdone t hmirror ?_, hadv⟩
    rcases hpost with hprotect | ⟨u, hu, ⟨htype, hneeds, hsame⟩ | ⟨bytes, hcopied, hc⟩⟩
    · exact Or.inr (Or.inr hprotect.2)
    · obtain ⟨bytes, hleft, hright⟩ :=
        readFile_of_fileNeedsUpdate h.options htype hsteps.names hneeds
      rw [hread u hu] at hleft
      cases hleft
      have hc := content_of_readFile hsteps.names (fun b => hu.frame.free _ b) hright
      exact Or.inr (Or.inl ⟨b, hs, hsame.trans hc⟩)
    · rw [hread u hu] at hcopied
      cases hcopied
      exact Or.inr (Or.inl ⟨b, hs, hc⟩)
  · simp only [hdir]
    rw [hdir] at hs
    refine ((hsteps.ensures_syncDirectory hdir hw).mono_always fun _ _ => trivial).mono ?_
    rintro state' t ⟨hmirror, hadv, hpost⟩
    obtain ⟨b', hc⟩ := hpost h.options.recursive
    exact ⟨hdone t hmirror (Or.inl ⟨b, b', hs, hc⟩), hadv⟩

/-- What may still be there without a source entry, once the deletions of `modes`
are done. -/
def Remaining (run : SyncRun) (modes : List DeleteMode) (r : Key) : Prop :=
  run.options.effectiveDeleteMode ∉ modes ∧ (run.destEntries[r]?).isSome

theorem MirrorRun.ensures_deletesWhen (h : run.MirrorRun fs sk dk) {before modes after : List DeleteMode}
    (hnone : .none ∉ modes) (hafter : ∀ mode, mode ∉ before → mode ∉ modes → mode ∉ after)
    (hright : ∀ r, right r → (run.sourceEntries[r]?).isSome)
    (hw : run.Mirroring fs sk dk (run.Remaining before) right w) :
    (run.deletesWhen modes).Ensures syncHandler (fun _ => True)
      (fun _ => run.Mirroring fs sk dk (run.Remaining after) right) w := by
  refine ensures_deletesWhen_plan hnone trivial (fun hoff => ?_) fun decisions _ hplan => ?_
  · refine ⟨hw.frame.mono fun r _ _ _ hr => ?_, hw.done⟩
    exact ⟨hafter _ hr.1 hoff, hr.2⟩
  · have hlisted : run.Mirroring fs sk dk (fun r => (run.destEntries[r]?).isSome) right w :=
      ⟨hw.frame.mono fun r _ _ _ hr => hr.2, hw.done⟩
    refine (h.ensures_applyDecisions hplan hright hlisted).mono fun _ t ht => ?_
    exact ⟨ht.frame.mono fun r _ _ _ hr => hr.elim, ht.done⟩

/-- A run that returns has made a mirror. -/
theorem MirrorRun.ensures_execute (h : run.MirrorRun fs sk dk) (actions : List SyncAction) :
    run.execute.Ensures syncHandler (fun _ => True)
      (fun _ => run.Mirroring fs sk dk (run.Remaining [.before, .during, .delay, .after])
        fun r => (run.sourceEntries[r]?).isSome) ⟨fs, actions⟩ := by
  have hall : ∀ (r : Key) e, (r, e) ∈ run.sourceEntries.toList → run.sourceEntries[r]? = some e :=
    fun r e hr => Std.TreeMap.mem_toList_iff_getElem?_eq_some.mp hr
  refine ensures_execute_stages (A := run.Mirroring fs sk dk (run.Remaining []) fun _ => False)
    (J := fun done state t => run.Mirroring fs sk dk (run.Remaining [.before, .during])
      (fun r => ∃ e, (r, e) ∈ done) t ∧ run.Staged state ∧ run.DirsNoted state)
    (B := run.Mirroring fs sk dk (run.Remaining [.before, .during])
      fun r => (run.sourceEntries[r]?).isSome)
    ?_ (fun _ _ => trivial) (fun _ _ _ _ => trivial) (fun _ _ => trivial) ?_ ?_
    (fun _ _ hJ => hJ.2.2) ?_ ?_ ?_ ?_
  · -- making the destination adds nothing below it
    refine ⟨fun w action hw => hw.push action, fun w change _ hw hchange => ?_⟩
    subst hchange
    refine ⟨hw.frame.act h.apart h.apart' [] (by simp) (fun x hx => Or.inl ?_) ?_, by simp⟩
    · rw [List.append_nil] at hx
      rw [FsAct.run, createDirAll_of_clear h.dest (hw.frame.free.clear dk), content_createDirs]
      exact PathTree.fill_of_not hx
    · intro r hne _ hpre
      exact absurd (List.prefix_nil.mp hpre) hne
  · intro t ht
    refine (h.ensures_deletesWhen (by decide) (fun mode _ h => h) (by simp) ht).mono ?_
    intro _ u hu
    exact ⟨⟨hu.frame, by simp⟩, by simp [Staged], by simp [DirsNoted]⟩
  · intro done q e rest state t hsplit hJ
    have he := getElem?_of_toList hsplit
    have hright : ∀ r, (∃ e, (r, e) ∈ done) → (run.sourceEntries[r]?).isSome ∧ r ≠ q := by
      rintro r ⟨e', hr⟩
      have hmem := hall r e' (hsplit ▸ List.mem_append_left _ hr)
      exact ⟨by rw [hmem]; rfl, key_ne_of_toList hsplit hr⟩
    refine (h.ensures_syncEntry he hright hJ.1 state).mono fun state' u hu => ?_
    refine ⟨⟨hu.1.frame, fun r hr => hu.1.done r ?_⟩, hJ.2.1.advance he hu.2,
      hJ.2.2.advance he hu.2⟩
    obtain ⟨e', hr⟩ := hr
    rcases List.mem_append.mp hr with hr | hr
    · exact Or.inl ⟨e', hr⟩
    · cases List.mem_singleton.mp hr
      exact Or.inr rfl
  · -- nothing is staged
    intro state t hJ
    rw [hJ.2.1.finish_eq h.options.plain]
    refine ⟨trivial, hJ.1.frame, fun r hr => hJ.1.done r ?_⟩
    obtain ⟨e, he⟩ := Option.isSome_iff_exists.mp hr
    exact ⟨e, Std.TreeMap.mem_toList_iff_getElem?_eq_some.mpr he⟩
  · intro t ht
    refine h.ensures_deletesWhen (by decide) ?_ (fun _ hr => hr) ht
    intro mode
    cases mode <;> simp
  · intro relative entry _
    refine ⟨fun w action hw => hw.push action, fun w change _ hw hchange => ?_⟩
    obtain ⟨modified, rfl⟩ := hchange
    have hcontent : (w.fs.setMtime (run.dest.join relative.path) modified).2.content =
        w.fs.content := content_setMtime _ _
    refine ⟨⟨?_, ?_, ?_⟩, fun r hr => (hw.done r hr).stays (fun a ha => ha) (Or.inl ?_)⟩
    · show SymlinkFree (w.fs.setMtime _ _).2.content
      rw [hcontent]
      exact hw.frame.free
    · show ∀ x, sk <+: x → (w.fs.setMtime _ _).2.content x = fs.content x
      rw [hcontent]
      exact hw.frame.source
    · show ∀ r, r ≠ [] → _ → ((w.fs.setMtime _ _).2.content (dk ++ r)).isSome → _
      rw [hcontent]
      exact hw.frame.rest
    · exact congrFun hcontent _
  · refine ⟨⟨h.regular.symlinkFree, fun x _ => rfl, fun r hne _ hr => ?_⟩, by simp⟩
    exact ⟨by simp, h.listed r hne hr⟩

end SyncRun

section Whole

variable {fs : MemoryFileSystem} {stack : Nat} {source dest : PathBuf} {options : SyncOptions}
  {sk dk : Key} {run : SyncRun}

theorem Prepared.mirrorRun (hrun : Prepared stack fs source dest options run)
    (hwf : WellFormed fs) (hregular : Regular fs.content) (hs : source.names = some sk)
    (hd : dest.names = some dk) (hsd : ¬ sk <+: dk) (hds : ¬ dk <+: sk)
    (hoptions : MirrorOptions options) : run.MirrorRun fs sk dk where
  options := hrun.options_eq ▸ hoptions
  regular := hregular
  dest := hrun.dest_eq ▸ hd
  apart := hsd
  apart' := hds
  source := hrun.sourceTree (hwf.noFollow_of_symlinkFree hregular.symlinkFree _) hs
  destination := hrun.destTree hwf hd
  listed _ hr hc := hrun.dest_listed hwf hd hoptions.recursive hr hc

end Whole

/-- A sync that returns has brought the whole source to the destination, a
deleting one nothing else, and the source is as it was. -/
theorem syncTree_mirrors {fs : MemoryFileSystem} {stack : Nat} {source dest : PathBuf}
    {options : SyncOptions} {sk dk : Key} {w : World} (hwf : WellFormed fs)
    (hregular : Regular fs.content) (hs : source.names = some sk) (hd : dest.names = some dk)
    (hdir : ∃ b, fs.content sk = some (.directory, b)) (hds : ¬ dk <+: sk)
    (hoptions : MirrorOptions options)
    (hok : (syncTree stack source dest options).run syncHandler ⟨fs, []⟩ = .ret () w) :
    (∀ x, sk <+: x → w.fs.content x = fs.content x) ∧
      (∀ r, r ≠ [] → (fs.content (sk ++ r)).isSome → Mirrored fs sk dk dest r w) ∧
      (options.effectiveDeleteMode ≠ .none → ∀ r, r ≠ [] →
        ((w.fs.content (dk ++ r)).isSome ↔ (w.fs.content (sk ++ r)).isSome)) := by
  refine Prog.Ensures.returns (I := fun _ => True) (Q := fun _ w =>
    (∀ x, sk <+: x → w.fs.content x = fs.content x) ∧
      (∀ r, r ≠ [] → (fs.content (sk ++ r)).isSome → Mirrored fs sk dk dest r w) ∧
      (options.effectiveDeleteMode ≠ .none → ∀ r, r ≠ [] →
        ((w.fs.content (dk ++ r)).isSome ↔ (w.fs.content (sk ++ r)).isSome)))
    (ensures_syncTree trivial ?_ ?_) hok
  · intro metadata hroots hfile
    obtain ⟨_, _, _, _, _, hmeta⟩ := checkRoots_eq_ok hroots
    obtain ⟨b, hc⟩ := content_of_metadata hs hmeta
    obtain ⟨b', hc'⟩ := hdir
    rw [hfile, hc'] at hc
    cases hc
  · intro metadata run hroots _ hprepare
    obtain ⟨sk', dk', hs', hd', hsd, -⟩ := checkRoots_eq_ok hroots
    obtain rfl : sk = sk' := Option.some.inj (hs.symm.trans hs')
    obtain rfl : dk = dk' := Option.some.inj (hd.symm.trans hd')
    have hrun := prepared_of_prepare hprepare
    have hmirror := hrun.mirrorRun hwf hregular hs hd hsd hds hoptions
    have hlisted : ∀ r, r ≠ [] → (fs.content (sk ++ r)).isSome →
        (run.sourceEntries[r]?).isSome := fun r hr hc =>
      hrun.source_listed hwf hregular.symlinkFree hs hoptions.filterRules hoptions.filesFrom
        hoptions.recursive hr hc
    refine (hmirror.ensures_execute []).mono fun _ w hw => ?_
    have hsource := hw.frame.source
    refine ⟨hsource, fun r hr hc => ?_, fun hmode r hr => ?_⟩
    · rw [← hrun.dest_eq]
      exact hw.done r (hlisted r hr hc)
    · rw [hsource _ (List.prefix_append sk r)]
      constructor
      · intro hc
        cases he : run.sourceEntries[r]? with
        | none =>
            -- every mode but none has deleted by now
            have hleft := (hw.frame.rest r hr he hc).1
            rw [hrun.options_eq] at hleft
            revert hmode hleft
            cases options.effectiveDeleteMode <;> simp
        | some e =>
            obtain ⟨bytes, hs⟩ := hmirror.source.content he
            rw [hs]
            rfl
      · intro hc
        exact (hw.done r (hlisted r hr hc)).isSome

/-- `f` is a directory at the destination and `g` a file, and `x` is extra. -/
theorem syncTree_mirrors_conflicts :
    (let fs := withFiles [([[0x73], [0x66]], [1]), ([[0x73], [0x67], [0x68]], [2]),
        ([[0x64], [0x66], [0x61]], [3]), ([[0x64], [0x67]], [4]), ([[0x64], [0x78]], [5])]
     let options : SyncOptions :=
       { dryRun := false, updateMode := .checksum, deleteMode := .after }
     let w := ((syncTree 8 (Key.path [[0x73]]) (Key.path [[0x64]]) options).run syncHandler
       ⟨fs, []⟩).state
     (∀ x, [[0x73]] <+: x → w.fs.content x = fs.content x) ∧
      (∀ r, r ≠ [] → (fs.content ([[0x73]] ++ r)).isSome →
        Mirrored fs [[0x73]] [[0x64]] (Key.path [[0x64]]) r w) ∧
      (options.effectiveDeleteMode ≠ .none → ∀ r, r ≠ [] →
        ((w.fs.content ([[0x64]] ++ r)).isSome ↔ (w.fs.content ([[0x73]] ++ r)).isSome))) := by
  refine syncTree_mirrors (by decide +kernel) (by decide +kernel) rfl rfl
    ⟨[], by decide +kernel⟩ (by decide) ?_ (Final.eq_ret (by decide +kernel))
  constructor
  case updateMode => exact Or.inr rfl
  all_goals rfl

/-- A newer file at the destination stays if newer files are to be skipped. -/
theorem syncTree_skips_newer :
    (let fs := ((((withFiles [([[0x73], [0x66]], [1]), ([[0x64], [0x66]], [2])]).setMtime
        (Key.path [[0x73], [0x66]]) 1).2).setMtime (Key.path [[0x64], [0x66]]) 2).2
     let options : SyncOptions :=
       { dryRun := false, updateMode := .ignoreTimes, skipNewerReceiver := true }
     let final := (syncTree 8 (Key.path [[0x73]]) (Key.path [[0x64]]) options).run syncHandler
       ⟨fs, []⟩
     final.returned = some () ∧ final.state.fs.content [[0x64], [0x66]] = some (.file, [2]) ∧
      fs.content [[0x73], [0x66]] = some (.file, [1]) ∧
      final.state.report = [.preserveMtime (Key.path [[0x64], [0x66]])]) := by
  decide +kernel

end RsyncWin.Fs
