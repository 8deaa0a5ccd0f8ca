import RsyncWin.Fs.Reach
import RsyncWin.Fs.PlainSync
import RsyncWin.Fs.Staging

/-!
# What lies ahead of the loop

Without symlinks, links, bases and backups the turn of an entry touches the nodes at
its target, those below a directory that makes way for a file, and the staging path.
Until its own turn a file therefore finds at its target, and below it, what was there
before the loop, and what making way and the check for an update see is local to that.
-/

namespace RsyncWin.Fs

open ByteString MemoryFileSystem

/-! ## Agreement below a path -/

/-- Two file systems have the same nodes at a path and below it. -/
def SameBelow (fs fs' : MemoryFileSystem) (key : Key) : Prop :=
  ∀ x, key <+: x → fs'.get x = fs.get x

section SameBelow

variable {fs fs' fs'' : MemoryFileSystem} {key : Key} {target : PathBuf} {options : SyncOptions}

theorem SameBelow.refl (fs : MemoryFileSystem) (key : Key) : SameBelow fs fs key :=
  fun _ _ => rfl

theorem SameBelow.symm (h : SameBelow fs fs' key) : SameBelow fs' fs key :=
  fun x hx => (h x hx).symm

theorem SameBelow.trans (h : SameBelow fs fs' key) (h' : SameBelow fs' fs'' key) :
    SameBelow fs fs'' key :=
  fun x hx => (h' x hx).trans (h x hx)

theorem SameBelow.of_prefix {k : Key} (h : SameBelow fs fs' k) (hk : k <+: key) :
    SameBelow fs fs' key :=
  fun x hx => h x (hk.trans hx)

theorem SameBelow.here (h : SameBelow fs fs' key) : fs'.get key = fs.get key :=
  h key (List.prefix_refl key)

theorem SameBelow.content (h : SameBelow fs fs' key) : fs'.content key = fs.content key := by
  unfold MemoryFileSystem.content PathTree.map
  rw [h.here]

theorem SameBelow.metadata (h : SameBelow fs fs' key) (hk : target.names = some key) :
    fs'.metadata target = fs.metadata target := by
  unfold MemoryFileSystem.metadata
  rw [normalizePortablePath_of_names hk]
  simp only [bind, Except.bind]
  rw [h.here]

/-- A directory with the same nodes in it is listed the same. -/
theorem SameBelow.list (h : SameBelow fs fs' key) (hk : target.names = some key) :
    fs'.list target = fs.list target :=
  MemoryFileSystem.list_congr hk h.here fun name => h _ (List.prefix_append key [name])

theorem SameBelow.keepsDirectory (h : SameBelow fs fs' key) (hk : target.names = some key) :
    keepsDirectory fs' target options = keepsDirectory fs target options := by
  unfold RsyncWin.Fs.keepsDirectory
  rw [h.list hk]

/-- Whether a file needs an update is decided at its target, unless bytes are compared. -/
theorem SameBelow.fileNeedsUpdate (h : SameBelow fs fs' key) (hk : target.names = some key)
    (hmode : options.updateMode ≠ .checksum) (entry : WalkEntry) :
    fileNeedsUpdate fs' entry target options = fileNeedsUpdate fs entry target options := by
  unfold RsyncWin.Fs.fileNeedsUpdate
  rw [h.metadata hk]
  cases hupdate : options.updateMode with
  | checksum => exact absurd hupdate hmode
  | ignoreTimes => rfl
  | sizeOnly => rfl
  | quickCheck => rfl

/-- Directories with the same nodes in them are removed alike. -/
theorem SameBelow.removeDirAll (h : SameBelow fs fs' key) (hk : target.names = some key) :
    (fs'.removeDirAll target).1 = (fs.removeDirAll target).1 ∧
      SameBelow (fs.removeDirAll target).2 (fs'.removeDirAll target).2 key := by
  have hany : (fs'.nodes.keys.any fun candidate => key.isPrefixOf candidate) =
      (fs.nodes.keys.any fun candidate => key.isPrefixOf candidate) := by
    rw [Bool.eq_iff_iff, List.any_eq_true, List.any_eq_true]
    refine exists_congr fun x => and_congr_left fun hpre => ?_
    rw [mem_keys, mem_keys, h x (List.isPrefixOf_iff_prefix.mp hpre)]
  unfold MemoryFileSystem.removeDirAll
  rw [normalizePortablePath_of_names hk]
  simp only [hany]
  split
  · exact ⟨rfl, h⟩
  · split
    · refine ⟨rfl, fun x hx => ?_⟩
      rw [get_eraseBelow, get_eraseBelow, PathTree.prune_of_prefix hx, PathTree.prune_of_prefix hx]
    · exact ⟨rfl, h⟩

theorem SameBelow.removeFile (h : SameBelow fs fs' key) (hk : target.names = some key) :
    (fs'.removeFile target).1 = (fs.removeFile target).1 ∧
      SameBelow (fs.removeFile target).2 (fs'.removeFile target).2 key := by
  unfold MemoryFileSystem.removeFile
  rw [normalizePortablePath_of_names hk]
  simp only [h.here]
  split
  · exact ⟨rfl, h⟩
  · split
    · exact ⟨rfl, h⟩
    · refine ⟨rfl, fun x hx => ?_⟩
      rw [get_erase, get_erase, Function.update_apply, Function.update_apply, h x hx]

end SameBelow

/-! ## Making way for a file -/

section Way

variable {w w' t : World} {key : Key} {destRoot target relative : PathBuf} {options : SyncOptions}
  {flag : Bool}

theorem run_act (change : FsAct) (w : World) : (act change).run syncHandler w =
    match (change.run w.fs).1 with
    | .ok _ => .ret () { w with fs := (change.run w.fs).2 }
    | .error e => .fail e { w with fs := (change.run w.fs).2 } := by
  show (Prog.ofExcept (S := SyncSig) (change.run w.fs).1).run syncHandler _ = _
  cases (change.run w.fs).1 <;> rfl

/-- What the run of making way comes to, by the node at the target. -/
theorem run_makeWay (hdry : options.dryRun = false) (hbackup : options.backup = false)
    (hk : target.names = some key) :
    (removeConflictingTarget destRoot target relative .file options).run syncHandler w =
      match w.fs.get key with
      | none => .ret true w
      | some node =>
          if node.metadata.fileType = .file then .ret true w
          else if node.metadata.fileType = .directory then
            match keepsDirectory w.fs target options with
            | .error e => .fail e w
            | .ok true => .ret false ⟨w.fs, w.report ++ [.protectDelete target]⟩
            | .ok false =>
                match (w.fs.removeDirAll target).1 with
                | .ok _ => .ret true ⟨(w.fs.removeDirAll target).2, w.report ++ [.deleteDir target]⟩
                | .error e => .fail e ⟨(w.fs.removeDirAll target).2, w.report ++ [.deleteDir target]⟩
          else
            match (w.fs.removeFile target).1 with
            | .ok _ => .ret true ⟨(w.fs.removeFile target).2, w.report ++ [.deleteFile target]⟩
            | .error e => .fail e ⟨(w.fs.removeFile target).2, w.report ++ [.deleteFile target]⟩ := by
  have hend : ∀ (action : SyncAction) (change : FsAct),
      (report action >>= fun _ => actUnlessDry options change >>= fun _ =>
        (pure true : SyncProg Bool)).run syncHandler w =
      match (change.run w.fs).1 with
      | .ok _ => .ret true ⟨(change.run w.fs).2, w.report ++ [action]⟩
      | .error e => .fail e ⟨(change.run w.fs).2, w.report ++ [action]⟩ := by
    intro action change
    unfold actUnlessDry
    rw [hdry]
    show ((act change) >>= fun _ => (pure true : SyncProg Bool)).run syncHandler
      ⟨w.fs, w.report ++ [action]⟩ = _
    rw [Prog.run_bind, run_act]
    cases (change.run w.fs).1 <;> rfl
  unfold removeConflictingTarget
  rw [run_look]
  cases hnode : w.fs.get key with
  | none =>
      rw [metadata_of_none hk hnode]
      rfl
  | some node =>
      have hlink : isKeptDirlink w.fs target node.metadata.fileType .file options = false := by
        simp [isKeptDirlink]
      simp only [metadata_of_get hk hnode, hlink, Bool.false_eq_true, if_false]
      split
      · rfl
      · split
        · cases keepsDirectory w.fs target options with
          | error e => rfl
          | ok keep =>
              cases keep with
              | true => rfl
              | false =>
                  simp only [Prog.ofExcept_ok, Prog.ret_bind, Bool.false_eq_true, if_false]
                  exact hend (.deleteDir target) (.removeDirAll target)
        · unfold backupReceiverFile
          simp only [hbackup, Bool.false_eq_true, if_false, Prog.pure_eq, Prog.ret_bind]
          exact hend (.deleteFile target) (.removeFile target)

/-- Making way sees and leaves the same below the target in both file systems. -/
theorem SameBelow.makeWay (h : SameBelow w.fs w'.fs key) (hdry : options.dryRun = false)
    (hbackup : options.backup = false) (hk : target.names = some key)
    (hrun : (removeConflictingTarget destRoot target relative .file options).run syncHandler w =
      .ret flag t) :
    ∃ t', (removeConflictingTarget destRoot target relative .file options).run syncHandler w' =
      .ret flag t' ∧ SameBelow t.fs t'.fs key := by
  obtain ⟨hdir, hbelow⟩ := h.removeDirAll hk
  obtain ⟨hfile, hbelow'⟩ := h.removeFile hk
  rw [run_makeWay hdry hbackup hk] at hrun ⊢
  rw [h.here, h.keepsDirectory hk, hdir, hfile]
  cases hnode : w.fs.get key with
  | none =>
      rw [hnode] at hrun
      cases hrun
      exact ⟨w', rfl, h⟩
  | some node =>
      rw [hnode] at hrun
      simp only at hrun ⊢
      by_cases htype : node.metadata.fileType = .file
      · rw [if_pos htype] at hrun ⊢
        cases hrun
        exact ⟨w', rfl, h⟩
      · rw [if_neg htype] at hrun ⊢
        by_cases hdirectory : node.metadata.fileType = .directory
        · rw [if_pos hdirectory] at hrun ⊢
          cases hkeep : RsyncWin.Fs.keepsDirectory w.fs target options with
          | error e => simp [hkeep] at hrun
          | ok keep =>
              rw [hkeep] at hrun
              cases keep with
              | true =>
                  cases hrun
                  exact ⟨⟨w'.fs, w'.report ++ [.protectDelete target]⟩, rfl, h⟩
              | false =>
                  simp only at hrun ⊢
                  cases hok : (w.fs.removeDirAll target).1 with
                  | error e => simp [hok] at hrun
                  | ok _ =>
                      rw [hok] at hrun
                      cases hrun
                      exact ⟨⟨(w'.fs.removeDirAll target).2, w'.report ++ [.deleteDir target]⟩, rfl,
                        hbelow⟩
        · rw [if_neg hdirectory] at hrun ⊢
          cases hok : (w.fs.removeFile target).1 with
          | error e => simp [hok] at hrun
          | ok _ =>
              rw [hok] at hrun
              cases hrun
              exact ⟨⟨(w'.fs.removeFile target).2, w'.report ++ [.deleteFile target]⟩, rfl,
                hbelow'⟩

end Way

/-! ## Runs without side files but staged ones -/

namespace SyncRun

/-- A run over trees without symlinks that keeps no backups, links nothing and asks no
other directories. -/
structure Sideless (run : SyncRun) (fs : MemoryFileSystem) (sk dk : Key) : Prop where
  dryRun : run.options.dryRun = false
  backup : run.options.backup = false
  preserveHardLinks : run.options.preserveHardLinks = false
  compareDest : run.options.compareDest = []
  copyDest : run.options.copyDest = []
  linkDest : run.options.linkDest = []
  dest : run.dest.names = some dk
  apart : ¬ sk <+: dk
  apart' : ¬ dk <+: sk
  source : TreeEntries fs sk run.sourceEntries
  destination : TreeEntries fs dk run.destEntries
  wellFormed : WellFormed fs
  free : SymlinkFree fs.content

/-- The paths whose nodes the turn of an entry may touch. -/
def TurnReaches (run : SyncRun) (dk q : Key) (e : WalkEntry) (y : Key) : Prop :=
  y = dk ++ q ∨ (e.metadata.fileType ≠ .directory ∧ dk ++ q <+: y) ∨
    (run.options.delayUpdates = true ∧ e.metadata.fileType = .file ∧
      (delayedUpdatePath run.dest q.path run.options).names = some y)

/-- The nodes of `S` are as they were, and there are no symlinks. -/
structure Holding (fs : MemoryFileSystem) (S : Key → Prop) (w : World) : Prop where
  free : SymlinkFree w.fs.content
  nodes : ∀ x, S x → w.fs.get x = fs.get x

/-- What is at or below a path of the set is in it. -/
def Downward (S : Key → Prop) : Prop := ∀ x y, S x → x <+: y → S y

section Sideless

variable {run : SyncRun} {fs fs₁ : MemoryFileSystem} {sk dk q r y : Key} {e e' : WalkEntry}
  {S : Key → Prop} {change : FsAct} {w : World}

theorem Sideless.names (h : run.Sideless fs sk dk) (q : Key) :
    (run.dest.join q.path).names = some (dk ++ q) :=
  names_join_key h.dest q

theorem Sideless.not_symlink (h : run.Sideless fs sk dk) (he : run.sourceEntries[q]? = some e) :
    e.metadata.fileType ≠ .symlink := by
  obtain ⟨bytes, hc⟩ := h.source.content he
  intro hsym
  rw [hsym] at hc
  exact h.free _ bytes hc

theorem Sideless.eq_of_prefix (h : run.Sideless fs sk dk) (he : run.sourceEntries[q]? = some e)
    (he' : run.sourceEntries[r]? = some e') (hne : e'.metadata.fileType ≠ .directory)
    (hpre : r <+: q) : r = q := by
  by_contra hrq
  obtain ⟨e'', he'', hdir⟩ := h.source.above_of_prefix (h.source.ne_nil r e' he') hpre hrq he
  obtain rfl : e' = e'' := Option.some.inj (he'.symm.trans he'')
  exact hne hdir

theorem Sideless.turnReaches (h : run.Sideless fs sk dk) {fs' : MemoryFileSystem}
    (hact : run.entryAct q e fs' change) (hy : change.Reaches y) :
    run.TurnReaches dk q e y := by
  have htarget : (run.dest.join q.path).names = some y → y = dk ++ q :=
    fun hy => Option.some.inj (hy.symm.trans (h.names q))
  cases hact with
  | makeDir hdir => exact Or.inl (htarget hy)
  | clearDir hmeta hdir hentry hkeep =>
      obtain ⟨key, hkey, hpre⟩ := hy
      rw [h.names, Option.some.injEq] at hkey
      subst hkey
      refine Or.inr (Or.inl ⟨?_, hpre⟩)
      rcases hentry with hentry | hentry <;> simp [hentry]
  | clearFile => exact Or.inl (htarget hy)
  | backup hbackup =>
      rw [h.backup] at hbackup
      cases hbackup
  | link existing hfile hlink =>
      rcases hlink with ⟨hpreserve, -⟩ | ⟨dir, hdir, -⟩
      · rw [h.preserveHardLinks] at hpreserve
        cases hpreserve
      · rw [h.linkDest] at hdir
        cases hdir
  | copy source mode hfile => exact Or.inl (htarget hy)
  | stage hdelay hfile => exact Or.inr (Or.inr ⟨hdelay, hfile, hy⟩)
  | append offset happend hfile => exact Or.inl (htarget hy)
  | symlink linkTarget hsym => exact Or.inl (htarget hy)
  | mtime modified => exact Or.inl (htarget hy)
  | settle hdelay hfile =>
      exact hy.elim (fun hy => Or.inr (Or.inr ⟨hdelay, hfile, hy⟩)) fun hy => Or.inl (htarget hy)
  | unstage hdelay hfile => exact Or.inr (Or.inr ⟨hdelay, hfile, hy⟩)

theorem Holding.act (hw : Holding fs₁ S w) (hS : Downward S)
    (hsym : ∀ path target, change ≠ .createSymlink path target)
    (hlink : ∀ existing link, change ≠ .createHardLink existing link)
    (hmiss : ∀ y, change.Reaches y → ¬ S y) :
    Holding fs₁ S { w with fs := (change.run w.fs).2 } := by
  refine ⟨symlinkFree_run hw.free hsym, fun x hx => (?_ : _ = w.fs.get x).trans (hw.nodes x hx)⟩
  have hframed := @framed_run _ id _ w.fs hw.free _
    (fun existing link hchange => absurd hchange (hlink existing link)) hmiss
  rcases hframed x (not_not.mpr hx) with heq | ⟨-, -, path, hpath, hpre⟩
  · simpa using heq
  · exact absurd (hS x path hx hpre) hpath

/-- A turn that reaches no path of a set holds it. -/
theorem Sideless.kept_holding (h : run.Sideless fs sk dk) (he : run.sourceEntries[q]? = some e)
    (hS : Downward S) (hmiss : ∀ y, run.TurnReaches dk q e y → ¬ S y) :
    Kept run.options.dryRun (run.entryAct q e) (Holding fs₁ S) := by
  refine ⟨fun w action hw => ⟨hw.free, hw.nodes⟩, fun w change _ hw hact => ?_⟩
  refine hw.act hS ?_ ?_ fun y hy => hmiss y (h.turnReaches hact hy)
  · rintro path target rfl
    cases hact with
    | symlink _ hsym => exact h.not_symlink he hsym
  · rintro existing link rfl
    cases hact with
    | link _ _ hlink =>
        rcases hlink with ⟨hpreserve, -⟩ | ⟨dir, hdir, -⟩
        · rw [h.preserveHardLinks] at hpreserve
          cases hpreserve
        · rw [h.linkDest] at hdir
          cases hdir

/-- What no turn up to a point reaches is as it was when the loop began. -/
theorem Sideless.reached_holding (h : run.Sideless fs sk dk) (hS : Downward S)
    {done : List (Key × WalkEntry)} {state : TransferState} {w₀ w₁ : World}
    (hdone : ∀ q e, (q, e) ∈ done → run.sourceEntries[q]? = some e ∧
      ∀ y, run.TurnReaches dk q e y → ¬ S y)
    (hprologue : run.prologue.run syncHandler w₀ = .ret () w₁) (hfree : SymlinkFree w₁.fs.content)
    (hreached : run.Reached w₀ done state w) : Holding w₁.fs S w := by
  obtain ⟨start, hstart, hloop⟩ := hreached
  cases hprologue.symm.trans hstart
  let J : List (Key × WalkEntry) → TransferState → World → Prop := fun _ state t =>
    Holding w₁.fs S t ∧ Remembered run.Linked state
  have hall : (run.syncEntries 0 done {}).Ensures syncHandler (fun _ => True)
      (fun state t => J done state t) w₁ := by
    refine ensures_syncEntries (J := J) (fun _ _ _ _ => trivial) ?_ (List.nil_append done).symm
      ⟨⟨hfree, fun _ _ => rfl⟩, remembered_empty _⟩
    intro done' q e rest state t hsplit ht
    obtain ⟨he, hmiss⟩ := hdone q e (by simp [hsplit])
    refine (ensures_syncEntry (fun _ _ => trivial) (h.kept_holding he hS hmiss)
      (fun err t (_ : Holding w₁.fs S t) => ensures_afterFailure_true state err t) ht.2 ht.1).mono ?_
    exact fun state' t ht' => ⟨ht'.1, ht'.2.remembered he ht.2⟩
  exact (hall.returns hloop).1

end Sideless

end SyncRun

end RsyncWin.Fs
