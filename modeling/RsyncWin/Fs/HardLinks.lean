import RsyncWin.Fs.Bringing

/-!
# Hard links

A file of a group is linked to the target that the loop has remembered for its group.
What is remembered is taken from transfers, and from files that were found to need no
update, for whatever reason. A link gives a file its own bytes as long as those
targets have theirs.
-/

namespace RsyncWin.Fs

open ByteString MemoryFileSystem

/-! ## Reports -/

section Report

variable {α β : Type} {w t : World} {action : SyncAction}

/-- What is reported stays reported. -/
theorem report_prefix_run (p : SyncProg α) (w : World) :
    w.report <+: (p.run syncHandler w).state.report := by
  induction p generalizing w with
  | ret a => exact List.prefix_refl _
  | fail e => exact List.prefix_refl _
  | call o k ih =>
      cases o with
      | look => exact ih w.fs w
      | act change => exact ih (change.run w.fs).1 { w with fs := (change.run w.fs).2 }
      | push action =>
          exact (List.prefix_append _ _).trans (ih () { w with report := w.report ++ [action] })

theorem report_prefix_bind (p : SyncProg α) (k : α → SyncProg β) (w : World) :
    (p.run syncHandler w).state.report <+: ((p >>= k).run syncHandler w).state.report := by
  rw [Prog.run_bind]
  cases p.run syncHandler w with
  | ret a t => exact report_prefix_run (k a) t
  | fail e t => exact List.prefix_refl _
  | wait t => exact List.prefix_refl _

theorem reported_bind {p : SyncProg α} {k : α → SyncProg β}
    (h : action ∈ (p.run syncHandler w).state.report) :
    action ∈ ((p >>= k).run syncHandler w).state.report :=
  (report_prefix_bind p k w).subset h

theorem reported_after {p : SyncProg α} {k : α → SyncProg β} {a : α}
    (hp : p.run syncHandler w = .ret a t) (h : action ∈ ((k a).run syncHandler t).state.report) :
    action ∈ ((p >>= k).run syncHandler w).state.report := by
  rwa [Prog.run_bind_ret hp]

theorem reported_attempt {p : SyncProg α}
    (h : action ∈ (p.run syncHandler w).state.report) :
    action ∈ (p.attempt.run syncHandler w).state.report := by
  rw [Prog.run_attempt]
  cases hp : p.run syncHandler w with
  | ret a t =>
      rw [hp] at h
      exact h
  | fail e t =>
      rw [hp] at h
      exact h
  | wait t =>
      rw [hp] at h
      exact h

end Report

namespace SyncRun

variable {run : SyncRun} {fs : MemoryFileSystem} {sk dk : Key}

/-! ## Turns that link -/

/-- The loop links the file `q` to the remembered target `existing` of its group: its
turn has made way, found that it needs an update, and looked the group up. -/
inductive LinkTurn (run : SyncRun) (w₀ : World) (q : Key) (existing : PathBuf) : Prop
  | intro {done rest : List (Key × WalkEntry)} {e : WalkEntry} {state : TransferState} {w u : World}
      (hsplit : run.sourceEntries.toList = done ++ (q, e) :: rest)
      (hreached : run.Reached w₀ done state w)
      (hcheck : checkSyncDeadline run.options.stopDeadline done.length = .ok ())
      (hfile : e.metadata.fileType = .file)
      (hway : (run.makeWay q).run syncHandler w = .ret true u)
      (hneeded : fileNeedsUpdate u.fs e (run.dest.join q.path) run.options = .ok true)
      (hpreserve : run.options.preserveHardLinks = true)
      (hgroup : e.metadata.hardlinkId.bind state.hardlinkTarget = some existing)

/-- A key has one place among the entries. -/
theorem split_unique {entries : Entries} {done rest done' rest' : List (Key × WalkEntry)} {q : Key}
    {e e' : WalkEntry} (h : entries.toList = done ++ (q, e) :: rest)
    (h' : entries.toList = done' ++ (q, e') :: rest') : done = done' ∧ e = e' := by
  rcases List.append_eq_append_iff.mp (h.symm.trans h') with
    ⟨between, hdone, htail⟩ | ⟨between, hdone, htail⟩
  · cases between with
    | nil =>
        rw [List.append_nil] at hdone
        exact ⟨hdone.symm, congrArg Prod.snd (List.cons.inj htail).1⟩
    | cons first between =>
        obtain rfl : (q, e) = first := (List.cons.inj htail).1
        exact absurd rfl (@key_ne_of_toList _ _ _ _ q _ e h' (by simp [hdone]))
  · cases between with
    | nil =>
        rw [List.append_nil] at hdone
        exact ⟨hdone, (congrArg Prod.snd (List.cons.inj htail).1).symm⟩
    | cons first between =>
        obtain rfl : (q, e') = first := (List.cons.inj htail).1
        exact absurd rfl (@key_ne_of_toList _ _ _ _ q _ e' h (by simp [hdone]))

/-- The turn of an entry is reached once. -/
theorem Reached.unique {w₀ w w' : World} {done : List (Key × WalkEntry)}
    {state state' : TransferState} (h : run.Reached w₀ done state w)
    (h' : run.Reached w₀ done state' w') : state = state' ∧ w = w' := by
  obtain ⟨start, hprologue, hdone⟩ := h
  obtain ⟨start', hprologue', hdone'⟩ := h'
  cases hprologue.symm.trans hprologue'
  cases hdone.symm.trans hdone'
  exact ⟨rfl, rfl⟩

/-- What a turn reports is in the report of the run. -/
theorem Reached.reported {w₀ w : World} {done rest : List (Key × WalkEntry)} {q : Key}
    {e : WalkEntry} {state : TransferState} {action : SyncAction}
    (hsplit : run.sourceEntries.toList = done ++ (q, e) :: rest)
    (hreached : run.Reached w₀ done state w)
    (hcheck : checkSyncDeadline run.options.stopDeadline done.length = .ok ())
    (h : action ∈ ((run.syncEntry q e state).run syncHandler w).state.report) :
    action ∈ (run.execute.run syncHandler w₀).state.report := by
  obtain ⟨start, hprologue, hdone⟩ := hreached
  rw [execute_eq]
  refine reported_after hprologue (reported_bind ?_)
  rw [hsplit, syncEntries_append]
  refine reported_after hdone ?_
  rw [Nat.zero_add, syncEntries, hcheck, Prog.ofExcept_ok, Prog.ret_bind]
  exact reported_bind h

/-- A link is reported. -/
theorem LinkTurn.reported {w₀ : World} {q : Key} {existing : PathBuf}
    (h : run.LinkTurn w₀ q existing) :
    .createHardLink existing (run.dest.join q.path) ∈
      (run.execute.run syncHandler w₀).state.report := by
  cases h with
  | intro hsplit hreached hcheck hfile hway hneeded hpreserve hgroup =>
      rename_i done rest e state w u
      have htransfer : .createHardLink existing (run.dest.join q.path) ∈
          ((transferFile run.dest (run.dest.join q.path) q.path e run.options state).run
            syncHandler u).state.report := by
        unfold transferFile
        refine reported_bind ?_
        unfold transferHardLink
        rw [if_pos hpreserve, hgroup]
        refine (report_prefix_run _ ⟨u.fs, u.report ++
          [.createHardLink existing (run.dest.join q.path)]⟩).subset ?_
        simp
      refine hreached.reported hsplit hcheck ?_
      unfold syncEntry
      rw [hfile]
      unfold syncFile
      refine reported_after hway ?_
      rw [if_pos rfl, run_look, hneeded, Prog.ofExcept_ok, Prog.ret_bind, if_pos rfl]
      exact reported_bind (reported_attempt htransfer)

/-! ## What is linked -/

/-- A run in which whatever is remembered for a group has the bytes of its source, and
so has whatever a basis directory gives to a file of a group. -/
structure LinksHonest (run : SyncRun) (fs : MemoryFileSystem) (sk dk : Key) : Prop where
  unfollowed : run.Unfollowed fs sk dk
  apart : run.Apart dk fun _ e => e.metadata.hardlinkId ≠ none
  one : run.OneContent fs sk
  turn : ∀ done rest q e state w, run.sourceEntries.toList = done ++ (q, e) :: rest →
    run.Reached ⟨fs, []⟩ done state w → e.metadata.fileType = .file →
    e.metadata.hardlinkId ≠ none → run.TurnHonest fs sk dk q e state w

/-- Where every file that is there is brought again, and from the source itself, the
turns are honest. -/
theorem turnHonest_of_ignoreTimes (hmode : run.options.updateMode = .ignoreTimes)
    (hmax : run.options.maxSize = none) (hmin : run.options.minSize = none)
    (hignore : run.options.ignoreExisting = false) (hexisting : run.options.existingOnly = false)
    (hskip : run.options.skipNewerReceiver = false) (hlink : run.options.linkDest = [])
    (hcopy : run.options.copyDest = []) (hcompare : run.options.compareDest = []) (q : Key)
    (e : WalkEntry) (state : TransferState) (w : World) :
    run.TurnHonest fs sk dk q e state w := by
  constructor
  · intro _ _ hidle
    unfold fileNeedsUpdate at hidle
    simp only [hmax, hmin, Option.any_none, Bool.false_eq_true, if_false, hexisting, hignore,
      hskip, Bool.false_and, hmode] at hidle
    repeat' split at hidle
    all_goals cases hidle
  · intro u v bytes _ _ _ _
    unfold BasisHonest
    rw [checkBasisDirs_nil hlink hcopy hcompare]
    trivial

/-- A file is to be brought if its turn links it. -/
def linkCharge (run : SyncRun) (fs : MemoryFileSystem) (sk : Key) : Charge where
  tracked _ e := e.metadata.hardlinkId ≠ none
  excused r _ := ∀ existing, ¬ run.LinkTurn ⟨fs, []⟩ r existing
  excused_push _ _ _ h := h
  good := SourceContent fs sk
  good_dir := sourceContent_dir

theorem turnExcused_link {done rest : List (Key × WalkEntry)} {q : Key} {e : WalkEntry}
    {state : TransferState} {w : World}
    (hsplit : run.sourceEntries.toList = done ++ (q, e) :: rest)
    (hreached : run.Reached ⟨fs, []⟩ done state w) :
    run.TurnExcused fs sk dk (run.linkCharge fs sk) q e w := by
  constructor
  · rintro t hway -
    refine Or.inl fun existing hlink => ?_
    obtain ⟨hsplit', hreached', -, -, hway', -, -, -⟩ := hlink
    obtain ⟨rfl, rfl⟩ := split_unique hsplit hsplit'
    obtain ⟨-, rfl⟩ := hreached.unique hreached'
    cases hway.symm.trans hway'
  · rintro u t hway - hidle -
    refine Or.inl fun existing hlink => ?_
    obtain ⟨hsplit', hreached', -, -, hway', hneeded, -, -⟩ := hlink
    obtain ⟨rfl, rfl⟩ := split_unique hsplit hsplit'
    obtain ⟨-, rfl⟩ := hreached.unique hreached'
    cases hway.symm.trans hway'
    cases hidle.symm.trans hneeded
  · exact fun _ bytes _ _ hbytes => ⟨bytes, hbytes, rfl⟩

/-- A file that has been linked has the bytes of its source when the run returns. -/
theorem LinksHonest.ensures_execute (h : run.LinksHonest fs sk dk) :
    run.execute.Ensures syncHandler (fun _ => True) (fun _ w => ∀ q existing,
      run.LinkTurn ⟨fs, []⟩ q existing → Right fs sk dk q w) ⟨fs, []⟩ := by
  have hcharged : run.Charged fs sk dk (run.linkCharge fs sk) :=
    ⟨h.unfollowed, h.apart, fun _ _ hid => hid⟩
  refine (hcharged.ensures_execute [] h.one h.turn
    fun done rest q e state w hsplit hreached _ _ _ => turnExcused_link hsplit hreached).mono
    fun _ w hw q existing hlink => ?_
  obtain ⟨hsplit, -, -, hfile, -, -, -, hgroup⟩ := id hlink
  obtain ⟨id, hid, -⟩ := Option.bind_eq_some_iff.mp hgroup
  rcases hw q _ (getElem?_of_toList hsplit) hfile (by simp [linkCharge, hid]) with hno | hright
  · exact absurd hlink (hno existing)
  · exact hright

end SyncRun

/-! ## A whole sync -/

section Whole

variable {stack : Nat} {fs : MemoryFileSystem} {source dest : PathBuf} {options : SyncOptions}
  {metadata : PortableMetadata} {run : SyncRun} {sk dk q : Key} {existing : PathBuf} {w : World}

theorem run_syncTree (hroots : checkRoots fs source dest = .ok metadata)
    (htype : metadata.fileType ≠ .file) (hprepare : prepare stack fs source dest options = .ok run) :
    (syncTree stack source dest options).run syncHandler ⟨fs, []⟩ =
      run.execute.run syncHandler ⟨fs, []⟩ := by
  change ((Prog.ofExcept (checkRoots fs source dest)) >>= _ : SyncProg Unit).run syncHandler _ = _
  rw [hroots, Prog.ofExcept_ok, Prog.ret_bind, if_neg htype, hprepare, Prog.ofExcept_ok,
    Prog.ret_bind]

end Whole

end RsyncWin.Fs
