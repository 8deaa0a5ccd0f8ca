import RsyncWin.Fs.RunRules

/-!
# Staged files after a failure

With delayed updates every file is first copied to its staging path. A transfer
that fails, or a staged file that cannot go to its place, removes what is staged.
Other errors of the loop (the deadline, making way, a directory that cannot be
made, the check whether a file needs an update) leave at once, and so does
everything in the sync of a single file.
-/

namespace RsyncWin.Fs

open ByteString MemoryFileSystem

/-! ## Removing what is staged -/

/-- At a path there is nothing, or a directory. -/
def NoFileAt (fs : MemoryFileSystem) (path : PathBuf) : Prop :=
  ∀ key c, path.names = some key → fs.content key = some c → c.1 = .directory

theorem noFileAt_removeFile (fs : MemoryFileSystem) (path : PathBuf) :
    NoFileAt (fs.removeFile path).2 path := by
  intro key c hp hc
  rcases removeFile_cases hp with ⟨e, hrun, hnot⟩ | ⟨_, fs', -, -, hrun, hcontent⟩
  · rw [hrun] at hc
    exact hnot c hc
  · rw [hrun, hcontent, Function.update_self] at hc
    cases hc

theorem NoFileAt.removeFile {fs : MemoryFileSystem} {path : PathBuf} (h : NoFileAt fs path)
    (other : PathBuf) : NoFileAt (fs.removeFile other).2 path := by
  intro key c hp hc
  cases hother : other.names with
  | none =>
      rw [removeFile_of_none hother] at hc
      exact h key c hp hc
  | some okey =>
      rcases removeFile_cases hother with ⟨e, hrun, -⟩ | ⟨_, fs', -, -, hrun, hcontent⟩
      · rw [hrun] at hc
        exact h key c hp hc
      · rw [hrun, hcontent, Function.update_apply] at hc
        split at hc
        · cases hc
        · exact h key c hp hc

theorem run_removeStaged : ∀ (transfers : List DelayedTransfer) (w : World),
    ∃ t, (removeStaged transfers).run syncHandler w = .ret () t ∧
      (∀ path, NoFileAt w.fs path → NoFileAt t.fs path) ∧ ∀ d ∈ transfers, NoFileAt t.fs d.temp
  | [], w => ⟨w, rfl, fun _ h => h, by simp⟩
  | d :: transfers, w => by
      obtain ⟨t, hrun, hkeep, hgone⟩ :=
        run_removeStaged transfers { w with fs := (w.fs.removeFile d.temp).2 }
      refine ⟨t, hrun, fun path h => hkeep path (h.removeFile d.temp), ?_⟩
      intro d' hd'
      rcases List.mem_cons.mp hd' with rfl | hd'
      · exact hkeep _ (noFileAt_removeFile _ _)
      · exact hgone d' hd'

theorem run_cleanup {options : SyncOptions} (hkeep : options.keepPartial = false)
    (hnoPartial : options.partialDir = none) (transfers : List DelayedTransfer) (w : World) :
    ∃ t, (cleanupDelayedUpdates transfers options).run syncHandler w = .ret () t ∧
      ∀ d ∈ transfers, NoFileAt t.fs d.temp := by
  obtain ⟨t, hrun, -, hgone⟩ := run_removeStaged transfers w
  refine ⟨t, ?_, hgone⟩
  unfold cleanupDelayedUpdates
  rw [hkeep, hnoPartial]
  exact hrun

/-! ## The stages of a run -/

namespace SyncRun

variable {run : SyncRun}

/-- What comes before the transfer loop. -/
def prologue (run : SyncRun) : SyncProg Unit := do
  let fs ← look
  if !fs.existsAt run.dest then
    report (.createDir run.dest)
    actUnlessDry run.options (.createDirAll run.dest)
  else pure ()
  run.deletesWhen [.before, .during]

/-- The prologue by its stages: `A` before the deletions, `J` after them. -/
theorem ensures_prologue {A J : World → Prop} {w : World}
    (hdest : Kept run.options.dryRun (fun _ change => change = .createDirAll run.dest) A)
    (hearly : ∀ t, A t → (run.deletesWhen [.before, .during]).Ensures syncHandler (fun _ => True)
      (fun _ => J) t) (hw : A w) :
    run.prologue.Ensures syncHandler (fun _ => True) (fun _ => J) w := by
  unfold prologue
  refine ensures_look trivial ?_
  split
  · refine ensures_report trivial ?_
    exact ensures_seq ((hdest.ensures_actUnlessDry_end (hdest.push w _ hw) rfl).mono_always
      fun _ _ => trivial) fun _ t ht => hearly t ht
  · exact hearly w hw

/-- What comes after the staged files have gone to their places. -/
def epilogue (run : SyncRun) (state : TransferState) : SyncProg Unit := do
  run.deletesWhen [.delay, .after]
  preserveDirectoryMtimes run.options state.directoryMtimes.reverse

theorem execute_eq (run : SyncRun) : run.execute = (do
    run.prologue
    let state ← run.syncEntries 0 run.sourceEntries.toList {}
    run.finish state
    run.epilogue state) := by
  unfold execute prologue epilogue
  rw [bind_assoc]
  refine bind_congr fun fs => ?_
  split <;> simp only [bind_assoc]

/-- The turn of one entry of the loop. -/
def turn (run : SyncRun) (check : Nat) (relative : Key) (entry : WalkEntry)
    (state : TransferState) : SyncProg TransferState := do
  Prog.ofExcept (checkSyncDeadline run.options.stopDeadline check)
  run.syncEntry relative entry state

theorem syncEntries_append (done rest : List (Key × WalkEntry)) (check : Nat)
    (state : TransferState) :
    run.syncEntries check (done ++ rest) state = (do
      let state ← run.syncEntries check done state
      run.syncEntries (check + done.length) rest state) := by
  induction done generalizing check state with
  | nil => rfl
  | cons first done ih =>
      obtain ⟨relative, entry⟩ := first
      simp only [List.cons_append, syncEntries, bind_assoc, ih, List.length_cons,
        Nat.add_right_comm check _ 1, ← Nat.add_assoc]

/-- The loop comes to the entries behind `done` with this state, in this world. -/
def Reached (run : SyncRun) (w₀ : World) (done : List (Key × WalkEntry)) (state : TransferState)
    (w : World) : Prop :=
  ∃ start, run.prologue.run syncHandler w₀ = .ret () start ∧
    (run.syncEntries 0 done {}).run syncHandler start = .ret state w

theorem Reached.next {w₀ w t : World} {done : List (Key × WalkEntry)} {relative : Key}
    {entry : WalkEntry} {state state' : TransferState} (h : run.Reached w₀ done state w)
    (hcheck : checkSyncDeadline run.options.stopDeadline done.length = .ok ())
    (hrun : (run.syncEntry relative entry state).run syncHandler w = .ret state' t) :
    run.Reached w₀ (done ++ [(relative, entry)]) state' t := by
  obtain ⟨start, hprologue, hdone⟩ := h
  refine ⟨start, hprologue, ?_⟩
  rw [syncEntries_append, Prog.run_bind_ret hdone, syncEntries, Nat.zero_add, hcheck,
    Prog.ofExcept_ok, Prog.ret_bind, Prog.run_bind_ret hrun]
  rfl

/-- The loop of a run with one entry comes to it right after the prologue. -/
theorem Reached.alone {w₀ w : World} {done rest : List (Key × WalkEntry)} {key q : Key}
    {e : WalkEntry} {state : TransferState} (hone : run.sourceEntries.toList.map (·.1) = [key])
    (hsplit : run.sourceEntries.toList = done ++ (q, e) :: rest)
    (h : run.Reached w₀ done state w) :
    q = key ∧ state = {} ∧ run.prologue.run syncHandler w₀ = .ret () w := by
  rw [hsplit, List.map_append, List.map_cons] at hone
  cases done with
  | nil =>
      obtain ⟨start, hprologue, hdone⟩ := h
      cases hdone
      exact ⟨(List.cons.inj hone).1, rfl, hprologue⟩
  | cons first done => simp at hone

/-- The loop, by what holds of the entries behind it in the worlds that it reaches. -/
theorem ensures_syncEntries_reached {w₀ : World}
    {J : List (Key × WalkEntry) → TransferState → World → Prop} {all : List (Key × WalkEntry)}
    (hstep : ∀ done relative entry rest state t, all = done ++ (relative, entry) :: rest →
      run.Reached w₀ done state t → J done state t →
      (run.syncEntry relative entry state).Ensures syncHandler (fun _ => True)
        (fun state' => J (done ++ [(relative, entry)]) state') t) :
    ∀ {rest done : List (Key × WalkEntry)} {state : TransferState} {w : World},
      all = done ++ rest → run.Reached w₀ done state w → J done state w →
      (run.syncEntries done.length rest state).Ensures syncHandler (fun _ => True)
        (fun state' => J all state') w
  | [], done, state, w, hall, _, hw => by
      rw [List.append_nil] at hall
      rw [hall]
      exact ⟨trivial, hw⟩
  | (relative, entry) :: rest, done, state, w, hall, hreached, hw => by
      unfold syncEntries
      cases hcheck : checkSyncDeadline run.options.stopDeadline done.length with
      | error e => exact trivial
      | ok _ =>
          simp only [Prog.ofExcept_ok, Prog.ret_bind]
          have hturn := (hstep done relative entry rest state w hall hreached hw).with_run
          refine ensures_seq hturn fun state' t ht => ?_
          have hsplit : all = (done ++ [(relative, entry)]) ++ rest := by simpa using hall
          have hrest := ensures_syncEntries_reached hstep hsplit (hreached.next hcheck ht.2) ht.1
          rwa [List.length_append] at hrest

/-- A run by its stages, with the worlds that its loop reaches. -/
theorem ensures_execute_reached {B C : World → Prop}
    {J : List (Key × WalkEntry) → TransferState → World → Prop} {w₀ : World}
    (hprologue : run.prologue.Ensures syncHandler (fun _ => True) (fun _ => J [] {}) w₀)
    (hstep : ∀ done relative entry rest state t,
      run.sourceEntries.toList = done ++ (relative, entry) :: rest →
      run.Reached w₀ done state t → J done state t →
      (run.syncEntry relative entry state).Ensures syncHandler (fun _ => True)
        (fun state' => J (done ++ [(relative, entry)]) state') t)
    (hnoted : ∀ state t, J run.sourceEntries.toList state t → run.DirsNoted state)
    (hfinish : ∀ state t, J run.sourceEntries.toList state t →
      (run.finish state).Ensures syncHandler (fun _ => True) (fun _ => B) t)
    (hlate : ∀ t, B t → (run.deletesWhen [.delay, .after]).Ensures syncHandler (fun _ => True)
      (fun _ => C) t)
    (hmtimes : run.MtimesKeep C) :
    run.execute.Ensures syncHandler (fun _ => True) (fun _ => C) w₀ := by
  rw [execute_eq]
  refine ensures_seq hprologue.with_run fun _ t ht => ?_
  have hloop := ensures_syncEntries_reached hstep (List.nil_append _).symm
    ⟨t, ht.2, rfl⟩ ht.1
  refine ensures_seq hloop fun state u hu => ?_
  refine ensures_seq (hfinish state u hu) fun _ v hv => ?_
  unfold epilogue
  refine ensures_seq (hlate v hv) fun _ x hx => ?_
  refine (ensures_preserveDirectoryMtimes hmtimes (fun d hd => ?_) hx).mono_always
    fun _ _ => trivial
  exact hnoted state u hu d (List.mem_reverse.mp hd)

/-- A run that fails in the transfer loop or while the staged files go to their
places, with the files that were staged before the failure. -/
inductive Fails (run : SyncRun) (w₀ : World) : List DelayedTransfer → FsError → World → Prop
  | turn {done rest : List (Key × WalkEntry)} {relative : Key} {entry : WalkEntry}
      {state : TransferState} {err : FsError} {w w₁ w₂ : World}
      (hall : run.sourceEntries.toList = done ++ (relative, entry) :: rest)
      (hprologue : run.prologue.run syncHandler w₀ = .ret () w)
      (hdone : (run.syncEntries 0 done {}).run syncHandler w = .ret state w₁)
      (hfail : (run.turn done.length relative entry state).run syncHandler w₁ = .fail err w₂) :
      Fails run w₀ state.delayedTransfers err w₂
  | finish {state : TransferState} {err : FsError} {w w₁ w₂ : World}
      (hprologue : run.prologue.run syncHandler w₀ = .ret () w)
      (hdone : (run.syncEntries 0 run.sourceEntries.toList {}).run syncHandler w = .ret state w₁)
      (hfail : (run.finish state).run syncHandler w₁ = .fail err w₂) :
      Fails run w₀ state.delayedTransfers err w₂

/-- A loop that fails fails in the turn of some entry. -/
theorem syncEntries_fail {entries : List (Key × WalkEntry)} {check : Nat} {state : TransferState}
    {err : FsError} {w w₂ : World}
    (h : (run.syncEntries check entries state).run syncHandler w = .fail err w₂) :
    ∃ done relative entry rest state' w₁, entries = done ++ (relative, entry) :: rest ∧
      (run.syncEntries check done state).run syncHandler w = .ret state' w₁ ∧
      (run.turn (check + done.length) relative entry state').run syncHandler w₁ = .fail err w₂ := by
  induction entries generalizing check state w with
  | nil => cases h
  | cons first entries ih =>
      obtain ⟨relative, entry⟩ := first
      have hturn : run.syncEntries check ((relative, entry) :: entries) state =
          run.turn check relative entry state >>= run.syncEntries (check + 1) entries := by
        rw [syncEntries, turn, bind_assoc]
      rw [hturn, Prog.run_bind_eq_fail] at h
      rcases h with h | ⟨state', w₁, hret, h⟩
      · exact ⟨[], relative, entry, entries, state, w, rfl, rfl, h⟩
      · obtain ⟨done, relative', entry', rest, state'', w₁', rfl, hdone, hfail⟩ := ih h
        refine ⟨(relative, entry) :: done, relative', entry', rest, state'', w₁', rfl, ?_, ?_⟩
        · have hcons : run.syncEntries check ((relative, entry) :: done) state =
              run.turn check relative entry state >>= run.syncEntries (check + 1) done := by
            rw [syncEntries, turn, bind_assoc]
          rw [hcons, Prog.run_bind_ret hret]
          exact hdone
        · rwa [List.length_cons, ← Nat.add_assoc, Nat.add_right_comm]

/-- A run fails before its transfer loop, with staged files, or after those are gone. -/
theorem execute_fail_iff {err : FsError} {w₀ w₂ : World} :
    run.execute.run syncHandler w₀ = .fail err w₂ ↔
      run.prologue.run syncHandler w₀ = .fail err w₂ ∨ (∃ staged, run.Fails w₀ staged err w₂) ∨
        ∃ state w w₁ w₁', run.prologue.run syncHandler w₀ = .ret () w ∧
          (run.syncEntries 0 run.sourceEntries.toList {}).run syncHandler w = .ret state w₁ ∧
          (run.finish state).run syncHandler w₁ = .ret () w₁' ∧
          (run.epilogue state).run syncHandler w₁' = .fail err w₂ := by
  rw [execute_eq, Prog.run_bind_eq_fail]
  refine or_congr_right ?_
  constructor
  · rintro ⟨_, w, hprologue, h⟩
    rcases Prog.run_bind_eq_fail.mp h with h | ⟨state, w₁, hloop, h⟩
    · obtain ⟨done, relative, entry, rest, state, w₁, hall, hdone, hfail⟩ := syncEntries_fail h
      rw [Nat.zero_add] at hfail
      exact Or.inl ⟨_, .turn hall hprologue hdone hfail⟩
    · rcases Prog.run_bind_eq_fail.mp h with h | ⟨_, w₁', hfinish, h⟩
      · exact Or.inl ⟨_, .finish hprologue hloop h⟩
      · exact Or.inr ⟨state, w, w₁, w₁', hprologue, hloop, hfinish, h⟩
  · rintro (⟨staged, h⟩ | ⟨state, w, w₁, w₁', hprologue, hloop, hfinish, h⟩)
    · cases h with
      | turn hall hprologue hdone hfail =>
          refine ⟨(), _, hprologue, Prog.run_bind_eq_fail.mpr (Or.inl ?_)⟩
          rw [hall, syncEntries_append, Prog.run_bind_ret hdone, syncEntries, ← bind_assoc,
            Nat.zero_add]
          exact Prog.run_bind_fail hfail _
      | finish hprologue hdone hfail =>
          refine ⟨(), _, hprologue, Prog.run_bind_eq_fail.mpr (Or.inr ⟨_, _, hdone, ?_⟩)⟩
          exact Prog.run_bind_fail hfail _
    · refine ⟨(), w, hprologue, ?_⟩
      rw [Prog.run_bind_ret hloop, Prog.run_bind_ret hfinish]
      exact h

/-! ## Which failures clean up -/

/-- The part of an entry's turn whose errors leave the loop at once. -/
def guarded (run : SyncRun) (check : Nat) (relative : Key) (entry : WalkEntry) : SyncProg Unit := do
  Prog.ofExcept (checkSyncDeadline run.options.stopDeadline check)
  let target := run.dest.join relative.path
  match entry.metadata.fileType with
  | .directory =>
      if !run.options.recursive && !run.options.transferDirs then pure ()
      else if ← removeConflictingTarget run.dest target relative.path .directory run.options then
        report (.createDir target)
        actUnlessDry run.options (.createDirAll target)
      else pure ()
  | .file =>
      if ← removeConflictingTarget run.dest target relative.path .file run.options then
        let fs ← look
        if ← Prog.ofExcept (fileNeedsUpdate fs entry target run.options) then pure ()
        else preserveExistingFileMtime target entry run.options
      else pure ()
  | _ => pure ()

/-- No turn that begins with files staged fails in its guarded part. -/
def Orderly (run : SyncRun) (w₀ : World) : Prop :=
  ∀ (done rest : List (Key × WalkEntry)) (relative : Key) (entry : WalkEntry)
    (state : TransferState) (w w₁ : World),
    run.sourceEntries.toList = done ++ (relative, entry) :: rest →
    run.prologue.run syncHandler w₀ = .ret () w →
    (run.syncEntries 0 done {}).run syncHandler w = .ret state w₁ → state.delayedTransfers ≠ [] →
    ∀ err w₂, (run.guarded done.length relative entry).run syncHandler w₁ ≠ .fail err w₂

/-- At one moment none of the staged files was there any more; deletions that ignore
the error may have followed. -/
def Gone (run : SyncRun) (staged : List DelayedTransfer) (w : World) : Prop :=
  ∃ t, (∀ d ∈ staged, NoFileAt t.fs d.temp) ∧
    (w = t ∨ (run.options.ignoreErrors = true ∧
      w = ((run.deletesWhen [.delay, .after]).run syncHandler t).state))

section Gone

variable (hkeep : run.options.keepPartial = false) (hnoPartial : run.options.partialDir = none)
include hkeep hnoPartial

theorem gone_of_afterFailure {state : TransferState} {err err' : FsError} {w w₂ : World}
    (h : (run.afterFailure state err).run syncHandler w = .fail err' w₂) :
    run.Gone state.delayedTransfers w₂ := by
  obtain ⟨t, hclean, hgone⟩ := run_cleanup hkeep hnoPartial state.delayedTransfers w
  refine ⟨t, hgone, ?_⟩
  unfold afterFailure at h
  rw [Prog.run_bind_ret hclean] at h
  split at h
  · rename_i hignore
    refine Or.inr ⟨hignore, ?_⟩
    rcases Prog.run_bind_eq_fail.mp h with h | ⟨_, t', hret, h⟩
    · rw [h]
      rfl
    · cases h
      rw [hret]
      rfl
  · cases h
    exact Or.inl rfl

theorem gone_of_orCleanUp {state : TransferState} {p : SyncProg TransferState} {err : FsError}
    {w w₂ : World} (h : (run.orCleanUp state p).run syncHandler w = .fail err w₂) :
    run.Gone state.delayedTransfers w₂ := by
  unfold orCleanUp at h
  rw [Prog.run_bind, Prog.run_attempt] at h
  cases hp : p.run syncHandler w with
  | ret state' t =>
      rw [hp] at h
      cases h
  | wait t =>
      rw [hp] at h
      cases h
  | fail e t =>
      rw [hp] at h
      exact gone_of_afterFailure hkeep hnoPartial h

theorem gone_of_finish {state : TransferState} {err : FsError} {w w₂ : World}
    (h : (run.finish state).run syncHandler w = .fail err w₂) :
    run.Gone state.delayedTransfers w₂ := by
  unfold finish at h
  rw [Prog.run_bind, Prog.run_attempt] at h
  cases hp : (finishDelayedUpdates run.dest run.options state.delayedTransfers).run syncHandler w with
  | ret u t =>
      rw [hp] at h
      cases h
  | wait t =>
      rw [hp] at h
      cases h
  | fail e t =>
      rw [hp] at h
      obtain ⟨t', hclean, hgone⟩ := run_cleanup hkeep hnoPartial state.delayedTransfers t
      refine ⟨t', hgone, Or.inl ?_⟩
      change ((do
        cleanupDelayedUpdates state.delayedTransfers run.options
        throw e) : SyncProg Unit).run syncHandler t = .fail err w₂ at h
      rw [Prog.run_bind_ret hclean] at h
      cases h
      rfl

/-- A turn whose guarded part does not fail, fails in a transfer. -/
theorem gone_of_turn {check : Nat} {relative : Key} {entry : WalkEntry} {state : TransferState}
    {err : FsError} {w w₂ : World}
    (hguarded : ∀ e t, (run.guarded check relative entry).run syncHandler w ≠ .fail e t)
    (h : (run.turn check relative entry state).run syncHandler w = .fail err w₂) :
    run.Gone state.delayedTransfers w₂ := by
  unfold guarded at hguarded
  unfold turn at h
  cases hdeadline : checkSyncDeadline run.options.stopDeadline check with
  | error e =>
      rw [hdeadline] at hguarded
      exact absurd rfl (hguarded e w)
  | ok u =>
      rw [hdeadline] at hguarded h
      simp only [Prog.ofExcept_ok, Prog.ret_bind] at hguarded h
      unfold syncEntry at h
      cases htype : entry.metadata.fileType with
      | directory =>
          rw [htype] at hguarded h
          simp only at hguarded h
          unfold syncDirectory at h
          simp only at h
          split at h
          · cases h
          · rename_i hrecursive
            rw [if_neg hrecursive] at hguarded
            rcases Prog.run_bind_eq_fail.mp h with h | ⟨cleared, t, hclear, h⟩
            · exact absurd (Prog.run_bind_fail h _) (hguarded err w₂)
            · rw [Prog.run_bind_ret hclear] at hguarded
              cases cleared with
              | false => cases h
              | true =>
                  simp only [if_true] at hguarded h
                  rw [← bind_assoc] at h
                  rcases Prog.run_bind_eq_fail.mp h with h | ⟨_, t', -, h⟩
                  · exact absurd h (hguarded err w₂)
                  · cases h
      | file =>
          rw [htype] at hguarded h
          simp only at hguarded h
          unfold syncFile at h
          simp only at h
          rcases Prog.run_bind_eq_fail.mp h with h | ⟨cleared, t, hclear, h⟩
          · exact absurd (Prog.run_bind_fail h _) (hguarded err w₂)
          · rw [Prog.run_bind_ret hclear] at hguarded
            cases cleared with
            | false => cases h
            | true =>
                simp only [if_true] at hguarded h
                change ((Prog.ofExcept (fileNeedsUpdate t.fs entry (run.dest.join relative.path)
                  run.options)) >>= _ : SyncProg TransferState).run syncHandler t = _ at h
                change ∀ e t', ((Prog.ofExcept (fileNeedsUpdate t.fs entry
                  (run.dest.join relative.path) run.options)) >>= _ : SyncProg Unit).run
                    syncHandler t ≠ Final.fail e t' at hguarded
                cases hneeded : fileNeedsUpdate t.fs entry (run.dest.join relative.path)
                    run.options with
                | error e =>
                    rw [hneeded] at hguarded
                    exact absurd rfl (hguarded e t)
                | ok needed =>
                    rw [hneeded] at hguarded h
                    simp only [Prog.ofExcept_ok, Prog.ret_bind] at hguarded h
                    cases needed with
                    | true => exact gone_of_orCleanUp hkeep hnoPartial h
                    | false =>
                        rcases Prog.run_bind_eq_fail.mp h with h | ⟨_, t', -, h⟩
                        · exact absurd h (hguarded err w₂)
                        · cases h
      | symlink =>
          rw [htype] at h
          exact gone_of_orCleanUp hkeep hnoPartial h
      | hardlink =>
          rw [htype] at h
          exact gone_of_orCleanUp hkeep hnoPartial h
      | device =>
          rw [htype] at h
          exact gone_of_orCleanUp hkeep hnoPartial h
      | special =>
          rw [htype] at h
          exact gone_of_orCleanUp hkeep hnoPartial h
      | other =>
          rw [htype] at h
          exact gone_of_orCleanUp hkeep hnoPartial h

/-- No run that fails outside the guarded parts of its turns leaves a staged file. -/
theorem Fails.gone {w₀ w₂ : World} {staged : List DelayedTransfer} {err : FsError}
    (h : run.Fails w₀ staged err w₂) (horderly : run.Orderly w₀) : run.Gone staged w₂ := by
  cases h with
  | finish hprologue hdone hfail => exact gone_of_finish hkeep hnoPartial hfail
  | turn hall hprologue hdone hfail =>
      rename_i done rest relative entry state w w₁
      by_cases hstaged : state.delayedTransfers = []
      · exact ⟨w₂, by simp [hstaged], Or.inl rfl⟩
      · exact gone_of_turn hkeep hnoPartial
          (horderly done rest relative entry state w w₁ hall hprologue hdone hstaged) hfail

end Gone

end SyncRun

/-! ## A whole sync -/

/-- A single file up to its staged copy, with the directory of its target. -/
def singleTransfer (source : PathBuf) (metadata : PortableMetadata) (dest : PathBuf)
    (options : SyncOptions) : SyncProg (PathBuf × List DelayedTransfer) := do
  let fs ← look
  let target ← Prog.ofExcept (singleFileTarget fs source dest)
  let entry : WalkEntry := ⟨source, metadata⟩
  Prog.ofExcept (ensureMissingDestinationParentAllowed fs target options.mkpath)
  Prog.ofExcept (preflight options [destinationPreflightPath target])
  let relative := singleFileRelative target
  let destRoot := singleFileRoot target
  if ← removeConflictingTarget destRoot target relative .file options then
    let fs ← look
    if ← Prog.ofExcept (fileNeedsUpdate fs entry target options) then
      let state ← transferFile destRoot target relative entry options {}
      pure (destRoot, state.delayedTransfers)
    else
      preserveExistingFileMtime target entry options
      pure (destRoot, [])
  else pure (destRoot, [])

theorem syncSingleFile_eq (source : PathBuf) (metadata : PortableMetadata) (dest : PathBuf)
    (options : SyncOptions) : syncSingleFile source metadata dest options =
      (do
        let staged ← singleTransfer source metadata dest options
        finishDelayedUpdates staged.1 options staged.2) := by
  unfold syncSingleFile singleTransfer
  rw [bind_assoc]
  refine bind_congr fun fs => ?_
  rw [bind_assoc]
  refine bind_congr fun target => ?_
  simp only [bind_assoc]
  refine bind_congr fun _ => bind_congr fun _ => bind_congr fun cleared => ?_
  split
  · rw [bind_assoc]
    refine bind_congr fun fs' => ?_
    rw [bind_assoc]
    refine bind_congr fun needed => ?_
    split
    · rw [bind_assoc]
      rfl
    · rw [bind_assoc]
      exact (Prog.bind_ret _).symm
  · rfl

/-- A sync that fails with files staged: a run, or a single file on the way to its place. -/
inductive SyncFails (stack : Nat) (fs : MemoryFileSystem) (source dest : PathBuf)
    (options : SyncOptions) : List DelayedTransfer → FsError → World → Prop
  | run {metadata : PortableMetadata} {run : SyncRun} {staged : List DelayedTransfer}
      {err : FsError} {w : World} (hroots : checkRoots fs source dest = .ok metadata)
      (htype : metadata.fileType ≠ .file) (hprepare : prepare stack fs source dest options = .ok run)
      (h : run.Fails ⟨fs, []⟩ staged err w) :
      SyncFails stack fs source dest options staged err w
  | single {metadata : PortableMetadata} {root : PathBuf} {staged : List DelayedTransfer}
      {err : FsError} {w w₁ : World} (hroots : checkRoots fs source dest = .ok metadata)
      (htype : metadata.fileType = .file)
      (htransfer : (singleTransfer source metadata dest options).run syncHandler ⟨fs, []⟩ =
        .ret (root, staged) w₁)
      (hfail : (finishDelayedUpdates root options staged).run syncHandler w₁ = .fail err w) :
      SyncFails stack fs source dest options staged err w

/-- No turn of the loop that begins with files staged fails in its guarded part, and
no single file that is staged fails on the way to its place. -/
structure OrderlySync (stack : Nat) (fs : MemoryFileSystem) (source dest : PathBuf)
    (options : SyncOptions) : Prop where
  run : ∀ run, prepare stack fs source dest options = .ok run → run.Orderly ⟨fs, []⟩
  single : ∀ metadata root staged w₁, checkRoots fs source dest = .ok metadata →
    metadata.fileType = .file →
    (singleTransfer source metadata dest options).run syncHandler ⟨fs, []⟩ =
      .ret (root, staged) w₁ → staged ≠ [] →
    ∀ err w, (finishDelayedUpdates root options staged).run syncHandler w₁ ≠ .fail err w

section Sync

variable {stack : Nat} {fs : MemoryFileSystem} {source dest : PathBuf} {options : SyncOptions}
  {staged : List DelayedTransfer} {err : FsError} {w : World}

theorem syncTree_of_syncFails (h : SyncFails stack fs source dest options staged err w) :
    (syncTree stack source dest options).run syncHandler ⟨fs, []⟩ = .fail err w := by
  cases h with
  | run hroots htype hprepare h =>
      change ((Prog.ofExcept (checkRoots fs source dest)) >>= _ : SyncProg Unit).run syncHandler _ = _
      rw [hroots, Prog.ofExcept_ok, Prog.ret_bind, if_neg htype, hprepare, Prog.ofExcept_ok,
        Prog.ret_bind]
      exact SyncRun.execute_fail_iff.mpr (Or.inr (Or.inl ⟨staged, h⟩))
  | single hroots htype htransfer hfail =>
      change ((Prog.ofExcept (checkRoots fs source dest)) >>= _ : SyncProg Unit).run syncHandler _ = _
      rw [hroots, Prog.ofExcept_ok, Prog.ret_bind, if_pos htype, syncSingleFile_eq,
        Prog.run_bind_ret htransfer]
      exact hfail

end Sync

end RsyncWin.Fs
