import RsyncWin.Fs.Sources
import RsyncWin.Fs.RunRules

/-!
# Dry runs

A dry run leaves the file system alone. Every step of a sync is shown, for any
property, to keep it if the changes the step allows do; in a dry run no change is
allowed, so that this holds of the property to be the file system of the start.
-/

namespace RsyncWin.Fs

open ByteString

section DryRun

variable {options : SyncOptions} {fs : MemoryFileSystem} {w : World}

/-- In a dry run nothing has to be kept by a change. -/
theorem kept_of_dryRun (hdry : options.dryRun = true)
    {allowed : MemoryFileSystem → FsAct → Prop} :
    Kept options.dryRun allowed fun t => t.fs = fs := by
  refine ⟨fun _ _ h => h, fun _ _ h => ?_⟩
  rw [hdry] at h
  cases h

theorem ensures_actUnlessDry_dry (hdry : options.dryRun = true) (change : FsAct) (hw : w.fs = fs) :
    (actUnlessDry options change).Ensures syncHandler (fun t => t.fs = fs) (fun _ t => t.fs = fs)
      w :=
  (@kept_of_dryRun _ _ hdry fun _ _ => True).ensures_actUnlessDry_end hw trivial

theorem ensures_report_dry (action : SyncAction) (hw : w.fs = fs) :
    (report action).Ensures syncHandler (fun t => t.fs = fs) (fun _ t => t.fs = fs) w :=
  ensures_report (k := .ret) hw ⟨hw, hw⟩

/-! ## One source -/

theorem ensures_syncTree_dry (hdry : options.dryRun = true) {stack : Nat} {source dest : PathBuf}
    (hw : w.fs = fs) :
    (syncTree stack source dest options).Ensures syncHandler (fun t => t.fs = fs)
      (fun _ t => t.fs = fs) w := by
  refine ensures_syncTree hw (fun metadata _ hfile => ?_) (fun metadata run _ _ hprepare => ?_)
  · exact ensures_syncSingleFile hfile (fun target _ => kept_of_dryRun hdry) hw
  · obtain rfl := (prepared_of_prepare hprepare).options_eq
    exact SyncRun.ensures_execute (kept_of_dryRun hdry) (fun _ _ _ => kept_of_dryRun hdry)
      (fun _ _ _ _ _ => kept_of_dryRun hdry) hw

/-! ## Several sources -/

theorem ensures_deleteReceiverPath_dry (hdry : options.dryRun = true)
    (destRoot path relative : PathBuf) (fileType : FileType) (hw : w.fs = fs) :
    (deleteReceiverPath destRoot path relative fileType options).Ensures syncHandler
      (fun t => t.fs = fs) (fun _ t => t.fs = fs) w := by
  unfold deleteReceiverPath
  split
  · exact ensures_report hw (ensures_actUnlessDry_dry hdry _ hw)
  · refine ensures_seq (ensures_backup (@kept_of_dryRun _ _ hdry fun _ _ => True)
      (fun _ _ _ _ => trivial) hw) fun _ t ht => ?_
    exact ensures_report ht (ensures_actUnlessDry_dry hdry _ ht)

theorem ensures_deleteMissingArg_dry (hdry : options.dryRun = true) (source dest : PathBuf)
    (sourceCount : Nat) (hw : w.fs = fs) :
    (deleteMissingArg source dest sourceCount options).Ensures syncHandler
      (fun t => t.fs = fs) (fun _ t => t.fs = fs) w := by
  unfold deleteMissingArg
  refine ensures_look hw ?_
  cases missingArgTarget w.fs source dest sourceCount with
  | error e => exact hw
  | ok target =>
      simp only [Prog.ofExcept_ok, Prog.ret_bind]
      cases w.fs.metadata target with
      | error e => exact ⟨hw, hw⟩
      | ok metadata =>
          simp only
          split
          · cases keepsDirectory w.fs target options with
            | error e => exact hw
            | ok keep =>
                cases keep with
                | true => exact ensures_report_dry _ hw
                | false => exact ensures_deleteReceiverPath_dry hdry _ _ _ _ hw
          · exact ensures_deleteReceiverPath_dry hdry _ _ _ _ hw

theorem ensures_presentSources_dry (hdry : options.dryRun = true) (dest : PathBuf)
    (sourceCount : Nat) :
    ∀ {sources : List PathBuf} {check : Nat} {w : World}, w.fs = fs →
      (presentSources dest sourceCount options check sources).Ensures syncHandler
        (fun t => t.fs = fs) (fun _ t => t.fs = fs) w
  | [], _, _, hw => ⟨hw, hw⟩
  | source :: sources, check, w, hw => by
      unfold presentSources
      cases checkSyncDeadline options.stopDeadline check with
      | error e => exact hw
      | ok _ =>
          simp only [Prog.ofExcept_ok, Prog.ret_bind]
          refine ensures_look hw ?_
          have ih : ∀ {t : World}, t.fs = fs →
              (presentSources dest sourceCount options (check + 1) sources).Ensures syncHandler
                (fun t => t.fs = fs) (fun _ t => t.fs = fs) t :=
            fun ht => ensures_presentSources_dry hdry dest sourceCount ht
          cases w.fs.metadata source with
          | ok _ => exact ensures_seq (ih hw) fun _ t ht => ⟨ht, ht⟩
          | error e =>
              cases e with
              | notFound path =>
                  simp only
                  split
                  · refine ensures_seq (ensures_deleteMissingArg_dry hdry _ _ _ hw) fun _ t ht => ?_
                    exact ih ht
                  · split
                    · exact ih hw
                    · exact hw
              | _ => exact hw

theorem ensures_ensureImpliedDir_dry (hdry : options.dryRun = true) (dest relative : PathBuf)
    (hw : w.fs = fs) :
    (ensureImpliedDir dest options relative).Ensures syncHandler
      (fun t => t.fs = fs) (fun _ t => t.fs = fs) w := by
  unfold ensureImpliedDir
  refine ensures_look hw ?_
  cases w.fs.metadata (dest.join relative) with
  | ok metadata =>
      simp only
      split
      · exact ⟨hw, hw⟩
      · refine ensures_seq (ensures_makeWay (@kept_of_dryRun _ _ hdry fun _ _ => True)
          (fun _ _ _ _ _ _ => trivial) (fun _ _ _ _ _ _ _ => trivial) (fun _ _ => trivial) hw)
          fun cleared t ht => ?_
        split
        · exact ensures_report ht (ensures_actUnlessDry_dry hdry _ ht)
        · exact ⟨ht, ht⟩
  | error e =>
      cases e with
      | notFound path => exact ensures_report hw (ensures_actUnlessDry_dry hdry _ hw)
      | _ => exact hw

theorem ensures_ensureImpliedDirs_dry (hdry : options.dryRun = true) (dest : PathBuf) :
    ∀ {relatives : List PathBuf} {w : World}, w.fs = fs →
      (ensureImpliedDirs dest options relatives).Ensures syncHandler
        (fun t => t.fs = fs) (fun _ t => t.fs = fs) w
  | [], _, hw => ⟨hw, hw⟩
  | relative :: relatives, w, hw => by
      unfold ensureImpliedDirs
      refine ensures_seq (ensures_ensureImpliedDir_dry hdry dest relative hw) fun _ t ht => ?_
      exact ensures_ensureImpliedDirs_dry hdry dest ht

theorem ensures_ensureImpliedRelativeDirs_dry (hdry : options.dryRun = true) (dest : PathBuf) :
    ∀ {sources : List PathBuf} {w : World}, w.fs = fs →
      (ensureImpliedRelativeDirs dest options sources).Ensures syncHandler
        (fun t => t.fs = fs) (fun _ t => t.fs = fs) w
  | [], _, hw => ⟨hw, hw⟩
  | source :: sources, w, hw => by
      unfold ensureImpliedRelativeDirs
      cases relativeOperandPath source with
      | error e => exact hw
      | ok relative =>
          simp only [Prog.ofExcept_ok, Prog.ret_bind]
          refine ensures_seq (ensures_ensureImpliedDirs_dry hdry dest hw) fun _ t ht => ?_
          exact ensures_ensureImpliedRelativeDirs_dry hdry dest ht

theorem ensures_syncEach_dry (hdry : options.dryRun = true) {stack : Nat} {clock : Nat → Nat} :
    ∀ {pairs : List (PathBuf × PathBuf)} {n : Nat} {w : World}, w.fs = fs →
      (syncEach stack clock options n pairs).Ensures syncHandler
        (fun t => t.fs = fs) (fun _ t => t.fs = fs) w
  | [], _, _, hw => ⟨hw, hw⟩
  | (source, target) :: pairs, n, w, hw => by
      unfold syncEach
      have hchild : (childOptions clock n options).dryRun = true := hdry
      refine ensures_seq (ensures_syncTree_dry hchild hw) fun _ t ht => ?_
      exact ensures_syncEach_dry hdry ht

theorem ensures_syncMultipleSources_dry (hdry : options.dryRun = true) {stack : Nat}
    {clock : Nat → Nat} {sources : List PathBuf} {dest : PathBuf} (hw : w.fs = fs) :
    (syncMultipleSources stack clock sources dest options).Ensures syncHandler
      (fun t => t.fs = fs) (fun _ t => t.fs = fs) w := by
  unfold syncMultipleSources
  refine ensures_look hw ?_
  split
  · exact hw
  · cases sourceTargets dest options sources with
    | error e => exact hw
    | ok targets =>
        simp only [Prog.ofExcept_ok, Prog.ret_bind]
        cases preflight options (targets.map destinationPreflightPath) with
        | error e => exact hw
        | ok _ =>
            simp only [Prog.ofExcept_ok, Prog.ret_bind]
            cases ensureMissingDestinationParentAllowed w.fs dest options.mkpath with
            | error e => exact hw
            | ok _ =>
                simp only [Prog.ofExcept_ok, Prog.ret_bind]
                split
                · refine ensures_report hw ?_
                  refine ensures_seq (ensures_actUnlessDry_dry hdry _ hw) fun _ t ht => ?_
                  exact ensures_syncEach_dry hdry ht
                · exact ensures_syncEach_dry hdry hw

theorem ensures_syncOneSource_dry (hdry : options.dryRun = true) {stack : Nat} {clock : Nat → Nat}
    {source dest : PathBuf} (hw : w.fs = fs) :
    (syncOneSource stack clock source dest options).Ensures syncHandler
      (fun t => t.fs = fs) (fun _ t => t.fs = fs) w := by
  have hchild : (childOptions clock 0 options).dryRun = true := hdry
  unfold syncOneSource
  split
  · refine ensures_look hw ?_
    cases ensureMissingDestinationParentAllowed w.fs dest options.mkpath with
    | error e => exact hw
    | ok _ =>
        simp only [Prog.ofExcept_ok, Prog.ret_bind]
        cases relativeOperandPath source with
        | error e => exact hw
        | ok relative => exact ensures_syncTree_dry hchild hw
  · exact ensures_syncTree_dry hchild hw

theorem ensures_syncPresent_dry (hdry : options.dryRun = true) {stack : Nat} {clock : Nat → Nat}
    {dest : PathBuf} {present : List PathBuf} (hw : w.fs = fs) :
    (syncPresent stack clock dest options present).Ensures syncHandler
      (fun t => t.fs = fs) (fun _ t => t.fs = fs) w := by
  have hchildren : ∀ {t : World}, t.fs = fs →
      (syncChildren stack clock dest options present).Ensures syncHandler
        (fun t => t.fs = fs) (fun _ t => t.fs = fs) t := by
    intro t ht
    unfold syncChildren
    split
    · exact ensures_syncOneSource_dry hdry ht
    · exact ensures_syncMultipleSources_dry hdry ht
  unfold syncPresent
  split
  · exact ensures_seq (ensures_ensureImpliedRelativeDirs_dry hdry dest hw) fun _ t ht => hchildren ht
  · exact hchildren hw

theorem ensures_syncSources_dry (hdry : options.dryRun = true) {stack : Nat} {clock : Nat → Nat}
    {sources : List PathBuf} {dest : PathBuf} (hw : w.fs = fs) :
    (syncSources stack clock sources dest options).Ensures syncHandler
      (fun t => t.fs = fs) (fun _ t => t.fs = fs) w := by
  unfold syncSources
  split
  · exact hw
  · refine ensures_seq (ensures_presentSources_dry hdry dest _ hw) fun present t ht => ?_
    split
    · exact ⟨ht, ht⟩
    · exact ensures_syncPresent_dry hdry ht

end DryRun

/-- In every state of a dry run the file system is what it was. -/
theorem dryRun_pure {options : SyncOptions} (hdry : options.dryRun = true) (stack : Nat)
    (clock : Nat → Nat) (sources : List PathBuf) (source dest : PathBuf) (w : World) :
    (∀ t ∈ (syncSources stack clock sources dest options).states syncHandler w, t.fs = w.fs) ∧
      ∀ t ∈ (syncTree stack source dest options).states syncHandler w, t.fs = w.fs :=
  ⟨(ensures_syncSources_dry hdry rfl).always, (ensures_syncTree_dry hdry rfl).always⟩

/-- A dry run with the options that would do most. -/
theorem dryRun_pure_deleting :
    (let fs := withFiles [([[0x73], [0x66]], [1]), ([[0x64], [0x66]], [2]), ([[0x64], [0x67]], [3])]
     let options : SyncOptions :=
       { dryRun := true, delete := true, backup := true, delayUpdates := true, fuzzy := true,
         appendVerify := true, preserveHardLinks := true, relativePaths := true,
         deleteMissingArgs := true, updateMode := .ignoreTimes }
     ∀ t ∈ (syncSources 8 (fun _ => 0) [Key.path [[0x73]], Key.path [[0x67]]] (Key.path [[0x64]])
        options).states syncHandler ⟨fs, []⟩, t.fs = fs) :=
  (dryRun_pure rfl 8 (fun _ => 0) [Key.path [[0x73]], Key.path [[0x67]]] [] (Key.path [[0x64]]) _).1

end RsyncWin.Fs
