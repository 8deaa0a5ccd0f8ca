import RsyncWin.Fs.PlainSync

/-!
# Plain runs with symlinks about

A plain run writes below its destination only where directories are. The
destination is a directory and stays one, and so does every source directory
once its entry is done; entries come in the order of their paths, so that the
directories of an entry are all done before it. Links that were at the
destination have been taken away by then.
-/

namespace RsyncWin.Fs

open ByteString MemoryFileSystem

/-- The destination is there, and so are the directories in `done`. -/
structure Grounded (dk : Key) (done : Key → Prop) (w : World) : Prop where
  root : ∀ x, x <+: dk → ∃ b, w.fs.content x = some (.directory, b)
  dirs : ∀ r, done r → ∃ b, w.fs.content (dk ++ r) = some (.directory, b)

/-- The directories among the entries. -/
def Directories (done : List (Key × WalkEntry)) (r : Key) : Prop :=
  ∃ e, (r, e) ∈ done ∧ e.metadata.fileType = .directory

theorem Grounded.clear {dk : Key} {done : Key → Prop} {w : World} (h : Grounded dk done w)
    {q : Key} (hq : q ≠ []) (hdone : ∀ r, r ≠ [] → r <+: q → r ≠ q → done r) :
    Clear w.fs.content (dk ++ q).dropLast := by
  intro x b hx hsym
  rw [List.dropLast_append_of_ne_nil hq] at hx
  -- a directory on the way is no symlink
  have hdir : ∃ b, w.fs.content x = some (.directory, b) := by
    rcases List.prefix_or_prefix_of_prefix hx (List.prefix_append dk q.dropLast) with hpre | hpre
    · exact h.root x hpre
    · obtain ⟨r, rfl⟩ := hpre
      by_cases hr : r = []
      · subst hr
        rw [List.append_nil]
        exact h.root dk (List.prefix_refl dk)
      · have hr' : r <+: q.dropLast := (List.prefix_append_right_inj dk).mp hx
        refine h.dirs r (hdone r hr (hr'.trans (List.dropLast_prefix q)) ?_)
        rintro rfl
        have hlen := hr'.length_le
        rw [List.length_dropLast] at hlen
        have := List.length_pos_of_ne_nil hr
        omega
  obtain ⟨b', hdir⟩ := hdir
  rw [hdir] at hsym
  cases hsym

theorem Grounded.content_createDirAll {dk : Key} {dest : PathBuf} {done : Key → Prop} {w : World}
    (h : Grounded dk done w) (hd : dest.names = some dk) :
    (w.fs.createDirAll dest).2.content = w.fs.content := by
  have hclear : Clear w.fs.content dk := by
    intro x b hx hsym
    obtain ⟨b', hdir⟩ := h.root x hx
    rw [hdir] at hsym
    cases hsym
  rw [createDirAll_of_clear hd hclear, content_createDirs]
  ext1 x
  by_cases hx : x <+: dk
  · obtain ⟨b, hb⟩ := h.root x hx
    rw [hb]
    exact PathTree.fill_eq_some_of hb
  · exact PathTree.fill_of_not hx

namespace SyncRun

variable {run : SyncRun} {fs : MemoryFileSystem} {sk dk : Key}

/-- What a plain run that finds its destination works on. -/
structure Ground (run : SyncRun) (fs : MemoryFileSystem) (sk dk : Key) : Prop where
  options : PlainOptions run.options
  dirlinks : run.options.keepDirlinks = false
  recursive : run.options.recursive = true
  ignoreErrors : run.options.ignoreErrors = false
  dest : run.dest.names = some dk
  source : TreeEntries fs sk run.sourceEntries
  destination : TreeEntries fs dk run.destEntries

section Steps

variable {done rest : List (Key × WalkEntry)} {q : Key} {e : WalkEntry} {w : World}

theorem mem_sourceEntries (hsplit : run.sourceEntries.toList = done ++ rest) {r : Key}
    {e' : WalkEntry} (hr : (r, e') ∈ done) : run.sourceEntries[r]? = some e' :=
  Std.TreeMap.mem_toList_iff_getElem?_eq_some.mp (hsplit ▸ List.mem_append_left _ hr)

/-- The step of an entry leaves the directories before it. -/
theorem Ground.grounded_step (h : run.Ground fs sk dk)
    (hsplit : run.sourceEntries.toList = done ++ (q, e) :: rest)
    (hw : Grounded dk (Directories done) w) {change : FsAct}
    (hact : run.stepAct (dk ++ q) q e w.fs change) :
    Grounded dk (Directories done) { w with fs := (change.run w.fs).2 } := by
  have hk := names_join_key h.dest q
  have he := getElem?_of_toList hsplit
  have hq := h.source.ne_nil q e he
  refine ⟨fun x hx => ?_, fun r hr => ?_⟩
  · obtain ⟨b, hb⟩ := hw.root x hx
    refine ⟨b, hact.above hk (hx.trans (List.prefix_append dk q)) ?_ hb⟩
    rintro rfl
    have hlen := hx.length_le
    rw [List.length_append] at hlen
    have := List.length_pos_of_ne_nil hq
    omega
  · obtain ⟨b, hb⟩ := hw.dirs r hr
    obtain ⟨e', hr, hdir⟩ := hr
    have hne := key_ne_of_toList hsplit hr
    by_cases hpre : r <+: q
    · refine ⟨b, hact.above hk ((List.prefix_append_right_inj dk).mpr hpre) ?_ hb⟩
      exact fun heq => hne (List.append_cancel_left heq)
    · refine ⟨b, ?_⟩
      rw [← hb]
      refine (hact.away hk fun h => hpre ((List.prefix_append_right_inj dk).mp h)).resolve_right ?_
      rintro ⟨-, hbelow, hdir, -⟩
      obtain ⟨e₀, he₀, hdir₀⟩ := h.source.above_of_prefix hq
        ((List.prefix_append_right_inj dk).mp hbelow) (Ne.symm hne) (mem_sourceEntries hsplit hr)
      obtain rfl : e = e₀ := Option.some.inj (he.symm.trans he₀)
      exact hdir hdir₀

/-- The entry at hand can be brought to its target, and whatever its changes keep
holds all along. -/
theorem Ground.steps (h : run.Ground fs sk dk) {P : World → Prop}
    (hsplit : run.sourceEntries.toList = done ++ (q, e) :: rest)
    (hpush : ∀ w action, P w → P { w with report := w.report ++ [action] })
    (hact : ∀ w change, Grounded dk (Directories done) w → P w →
      run.stepAct (dk ++ q) q e w.fs change → P { w with fs := (change.run w.fs).2 }) :
    run.Steps (dk ++ q) q e (fun w => Grounded dk (Directories done) w ∧ P w) := by
  have he := getElem?_of_toList hsplit
  have hq := h.source.ne_nil q e he
  refine ⟨h.options, names_join_key h.dest q, ⟨fun w action hw => ?_, fun w change _ hw hallowed => ?_⟩,
    fun t ht => ?_, fun t _ hlinks => ?_⟩
  · exact ⟨⟨hw.1.root, hw.1.dirs⟩, hpush w action hw.2⟩
  · exact ⟨h.grounded_step hsplit hw.1 hallowed, hact w change hw.1 hw.2 hallowed⟩
  · refine ht.1.clear hq fun r hr hpre hne => ?_
    obtain ⟨e', he', hdir⟩ := h.source.above_of_prefix hr hpre hne he
    exact ⟨e', mem_done_of_prefix hsplit he' hpre hne, hdir⟩
  · rw [h.dirlinks] at hlinks
    cases hlinks

/-- A deletion leaves the source directories: none is below what goes. -/
theorem Ground.grounded_delete (h : run.Ground fs sk dk)
    (hsplit : run.sourceEntries.toList = done ++ rest) {e : WalkEntry}
    (he : run.destEntries[q]? = some e) (hnone : run.sourceEntries[q]? = none)
    (hw : Grounded dk (Directories done) w) {change : FsAct}
    (hact : DeleteAct run.dest q e run.options w.fs change) :
    Grounded dk (Directories done) { w with fs := (change.run w.fs).2 } := by
  have hq := h.destination.ne_nil q e he
  have hk : e.path.names = some (dk ++ q) := by
    rw [h.destination.path_eq he]
    exact names_key _
  have hbelow : ∀ x, (x = dk ++ q ∨ e.metadata.fileType = .directory ∧ dk ++ q <+: x) →
      dk ++ q <+: x := by
    rintro x (rfl | ⟨-, hx⟩)
    · exact List.prefix_refl _
    · exact hx
  refine ⟨fun x hx => ?_, fun r hr => ?_⟩
  · obtain ⟨b, hb⟩ := hw.root x hx
    refine ⟨b, ?_⟩
    rw [← hb]
    refine (hact.away h.options.backup hk x).resolve_right fun hgone => ?_
    have hlen := ((hbelow x hgone.2).trans hx).length_le
    rw [List.length_append] at hlen
    have := List.length_pos_of_ne_nil hq
    omega
  · obtain ⟨b, hb⟩ := hw.dirs r hr
    obtain ⟨e', hr, -⟩ := hr
    have her := mem_sourceEntries hsplit hr
    refine ⟨b, ?_⟩
    rw [← hb]
    refine (hact.away h.options.backup hk _).resolve_right fun hgone => ?_
    have hpre := (List.prefix_append_right_inj dk).mp (hbelow _ hgone.2)
    by_cases hqr : q = r
    · rw [hqr, her] at hnone
      cases hnone
    · obtain ⟨e₀, he₀, -⟩ := h.source.above_of_prefix hq hpre hqr her
      rw [he₀] at hnone
      cases hnone

end Steps

/-! ## The whole run -/

theorem afterFailure_eq {state : TransferState} (hoptions : PlainOptions run.options)
    (herrors : run.options.ignoreErrors = false) (hstaged : run.Staged state) (err : FsError) :
    run.afterFailure state err = throw err := by
  unfold afterFailure cleanupDelayedUpdates
  rw [hstaged.eq_nil hoptions, herrors]
  split <;> rfl

/-- A run by what its stages do to the contents: `A` before the early deletions, `P` in
the transfer loop, `C` after the late deletions. -/
theorem Ground.ensures_execute (h : run.Ground fs sk dk) {I A C : PathTree Bytes Content → Prop}
    {P : List (Key × WalkEntry) → PathTree Bytes Content → Prop} {w : World}
    (hA : ∀ c, A c → I c) (hP : ∀ done c, P done c → I c) (hC : ∀ c, C c → I c)
    (hearly : ∀ t, Grounded dk (Directories []) t → A t.fs.content →
      (run.deletesWhen [.before, .during]).Ensures syncHandler (fun t => I t.fs.content)
        (fun _ t => Grounded dk (Directories []) t ∧ P [] t.fs.content) t)
    (hstep : ∀ done q e rest t change, run.sourceEntries.toList = done ++ (q, e) :: rest →
      Grounded dk (Directories done) t → P done t.fs.content →
      run.stepAct (dk ++ q) q e t.fs change → P done (change.run t.fs).2.content)
    (hdone : ∀ done q e rest c, run.sourceEntries.toList = done ++ (q, e) :: rest → P done c →
      (e.metadata.fileType = .file → run.options.effectiveDeleteMode ≠ .none →
        ∀ a, c (dk ++ q) = some a → a.1 = .file) → P (done ++ [(q, e)]) c)
    (hlate : ∀ t, Grounded dk (Directories run.sourceEntries.toList) t →
      P run.sourceEntries.toList t.fs.content →
      (run.deletesWhen [.delay, .after]).Ensures syncHandler (fun t => I t.fs.content)
        (fun _ t => C t.fs.content) t)
    (hw : Grounded dk (Directories []) w) (hwA : A w.fs.content) :
    run.execute.Ensures syncHandler (fun t => I t.fs.content) (fun _ t => C t.fs.content) w := by
  refine ensures_execute_stages
    (A := fun t => Grounded dk (Directories []) t ∧ A t.fs.content)
    (J := fun done state t => (Grounded dk (Directories done) t ∧ P done t.fs.content) ∧
      run.Staged state ∧ run.DirsNoted state)
    (B := fun t => Grounded dk (Directories run.sourceEntries.toList) t ∧
      P run.sourceEntries.toList t.fs.content)
    (C := fun t => C t.fs.content)
    ⟨fun t action ht => ⟨⟨ht.1.root, ht.1.dirs⟩, ht.2⟩, fun t change _ ht hchange => ?_⟩
    (fun t ht => hA _ ht.2) (fun _ _ t ht => hP _ _ ht.1.2) (fun t ht => hC _ ht) ?_ ?_
    (fun _ _ ht => ht.2.2) ?_ (fun t ht => hlate t ht.1 ht.2) ?_ ⟨hw, hwA⟩
  · subst hchange
    have hsame : (t.fs.createDirAll run.dest).2.content = t.fs.content :=
      ht.1.content_createDirAll h.dest
    refine ⟨⟨fun x hx => ?_, fun r hr => ?_⟩, ?_⟩
    · show ∃ b, (t.fs.createDirAll run.dest).2.content x = _
      rw [hsame]
      exact ht.1.root x hx
    · show ∃ b, (t.fs.createDirAll run.dest).2.content _ = _
      rw [hsame]
      exact ht.1.dirs r hr
    · show A (t.fs.createDirAll run.dest).2.content
      rw [hsame]
      exact ht.2
  · intro t ht
    refine (hearly t ht.1 ht.2).mono fun _ u hu => ?_
    exact ⟨hu, by simp [Staged], by simp [DirsNoted]⟩
  · intro done q e rest state t hsplit ht
    have he := getElem?_of_toList hsplit
    have hsteps := h.steps (P := fun t => P done t.fs.content) hsplit (fun _ _ ht => ht)
      fun u change hu hPu hact => hstep done q e rest u change hsplit hu hPu hact
    refine (hsteps.ensures_syncEntry (J := fun t => I t.fs.content) (fun u hu => hP _ _ hu.2)
      (fun err u hu => ?_) ht.1).mono fun state' u hu => ?_
    · rw [afterFailure_eq h.options h.ignoreErrors ht.2.1]
      exact hP _ _ hu.2
    · obtain ⟨hI, hadv, hdir, hfile⟩ := hu
      refine ⟨⟨⟨hI.1.root, fun r hr => ?_⟩, hdone done q e rest _ hsplit hI.2 hfile⟩,
        ht.2.1.advance he hadv, ht.2.2.advance he hadv⟩
      -- the entry at hand has joined those that are done
      obtain ⟨e', hr, htype⟩ := hr
      rcases List.mem_append.mp hr with hr | hr
      · exact hI.1.dirs r ⟨e', hr, htype⟩
      · cases List.mem_singleton.mp hr
        exact hdir htype h.recursive
  · intro state t ht
    rw [ht.2.1.finish_eq h.options]
    exact ⟨hP _ _ ht.1.2, ht.1⟩
  · intro relative entry _
    refine ⟨fun t action ht => ht, fun t change _ ht hchange => ?_⟩
    obtain ⟨modified, rfl⟩ := hchange
    show C (t.fs.setMtime _ _).2.content
    rw [content_setMtime]
    exact ht

end SyncRun

end RsyncWin.Fs
