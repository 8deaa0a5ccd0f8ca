import RsyncWin.Fs.Ground

/-!
# Protected entries of the destination

A deletion run decides entry by entry what stays, but a directory that goes takes
everything in it, and so does one that a file of the source replaces. A protected
entry is safe exactly if no directory above it goes: those without a source entry
are protected themselves, and the source has no file in the place of one.
-/

namespace RsyncWin.Fs

open ByteString MemoryFileSystem

/-- The options of a sync that has only its rules and its deletions set. -/
structure DeleteOptions (options : SyncOptions) : Prop where
  plain : PlainOptions options
  recursive : options.recursive = true
  symlinkMode : options.symlinkMode = .skip
  keepDirlinks : options.keepDirlinks = false
  ignoreErrors : options.ignoreErrors = false
  forceDelete : options.forceDelete = false

/-- A destination path without a source entry that deletions are to leave alone. -/
structure ProtectedAt (fs : MemoryFileSystem) (dk : Key) (sourceEntries : Entries)
    (options : SyncOptions) (r : Key) : Prop where
  ne_nil : r ≠ []
  extra : sourceEntries[r]? = none
  guarded : ∃ c, fs.content (dk ++ r) = some c ∧ isProtected options r c.1 = true

/-- No directory above a protected path goes. -/
def Sheltered (fs : MemoryFileSystem) (dk : Key) (sourceEntries : Entries)
    (options : SyncOptions) : Prop :=
  options.effectiveDeleteMode ≠ .none → ∀ r, ProtectedAt fs dk sourceEntries options r →
    ∀ q, q ≠ [] → q <+: r → q ≠ r →
      (sourceEntries[q]? = none → isProtected options q .directory = true) ∧
        ∀ e, sourceEntries[q]? = some e → e.metadata.fileType ≠ .file

section Decide

variable {fs : MemoryFileSystem} {dk r : Key} {sourceEntries : Entries} {options : SyncOptions}

instance : Decidable (ProtectedAt fs dk sourceEntries options r) :=
  decidable_of_iff (r ≠ [] ∧ sourceEntries[r]? = none ∧
      (fs.content (dk ++ r)).any fun c => isProtected options r c.1) <| by
    rw [Option.any_eq_true]
    constructor
    · rintro ⟨hne, hextra, hguarded⟩
      exact ⟨hne, hextra, hguarded⟩
    · rintro ⟨hne, hextra, hguarded⟩
      exact ⟨hne, hextra, hguarded⟩

/-- Only the nodes below the destination are to be asked about. -/
theorem sheltered_iff :
    Sheltered fs dk sourceEntries options ↔
      (options.effectiveDeleteMode = .none ∨ ∀ key ∈ fs.nodes.keys, dk <+: key →
        ProtectedAt fs dk sourceEntries options (key.drop dk.length) →
        ∀ q ∈ (key.drop dk.length).inits, q ≠ [] → q ≠ key.drop dk.length →
          (sourceEntries[q]? = none → isProtected options q .directory = true) ∧
            ∀ e ∈ sourceEntries[q]?, e.metadata.fileType ≠ .file) := by
  rw [or_iff_not_imp_left]
  constructor
  · intro h hmode key _ _ hprot q hq hne hneq
    exact h hmode _ hprot q hne ((List.mem_inits q _).mp hq) hneq
  · intro h hmode r hr q hq hqr hne
    obtain ⟨c, hc, -⟩ := hr.guarded
    obtain ⟨node, hget, -⟩ := get_of_content hc
    have hkey := h hmode (dk ++ r) (mem_keys.mpr (by rw [hget]; rfl)) (List.prefix_append dk r)
    rw [List.drop_left] at hkey
    exact hkey hr q ((List.mem_inits q r).mpr hqr) hq hne

instance : Decidable (Sheltered fs dk sourceEntries options) :=
  decidable_of_iff' _ sheltered_iff

end Decide

/-! ## What stays -/

/-- What a sheltered run keeps: without deletions everything that has no source
entry. -/
structure SafeAt (fs : MemoryFileSystem) (dk : Key) (sourceEntries : Entries)
    (options : SyncOptions) (r : Key) : Prop where
  ne_nil : r ≠ []
  extra : sourceEntries[r]? = none
  guarded : ∃ c, fs.content (dk ++ r) = some c ∧
    (options.effectiveDeleteMode ≠ .none → isProtected options r c.1 = true)

theorem ProtectedAt.safe {fs : MemoryFileSystem} {dk r : Key} {sourceEntries : Entries}
    {options : SyncOptions} (h : ProtectedAt fs dk sourceEntries options r) :
    SafeAt fs dk sourceEntries options r := by
  obtain ⟨c, hc, hprot⟩ := h.guarded
  exact ⟨h.ne_nil, h.extra, c, hc, fun _ => hprot⟩

theorem SafeAt.protectedAt {fs : MemoryFileSystem} {dk r : Key} {sourceEntries : Entries}
    {options : SyncOptions} (h : SafeAt fs dk sourceEntries options r)
    (hmode : options.effectiveDeleteMode ≠ .none) : ProtectedAt fs dk sourceEntries options r := by
  obtain ⟨c, hc, hprot⟩ := h.guarded
  exact ⟨h.ne_nil, h.extra, c, hc, hprot hmode⟩

/-- The safe paths have what they had. -/
def SafeKept (fs : MemoryFileSystem) (dk : Key) (sourceEntries : Entries) (options : SyncOptions)
    (c : PathTree Bytes Content) : Prop :=
  ∀ r, SafeAt fs dk sourceEntries options r → c (dk ++ r) = fs.content (dk ++ r)

/-- A directory that has something in it stays if nothing allows deletions. -/
theorem keepsDirectory_of_child {fs : MemoryFileSystem} {target : PathBuf} {key : Key} {n : Bytes}
    {options : SyncOptions} (hk : target.names = some key) (hforce : options.forceDelete = false)
    (hmode : options.effectiveDeleteMode = .none) (hn : (fs.content (key ++ [n])).isSome) :
    keepsDirectory fs target options ≠ .ok false := by
  intro h
  unfold keepsDirectory at h
  rw [hforce, hmode] at h
  simp only [Bool.not_false, decide_true, Bool.and_self, if_true] at h
  cases hlist : fs.list target with
  | error err => simp [hlist, bind, Except.bind] at h
  | ok listed =>
      obtain ⟨key', _, hk', -, rfl⟩ := list_eq_ok hlist
      obtain rfl : key = key' := Option.some.inj (hk.symm.trans hk')
      obtain ⟨c, hc⟩ := Option.isSome_iff_exists.mp hn
      obtain ⟨node, hnode, -⟩ := get_of_content hc
      have hmem := mem_children.mpr hnode
      have hempty : fs.children key = [] := by
        simpa [hlist, bind, Except.bind, pure, Except.pure] using h
      rw [hempty] at hmem
      cases hmem

namespace SyncRun

variable {run : SyncRun} {fs : MemoryFileSystem} {sk dk : Key}

/-- What has no source entry is not on the way to one. -/
theorem Ground.not_above (h : run.Ground fs sk dk) {q r : Key} {e : WalkEntry} (hr : r ≠ [])
    (hnone : run.sourceEntries[r]? = none) (he : run.sourceEntries[q]? = some e) :
    ¬ dk ++ r <+: dk ++ q := by
  intro hpre
  by_cases hrq : r = q
  · rw [hrq, he] at hnone
    cases hnone
  · obtain ⟨e', he', -⟩ := h.source.above_of_prefix hr
      ((List.prefix_append_right_inj dk).mp hpre) hrq he
    rw [hnone] at he'
    cases he'

theorem Ground.safeKept_step (h : run.Ground fs sk dk) (hwf : WellFormed fs)
    (hforce : run.options.forceDelete = false) (hfree : LinkFree run.sourceEntries)
    (hshelter : Sheltered fs dk run.sourceEntries run.options) {q : Key} {e : WalkEntry}
    (he : run.sourceEntries[q]? = some e) {w : World} {change : FsAct}
    (hw : SafeKept fs dk run.sourceEntries run.options w.fs.content)
    (hact : run.stepAct (dk ++ q) q e w.fs change) :
    SafeKept fs dk run.sourceEntries run.options (change.run w.fs).2.content := by
  intro r hr
  have hk := names_join_key h.dest q
  have hq := h.source.ne_nil q e he
  have hqr : q ≠ r := by
    rintro rfl
    rw [hr.extra] at he
    cases he
  rw [← hw r hr]
  refine (hact.away hk (h.not_above hr.ne_nil hr.extra he)).resolve_right ?_
  rintro ⟨-, hpre, hdir, hkind, -, hkeep⟩
  have hfile : e.metadata.fileType = .file := hkind.resolve_right (hfree q e he)
  replace hpre : q <+: r := (List.prefix_append_right_inj dk).mp hpre
  by_cases hmode : run.options.effectiveDeleteMode = .none
  · -- what is on the way to `r` next below `q` is still there
    obtain ⟨rest, rfl⟩ := hpre
    cases rest with
    | nil => exact hqr (List.append_nil q).symm
    | cons n rest =>
        have hchild : SafeAt fs dk run.sourceEntries run.options (q ++ [n]) := by
          refine ⟨by simp, ?_, ?_⟩
          · cases hs : run.sourceEntries[q ++ [n]]? with
            | none => rfl
            | some e' =>
                obtain ⟨e₀, he₀, hdir₀⟩ := h.source.parent q n e' hq hs
                obtain rfl : e = e₀ := Option.some.inj (he.symm.trans he₀)
                exact absurd hdir₀ hdir
          · obtain ⟨c, hc, -⟩ := hr.guarded
            by_cases hrest : rest = []
            · subst hrest
              exact ⟨c, hc, fun h => absurd hmode h⟩
            · have hc' : fs.content ((dk ++ (q ++ [n])) ++ rest) = some c := by
                simpa [List.append_assoc] using hc
              obtain ⟨c', hc', -⟩ := hwf.tree.above hc' hrest
              exact ⟨c', hc', fun h => absurd hmode h⟩
        obtain ⟨c, hc, -⟩ := hchild.guarded
        refine keepsDirectory_of_child (n := n) hk hforce hmode ?_ hkeep
        rw [List.append_assoc, hw _ hchild, hc]
        rfl
  · exact (hshelter hmode r (hr.protectedAt hmode) q hq hpre hqr).2 e he hfile

/-- A deletion takes nothing that is safe. -/
theorem Ground.safeKept_delete (h : run.Ground fs sk dk)
    (hshelter : Sheltered fs dk run.sourceEntries run.options)
    (hmode : run.options.effectiveDeleteMode ≠ .none) {q : Key} {e : WalkEntry}
    (he : run.destEntries[q]? = some e) (hnone : run.sourceEntries[q]? = none)
    (hprot : isProtected run.options q e.metadata.fileType = false) {w : World} {change : FsAct}
    (hw : SafeKept fs dk run.sourceEntries run.options w.fs.content)
    (hact : DeleteAct run.dest q e run.options w.fs change) :
    SafeKept fs dk run.sourceEntries run.options (change.run w.fs).2.content := by
  intro r hr
  have hk : e.path.names = some (dk ++ q) := by
    rw [h.destination.path_eq he]
    exact names_key _
  rw [← hw r hr]
  refine (hact.away h.options.backup hk _).resolve_right ?_
  rintro ⟨-, hbelow⟩
  have hprotected := hr.protectedAt hmode
  by_cases hqr : q = r
  · subst hqr
    obtain ⟨c, hc, hguard⟩ := hprotected.guarded
    obtain ⟨b, hb⟩ := h.destination.content he
    rw [hb] at hc
    cases hc
    rw [hprot] at hguard
    cases hguard
  · rcases hbelow with heq | ⟨hdir, hpre⟩
    · exact hqr (List.append_cancel_left heq).symm
    · have hup := (hshelter hmode r hprotected q (h.destination.ne_nil q e he)
        ((List.prefix_append_right_inj dk).mp hpre) hqr).1 hnone
      rw [← hdir, hprot] at hup
      cases hup

/-- Deletions keep what is safe, and the ground. -/
theorem Ground.ensures_deletesWhen_safe (h : run.Ground fs sk dk)
    (hshelter : Sheltered fs dk run.sourceEntries run.options) {modes : List DeleteMode}
    (hmodes : .none ∉ modes) {done rest : List (Key × WalkEntry)}
    (hsplit : run.sourceEntries.toList = done ++ rest) {w : World}
    (hground : Grounded dk (Directories done) w)
    (hw : SafeKept fs dk run.sourceEntries run.options w.fs.content) :
    (run.deletesWhen modes).Ensures syncHandler
      (fun t => SafeKept fs dk run.sourceEntries run.options t.fs.content)
      (fun _ t => Grounded dk (Directories done) t ∧
        SafeKept fs dk run.sourceEntries run.options t.fs.content) w := by
  by_cases hmode : run.options.effectiveDeleteMode = .none
  · unfold deletesWhen
    rw [hmode, if_neg hmodes]
    exact ⟨hw, hground, hw⟩
  · refine (ensures_deletesWhen (I := fun t => Grounded dk (Directories done) t ∧
      SafeKept fs dk run.sourceEntries run.options t.fs.content) modes
      (fun t action ht => ⟨⟨ht.1.root, ht.1.dirs⟩, ht.2⟩) ?_ ⟨hground, hw⟩).mono_always
      fun t ht => ht.2
    intro q e he hnone hprot
    refine ⟨fun t action ht => ⟨⟨ht.1.root, ht.1.dirs⟩, ht.2⟩, fun t change _ ht hact => ?_⟩
    exact ⟨h.grounded_delete hsplit he hnone ht.1 hact,
      h.safeKept_delete hshelter hmode he hnone hprot ht.2 hact⟩

/-- In every state of a sheltered run what is safe is as it was. -/
theorem Ground.ensures_execute_safe (h : run.Ground fs sk dk) (hwf : WellFormed fs)
    (hforce : run.options.forceDelete = false) (hfree : LinkFree run.sourceEntries)
    (hshelter : Sheltered fs dk run.sourceEntries run.options) {actions : List SyncAction}
    (hground : Grounded dk (Directories []) ⟨fs, actions⟩) :
    run.execute.Ensures syncHandler
      (fun t => SafeKept fs dk run.sourceEntries run.options t.fs.content)
      (fun _ t => SafeKept fs dk run.sourceEntries run.options t.fs.content) ⟨fs, actions⟩ := by
  refine h.ensures_execute (I := SafeKept fs dk run.sourceEntries run.options)
    (P := fun _ => SafeKept fs dk run.sourceEntries run.options) (fun _ hc => hc)
    (fun _ _ hc => hc) (fun _ hc => hc) (fun t ht hw => ?_)
    (fun done q e rest t change hsplit _ hw hact => ?_) (fun _ _ _ _ _ _ hc _ => hc)
    (fun t ht hw => ?_) hground fun r _ => rfl
  · exact h.ensures_deletesWhen_safe hshelter (by decide) (List.nil_append _).symm ht hw
  · exact h.safeKept_step hwf hforce hfree hshelter (getElem?_of_toList hsplit) hw hact
  · exact (h.ensures_deletesWhen_safe hshelter (by decide) (List.append_nil _).symm ht hw).mono
      fun _ u hu => hu.2

end SyncRun

/-! ## What goes -/

/-- What is at `r` goes with the directory at `q`, or is gone. -/
def Doomed (dk q r : Key) (c : PathTree Bytes Content) : Prop :=
  c (dk ++ r) = none ∨ ∃ b, c (dk ++ q) = some (.directory, b)

namespace SyncRun

variable {run : SyncRun} {fs : MemoryFileSystem} {sk dk q r : Key} {w : World} {change : FsAct}

/-- Nothing comes back that has no source entry. -/
theorem Ground.gone_step (h : run.Ground fs sk dk) (hr : r ≠ [])
    (hnone : run.sourceEntries[r]? = none) {k : Key} {e : WalkEntry}
    (he : run.sourceEntries[k]? = some e) (hw : w.fs.content (dk ++ r) = none)
    (hact : run.stepAct (dk ++ k) k e w.fs change) :
    (change.run w.fs).2.content (dk ++ r) = none := by
  rcases hact.away (names_join_key h.dest k) (h.not_above hr hnone he) with hsame | ⟨hgone, -⟩
  · rw [hsame, hw]
  · exact hgone

theorem Ground.delete_names (h : run.Ground fs sk dk) {k : Key} {e : WalkEntry}
    (he : run.destEntries[k]? = some e) : e.path.names = some (dk ++ k) := by
  rw [h.destination.path_eq he]
  exact names_key _

theorem Ground.gone_delete (h : run.Ground fs sk dk) {k : Key} {e : WalkEntry}
    (he : run.destEntries[k]? = some e) (hw : w.fs.content (dk ++ r) = none)
    (hact : DeleteAct run.dest k e run.options w.fs change) :
    (change.run w.fs).2.content (dk ++ r) = none := by
  rcases hact.away h.options.backup (h.delete_names he) (dk ++ r) with hsame | ⟨hgone, -⟩
  · rw [hsame, hw]
  · exact hgone

/-- The entries of the source leave the directory, but for a file that takes its place. -/
theorem Ground.doomed_step (h : run.Ground fs sk dk) (hfree : LinkFree run.sourceEntries)
    (hr : r ≠ []) (hnone : run.sourceEntries[r]? = none) (hqr : q <+: r)
    {k : Key} {e : WalkEntry} (he : run.sourceEntries[k]? = some e) (hkq : q <+: k → k = q)
    (hfile : k <+: q → k ≠ q → e.metadata.fileType ≠ .file) (hw : Doomed dk q r w.fs.content)
    (hact : run.stepAct (dk ++ k) k e w.fs change) :
    Doomed dk q r (change.run w.fs).2.content := by
  have hk := names_join_key h.dest k
  rcases hw with hgone | ⟨b, hdir⟩
  · exact Or.inl (h.gone_step hr hnone he hgone hact)
  by_cases heq : k = q
  · subst heq
    cases hact with
    | makeDir _ hclear =>
        rw [FsAct.run, createDirAll_of_clear hk hclear, content_createDirs]
        exact Or.inr ⟨b, PathTree.fill_eq_some_of hdir⟩
    | clearDir =>
        rw [FsAct.run]
        rcases removeDirAll_cases hk with ⟨err, hrun, -⟩ | ⟨fs', -, hrun, hc⟩
        · rw [hrun]
          exact Or.inr ⟨b, hdir⟩
        · rw [hrun, hc]
          exact Or.inl (PathTree.prune_of_prefix ((List.prefix_append_right_inj dk).mpr hqr))
    | clearFile =>
        rw [FsAct.run]
        rcases removeFile_cases hk with ⟨err, hrun, -⟩ | ⟨c, fs', hc, hne, -⟩
        · rw [hrun]
          exact Or.inr ⟨b, hdir⟩
        · -- a directory is not removed as a file
          rw [hdir] at hc
          cases hc
          exact absurd rfl hne
    | copy source mode _ _ htype => cases htype _ hdir
    | symlink linkTarget hsym => exact absurd hsym (hfree k e he)
    | mtime modified =>
        rw [FsAct.run, content_setMtime]
        exact Or.inr ⟨b, hdir⟩
  · refine Or.inr ⟨b, ?_⟩
    rw [← hdir]
    refine (hact.away hk fun hpre => ?_).resolve_right ?_
    · exact heq (hkq ((List.prefix_append_right_inj dk).mp hpre))
    · rintro ⟨-, hpre, -, hkind, -⟩
      exact hfile ((List.prefix_append_right_inj dk).mp hpre) heq
        (hkind.resolve_right (hfree k e he))

/-- A deletion leaves a directory that it is not above. -/
theorem Ground.doomed_delete (h : run.Ground fs sk dk) {k : Key} {e : WalkEntry}
    (he : run.destEntries[k]? = some e) (hkq : ¬ k <+: q) (hw : Doomed dk q r w.fs.content)
    (hact : DeleteAct run.dest k e run.options w.fs change) :
    Doomed dk q r (change.run w.fs).2.content := by
  rcases hw with hgone | ⟨b, hdir⟩
  · exact Or.inl (h.gone_delete he hgone hact)
  · refine Or.inr ⟨b, ?_⟩
    rw [← hdir]
    refine (hact.away h.options.backup (h.delete_names he) _).resolve_right ?_
    rintro ⟨-, heq | ⟨-, hpre⟩⟩
    · exact hkq (List.append_cancel_left heq ▸ List.prefix_refl _)
    · exact hkq ((List.prefix_append_right_inj dk).mp hpre)

/-- Deletions keep the ground. -/
theorem Ground.ensures_deletesWhen (h : run.Ground fs sk dk) {P : PathTree Bytes Content → Prop}
    (modes : List DeleteMode) {done rest : List (Key × WalkEntry)}
    (hsplit : run.sourceEntries.toList = done ++ rest)
    (hP : ∀ (k : Key) e (t : World) change, run.destEntries[k]? = some e →
      run.sourceEntries[k]? = none → P t.fs.content → DeleteAct run.dest k e run.options t.fs change →
      P (change.run t.fs).2.content)
    (hground : Grounded dk (Directories done) w) (hw : P w.fs.content) :
    (run.deletesWhen modes).Ensures syncHandler (fun _ => True)
      (fun _ t => Grounded dk (Directories done) t ∧ P t.fs.content) w := by
  refine (SyncRun.ensures_deletesWhen (I := fun t => Grounded dk (Directories done) t ∧
    P t.fs.content) modes (fun t action ht => ⟨⟨ht.1.root, ht.1.dirs⟩, ht.2⟩) ?_
    ⟨hground, hw⟩).mono_always fun _ _ => trivial
  intro k e he hnone _
  refine ⟨fun t action ht => ⟨⟨ht.1.root, ht.1.dirs⟩, ht.2⟩, fun t change _ ht hact => ?_⟩
  exact ⟨h.grounded_delete hsplit he hnone ht.1 hact, hP k e t change he hnone ht.2 hact⟩

theorem Ground.ensures_deletesWhen_gone (h : run.Ground fs sk dk) {modes : List DeleteMode}
    (hground : Grounded dk (Directories run.sourceEntries.toList) w)
    (hw : w.fs.content (dk ++ r) = none) :
    (run.deletesWhen modes).Ensures syncHandler (fun _ => True)
      (fun _ t => t.fs.content (dk ++ r) = none) w := by
  have hsplit : run.sourceEntries.toList = run.sourceEntries.toList ++ [] :=
    (List.append_nil _).symm
  have hkept := h.ensures_deletesWhen (P := fun c => c (dk ++ r) = none) modes hsplit
    (fun k e t change he _ ht hact => h.gone_delete he ht hact) hground hw
  exact hkept.mono fun _ u hu => hu.2

/-- A run that returns has cleared away what was in the place of a file. -/
theorem Ground.ensures_execute_replaced (h : run.Ground fs sk dk)
    (hfree : LinkFree run.sourceEntries) (hmode : run.options.effectiveDeleteMode ≠ .none)
    (hr : r ≠ []) (hnone : run.sourceEntries[r]? = none) (hqr : q <+: r) {e : WalkEntry}
    (he : run.sourceEntries[q]? = some e) (hfile : e.metadata.fileType = .file)
    (hground : Grounded dk (Directories []) w) (hw : Doomed dk q r w.fs.content) :
    run.execute.Ensures syncHandler (fun _ => True)
      (fun _ t => t.fs.content (dk ++ r) = none) w := by
  have hq := h.source.ne_nil q e he
  -- there is nothing below a file in the source, and only directories above it
  have hbelow : ∀ k e', run.sourceEntries[k]? = some e' → q <+: k → k = q := by
    intro k e' hk hpre
    by_contra hne
    obtain ⟨e₀, he₀, hdir⟩ := h.source.above_of_prefix hq hpre (Ne.symm hne) hk
    obtain rfl : e = e₀ := Option.some.inj (he.symm.trans he₀)
    rw [hfile] at hdir
    cases hdir
  have habove : ∀ k e', run.sourceEntries[k]? = some e' → k <+: q → k ≠ q →
      e'.metadata.fileType ≠ .file := by
    intro k e' hk hpre hne htype
    obtain ⟨e₀, he₀, hdir⟩ := h.source.above_of_prefix (h.source.ne_nil k e' hk) hpre hne he
    obtain rfl : e' = e₀ := Option.some.inj (hk.symm.trans he₀)
    rw [htype] at hdir
    cases hdir
  refine h.ensures_execute (I := fun _ => True) (A := Doomed dk q r)
    (P := fun done c => Doomed dk q r c ∧ ((∃ e', (q, e') ∈ done) → c (dk ++ r) = none))
    (C := fun c => c (dk ++ r) = none) (fun _ _ => trivial) (fun _ _ _ => trivial)
    (fun _ _ => trivial) (fun t ht hdoomed => ?_) (fun done k e' rest t change hsplit _ hP hact => ?_)
    (fun done k e' rest c hsplit hP htype => ?_) (fun t ht hP => ?_) hground hw
  · refine (h.ensures_deletesWhen (P := Doomed dk q r) _ (List.nil_append _).symm
      (fun k e' u change he' hnone' hu hact => ?_) ht hdoomed).mono fun _ u hu => ?_
    · refine h.doomed_delete he' (fun hpre => ?_) hu hact
      exact h.not_above (h.destination.ne_nil k e' he') hnone' he
        ((List.prefix_append_right_inj dk).mpr hpre)
    · exact ⟨hu.1, hu.2, by simp⟩
  · have hk := getElem?_of_toList hsplit
    refine ⟨h.doomed_step hfree hr hnone hqr hk (hbelow k e' hk) (habove k e' hk) hP.1 hact, ?_⟩
    intro hmem
    exact h.gone_step hr hnone hk (hP.2 hmem) hact
  · refine ⟨hP.1, fun ⟨e₀, hmem⟩ => ?_⟩
    rcases List.mem_append.mp hmem with hmem | hmem
    · exact hP.2 ⟨e₀, hmem⟩
    · obtain ⟨rfl, rfl⟩ := Prod.mk.inj (List.mem_singleton.mp hmem)
      obtain rfl : e = e₀ := Option.some.inj (he.symm.trans (getElem?_of_toList hsplit))
      refine hP.1.resolve_right fun ⟨b, hdir⟩ => ?_
      cases htype hfile hmode _ hdir
  · have hmem : (q, e) ∈ run.sourceEntries.toList :=
      Std.TreeMap.mem_toList_iff_getElem?_eq_some.mpr he
    exact h.ensures_deletesWhen_gone ht (hP.2 ⟨e, hmem⟩)

/-- The decisions of a plan take an unprotected directory with what is in it. -/
theorem Ground.ensures_applyDecisions_gone (h : run.Ground fs sk dk) (hwf : WellFormed fs)
    {decisions : List IncrementalDeleteDecision}
    (hplan : Plan run.sourceEntries run.destEntries run.options decisions) (hqr : q <+: r)
    {e : WalkEntry} (he : run.destEntries[q]? = some e) (hdir : e.metadata.fileType = .directory)
    (hextra : run.sourceEntries[q]? = none)
    (hprot : isProtected run.options q .directory = false) (hw : Doomed dk q r w.fs.content) :
    (applyDecisions run.dest run.destEntries run.options 0 decisions).Ensures syncHandler
      (fun _ => True) (fun _ t => t.fs.content (dk ++ r) = none) w := by
  -- the directory is there as long as its decision is still to come
  let K : List IncrementalDeleteDecision → World → Prop := fun ds t =>
    (t.fs.content (dk ++ r) = none ∨ (∃ b, t.fs.content (dk ++ q) = some (.directory, b)) ∧
      ∃ d ∈ ds, d.relative = q) ∧ ∀ d ∈ ds, d ∈ decisions
  have hrule : (applyDecisions run.dest run.destEntries run.options 0 decisions).Ensures
      syncHandler (fun _ => True) (fun _ t => ∃ _ : Nat, K [] t) w := by
    refine Fs.ensures_applyDecisions (K := fun _ => K) (fun _ _ _ _ => trivial) ?_ ?_ ?_
      (fun d hd => (hplan.entry d hd).imp fun _ h => h.1) ⟨?_, fun d hd => hd⟩
    · rintro n d ds t e' ⟨hK, hmem⟩ he' hex
      refine ⟨hK.imp_right fun ⟨hdir', d', hd', heq⟩ => ⟨hdir', ?_⟩,
        fun d' hd' => hmem d' (List.mem_cons_of_mem _ hd')⟩
      rcases List.mem_cons.mp hd' with rfl | hd'
      · obtain ⟨b, hb⟩ := hdir'
        rw [existsAt_iff (h.delete_names he'), heq, hb] at hex
        cases hex
      · exact ⟨d', hd', heq⟩
    · rintro n d ds t e' ⟨hK, hmem⟩ he' hprotected
      refine ⟨hK.imp_right fun ⟨hdir', d', hd', heq⟩ => ⟨hdir', ?_⟩,
        fun d' hd' => hmem d' (List.mem_cons_of_mem _ hd')⟩
      rcases List.mem_cons.mp hd' with rfl | hd'
      · obtain ⟨e₀, he₀, -, hdec⟩ := hplan.entry d' (hmem d' List.mem_cons_self)
        rw [heq, he] at he₀
        obtain rfl : e = e₀ := Option.some.inj he₀
        rw [hprotected, heq, hdir, hprot] at hdec
        cases hdec
      · exact ⟨d', hd', heq⟩
    · rintro n d ds t e' ⟨hK, hmem⟩ he' - - -
      have hrest : ∀ d' ∈ ds, d' ∈ decisions := fun d' hd' => hmem d' (List.mem_cons_of_mem _ hd')
      have hgone := ensures_deleteReceiverEntry_gone (w := t) h.options.dryRun run.dest d.relative
        (h.delete_names he')
      rcases hK with hnone | ⟨hdir', d', hd', heq⟩
      · have hkept : Kept run.options.dryRun (DeleteAct run.dest d.relative e' run.options)
            (fun t => t.fs.content (dk ++ r) = none) :=
          ⟨fun _ _ hu => hu, fun u change _ hu hact => h.gone_delete he' hu hact⟩
        refine ((ensures_deleteReceiverEntry hkept hnone).mono_always fun _ _ => trivial).mono ?_
        exact fun _ u hu => ⟨Or.inl hu, hrest⟩
      by_cases hpre : d.relative <+: q
      · -- whatever is above a directory is one, too
        have htype : e'.metadata.fileType = .directory := by
          by_cases hd : d.relative = q
          · rw [hd, he] at he'
            rw [← Option.some.inj he', hdir]
          · obtain ⟨rest, rfl⟩ := hpre
            obtain ⟨b, hb⟩ := h.destination.content he
            rw [← List.append_assoc] at hb
            obtain ⟨c, hc, htop⟩ := hwf.tree.above hb (by rintro rfl; exact hd (by simp))
            obtain ⟨b', hb'⟩ := h.destination.content he'
            rw [hb'] at hc
            cases hc
            exact htop
        refine hgone.mono fun _ u hu => ⟨Or.inl (hu.2 htype _ ?_), hrest⟩
        exact (List.prefix_append_right_inj dk).mpr (hpre.trans hqr)
      · have hkept : Kept run.options.dryRun (DeleteAct run.dest d.relative e' run.options)
            (fun t => Doomed dk q r t.fs.content) :=
          ⟨fun _ _ hu => hu, fun u change _ hu hact => h.doomed_delete he' hpre hu hact⟩
        refine ((ensures_deleteReceiverEntry hkept (Or.inr hdir')).mono_always
          fun _ _ => trivial).mono fun _ u hu => ⟨hu.imp_right fun hu => ⟨hu, ?_⟩, hrest⟩
        rcases List.mem_cons.mp hd' with rfl | hd'
        · exact absurd (heq ▸ List.prefix_refl _) hpre
        · exact ⟨d', hd', heq⟩
    · exact hw.imp_right fun hdir' => ⟨hdir', hplan.all q e he hextra⟩
  refine hrule.mono fun _ t ⟨_, hK, _⟩ => hK.resolve_right ?_
  rintro ⟨-, d, hd, -⟩
  cases hd

/-- A run that returns has deleted what was in an unprotected directory. -/
theorem Ground.ensures_execute_deleted (h : run.Ground fs sk dk) (hwf : WellFormed fs)
    (hfree : LinkFree run.sourceEntries) (hmode : run.options.effectiveDeleteMode ≠ .none)
    (hr : r ≠ []) (hnone : run.sourceEntries[r]? = none) (hq : q ≠ []) (hqr : q <+: r)
    {e : WalkEntry} (he : run.destEntries[q]? = some e)
    (hdir : e.metadata.fileType = .directory) (hextra : run.sourceEntries[q]? = none)
    (hprot : isProtected run.options q .directory = false)
    (habove : ∀ k e', run.sourceEntries[k]? = some e' → k <+: q → e'.metadata.fileType ≠ .file)
    (hground : Grounded dk (Directories []) w) (hw : Doomed dk q r w.fs.content) :
    run.execute.Ensures syncHandler (fun _ => True)
      (fun _ t => t.fs.content (dk ++ r) = none) w := by
  have hdelete : ∀ t, Doomed dk q r t.fs.content → ∀ decisions,
      Plan run.sourceEntries run.destEntries run.options decisions →
      (applyDecisions run.dest run.destEntries run.options 0 decisions).Ensures syncHandler
        (fun _ => True) (fun _ t => t.fs.content (dk ++ r) = none) t := fun t ht decisions hplan =>
    h.ensures_applyDecisions_gone hwf hplan hqr he hdir hextra hprot ht
  refine h.ensures_execute (I := fun _ => True) (A := Doomed dk q r)
    (P := fun _ c => Doomed dk q r c ∧
      (run.options.effectiveDeleteMode ∈ [DeleteMode.before, .during] → c (dk ++ r) = none))
    (C := fun c => c (dk ++ r) = none) (fun _ _ => trivial) (fun _ _ _ => trivial)
    (fun _ _ => trivial) (fun t ht hdoomed => ?_) (fun done k e' rest t change hsplit _ hP hact => ?_)
    (fun _ _ _ _ _ _ hP _ => hP) (fun t ht hP => ?_) hground hw
  · have hstays := h.ensures_deletesWhen (P := fun _ => True) [.before, .during]
      (List.nil_append _).symm (fun _ _ _ _ _ _ _ _ => trivial) ht trivial
    have hgone : (run.deletesWhen [.before, .during]).Ensures syncHandler (fun _ => True)
        (fun _ t => Doomed dk q r t.fs.content ∧
          (run.options.effectiveDeleteMode ∈ [DeleteMode.before, .during] →
            t.fs.content (dk ++ r) = none)) t := by
      refine ensures_deletesWhen_plan (by decide) trivial (fun hoff => ?_) fun decisions _ hplan => ?_
      · exact ⟨hdoomed, fun hon => absurd hon hoff⟩
      · exact (hdelete t hdoomed decisions hplan).mono fun _ u hu => ⟨Or.inl hu, fun _ => hu⟩
    exact ((hstays.and hgone).mono_always fun _ _ => trivial).mono fun _ u hu => ⟨hu.1.1, hu.2⟩
  · have hk := getElem?_of_toList hsplit
    refine ⟨h.doomed_step hfree hr hnone hqr hk (fun hpre => ?_) (fun hpre _ => habove k e' hk hpre)
      hP.1 hact, fun hon => h.gone_step hr hnone hk (hP.2 hon) hact⟩
    exact absurd ((List.prefix_append_right_inj dk).mpr hpre) (h.not_above hq hextra hk)
  · by_cases hon : run.options.effectiveDeleteMode ∈ [DeleteMode.before, .during]
    · exact h.ensures_deletesWhen_gone ht (hP.2 hon)
    · refine ensures_deletesWhen_plan (by decide) trivial (fun hoff => ?_) fun decisions _ hplan =>
        hdelete t hP.1 decisions hplan
      -- every mode but none deletes early or late
      revert hmode hon hoff
      cases run.options.effectiveDeleteMode <;> simp

end SyncRun

/-! ## The whole sync -/

section Whole

variable {fs : MemoryFileSystem} {stack : Nat} {source dest : PathBuf} {options : SyncOptions}
  {sk dk : Key} {run : SyncRun}

theorem Prepared.ground (hrun : Prepared stack fs source dest options run) (hwf : WellFormed fs)
    (hs : source.names = some sk) (hd : dest.names = some dk) (hoptions : DeleteOptions options) :
    run.Ground fs sk dk where
  options := hrun.options_eq ▸ hoptions.plain
  dirlinks := hrun.options_eq ▸ hoptions.keepDirlinks
  recursive := hrun.options_eq ▸ hoptions.recursive
  ignoreErrors := hrun.options_eq ▸ hoptions.ignoreErrors
  dest := hrun.dest_eq ▸ hd
  source := hrun.sourceTree (hwf.noFollow (by rw [hoptions.symlinkMode]; simp)) hs
  destination := hrun.destTree hwf hd

theorem grounded_start (hwf : WellFormed fs) (hroot : ∃ b, fs.content dk = some (.directory, b))
    (actions : List SyncAction) : Grounded dk (Directories []) ⟨fs, actions⟩ := by
  refine ⟨fun x hx => ?_, ?_⟩
  · obtain ⟨rest, rfl⟩ := hx
    by_cases hrest : rest = []
    · rw [hrest, List.append_nil] at hroot
      exact hroot
    · obtain ⟨b, hb⟩ := hroot
      obtain ⟨⟨type, b'⟩, hc, rfl⟩ := hwf.tree.above hb hrest
      exact ⟨b', hc⟩
  · rintro r ⟨e, hr, -⟩
    cases hr

/-- Only a directory has anything to protect. -/
theorem ProtectedAt.root {r : Key} {sourceEntries : Entries} (hwf : WellFormed fs)
    (h : ProtectedAt fs dk sourceEntries options r) :
    ∃ b, fs.content dk = some (.directory, b) := by
  obtain ⟨c, hc, -⟩ := h.guarded
  obtain ⟨⟨type, b⟩, hroot, rfl⟩ := hwf.tree.above hc h.ne_nil
  exact ⟨b, hroot⟩

/-- A run that returns has lost what is not sheltered. -/
theorem Prepared.ensures_execute_lost (hrun : Prepared stack fs source dest options run)
    (hwf : WellFormed fs) (hs : source.names = some sk) (hd : dest.names = some dk)
    (hoptions : DeleteOptions options) (hmode : options.effectiveDeleteMode ≠ .none) {q r : Key}
    (hr : ProtectedAt fs dk run.sourceEntries options r) (hq : q ≠ []) (hqr : q <+: r)
    (hne : q ≠ r)
    (hopen : (run.sourceEntries[q]? = none ∧ isProtected options q .directory = false) ∨
      ∃ e, run.sourceEntries[q]? = some e ∧ e.metadata.fileType = .file) :
    run.execute.Ensures syncHandler (fun _ => True)
      (fun _ t => t.fs.content (dk ++ r) = none) ⟨fs, []⟩ := by
  have hground := hrun.ground hwf hs hd hoptions
  have hstart := grounded_start hwf (hr.root hwf) []
  have hfree := linkFree_sourceEntriesOf hoptions.symlinkMode hrun.source
  have hmode' : run.options.effectiveDeleteMode ≠ .none := hrun.options_eq ▸ hmode
  -- what is above a protected path is a directory
  have hdir : ∀ k, k <+: r → k ≠ r → ∃ b, fs.content (dk ++ k) = some (.directory, b) := by
    rintro k ⟨rest, rfl⟩ hk
    obtain ⟨c, hc, -⟩ := hr.guarded
    rw [← List.append_assoc] at hc
    obtain ⟨⟨type, b⟩, htop, rfl⟩ := hwf.tree.above hc (by rintro rfl; exact hk (by simp))
    exact ⟨b, htop⟩
  have hreplaced : ∀ k e, k <+: r → k ≠ r → run.sourceEntries[k]? = some e →
      e.metadata.fileType = .file → run.execute.Ensures syncHandler (fun _ => True)
        (fun _ t => t.fs.content (dk ++ r) = none) ⟨fs, []⟩ := fun k e hkr hk he hfile =>
    hground.ensures_execute_replaced hfree hmode' hr.ne_nil hr.extra hkr he hfile hstart
      (Or.inr (hdir k hkr hk))
  rcases hopen with ⟨hextra, hprot⟩ | ⟨e, he, hfile⟩
  · by_cases habove : ∃ k e, run.sourceEntries[k]? = some e ∧ k <+: q ∧ e.metadata.fileType = .file
    · obtain ⟨k, e, he, hkq, hfile⟩ := habove
      refine hreplaced k e (hkq.trans hqr) ?_ he hfile
      rintro rfl
      exact hne (hqr.eq_of_length_le hkq.length_le)
    · obtain ⟨b, hb⟩ := hdir q hqr hne
      obtain ⟨e, he⟩ := Option.isSome_iff_exists.mp
        (hrun.dest_listed hwf hd hoptions.recursive hq (by rw [hb]; rfl))
      obtain ⟨b', hb'⟩ := hground.destination.content he
      rw [hb] at hb'
      refine hground.ensures_execute_deleted hwf hfree hmode' hr.ne_nil hr.extra hq hqr he
        (congrArg Prod.fst (Option.some.inj hb')).symm hextra (hrun.options_eq ▸ hprot)
        (fun k e' hk hkq hfile => habove ⟨k, e', hk, hkq, hfile⟩) hstart (Or.inr ⟨b, hb⟩)
  · exact hreplaced q e hqr hne he hfile

end Whole

end RsyncWin.Fs
