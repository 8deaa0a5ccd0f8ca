import RsyncWin.Fs.Effects

/-!
# The limit on deletions

`max_delete` counts decisions, not nodes. A decision on a directory takes all
that is below it, and a directory in the way of a file goes without a decision.
Where every node that goes in one of these ways has had a decision of its own
before, no more nodes go than the limit allows.
-/

namespace RsyncWin.Fs

open ByteString MemoryFileSystem

/-- The nodes below the destination that have no source entry. -/
def extraneous (fs : MemoryFileSystem) (dk : Key) (sourceEntries : Entries) : List Key :=
  ((fs.nodes.keys.filter fun x => dk.isPrefixOf x).map fun x => x.drop dk.length).filter fun r =>
    r ≠ [] && (sourceEntries[r]?).isNone

/-- A listed entry that nothing protects. -/
def Counted (destEntries : Entries) (options : SyncOptions) (r : Key) : Prop :=
  ∃ e, destEntries[r]? = some e ∧ isProtected options r e.metadata.fileType = false

/-- Deletions come before the transfer. -/
def SyncOptions.DeletesEarly (options : SyncOptions) : Prop :=
  options.effectiveDeleteMode ∈ [.before, .during]

/-- What goes with a directory or in the way of a file has a decision of its own. -/
structure CountedDeletes (fs : MemoryFileSystem) (dest : PathBuf) (dk : Key)
    (sourceEntries destEntries : Entries) (options : SyncOptions) : Prop where
  dirs : ∀ (q : Key) e, destEntries[q]? = some e → sourceEntries[q]? = none →
    e.metadata.fileType = .directory → isProtected options q e.metadata.fileType = false →
    ∀ r, q <+: r → r ∈ extraneous fs dk sourceEntries → Counted destEntries options r
  conflicts : ∀ (q : Key) e, sourceEntries[q]? = some e →
    e.metadata.fileType = .file ∨ e.metadata.fileType = .symlink →
    ∀ r, q <+: r → r ∈ extraneous fs dk sourceEntries →
      options.DeletesEarly ∧ Counted destEntries options r
  staging : options.delayUpdates = true → ∀ (q : Key) e, sourceEntries[q]? = some e →
    e.metadata.fileType = .file → ∀ r, r ∈ extraneous fs dk sourceEntries →
      (delayedUpdatePath dest q.path options).names = some (dk ++ r) →
      options.DeletesEarly ∧ Counted destEntries options r

/-- The extraneous nodes that are gone. -/
def lost (before after : MemoryFileSystem) (dk : Key) (sourceEntries : Entries) : List Key :=
  (extraneous before dk sourceEntries).filter fun r => (after.get (dk ++ r)).isNone

instance (destEntries : Entries) (options : SyncOptions) (r : Key) :
    Decidable (Counted destEntries options r) :=
  decidable_of_iff
    ((destEntries[r]?).any fun e => isProtected options r e.metadata.fileType = false) <| by
    rw [Option.any_eq_true]
    simp [Counted]

instance (options : SyncOptions) : Decidable options.DeletesEarly :=
  inferInstanceAs (Decidable (_ ∈ _))

theorem countedDeletes_iff {fs : MemoryFileSystem} {dest : PathBuf} {dk : Key}
    {sourceEntries destEntries : Entries} {options : SyncOptions} :
    ((∀ x ∈ destEntries.toList, sourceEntries[x.1]? = none →
        x.2.metadata.fileType = .directory →
        isProtected options x.1 x.2.metadata.fileType = false →
        ∀ r ∈ extraneous fs dk sourceEntries, x.1 <+: r → Counted destEntries options r) ∧
      (∀ x ∈ sourceEntries.toList,
        x.2.metadata.fileType = .file ∨ x.2.metadata.fileType = .symlink →
        ∀ r ∈ extraneous fs dk sourceEntries, x.1 <+: r →
          options.DeletesEarly ∧ Counted destEntries options r) ∧
      (options.delayUpdates = true → ∀ x ∈ sourceEntries.toList, x.2.metadata.fileType = .file →
        ∀ r ∈ extraneous fs dk sourceEntries,
          (delayedUpdatePath dest x.1.path options).names = some (dk ++ r) →
          options.DeletesEarly ∧ Counted destEntries options r)) ↔
      CountedDeletes fs dest dk sourceEntries destEntries options := by
  simp only [Prod.forall, Std.TreeMap.mem_toList_iff_getElem?_eq_some]
  constructor
  · rintro ⟨hdirs, hconflicts, hstaging⟩
    exact ⟨fun q e he hnone hdir hprot r hpre hr => hdirs q e he hnone hdir hprot r hr hpre,
      fun q e he htype r hpre hr => hconflicts q e he htype r hr hpre, hstaging⟩
  · rintro ⟨hdirs, hconflicts, hstaging⟩
    exact ⟨fun q e he hnone hdir hprot r hr hpre => hdirs q e he hnone hdir hprot r hpre hr,
      fun q e he htype r hr hpre => hconflicts q e he htype r hpre hr, hstaging⟩

instance (fs : MemoryFileSystem) (dest : PathBuf) (dk : Key) (sourceEntries destEntries : Entries)
    (options : SyncOptions) :
    Decidable (CountedDeletes fs dest dk sourceEntries destEntries options) :=
  decidable_of_iff _ countedDeletes_iff

section Missing

variable {fs : MemoryFileSystem} {dk : Key} {sourceEntries destEntries : Entries}
  {options : SyncOptions}

/-- Every extraneous node that is gone is in `gone`. -/
def Gone (fs : MemoryFileSystem) (dk : Key) (sourceEntries : Entries) (gone : List Key)
    (w : World) : Prop :=
  ∀ r, r ∈ extraneous fs dk sourceEntries → w.fs.content (dk ++ r) = none → r ∈ gone

theorem mem_extraneous {r : Key} :
    r ∈ extraneous fs dk sourceEntries ↔
      r ≠ [] ∧ sourceEntries[r]? = none ∧ (fs.content (dk ++ r)).isSome := by
  have hcontent : (fs.content (dk ++ r)).isSome ↔ (fs.get (dk ++ r)).isSome := by
    rw [Option.isSome_iff_ne_none, Option.isSome_iff_ne_none, ne_eq, content_eq_none]
  simp only [extraneous, List.mem_filter, List.mem_map, mem_keys, List.isPrefixOf_iff_prefix,
    Bool.and_eq_true, decide_eq_true_eq, Option.isNone_iff_eq_none, hcontent]
  constructor
  · rintro ⟨⟨x, ⟨hx, rest, rfl⟩, rfl⟩, hne, hnone⟩
    rw [List.drop_left] at hne hnone ⊢
    exact ⟨hne, hnone, hx⟩
  · rintro ⟨hne, hnone, hx⟩
    exact ⟨⟨dk ++ r, ⟨hx, List.prefix_append dk r⟩, List.drop_left⟩, hne, hnone⟩

theorem nodup_extraneous : (extraneous fs dk sourceEntries).Nodup := by
  have hkeys : (fs.nodes.keys.filter fun x => dk.isPrefixOf x).Nodup :=
    List.Nodup.sublist List.filter_sublist Std.TreeMap.nodup_keys
  refine List.Nodup.sublist List.filter_sublist (hkeys.map_on ?_)
  intro x hx y hy heq
  obtain ⟨r, rfl⟩ := List.isPrefixOf_iff_prefix.mp (List.mem_filter.mp hx).2
  obtain ⟨r', rfl⟩ := List.isPrefixOf_iff_prefix.mp (List.mem_filter.mp hy).2
  rw [List.drop_left, List.drop_left] at heq
  rw [heq]

theorem lost_length_le {gone : List Key} {w : World} (h : Gone fs dk sourceEntries gone w) :
    (lost fs w.fs dk sourceEntries).length ≤ gone.length := by
  have hsub : lost fs w.fs dk sourceEntries ⊆ gone := by
    intro r hr
    obtain ⟨hr, hnone⟩ := List.mem_filter.mp hr
    exact h r hr (content_eq_none.mpr (Option.isNone_iff_eq_none.mp hnone))
  exact (List.subperm_of_subset (nodup_extraneous.filter _) hsub).length_le

/-- At the start nothing is gone. -/
theorem gone_nil_self {actions : List SyncAction} :
    Gone fs dk sourceEntries [] ⟨fs, actions⟩ := by
  intro r hr hnone
  have hsome := (mem_extraneous.mp hr).2.2
  rw [hnone] at hsome
  cases hsome

/-- A change adds to what is gone only what it takes. -/
theorem Gone.act {gone : List Key} {w : World} {change : FsAct}
    (h : Gone fs dk sourceEntries gone w)
    (htakes : ∀ r, r ∈ extraneous fs dk sourceEntries → change.Takes (dk ++ r) → r ∈ gone) :
    Gone fs dk sourceEntries gone { w with fs := (change.run w.fs).2 } := by
  intro r hr hnone
  by_cases htake : change.Takes (dk ++ r)
  · exact htakes r hr htake
  · refine h r hr ?_
    cases hc : w.fs.content (dk ++ r) with
    | none => rfl
    | some c =>
        have hsome := isSome_run htake (Option.isSome_iff_exists.mpr ⟨c, hc⟩)
        rw [hnone] at hsome
        cases hsome

theorem Gone.kept {gone : List Key} {dryRun : Bool} {allowed : MemoryFileSystem → FsAct → Prop}
    (htakes : ∀ fs' change r, allowed fs' change → r ∈ extraneous fs dk sourceEntries →
      change.Takes (dk ++ r) → r ∈ gone) :
    Kept dryRun allowed (Gone fs dk sourceEntries gone) where
  push _ _ h := h
  act w change _ h hallowed := h.act fun r hr htake => htakes w.fs change r hallowed hr htake

end Missing

namespace SyncRun

variable {run : SyncRun} {fs : MemoryFileSystem} {dk : Key} {limit : Nat}

/-- What the transfer of a source entry takes has been counted before. -/
theorem entryAct_takes (hd : run.dest.names = some dk)
    (hcounted : CountedDeletes fs run.dest dk run.sourceEntries run.destEntries run.options)
    {q : Key} {e : WalkEntry} (he : run.sourceEntries[q]? = some e) {fs' : MemoryFileSystem}
    {change : FsAct} (hact : run.entryAct q e fs' change) {r : Key}
    (hr : r ∈ extraneous fs dk run.sourceEntries) (htake : change.Takes (dk ++ r)) :
    run.options.DeletesEarly ∧ Counted run.destEntries run.options r := by
  have hnames := names_join_key hd q
  cases hact with
  | makeDir => exact htake.elim
  | clearDir hmeta hdir hentry hkeep =>
      obtain ⟨key, hkey, hpre⟩ := htake
      obtain rfl := Option.some.inj (hnames.symm.trans hkey)
      exact hcounted.conflicts q e he hentry r ((List.prefix_append_right_inj dk).mp hpre) hr
  | clearFile =>
      have hqr : q = r := List.append_cancel_left (Option.some.inj (hnames.symm.trans htake))
      subst hqr
      rw [(mem_extraneous.mp hr).2.1] at he
      cases he
  | backup => exact htake.elim
  | link => exact htake.elim
  | copy => exact htake.elim
  | stage => exact htake.elim
  | append => exact htake.elim
  | symlink => exact htake.elim
  | mtime => exact htake.elim
  | settle hdelay hfile => exact hcounted.staging hdelay q e he hfile r hr htake
  | unstage hdelay hfile => exact hcounted.staging hdelay q e he hfile r hr htake

/-- After the deletions: no more are gone than the limit allows, and all that
was to go is among them. -/
def DeletesDone (run : SyncRun) (fs : MemoryFileSystem) (dk : Key) (limit : Nat) (w : World) :
    Prop :=
  ∃ gone : List Key, gone.length ≤ limit ∧ Gone fs dk run.sourceEntries gone w ∧
    ∀ r, r ∈ extraneous fs dk run.sourceEntries → Counted run.destEntries run.options r → r ∈ gone

/-- During the transfer: the deletions are done, or nothing is gone. -/
def DeletesDue (run : SyncRun) (fs : MemoryFileSystem) (dk : Key) (limit : Nat) (w : World) :
    Prop :=
  (run.options.DeletesEarly → run.DeletesDone fs dk limit w) ∧
    (¬ run.options.DeletesEarly → Gone fs dk run.sourceEntries [] w)

theorem entriesKeep_deletesDone (hd : run.dest.names = some dk)
    (hcounted : CountedDeletes fs run.dest dk run.sourceEntries run.destEntries run.options) :
    run.EntriesKeep (run.DeletesDone fs dk limit) := by
  intro q e he
  refine ⟨fun _ _ h => h, fun w change _ h hact => ?_⟩
  obtain ⟨gone, hlen, hgone, hall⟩ := h
  refine ⟨gone, hlen, hgone.act fun r hr htake => ?_, hall⟩
  exact hall r hr (entryAct_takes hd hcounted he hact hr htake).2

theorem entriesKeep_deletesDue (hd : run.dest.names = some dk)
    (hcounted : CountedDeletes fs run.dest dk run.sourceEntries run.destEntries run.options) :
    run.EntriesKeep (run.DeletesDue fs dk limit) := by
  intro q e he
  refine ⟨fun _ _ h => h, fun w change hdry h hact => ⟨fun hearly => ?_, fun hlate => ?_⟩⟩
  · exact (entriesKeep_deletesDone hd hcounted q e he).act w change hdry (h.1 hearly) hact
  · refine (h.2 hlate).act fun r hr htake => ?_
    exact absurd (entryAct_takes hd hcounted he hact hr htake).1 hlate

/-- Between two decisions: as many are gone as were counted, among them what the
decisions so far were about. -/
def Counting (run : SyncRun) (fs : MemoryFileSystem) (dk : Key) (limit : Nat)
    (decisions : List IncrementalDeleteDecision) (n : Nat) (ds : List IncrementalDeleteDecision)
    (w : World) : Prop :=
  ∃ done gone, decisions = done ++ ds ∧ gone.length ≤ n ∧ n ≤ limit ∧
    Gone fs dk run.sourceEntries gone w ∧
    ∀ d ∈ done, d.isProtected = false → d.relative ∈ gone

variable {decisions : List IncrementalDeleteDecision}

theorem extraneous_of_plan
    (hplan : Plan run.sourceEntries run.destEntries run.options decisions)
    (hdest : TreeEntries fs dk run.destEntries) {d : IncrementalDeleteDecision}
    (hd : d ∈ decisions) : d.relative ∈ extraneous fs dk run.sourceEntries := by
  obtain ⟨e, he, hnone, -⟩ := hplan.entry d hd
  obtain ⟨bytes, hc⟩ := hdest.content he
  exact mem_extraneous.mpr ⟨hdest.ne_nil _ e he, hnone, by rw [hc]; rfl⟩

/-- What goes with a directory has been decided before it: deeper paths come first. -/
theorem decided_before (hplan : Plan run.sourceEntries run.destEntries run.options decisions)
    {done ds : List IncrementalDeleteDecision} {d : IncrementalDeleteDecision}
    (hsplit : decisions = done ++ d :: ds) {r : Key} (hpre : d.relative <+: r)
    (hne : d.relative ≠ r) (hnone : run.sourceEntries[r]? = none)
    (hcount : Counted run.destEntries run.options r) :
    ∃ d' ∈ done, d'.isProtected = false ∧ d'.relative = r := by
  obtain ⟨e, he, hprot⟩ := hcount
  obtain ⟨d', hd', rfl⟩ := hplan.all r e he hnone
  obtain ⟨e', he', -, hprot'⟩ := hplan.entry d' hd'
  obtain rfl : e = e' := Option.some.inj (he.symm.trans he')
  have hlt : d.relative.length < d'.relative.length :=
    lt_of_le_of_ne hpre.length_le fun hlen => hne (hpre.eq_of_length hlen)
  refine ⟨d', ?_, by rw [hprot', hprot], rfl⟩
  rw [hsplit, List.mem_append, List.mem_cons] at hd'
  rcases hd' with h | rfl | h
  · exact h
  · exact absurd rfl hne
  · have hsorted := hplan.deepFirst
    rw [hsplit, List.pairwise_append, List.pairwise_cons] at hsorted
    exact absurd (hsorted.2.1.1 d' h) (by omega)

theorem ensures_counting (hdest : TreeEntries fs dk run.destEntries)
    (hcounted : CountedDeletes fs run.dest dk run.sourceEntries run.destEntries run.options)
    (hplan : Plan run.sourceEntries run.destEntries run.options decisions)
    {n : Nat} {d : IncrementalDeleteDecision}
    {ds : List IncrementalDeleteDecision} {w : World} {e : WalkEntry}
    (h : run.Counting fs dk limit decisions n (d :: ds) w)
    (he : run.destEntries[d.relative]? = some e) (hprot : d.isProtected = false) (hn : n < limit) :
    (deleteReceiverEntry run.dest e.path d.relative e.metadata.fileType run.options).Ensures
      syncHandler (fun t => ∃ gone : List Key, gone.length ≤ limit ∧
        Gone fs dk run.sourceEntries gone t)
      (fun _ => run.Counting fs dk limit decisions (n + 1) ds) w := by
  obtain ⟨done, gone, hsplit, hlen, -, hgone, hdone⟩ := h
  have hd : d ∈ decisions := by
    rw [hsplit]
    simp
  obtain ⟨e', he', hnone, hprotE⟩ := hplan.entry d hd
  obtain rfl : e = e' := Option.some.inj (he.symm.trans he')
  have hpath : e.path.names = some (dk ++ d.relative) := by
    rw [hdest.path_eq he]
    exact names_key _
  have hkept : Kept run.options.dryRun (DeleteAct run.dest d.relative e run.options)
      (Gone fs dk run.sourceEntries (d.relative :: gone)) := by
    refine Gone.kept fun fs' change r hact hr htake => ?_
    cases hact with
    | backup => exact htake.elim
    | file htype =>
        have hrel : d.relative = r :=
          List.append_cancel_left (Option.some.inj (hpath.symm.trans htake))
        rw [hrel]
        exact List.mem_cons_self
    | dir htype =>
        obtain ⟨key, hkey, hpre⟩ := htake
        obtain rfl := Option.some.inj (hpath.symm.trans hkey)
        have hpre := (List.prefix_append_right_inj dk).mp hpre
        by_cases hne : d.relative = r
        · rw [hne]
          exact List.mem_cons_self
        · have hcount := hcounted.dirs _ e he hnone htype (hprotE ▸ hprot) r hpre hr
          obtain ⟨d', hd', hprot', rfl⟩ := decided_before hplan hsplit hpre hne
            (mem_extraneous.mp hr).2.1 hcount
          exact List.mem_cons_of_mem _ (hdone d' hd' hprot')
  have hstart : Gone fs dk run.sourceEntries (d.relative :: gone) w := fun r hr hnone =>
    List.mem_cons_of_mem _ (hgone r hr hnone)
  have hlen' : (d.relative :: gone).length ≤ n + 1 := by
    rw [List.length_cons]
    omega
  refine ((ensures_deleteReceiverEntry hkept hstart).mono_always fun t ht => ?_).mono
    fun _ t ht => ?_
  · exact ⟨_, hlen'.trans hn, ht⟩
  · refine ⟨done ++ [d], d.relative :: gone, by simp [hsplit], hlen', hn, ht, fun d' hd' hp => ?_⟩
    rcases List.mem_append.mp hd' with hd' | hd'
    · exact List.mem_cons_of_mem _ (hdone d' hd' hp)
    · rw [List.mem_singleton.mp hd']
      exact List.mem_cons_self

/-- The decisions of a plan, counted one by one. -/
theorem ensures_applyDecisions_counting (hdest : TreeEntries fs dk run.destEntries)
    (hcounted : CountedDeletes fs run.dest dk run.sourceEntries run.destEntries run.options)
    (hplan : Plan run.sourceEntries run.destEntries run.options decisions)
    (hlimit : run.options.maxDelete = some limit) {w : World}
    (hw : Gone fs dk run.sourceEntries [] w) :
    (applyDecisions run.dest run.destEntries run.options 0 decisions).Ensures syncHandler
      (fun t => ∃ gone : List Key, gone.length ≤ limit ∧ Gone fs dk run.sourceEntries gone t)
      (fun _ => run.DeletesDone fs dk limit) w := by
  have hcons : ∀ {n d ds t}, run.Counting fs dk limit decisions n (d :: ds) t →
      (∀ gone, Gone fs dk run.sourceEntries gone t → d.isProtected = false → d.relative ∈ gone) →
      run.Counting fs dk limit decisions n ds t := by
    rintro n d ds t ⟨done, gone, hsplit, hlen, hn, hgone, hdone⟩ hd
    refine ⟨done ++ [d], gone, by simp [hsplit], hlen, hn, hgone, fun d' hd' hp => ?_⟩
    rcases List.mem_append.mp hd' with hd' | hd'
    · exact hdone d' hd' hp
    · obtain rfl := List.mem_singleton.mp hd'
      exact hd gone hgone hp
  have hrule : (applyDecisions run.dest run.destEntries run.options 0 decisions).Ensures
      syncHandler
      (fun t => ∃ gone : List Key, gone.length ≤ limit ∧ Gone fs dk run.sourceEntries gone t)
      (fun _ t => ∃ m, run.Counting fs dk limit decisions m [] t) w := by
    refine ensures_applyDecisions
      (fun n ds t ⟨done, gone, _, hlen, hn, hgone, _⟩ => ⟨gone, hlen.trans hn, hgone⟩) ?_ ?_
      (fun n d ds t e h he _ hprot hn =>
        ensures_counting hdest hcounted hplan h he hprot (hn limit hlimit))
      (fun d hd => (hplan.entry d hd).imp fun _ h => h.1)
      ⟨[], [], rfl, le_rfl, Nat.zero_le _, hw, by simp⟩
    · -- an entry that is no longer there is gone already
      intro n d ds t e h he hex
      refine hcons h fun gone hgone _ => ?_
      obtain ⟨done, -, hsplit, -⟩ := h
      have hd : d ∈ decisions := by
        rw [hsplit]
        simp
      refine hgone _ (extraneous_of_plan hplan hdest hd) ?_
      rw [existsAt_iff (by rw [hdest.path_eq he]; exact names_key _)] at hex
      simpa using hex
    · intro n d ds t e h he hprot
      refine hcons (t := { t with report := t.report ++ [.protectDelete e.path] }) h
        fun gone hgone hp => ?_
      rw [hprot] at hp
      cases hp
  refine hrule.mono fun _ t ⟨m, done, gone, hsplit, hlen, hn, hgone, hdone⟩ => ?_
  refine ⟨gone, hlen.trans hn, hgone, fun r hr hcount => ?_⟩
  obtain ⟨e, he, hprot⟩ := hcount
  obtain ⟨d, hd, rfl⟩ := hplan.all r e he (mem_extraneous.mp hr).2.1
  obtain ⟨e', he', -, hprotE⟩ := hplan.entry d hd
  obtain rfl : e = e' := Option.some.inj (he.symm.trans he')
  rw [List.append_nil] at hsplit
  exact hdone d (hsplit ▸ hd) (by rw [hprotE, hprot])

/-- No state of a run has lost more than the limit. -/
theorem ensures_execute_counting (hd : run.dest.names = some dk)
    (hdest : TreeEntries fs dk run.destEntries)
    (hcounted : CountedDeletes fs run.dest dk run.sourceEntries run.destEntries run.options)
    (hmode : run.options.effectiveDeleteMode ≠ .none)
    (hlimit : run.options.maxDelete = some limit) (actions : List SyncAction) :
    run.execute.Ensures syncHandler
      (fun t => ∃ gone : List Key, gone.length ≤ limit ∧ Gone fs dk run.sourceEntries gone t)
      (fun _ => run.DeletesDone fs dk limit) ⟨fs, actions⟩ := by
  have hdone : ∀ t, run.DeletesDone fs dk limit t →
      ∃ gone : List Key, gone.length ≤ limit ∧ Gone fs dk run.sourceEntries gone t :=
    fun t ⟨gone, hlen, hgone, _⟩ => ⟨gone, hlen, hgone⟩
  have hnone : ∀ t, Gone fs dk run.sourceEntries [] t →
      ∃ gone : List Key, gone.length ≤ limit ∧ Gone fs dk run.sourceEntries gone t :=
    fun t h => ⟨[], Nat.zero_le _, h⟩
  have hdue : ∀ t, run.DeletesDue fs dk limit t →
      ∃ gone : List Key, gone.length ≤ limit ∧ Gone fs dk run.sourceEntries gone t := by
    intro t h
    by_cases hearly : run.options.DeletesEarly
    · exact hdone t (h.1 hearly)
    · exact hnone t (h.2 hearly)
  refine ensures_execute_between (A := Gone fs dk run.sourceEntries [])
    (J := run.DeletesDue fs dk limit) ?_ hnone hdue hdone ?_
    (entriesKeep_deletesDue hd hcounted) ?_ (entriesKeep_deletesDone hd hcounted).mtimes ?_
  · refine Gone.kept fun fs' change r hact _ htake => ?_
    rw [hact] at htake
    exact htake.elim
  · intro t ht
    refine ensures_deletesWhen_plan (by decide) (hnone t ht) (fun hoff => ?_)
      fun decisions hon hplan => ?_
    · exact ⟨fun hearly => absurd hearly hoff, fun _ => ht⟩
    · refine (ensures_applyDecisions_counting hdest hcounted hplan hlimit ht).mono fun _ u hu => ?_
      exact ⟨fun _ => hu, fun hlate => absurd hon hlate⟩
  · intro t ht
    refine ensures_deletesWhen_plan (by decide) (hdue t ht) (fun hoff => ht.1 ?_)
      fun decisions hon hplan => ensures_applyDecisions_counting hdest hcounted hplan hlimit (ht.2 ?_)
    · unfold SyncOptions.DeletesEarly
      cases hm : run.options.effectiveDeleteMode with
      | none => exact absurd hm hmode
      | before => simp
      | during => simp
      | delay =>
          rw [hm] at hoff
          exact absurd hoff (by simp)
      | after =>
          rw [hm] at hoff
          exact absurd hoff (by simp)
    · intro hearly
      unfold SyncOptions.DeletesEarly at hearly
      revert hon hearly
      cases run.options.effectiveDeleteMode <;> simp
  · exact gone_nil_self

end SyncRun

end RsyncWin.Fs
