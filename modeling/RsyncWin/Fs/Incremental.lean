import RsyncWin.Fs.DeletePlan
import RsyncWin.Remote.EntryBatches

/-!
# Incremental batches at the receiver (`IncrementalReceiverState`, `rsync-fs/src/sync.rs`)

The receiver numbers the entries of the batches that it is given and plans deletions
once the final batch is in. A builder's batches, in order, are what it expects.
-/

namespace RsyncWin.Fs

open ByteString PathBuf EntryBatchBuilder

/-- A path of names and `.` components that names something. -/
def Normal (path : PathBuf) : Prop := ∃ key, names path = some key ∧ key ≠ []

theorem normalize_of_names {path : PathBuf} {key : Key} (h : names path = some key)
    (hne : key ≠ []) : normalizeIncrementalRelativePath path = .ok key := by
  unfold normalizeIncrementalRelativePath
  rw [h]
  exact if_neg hne

theorem normalize_of_not_normal {path : PathBuf} (h : ¬ Normal path) :
    normalizeIncrementalRelativePath path = .error (.invalidPortablePath path) := by
  unfold normalizeIncrementalRelativePath
  cases hnames : names path with
  | none => rfl
  | some key =>
      by_cases hkey : key = []
      · exact if_pos hkey
      · exact absurd ⟨key, hnames, hkey⟩ h

namespace IncrementalReceiverState

/-! ## What is observed -/

/-- The state knows the entries `seen` and no others. -/
structure Observed (state : IncrementalReceiverState) (seen : List IncrementalSourceEntry) :
    Prop where
  next : state.nextIndex = seen.length
  completed : ∀ i, i ∈ state.completedFileIndexes ↔ i < seen.length
  relatives : ∀ r, r ∈ state.sourceRelatives ↔ ∃ entry ∈ seen, names entry.path = some r

theorem observed_new (deleteMode : DeleteMode) :
    Observed ({ deleteMode } : IncrementalReceiverState) [] := by
  constructor
  · rfl
  · intro i
    exact ⟨fun h => absurd h List.not_mem_nil, fun h => absurd h (Nat.not_lt_zero i)⟩
  · intro r
    constructor
    · intro h
      exact absurd h List.not_mem_nil
    · rintro ⟨entry, hmem, -⟩
      exact absurd hmem List.not_mem_nil

variable {state : IncrementalReceiverState} {seen entries : List IncrementalSourceEntry}

/-- The state after one entry, as `observeEntries` leaves it. -/
def observedEntry (state : IncrementalReceiverState) (index : Nat) (relative : Key)
    (fileType : FileType) : IncrementalReceiverState :=
  { state with
    sourceRelatives := state.sourceRelatives.insert relative
    completedFileIndexes := state.completedFileIndexes.insert index
    pendingDirectories :=
      if fileType = .directory then state.pendingDirectories.insert relative
      else state.pendingDirectories
    nextIndex := index + 1 }

theorem observeEntries_cons {entry : IncrementalSourceEntry} {key : Key} (index : Nat)
    (hkey : names entry.path = some key) (hne : key ≠ []) :
    state.observeEntries index (entry :: entries) =
      (state.observedEntry index key entry.fileType).observeEntries (index + 1) entries := by
  rw [observeEntries, normalize_of_names hkey hne]
  rfl

theorem observed_entry {entry : IncrementalSourceEntry} {key : Key} (h : Observed state seen)
    (hkey : names entry.path = some key) :
    Observed (state.observedEntry seen.length key entry.fileType) (seen ++ [entry]) := by
  constructor
  · rw [List.length_append]
    rfl
  · intro i
    show i ∈ state.completedFileIndexes.insert seen.length ↔ _
    rw [List.mem_insert_iff, h.completed, List.length_append]
    show i = seen.length ∨ i < seen.length ↔ i < seen.length + 1
    omega
  · intro r
    show r ∈ state.sourceRelatives.insert key ↔ _
    rw [List.mem_insert_iff, h.relatives]
    constructor
    · rintro (rfl | ⟨e, hmem, he⟩)
      · exact ⟨entry, List.mem_append_right _ (List.mem_singleton_self entry), hkey⟩
      · exact ⟨e, List.mem_append_left _ hmem, he⟩
    · rintro ⟨e, hmem, he⟩
      rcases List.mem_append.mp hmem with hmem | hmem
      · exact Or.inr ⟨e, hmem, he⟩
      · rw [List.mem_singleton.mp hmem, hkey] at he
        exact Or.inl (Option.some.inj he).symm

theorem observeEntries_normal (h : Observed state seen)
    (hnormal : ∀ entry ∈ entries, Normal entry.path) :
    ∃ state', state.observeEntries seen.length entries = (.ok (), state') ∧
      Observed state' (seen ++ entries) ∧ state'.finalSeen = state.finalSeen ∧
      state'.deleteMode = state.deleteMode := by
  induction entries generalizing state seen with
  | nil =>
      rw [List.append_nil]
      exact ⟨state, rfl, h, rfl, rfl⟩
  | cons entry entries ih =>
      rw [List.forall_mem_cons] at hnormal
      obtain ⟨key, hkey, hne⟩ := hnormal.1
      rw [observeEntries_cons seen.length hkey hne]
      obtain ⟨state', hrun, hobs, hfinal, hmode⟩ := ih (observed_entry h hkey) hnormal.2
      rw [List.length_append] at hrun
      rw [List.append_assoc] at hobs
      exact ⟨state', hrun, hobs, hfinal, hmode⟩

/-- The next batch, before the final one was seen. -/
theorem observeBatch_normal (h : Observed state seen) (hopen : state.finalSeen = false)
    (hnormal : ∀ entry ∈ entries, Normal entry.path) (isFinal : Bool) :
    ∃ state', state.observeBatch seen.length entries isFinal = (.ok (), state') ∧
      Observed state' (seen ++ entries) ∧ state'.finalSeen = isFinal ∧
      state'.deleteMode = state.deleteMode := by
  obtain ⟨state', hrun, hobs, hfinal, hmode⟩ := observeEntries_normal h hnormal
  have hbatch : state.observeBatch seen.length entries isFinal =
      (.ok (), if isFinal then { state' with finalSeen := true } else state') := by
    unfold observeBatch
    rw [hopen, if_neg Bool.false_ne_true, if_neg (not_not.mpr h.next.symm), hrun]
  cases isFinal with
  | true => exact ⟨_, hbatch, ⟨hobs.next, hobs.completed, hobs.relatives⟩, rfl, hmode⟩
  | false => exact ⟨state', hbatch, hobs, hfinal.trans hopen, hmode⟩

/-! ## Deletions -/

theorem decideDelete_relative (filterRules : RuleSet) (filesFrom : Option (List PathBuf))
    (deleteExcluded : Bool) (entry : Key × FileType) :
    (decideDelete filterRules filesFrom deleteExcluded entry).relative = entry.1 := by
  unfold decideDelete
  split
  · rfl
  · split <;> rfl

/-- No path stands behind one of its ancestors. -/
def DescendantsFirst (decisions : List IncrementalDeleteDecision) : Prop :=
  decisions.Pairwise fun a b => a.relative <+: b.relative → a.relative = b.relative

theorem planDeletes_open (hopen : state.finalSeen = false)
    (existingEntries : List (Key × FileType)) (filterRules : RuleSet)
    (filesFrom : Option (List PathBuf)) (deleteExcluded : Bool) :
    (state.planDeletes existingEntries filterRules filesFrom deleteExcluded).1 = [] := by
  unfold planDeletes deleteReady
  rw [hopen, Bool.and_false, if_neg Bool.false_ne_true]

theorem planDeletes_unobserved (h : Observed state seen)
    {existingEntries : List (Key × FileType)} {filterRules : RuleSet}
    {filesFrom : Option (List PathBuf)} {deleteExcluded : Bool} {d : IncrementalDeleteDecision}
    (hd : d ∈ (state.planDeletes existingEntries filterRules filesFrom deleteExcluded).1) :
    ∀ entry ∈ seen, names entry.path ≠ some d.relative := by
  unfold planDeletes at hd
  split at hd
  · obtain ⟨e, he, rfl⟩ := List.mem_map.mp hd
    rw [(sortBy_perm deleteOrder _).mem_iff, List.mem_filter, decide_eq_true_eq] at he
    rw [decideDelete_relative]
    intro entry hmem hnames
    exact he.2 ((h.relatives e.1).mpr ⟨entry, hmem, hnames⟩)
  · exact absurd hd List.not_mem_nil

theorem planDeletes_descendantsFirst (existingEntries : List (Key × FileType))
    (filterRules : RuleSet) (filesFrom : Option (List PathBuf)) (deleteExcluded : Bool) :
    DescendantsFirst
      (state.planDeletes existingEntries filterRules filesFrom deleteExcluded).1 := by
  unfold planDeletes
  split
  · refine List.pairwise_map.mpr ((inOrder_sortBy deleteOrder _).imp fun {a b} hab => ?_)
    rw [decideDelete_relative, decideDelete_relative]
    exact fun hpre => hpre.eq_of_length_le (length_le_of_deleteOrder hab)
  · exact List.Pairwise.nil

/-! ## A builder's batches -/

/-- What the receiver is told of an entry. -/
def incrementalSourceEntry (fileType : RsyncFileListEntry → FileType)
    (entry : RsyncFileListEntry) : IncrementalSourceEntry :=
  ⟨components entry.path, fileType entry⟩

/-- One call for each batch, up to the first that fails. -/
def observeBatches (fileType : RsyncFileListEntry → FileType) (state : IncrementalReceiverState) :
    List FileListBatch → Except FsError Unit × IncrementalReceiverState
  | [] => (.ok (), state)
  | batch :: batches =>
      match state.observeBatch batch.baseIndex
        (batch.entries.map (incrementalSourceEntry fileType)) batch.isFinal with
      | (.error e, state) => (.error e, state)
      | (.ok (), state) => observeBatches fileType state batches

variable {fileType : RsyncFileListEntry → FileType} {batches : List FileListBatch}

theorem observeBatches_cons {batch : FileListBatch} {state' : IncrementalReceiverState}
    (h : state.observeBatch batch.baseIndex
      (batch.entries.map (incrementalSourceEntry fileType)) batch.isFinal = (.ok (), state')) :
    observeBatches fileType state (batch :: batches) = observeBatches fileType state' batches := by
  rw [observeBatches, h]

theorem observeBatches_append {state' : IncrementalReceiverState} {more : List FileListBatch}
    (h : observeBatches fileType state batches = (.ok (), state')) :
    observeBatches fileType state (batches ++ more) = observeBatches fileType state' more := by
  induction batches generalizing state with
  | nil =>
      obtain rfl : state = state' := congrArg Prod.snd h
      rfl
  | cons batch batches ih =>
      rw [observeBatches] at h
      rw [List.cons_append, observeBatches]
      split at h
      · cases h
      · exact ih h

/-- The paths of the batches name something. -/
def NormalEntries (entries : List RsyncFileListEntry) : Prop :=
  ∀ entry ∈ entries, Normal (components entry.path)

theorem normal_map (fileType : RsyncFileListEntry → FileType)
    {entries : List RsyncFileListEntry} (h : NormalEntries entries) :
    ∀ entry ∈ entries.map (incrementalSourceEntry fileType), Normal entry.path := by
  intro entry hmem
  obtain ⟨e, he, rfl⟩ := List.mem_map.mp hmem
  exact h e he

/-- A run of batches before the final one. -/
theorem observeBatches_open (h : Observed state seen) (hopen : state.finalSeen = false)
    (hcontiguous : Contiguous seen.length batches)
    (hbatches : ∀ batch ∈ batches, batch.isFinal = false)
    (hnormal : NormalEntries (entriesOf batches)) :
    ∃ state', observeBatches fileType state batches = (.ok (), state') ∧
      Observed state' (seen ++ (entriesOf batches).map (incrementalSourceEntry fileType)) ∧
      state'.finalSeen = false := by
  induction batches generalizing state seen with
  | nil =>
      refine ⟨state, rfl, ?_, hopen⟩
      rw [entriesOf, List.flatMap_nil, List.map_nil, List.append_nil]
      exact h
  | cons batch batches ih =>
      rw [List.forall_mem_cons] at hbatches
      have hfirst : NormalEntries batch.entries := fun entry hmem =>
        hnormal entry (List.mem_append_left _ hmem)
      have hrest : NormalEntries (entriesOf batches) := fun entry hmem =>
        hnormal entry (List.mem_append_right _ hmem)
      obtain ⟨hbase, hcontiguous⟩ := hcontiguous
      obtain ⟨state₁, hrun₁, hobs₁, hfinal₁, -⟩ :=
        observeBatch_normal h hopen (normal_map fileType hfirst) batch.isFinal
      rw [← hbase] at hrun₁
      rw [observeBatches_cons hrun₁]
      obtain ⟨state₂, hrun₂, hobs₂, hfinal₂⟩ :=
        ih hobs₁ (hfinal₁.trans hbatches.1)
          (by rw [List.length_append, List.length_map]; exact hcontiguous) hbatches.2 hrest
      refine ⟨state₂, hrun₂, ?_, hfinal₂⟩
      rw [entriesOf, List.flatMap_cons, List.map_append, ← List.append_assoc]
      exact hobs₂

/-! ## Rejected batches -/

/-- An operation on the state; only a batch may be rejected. -/
inductive Op where
  | observeBatch (baseIndex : Nat) (entries : List IncrementalSourceEntry) (isFinal : Bool)
  | planDeletes (existingEntries : List (Key × FileType)) (filterRules : RuleSet)
      (filesFrom : Option (List PathBuf)) (deleteExcluded : Bool)

def apply (state : IncrementalReceiverState) : Op → Except FsError Unit × IncrementalReceiverState
  | .observeBatch baseIndex entries isFinal => state.observeBatch baseIndex entries isFinal
  | .planDeletes existingEntries filterRules filesFrom deleteExcluded =>
      (.ok (), (state.planDeletes existingEntries filterRules filesFrom deleteExcluded).2)

/-- A batch that is rejected at once, for its first path or before any, or not at all. -/
def Keeps (state : IncrementalReceiverState) : Op → Prop
  | .observeBatch baseIndex entries _ =>
      state.finalSeen = true ∨ baseIndex ≠ state.nextIndex ∨
        (∀ entry ∈ entries, Normal entry.path) ∨
        ∃ entry rest, entries = entry :: rest ∧ ¬ Normal entry.path
  | .planDeletes .. => True

/-- The index never goes back. -/
theorem nextIndex_le_observeEntries {index : Nat} (h : state.nextIndex ≤ index) :
    state.nextIndex ≤ (state.observeEntries index entries).2.nextIndex := by
  induction entries generalizing state index with
  | nil => exact Nat.le_refl _
  | cons entry entries ih =>
      by_cases hnormal : Normal entry.path
      · obtain ⟨key, hkey, hne⟩ := hnormal
        rw [observeEntries_cons index hkey hne]
        have hstep : state.nextIndex ≤ (state.observedEntry index key entry.fileType).nextIndex :=
          Nat.le_succ_of_le h
        exact hstep.trans (ih (Nat.le_refl _))
      · rw [observeEntries, normalize_of_not_normal hnormal]

/-- The first entry is recorded whatever comes behind it. -/
theorem lt_nextIndex_observeEntries {entry : IncrementalSourceEntry} {index : Nat}
    (hnormal : Normal entry.path) :
    index < (state.observeEntries index (entry :: entries)).2.nextIndex := by
  obtain ⟨key, hkey, hne⟩ := hnormal
  rw [observeEntries_cons index hkey hne]
  show (state.observedEntry index key entry.fileType).nextIndex ≤ _
  exact nextIndex_le_observeEntries (Nat.le_refl _)

theorem observeEntries_bad (index : Nat) (h : ¬ ∀ entry ∈ entries, Normal entry.path) :
    ∃ e, (state.observeEntries index entries).1 = .error e := by
  induction entries generalizing state index with
  | nil => exact absurd (fun _ hmem => absurd hmem List.not_mem_nil) h
  | cons entry entries ih =>
      by_cases hnormal : Normal entry.path
      · rw [List.forall_mem_cons, not_and] at h
        have hrest := h hnormal
        obtain ⟨key, hkey, hne⟩ := hnormal
        rw [observeEntries_cons index hkey hne]
        exact ih (index + 1) hrest
      · rw [observeEntries, normalize_of_not_normal hnormal]
        exact ⟨_, rfl⟩

theorem observeEntries_good (index : Nat) (h : ∀ entry ∈ entries, Normal entry.path) :
    (state.observeEntries index entries).1 = .ok () := by
  induction entries generalizing state index with
  | nil => rfl
  | cons entry entries ih =>
      rw [List.forall_mem_cons] at h
      obtain ⟨key, hkey, hne⟩ := h.1
      rw [observeEntries_cons index hkey hne]
      exact ih (index + 1) h.2

theorem observeBatch_refused {baseIndex : Nat} (isFinal : Bool)
    (h : state.finalSeen = true ∨ baseIndex ≠ state.nextIndex) :
    (state.observeBatch baseIndex entries isFinal).2 = state := by
  unfold observeBatch
  split
  · rfl
  · rename_i hfinal
    rw [if_pos (h.resolve_left hfinal)]

theorem observeBatch_eq (hopen : state.finalSeen = false) (isFinal : Bool) :
    state.observeBatch state.nextIndex entries isFinal =
      match state.observeEntries state.nextIndex entries with
      | (.error e, state) => (.error e, state)
      | (.ok (), state) =>
          (.ok (), if isFinal then { state with finalSeen := true } else state) := by
  unfold observeBatch
  exact (if_neg (by rw [hopen]; exact Bool.false_ne_true)).trans (if_neg (not_not.mpr rfl))

theorem observeBatch_ok (hopen : state.finalSeen = false) (isFinal : Bool)
    (h : (state.observeEntries state.nextIndex entries).1 = .ok ()) :
    (state.observeBatch state.nextIndex entries isFinal).1 = .ok () := by
  rw [observeBatch_eq hopen]
  cases hrun : state.observeEntries state.nextIndex entries with
  | mk result state' =>
      rw [hrun] at h
      obtain rfl : result = .ok () := h
      rfl

theorem observeBatch_error (hopen : state.finalSeen = false) (isFinal : Bool) {e : FsError}
    (h : (state.observeEntries state.nextIndex entries).1 = .error e) :
    state.observeBatch state.nextIndex entries isFinal =
      (.error e, (state.observeEntries state.nextIndex entries).2) := by
  rw [observeBatch_eq hopen]
  cases hrun : state.observeEntries state.nextIndex entries with
  | mk result state' =>
      rw [hrun] at h
      obtain rfl : result = .error e := h
      rfl

/-- The batch is neither out of turn nor good: what decides is its first path. -/
theorem atomic_bad_iff (hopen : state.finalSeen = false) (isFinal : Bool)
    (hbad : ¬ ∀ entry ∈ entries, Normal entry.path) :
    FallibleRuns.Atomic apply state (.observeBatch state.nextIndex entries isFinal) ↔
      ∃ entry rest, entries = entry :: rest ∧ ¬ Normal entry.path := by
  obtain ⟨e, he⟩ : ∃ e, (state.observeEntries state.nextIndex entries).1 = .error e :=
    observeEntries_bad _ hbad
  have hrun : apply state (.observeBatch state.nextIndex entries isFinal) = _ :=
    observeBatch_error hopen isFinal he
  rw [FallibleRuns.atomic_iff_of_error (congrArg Prod.fst hrun), hrun]
  constructor
  · intro hsame
    cases entries with
    | nil => exact absurd (fun _ hmem => absurd hmem List.not_mem_nil) hbad
    | cons entry rest =>
        refine ⟨entry, rest, rfl, fun hnormal => ?_⟩
        have hlt : state.nextIndex <
            (state.observeEntries state.nextIndex (entry :: rest)).2.nextIndex :=
          lt_nextIndex_observeEntries hnormal
        have hsame' : (state.observeEntries state.nextIndex (entry :: rest)).2 = state := hsame
        rw [hsame'] at hlt
        exact absurd hlt (Nat.lt_irrefl _)
  · rintro ⟨entry, rest, rfl, hfirst⟩
    show (state.observeEntries state.nextIndex (entry :: rest)).2 = state
    rw [observeEntries, normalize_of_not_normal hfirst]

/-- Earlier entries of a batch stay recorded when a later one is rejected. -/
theorem atomic_iff_keeps (op : Op) : FallibleRuns.Atomic apply state op ↔ state.Keeps op := by
  cases op with
  | planDeletes existingEntries filterRules filesFrom deleteExcluded =>
      exact ⟨fun _ => trivial, fun _ => FallibleRuns.atomic_of_ok (r := ()) rfl⟩
  | observeBatch baseIndex entries isFinal =>
      by_cases hrefused : state.finalSeen = true ∨ baseIndex ≠ state.nextIndex
      · refine ⟨fun _ => ?_, fun _ _ _ => observeBatch_refused isFinal hrefused⟩
        exact hrefused.imp_right Or.inl
      · rw [not_or, Bool.not_eq_true, not_not] at hrefused
        obtain ⟨hopen, rfl⟩ := hrefused
        have hkeeps : state.Keeps (.observeBatch state.nextIndex entries isFinal) ↔
            (∀ entry ∈ entries, Normal entry.path) ∨
              ∃ entry rest, entries = entry :: rest ∧ ¬ Normal entry.path := by
          simp only [Keeps, hopen, Bool.false_eq_true, ne_eq, not_true, false_or]
        rw [hkeeps]
        by_cases hgood : ∀ entry ∈ entries, Normal entry.path
        · refine ⟨fun _ => Or.inl hgood, fun _ => FallibleRuns.atomic_of_ok (r := ()) ?_⟩
          exact observeBatch_ok hopen isFinal (observeEntries_good state.nextIndex hgood)
        · rw [atomic_bad_iff hopen isFinal hgood]
          exact ⟨Or.inr, fun h => h.resolve_left hgood⟩

end IncrementalReceiverState

open IncrementalReceiverState

/-- What the receiver makes of a builder's batches for `entries`. -/
structure Received (fileType : RsyncFileListEntry → FileType) (deleteMode : DeleteMode)
    (entries : List RsyncFileListEntry) (batches : List FileListBatch) : Prop where
  ok : (observeBatches fileType { deleteMode } batches).1 = .ok ()
  next : (observeBatches fileType { deleteMode } batches).2.nextIndex = entries.length
  completed : ∀ i, i ∈ (observeBatches fileType { deleteMode } batches).2.completedFileIndexes ↔
    i < (observeBatches fileType { deleteMode } batches).2.nextIndex
  early : ∀ done rest, batches = done ++ rest → rest ≠ [] →
    ∀ existing filterRules filesFrom deleteExcluded,
      ((observeBatches fileType { deleteMode } done).2.planDeletes existing filterRules filesFrom
        deleteExcluded).1 = []
  unobserved : ∀ existing filterRules filesFrom deleteExcluded,
    ∀ d ∈ ((observeBatches fileType { deleteMode } batches).2.planDeletes existing filterRules
      filesFrom deleteExcluded).1, ∀ entry ∈ entries, names (components entry.path) ≠ some d.relative
  descendantsFirst : ∀ existing filterRules filesFrom deleteExcluded,
    DescendantsFirst ((observeBatches fileType { deleteMode } batches).2.planDeletes existing
      filterRules filesFrom deleteExcluded).1

theorem received_of_batched {fileType : RsyncFileListEntry → FileType} {alloc : _ → Nat}
    {maxEntries : Nat} {maxAlloc : Option Nat} {entries : List RsyncFileListEntry}
    {batches : List FileListBatch} (h : Batched alloc maxEntries maxAlloc entries batches)
    (deleteMode : DeleteMode) (hnormal : NormalEntries entries) :
    Received fileType deleteMode entries batches := by
  obtain ⟨init, final, rfl, hfinal, hopen⟩ := h.last
  have hsame := h.same
  have hcontiguous := h.contiguous
  rw [entriesOf_append] at hsame
  rw [contiguous_append, Nat.zero_add] at hcontiguous
  have hprefix : ∀ done rest, init = done ++ rest →
      ∃ state, observeBatches fileType { deleteMode } done = (.ok (), state) ∧
        Observed state ((entriesOf done).map (incrementalSourceEntry fileType)) ∧
        state.finalSeen = false := by
    rintro done rest rfl
    refine observeBatches_open (observed_new deleteMode) rfl
      (contiguous_append.mp hcontiguous.1).1 (fun batch hmem => ?_) (fun entry hmem => ?_)
    · exact hopen batch (List.mem_append_left rest hmem)
    · refine hnormal entry ?_
      rw [← hsame, entriesOf_append]
      exact List.mem_append_left _ (List.mem_append_left _ hmem)
  obtain ⟨state, hrun, hobs, hstate⟩ := hprefix init [] (List.append_nil init).symm
  have hfinalNormal : NormalEntries final.entries := by
    intro entry hmem
    refine hnormal entry ?_
    rw [← hsame]
    exact List.mem_append_right _ (List.mem_append_left _ hmem)
  obtain ⟨state', hlast, hobs', -, -⟩ :=
    observeBatch_normal hobs hstate (normal_map fileType hfinalNormal) final.isFinal
  have hbase : final.baseIndex = ((entriesOf init).map (incrementalSourceEntry fileType)).length := by
    rw [List.length_map]
    exact hcontiguous.2.1
  rw [← hbase] at hlast
  have hall : observeBatches fileType { deleteMode } (init ++ [final]) = (.ok (), state') :=
    (observeBatches_append hrun).trans (observeBatches_cons hlast)
  have hseen : (entriesOf init).map (incrementalSourceEntry fileType) ++
      final.entries.map (incrementalSourceEntry fileType) =
        entries.map (incrementalSourceEntry fileType) := by
    rw [← List.map_append, ← hsame, entriesOf, entriesOf, List.flatMap_singleton]
  rw [hseen] at hobs'
  have hnext := hobs'.next
  have hcompleted := hobs'.completed
  rw [List.length_map] at hnext hcompleted
  constructor
  · rw [hall]
  · rw [hall]
    exact hnext
  · rw [hall, hnext]
    exact hcompleted
  · intro done rest heq hne existing filterRules filesFrom deleteExcluded
    have hinit : init = done ++ rest.dropLast := by
      have hdrop := congrArg List.dropLast heq
      rwa [List.dropLast_concat, List.dropLast_append_of_ne_nil hne] at hdrop
    obtain ⟨state, hrun, -, hstate⟩ := hprefix done rest.dropLast hinit
    rw [hrun]
    exact planDeletes_open hstate existing filterRules filesFrom deleteExcluded
  · intro existing filterRules filesFrom deleteExcluded d hd entry hmem
    rw [hall] at hd
    exact planDeletes_unobserved hobs' hd _ (List.mem_map_of_mem hmem)
  · intro existing filterRules filesFrom deleteExcluded
    exact planDeletes_descendantsFirst existing filterRules filesFrom deleteExcluded

/-- Batching conserves the list, for the builder and for the receiver behind it. -/
theorem batches_received (fileType : RsyncFileListEntry → FileType) (deleteMode : DeleteMode)
    (overhead maxEntries : Nat) (maxAlloc : Option Nat) (entries : List RsyncFileListEntry)
    (hmax : 0 < maxEntries)
    (hfits : ∀ entry ∈ entries, WithinLimit maxAlloc (estimatedFileListEntryAlloc overhead entry)) :
    ∃ builder batches, FileListBatchBuilder.withMaxAlloc maxEntries maxAlloc = .ok builder ∧
      builder.batches (estimatedFileListEntryAlloc overhead) entries = .ok batches ∧
      Batched (estimatedFileListEntryAlloc overhead) maxEntries maxAlloc entries batches ∧
      (NormalEntries entries → Received fileType deleteMode entries batches) := by
  obtain ⟨builder, batches, hnew, hrun, hbatched⟩ := batches_batched hmax hfits
  exact ⟨builder, batches, hnew, hrun, hbatched, received_of_batched hbatched deleteMode⟩

/-- Three entries, two in a batch. -/
theorem batches_received_three :
    let entry := fun path : Bytes =>
      ({ path, fileType := .file, len := 0, mtimeUnix := 0, mode := 0 } : RsyncFileListEntry)
    let entries := [entry [97], entry [98], entry [97, 47, 99]]
    ∃ builder batches, FileListBatchBuilder.withMaxAlloc 2 (some 500) = .ok builder ∧
      builder.batches (estimatedFileListEntryAlloc 200) entries = .ok batches ∧
      Batched (estimatedFileListEntryAlloc 200) 2 (some 500) entries batches ∧
      (NormalEntries entries → Received (fun _ => .file) .during entries batches) := by
  intro entry entries
  have hsizes : ∀ entry ∈ entries, estimatedFileListEntryAlloc 200 entry ≤ 500 := by
    decide +kernel
  refine batches_received (fun _ => .file) .during 200 2 (some 500) entries (by decide) ?_
  intro e hmem limit hlimit
  obtain rfl : 500 = limit := Option.some.inj hlimit
  exact hsizes e hmem

/-- In a run of calls every rejected one changes nothing just if no builder is given an
entry too large on its own while others are pending, and the receiver no batch whose
first path is good and a later one is not. -/
theorem rejected_steps_atomic_iff (overhead maxEntries : Nat) (maxAlloc : Option Nat)
    (deleteMode : DeleteMode) :
    (∀ ops : List (EntryBatchOp RsyncFileListEntry),
      let apply := EntryBatchBuilder.apply (estimatedFileListEntryAlloc overhead)
      FallibleRuns.Along apply (FallibleRuns.Atomic apply) { maxEntries, maxAlloc } ops ↔
        FallibleRuns.Along apply (EntryBatchBuilder.Keeps (estimatedFileListEntryAlloc overhead))
          { maxEntries, maxAlloc } ops) ∧
    (∀ ops : List (EntryBatchOp RemoteSourceEntry),
      let alloc := fun entry : RemoteSourceEntry => estimatedFileListEntryAlloc overhead entry.wire
      let apply := EntryBatchBuilder.apply alloc
      FallibleRuns.Along apply (FallibleRuns.Atomic apply) { maxEntries, maxAlloc } ops ↔
        FallibleRuns.Along apply (EntryBatchBuilder.Keeps alloc) { maxEntries, maxAlloc } ops) ∧
    ∀ ops : List Op,
      FallibleRuns.Along IncrementalReceiverState.apply
          (FallibleRuns.Atomic IncrementalReceiverState.apply) { deleteMode } ops ↔
        FallibleRuns.Along IncrementalReceiverState.apply IncrementalReceiverState.Keeps
          { deleteMode } ops := by
  refine ⟨fun ops => ?_, fun ops => ?_, fun ops => ?_⟩
  · exact EntryBatchBuilder.along_atomic_iff (estimatedFileListEntryAlloc_le overhead) _ ops
  · intro alloc apply
    have hsize : ∀ entry, alloc entry ≤ usizeMax := fun entry =>
      estimatedFileListEntryAlloc_le overhead entry.wire
    exact EntryBatchBuilder.along_atomic_iff hsize _ ops
  · exact FallibleRuns.along_congr (fun _ op => IncrementalReceiverState.atomic_iff_keeps op) ops

/-- A long name behind a short one, and a parent directory behind a file. -/
theorem rejected_steps_lose :
    let entry := fun path : Bytes =>
      ({ path, fileType := .file, len := 0, mtimeUnix := 0, mode := 0 } : RsyncFileListEntry)
    let apply := EntryBatchBuilder.apply (estimatedFileListEntryAlloc 200)
    let remoteApply := EntryBatchBuilder.apply
      fun entry : RemoteSourceEntry => estimatedFileListEntryAlloc 200 entry.wire
    ¬ FallibleRuns.Along apply (FallibleRuns.Atomic apply)
        { maxEntries := 2, maxAlloc := some 202 } [.push (entry [97]), .push (entry [98, 98, 98])] ∧
    ¬ FallibleRuns.Along remoteApply (FallibleRuns.Atomic remoteApply)
        { maxEntries := 2, maxAlloc := some 202 }
        [.push ⟨entry [97], [97]⟩, .push ⟨entry [98, 98, 98], [98, 98, 98]⟩] ∧
    ¬ FallibleRuns.Along IncrementalReceiverState.apply
        (FallibleRuns.Atomic IncrementalReceiverState.apply) { deleteMode := .none }
        [.observeBatch 0 [⟨[.normal [97]], .file⟩, ⟨[.parentDir], .directory⟩] false] := by
  intro entry
  have hsmall : estimatedFileListEntryAlloc 200 (entry [97]) = 201 := by decide +kernel
  have hlarge : estimatedFileListEntryAlloc 200 (entry [98, 98, 98]) = 203 := by decide +kernel
  have hfits : WithinLimit (some 202) (estimatedFileListEntryAlloc 200 (entry [97])) := by
    rw [hsmall]
    rintro limit ⟨⟩
    decide
  have hexceeds : ¬ WithinLimit (some 202) (estimatedFileListEntryAlloc 200 (entry [98, 98, 98])) := by
    rw [hlarge]
    exact fun h => absurd (h 202 rfl) (by decide)
  refine ⟨?_, ?_, fun h => ?_⟩
  · refine EntryBatchBuilder.not_along_atomic (estimatedFileListEntryAlloc_le 200) ?_ rfl ?_ ?_
    · decide
    · exact hfits
    · exact hexceeds
  · refine EntryBatchBuilder.not_along_atomic
      (fun entry => estimatedFileListEntryAlloc_le 200 entry.wire) ?_ rfl ?_ ?_
    · decide
    · exact hfits
    · exact hexceeds
  · rcases (IncrementalReceiverState.atomic_iff_keeps _).mp h.1 with hfinal | hbase | hgood | hfirst
    · cases hfinal
    · exact hbase rfl
    · obtain ⟨key, hkey, -⟩ := hgood ⟨[.parentDir], .directory⟩ (by simp)
      cases hkey
    · obtain ⟨entry, rest, heq, hbad⟩ := hfirst
      injection heq with heq
      subst heq
      exact hbad ⟨[[97]], rfl, List.cons_ne_nil _ _⟩

end RsyncWin.Fs
