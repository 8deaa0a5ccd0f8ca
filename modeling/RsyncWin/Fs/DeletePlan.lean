import RsyncWin.Fs.Sync

/-!
# The deletion plan

Every destination entry without a source entry gets one decision, deeper paths
first: it stays if a rule or the files-from list protects it and goes otherwise.
-/

namespace RsyncWin.Fs

open ByteString

/-- A destination entry that deletions leave alone. -/
def isProtected (options : SyncOptions) (relative : Key) (fileType : FileType) : Bool :=
  options.filesFrom.any (fun filesFrom => !filesFromMatches relative filesFrom) ||
    deleteIsProtected options.filterRules relative fileType options.deleteExcluded

/-- The decisions of a run. -/
structure Plan (sourceEntries destEntries : Entries) (options : SyncOptions)
    (decisions : List IncrementalDeleteDecision) : Prop where
  entry : ∀ d ∈ decisions, ∃ e, destEntries[d.relative]? = some e ∧
    sourceEntries[d.relative]? = none ∧
    d.isProtected = isProtected options d.relative e.metadata.fileType
  all : ∀ (r : Key) e, destEntries[r]? = some e → sourceEntries[r]? = none →
    ∃ d ∈ decisions, d.relative = r
  nodup : (decisions.map IncrementalDeleteDecision.relative).Nodup
  deepFirst : decisions.Pairwise fun a b => b.relative.length ≤ a.relative.length

namespace IncrementalReceiverState

instance : Std.TransCmp deleteOrder :=
  inferInstanceAs (Std.TransCmp (compareLex
    (fun a b : Key × FileType => compareOn (fun e : Key × FileType => e.1.length) b a)
    (fun a b => compareOn Prod.fst b a)))

theorem length_le_of_deleteOrder {a b : Key × FileType} (h : (deleteOrder a b).isLE) :
    b.1.length ≤ a.1.length := by
  unfold deleteOrder at h
  by_contra hlt
  rw [Nat.not_le] at hlt
  rw [Nat.compare_eq_gt.mpr hlt] at h
  cases h

theorem decideDelete_spec (options : SyncOptions) (entry : Key × FileType) :
    (decideDelete options.filterRules options.filesFrom options.deleteExcluded entry).relative =
        entry.1 ∧
      (decideDelete options.filterRules options.filesFrom options.deleteExcluded entry).isProtected =
        isProtected options entry.1 entry.2 := by
  unfold decideDelete
  rw [← isProtected]
  cases h : isProtected options entry.1 entry.2 with
  | true => exact ⟨rfl, rfl⟩
  | false =>
      simp only [Bool.false_eq_true, if_false]
      split <;> exact ⟨rfl, rfl⟩

theorem observeEntries_ok {state state' : IncrementalReceiverState} {index : Nat}
    {batch : List (Key × WalkEntry)}
    (h : state.observeEntries index (batch.map fun entry =>
      ⟨entry.1.path, entry.2.metadata.fileType⟩) = (.ok (), state')) :
    state'.deleteMode = state.deleteMode ∧
      ∀ r, r ∈ state'.sourceRelatives ↔ r ∈ state.sourceRelatives ∨ r ∈ batch.map Prod.fst := by
  induction batch generalizing state index with
  | nil =>
      cases h
      exact ⟨rfl, by simp⟩
  | cons entry batch ih =>
      rw [List.map_cons, observeEntries] at h
      cases hnorm : normalizeIncrementalRelativePath entry.1.path with
      | error e =>
          rw [hnorm] at h
          cases h
      | ok relative =>
          have hrel : relative = entry.1 := by
            unfold normalizeIncrementalRelativePath at hnorm
            rw [names_key] at hnorm
            simp only at hnorm
            split at hnorm
            · cases hnorm
            · exact (Except.ok.inj hnorm).symm
          rw [hnorm] at h
          obtain ⟨hmode, hmem⟩ := ih h
          refine ⟨hmode, fun r => ?_⟩
          rw [hmem, List.mem_insert_iff, hrel, List.map_cons, List.mem_cons]
          tauto

end IncrementalReceiverState

open IncrementalReceiverState

/-- The plan as the source computes it: filter, sort, decide. -/
theorem plan_of_sorted {sourceEntries destEntries : Entries} {options : SyncOptions}
    {relatives : List Key} (hsource : ∀ r, r ∈ relatives ↔ (sourceEntries[r]?).isSome) :
    Plan sourceEntries destEntries options
      ((sortBy deleteOrder
        ((destEntries.toList.map fun entry => (entry.1, entry.2.metadata.fileType)).filter
          fun entry => entry.1 ∉ relatives)).map
        (decideDelete options.filterRules options.filesFrom options.deleteExcluded)) := by
  have hmem : ∀ a, a ∈ sortBy deleteOrder
      ((destEntries.toList.map fun entry => (entry.1, entry.2.metadata.fileType)).filter
        fun entry => entry.1 ∉ relatives) ↔
      ∃ e, destEntries[a.1]? = some e ∧ e.metadata.fileType = a.2 ∧ sourceEntries[a.1]? = none := by
    rintro ⟨r, fileType⟩
    rw [(sortBy_perm deleteOrder _).mem_iff, List.mem_filter, decide_eq_true_eq, hsource,
      Bool.not_eq_true, Option.isSome_eq_false_iff, Option.isNone_iff_eq_none, List.mem_map]
    constructor
    · rintro ⟨⟨⟨_, e⟩, he, ⟨⟩⟩, hnone⟩
      exact ⟨e, Std.TreeMap.mem_toList_iff_getElem?_eq_some.mp he, rfl, hnone⟩
    · rintro ⟨e, he, rfl, hnone⟩
      exact ⟨⟨(r, e), Std.TreeMap.mem_toList_iff_getElem?_eq_some.mpr he, rfl⟩, hnone⟩
  constructor
  · intro d hd
    obtain ⟨a, ha, rfl⟩ := List.mem_map.mp hd
    obtain ⟨e, he, htype, hnone⟩ := (hmem a).mp ha
    obtain ⟨hrel, hprot⟩ := decideDelete_spec options a
    exact ⟨e, by rw [hrel]; exact he, by rw [hrel]; exact hnone, by rw [hprot, hrel, htype]⟩
  · intro r e he hnone
    refine ⟨_, List.mem_map.mpr ⟨(r, e.metadata.fileType), (hmem _).mpr ⟨e, he, rfl, hnone⟩, rfl⟩, ?_⟩
    exact (decideDelete_spec options _).1
  · have hrel : IncrementalDeleteDecision.relative ∘
        decideDelete options.filterRules options.filesFrom options.deleteExcluded = Prod.fst :=
      funext fun a => (decideDelete_spec options a).1
    rw [List.map_map, hrel]
    refine ((sortBy_perm deleteOrder _).map Prod.fst).nodup_iff.mpr ?_
    refine List.Nodup.sublist ((List.filter_sublist ..).map Prod.fst) ?_
    rw [List.map_map, show (Prod.fst ∘ fun entry : Key × WalkEntry =>
      (entry.1, entry.2.metadata.fileType)) = Prod.fst from rfl, Std.TreeMap.map_fst_toList_eq_keys]
    exact Std.TreeMap.nodup_keys
  · refine List.pairwise_map.mpr ((inOrder_sortBy deleteOrder _).imp fun {a b} hab => ?_)
    rw [(decideDelete_spec options a).1, (decideDelete_spec options b).1]
    exact length_le_of_deleteOrder hab

theorem plan_of_planReceiverDeletes {sourceEntries destEntries : Entries} {options : SyncOptions}
    {decisions : List IncrementalDeleteDecision} (hmode : options.effectiveDeleteMode ≠ .none)
    (h : planReceiverDeletes sourceEntries destEntries options = .ok decisions) :
    Plan sourceEntries destEntries options decisions := by
  unfold planReceiverDeletes at h
  simp only at h
  split at h
  · cases h
  · rename_i state hbatch
    unfold observeBatch at hbatch
    simp only [Bool.false_eq_true, if_false, ne_eq, not_true_eq_false] at hbatch
    split at hbatch
    · cases hbatch
    · rename_i state' hobserve
      obtain ⟨hstateMode, hmem⟩ := observeEntries_ok hobserve
      cases hbatch
      have hsource : ∀ r, r ∈ state'.sourceRelatives ↔ (sourceEntries[r]?).isSome := by
        intro r
        rw [hmem, Std.TreeMap.map_fst_toList_eq_keys, Std.TreeMap.mem_keys,
          Std.TreeMap.mem_iff_isSome_getElem?]
        simp
      have hready : ({ state' with finalSeen := true } : IncrementalReceiverState).deleteReady = true := by
        simp [deleteReady, hstateMode, hmode]
      simp only [if_true, planDeletes, hready] at h
      rw [← Except.ok.inj h]
      exact plan_of_sorted hsource

end RsyncWin.Fs
