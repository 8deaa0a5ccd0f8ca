import RsyncWin.Lib.FallibleRuns
import RsyncWin.Remote.SourceEntries
import RsyncWin.Transfer.SumHead

/-!
# File lists in batches (`rsync-protocol/src/flist.rs`, `rsync-cli/src/remote/flist.rs`)

The two batch builders are one: entries are collected until their number or their
estimated size reaches a bound, and emitted as a batch with the index of its first
entry. They differ in what an entry is. What a rejected entry leaves of the builder is
part of the model.
-/

namespace RsyncWin

open ByteString

/-! ## Sizes -/

/-- `usize::saturating_add`. -/
def saturatingAdd (a b : Nat) : Nat := min (a + b) usizeMax

/-- `overhead` is `FILE_LIST_ENTRY_ALLOC_OVERHEAD`, which depends on the platform. -/
def estimatedFileListEntryAlloc (overhead : Nat) (entry : RsyncFileListEntry) : Nat :=
  let total := saturatingAdd overhead (lossyBytes entry.path).length
  let total := match entry.metadata.userName with
    | some userName => saturatingAdd total userName.bytes.length
    | none => total
  let total := match entry.metadata.groupName with
    | some groupName => saturatingAdd total groupName.bytes.length
    | none => total
  entry.metadata.xattrs.foldl
    (fun total xattr => saturatingAdd (saturatingAdd total xattr.name.bytes.length)
      xattr.value.length) total

/-- `AllocationBudget::check`; a limit of zero is none. -/
def allocationBudgetCheck (maxAlloc : Option Nat) (label : String) (bytes : Nat) :
    Except Error Unit :=
  match maxAlloc.filter (0 < ·) with
  | some limit =>
      if bytes > limit then
        .error (.io .invalidData
          s!"{label} would require a {bytes} byte allocation, exceeding --max-alloc={limit}")
      else .ok ()
  | none => .ok ()

/-! ## Builders -/

structure EntryBatch (α : Type) where
  baseIndex : Nat
  entries : List α
  isFinal : Bool
deriving DecidableEq

structure EntryBatchBuilder (α : Type) where
  maxEntries : Nat
  maxAlloc : Option Nat
  nextBaseIndex : Nat := 0
  currentEntries : List α := []
  currentAlloc : Nat := 0
deriving DecidableEq

namespace EntryBatchBuilder

variable {α : Type}

def withMaxAlloc (zero : Error) (maxEntries : Nat) (maxAlloc : Option Nat) :
    Except Error (EntryBatchBuilder α) :=
  if maxEntries = 0 then .error zero else .ok { maxEntries, maxAlloc }

def shouldFlushBefore (s : EntryBatchBuilder α) (entryAlloc : Nat) : Bool :=
  if s.currentEntries = [] then false
  else if s.currentEntries.length ≥ s.maxEntries then true
  else
    match s.maxAlloc.filter (0 < ·) with
    | some limit => saturatingAdd s.currentAlloc entryAlloc > limit
    | none => false

def pushCurrent (s : EntryBatchBuilder α) (entry : α) (entryAlloc : Nat) :
    Except Error Unit × EntryBatchBuilder α :=
  match allocationBudgetCheck s.maxAlloc "file-list batch entry" entryAlloc with
  | .error e => (.error e, s)
  | .ok () =>
      (.ok (),
        { s with
          currentAlloc := saturatingAdd s.currentAlloc entryAlloc
          currentEntries := s.currentEntries ++ [entry] })

def emit (s : EntryBatchBuilder α) (isFinal : Bool) : EntryBatch α × EntryBatchBuilder α :=
  (⟨s.nextBaseIndex, s.currentEntries, isFinal⟩,
    { s with
      nextBaseIndex := s.nextBaseIndex + s.currentEntries.length
      currentEntries := []
      currentAlloc := 0 })

/-- The batch that is emitted in front of a rejected entry is dropped with it. -/
def push (alloc : α → Nat) (s : EntryBatchBuilder α) (entry : α) :
    Except Error (Option (EntryBatch α)) × EntryBatchBuilder α :=
  if s.shouldFlushBefore (alloc entry) then
    let (batch, s) := s.emit false
    match s.pushCurrent entry (alloc entry) with
    | (.error e, s) => (.error e, s)
    | (.ok (), s) => (.ok (some batch), s)
  else
    match s.pushCurrent entry (alloc entry) with
    | (.error e, s) => (.error e, s)
    | (.ok (), s) =>
        if s.currentEntries.length ≥ s.maxEntries then
          let (batch, s) := s.emit false
          (.ok (some batch), s)
        else (.ok none, s)

def finish (s : EntryBatchBuilder α) : EntryBatch α × EntryBatchBuilder α := s.emit true

/-- One push for each entry, and the batches they return. -/
def pushAll (alloc : α → Nat) (s : EntryBatchBuilder α) :
    List α → Except Error (List (EntryBatch α)) × EntryBatchBuilder α
  | [] => (.ok [], s)
  | entry :: entries =>
      match s.push alloc entry with
      | (.error e, s) => (.error e, s)
      | (.ok batch, s) =>
          match pushAll alloc s entries with
          | (.error e, s) => (.error e, s)
          | (.ok batches, s) => (.ok (batch.toList ++ batches), s)

/-- Each entry pushed, then `finish`. -/
def batches (alloc : α → Nat) (s : EntryBatchBuilder α) (entries : List α) :
    Except Error (List (EntryBatch α)) :=
  match s.pushAll alloc entries with
  | (.error e, _) => .error e
  | (.ok batches, s) => .ok (batches ++ [s.finish.1])

end EntryBatchBuilder

abbrev FileListBatch := EntryBatch RsyncFileListEntry

abbrev FileListBatchBuilder := EntryBatchBuilder RsyncFileListEntry

def FileListBatchBuilder.withMaxAlloc (maxEntries : Nat) (maxAlloc : Option Nat) :
    Except Error FileListBatchBuilder :=
  EntryBatchBuilder.withMaxAlloc
    (.io .invalidInput "file-list batch size must be greater than zero") maxEntries maxAlloc

def FileListBatchBuilder.push (overhead : Nat) (s : FileListBatchBuilder)
    (entry : RsyncFileListEntry) : Except Error (Option FileListBatch) × FileListBatchBuilder :=
  EntryBatchBuilder.push (estimatedFileListEntryAlloc overhead) s entry

abbrev RemoteSourceEntryBatch := EntryBatch RemoteSourceEntry

abbrev RemoteSourceEntryBatchBuilder := EntryBatchBuilder RemoteSourceEntry

def RemoteSourceEntryBatchBuilder.withMaxAlloc (maxEntries : Nat) (maxAlloc : Option Nat) :
    Except Error RemoteSourceEntryBatchBuilder :=
  EntryBatchBuilder.withMaxAlloc (.other "file-list batch size must be greater than zero")
    maxEntries maxAlloc

def RemoteSourceEntryBatchBuilder.push (overhead : Nat) (s : RemoteSourceEntryBatchBuilder)
    (entry : RemoteSourceEntry) :
    Except Error (Option RemoteSourceEntryBatch) × RemoteSourceEntryBatchBuilder :=
  EntryBatchBuilder.push (fun entry => estimatedFileListEntryAlloc overhead entry.wire) s entry

/-- A call of a builder's owner. -/
inductive EntryBatchOp (α : Type) where
  | push (entry : α)
  | finish

def EntryBatchBuilder.apply {α : Type} (alloc : α → Nat) (s : EntryBatchBuilder α) :
    EntryBatchOp α → Except Error (Option (EntryBatch α)) × EntryBatchBuilder α
  | .push entry => s.push alloc entry
  | .finish => (.ok (some s.finish.1), s.finish.2)

/-! ## What the batches keep -/

namespace EntryBatchBuilder

variable {α : Type} {alloc : α → Nat} {s s' : EntryBatchBuilder α} {entry : α}

/-- The size of a list as the builder adds it up. -/
def totalAlloc (alloc : α → Nat) (entries : List α) : Nat :=
  entries.foldl (fun total entry => saturatingAdd total (alloc entry)) 0

theorem totalAlloc_concat (entries : List α) (entry : α) :
    totalAlloc alloc (entries ++ [entry]) = saturatingAdd (totalAlloc alloc entries) (alloc entry) := by
  unfold totalAlloc
  rw [List.foldl_append]
  rfl

/-- No limit is set, or `bytes` is within it. -/
def WithinLimit (maxAlloc : Option Nat) (bytes : Nat) : Prop :=
  ∀ limit, maxAlloc.filter (0 < ·) = some limit → bytes ≤ limit

theorem withinLimit_zero (maxAlloc : Option Nat) : WithinLimit maxAlloc 0 :=
  fun _ _ => Nat.zero_le _

theorem allocationBudgetCheck_ok {maxAlloc : Option Nat} {bytes : Nat} (label : String)
    (h : WithinLimit maxAlloc bytes) : allocationBudgetCheck maxAlloc label bytes = .ok () := by
  unfold allocationBudgetCheck
  cases hlimit : maxAlloc.filter (0 < ·) with
  | none => rfl
  | some limit => exact if_neg (Nat.not_lt.mpr (h limit hlimit))

theorem allocationBudgetCheck_error {maxAlloc : Option Nat} {bytes : Nat} (label : String)
    (h : ¬ WithinLimit maxAlloc bytes) : ∃ e, allocationBudgetCheck maxAlloc label bytes = .error e := by
  unfold WithinLimit at h
  push Not at h
  obtain ⟨limit, hlimit, hlt⟩ := h
  unfold allocationBudgetCheck
  rw [hlimit]
  exact ⟨_, if_pos hlt⟩

/-- What holds between two pushes. -/
structure Holds (alloc : α → Nat) (s : EntryBatchBuilder α) : Prop where
  few : s.currentEntries.length ≤ s.maxEntries
  total : s.currentAlloc = totalAlloc alloc s.currentEntries
  within : WithinLimit s.maxAlloc s.currentAlloc

/-- A batch that the builder `s` may emit. -/
structure Emitted (alloc : α → Nat) (s : EntryBatchBuilder α) (batch : EntryBatch α) : Prop where
  few : batch.entries.length ≤ s.maxEntries
  within : WithinLimit s.maxAlloc (totalAlloc alloc batch.entries)

/-- The batches follow one another from `first` on. -/
def Contiguous : Nat → List (EntryBatch α) → Prop
  | _, [] => True
  | first, batch :: batches =>
      batch.baseIndex = first ∧ Contiguous (first + batch.entries.length) batches

def entriesOf (batches : List (EntryBatch α)) : List α := batches.flatMap EntryBatch.entries

theorem entriesOf_append (xs ys : List (EntryBatch α)) :
    entriesOf (xs ++ ys) = entriesOf xs ++ entriesOf ys := List.flatMap_append

theorem contiguous_append {first : Nat} {xs ys : List (EntryBatch α)} :
    Contiguous first (xs ++ ys) ↔
      Contiguous first xs ∧ Contiguous (first + (entriesOf xs).length) ys := by
  induction xs generalizing first with
  | nil => simp [Contiguous, entriesOf]
  | cons x xs ih =>
      simp only [List.cons_append, Contiguous, ih, and_assoc, entriesOf, List.flatMap_cons,
        List.length_append, Nat.add_assoc]

/-- From `s` to `s'` the batches took what is no longer pending. -/
structure Conserves (alloc : α → Nat) (s s' : EntryBatchBuilder α) (entries : List α)
    (batches : List (EntryBatch α)) : Prop where
  maxEntries : s'.maxEntries = s.maxEntries
  maxAlloc : s'.maxAlloc = s.maxAlloc
  same : entriesOf batches ++ s'.currentEntries = s.currentEntries ++ entries
  contiguous : Contiguous s.nextBaseIndex batches
  next : s'.nextBaseIndex = s.nextBaseIndex + (entriesOf batches).length
  open_ : ∀ batch ∈ batches, batch.isFinal = false
  emitted : ∀ batch ∈ batches, Emitted alloc s batch

theorem Conserves.refl (s : EntryBatchBuilder α) : Conserves alloc s s [] [] :=
  ⟨rfl, rfl, (List.append_nil _).symm, trivial, rfl, fun _ h => absurd h List.not_mem_nil,
    fun _ h => absurd h List.not_mem_nil⟩

theorem Conserves.trans {s₁ s₂ s₃ : EntryBatchBuilder α} {xs ys : List α}
    {bs cs : List (EntryBatch α)} (h : Conserves alloc s₁ s₂ xs bs)
    (h' : Conserves alloc s₂ s₃ ys cs) : Conserves alloc s₁ s₃ (xs ++ ys) (bs ++ cs) := by
  constructor
  · rw [h'.maxEntries, h.maxEntries]
  · rw [h'.maxAlloc, h.maxAlloc]
  · rw [entriesOf_append, List.append_assoc, h'.same, ← List.append_assoc, h.same,
      List.append_assoc]
  · rw [contiguous_append]
    exact ⟨h.contiguous, h.next ▸ h'.contiguous⟩
  · rw [h'.next, h.next, entriesOf_append, List.length_append, Nat.add_assoc]
  · intro batch hmem
    rcases List.mem_append.mp hmem with hmem | hmem
    · exact h.open_ batch hmem
    · exact h'.open_ batch hmem
  · intro batch hmem
    rcases List.mem_append.mp hmem with hmem | hmem
    · exact h.emitted batch hmem
    · obtain ⟨hfew, hwithin⟩ := h'.emitted batch hmem
      exact ⟨h.maxEntries ▸ hfew, h.maxAlloc ▸ hwithin⟩

/-! ## One push -/

/-- The builder behind an entry that it took. -/
def taken (s : EntryBatchBuilder α) (entry : α) (entryAlloc : Nat) : EntryBatchBuilder α :=
  { s with
    currentAlloc := saturatingAdd s.currentAlloc entryAlloc
    currentEntries := s.currentEntries ++ [entry] }

theorem pushCurrent_fits {entryAlloc : Nat} (h : WithinLimit s.maxAlloc entryAlloc) :
    s.pushCurrent entry entryAlloc = (.ok (), s.taken entry entryAlloc) := by
  unfold pushCurrent
  rw [allocationBudgetCheck_ok _ h]
  rfl

/-- An entry that is too large on its own leaves the builder as it is. -/
theorem pushCurrent_rejects {entryAlloc : Nat} (h : ¬ WithinLimit s.maxAlloc entryAlloc) :
    ∃ e, s.pushCurrent entry entryAlloc = (.error e, s) := by
  obtain ⟨e, he⟩ := allocationBudgetCheck_error "file-list batch entry" h
  unfold pushCurrent
  rw [he]
  exact ⟨e, rfl⟩

theorem saturatingAdd_zero_le (n : Nat) : saturatingAdd 0 n ≤ n := by
  unfold saturatingAdd
  omega

theorem conserves_taken (s : EntryBatchBuilder α) (entry : α) :
    Conserves alloc s (s.taken entry (alloc entry)) [entry] [] :=
  ⟨rfl, rfl, rfl, trivial, rfl, fun _ h => absurd h List.not_mem_nil,
    fun _ h => absurd h List.not_mem_nil⟩

theorem conserves_emit (h : Holds alloc s) :
    Conserves alloc s (s.emit false).2 [] [(s.emit false).1] := by
  refine ⟨rfl, rfl, ?_, ⟨rfl, trivial⟩, ?_, ?_, ?_⟩
  · show [s.currentEntries].flatten ++ [] = s.currentEntries ++ []
    rw [List.flatten_singleton]
  · show _ = s.nextBaseIndex + [s.currentEntries].flatten.length
    rw [List.flatten_singleton]
    rfl
  · intro batch hmem
    rw [List.mem_singleton.mp hmem]
    rfl
  · intro batch hmem
    rw [List.mem_singleton.mp hmem]
    exact ⟨h.few, h.total ▸ h.within⟩

theorem holds_emit (isFinal : Bool) : Holds alloc (s.emit isFinal).2 :=
  ⟨Nat.zero_le _, rfl, withinLimit_zero _⟩

/-- An empty builder takes every entry that fits at all. -/
theorem holds_taken_empty (hmax : 0 < s.maxEntries) (hempty : s.currentEntries = [])
    (hzero : s.currentAlloc = 0) (hfits : WithinLimit s.maxAlloc (alloc entry)) :
    Holds alloc (s.taken entry (alloc entry)) := by
  constructor
  · show (s.currentEntries ++ [entry]).length ≤ s.maxEntries
    rw [hempty]
    exact hmax
  · show saturatingAdd s.currentAlloc _ = totalAlloc alloc (s.currentEntries ++ [entry])
    rw [hempty, hzero]
    rfl
  · show WithinLimit s.maxAlloc (saturatingAdd s.currentAlloc _)
    rw [hzero]
    exact fun limit hlimit => (saturatingAdd_zero_le _).trans (hfits limit hlimit)

/-- With no flush in front the entry goes to those that are pending. -/
theorem holds_taken (hmax : 0 < s.maxEntries) (h : Holds alloc s)
    (hfits : WithinLimit s.maxAlloc (alloc entry)) (hflush : s.shouldFlushBefore (alloc entry) = false) :
    Holds alloc (s.taken entry (alloc entry)) := by
  by_cases hempty : s.currentEntries = []
  · refine holds_taken_empty hmax hempty ?_ hfits
    rw [h.total, hempty]
    rfl
  · unfold shouldFlushBefore at hflush
    rw [if_neg hempty] at hflush
    split at hflush
    · cases hflush
    · rename_i hlt
      constructor
      · show (s.currentEntries ++ [entry]).length ≤ s.maxEntries
        rw [List.length_append]
        exact Nat.lt_of_not_le hlt
      · show saturatingAdd s.currentAlloc _ = totalAlloc alloc (s.currentEntries ++ [entry])
        rw [totalAlloc_concat, h.total]
      · intro limit hlimit
        change s.maxAlloc.filter (0 < ·) = some limit at hlimit
        rw [hlimit] at hflush
        exact Nat.le_of_not_lt (of_decide_eq_false hflush)

theorem push_flush (hflush : s.shouldFlushBefore (alloc entry) = true)
    (hfits : WithinLimit s.maxAlloc (alloc entry)) :
    s.push alloc entry =
      (.ok (some (s.emit false).1), (s.emit false).2.taken entry (alloc entry)) := by
  unfold push
  rw [if_pos hflush]
  show (match (s.emit false).2.pushCurrent entry (alloc entry) with
    | (.error e, s) => _
    | (.ok (), s) => _) = _
  rw [pushCurrent_fits (s := (s.emit false).2) hfits]
  rfl

theorem push_room (hflush : s.shouldFlushBefore (alloc entry) = false)
    (hfits : WithinLimit s.maxAlloc (alloc entry)) :
    s.push alloc entry =
      if (s.taken entry (alloc entry)).currentEntries.length ≥ s.maxEntries then
        (.ok (some ((s.taken entry (alloc entry)).emit false).1),
          ((s.taken entry (alloc entry)).emit false).2)
      else (.ok none, s.taken entry (alloc entry)) := by
  unfold push
  rw [if_neg (by rw [hflush]; exact Bool.false_ne_true), pushCurrent_fits hfits]
  rfl

/-- What a rejected entry leaves behind depends on what was pending. -/
theorem push_rejects (hfits : ¬ WithinLimit s.maxAlloc (alloc entry)) :
    ∃ e, s.push alloc entry =
      (.error e, if s.shouldFlushBefore (alloc entry) then (s.emit false).2 else s) := by
  unfold push
  cases hflush : s.shouldFlushBefore (alloc entry) with
  | true =>
      obtain ⟨e, he⟩ : ∃ e, (s.emit false).2.pushCurrent entry (alloc entry) =
          (.error e, (s.emit false).2) := pushCurrent_rejects hfits
      refine ⟨e, ?_⟩
      rw [if_pos rfl, if_pos rfl]
      show (match (s.emit false).2.pushCurrent entry (alloc entry) with
        | (.error e, s) => _
        | (.ok (), s) => _) = _
      rw [he]
  | false =>
      obtain ⟨e, he⟩ : ∃ e, s.pushCurrent entry (alloc entry) = (.error e, s) :=
        pushCurrent_rejects hfits
      refine ⟨e, ?_⟩
      rw [if_neg Bool.false_ne_true, if_neg Bool.false_ne_true, he]

/-- The entry is pending or emitted afterwards, behind everything in front of it. -/
theorem push_fits (hmax : 0 < s.maxEntries) (h : Holds alloc s)
    (hfits : WithinLimit s.maxAlloc (alloc entry)) :
    ∃ batch s', s.push alloc entry = (.ok batch, s') ∧ Holds alloc s' ∧
      Conserves alloc s s' [entry] batch.toList := by
  cases hflush : s.shouldFlushBefore (alloc entry) with
  | true =>
      refine ⟨_, _, push_flush hflush hfits, ?_, ?_⟩
      · exact holds_taken_empty (s := (s.emit false).2) hmax rfl rfl hfits
      · exact (conserves_emit h).trans (conserves_taken (s.emit false).2 entry)
  | false =>
      have htaken := holds_taken hmax h hfits hflush
      have hconserves : Conserves alloc s (s.taken entry (alloc entry)) [entry] [] :=
        conserves_taken s entry
      by_cases hfull : (s.taken entry (alloc entry)).currentEntries.length ≥ s.maxEntries
      · refine ⟨_, _, (push_room hflush hfits).trans (if_pos hfull), holds_emit false, ?_⟩
        have := hconserves.trans (conserves_emit htaken)
        rwa [List.append_nil] at this
      · exact ⟨_, _, (push_room hflush hfits).trans (if_neg hfull), htaken, hconserves⟩

/-- A run of pushes. -/
theorem pushAll_fits {entries : List α} (hmax : 0 < s.maxEntries) (h : Holds alloc s)
    (hfits : ∀ entry ∈ entries, WithinLimit s.maxAlloc (alloc entry)) :
    ∃ batches s', s.pushAll alloc entries = (.ok batches, s') ∧ Holds alloc s' ∧
      Conserves alloc s s' entries batches := by
  induction entries generalizing s with
  | nil => exact ⟨[], s, rfl, h, Conserves.refl s⟩
  | cons entry entries ih =>
      rw [List.forall_mem_cons] at hfits
      obtain ⟨batch, s₁, hpush, h₁, hc₁⟩ := push_fits hmax h hfits.1
      obtain ⟨batches, s₂, hrest, h₂, hc₂⟩ :=
        ih (hc₁.maxEntries ▸ hmax) h₁ (hc₁.maxAlloc ▸ hfits.2)
      refine ⟨batch.toList ++ batches, s₂, ?_, h₂, hc₁.trans hc₂⟩
      rw [pushAll, hpush]
      show (match s₁.pushAll alloc entries with
        | (.error e, s) => _
        | (.ok batches, s) => _) = _
      rw [hrest]

/-- The batches of a whole list of entries. -/
structure Batched (alloc : α → Nat) (maxEntries : Nat) (maxAlloc : Option Nat) (entries : List α)
    (batches : List (EntryBatch α)) : Prop where
  same : entriesOf batches = entries
  contiguous : Contiguous 0 batches
  last : ∃ init final, batches = init ++ [final] ∧ final.isFinal = true ∧
    ∀ batch ∈ init, batch.isFinal = false
  few : ∀ batch ∈ batches, batch.entries.length ≤ maxEntries
  within : ∀ batch ∈ batches, WithinLimit maxAlloc (totalAlloc alloc batch.entries)

theorem holds_new (maxEntries : Nat) (maxAlloc : Option Nat) :
    Holds alloc ({ maxEntries, maxAlloc } : EntryBatchBuilder α) :=
  ⟨Nat.zero_le _, rfl, withinLimit_zero _⟩

theorem batches_batched {zero : Error} {maxEntries : Nat} {maxAlloc : Option Nat}
    {entries : List α} (hmax : 0 < maxEntries)
    (hfits : ∀ entry ∈ entries, WithinLimit maxAlloc (alloc entry)) :
    ∃ s batches, withMaxAlloc zero maxEntries maxAlloc = .ok s ∧
      s.batches alloc entries = .ok batches ∧
      Batched alloc maxEntries maxAlloc entries batches := by
  obtain ⟨init, s', hpush, h, hc⟩ :=
    pushAll_fits (s := ⟨maxEntries, maxAlloc, 0, [], 0⟩) hmax (holds_new maxEntries maxAlloc) hfits
  have hentries : s'.maxEntries = maxEntries := hc.maxEntries
  have halloc : s'.maxAlloc = maxAlloc := hc.maxAlloc
  refine ⟨⟨maxEntries, maxAlloc, 0, [], 0⟩, init ++ [s'.finish.1], ?_, ?_, ?_⟩
  · exact if_neg hmax.ne'
  · unfold batches
    rw [hpush]
  · constructor
    · rw [entriesOf_append]
      show _ ++ [s'.currentEntries].flatten = _
      rw [List.flatten_singleton, hc.same]
      rfl
    · rw [contiguous_append]
      exact ⟨hc.contiguous, hc.next, trivial⟩
    · exact ⟨init, s'.finish.1, rfl, rfl, hc.open_⟩
    · intro batch hmem
      rcases List.mem_append.mp hmem with hmem | hmem
      · exact (hc.emitted batch hmem).few
      · rw [List.mem_singleton.mp hmem]
        rw [← hentries]
        exact h.few
    · intro batch hmem
      rcases List.mem_append.mp hmem with hmem | hmem
      · exact (hc.emitted batch hmem).within
      · rw [List.mem_singleton.mp hmem]
        rw [← halloc]
        exact h.total ▸ h.within

/-! ## Rejected entries -/

/-- Next to other entries one that is too large on its own is always flushed for. -/
theorem shouldFlushBefore_of_large (hsize : alloc entry ≤ usizeMax)
    (hlarge : ¬ WithinLimit s.maxAlloc (alloc entry)) (hpending : s.currentEntries ≠ []) :
    s.shouldFlushBefore (alloc entry) = true := by
  unfold WithinLimit at hlarge
  push Not at hlarge
  obtain ⟨limit, hlimit, hlt⟩ := hlarge
  have hsum : limit < saturatingAdd s.currentAlloc (alloc entry) := by
    unfold saturatingAdd
    omega
  unfold shouldFlushBefore
  rw [if_neg hpending, hlimit]
  split
  · rfl
  · exact decide_eq_true hsum

/-- The batch that a rejected entry flushes is lost. -/
theorem atomic_push_iff (hsize : alloc entry ≤ usizeMax) :
    FallibleRuns.Atomic (EntryBatchBuilder.apply alloc) s (.push entry) ↔
      WithinLimit s.maxAlloc (alloc entry) ∨ s.currentEntries = [] := by
  by_cases hfits : WithinLimit s.maxAlloc (alloc entry)
  · refine ⟨fun _ => Or.inl hfits, fun _ => ?_⟩
    cases hflush : s.shouldFlushBefore (alloc entry) with
    | true => exact FallibleRuns.atomic_of_ok (congrArg Prod.fst (push_flush hflush hfits))
    | false =>
        have hpush := push_room hflush hfits
        by_cases hfull : (s.taken entry (alloc entry)).currentEntries.length ≥ s.maxEntries
        · exact FallibleRuns.atomic_of_ok (congrArg Prod.fst (hpush.trans (if_pos hfull)))
        · exact FallibleRuns.atomic_of_ok (congrArg Prod.fst (hpush.trans (if_neg hfull)))
  · obtain ⟨e, he⟩ := push_rejects hfits
    have happly : EntryBatchBuilder.apply alloc s (.push entry) = _ := he
    rw [FallibleRuns.atomic_iff_of_error (congrArg Prod.fst happly), happly]
    constructor
    · intro hsame
      by_contra hne
      rw [not_or] at hne
      rw [if_pos (shouldFlushBefore_of_large hsize hfits hne.2)] at hsame
      exact hne.2 (congrArg currentEntries hsame).symm
    · rintro (hin | hempty)
      · exact absurd hin hfits
      · have hflush : s.shouldFlushBefore (alloc entry) = false := by
          unfold shouldFlushBefore
          rw [if_pos hempty]
        rw [hflush]
        rfl

theorem atomic_finish : FallibleRuns.Atomic (EntryBatchBuilder.apply alloc) s .finish :=
  FallibleRuns.atomic_of_ok rfl

/-- The calls that a builder survives unharmed: no entry that is too large on its own
comes while others are pending. -/
def Keeps (alloc : α → Nat) (s : EntryBatchBuilder α) : EntryBatchOp α → Prop
  | .push entry => WithinLimit s.maxAlloc (alloc entry) ∨ s.currentEntries = []
  | .finish => True

theorem atomic_iff_keeps (hsize : ∀ entry, alloc entry ≤ usizeMax) (op : EntryBatchOp α) :
    FallibleRuns.Atomic (EntryBatchBuilder.apply alloc) s op ↔ Keeps alloc s op := by
  cases op with
  | push entry => exact atomic_push_iff (hsize entry)
  | finish => exact ⟨fun _ => trivial, fun _ => atomic_finish⟩

theorem along_atomic_iff (hsize : ∀ entry, alloc entry ≤ usizeMax) (s : EntryBatchBuilder α)
    (ops : List (EntryBatchOp α)) :
    FallibleRuns.Along (EntryBatchBuilder.apply alloc)
        (FallibleRuns.Atomic (EntryBatchBuilder.apply alloc)) s ops ↔
      FallibleRuns.Along (EntryBatchBuilder.apply alloc) (Keeps alloc) s ops :=
  FallibleRuns.along_congr (fun _ op => atomic_iff_keeps hsize op) ops

/-- Two pushes lose the first entry. -/
theorem not_along_atomic {first second : α} (hsize : ∀ entry, alloc entry ≤ usizeMax)
    (hmax : 1 < s.maxEntries) (hempty : s.currentEntries = [])
    (hfits : WithinLimit s.maxAlloc (alloc first)) (hlarge : ¬ WithinLimit s.maxAlloc (alloc second)) :
    ¬ FallibleRuns.Along (EntryBatchBuilder.apply alloc)
      (FallibleRuns.Atomic (EntryBatchBuilder.apply alloc)) s [.push first, .push second] := by
  have hflush : s.shouldFlushBefore (alloc first) = false := by
    unfold shouldFlushBefore
    rw [if_pos hempty]
  have hroom : ¬ (s.taken first (alloc first)).currentEntries.length ≥ s.maxEntries := by
    show ¬ (s.currentEntries ++ [first]).length ≥ s.maxEntries
    rw [hempty]
    exact Nat.not_le.mpr hmax
  have hstate : EntryBatchBuilder.apply alloc s (.push first) =
      (.ok none, s.taken first (alloc first)) := (push_room hflush hfits).trans (if_neg hroom)
  rintro ⟨-, hsecond, -⟩
  rw [hstate, atomic_push_iff (hsize second)] at hsecond
  rcases hsecond with hin | hnone
  · exact hlarge hin
  · exact List.append_ne_nil_of_right_ne_nil _ (List.cons_ne_nil first []) hnone

end EntryBatchBuilder

theorem saturatingAdd_le (a b : Nat) : saturatingAdd a b ≤ usizeMax := Nat.min_le_right _ _

theorem estimatedFileListEntryAlloc_le (overhead : Nat) (entry : RsyncFileListEntry) :
    estimatedFileListEntryAlloc overhead entry ≤ usizeMax := by
  unfold estimatedFileListEntryAlloc
  refine List.foldlRecOn (motive := (· ≤ usizeMax)) _ _ ?_ fun _ _ _ _ => saturatingAdd_le _ _
  split
  · exact saturatingAdd_le _ _
  · split
    · exact saturatingAdd_le _ _
    · exact saturatingAdd_le _ _

end RsyncWin
