import RsyncWin.Protocol.Stages
import RsyncWin.Remote.CanonicalOrder
import RsyncWin.Remote.Pull

/-!
# Pushing (`rsync-cli/src/remote/push.rs`)

The list goes out while the walk over the sources is still under way: an entry
joins the open batch, a full batch is charged to the allocation limit and
written, and the last one is written when the walk has ended. What was sent is
then served by index. The walk is its entries and how it ends; the reports are
left out.

Where nothing exceeds the limit, all this is one list in the batches of the
builder (`sendFileList_eq`).
-/

namespace RsyncWin

open ByteString Codec Duplex

/-! ## Settings -/

/-- What the callback of the walk is given, and what the walk returns. -/
structure WalkedSources where
  entries : List RemoteSourceEntry
  ending : Except Error Unit := .ok ()

structure PushSettings where
  delete : Bool := false
  dryRun : Bool := false
  appendVerify : Bool := false
  /-- The operand names a daemon, whose index order is that of the list as sent. -/
  daemonOperand : Bool
  fileListOptions : RsyncFileListOptions := {}
  maxAlloc : Option Nat := none
  stopDeadline : Option Nat := none
  /-- `RemoteCompressionConfig::for_plan`. -/
  compression : Except Error (Option RemoteCompressionConfig) := .ok none
  /-- `RemoteFileChecksum::protocol31` of what the handshake has chosen. -/
  checksum : Except Error RemoteFileChecksum

/-- `REMOTE_FILE_LIST_BATCH_ENTRIES`. -/
def remoteFileListBatchEntries : Nat := 4096

/-! ## Sending the list -/

section Push

variable (platform : Platform) (s : PushSettings)

/-- What `collect_local_push_source_entries_with_batches` and its callbacks carry. -/
structure PushListState where
  writer : Rsync31FileListWriter
  builder : RemoteSourceEntryBatchBuilder
  totalAlloc : Nat := 0
  entries : List RemoteSourceEntry := []

def sourceAlloc (entry : RemoteSourceEntry) : Nat :=
  estimatedFileListEntryAlloc platform.entryOverhead entry.wire

/-- The loop over the entries of a batch. -/
def chargeBatch : Nat → List RemoteSourceEntry → Except Error Nat
  | total, [] => .ok total
  | total, entry :: entries => do
      let total := total + sourceAlloc platform entry
      if total > usizeMax then .error (.other "file-list allocation estimate overflow")
      else do
        allocationBudgetCheck s.maxAlloc "file-list entries" total
        chargeBatch total entries

def sendBatch (st : PushListState) (batch : RemoteSourceEntryBatch) : Session PushListState := do
  let totalAlloc ← Prog.ofExcept (chargeBatch platform s st.totalAlloc batch.entries)
  let writer ← toMux (st.writer.writeBatch (batch.entries.map (·.wire)))
  pure { st with writer, totalAlloc, entries := st.entries ++ batch.entries }

/-- One call of the walk. -/
def pushSourceEntry (st : PushListState) (entry : RemoteSourceEntry) : Session PushListState :=
  match RemoteSourceEntryBatchBuilder.push platform.entryOverhead st.builder entry with
  | (.error e, _) => throw e
  | (.ok none, builder) => pure { st with builder }
  | (.ok (some batch), builder) => sendBatch platform s { st with builder } batch

def pushSourceEntries : PushListState → List RemoteSourceEntry → Session PushListState
  | st, [] => pure st
  | st, entry :: entries => do
      let st ← pushSourceEntry platform s st entry
      pushSourceEntries st entries

def collectLocalPushSourceEntriesWithBatches (walked : WalkedSources) : Session PushListState := do
  let builder ← Prog.ofExcept
    (RemoteSourceEntryBatchBuilder.withMaxAlloc remoteFileListBatchEntries s.maxAlloc)
  let st ← pushSourceEntries platform s
    { writer := Rsync31FileListWriter.new s.fileListOptions, builder } walked.entries
  Prog.ofExcept walked.ending
  sendBatch platform s st st.builder.finish.1

def sendFileList (walked : WalkedSources) : Session (List RemoteSourceEntry) := do
  let collected ← (collectLocalPushSourceEntriesWithBatches platform s walked).attempt
  match collected with
  | .error _ => throw (.other "local upload file-list batch exceeds allocation budget")
  | .ok st => do
      let _writer ← toMux st.writer.finish
      pure st.entries

/-! ## The session -/

def writeDeleteMarker : Session Unit := if s.delete then toMux (writeI32Le 0) else pure ()

/-- The entries in the order in which the receiver counts them. -/
def PushSettings.served (entries : List RemoteSourceEntry) : List RemoteSourceEntry :=
  if s.daemonOperand then entries else sortRemoteSourceEntriesForSenderIndexes entries

def executeRemotePushProtocol31WithHandshake (fuel : Nat) (walked : WalkedSources) :
    Session RemoteExecutionStats := do
  writeDeleteMarker s
  let entries ← sendFileList platform s walked
  let compression ← Prog.ofExcept s.compression
  let checksum ← Prog.ofExcept s.checksum
  serveRemoteReceiverRequestsProtocol31 platform.flate platform.hashes (s.served entries) s.dryRun
    s.appendVerify checksum { compression, maxAlloc := s.maxAlloc, stopDeadline := s.stopDeadline }
    fuel

end Push

/-! ## The list, all at once -/

variable {platform : Platform} {s : PushSettings}

/-- What may be charged. -/
def Affordable (maxAlloc : Option Nat) (total : Nat) : Prop :=
  total ≤ usizeMax ∧ EntryBatchBuilder.WithinLimit maxAlloc total

theorem Affordable.le {maxAlloc : Option Nat} {a b : Nat} (h : Affordable maxAlloc b)
    (hle : a ≤ b) : Affordable maxAlloc a :=
  ⟨hle.trans h.1, fun limit hlimit => hle.trans (h.2 limit hlimit)⟩

theorem chargeBatch_affordable : ∀ {entries : List RemoteSourceEntry} {total : Nat},
    Affordable s.maxAlloc (total + (entries.map (sourceAlloc platform)).sum) →
    chargeBatch platform s total entries =
      .ok (total + (entries.map (sourceAlloc platform)).sum)
  | [], _, _ => rfl
  | entry :: entries, total, h => by
      rw [List.map_cons, List.sum_cons, ← Nat.add_assoc] at h ⊢
      have hhere : Affordable s.maxAlloc (total + sourceAlloc platform entry) :=
        h.le (Nat.le_add_right _ _)
      have hwithin := EntryBatchBuilder.allocationBudgetCheck_ok "file-list entries" hhere.2
      show (if total + sourceAlloc platform entry > usizeMax then _ else _) = _
      rw [if_neg (Nat.not_lt.mpr hhere.1), hwithin]
      exact chargeBatch_affordable h

/-- Batches written one after the other. -/
def writeBatches (writer : Rsync31FileListWriter) (batches : List RemoteSourceEntryBatch) :
    Writer Rsync31FileListWriter :=
  (batches.map fun batch => batch.entries.map (·.wire)).foldlM Rsync31FileListWriter.writeBatch
    writer

def allocOf (platform : Platform) (batches : List RemoteSourceEntryBatch) : Nat :=
  ((EntryBatchBuilder.entriesOf batches).map (sourceAlloc platform)).sum

/-- The state behind some batches. -/
def PushListState.behind (platform : Platform) (st : PushListState)
    (writer : Rsync31FileListWriter) (builder : RemoteSourceEntryBatchBuilder)
    (batches : List RemoteSourceEntryBatch) : PushListState where
  writer
  builder
  totalAlloc := st.totalAlloc + allocOf platform batches
  entries := st.entries ++ EntryBatchBuilder.entriesOf batches

theorem sendBatch_eq {st : PushListState} {batch : RemoteSourceEntryBatch}
    (h : Affordable s.maxAlloc (st.totalAlloc + (batch.entries.map (sourceAlloc platform)).sum)) :
    sendBatch platform s st batch = (do
      let writer ← toMux (st.writer.writeBatch (batch.entries.map (·.wire)))
      pure { st with
        writer
        totalAlloc := st.totalAlloc + (batch.entries.map (sourceAlloc platform)).sum
        entries := st.entries ++ batch.entries }) := by
  unfold sendBatch
  rw [chargeBatch_affordable h]
  rfl

/-- The pushes of a list, first and rest. -/
theorem pushAll_cons_ok {entry : RemoteSourceEntry} {entries : List RemoteSourceEntry}
    {builder builder' : RemoteSourceEntryBatchBuilder} {batches : List RemoteSourceEntryBatch}
    (h : builder.pushAll (sourceAlloc platform) (entry :: entries) = (.ok batches, builder')) :
    ∃ batch between rest,
      RemoteSourceEntryBatchBuilder.push platform.entryOverhead builder entry =
        (.ok batch, between) ∧
      between.pushAll (sourceAlloc platform) entries = (.ok rest, builder') ∧
      batches = batch.toList ++ rest := by
  rw [EntryBatchBuilder.pushAll] at h
  rcases hpush : EntryBatchBuilder.push (sourceAlloc platform) builder entry with
    ⟨_ | batch, between⟩
  · simp [hpush] at h
  · rcases hrest : between.pushAll (sourceAlloc platform) entries with ⟨_ | rest, last⟩
    · simp [hpush, hrest] at h
    · simp only [hpush, hrest, Prod.mk.injEq, Except.ok.injEq] at h
      obtain ⟨rfl, rfl⟩ := h
      exact ⟨batch, between, rest, hpush, hrest, rfl⟩

theorem writeBatches_cons (writer : Rsync31FileListWriter) (batch : RemoteSourceEntryBatch)
    (batches : List RemoteSourceEntryBatch) :
    writeBatches writer (batch :: batches) = (do
      let writer ← writer.writeBatch (batch.entries.map (·.wire))
      writeBatches writer batches) := rfl

theorem allocOf_cons (batch : RemoteSourceEntryBatch) (batches : List RemoteSourceEntryBatch) :
    allocOf platform (batch :: batches) =
      (batch.entries.map (sourceAlloc platform)).sum + allocOf platform batches := by
  unfold allocOf
  rw [EntryBatchBuilder.entriesOf, List.flatMap_cons, List.map_append, List.sum_append]
  rfl

/-- As long as the limit is kept, the walk writes the batches of the builder. -/
theorem pushSourceEntries_eq : ∀ {entries : List RemoteSourceEntry} {st : PushListState}
    {batches : List RemoteSourceEntryBatch} {builder : RemoteSourceEntryBatchBuilder},
    st.builder.pushAll (sourceAlloc platform) entries = (.ok batches, builder) →
    Affordable s.maxAlloc (st.totalAlloc + allocOf platform batches) →
    pushSourceEntries platform s st entries = (do
      let writer ← toMux (writeBatches st.writer batches)
      pure (st.behind platform writer builder batches))
  | [], st, _, _, hall, _ => by
      cases hall
      show Prog.ret st = Prog.ret (st.behind platform st.writer st.builder [])
      simp [PushListState.behind, allocOf, EntryBatchBuilder.entriesOf]
  | entry :: entries, st, _, builder, hall, haffordable => by
      obtain ⟨batch, between, rest, hpush, hrest, rfl⟩ := pushAll_cons_ok hall
      cases batch with
      | none =>
          have ih := @pushSourceEntries_eq entries { st with builder := between } rest builder hrest
            haffordable
          unfold pushSourceEntries pushSourceEntry
          rw [hpush]
          exact ih
      | some batch =>
          have hcharge : st.totalAlloc + allocOf platform (batch :: rest) =
              st.totalAlloc + (batch.entries.map (sourceAlloc platform)).sum +
                allocOf platform rest := by rw [allocOf_cons, Nat.add_assoc]
          change Affordable s.maxAlloc (st.totalAlloc + allocOf platform (batch :: rest))
            at haffordable
          rw [hcharge] at haffordable
          have hbatch := @sendBatch_eq platform s { st with builder := between } batch
            (haffordable.le (Nat.le_add_right _ _))
          have hrun : ∀ writer, pushSourceEntries platform s
              { st with
                writer
                builder := between
                totalAlloc := st.totalAlloc + (batch.entries.map (sourceAlloc platform)).sum
                entries := st.entries ++ batch.entries } entries = (do
              let writer ← toMux (writeBatches writer rest)
              pure (st.behind platform writer builder (batch :: rest))) := by
            intro writer
            refine (pushSourceEntries_eq hrest haffordable).trans ?_
            unfold PushListState.behind
            rw [hcharge]
            simp only [EntryBatchBuilder.entriesOf, List.flatMap_cons, List.append_assoc]
          unfold pushSourceEntries pushSourceEntry
          rw [hpush]
          show sendBatch platform s { st with builder := between } batch >>= _ = _
          rw [hbatch]
          show _ = toMux (writeBatches st.writer (batch :: rest)) >>= _
          rw [writeBatches_cons]
          unfold toMux
          rw [Prog.interp_bind, Prog.bind_assoc, Prog.bind_assoc]
          exact congrArg (_ >>= ·) (funext hrun)

theorem writeBatches_concat (writer : Rsync31FileListWriter) (batches : List RemoteSourceEntryBatch)
    (batch : RemoteSourceEntryBatch) :
    writeBatches writer (batches ++ [batch]) = (do
      let writer ← writeBatches writer batches
      writer.writeBatch (batch.entries.map (·.wire))) := by
  unfold writeBatches
  rw [List.map_append, List.foldlM_append]
  refine congrArg (_ >>= ·) (funext fun writer => ?_)
  exact bind_pure _

theorem allocOf_concat (batches : List RemoteSourceEntryBatch) (batch : RemoteSourceEntryBatch) :
    allocOf platform (batches ++ [batch]) =
      allocOf platform batches + (batch.entries.map (sourceAlloc platform)).sum := by
  unfold allocOf
  rw [EntryBatchBuilder.entriesOf_append, List.map_append, List.sum_append]
  simp [EntryBatchBuilder.entriesOf]

/-- The walk and its last batch. -/
theorem collect_eq {walked : WalkedSources} (hended : walked.ending = .ok ())
    {builder : RemoteSourceEntryBatchBuilder} {batches : List RemoteSourceEntryBatch}
    (hbuilder : RemoteSourceEntryBatchBuilder.withMaxAlloc remoteFileListBatchEntries s.maxAlloc =
      .ok builder)
    (hbatches : builder.batches (sourceAlloc platform) walked.entries = .ok batches)
    (haffordable : Affordable s.maxAlloc (allocOf platform batches)) :
    ∃ last, collectLocalPushSourceEntriesWithBatches platform s walked = (do
      let writer ← toMux (writeBatches (Rsync31FileListWriter.new s.fileListOptions) batches)
      pure (PushListState.behind platform
        ⟨Rsync31FileListWriter.new s.fileListOptions, builder, 0, []⟩ writer last batches)) := by
  unfold EntryBatchBuilder.batches at hbatches
  rcases hall : builder.pushAll (sourceAlloc platform) walked.entries with ⟨_ | init, builder'⟩
  · simp [hall] at hbatches
  · simp only [hall, Except.ok.injEq] at hbatches
    obtain rfl := hbatches
    rw [allocOf_concat] at haffordable
    have hpushed := @pushSourceEntries_eq platform s walked.entries
      { writer := Rsync31FileListWriter.new s.fileListOptions, builder } init builder' hall
      (by
        rw [Nat.zero_add]
        exact haffordable.le (Nat.le_add_right _ _))
    refine ⟨builder', ?_⟩
    unfold collectLocalPushSourceEntriesWithBatches
    rw [hbuilder, hended, writeBatches_concat]
    simp only [Prog.ofExcept_ok, Prog.ret_bind]
    rw [hpushed]
    unfold toMux
    rw [Prog.interp_bind, Prog.bind_assoc, Prog.bind_assoc]
    refine congrArg (_ >>= ·) (funext fun writer => ?_)
    rw [Prog.pure_eq, Prog.ret_bind]
    refine (sendBatch_eq ?_).trans ?_
    · show Affordable s.maxAlloc (0 + allocOf platform init + _)
      rw [Nat.zero_add]
      exact haffordable
    · refine congrArg (_ >>= ·) (funext fun writer => congrArg Prog.ret ?_)
      unfold PushListState.behind
      rw [allocOf_concat, EntryBatchBuilder.entriesOf_append]
      simp [EntryBatchBuilder.entriesOf]

theorem sum_entriesOf {entries : List RemoteSourceEntry} {batches : List RemoteSourceEntryBatch}
    (h : EntryBatchBuilder.entriesOf batches = entries) :
    allocOf platform batches = (entries.map (sourceAlloc platform)).sum := by
  rw [allocOf, h]

theorem flatten_wire (batches : List RemoteSourceEntryBatch) :
    (batches.map fun batch => batch.entries.map (·.wire)).flatten =
      (EntryBatchBuilder.entriesOf batches).map (·.wire) := by
  unfold EntryBatchBuilder.entriesOf
  rw [List.map_flatMap]
  rfl

/-- **The list of a push.** A walk that ends well and may be charged is sent as one
list in batches, and all of it is served. -/
theorem exchange_sendFileList {σ : Type} {H : Handler localSig σ} {m : σ} {walked : WalkedSources}
    (hended : walked.ending = .ok ())
    (haffordable : Affordable s.maxAlloc (walked.entries.map (sourceAlloc platform)).sum) :
    ∃ batches, batches.flatten = walked.entries.map (·.wire) ∧
      ∀ cs, Writes (writeRsync31FileListBatches s.fileListOptions batches) cs () →
        Exchange H (sendFileList platform s walked) m [] cs.flatten walked.entries m := by
  have hfits : ∀ entry ∈ walked.entries,
      EntryBatchBuilder.WithinLimit s.maxAlloc (sourceAlloc platform entry) := by
    intro entry hentry
    exact (haffordable.le (List.le_sum_of_mem (List.mem_map_of_mem hentry))).2
  obtain ⟨builder, batches, hbuilder, hbatches, hbatched⟩ :=
    @EntryBatchBuilder.batches_batched _ (sourceAlloc platform)
      (.other "file-list batch size must be greater than zero") remoteFileListBatchEntries
      s.maxAlloc walked.entries (by decide) hfits
  obtain ⟨last, hcollect⟩ := collect_eq hended hbuilder hbatches
    (by rwa [sum_entriesOf hbatched.same])
  refine ⟨batches.map fun batch => batch.entries.map (·.wire), ?_, ?_⟩
  · rw [flatten_wire, hbatched.same]
  · intro cs hwrites
    obtain ⟨xs, writer, ys, hbody, hfinish, rfl⟩ := hwrites.split
    obtain ⟨us, done, vs, hdone, hret, rfl⟩ := hfinish.split
    obtain rfl : vs = [] := by simpa using hret []
    have hlist : Exchange H (collectLocalPushSourceEntriesWithBatches platform s walked) m []
        xs.flatten (PushListState.behind platform
          ⟨Rsync31FileListWriter.new s.fileListOptions, builder, 0, []⟩ writer last batches) m := by
      rw [hcollect]
      exact (exchange_toMux hbody).bind_ret rfl
    have hentries : [] ++ EntryBatchBuilder.entriesOf batches = walked.entries := hbatched.same
    rw [List.append_nil, List.flatten_append]
    unfold sendFileList
    refine hlist.attempt.bind (i := []) ((exchange_toMux hdone).bind_ret ?_)
    exact congrArg Prog.ret hentries

end RsyncWin
