import RsyncWin.Protocol.Stages
import RsyncWin.Remote.ReceiveSafety
import RsyncWin.Remote.Serve
import RsyncWin.Transfer.DeltaTransfer

/-!
# One file in both directions

The request for a file, the sender's answer to it and what the receiver makes of
the answer, each as a stage of its side. What one writes is what the other
reads, with the same index state behind it; the receiver ends with the sender's
bytes in the place of the file.
-/

namespace RsyncWin

open ByteString Codec Duplex

variable {flate : Flate} {hashes : Hashes} {m w : Machine}

/-! ## Notes -/

/-- What a machine is after indices were read and written. -/
def Machine.noted (m : Machine) (events : List Event) : Machine := { m with log := m.log ++ events }

@[simp] theorem Machine.noted_files (m : Machine) (events : List Event) :
    (m.noted events).files = m.files := rfl

@[simp] theorem Machine.noted_faults (m : Machine) (events : List Event) :
    (m.noted events).faults = m.faults := rfl

@[simp] theorem Machine.noted_log (m : Machine) (events : List Event) :
    (m.noted events).log = m.log ++ events := rfl

@[simp] theorem Machine.noted_nil (m : Machine) : m.noted [] = m := by
  simp [noted]

@[simp] theorem Machine.noted_noted (m : Machine) (events more : List Event) :
    (m.noted events).noted more = m.noted (events ++ more) := by
  simp [noted]

theorem exchange_note (hcalm : m.faults = []) (event : Event) :
    Exchange machine (perform (.note event)) m [] [] () (m.noted [event]) :=
  exchange_perform hcalm rfl

/-! ## Indices -/

/-- `bs` is how an index is written in `state`, and how it is read in `state`. -/
structure IndexAs (state : RsyncIndexState) (index : Int) (bs : Bytes) : Prop where
  write : ∀ m : Machine, m.faults = [] →
    Exchange machine (writeRsync31Index state index) m [] bs (state.after index)
      (m.noted [.wroteIndex index])
  read : ∀ m : Machine, m.faults = [] →
    Exchange machine (readIndex state) m bs [] (index, state.after index)
      (m.noted [.readIndex index])

theorem indexAs_of_roundTrips {state : RsyncIndexState} {index : Int}
    (h : RoundTrips (writeRsyncIndex state index) (state.after index) (readRsyncIndex state)
      (index, state.after index)) : ∃ bs, IndexAs state index bs := by
  obtain ⟨cs, hw, hr⟩ := h
  refine ⟨cs.flatten, fun m hcalm => ?_, fun m hcalm => ?_⟩
  · exact Exchange.of_eq rfl (List.append_nil _)
      ((exchange_toMux hw).bind ((exchange_note hcalm _).bind_ret rfl))
  · exact Exchange.of_eq (List.append_nil _) rfl
      ((exchange_onMux hr).bind_reads ((exchange_note hcalm _).bind_ret rfl))

/-- What both ends of the index code keep in range. -/
structure RsyncIndexState.Fits (state : RsyncIndexState) : Prop where
  low : -1 ≤ state.prevPositive
  high : state.prevPositive ≤ i32Max

theorem fits_default : ({} : RsyncIndexState).Fits := ⟨by decide, by decide⟩

theorem RsyncIndexState.Fits.indexAs {state : RsyncIndexState} (h : state.Fits) {index : Nat}
    (hindex : index < i32Max) :
    (∃ bs, IndexAs state index bs) ∧ (state.after index).Fits := by
  have hhigh : (index : Int) < i32Max := by exact_mod_cast hindex
  refine ⟨indexAs_of_roundTrips (roundTrips_rsyncIndex h.low h.high (by omega) hhigh), ?_⟩
  have hafter : (state.after index).prevPositive = index := by
    unfold RsyncIndexState.after
    rw [if_pos (by omega)]
  exact ⟨by omega, by omega⟩

/-- `DONE` is a single zero in every state, so that a fresh state and a running
one agree on it. -/
theorem indexAs_done (state : RsyncIndexState) : IndexAs state rsyncIndexDone [0] := by
  have hafter : state.after rsyncIndexDone = state := if_neg (by decide)
  have hwrite : Writes (writeRsyncIndex state rsyncIndexDone) [[0]] state :=
    (writes_writeAll [0]).bind_ret rfl
  have hread : Decodes (readRsyncIndex state) [0] (rsyncIndexDone, state) :=
    (decodes_readU8 0).bind_ret rfl
  refine ⟨fun m hcalm => ?_, fun m hcalm => ?_⟩
  · rw [hafter]
    exact Exchange.of_eq rfl (List.append_nil _)
      ((exchange_toMux hwrite).bind ((exchange_note hcalm _).bind_ret rfl))
  · rw [hafter]
    exact Exchange.of_eq (List.append_nil _) rfl
      ((exchange_onMux hread).bind_reads ((exchange_note hcalm _).bind_ret rfl))

theorem exchange_writeRsync31Done (hcalm : m.faults = []) :
    Exchange machine writeRsync31Done m [] [0] () (m.noted [.wroteIndex rsyncIndexDone]) :=
  ((indexAs_done {}).write m hcalm).bind_ret rfl

theorem exchange_readMultiplexedRsync31Index (hcalm : m.faults = []) :
    Exchange machine readMultiplexedRsync31Index m [0] [] rsyncIndexDone
      (m.noted [.readIndex rsyncIndexDone]) :=
  ((indexAs_done {}).read m hcalm).bind_ret rfl

theorem exchange_awaitFinalDone (hcalm : m.faults = []) :
    Exchange machine awaitFinalDone m [0] [] () (m.noted [.readIndex rsyncIndexDone]) :=
  (exchange_readMultiplexedRsync31Index hcalm).bind_ret rfl

theorem exchange_awaitPhaseDone (hcalm : m.faults = []) :
    Exchange machine awaitPhaseDone m [0] [] () (m.noted [.readIndex rsyncIndexDone]) :=
  (exchange_readMultiplexedRsync31Index hcalm).bind_ret rfl

/-! ## Item flags -/

theorem roundTrips_u16Le {n : Nat} (h : n ≤ u16Max) : RoundTrips (writeU16Le n) () readU16Le n := by
  refine roundTrips_writeAll ?_
  refine (decodes_readExact (leBytes_length 2 n)).bind_ret ?_
  unfold u16Max at h
  rw [leNat_leBytes, Nat.mod_eq_of_lt (by omega)]
  rfl

theorem requestIflags_le (dryRun : Bool) : requestIflags dryRun ≤ u16Max := by
  cases dryRun <;> decide

theorem requestIflags_transfer (dryRun : Bool) :
    hasFlag (requestIflags dryRun) rsyncItemTransfer = !dryRun := by
  cases dryRun <;> decide

/-- Neither a basis type nor a name comes with a request. -/
theorem readRsync31OptionalItemAttrs_request (dryRun : Bool) :
    readRsync31OptionalItemAttrs (requestIflags dryRun) = .ret {} := by
  cases dryRun <;> rfl

theorem writeRsync31OptionalItemAttrs_request (dryRun : Bool) (attrs : Rsync31ItemAttrs) :
    writeRsync31OptionalItemAttrs (requestIflags dryRun) attrs = .ret () := by
  cases dryRun <;> rfl

/-! ## A transfer that can be made -/

section Item

variable (hashes) (request : RemoteSenderFileRequest) (ctx : RemoteReceiveContext)
  (sender : SenderSide)

/-- What the two sides have to agree on, and what neither of them uses. -/
structure SameTransfer : Prop where
  dest : ctx.dest = request.dest
  entries : ctx.entries = request.entries
  offset : request.indexOffset = 0
  ctxOffset : ctx.indexOffset = 0
  dryRun : ctx.dryRun = request.dryRun
  senderDryRun : sender.dryRun = true → request.dryRun = true
  checksum : sender.checksum = request.checksum
  finalChecksum :
    ctx.finalChecksum = RemoteFinalChecksum.protocol31ForAlgorithm sender.checksum.algorithm
  blockSize : 0 < request.blockSize
  blockSize_le : request.blockSize ≤ i32Max
  noAppend : sender.appendVerify = false
  noAppendHere : ctx.appendVerify = false
  plain : sender.runtime.compression = none
  plainHere : ctx.compression = none
  unlimited : sender.runtime.maxAlloc = none
  unlimitedHere : ctx.maxAlloc = none
  unlimitedRequest : request.maxAlloc = none
  unhurried : sender.runtime.stopDeadline = none
  unhurriedHere : ctx.stopDeadline = none
  unhurriedRequest : request.stopDeadline = none

/-- The file that a request for the entry is made with. -/
def RemoteSenderFileRequest.basis (m : Machine) (entry : RsyncFileListEntry) : Bytes :=
  usedBasis request.wholeFile (m.files (request.dest.join entry.path))

/-- The sender has the file as its list says, and the digest tells its windows
from the blocks of the receiver's. -/
structure Transferable (m w : Machine) (entry : RsyncFileListEntry) (source : RemoteSourceEntry)
    (content : Bytes) : Prop where
  file : w.files source.path = some content
  length : content.length = entry.len
  fits : entry.len ≤ u64Max
  target : m.refuses (request.dest.join entry.path) = false
  temp : ∀ nanos, m.refuses (tempPath ctx.processId nanos (request.dest.join entry.path)) = false
  blocks : ∀ old, m.files (request.dest.join entry.path) = some old →
    (chunks request.blockSize old).length ≤ i32Max
  collisionFree : NoCollision request.blockSize (request.basis m entry) content
    (strongDigest hashes request.checksum 16)

end Item

variable {request : RemoteSenderFileRequest} {ctx : RemoteReceiveContext} {sender : SenderSide}
  {entry : RsyncFileListEntry} {source : RemoteSourceEntry} {content : Bytes} {index : Nat}

/-! ## The request -/

section Asked

variable (hashes) (request)

/-- The request as the sender has to understand it. -/
def RemoteSenderFileRequest.asked (index : Nat) (basis : Bytes) : SenderRequest where
  index
  iflags := requestIflags request.dryRun
  attrs := {}
  sumHead :=
    if request.dryRun then none
    else some (requestOf hashes request.checksum request.blockSize basis).1
  signatures :=
    if request.dryRun then []
    else (requestOf hashes request.checksum request.blockSize basis).2

end Asked

theorem basis_sizes (hb : 0 < request.blockSize) (hb32 : request.blockSize ≤ i32Max)
    (hblocks : ∀ old, m.files (request.dest.join entry.path) = some old →
      (chunks request.blockSize old).length ≤ i32Max) :
    (request.basis m entry).length ≤ usizeMax ∧
      (chunks request.blockSize (request.basis m entry)).length ≤ i32Max := by
  have hold : ∀ old : Bytes, (chunks request.blockSize old).length ≤ i32Max →
      old.length ≤ usizeMax := by
    intro old hcount
    obtain ⟨hsum, -⟩ := request_sizes hb hb32 hcount
    omega
  unfold RemoteSenderFileRequest.basis usedBasis
  by_cases hwhole : request.wholeFile = true
  · rw [if_pos hwhole]
    exact ⟨Nat.zero_le _, by simp⟩
  · rw [if_neg hwhole]
    cases hfile : m.files (request.dest.join entry.path) with
    | none => exact ⟨Nat.zero_le _, by simp⟩
    | some old => exact ⟨hold old (hblocks old hfile), hblocks old hfile⟩

/-- What is asked for a file is what the sender reads. -/
theorem exchange_signatureRequest (h : SameTransfer request ctx sender) (hcalm : m.faults = [])
    (hblocks : ∀ old, m.files (request.dest.join entry.path) = some old →
      (chunks request.blockSize old).length ≤ i32Max) :
    ∃ bs,
      Exchange machine (do
        toMux (writeU16Le (requestIflags request.dryRun))
        writeSignatureRequest hashes request entry) m [] bs () m ∧
      Decodes (readItemRequest sender index) bs
        (request.asked hashes index (request.basis m entry)) := by
  obtain ⟨cs, hwrite, hread⟩ := roundTrips_u16Le (requestIflags_le request.dryRun)
  obtain ⟨hlen, hcount⟩ := @basis_sizes m request entry h.blockSize h.blockSize_le hblocks
  unfold writeSignatureRequest readItemRequest RemoteSenderFileRequest.asked
  by_cases hdry : request.dryRun = true
  · refine ⟨cs.flatten ++ [], (exchange_toMux hwrite).bind (by rw [if_pos hdry]; exact exchange_ret () m),
      hread.bind ?_⟩
    rw [readRsync31OptionalItemAttrs_request, requestIflags_transfer]
    simp only [hdry, if_true]
    exact decodes_ret _
  · obtain ⟨ds, hask, hanswer⟩ := @roundTrips_request hashes request.checksum _ _ h.blockSize
      h.blockSize_le hlen hcount
    have hbasis : Exchange machine
        (localBasisSignatureRequest hashes request.checksum (request.dest.join entry.path)
          request.blockSize request.wholeFile request.maxAlloc) m [] []
        (requestOf hashes request.checksum request.blockSize (request.basis m entry)) m := by
      rw [h.unlimitedRequest]
      exact exchange_localBasisSignatureRequest hcalm h.blockSize fun old hold =>
        request_sizes h.blockSize h.blockSize_le (hblocks old hold)
    refine ⟨cs.flatten ++ ds.flatten, (exchange_toMux hwrite).bind ?_, hread.bind ?_⟩
    · rw [if_neg hdry]
      exact hbasis.before (exchange_toMux hask)
    · have hdry' : request.dryRun = false := by simpa using hdry
      have hpair := hanswer.bind_ret (k := fun p : RemoteSumHead × List BlockSignature =>
        (.ret ⟨index, requestIflags request.dryRun, {}, some p.1, p.2⟩ : Reader SenderRequest)) rfl
      simp only [Prog.bind_assoc, Prog.pure_eq, Prog.ret_bind] at hpair
      rw [readRsync31OptionalItemAttrs_request, requestIflags_transfer]
      simp only [hdry', Prog.ret_bind, readRequestSignatures, h.noAppend, h.unlimited, Prog.pure_eq,
        Bool.not_false, if_true, Bool.false_eq_true, if_false]
      rwa [hdry'] at hpair

/-! ## The receiver's part -/

/-- The receiver once a file has come: the file is in its place and the
temporary one is gone. -/
def Machine.delivered (m : Machine) (processId : Nat) (target : LocalPath) (content : Bytes) :
    Machine :=
  ({ m with clock := m.clock.tail }.put target (some content)).put
    (tempPath processId (m.clock.headD 0) target) none

theorem Machine.delivered_files (m : Machine) (processId : Nat) (target : LocalPath)
    (content : Bytes) (p : LocalPath) :
    (m.delivered processId target content).files p =
      if p = tempPath processId (m.clock.headD 0) target then none
      else if p = target then some content else m.files p := rfl

/-- What is reported for a file that was written. -/
def Received.written (ctx : RemoteReceiveContext) (entry : RsyncFileListEntry) (r : Received) :
    Received :=
  let target := ctx.dest.join entry.path
  let r := r.act (remoteWriteAction ctx.writeMode target entry.len)
  if ctx.preserveTimes then r.act (.preserveMtime target) else r

theorem syncActionLen_eq {len : Nat} (h : len ≤ u64Max) : syncActionLen len = .ok len := by
  unfold syncActionLen
  rw [if_neg (by unfold usizeMax; unfold u64Max at h; omega)]

theorem exchange_preserveRemoteMtime {target : LocalPath} {r : Received} (hcalm : m.faults = [])
    (hfile : m.files target = some content) :
    Exchange machine (preserveRemoteMtime ctx entry target r) m [] []
      (if ctx.preserveTimes then r.act (.preserveMtime target) else r) m := by
  unfold preserveRemoteMtime
  by_cases htimes : ctx.preserveTimes = true
  · rw [if_pos htimes, if_pos htimes]
    have hset : Exchange machine (perform (.setMtime target (max entry.mtimeUnix 0))) m [] [] () m :=
      exchange_perform hcalm (by simp [Machine.serve, hfile])
    exact hset.bind_ret rfl
  · rw [if_neg htimes, if_neg htimes]
    exact exchange_ret r m

/-- Without append mode a received file replaces the target. -/
theorem exchange_writeReceivedFile {temp : LocalPath} {r : Received} (hcalm : m.faults = [])
    (happend : ctx.appendVerify = false) (hfree : m.refuses (ctx.dest.join entry.path) = false)
    (hfits : entry.len ≤ u64Max) (htemp : m.files temp = some content) :
    Exchange machine
      (writeReceivedFileFromPath ctx entry (ctx.dest.join entry.path) temp entry.len r) m [] []
      (r.written ctx entry) (m.put (ctx.dest.join entry.path) (some content)) := by
  have hcopy : Exchange machine
      (perform (.copyFile temp (ctx.dest.join entry.path) ctx.writeMode)) m [] [] ()
      (m.put (ctx.dest.join entry.path) (some content)) :=
    exchange_perform hcalm (by simp [Machine.serve, htemp, hfree])
  unfold writeReceivedFileFromPath replaceTarget
  rw [happend, syncActionLen_eq hfits]
  have hput : (m.put (ctx.dest.join entry.path) (some content)).files (ctx.dest.join entry.path) =
      some content := by simp
  exact hcopy.before (exchange_preserveRemoteMtime hcalm hput)

theorem exchange_removeLocalFileBestEffort {path : LocalPath} (hcalm : m.faults = [])
    (hfile : m.files path = some content) :
    Exchange machine (removeLocalFileBestEffort path) m [] [] () (m.put path none) := by
  have hloc : Exchange machine (loc (L := localSig) (.removeFile path)) m [] [] (.ok ())
      (m.put path none) :=
    exchange_loc (L := localSig) (by rw [machine_of_calm hcalm]; simp [Machine.serve, hfile])
  exact hloc.bind_ret rfl

/-- Tokens that spell out the file end with the file in its place. -/
theorem exchange_receiveFile {chunkFuel : Nat} {r : Received} {tokens : List Token}
    (h : SameTransfer request ctx sender) (ht : Transferable hashes request ctx m w entry source content)
    (hcalm : m.faults = [])
    (hok : ∀ token ∈ tokens, token.Ok request.blockSize (request.basis m entry))
    (hdata : tokens.flatMap (Token.data request.blockSize (request.basis m entry)) = content) :
    Exchange machine
      (receiveFile flate hashes chunkFuel ctx entry
        (some (requestOf hashes request.checksum request.blockSize (request.basis m entry)).1) r) m
      (tokens.flatMap Token.wire ++ trailer hashes ctx.finalChecksum content) []
      ((r.written ctx entry).count entry.len)
      (m.delivered ctx.processId (ctx.dest.join entry.path) content) := by
  generalize htarget : ctx.dest.join entry.path = target
  have htarget' : request.dest.join entry.path = target := by rw [← h.dest, htarget]
  generalize htemp : tempPath ctx.processId (m.clock.headD 0) target = temp
  have hne : target ≠ temp := by
    rw [← htemp]
    exact (tempPath_ne_target _ _ _).symm
  have hnow : Exchange machine (receiveTempPath ctx.processId target) m [] [] temp
      { m with clock := m.clock.tail } := by
    have hperform : Exchange machine (perform .now) m [] [] (m.clock.headD 0)
        { m with clock := m.clock.tail } := exchange_perform hcalm rfl
    exact hperform.bind_ret (by rw [htemp]; rfl)
  have hbasis : request.basis m entry ≠ [] → m.files target = some (request.basis m entry) := by
    unfold RemoteSenderFileRequest.basis usedBasis
    rw [htarget']
    intro hne
    by_cases hwhole : request.wholeFile = true
    · rw [if_pos hwhole] at hne
      exact absurd rfl hne
    · rw [if_neg hwhole] at hne ⊢
      cases hfile : m.files target with
      | none => simp [hfile] at hne
      | some old => rfl
  obtain ⟨hsize, -⟩ := @basis_sizes m request entry h.blockSize h.blockSize_le ht.blocks
  have hread := @exchange_readFileTokens { m with clock := m.clock.tail } hashes request.blockSize
    { path := entry.path, output := temp, expectedLen := entry.len, checksum := ctx.finalChecksum,
      stopDeadline := ctx.stopDeadline }
    flate chunkFuel target (request.basis m entry) content request.checksum tokens hcalm h.blockSize
    h.unhurriedHere hne hbasis hsize ht.length ht.fits
    (by rw [← htemp, ← htarget']; exact ht.temp _) hok hdata
  have hwrite := @exchange_writeReceivedFile ({ m with clock := m.clock.tail }.put temp (some content))
    ctx entry content temp r hcalm h.noAppendHere
    (by rw [htarget, ← htarget']; exact ht.target) ht.fits (by simp)
  have hremove := @exchange_removeLocalFileBestEffort
    (({ m with clock := m.clock.tail }.put temp (some content)).put target (some content)) content
    temp hcalm (by simp [hne.symm])
  have hend : (({ m with clock := m.clock.tail }.put temp (some content)).put target
      (some content)).put temp none = m.delivered ctx.processId target content := by
    unfold Machine.delivered Machine.put
    rw [htemp]
    congr 1
    funext p
    by_cases hp : p = temp
    · simp [hp]
    · simp [hp]
  rw [htarget] at hwrite
  rw [ht.length] at hread
  have hrest := (hwrite.attempt).before (k := fun written => do
      removeLocalFileBestEffort temp
      let r ← Prog.ofExcept written
      pure (r.count entry.len)) (hremove.bind_ret rfl)
  rw [hend] at hrest
  have hinto : Exchange machine (readTokensInto flate hashes chunkFuel ctx entry
      (some (requestOf hashes request.checksum request.blockSize (request.basis m entry)).1) temp)
      { m with clock := m.clock.tail }
      (tokens.flatMap Token.wire ++ trailer hashes ctx.finalChecksum content) [] entry.len
      ({ m with clock := m.clock.tail }.put temp (some content)) := by
    unfold readTokensInto
    rw [htarget, h.plainHere, h.unlimitedHere]
    exact hread
  unfold receiveFile
  rw [htarget]
  refine hnow.before ?_
  exact Exchange.of_eq (List.append_nil _) rfl (hinto.attempt.bind_reads hrest)

/-! ## The sender's part -/

theorem requestOf_fits {checksum : RemoteFileChecksum} {b : Nat} {basis : Bytes} (hb : 0 < b)
    (hb32 : b ≤ i32Max) (hcount : (chunks b basis).length ≤ i32Max) :
    (requestOf hashes checksum b basis).1.Fits := by
  have hmod := Nat.mod_lt basis.length hb
  have hsixteen : 16 ≤ i32Max := by decide
  unfold requestOf
  by_cases hnil : basis = []
  · rw [if_pos hnil]
    exact ⟨Nat.zero_le _, hb32, hsixteen, Nat.zero_le _⟩
  · rw [if_neg hnil]
    exact ⟨hcount, hb32, hsixteen, by unfold sumHeadOf; dsimp only; omega⟩

/-- The sender's state after an answer. -/
def SenderSide.answered (sender : SenderSide) (dryRun : Bool) (index literalBytes : Nat)
    (s : ServeState) : ServeState :=
  { s with
    writeIndexState := s.writeIndexState.after index
    stats := if dryRun then s.stats else sender.counted index (s.stats.count literalBytes) }

theorem exchange_echoRequest {item : SenderRequest} {s : ServeState} {bs : Bytes} {dryRun : Bool}
    (hcalm : w.faults = []) (hflags : item.iflags = requestIflags dryRun)
    (hindex : IndexAs s.writeIndexState item.index bs) :
    Exchange machine (echoRequest item s) w [] (bs ++ leBytes 2 (requestIflags dryRun))
      { s with writeIndexState := s.writeIndexState.after item.index }
      (w.noted [.wroteIndex item.index]) := by
  have hwrite : Writes (writeU16Le (requestIflags dryRun)) [leBytes 2 (requestIflags dryRun)] () :=
    writes_writeAll _
  have htail := exchange_toMux (H := machine) (m := w.noted [.wroteIndex item.index])
    (hwrite.bind_ret (k := fun _ => writeRsync31OptionalItemAttrs (requestIflags dryRun) item.attrs)
      (writeRsync31OptionalItemAttrs_request dryRun item.attrs))
  rw [List.flatten_singleton] at htail
  unfold echoRequest
  rw [hflags]
  exact (hindex.write w hcalm).bind (htail.bind_ret rfl)

theorem decodes_requestIflags (dryRun : Bool) :
    Decodes readU16Le (leBytes 2 (requestIflags dryRun)) (requestIflags dryRun) := by
  refine (decodes_readExact (leBytes_length 2 _)).bind_ret ?_
  cases dryRun <;> rfl

/-- What a receiver makes of the bytes behind an index: `head` is the response,
`body` the file. -/
structure Answers (flate : Flate) (hashes : Hashes) (request : RemoteSenderFileRequest)
    (ctx : RemoteReceiveContext) (m : Machine) (entry : RsyncFileListEntry) (index : Nat)
    (content head body : Bytes) : Prop where
  heard : Decodes (readFileResponse index) head
    (.file index (requestIflags request.dryRun)
      (request.asked hashes index (request.basis m entry)).sumHead)
  taken : ∀ (m' : Machine) (r : Received) (chunkFuel : Nat), m'.faults = [] →
    m'.refuses = m.refuses →
    m'.files (request.dest.join entry.path) = m.files (request.dest.join entry.path) →
    ∃ r', r'.stats = (r.count entry.len).stats ∧
      Exchange machine
        (applyRemoteSenderFileResponseProtocol31 flate hashes chunkFuel ctx index
          (requestIflags request.dryRun)
          (request.asked hashes index (request.basis m entry)).sumHead r) m' body [] r'
        (if request.dryRun then m'
          else m'.delivered ctx.processId (request.dest.join entry.path) content)

@[simp] theorem Received.act_stats (r : Received) (action : SyncAction) :
    (r.act action).stats = r.stats := rfl

theorem Received.written_stats (r : Received) : (r.written ctx entry).stats = r.stats := by
  unfold Received.written
  split <;> rfl

theorem Received.count_stats {r r' : Received} (h : r.stats = r'.stats) (bytes : Nat) :
    (r.count bytes).stats = (r'.count bytes).stats := by
  unfold Received.count
  rw [h]

theorem RemoteSenderFileRequest.basis_eq {m' : Machine}
    (hfiles : m'.files (request.dest.join entry.path) = m.files (request.dest.join entry.path)) :
    request.basis m' entry = request.basis m entry := by
  unfold RemoteSenderFileRequest.basis
  rw [hfiles]

/-- What a transfer needs of the receiver is about this one file of it. -/
theorem Transferable.of_same (ht : Transferable hashes request ctx m w entry source content)
    {m' : Machine} (hrefuses : m'.refuses = m.refuses)
    (hfiles : m'.files (request.dest.join entry.path) = m.files (request.dest.join entry.path)) :
    Transferable hashes request ctx m' w entry source content where
  file := ht.file
  length := ht.length
  fits := ht.fits
  target := by rw [hrefuses]; exact ht.target
  temp := by rw [hrefuses]; exact ht.temp
  blocks := by rw [hfiles]; exact ht.blocks
  collisionFree := by rw [RemoteSenderFileRequest.basis_eq hfiles]; exact ht.collisionFree

theorem answers_dryRun (h : SameTransfer request ctx sender) (hdry : request.dryRun = true)
    (hentry : request.entries[index]? = some entry) (hfile : entry.fileType = .file)
    (hfits : entry.len ≤ u64Max) :
    Answers flate hashes request ctx m entry index content (leBytes 2 (requestIflags true)) [] := by
  constructor
  · unfold readFileResponse readSumHeadIf RemoteSenderFileRequest.asked
    rw [hdry]
    refine (decodes_requestIflags true).bind_ret ?_
    rw [readRsync31OptionalItemAttrs_request, requestIflags_transfer]
    rfl
  · intro m' r chunkFuel hcalm _ _
    refine ⟨(r.act (remoteWriteAction ctx.writeMode (ctx.dest.join entry.path) entry.len)).count
      entry.len, rfl, ?_⟩
    unfold applyRemoteSenderFileResponseProtocol31
    rw [h.entries, hentry]
    simp only [hfile, h.dryRun, hdry, or_true, if_true, syncActionLen_eq hfits]
    exact exchange_ret _ m'

theorem answers_tokens {tokens : List Token} (h : SameTransfer request ctx sender)
    (hdry : request.dryRun = false)
    (ht : Transferable hashes request ctx m w entry source content)
    (hentry : request.entries[index]? = some entry) (hfile : entry.fileType = .file)
    (hok : ∀ token ∈ tokens, token.Ok request.blockSize (request.basis m entry))
    (hdata : tokens.flatMap (Token.data request.blockSize (request.basis m entry)) = content)
    {sumHeadBytes : Bytes}
    (hhead : Decodes readSumHead sumHeadBytes
      (requestOf hashes request.checksum request.blockSize (request.basis m entry)).1) :
    Answers flate hashes request ctx m entry index content
      (leBytes 2 (requestIflags false) ++ sumHeadBytes)
      (tokens.flatMap Token.wire ++ trailer hashes ctx.finalChecksum content) := by
  constructor
  · unfold readFileResponse readSumHeadIf RemoteSenderFileRequest.asked
    rw [hdry]
    refine (decodes_requestIflags false).bind ?_
    rw [readRsync31OptionalItemAttrs_request, requestIflags_transfer]
    simp only [Prog.ret_bind, Bool.not_false, if_true]
    have hsome : Decodes (readSumHead >>= fun sumHead => pure (some sumHead)) sumHeadBytes
        (some (requestOf hashes request.checksum request.blockSize (request.basis m entry)).1) :=
      hhead.bind_ret rfl
    exact hsome.bind_ret rfl
  · intro m' r chunkFuel hcalm hrefuses hfiles
    have hbasis : request.basis m' entry = request.basis m entry :=
      RemoteSenderFileRequest.basis_eq hfiles
    have hreceive := @exchange_receiveFile flate hashes m' w request ctx sender entry source content
      chunkFuel r tokens h (ht.of_same hrefuses hfiles) hcalm (by rwa [hbasis]) (by rwa [hbasis])
    rw [hbasis] at hreceive
    refine ⟨(r.written ctx entry).count entry.len,
      Received.count_stats (Received.written_stats r) _, ?_⟩
    unfold applyRemoteSenderFileResponseProtocol31 RemoteSenderFileRequest.asked
    rw [h.entries, hentry, hdry, requestIflags_transfer]
    simp only [hfile, h.dryRun, hdry, ne_eq, not_true_eq_false, if_false, Bool.not_false,
      Bool.true_eq_false, or_self, Bool.false_eq_true]
    rw [← h.dest]
    exact hreceive

theorem exchange_writeAnswerTokens (h : SameTransfer request ctx sender) (hcalm : w.faults = [])
    (ht : Transferable hashes request ctx m w entry source content) (prefixLen : Nat) :
    ∃ (literalBytes : Nat) (tokens : List Token), literalBytes ≤ content.length ∧
      Exchange machine
        (writeAnswerTokens flate hashes sender source prefixLen
          (requestOf hashes request.checksum request.blockSize (request.basis m entry)).2) w []
        (tokens.flatMap Token.wire ++ trailer hashes ctx.finalChecksum content) literalBytes w ∧
      (∀ token ∈ tokens, token.Ok request.blockSize (request.basis m entry)) ∧
      tokens.flatMap (Token.data request.blockSize (request.basis m entry)) = content := by
  obtain ⟨-, hcount⟩ := @basis_sizes m request entry h.blockSize h.blockSize_le ht.blocks
  obtain ⟨stats, tokens, hsend, hok, hdata, hstats⟩ :=
    @exchange_writeDeltaTokensFromPath flate w request.blockSize (request.basis m entry) hashes
      ⟨request.checksum, ctx.finalChecksum⟩
      (requestOf hashes request.checksum request.blockSize (request.basis m entry)).2 source.path
      content hcalm ht.file h.blockSize (describes_signaturesOf h.blockSize hcount) ht.collisionFree
  refine ⟨stats.literalBytes, tokens, by omega, ?_, hok, hdata⟩
  unfold writeAnswerTokens
  rw [h.noAppend, h.plain, h.unlimited, h.unhurried, ← h.finalChecksum, h.checksum]
  exact hsend.bind_ret rfl

/-- The sender answers a request, and the answer brings the file. -/
theorem exchange_answerRequest (h : SameTransfer request ctx sender) (hcalm : w.faults = [])
    (ht : Transferable hashes request ctx m w entry source content)
    (hsource : sender.entries[index]? = some source) (hentry : request.entries[index]? = some entry)
    (hfile : entry.fileType = .file) (hsourceFile : source.wire.fileType = .file) :
    ∃ (head body : Bytes) (literalBytes : Nat), literalBytes ≤ content.length ∧
      (∀ (s : ServeState) (bs : Bytes), IndexAs s.writeIndexState index bs →
        Exchange machine
          (answerRequest flate hashes sender (request.asked hashes index (request.basis m entry)) s)
          w [] (bs ++ (head ++ body)) (sender.answered request.dryRun index literalBytes s)
          (w.noted [.wroteIndex index])) ∧
      Answers flate hashes request ctx m entry index content head body := by
  have hlen : index < sender.entries.length := (List.getElem?_eq_some_iff.mp hsource).1
  have hchecked : checkedFileIndex index sender.entries.length = .ok index := by
    unfold checkedFileIndex
    rw [if_neg (by omega), Int.toNat_natCast]
  generalize hasked : request.asked hashes index (request.basis m entry) = item
  have hitem : item.index = index ∧ item.iflags = requestIflags request.dryRun := by
    rw [← hasked]
    exact ⟨rfl, rfl⟩
  have hwants : item.wantsTransfer = !request.dryRun := by
    unfold SenderRequest.wantsTransfer
    rw [hitem.2]
    exact requestIflags_transfer _
  by_cases hdry : request.dryRun = true
  · refine ⟨_, _, 0, Nat.zero_le _, ?_, answers_dryRun h hdry hentry hfile ht.fits⟩
    intro s bs hindexed
    have hecho := exchange_echoRequest hcalm (by rw [hitem.2, hdry]) (by rwa [hitem.1])
    unfold answerRequest SenderSide.answered
    rw [hitem.1, hchecked]
    simp only [Prog.ofExcept_ok, Prog.ret_bind, hsource, hwants, hdry, Bool.not_true, if_true,
      List.append_nil]
    rwa [hitem.1] at hecho
  · have hdry' : request.dryRun = false := by simpa using hdry
    have hsenderDry : sender.dryRun = false := by
      cases hs : sender.dryRun with
      | false => rfl
      | true => exact absurd (h.senderDryRun hs) hdry
    obtain ⟨-, hcount⟩ := @basis_sizes m request entry h.blockSize h.blockSize_le ht.blocks
    obtain ⟨cs, hwrite, hread⟩ := roundTrips_sumHead (@requestOf_fits hashes request.checksum _ _
      h.blockSize h.blockSize_le hcount)
    have hnoted : Transferable hashes request ctx m (w.noted [.wroteIndex index]) entry source content :=
      { ht with file := ht.file }
    obtain ⟨literalBytes, tokens, hle, htokens, hok, hdata⟩ :=
      @exchange_writeAnswerTokens flate hashes m (w.noted [.wroteIndex index]) request ctx sender
        entry source content h hcalm hnoted 0
    have hhead : item.sumHead =
        some (requestOf hashes request.checksum request.blockSize (request.basis m entry)).1 := by
      rw [← hasked]
      exact if_neg hdry
    have hsigs : item.signatures =
        (requestOf hashes request.checksum request.blockSize (request.basis m entry)).2 := by
      rw [← hasked]
      exact if_neg hdry
    refine ⟨_, _, literalBytes, hle, ?_, answers_tokens h hdry' ht hentry hfile hok hdata hread⟩
    intro s bs hindexed
    have hecho := @exchange_echoRequest w item s bs false hcalm (by rw [hitem.2, hdry'])
      (by rwa [hitem.1])
    rw [hitem.1] at hecho
    have hprefix : appendPrefixLen sender source
        (requestOf hashes request.checksum request.blockSize (request.basis m entry)).1 = .ok 0 := by
      unfold appendPrefixLen
      rw [h.noAppend]
      rfl
    unfold answerRequest SenderSide.answered transferRequested
    rw [hitem.1, hchecked]
    simp only [Prog.ofExcept_ok, Prog.ret_bind, hsource, hwants, hdry', hsourceFile, hsenderDry, hhead,
      hsigs, hprefix, Bool.not_false, Bool.true_eq_false, Bool.false_eq_true, ne_eq,
      not_true_eq_false, if_false]
    refine Exchange.of_eq rfl ?_ (hecho.bind ((exchange_toMux hwrite).bind (htokens.bind_ret rfl)))
    simp only [List.append_assoc]

end RsyncWin
