import RsyncWin.Remote.ItemStages

/-!
# Daemon sessions

The receiving side asks for its files one after the other, the sending side
answers each, and the receiving side takes the answers. All three walk over one
list with one index state (`WalkTogether`), so that each reads what was written for
it; phases and goodbyes close the session.
-/

namespace RsyncWin

open ByteString Codec Duplex

section Walk

variable (request : RemoteSenderFileRequest)

/-- The files that are asked for from `k` on. -/
def RemoteSenderFileRequest.wanted (entries : List RsyncFileListEntry) (k : Nat) :
    List (RsyncFileListEntry × Nat) :=
  (entries.zipIdx k).filter fun p => request.wants p.1 p.2

def RemoteSenderFileRequest.target (entry : RsyncFileListEntry) : LocalPath :=
  request.dest.join entry.path

/-- No file of the list is written where another one is, or is on its way. -/
def RemoteSenderFileRequest.Apart (processId : Nat) (wanted : List (RsyncFileListEntry × Nat)) :
    Prop :=
  wanted.Pairwise fun p q => request.target p.1 ≠ request.target q.1 ∧
    (∀ nanos, tempPath processId nanos (request.target p.1) ≠ request.target q.1) ∧
    ∀ nanos, tempPath processId nanos (request.target q.1) ≠ request.target p.1

end Walk

/-- What both lists say of a file. -/
def SameFile (entry : RsyncFileListEntry) (source : RemoteSourceEntry) : Prop :=
  source.wire.fileType = entry.fileType ∧ source.wire.len = entry.len

/-- The receiver after the files of `wanted` have come. -/
structure Delivered (request : RemoteSenderFileRequest) (processId : Nat) (sender : SenderSide)
    (w : Machine) (wanted : List (RsyncFileListEntry × Nat)) (m m' : Machine) : Prop where
  arrived : request.dryRun = false → ∀ p ∈ wanted, ∀ source, sender.entries[p.2]? = some source →
    m'.files (request.target p.1) = w.files source.path
  kept : ∀ path, (request.dryRun = true ∨ ∀ p ∈ wanted, path ≠ request.target p.1) →
    m'.files path = m.files path ∨
      (request.dryRun = false ∧ m'.files path = none ∧ ∃ p ∈ wanted, ∃ nanos,
        path = tempPath processId nanos (request.target p.1))

/-- The sender's account after it answered for `wanted`. -/
structure Accounts (request : RemoteSenderFileRequest) (sender : SenderSide)
    (wanted : List (RsyncFileListEntry × Nat)) (stats stats' : RemoteExecutionStats) : Prop where
  files : stats'.files = stats.files + if request.dryRun then 0 else wanted.length
  indexes : stats'.transferredEntryIndexes = stats.transferredEntryIndexes ++
    if request.dryRun = false ∧ sender.recordsIndexes then wanted.map (·.2) else []
  bytes : stats'.bytes ≤ stats.bytes + (wanted.map (·.1.len)).sum

variable {flate : Flate} {hashes : Hashes} {m w : Machine} {request : RemoteSenderFileRequest}
  {ctx : RemoteReceiveContext} {sender : SenderSide}

/-! ## One round -/

section Round

variable {entry : RsyncFileListEntry} {source : RemoteSourceEntry} {content : Bytes} {index : Nat}
  {state : RsyncIndexState} {indexBytes : Bytes}

theorem exchange_requestRemoteSenderFile (h : SameTransfer request ctx sender)
    (hcalm : m.faults = []) (hindex : index < i32Max) (hindexed : IndexAs state index indexBytes)
    {asks : Bytes} {r : RequestState} (hr : r.indexState = state)
    (hasks : Exchange machine (do
        toMux (writeU16Le (requestIflags request.dryRun))
        writeSignatureRequest hashes request entry) (m.noted [.wroteIndex index]) [] asks ()
      (m.noted [.wroteIndex index])) :
    Exchange machine (requestRemoteSenderFile hashes request entry index r) m [] (indexBytes ++ asks)
      (r.requested (state.after index) index) (m.noted [.wroteIndex index]) := by
  have hwire : remoteWireIndex index request.indexOffset = .ok (index : Int) := by
    unfold remoteWireIndex
    rw [h.offset, if_neg (by omega), Int.add_zero,
      checkedI32_of_le (by omega) (by unfold i32Max at hindex; omega)]
  have hrest := hasks.bind_ret (k := fun _ => .ret (r.requested (state.after index) index)) rfl
  rw [Prog.bind_assoc] at hrest
  unfold requestRemoteSenderFile
  rw [hwire, Prog.ofExcept_ok, Prog.ret_bind, hr]
  exact (hindexed.write m hcalm).bind hrest

theorem exchange_serveRound {asks answer : Bytes} {literalBytes : Nat} {item : SenderRequest}
    (hunhurried : sender.runtime.stopDeadline = none) (hcalm : w.faults = [])
    (hindexed : IndexAs state index indexBytes)
    (hread : Decodes (readItemRequest sender index) asks item) {s : ServeState}
    (hs : s.readIndexState = state)
    (hanswer : Exchange machine
      (answerRequest flate hashes sender item { s with readIndexState := state.after index })
      (w.noted [.readIndex index]) [] answer
      (sender.answered request.dryRun index literalBytes { s with readIndexState := state.after index })
      (w.noted [.readIndex index, .wroteIndex index])) :
    Exchange machine (serveRound flate hashes sender s) w (indexBytes ++ asks) answer
      (some (sender.answered request.dryRun index literalBytes
          { s with readIndexState := state.after index }),
        sender.answered request.dryRun index literalBytes
          { s with readIndexState := state.after index })
      (w.noted [.readIndex index, .wroteIndex index]) := by
  have hrequest : Exchange machine (readRequest sender s.readIndexState) w (indexBytes ++ asks) []
      (some item, state.after index) (w.noted [.readIndex index]) := by
    have hdone : (index : Int) ≠ rsyncIndexDone := by
      unfold rsyncIndexDone
      omega
    unfold readRequest
    rw [hs]
    refine (hindexed.read w hcalm).bind_reads ?_
    simp only [if_neg hdone]
    exact (exchange_onMux hread).bind_ret rfl
  unfold serveRound checkTransferDeadline
  rw [hunhurried]
  refine Exchange.of_eq (List.append_nil _) rfl (hrequest.bind ?_)
  exact hanswer.bind_ret rfl

theorem exchange_takeAnswer {chunkFuel fuel : Nat} {head body more : Bytes} {r r' r'' : Received}
    {m' m'' : Machine} (h : SameTransfer request ctx sender) (hcalm : m.faults = [])
    (hindex : index < ctx.entries.length) (hsmall : index < i32Max)
    (hindexed : IndexAs state index indexBytes) {iflags : Nat} {sumHead : Option RemoteSumHead}
    (hheard : Decodes (readFileResponse index) head (.file index iflags sumHead))
    (htaken : Exchange machine
      (applyRemoteSenderFileResponseProtocol31 flate hashes chunkFuel ctx index iflags sumHead r)
      (m.noted [.readIndex index]) body [] r' m')
    (hrest : Exchange machine
      (receiveRemoteSenderFilesProtocol31 flate hashes chunkFuel ctx fuel (state.after index) r')
      m' more [] r'' m'') :
    Exchange machine
      (receiveRemoteSenderFilesProtocol31 flate hashes chunkFuel ctx (fuel + 1) state r) m
      (indexBytes ++ (head ++ body) ++ more) [] r'' m'' := by
  have hchecked : checkedRemoteFileIndex index ctx.entries.length ctx.indexOffset = .ok index := by
    unfold checkedRemoteFileIndex checkedFileIndex
    rw [h.ctxOffset, Int.sub_zero, checkedI32_of_le (by omega) (by unfold i32Max at hsmall; omega)]
    dsimp only
    rw [if_neg (by omega), Int.toNat_natCast]
  have hresponse : Exchange machine (readProtocol31SenderResponse 0 state ctx.entries false {}) m
      (indexBytes ++ head) [] (.file index iflags sumHead, state.after index)
      (m.noted [.readIndex index]) := by
    unfold readProtocol31SenderResponse
    refine (hindexed.read m hcalm).bind_reads ?_
    have hdone : (index : Int) ≠ rsyncIndexDone := by
      unfold rsyncIndexDone
      omega
    have heof : (index : Int) ≠ rsyncIndexFlistEof := by
      unfold rsyncIndexFlistEof
      omega
    have hoffset : ¬ (index : Int) ≤ rsyncIndexFlistOffset := by
      unfold rsyncIndexFlistOffset
      omega
    simp only [if_neg hdone, if_neg heof, if_neg hoffset]
    exact (exchange_onMux hheard).bind_ret rfl
  unfold receiveRemoteSenderFilesProtocol31 checkTransferDeadline
  rw [h.unhurriedHere]
  have hinput : indexBytes ++ head ++ (body ++ more) = indexBytes ++ (head ++ body) ++ more := by
    simp only [List.append_assoc]
  refine Exchange.of_eq hinput rfl (hresponse.bind_reads ?_)
  dsimp only
  rw [hchecked]
  exact htaken.bind_reads hrest

end Round

/-! ## All the files -/

theorem exchange_takeDone {chunkFuel fuel : Nat} {state : RsyncIndexState} {r : Received}
    (h : SameTransfer request ctx sender) (hcalm : m.faults = []) :
    Exchange machine
      (receiveRemoteSenderFilesProtocol31 flate hashes chunkFuel ctx (fuel + 1) state r) m [0] [] r
      (m.noted [.readIndex rsyncIndexDone]) := by
  have hresponse : Exchange machine (readProtocol31SenderResponse 0 state ctx.entries false {}) m
      [0] [] (.done, state.after rsyncIndexDone) (m.noted [.readIndex rsyncIndexDone]) := by
    unfold readProtocol31SenderResponse
    exact ((indexAs_done state).read m hcalm).bind_ret rfl
  unfold receiveRemoteSenderFilesProtocol31 checkTransferDeadline
  rw [h.unhurriedHere]
  exact hresponse.bind_ret rfl

theorem requestFileIndexes_skip {entry : RsyncFileListEntry} {index : Nat} {r : RequestState}
    {rest : List (RsyncFileListEntry × Nat)} (h : SameTransfer request ctx sender)
    (hwants : request.wants entry index = false) :
    requestFileIndexes hashes request ((entry, index) :: rest) r =
      requestFileIndexes hashes request rest r := by
  rw [requestFileIndexes, h.unhurriedRequest, if_pos (Or.inl hwants)]
  rfl

theorem requestFileIndexes_ask {entry : RsyncFileListEntry} {index : Nat} {r : RequestState}
    {rest : List (RsyncFileListEntry × Nat)} (h : SameTransfer request ctx sender)
    (hwants : request.wants entry index = true) (hfresh : r.requestedIndexes.contains index = false) :
    requestFileIndexes hashes request ((entry, index) :: rest) r =
      (requestRemoteSenderFile hashes request entry index r >>= fun r =>
        requestFileIndexes hashes request rest r) := by
  rw [requestFileIndexes, h.unhurriedRequest, if_neg (by rw [hwants, hfresh]; decide)]
  rfl

theorem serveRequests_succ (fuel : Nat) (s : ServeState) :
    serveRequests flate hashes sender (fuel + 1) s =
      (serveRound flate hashes sender s >>= fun x =>
        match x.1 with
        | none => pure x.2
        | some s => serveRequests flate hashes sender fuel s) := rfl

/-- The three walks over the files of `es`, which stand from `k` on in the list:
all start with one index state and end with one. `told` and `heard` is what the
machines have noted before. -/
structure WalkTogether (flate : Flate) (hashes : Hashes) (request : RemoteSenderFileRequest)
    (ctx : RemoteReceiveContext) (sender : SenderSide) (m w : Machine) (told heard : List Event)
    (es : List RsyncFileListEntry) (k : Nat) (state state' : RsyncIndexState)
    (asks answers : Bytes) : Prop where
  requests : ∀ r : RequestState, r.indexState = state → (∀ i ∈ r.requestedIndexes, i < k) →
    ∃ r', r'.indexState = state' ∧
      Exchange machine (requestFileIndexes hashes request (es.zipIdx k) r) (m.noted told) [] asks
        r' (m.noted (told ++ (request.wanted es k).map fun p => .wroteIndex p.2))
  serves : ∀ (s : ServeState) (fuel : Nat), s.readIndexState = state →
    s.writeIndexState = state → ∃ s', s'.readIndexState = state' ∧ s'.writeIndexState = state' ∧
      s'.phaseMarkers = s.phaseMarkers ∧
      Accounts request sender (request.wanted es k) s.stats s'.stats ∧
      Reaches machine
        (serveRequests flate hashes sender (fuel + (request.wanted es k).length) s)
        (w.noted heard) asks answers (serveRequests flate hashes sender fuel s')
        (w.noted (heard ++ (request.wanted es k).flatMap fun p =>
          [.readIndex p.2, .wroteIndex p.2]))
  receives : ∀ (m₁ : Machine) (r : Received) (chunkFuel fuel : Nat), m₁.faults = [] →
    m₁.refuses = m.refuses →
    (∀ p ∈ request.wanted es k, m₁.files (request.target p.1) = m.files (request.target p.1)) →
    (request.wanted es k).length < fuel → ∃ r' m₂,
      r'.stats.files = r.stats.files + (request.wanted es k).length ∧
      r'.stats.bytes = ((request.wanted es k).map (·.1.len)).foldl addU64 r.stats.bytes ∧
      Exchange machine
        (receiveRemoteSenderFilesProtocol31 flate hashes chunkFuel ctx fuel state r) m₁
        (answers ++ [0]) [] r' m₂ ∧
      m₂.faults = [] ∧
      m₂.log = m₁.log ++ (request.wanted es k).map (fun p => .readIndex p.2) ++
        [.readIndex rsyncIndexDone] ∧
      Delivered request ctx.processId sender w (request.wanted es k) m₁ m₂

theorem RemoteSenderFileRequest.wanted_nil (k : Nat) : request.wanted [] k = [] := rfl

theorem RemoteSenderFileRequest.wanted_skip {entry : RsyncFileListEntry}
    {es : List RsyncFileListEntry} {k : Nat} (h : request.wants entry k = false) :
    request.wanted (entry :: es) k = request.wanted es (k + 1) := by
  unfold RemoteSenderFileRequest.wanted
  rw [List.zipIdx_cons, List.filter_cons_of_neg (by simp [h])]

theorem RemoteSenderFileRequest.wanted_ask {entry : RsyncFileListEntry}
    {es : List RsyncFileListEntry} {k : Nat} (h : request.wants entry k = true) :
    request.wanted (entry :: es) k = (entry, k) :: request.wanted es (k + 1) := by
  unfold RemoteSenderFileRequest.wanted
  rw [List.zipIdx_cons, List.filter_cons_of_pos (by simpa using h)]

theorem addU64_le (a b : Nat) : addU64 a b ≤ a + b := Nat.mod_le _ _

section Walks

variable {told heard : List Event} {state state' : RsyncIndexState} {asks answers : Bytes}
  {entry : RsyncFileListEntry} {es : List RsyncFileListEntry} {k : Nat}

theorem walkTogether_nil (h : SameTransfer request ctx sender) :
    WalkTogether flate hashes request ctx sender m w told heard [] k state state [] [] := by
  refine ⟨?_, ?_, ?_⟩
  · intro r hr _
    refine ⟨r, hr, ?_⟩
    rw [RemoteSenderFileRequest.wanted_nil, List.map_nil, List.append_nil]
    exact exchange_ret _ _
  · intro s fuel hread hwrite
    refine ⟨s, hread, hwrite, rfl, ⟨?_, ?_, ?_⟩, ?_⟩
    · simp [RemoteSenderFileRequest.wanted_nil]
    · simp [RemoteSenderFileRequest.wanted_nil]
    · simp [RemoteSenderFileRequest.wanted_nil]
    · rw [RemoteSenderFileRequest.wanted_nil, List.flatMap_nil, List.append_nil]
      exact .refl _ _
  · intro m₁ r chunkFuel fuel hcalm _ _ hfuel
    obtain ⟨fuel, rfl⟩ : ∃ n, fuel = n + 1 := ⟨fuel - 1, by omega⟩
    refine ⟨r, m₁.noted [.readIndex rsyncIndexDone], ?_, ?_, exchange_takeDone h hcalm, hcalm, ?_,
      ?_, ?_⟩
    · simp [RemoteSenderFileRequest.wanted_nil]
    · simp [RemoteSenderFileRequest.wanted_nil]
    · simp [RemoteSenderFileRequest.wanted_nil]
    · intro _ p hp
      simp [RemoteSenderFileRequest.wanted_nil] at hp
    · intro path _
      exact Or.inl rfl

theorem WalkTogether.skip (h : SameTransfer request ctx sender)
    (hwants : request.wants entry k = false)
    (hwalk : WalkTogether flate hashes request ctx sender m w told heard es (k + 1) state state'
      asks answers) :
    WalkTogether flate hashes request ctx sender m w told heard (entry :: es) k state state'
      asks answers := by
  have hwanted := @RemoteSenderFileRequest.wanted_skip request entry es k hwants
  refine ⟨?_, by rw [hwanted]; exact hwalk.serves, by rw [hwanted]; exact hwalk.receives⟩
  intro r hr hbefore
  rw [hwanted, List.zipIdx_cons, requestFileIndexes_skip h hwants]
  exact hwalk.requests r hr fun i hi => Nat.lt_succ_of_lt (hbefore i hi)

/-- One more file in front of those that came. -/
theorem Delivered.cons {wanted : List (RsyncFileListEntry × Nat)} {source : RemoteSourceEntry}
    {content : Bytes} {processId : Nat} {m₁ m₂ m₃ : Machine}
    (hfile : w.files source.path = some content) (hsource : sender.entries[k]? = some source)
    (hapart : request.Apart processId ((entry, k) :: wanted))
    (hstay : request.dryRun = true → m₂.files = m₁.files)
    (hcame : request.dryRun = false → ∃ nanos, ∀ p, m₂.files p =
      if p = tempPath processId nanos (request.target entry) then none
      else if p = request.target entry then some content else m₁.files p)
    (hrest : Delivered request processId sender w wanted m₂ m₃) :
    Delivered request processId sender w ((entry, k) :: wanted) m₁ m₃ := by
  obtain ⟨hhead, -⟩ := List.pairwise_cons.mp hapart
  constructor
  · intro hdry p hp source' hsource'
    rcases List.mem_cons.mp hp with rfl | hp
    · obtain rfl : source = source' := Option.some.inj (hsource.symm.trans hsource')
      obtain ⟨nanos, hcame⟩ := hcame hdry
      rcases hrest.kept (request.target entry) (Or.inr fun q hq => (hhead q hq).1) with
        hkept | ⟨-, -, q, hq, nanos', htemp⟩
      · rw [hkept, hcame, if_neg (tempPath_ne_target _ _ _).symm, if_pos rfl, hfile]
      · exact absurd htemp.symm ((hhead q hq).2.2 nanos')
    · exact hrest.arrived hdry p hp source' hsource'
  · intro path hpath
    by_cases hdry : request.dryRun = true
    · rcases hrest.kept path (Or.inl hdry) with hkept | ⟨hno, -⟩
      · exact Or.inl (hkept.trans (congrFun (hstay hdry) path))
      · rw [hdry] at hno
        cases hno
    · have hdry' : request.dryRun = false := by simpa using hdry
      obtain ⟨nanos, hcame⟩ := hcame hdry'
      have hnot := hpath.resolve_left hdry
      rcases hrest.kept path (Or.inr fun q hq => hnot q (List.mem_cons_of_mem _ hq)) with
        hkept | ⟨-, hnone, q, hq, nanos', htemp⟩
      · rw [hkept, hcame]
        by_cases htemp : path = tempPath processId nanos (request.target entry)
        · rw [if_pos htemp]
          exact Or.inr ⟨hdry', rfl, (entry, k), List.mem_cons_self, nanos, htemp⟩
        · rw [if_neg htemp, if_neg (hnot (entry, k) List.mem_cons_self)]
          exact Or.inl rfl
      · exact Or.inr ⟨hdry', hnone, q, List.mem_cons_of_mem _ hq, nanos', htemp⟩

theorem SenderSide.answered_files (dryRun : Bool) (literalBytes : Nat) (s : ServeState) :
    (sender.answered dryRun k literalBytes s).stats.files =
      s.stats.files + if dryRun then 0 else 1 := by
  unfold SenderSide.answered SenderSide.counted
  cases dryRun <;> cases sender.recordsIndexes <;> rfl

theorem SenderSide.answered_indexes (dryRun : Bool) (literalBytes : Nat) (s : ServeState) :
    (sender.answered dryRun k literalBytes s).stats.transferredEntryIndexes =
      s.stats.transferredEntryIndexes ++
        if dryRun = false ∧ sender.recordsIndexes then [k] else [] := by
  unfold SenderSide.answered SenderSide.counted
  cases dryRun <;> cases sender.recordsIndexes <;>
    simp [RemoteExecutionStats.count, RemoteExecutionStats.record]

theorem SenderSide.answered_bytes (dryRun : Bool) (literalBytes : Nat) (s : ServeState) :
    (sender.answered dryRun k literalBytes s).stats.bytes ≤ s.stats.bytes + literalBytes := by
  have hadd := addU64_le s.stats.bytes literalBytes
  unfold SenderSide.answered SenderSide.counted
  cases dryRun <;> cases sender.recordsIndexes <;>
    simp [RemoteExecutionStats.count, RemoteExecutionStats.record, hadd]

theorem Accounts.cons {wanted : List (RsyncFileListEntry × Nat)} {literalBytes : Nat}
    {s s' : ServeState} (hle : literalBytes ≤ entry.len)
    (hrest : Accounts request sender wanted
      (sender.answered request.dryRun k literalBytes s).stats s'.stats) :
    Accounts request sender ((entry, k) :: wanted) s.stats s'.stats := by
  obtain ⟨hfiles, hindexes, hbytes⟩ := hrest
  have hanswered := @SenderSide.answered_bytes sender k request.dryRun literalBytes s
  rw [SenderSide.answered_files] at hfiles
  rw [SenderSide.answered_indexes] at hindexes
  refine ⟨?_, ?_, ?_⟩
  · rw [hfiles, List.length_cons]
    split <;> omega
  · rw [hindexes, List.append_assoc, List.map_cons]
    split <;> rfl
  · rw [List.map_cons, List.sum_cons]
    dsimp only
    omega

theorem WalkTogether.ask {source : RemoteSourceEntry} {content asks₀ head body indexBytes : Bytes}
    {literalBytes : Nat} (h : SameTransfer request ctx sender) (hm : m.faults = [])
    (hw : w.faults = []) (hindex : k < i32Max) (hentry : request.entries[k]? = some entry)
    (hsource : sender.entries[k]? = some source) (hwants : request.wants entry k = true)
    (ht : Transferable hashes request ctx m w entry source content)
    (hindexed : IndexAs state k indexBytes)
    (hapart : request.Apart ctx.processId ((entry, k) :: request.wanted es (k + 1)))
    (hasks : Exchange machine (do
        toMux (writeU16Le (requestIflags request.dryRun))
        writeSignatureRequest hashes request entry) (m.noted (told ++ [.wroteIndex k])) [] asks₀ ()
      (m.noted (told ++ [.wroteIndex k])))
    (hread : Decodes (readItemRequest sender k) asks₀
      (request.asked hashes k (request.basis m entry)))
    (hle : literalBytes ≤ content.length)
    (hanswer : ∀ (s : ServeState) (bs : Bytes), IndexAs s.writeIndexState k bs →
      Exchange machine
        (answerRequest flate hashes sender (request.asked hashes k (request.basis m entry)) s)
        (w.noted (heard ++ [.readIndex k])) [] (bs ++ (head ++ body))
        (sender.answered request.dryRun k literalBytes s)
        (w.noted (heard ++ [.readIndex k, .wroteIndex k])))
    (hanswers : Answers flate hashes request ctx m entry k content head body)
    (hwalk : WalkTogether flate hashes request ctx sender m w (told ++ [.wroteIndex k])
      (heard ++ [.readIndex k, .wroteIndex k]) es (k + 1) (state.after k) state' asks answers) :
    WalkTogether flate hashes request ctx sender m w told heard (entry :: es) k state state'
      (indexBytes ++ asks₀ ++ asks) (indexBytes ++ (head ++ body) ++ answers) := by
  have hwanted := @RemoteSenderFileRequest.wanted_ask request entry es k hwants
  refine ⟨?_, ?_, ?_⟩
  · intro r hr hbefore
    have hfresh : r.requestedIndexes.contains k = false := by
      rw [List.contains_eq_mem, decide_eq_false_iff_not]
      exact fun hk => Nat.lt_irrefl _ (hbefore k hk)
    have hone := @exchange_requestRemoteSenderFile hashes (m.noted told) request ctx sender entry k
      state indexBytes h hm hindex hindexed asks₀ r hr (by rw [Machine.noted_noted]; exact hasks)
    obtain ⟨r', hr', hrest⟩ := hwalk.requests (r.requested (state.after k) k) rfl (by
      intro i hi
      rcases List.mem_append.mp hi with hi | hi
      · exact Nat.lt_succ_of_lt (hbefore i hi)
      · rw [List.mem_singleton.mp hi]
        exact Nat.lt_succ_self k)
    refine ⟨r', hr', ?_⟩
    rw [hwanted, List.zipIdx_cons, requestFileIndexes_ask h hwants hfresh, List.map_cons]
    rw [Machine.noted_noted] at hone
    have hboth := hone.bind hrest
    rw [List.append_assoc told] at hboth
    exact hboth
  · intro s fuel hs hs'
    have hround := @exchange_serveRound flate hashes (w.noted heard) request sender k state indexBytes
      asks₀ (indexBytes ++ (head ++ body)) literalBytes (request.asked hashes k (request.basis m entry))
      h.unhurried hw hindexed hread s hs (by
        rw [Machine.noted_noted, Machine.noted_noted]
        exact hanswer { s with readIndexState := state.after k } indexBytes (by rwa [hs']))
    obtain ⟨s', hs₁, hs₂, hphase, haccounts, hstages⟩ := hwalk.serves
      (sender.answered request.dryRun k literalBytes { s with readIndexState := state.after k }) fuel
      rfl (by rw [← hs']; rfl)
    refine ⟨s', hs₁, hs₂, hphase, ?_, ?_⟩
    · rw [hwanted]
      exact Accounts.cons (s := { s with readIndexState := state.after k })
        (by rw [← ht.length]; exact hle) haccounts
    · rw [hwanted, List.length_cons, List.flatMap_cons, ← Nat.add_assoc, serveRequests_succ]
      rw [Machine.noted_noted] at hround
      have hfirst := hround.reaches (k := fun x => match x.1 with
        | none => pure x.2
        | some s =>
            serveRequests flate hashes sender (fuel + (request.wanted es (k + 1)).length) s)
      have hboth := hfirst.trans hstages
      rw [List.append_assoc heard] at hboth
      exact hboth
  · intro m₁ r chunkFuel fuel hcalm hrefuses hfiles hfuel
    rw [hwanted] at hfiles hfuel ⊢
    obtain ⟨fuel, rfl⟩ : ∃ n, fuel = n + 1 := ⟨fuel - 1, by rw [List.length_cons] at hfuel; omega⟩
    obtain ⟨r', hstats, htaken⟩ := hanswers.taken (m₁.noted [.readIndex k]) r chunkFuel hcalm hrefuses
      (hfiles (entry, k) List.mem_cons_self)
    change Exchange machine _ _ _ _ _ (if request.dryRun then m₁.noted [.readIndex k]
      else (m₁.noted [.readIndex k]).delivered ctx.processId (request.target entry) content) at htaken
    generalize hm₂ : (if request.dryRun then m₁.noted [.readIndex k]
      else (m₁.noted [.readIndex k]).delivered ctx.processId (request.target entry) content) =
      m₂ at htaken
    have hsame : m₂.faults = [] ∧ m₂.refuses = m.refuses ∧ m₂.log = m₁.log ++ [.readIndex k] := by
      rw [← hm₂]
      cases request.dryRun <;> exact ⟨hcalm, hrefuses, rfl⟩
    have hstay : request.dryRun = true → m₂.files = m₁.files := by
      intro hdry
      rw [← hm₂, if_pos hdry]
      rfl
    have hcame : request.dryRun = false → ∃ nanos, ∀ p, m₂.files p =
        if p = tempPath ctx.processId nanos (request.target entry) then none
        else if p = request.target entry then some content else m₁.files p := by
      intro hdry
      rw [← hm₂, if_neg (by simp [hdry])]
      exact ⟨m₁.clock.headD 0, fun p => rfl⟩
    have hstill : ∀ p ∈ request.wanted es (k + 1),
        m₂.files (request.target p.1) = m.files (request.target p.1) := by
      intro p hp
      rw [← hfiles p (List.mem_cons_of_mem _ hp)]
      cases hdry : request.dryRun with
      | true => rw [hstay hdry]
      | false =>
          obtain ⟨hne, hnotTemp, -⟩ := (List.pairwise_cons.mp hapart).1 p hp
          obtain ⟨nanos, hcame⟩ := hcame hdry
          rw [hcame, if_neg (hnotTemp nanos).symm, if_neg hne.symm]
    obtain ⟨r'', m₃, hcount, hbytes, hrest, hcalm', hlog, hdelivered⟩ := hwalk.receives m₂ r' chunkFuel
      fuel hsame.1 hsame.2.1 hstill (by rw [List.length_cons] at hfuel; omega)
    refine ⟨r'', m₃, ?_, ?_, ?_, hcalm', ?_, hdelivered.cons ht.file hsource hapart hstay hcame⟩
    · rw [hcount, hstats, List.length_cons, ← Nat.add_assoc]
      exact Nat.add_right_comm _ _ _
    · rw [hbytes, hstats, List.map_cons, List.foldl_cons]
      rfl
    · have hlen : k < ctx.entries.length := by
        rw [h.entries]
        exact (List.getElem?_eq_some_iff.mp hentry).1
      rw [List.append_assoc _ answers]
      exact exchange_takeAnswer h hcalm hlen hindex hindexed hanswers.heard htaken hrest
    · rw [hlog, hsame.2.2, List.map_cons]
      simp

end Walks

/-- **In step.** Whatever is asked for, each side reads the indices the other
wrote, and the files come. -/
theorem walk_together (h : SameTransfer request ctx sender) (hm : m.faults = [])
    (hw : w.faults = []) (hlen : request.entries.length ≤ i32Max)
    (hready : ∀ i entry source, request.entries[i]? = some entry →
      sender.entries[i]? = some source → request.wants entry i = true →
      ∃ content, Transferable hashes request ctx m w entry source content) :
    ∀ {es : List RsyncFileListEntry} {ss : List RemoteSourceEntry} {k : Nat} {told heard : List Event}
      {state : RsyncIndexState}, List.Forall₂ SameFile es ss → request.entries.drop k = es →
      sender.entries.drop k = ss → request.Apart ctx.processId (request.wanted es k) → state.Fits →
      ∃ (asks answers : Bytes) (state' : RsyncIndexState),
        WalkTogether flate hashes request ctx sender m w told heard es k state state' asks answers
  | [], _, _, _, _, state, .nil, _, _, _, _ => ⟨[], [], state, walkTogether_nil h⟩
  | entry :: es, source :: ss, k, told, heard, state, .cons hsame hrest, hes, hss, hapart, hfits => by
      have hentry : request.entries[k]? = some entry := by
        rw [← List.head?_drop, hes, List.head?_cons]
      have hsource : sender.entries[k]? = some source := by
        rw [← List.head?_drop, hss, List.head?_cons]
      have hes' : request.entries.drop (k + 1) = es := by
        rw [← List.tail_drop, hes, List.tail_cons]
      have hss' : sender.entries.drop (k + 1) = ss := by
        rw [← List.tail_drop, hss, List.tail_cons]
      by_cases hwants : request.wants entry k = true
      · rw [RemoteSenderFileRequest.wanted_ask hwants] at hapart
        obtain ⟨content, ht⟩ := hready k entry source hentry hsource hwants
        have hindex : k < i32Max := by
          have hk := (List.getElem?_eq_some_iff.mp hentry).1
          omega
        have hfile : entry.fileType = .file := by
          unfold RemoteSenderFileRequest.wants at hwants
          simpa using (Bool.and_eq_true_iff.mp hwants).1
        obtain ⟨⟨indexBytes, hindexed⟩, hfits'⟩ := hfits.indexAs hindex
        obtain ⟨asks₀, hasks, hread⟩ := @exchange_signatureRequest hashes
          (m.noted (told ++ [.wroteIndex k])) request ctx sender entry k h hm ht.blocks
        have hnoted : Transferable hashes request ctx m (w.noted (heard ++ [.readIndex k])) entry
            source content := { ht with file := ht.file }
        obtain ⟨head, body, literalBytes, hle, hanswer, hanswers⟩ :=
          @exchange_answerRequest flate hashes m (w.noted (heard ++ [.readIndex k])) request ctx sender
            entry source content k h hw hnoted hsource hentry hfile (hsame.1.trans hfile)
        obtain ⟨asks, answers, state', hwalk⟩ := @walk_together h hm hw hlen hready es ss (k + 1)
          (told ++ [.wroteIndex k]) (heard ++ [.readIndex k, .wroteIndex k]) (state.after k) hrest hes'
          hss' hapart.of_cons hfits'
        refine ⟨_, _, state', hwalk.ask h hm hw hindex hentry hsource hwants ht hindexed hapart hasks
          hread hle ?_ hanswers⟩
        intro s bs hbs
        have hx := hanswer s bs hbs
        rw [Machine.noted_noted, List.append_assoc] at hx
        exact hx
      · have hwants' : request.wants entry k = false := by simpa using hwants
        rw [RemoteSenderFileRequest.wanted_skip hwants'] at hapart
        obtain ⟨asks, answers, state', hwalk⟩ := @walk_together h hm hw hlen hready es ss (k + 1) told
          heard state hrest hes' hss' hapart hfits
        exact ⟨asks, answers, state', hwalk.skip h hwants'⟩

/-! ## Phases and goodbyes -/

theorem exchange_serveRound_done {s : ServeState} (hunhurried : sender.runtime.stopDeadline = none)
    (hcalm : w.faults = []) (hphase : s.phaseMarkers < 2) :
    Exchange machine (serveRound flate hashes sender s) w [0] [0]
      (some { s with phaseMarkers := s.phaseMarkers + 1 },
        { s with phaseMarkers := s.phaseMarkers + 1 })
      (w.noted [.readIndex rsyncIndexDone, .wroteIndex rsyncIndexDone]) := by
  have hread : Exchange machine (readRequest sender s.readIndexState) w [0] []
      (none, s.readIndexState) (w.noted [.readIndex rsyncIndexDone]) :=
    ((indexAs_done s.readIndexState).read w hcalm).bind_ret rfl
  have hwrite := (indexAs_done s.writeIndexState).write (w.noted [.readIndex rsyncIndexDone]) hcalm
  rw [Machine.noted_noted] at hwrite
  unfold serveRound checkTransferDeadline
  rw [hunhurried]
  refine Exchange.of_eq rfl rfl (hread.bind (j := []) (o := []) ?_)
  dsimp only
  rw [if_neg (by omega)]
  exact hwrite.bind_ret rfl

theorem exchange_serveRound_last {s : ServeState} (hunhurried : sender.runtime.stopDeadline = none)
    (hcalm : w.faults = []) (hphase : s.phaseMarkers = 2) :
    Exchange machine (serveRound flate hashes sender s) w [0] []
      (none, { s with phaseMarkers := 3 }) (w.noted [.readIndex rsyncIndexDone]) := by
  have hread : Exchange machine (readRequest sender s.readIndexState) w [0] []
      (none, s.readIndexState) (w.noted [.readIndex rsyncIndexDone]) :=
    ((indexAs_done s.readIndexState).read w hcalm).bind_ret rfl
  unfold serveRound checkTransferDeadline
  rw [hunhurried]
  refine hread.bind_ret ?_
  dsimp only
  rw [hphase]
  rfl

/-- One round of the loop whose state comes out as `some`. -/
theorem serveRequests_round {s s' : ServeState} {w' : Machine} {fuel : Nat} {i o : Bytes}
    (h : Exchange machine (serveRound flate hashes sender s) w i o (some s', s') w') :
    Reaches machine (serveRequests flate hashes sender (fuel + 1) s) w i o
      (serveRequests flate hashes sender fuel s') w' := by
  rw [serveRequests_succ]
  exact h.reaches (k := fun x => match x.1 with
    | none => pure x.2
    | some s => serveRequests flate hashes sender fuel s)

theorem serveRequests_last {s s' : ServeState} {w' : Machine} {fuel : Nat} {i o : Bytes}
    (h : Exchange machine (serveRound flate hashes sender s) w i o (none, s') w') :
    Reaches machine (serveRequests flate hashes sender (fuel + 1) s) w i o (.ret s') w' := by
  rw [serveRequests_succ]
  exact (h.bind_ret (k := fun x => match x.1 with
    | none => pure x.2
    | some s => serveRequests flate hashes sender fuel s) rfl).returns

end RsyncWin
