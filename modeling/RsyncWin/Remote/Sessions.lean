import RsyncWin.Remote.Lockstep

/-!
# Pull and push from end to end

A client that pulls against the daemon that sends, and a client that pushes
against the daemon that receives: both sides return, nothing is left unread, the
files have arrived, and whatever the interleaving of the two is, it comes to
this end.
-/

namespace RsyncWin

open ByteString Codec Duplex

/-! ## What was read and written -/

def Event.read? : Event → Option Int
  | .readIndex index => some index
  | .wroteIndex _ => none

def Event.wrote? : Event → Option Int
  | .readIndex _ => none
  | .wroteIndex index => some index

def Machine.indicesRead (m : Machine) : List Int := m.log.filterMap Event.read?

def Machine.indicesWritten (m : Machine) : List Int := m.log.filterMap Event.wrote?

/-- What has to hold for the files of a list to be transferred. -/
structure Meeting (hashes : Hashes) (request : RemoteSenderFileRequest) (ctx : RemoteReceiveContext)
    (sender : SenderSide) (m w : Machine) : Prop where
  same : SameTransfer request ctx sender
  calm : m.faults = []
  senderCalm : w.faults = []
  count : request.entries.length ≤ i32Max
  order : List.Forall₂ SameFile request.entries sender.entries
  apart : request.Apart ctx.processId (request.wanted request.entries 0)
  ready : ∀ i entry source, request.entries[i]? = some entry → sender.entries[i]? = some source →
    request.wants entry i = true → ∃ content, Transferable hashes request ctx m w entry source content

/-- Everything that is asked for, in the order of the list. -/
def RemoteSenderFileRequest.allWanted (request : RemoteSenderFileRequest) :
    List (RsyncFileListEntry × Nat) :=
  request.wanted request.entries 0

/-- The two machines after a session: the files have come, the sender changed
nothing, and each side has read what the other wrote. -/
structure Transferred (request : RemoteSenderFileRequest) (processId : Nat) (sender : SenderSide)
    (m m' w w' : Machine) : Prop where
  delivered : Delivered request processId sender w request.allWanted m m'
  untouched : w'.files = w.files
  asked : m'.indicesWritten = m.indicesWritten ++ request.allWanted.map (fun p => (p.2 : Int)) ++
    List.replicate 5 rsyncIndexDone
  heardAsked : w'.indicesRead = w.indicesRead ++ request.allWanted.map (fun p => (p.2 : Int)) ++
    List.replicate 5 rsyncIndexDone
  answered : w'.indicesWritten = w.indicesWritten ++ request.allWanted.map (fun p => (p.2 : Int)) ++
    List.replicate 4 rsyncIndexDone
  heardAnswered : m'.indicesRead = m.indicesRead ++ request.allWanted.map (fun p => (p.2 : Int)) ++
    List.replicate 4 rsyncIndexDone

variable {flate : Flate} {hashes : Hashes} {m w : Machine} {request : RemoteSenderFileRequest}
  {ctx : RemoteReceiveContext} {sender : SenderSide} {β γ : Type}

/-! ## Stages of the ends -/

theorem exchange_requestAll {asks : Bytes} {r : RequestState} {events : List Event}
    (hcalm : m.faults = [])
    (h : Exchange machine (requestRemoteSenderFileIndexesProtocol31 hashes request {}) m [] asks r
      (m.noted events)) :
    Exchange machine (requestRemoteSenderFilesProtocol31 hashes request) m [] (asks ++ [0]) ()
      (m.noted (events ++ [.wroteIndex rsyncIndexDone])) := by
  have hdone := (indexAs_done r.indexState).write (m.noted events) hcalm
  rw [Machine.noted_noted] at hdone
  exact h.bind (hdone.bind_ret rfl)

/-- The phases of the receiver, with what it has to wait for in between. -/
theorem reaches_receiverPhases (hcalm : m.faults = []) :
    ∃ p₁ p₂ : Session Unit,
      Reaches machine receiverPhases m [] [0] p₁ (m.noted [.wroteIndex rsyncIndexDone]) ∧
      (∀ m : Machine, m.faults = [] → Reaches machine p₁ m [0] [0] p₂
        (m.noted [.readIndex rsyncIndexDone, .wroteIndex rsyncIndexDone])) ∧
      ∀ m : Machine, m.faults = [] →
        Reaches machine p₂ m [0] [] (.ret ()) (m.noted [.readIndex rsyncIndexDone]) := by
  refine ⟨do
      awaitPhaseDone
      writeRsync31Done
      awaitFinalDone, awaitFinalDone, (exchange_writeRsync31Done hcalm).reaches, ?_, ?_⟩
  · intro m hcalm
    have hwrite := exchange_writeRsync31Done (m := m.noted [.readIndex rsyncIndexDone]) hcalm
    rw [Machine.noted_noted] at hwrite
    have hfirst : Reaches machine (do
        awaitPhaseDone
        writeRsync31Done
        awaitFinalDone) m [0] [] (do
        writeRsync31Done
        awaitFinalDone) (m.noted [.readIndex rsyncIndexDone]) :=
      (exchange_awaitPhaseDone hcalm).reaches
    exact hfirst.trans hwrite.reaches
  · intro m hcalm
    exact (exchange_awaitFinalDone hcalm).returns

/-- A `DONE` read and one written. -/
def doneEvents : List Event := [.readIndex rsyncIndexDone, .wroteIndex rsyncIndexDone]

/-- What the sender notes while it serves. -/
def servedEvents (wanted : List (RsyncFileListEntry × Nat)) : List Event :=
  wanted.flatMap fun p => [.readIndex p.2, .wroteIndex p.2]

def askedEvents (wanted : List (RsyncFileListEntry × Nat)) : List Event :=
  wanted.map (fun p => .wroteIndex p.2) ++ [.wroteIndex rsyncIndexDone]

/-- The sender's loop over all requests and the three phase markers. -/
theorem WalkTogether.phases {state' : RsyncIndexState} {asks answers : Bytes}
    (hwalk : WalkTogether flate hashes request ctx sender m w [] [] request.entries 0 {} state'
      asks answers) (hunhurried : sender.runtime.stopDeadline = none) (hcalm : w.faults = [])
    {sendFuel : Nat} (hsend : request.allWanted.length + 3 ≤ sendFuel) :
    ∃ (q₁ q₂ : Session ServeState) (s : ServeState),
      Accounts request sender request.allWanted {} s.stats ∧
      Reaches machine (serveRequests flate hashes sender sendFuel {}) w (asks ++ [0])
        (answers ++ [0]) q₁ (w.noted (servedEvents request.allWanted ++ doneEvents)) ∧
      Reaches machine q₁ (w.noted (servedEvents request.allWanted ++ doneEvents)) [0] [0] q₂
        (w.noted (servedEvents request.allWanted ++ doneEvents ++ doneEvents)) ∧
      Reaches machine q₂ (w.noted (servedEvents request.allWanted ++ doneEvents ++ doneEvents)) [0] []
        (.ret s) (w.noted (servedEvents request.allWanted ++ doneEvents ++ doneEvents ++
          [.readIndex rsyncIndexDone])) := by
  obtain ⟨fuel, rfl⟩ : ∃ n, sendFuel = n + 3 + request.allWanted.length :=
    ⟨sendFuel - request.allWanted.length - 3, by omega⟩
  obtain ⟨s, -, -, hphase, haccounts, hserves⟩ := hwalk.serves {} (fuel + 3) rfl rfl
  change s.phaseMarkers = 0 at hphase
  rw [Machine.noted_nil, List.nil_append] at hserves
  have hround₁ := @serveRequests_round flate hashes _ sender _ _ _ (fuel + 2) _ _
    (@exchange_serveRound_done flate hashes (w.noted (servedEvents request.allWanted)) sender s
      hunhurried hcalm (by omega))
  have hround₂ := @serveRequests_round flate hashes _ sender _ _ _ (fuel + 1) _ _
    (@exchange_serveRound_done flate hashes
      (w.noted (servedEvents request.allWanted ++ doneEvents)) sender
      { s with phaseMarkers := s.phaseMarkers + 1 } hunhurried hcalm
      (by show s.phaseMarkers + 1 < 2; omega))
  have hround₃ := @exchange_serveRound_last flate hashes
    (w.noted (servedEvents request.allWanted ++ doneEvents ++ doneEvents)) sender
    { s with phaseMarkers := s.phaseMarkers + 1 + 1 } hunhurried hcalm
    (by show s.phaseMarkers + 1 + 1 = 2; omega)
  rw [Machine.noted_noted] at hround₁ hround₂ hround₃
  refine ⟨_, _, { s with phaseMarkers := 3 }, haccounts, hserves.trans hround₁, hround₂, ?_⟩
  exact serveRequests_last hround₃

/-- Both sides, up to where the sender has ended its loop. -/
theorem Meeting.gets (h : Meeting hashes request ctx sender m w) {chunkFuel fuel sendFuel : Nat}
    (hfuel : request.allWanted.length < fuel) (hsend : request.allWanted.length + 3 ≤ sendFuel)
    {rest : Received → Session γ} {tail : ServeState → Session β}
    {c : Config muxLink localSig Machine Machine γ β}
    (hc : Gets machine machine c (do
        requestRemoteSenderFilesProtocol31 hashes request
        let received ← receiveRemoteSenderFilesProtocol31 flate hashes chunkFuel ctx fuel {} {}
        receiverPhases
        rest received) m (do
        let s ← serveRequests flate hashes sender sendFuel {}
        let _ ← writeRsync31Index s.writeIndexState rsyncIndexDone
        tail s) w [] []) :
    ∃ (received : Received) (s : ServeState) (m₁ : Machine),
      Gets machine machine c (rest received) m₁ (tail s)
        (w.noted (servedEvents request.allWanted ++ doneEvents ++ doneEvents ++ doneEvents)) [] [] ∧
      received.stats.files = request.allWanted.length ∧
      received.stats.bytes = sumU64 (request.allWanted.map (·.1.len)) ∧
      Accounts request sender request.allWanted {} s.stats ∧
      m₁.faults = [] ∧
      m₁.log = m.log ++ askedEvents request.allWanted ++
        request.allWanted.map (fun p => .readIndex p.2) ++
        (doneEvents ++ doneEvents ++ [.readIndex rsyncIndexDone]) ∧
      Delivered request ctx.processId sender w request.allWanted m m₁ := by
  obtain ⟨asks, answers, state', hwalk⟩ := @walk_together flate hashes m w request ctx sender h.same
    h.calm h.senderCalm h.count h.ready request.entries sender.entries 0 [] [] {} h.order rfl rfl
    h.apart fits_default
  obtain ⟨r, -, hrequests⟩ := hwalk.requests {} rfl (by simp)
  rw [Machine.noted_nil, List.nil_append] at hrequests
  have hasks := exchange_requestAll h.calm hrequests
  obtain ⟨q₁, q₂, s, haccounts, hserve₁, hserve₂, hserve₃⟩ :=
    hwalk.phases h.same.unhurried h.senderCalm hsend
  obtain ⟨received, m₂, hfiles, hbytes, hreceives, hcalm, hlog, hdelivered⟩ := hwalk.receives
    (m.noted (request.allWanted.map (fun p => .wroteIndex p.2) ++ [.wroteIndex rsyncIndexDone])) {}
    chunkFuel fuel h.calm rfl (fun _ _ => rfl) hfuel
  obtain ⟨p₁, p₂, hphase₁, hphase₂, hphase₃⟩ := reaches_receiverPhases hcalm
  have hlast := ((indexAs_done s.writeIndexState).write
    (w.noted (servedEvents request.allWanted ++ doneEvents ++ doneEvents ++
      [.readIndex rsyncIndexDone])) h.senderCalm).reaches (k := fun _ => tail s)
  rw [Machine.noted_noted, List.append_assoc _ [Event.readIndex rsyncIndexDone]] at hlast
  have hasked := hc.left hasks.reaches
  have hanswered := hasked.right (hserve₁.bind _)
  have htake : Reaches machine (do
      let received ← receiveRemoteSenderFilesProtocol31 flate hashes chunkFuel ctx fuel {} {}
      receiverPhases
      rest received) (m.noted (askedEvents request.allWanted)) (answers ++ [0]) [0]
      (p₁ >>= fun _ => rest received) (m₂.noted [.wroteIndex rsyncIndexDone]) :=
    Reaches.of_eq (List.append_nil _) rfl
      (hreceives.reaches.trans (hphase₁.bind fun _ => rest received))
  have hreceived := (hanswered.left htake).right (hserve₂.bind _)
  have hphased := (hreceived.left ((hphase₂ (m₂.noted [.wroteIndex rsyncIndexDone]) hcalm).bind
    fun _ => rest received)).right
    ((hserve₃.bind _).trans hlast)
  have hended := hphased.left ((hphase₃ ((m₂.noted [.wroteIndex rsyncIndexDone]).noted doneEvents)
    hcalm).bind fun _ => rest received)
  refine ⟨received, s, _, hended, ?_, hbytes, haccounts, hcalm, ?_, ?_⟩
  · rw [hfiles]
    exact Nat.zero_add _
  · simp only [Machine.noted_log, hlog, doneEvents, askedEvents, List.append_assoc]
    rfl
  · exact ⟨hdelivered.arrived, hdelivered.kept⟩

/-! ## Goodbyes -/

/-- Three goodbyes: the receiver's, the sender's answer, the receiver's. -/
theorem Gets.goodbyes {c : Config muxLink localSig Machine Machine γ β} {k : Session γ}
    {q l : Session β} (hc : Gets machine machine c (receiverGoodbyes >>= fun _ => k) m q w [] [])
    (hq : q = senderGoodbyes >>= fun _ => l) (hm : m.faults = []) (hw : w.faults = []) :
    Gets machine machine c k
      (m.noted [.wroteIndex rsyncIndexDone, .readIndex rsyncIndexDone, .wroteIndex rsyncIndexDone]) l
      (w.noted [.readIndex rsyncIndexDone, .wroteIndex rsyncIndexDone, .readIndex rsyncIndexDone])
      [] [] := by
  subst hq
  have hfirst : Reaches machine receiverGoodbyes m [] [0] (do
      awaitFinalDone
      writeRsync31Done) (m.noted [.wroteIndex rsyncIndexDone]) :=
    (exchange_writeRsync31Done hm).reaches
  have hanswer : Reaches machine senderGoodbyes w [0] [0] awaitFinalDone
      (w.noted [.readIndex rsyncIndexDone, .wroteIndex rsyncIndexDone]) := by
    have hwrite := exchange_writeRsync31Done (m := w.noted [.readIndex rsyncIndexDone]) hw
    rw [Machine.noted_noted] at hwrite
    have hread : Reaches machine senderGoodbyes w [0] [] (do
        writeRsync31Done
        awaitFinalDone) (w.noted [.readIndex rsyncIndexDone]) :=
      (exchange_awaitFinalDone hw).reaches
    exact hread.trans hwrite.reaches
  have hsecond : Reaches machine (do
      awaitFinalDone
      writeRsync31Done) (m.noted [.wroteIndex rsyncIndexDone]) [0] [0] (.ret ())
      (m.noted [.wroteIndex rsyncIndexDone, .readIndex rsyncIndexDone,
        .wroteIndex rsyncIndexDone]) := by
    have hread := exchange_awaitFinalDone (m := m.noted [.wroteIndex rsyncIndexDone]) hm
    have hwrite := exchange_writeRsync31Done
      (m := m.noted [.wroteIndex rsyncIndexDone, .readIndex rsyncIndexDone]) hm
    rw [Machine.noted_noted] at hread hwrite
    exact (hread.bind hwrite).returns
  have hlast := exchange_awaitFinalDone
    (m := w.noted [.readIndex rsyncIndexDone, .wroteIndex rsyncIndexDone]) hw
  rw [Machine.noted_noted] at hlast
  exact (((hc.left (hfirst.bind fun _ => k)).right (hanswer.bind fun _ => l)).left
    (hsecond.bind fun _ => k)).right (hlast.returns.bind fun _ => l)

theorem roundTrips_stats {entries : List RemoteSourceEntry} {stats : RemoteExecutionStats}
    (hbytes : stats.bytes < 2 ^ 56) (htotal : totalFileSize entries < 2 ^ 56) :
    RoundTrips (writeDaemonSenderStats entries stats) () readRemoteSenderProtocol31Stats () := by
  have hvar : ∀ {n : Nat}, n < 2 ^ 56 → RoundTrips (writeVarlong n 3) () (readVarlong 3) n :=
    fun hn => roundTrips_varlong (by decide) (by decide) hn
  have hzero := hvar (n := 0) (by decide)
  exact hzero.bind ((hvar hbytes).bind ((hvar htotal).bind (hzero.bind (hzero.bind
    (roundTrips_ret () ())))))

theorem foldl_addU64_le (values : List Nat) (a : Nat) : values.foldl addU64 a ≤ a + values.sum := by
  induction values generalizing a with
  | nil => simp
  | cons value values ih =>
      have hstep := addU64_le a value
      have hrest := ih (addU64 a value)
      rw [List.foldl_cons, List.sum_cons]
      omega

theorem foldl_addU64_eq {values : List Nat} {a : Nat} (h : a + values.sum < 2 ^ 64) :
    values.foldl addU64 a = a + values.sum := by
  induction values generalizing a with
  | nil => simp
  | cons value values ih =>
      rw [List.sum_cons] at h
      have hstep : addU64 a value = a + value := Nat.mod_eq_of_lt (by omega)
      rw [List.foldl_cons, hstep, ih (by omega), List.sum_cons, Nat.add_assoc]

/-- What is asked for is part of what is listed. -/
theorem sum_wanted_le : ∀ {es : List RsyncFileListEntry} {ss : List RemoteSourceEntry} {k : Nat},
    List.Forall₂ SameFile es ss → ((request.wanted es k).map (·.1.len)).sum ≤
      ((ss.filter fun source => source.wire.fileType = .file).map (·.wire.len)).sum
  | [], _, _, .nil => Nat.le_refl _
  | entry :: es, source :: ss, k, .cons hsame hrest => by
      have hle := @sum_wanted_le es ss (k + 1) hrest
      obtain ⟨htype, hlen⟩ := hsame
      by_cases hwants : request.wants entry k = true
      · have hfile : source.wire.fileType = .file := by
          rw [htype]
          unfold RemoteSenderFileRequest.wants at hwants
          simpa using (Bool.and_eq_true_iff.mp hwants).1
        rw [RemoteSenderFileRequest.wanted_ask hwants, List.filter_cons_of_pos (by simpa using hfile)]
        simp only [List.map_cons, List.sum_cons, hlen]
        omega
      · rw [RemoteSenderFileRequest.wanted_skip (by simpa using hwants)]
        by_cases hfile : source.wire.fileType = .file
        · rw [List.filter_cons_of_pos (by simpa using hfile), List.map_cons, List.sum_cons]
          omega
        · rw [List.filter_cons_of_neg (by simpa using hfile)]
          exact hle

/-! ## What the machines noted -/

@[simp] theorem filterMap_read_asked (wanted : List (RsyncFileListEntry × Nat)) :
    (askedEvents wanted).filterMap Event.read? = [] := by
  simp [askedEvents, Event.read?]

@[simp] theorem filterMap_wrote_asked (wanted : List (RsyncFileListEntry × Nat)) :
    (askedEvents wanted).filterMap Event.wrote? =
      wanted.map (fun p => (p.2 : Int)) ++ [rsyncIndexDone] := by
  simp [askedEvents, Event.wrote?, List.filterMap_map, Function.comp_def]

@[simp] theorem filterMap_read_served (wanted : List (RsyncFileListEntry × Nat)) :
    (servedEvents wanted).filterMap Event.read? = wanted.map (fun p => (p.2 : Int)) := by
  induction wanted with
  | nil => rfl
  | cons p wanted ih => simpa [servedEvents, Event.read?, List.filterMap_cons] using ih

@[simp] theorem filterMap_wrote_served (wanted : List (RsyncFileListEntry × Nat)) :
    (servedEvents wanted).filterMap Event.wrote? = wanted.map (fun p => (p.2 : Int)) := by
  induction wanted with
  | nil => rfl
  | cons p wanted ih => simpa [servedEvents, Event.wrote?, List.filterMap_cons] using ih

@[simp] theorem filterMap_read_taken (wanted : List (RsyncFileListEntry × Nat)) :
    (wanted.map fun p => Event.readIndex p.2).filterMap Event.read? =
      wanted.map (fun p => (p.2 : Int)) := by
  simp [List.filterMap_map, Function.comp_def, Event.read?]

@[simp] theorem filterMap_wrote_taken (wanted : List (RsyncFileListEntry × Nat)) :
    (wanted.map fun p => Event.readIndex p.2).filterMap Event.wrote? = [] := by
  simp [Event.wrote?]

/-- The end of a session, from what its two sides noted. -/
theorem transferred_of_logs {processId : Nat} {m' w' : Machine}
    (hdelivered : Delivered request processId sender w request.allWanted m m')
    (hfiles : w'.files = w.files)
    (hm : m'.log = m.log ++ askedEvents request.allWanted ++
      request.allWanted.map (fun p => .readIndex p.2) ++
      (doneEvents ++ doneEvents ++ [.readIndex rsyncIndexDone]) ++
      [.wroteIndex rsyncIndexDone, .readIndex rsyncIndexDone, .wroteIndex rsyncIndexDone])
    (hw : w'.log = w.log ++ (servedEvents request.allWanted ++ doneEvents ++ doneEvents ++
      doneEvents ++
      [.readIndex rsyncIndexDone, .wroteIndex rsyncIndexDone, .readIndex rsyncIndexDone])) :
    Transferred request processId sender m m' w w' where
  delivered := hdelivered
  untouched := hfiles
  asked := by
    unfold Machine.indicesWritten
    simp only [hm, doneEvents, List.filterMap_append, filterMap_wrote_asked, filterMap_wrote_taken,
      List.append_assoc]
    rfl
  heardAsked := by
    unfold Machine.indicesRead
    simp only [hw, doneEvents, List.filterMap_append, filterMap_read_served, List.append_assoc]
    rfl
  answered := by
    unfold Machine.indicesWritten
    simp only [hw, doneEvents, List.filterMap_append, filterMap_wrote_served, List.append_assoc]
    rfl
  heardAnswered := by
    unfold Machine.indicesRead
    simp only [hm, doneEvents, List.filterMap_append, filterMap_read_asked, filterMap_read_taken,
      List.append_assoc]
    rfl

/-! ## One file to look at -/

def aabEntry : RsyncFileListEntry := ⟨[0x66], .file, 3, 0, 0o100644, none, none, {}⟩

def aabSource : RemoteSourceEntry := ⟨aabEntry, [0x66]⟩

def aabRequest : RemoteSenderFileRequest where
  entries := [aabEntry]
  selectedIndexes := [0]
  dryRun := false
  dest := []
  blockSize := 1
  wholeFile := false
  checksum := .plainMd4

def aabContext : RemoteReceiveContext where
  dest := []
  entries := [aabEntry]
  finalChecksum := .plainMd4
  dryRun := false
  preserveTimes := true
  processId := 7

def abMachine : Machine where
  files p := if p = [.normal [0x66]] then some [0x61, 0x62] else none

def aabMachine : Machine where
  files p := if p = [.normal [0x66]] then some [0x61, 0x61, 0x62] else none

/-- The file `ab` is brought up to `aab` by blocks of one byte. -/
theorem meeting_aab {sender : SenderSide} (hentries : sender.entries = [aabSource])
    (hsame : SameTransfer aabRequest aabContext sender) :
    Meeting md4Hashes aabRequest aabContext sender abMachine aabMachine where
  same := hsame
  calm := rfl
  senderCalm := rfl
  count := by decide
  order := by
    rw [hentries]
    exact .cons ⟨rfl, rfl⟩ .nil
  apart := by
    unfold RemoteSenderFileRequest.Apart
    exact List.pairwise_singleton _ _
  ready := by
    intro i entry source hentry hsource _
    obtain ⟨rfl, rfl⟩ : i = 0 ∧ entry = aabEntry := by
      cases i with
      | zero => exact ⟨rfl, (Option.some.inj hentry).symm⟩
      | succ i => cases hentry
    rw [hentries] at hsource
    obtain rfl : aabSource = source := Option.some.inj hsource
    refine ⟨[0x61, 0x61, 0x62], rfl, rfl, by decide, rfl, fun _ => rfl, ?_, noCollision_aab⟩
    intro old hold
    obtain rfl : [0x61, 0x62] = old := Option.some.inj hold
    decide

/-! ## The sessions -/

section Daemon

variable {sources : List RemoteSourceEntry} {dryRun : Bool} {chunkFuel fuel sendFuel : Nat}

/-- From wherever the two come to a pull, they come to its end. -/
theorem Meeting.pulls (h : Meeting hashes request ctx (daemonSender sources dryRun none) m w)
    (htotal : ((sources.filter fun source => source.wire.fileType = .file).map (·.wire.len)).sum <
      2 ^ 56)
    (hfuel : request.allWanted.length < fuel) (hsend : request.allWanted.length + 3 ≤ sendFuel)
    {k : Received → Session γ} {c : Config muxLink localSig Machine Machine γ Unit}
    (hc : Gets machine machine c (pullFiles flate hashes request ctx chunkFuel fuel >>= k) m
      (serveDaemonSenderRequestsProtocol31 flate hashes sources dryRun none sendFuel) w [] []) :
    ∃ (received : Received) (m' w' : Machine),
      Gets machine machine c (k received) m' (.ret ()) w' [] [] ∧
      received.stats.files = request.allWanted.length ∧
      received.stats.bytes = (request.allWanted.map (·.1.len)).sum ∧
      Transferred request ctx.processId (daemonSender sources dryRun none) m m' w w' := by
  have hwanted := @sum_wanted_le request request.entries sources 0 h.order
  unfold pullFiles at hc
  simp only [Prog.bind_assoc] at hc
  obtain ⟨received, s, m₁, hgets, hfiles, hbytes, haccounts, hcalm, hlog, hdelivered⟩ :=
    h.gets hfuel hsend hc
  have hsmall : s.stats.bytes < 2 ^ 56 := by
    have hle := haccounts.bytes
    change s.stats.bytes ≤ 0 + ((request.wanted request.entries 0).map (·.1.len)).sum at hle
    omega
  have hsize : totalFileSize sources < 2 ^ 56 :=
    lt_of_le_of_lt ((foldl_addU64_le _ 0).trans (by rw [Nat.zero_add])) htotal
  obtain ⟨cs, hwrite, hread⟩ := roundTrips_stats hsmall hsize
  have hsent := hgets.right (exchange_toMux hwrite).reaches
  have hheard := hsent.left (exchange_onMux hread).reaches
  have hend := hheard.goodbyes (l := .ret ()) (Prog.bind_ret senderGoodbyes).symm hcalm h.senderCalm
  refine ⟨received, _, _, hend, hfiles, ?_, ?_⟩
  · rw [hbytes]
    have hsum : 0 + ((request.wanted request.entries 0).map (·.1.len)).sum < 2 ^ 64 := by omega
    exact (foldl_addU64_eq hsum).trans (Nat.zero_add _)
  · refine transferred_of_logs ⟨hdelivered.arrived, hdelivered.kept⟩ rfl ?_ ?_
    · rw [Machine.noted_log, hlog]
    · rw [Machine.noted_noted, Machine.noted_log]

theorem Meeting.pushes {appendVerify : Bool} {checksum : RemoteFileChecksum}
    {runtime : RemoteTransferRuntime}
    (h : Meeting hashes request ctx (clientSender sources dryRun appendVerify checksum runtime) m w)
    (htotal : ((sources.filter fun source => source.wire.fileType = .file).map (·.wire.len)).sum <
      2 ^ 64)
    (hfuel : request.allWanted.length < fuel) (hsend : request.allWanted.length + 3 ≤ sendFuel)
    {k : Received → Session γ} {c : Config muxLink localSig Machine Machine γ RemoteExecutionStats}
    (hc : Gets machine machine c (receivePushedFiles flate hashes request ctx chunkFuel fuel >>= k) m
      (serveRemoteReceiverRequestsProtocol31 flate hashes sources dryRun appendVerify checksum
        runtime sendFuel) w [] []) :
    ∃ (received : Received) (stats : RemoteExecutionStats) (m' w' : Machine),
      Gets machine machine c (k received) m' (.ret stats) w' [] [] ∧
      received.stats.files = request.allWanted.length ∧
      received.stats.bytes = (request.allWanted.map (·.1.len)).sum ∧
      stats.transferredEntryIndexes =
        (if request.dryRun then [] else request.allWanted.map (·.2)) ∧
      Transferred request ctx.processId
        (clientSender sources dryRun appendVerify checksum runtime) m m' w w' := by
  unfold receivePushedFiles at hc
  simp only [Prog.bind_assoc] at hc
  obtain ⟨received, s, m₁, hgets, hfiles, hbytes, haccounts, hcalm, hlog, hdelivered⟩ :=
    h.gets hfuel hsend hc
  have hend := hgets.goodbyes rfl hcalm h.senderCalm
  refine ⟨received, s.stats, _, _, hend, hfiles, ?_, ?_, ?_⟩
  · have hwanted := @sum_wanted_le request request.entries sources 0 h.order
    have hsum : 0 + ((request.wanted request.entries 0).map (·.1.len)).sum < 2 ^ 64 := by omega
    rw [hbytes]
    exact (foldl_addU64_eq hsum).trans (Nat.zero_add _)
  · rw [haccounts.indexes]
    cases request.dryRun <;> rfl
  · refine transferred_of_logs ⟨hdelivered.arrived, hdelivered.kept⟩ rfl ?_ ?_
    · rw [Machine.noted_log, hlog]
    · rw [Machine.noted_noted, Machine.noted_log]

end Daemon

end RsyncWin
