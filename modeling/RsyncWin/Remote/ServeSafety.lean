import RsyncWin.Remote.PullSafety

/-!
# Serving a peer nobody vouches for

The sending side opens the regular files of its own list and nothing else, and
changes no file on any machine, whatever it is asked. Its answers are the
requests in their order: at any moment the indices it has sent are a beginning
of those it has read, and the index it sends next was read last.
-/

namespace RsyncWin

open ByteString Codec Duplex Prog

def heardIndex (c : SessionCall) : Option Int :=
  match c.1 with
  | .loc (.note (.readIndex index)) => if 0 ≤ index then some index else none
  | _ => none

def heardIn (past : List SessionCall) : List Int := past.filterMap heardIndex

theorem heardIn_append (past : List SessionCall) (c : SessionCall) :
    heardIn (past ++ [c]) = heardIn past ++ (heardIndex c).toList := by
  unfold heardIn
  rw [List.filterMap_append]
  cases h : heardIndex c <;> simp [h]

/-- What a sender does to its machine besides taking notes. -/
inductive Reads (allowed : LocalPath → Prop) : LocalOp → Prop
  | now : Reads allowed .now
  | openFile {path : LocalPath} (h : allowed path) : Reads allowed (.openFile path)

/-- Reading allowed files, and answering what was asked last. -/
def Obliging (allowed : LocalPath → Prop) (past : List SessionCall) : Op localSig → Prop
  | .recv _ => True
  | .send _ => True
  | .loc o => Reads allowed o ∨ (∃ index, o = .note (.readIndex index)) ∨
      ∃ index, o = .note (.wroteIndex index) ∧
        (0 ≤ index → askedIn past ++ [index] <+: heardIn past)

/-- A session that reads allowed files, changes none, and answers in the order of the requests. -/
structure Serves {α : Type} (allowed : LocalPath → Prop) (p : Session α) : Prop where
  calls : Does (fun o => Reads allowed o ∨ ∃ event, o = .note event) p
  files : ∀ (K : Link Error) (s s' : Solo K Machine), s' ∈ p.states (soloHandler K machine) s →
    s'.mem.files = s.mem.files
  inOrder : ∀ t q, Goes p t q → askedIn t <+: heardIn t

variable {α β : Type} {allowed : LocalPath → Prop} {past : List SessionCall}

theorem serves_of_guards {p : Session α} {Q : α → List SessionCall → Prop}
    (h : p.Guards (Obliging allowed) Q []) : Serves allowed p := by
  have hcalls : Does (fun o => Reads allowed o ∨ ∃ event, o = .note event) p := by
    refine h.calls ?_
    intro past o ho
    cases o with
    | recv n => trivial
    | send bs => trivial
    | loc o =>
        rcases ho with hreads | ⟨index, rfl⟩ | ⟨index, rfl, -⟩
        · exact Or.inl hreads
        · exact Or.inr ⟨_, rfl⟩
        · exact Or.inr ⟨_, rfl⟩
  refine ⟨hcalls, ?_, ?_⟩
  · intro K s s' hs'
    refine (ensures_of_calls (K := K) (H := machine)
      (I := fun m : Machine => m.files = s.mem.files) hcalls ?_ (s := s) rfl).always s' hs'
    intro o m r m' ho hm hrun
    funext path
    have hwrites : o.writes ≠ some path := by
      rcases ho with hreads | ⟨event, rfl⟩
      · cases hreads <;> simp [LocalOp.writes]
      · simp [LocalOp.writes]
    rw [machine_frame hrun hwrites, hm]
  · intro t q hgo
    refine h.always (J := fun past => askedIn past <+: heardIn past) ?_ (List.prefix_refl _) hgo
    intro past o ho hprefix r
    rw [askedIn_append, heardIn_append]
    have hsilent : askedIndex ⟨o, r⟩ = none →
        askedIn past ++ (askedIndex ⟨o, r⟩).toList <+:
          heardIn past ++ (heardIndex ⟨o, r⟩).toList := by
      intro hnone
      rw [hnone, Option.toList_none, List.append_nil]
      exact hprefix.trans (List.prefix_append _ _)
    cases o with
    | recv n => exact hsilent rfl
    | send bs => exact hsilent rfl
    | loc o =>
        rcases ho with hreads | ⟨index, rfl⟩ | ⟨index, rfl, hnext⟩
        · cases hreads <;> exact hsilent rfl
        · exact hsilent rfl
        · by_cases hnonneg : 0 ≤ index
          · simpa [askedIndex, heardIndex, hnonneg] using hnext hnonneg
          · exact hsilent (by simp [askedIndex, hnonneg])

/-! ## Stretches -/

/-- What stands open: the indices read, behind those answered. -/
structure Owes (owed : List Int) (past : List SessionCall) : Prop where
  heard : heardIn past = askedIn past ++ owed

theorem owes_nil : Owes [] [] := ⟨rfl⟩

/-- Reading and talking neither ask nor answer. -/
theorem owing_bind {p : Session α} {k : α → Session β} {R : α → Prop}
    {Q : β → List SessionCall → Prop} (h : p.Calls (onLoc (Reads allowed)) R) {owed : List Int}
    (hpast : Owes owed past)
    (hk : ∀ a past', R a → Owes owed past' → (k a).Guards (Obliging allowed) Q past') :
    (p >>= k).Guards (Obliging allowed) Q past := by
  refine Guards.bind ((Calls.guards h (J := Owes owed) ?_ hpast).returning
    fun a past' h' => hk a past' h'.1 h'.2)
  intro past o ho hjust
  have hstill : ∀ r : Ret Error localSig o, askedIndex ⟨o, r⟩ = none →
      heardIndex ⟨o, r⟩ = none → Owes owed (past ++ [⟨o, r⟩]) := by
    intro r hasked hheard
    refine ⟨?_⟩
    rw [heardIn_append, askedIn_append, hasked, hheard, Option.toList_none, List.append_nil,
      List.append_nil]
    exact hjust.heard
  cases o with
  | recv n => exact ⟨trivial, fun r => hstill r rfl rfl⟩
  | send bs => exact ⟨trivial, fun r => hstill r rfl rfl⟩
  | loc o =>
      refine ⟨Or.inl ho, fun r => ?_⟩
      cases ho with
      | now => exact hstill r rfl rfl
      | openFile h => exact hstill r rfl rfl

theorem Does.owing {p : Session α} {k : α → Session β} {Q : β → List SessionCall → Prop}
    (h : Does (Reads allowed) p) {owed : List Int} (hpast : Owes owed past)
    (hk : ∀ a past', Owes owed past' → (k a).Guards (Obliging allowed) Q past') :
    (p >>= k).Guards (Obliging allowed) Q past :=
  owing_bind h hpast fun a past' _ => hk a past'

theorem owing_ofExcept {r : Except Error α} {k : α → Session β} {Q : β → List SessionCall → Prop}
    (hk : ∀ a, r = .ok a → (k a).Guards (Obliging allowed) Q past) :
    (Prog.ofExcept r >>= k).Guards (Obliging allowed) Q past := by
  cases r with
  | ok a => exact hk a rfl
  | error e => trivial

/-- What an index that is read leaves owed. -/
def owedOf (index : Int) : List Int := if 0 ≤ index then [index] else []

theorem guards_readIndex (hpast : Owes [] past) (state : RsyncIndexState) :
    (readIndex state).Guards (Obliging allowed)
      (fun out past' => Owes (owedOf out.1) past') past := by
  refine (does_onMux (P := Reads allowed) _).owing hpast fun read past' hpast' => ?_
  obtain ⟨index, state⟩ := read
  refine ⟨Or.inr (Or.inl ⟨index, rfl⟩), fun r => ?_⟩
  cases r with
  | error e => trivial
  | ok u =>
      refine ⟨?_⟩
      show heardIn (past' ++ [_]) = askedIn (past' ++ [_]) ++ _
      rw [heardIn_append, askedIn_append, hpast'.heard]
      by_cases hnonneg : 0 ≤ index <;> simp [askedIndex, heardIndex, owedOf, hnonneg]

/-- The index owed is the index written. -/
theorem guards_writeOwed {index : Int} (hpast : Owes (owedOf index) past)
    (state : RsyncIndexState) :
    (writeRsync31Index state index).Guards (Obliging allowed)
      (fun _ past' => Owes [] past') past := by
  refine (does_toMux (P := Reads allowed) _).owing hpast fun state past' hpast' => ?_
  refine ⟨Or.inr (Or.inr ⟨index, rfl, fun hnonneg => ?_⟩), fun r => ?_⟩
  · rw [hpast'.heard, owedOf, if_pos hnonneg]
  · cases r with
    | error e => trivial
    | ok u =>
        refine ⟨?_⟩
        show heardIn (past' ++ [_]) = askedIn (past' ++ [_]) ++ _
        rw [heardIn_append, askedIn_append, hpast'.heard]
        by_cases hnonneg : 0 ≤ index <;> simp [askedIndex, heardIndex, owedOf, hnonneg]

/-- `DONE` is owed to nobody. -/
theorem guards_writeDoneOwing (hpast : Owes [] past) (state : RsyncIndexState) :
    (writeRsync31Index state rsyncIndexDone).Guards (Obliging allowed)
      (fun _ past' => Owes [] past') past :=
  @guards_writeOwed _ _ rsyncIndexDone hpast state

/-! ## The tokens of an answer -/

section Tokens

variable {flate : Flate} {hashes : Hashes}

theorem does_writePendingLiteralToken (s : DeltaState flate) :
    Does (Reads allowed) (writePendingLiteralToken s) :=
  calls_ite (fun _ => trivial) fun _ => (does_toMux _).bind fun _ _ => trivial

theorem does_deltaStep (index : RemoteSignatureIndex) (strong : Bytes → Bytes)
    (s : DeltaState flate) : Does (Reads allowed) (deltaStep index strong s) := by
  unfold deltaStep
  split
  · exact (does_writePendingLiteralToken s).bind fun _ _ => (does_toMux _).bind fun _ _ => trivial
  · exact calls_ite (fun _ => does_writePendingLiteralToken _) fun _ => trivial

theorem does_fillDeltaWindow (maxLen : Nat) (stopDeadline : Option Nat) :
    ∀ fuel (s : DeltaState flate), Does (Reads allowed) (fillDeltaWindow maxLen stopDeadline fuel s)
  | 0, _ => trivial
  | fuel + 1, _ => calls_ite
      (fun _ => (does_checkTransferDeadline .now _).bind fun _ _ =>
        calls_ite (fun _ => trivial) fun _ => does_fillDeltaWindow maxLen stopDeadline fuel _)
      fun _ => trivial

theorem does_deltaLoop (index : RemoteSignatureIndex) (strong : Bytes → Bytes)
    (stopDeadline : Option Nat) : ∀ fuel (s : DeltaState flate),
    Does (Reads allowed) (deltaLoop index strong stopDeadline fuel s)
  | 0, _ => trivial
  | fuel + 1, s => calls_ite (fun _ => trivial) fun _ =>
      (does_checkTransferDeadline .now _).bind fun _ _ =>
        (does_deltaStep index strong s).bind fun _ _ =>
          (does_fillDeltaWindow index.maxLen stopDeadline _ _).bind fun _ _ =>
            does_deltaLoop index strong stopDeadline fuel _

theorem does_literalLoop (stopDeadline : Option Nat) : ∀ fuel reader checksum
    (compressor : TokenWriter flate) total,
    Does (Reads allowed) (literalLoop stopDeadline fuel reader checksum compressor total)
  | 0, _, _, _, _ => trivial
  | fuel + 1, _, _, _, _ => (does_checkTransferDeadline .now _).bind fun _ _ =>
      calls_ite (fun _ => trivial) fun _ => (does_toMux _).bind fun _ _ =>
        does_literalLoop stopDeadline fuel _ _ _ _

theorem does_appendLoop (stopDeadline : Option Nat) : ∀ fuel reader checksum
    (compressor : TokenWriter flate) remainingPrefix total,
    Does (Reads allowed)
      (appendLoop stopDeadline fuel reader checksum compressor remainingPrefix total)
  | 0, _, _, _, _, _ => trivial
  | fuel + 1, _, _, _, _, _ => (does_checkTransferDeadline .now _).bind fun _ _ =>
      calls_ite (fun _ => trivial) fun _ =>
        calls_ite (fun _ => does_appendLoop stopDeadline fuel _ _ _ _ _) fun _ =>
          (does_toMux _).bind fun _ _ => does_appendLoop stopDeadline fuel _ _ _ _ _

theorem does_open {path : LocalPath} (hpath : allowed path) :
    Does (Reads allowed) (perform (.openFile path)) := does_perform (.openFile hpath)

theorem does_writeDeltaTokensFromPath (checksums : RemoteDeltaChecksums) {path : LocalPath}
    (hpath : allowed path) (signatures : List BlockSignature) (level : Option Nat)
    (limits : TransferLimits) :
    Does (Reads allowed)
      (writeDeltaTokensFromPath flate hashes checksums path signatures level limits) := by
  refine (does_checkTransferDeadline .now _).bind fun _ _ => (does_open hpath).bind fun file _ => ?_
  refine calls_ite (fun _ => ?_) fun _ => ?_
  · have hliterals : Does (Reads allowed) (@writeLiteralTokensFromReaderWithChecksum flate hashes
        file checksums.finalFile level limits.stopDeadline) :=
      (does_literalLoop _ _ _ _ _ _).bind fun _ _ => (does_toMux _).bind fun _ _ =>
        (does_toMux _).bind fun _ _ => trivial
    exact hliterals.bind fun _ _ => trivial
  · refine (does_ofExcept _).bind fun index _ => (does_ofExcept _).bind fun _ _ =>
      (does_ofExcept _).bind fun _ _ => ?_
    exact (does_fillDeltaWindow _ _ _ _).bind fun _ _ => (does_deltaLoop _ _ _ _ _).bind
      fun _ _ => (does_writePendingLiteralToken _).bind fun _ _ => (does_toMux _).bind
        fun _ _ => (does_toMux _).bind fun _ _ => trivial

theorem does_writeAppendVerifyFileTokensFromPath (checksum : RemoteFinalChecksum)
    {path : LocalPath} (hpath : allowed path) (prefixLen : Nat) (level stopDeadline : Option Nat) :
    Does (Reads allowed) (writeAppendVerifyFileTokensFromPath flate hashes checksum path prefixLen
      level stopDeadline) := by
  refine (does_open hpath).bind fun file _ => (does_appendLoop _ _ _ _ _ _ _).bind fun out _ => ?_
  exact calls_ite (fun _ => trivial) fun _ => (does_toMux _).bind fun _ _ =>
    (does_toMux _).bind fun _ _ => trivial

end Tokens

/-! ## Rounds -/

section Rounds

variable {flate : Flate} {hashes : Hashes} {sender : SenderSide}

/-- What a sender may open: nothing in a dry run, else the regular files it lists. -/
def SenderSide.mayOpen (sender : SenderSide) (path : LocalPath) : Prop :=
  sender.dryRun = false ∧
    ∃ entry ∈ sender.entries, entry.wire.fileType = .file ∧ path = entry.path

/-- A request carries the index that was read in front of it. -/
theorem calls_readItemRequest (index : Int) :
    (onMux (readItemRequest sender index) : Session SenderRequest).Calls (onLoc (Reads allowed))
      fun request => request.index = index := by
  refine Calls.interp (P := fun _ => True) (fun n _ => calls_recv n) ?_
  refine (calls_any _).bind fun iflags _ => (calls_any _).bind fun attrs _ => ?_
  exact calls_ite (fun _ => (calls_any _).bind fun sumHead _ => (calls_any _).bind fun _ _ => rfl)
    fun _ => rfl

/-- What a request, or the lack of one, leaves owed. -/
def owedTo : Option SenderRequest → List Int
  | none => []
  | some request => owedOf request.index

theorem guards_readRequest (hpast : Owes [] past) (state : RsyncIndexState) :
    (readRequest sender state).Guards (Obliging allowed)
      (fun out past' => Owes (owedTo out.1) past') past := by
  refine Guards.bind ((guards_readIndex hpast state).returning fun read past₁ h₁ => ?_)
  obtain ⟨index, state⟩ := read
  dsimp only at h₁ ⊢
  split
  · rename_i hdone
    rw [hdone] at h₁
    exact h₁
  · refine owing_bind (calls_readItemRequest index) h₁ ?_
    rintro request past₂ rfl h₂
    exact h₂

theorem guards_echoRequest {request : SenderRequest} (hpast : Owes (owedOf request.index) past)
    (st : ServeState) :
    (echoRequest request st).Guards (Obliging allowed) (fun _ past' => Owes [] past') past := by
  refine Guards.bind ((guards_writeOwed hpast st.writeIndexState).returning
    fun state past₁ h₁ => ?_)
  exact (does_toMux _).owing h₁ fun _ past₂ h₂ => h₂

theorem does_writeAnswerTokens {entry : RemoteSourceEntry} (hpath : allowed entry.path)
    (prefixLen : Nat) (signatures : List BlockSignature) :
    Does (Reads allowed)
      (writeAnswerTokens flate hashes sender entry prefixLen signatures) :=
  calls_ite (fun _ => does_writeAppendVerifyFileTokensFromPath _ hpath _ _ _) fun _ =>
    (does_writeDeltaTokensFromPath _ hpath _ _ _).bind fun _ _ => trivial

theorem guards_transferRequested {entryIndex : Nat} {entry : RemoteSourceEntry}
    {request : SenderRequest} (hpath : allowed entry.path)
    (hpast : Owes (owedOf request.index) past) (st : ServeState) :
    (transferRequested flate hashes sender entryIndex entry request st).Guards (Obliging allowed)
      (fun _ past' => Owes [] past') past := by
  unfold transferRequested
  cases request.sumHead with
  | none => trivial
  | some sumHead =>
      refine owing_ofExcept fun prefixLen _ => ?_
      refine Guards.bind ((guards_echoRequest hpast st).returning fun st past₁ h₁ => ?_)
      refine (does_toMux _).owing h₁ fun _ past₂ h₂ => ?_
      exact (does_writeAnswerTokens hpath _ _).owing h₂ fun _ past₃ h₃ => h₃

/-- One answer, to the index that is owed. -/
theorem guards_answerRequest {request : SenderRequest} (hpast : Owes (owedOf request.index) past)
    (st : ServeState) :
    (answerRequest flate hashes sender request st).Guards (Obliging sender.mayOpen)
      (fun _ past' => Owes [] past') past := by
  refine owing_ofExcept fun entryIndex _ => ?_
  cases hentry : sender.entries[entryIndex]? with
  | none => trivial
  | some entry =>
      dsimp only
      split
      · exact guards_echoRequest hpast st
      · split
        · trivial
        · rename_i hfile
          split
          · exact Guards.bind ((guards_echoRequest hpast st).returning fun st past₁ h₁ => h₁)
          · rename_i hreal
            refine guards_transferRequested ?_ hpast st
            exact ⟨Bool.eq_false_iff.mpr hreal, entry, List.mem_of_getElem? hentry,
              not_not.mp hfile, rfl⟩

theorem guards_serveRound (hpast : Owes [] past) (st : ServeState) :
    (serveRound flate hashes sender st).Guards (Obliging sender.mayOpen)
      (fun _ past' => Owes [] past') past := by
  refine (does_checkTransferDeadline .now _).owing hpast fun _ past₁ h₁ => ?_
  refine Guards.bind ((guards_readRequest h₁ st.readIndexState).returning fun read past₂ h₂ => ?_)
  obtain ⟨request, readIndexState⟩ := read
  cases request with
  | none =>
      dsimp only
      split
      · exact h₂
      · exact Guards.bind ((guards_writeDoneOwing h₂ _).returning fun _ _ h₃ => h₃)
  | some request =>
      exact Guards.bind ((guards_answerRequest h₂ _).returning fun _ _ h₃ => h₃)

theorem guards_serveRequests : ∀ {fuel : Nat} {st : ServeState} {past : List SessionCall},
    Owes [] past → (serveRequests flate hashes sender fuel st).Guards (Obliging sender.mayOpen)
      (fun _ past' => Owes [] past') past
  | 0, _, _, _ => trivial
  | fuel + 1, st, past, hpast => by
      refine Guards.bind ((guards_serveRound hpast st).returning fun out past₁ h₁ => ?_)
      obtain ⟨next, st⟩ := out
      cases next with
      | none => exact h₁
      | some st => exact guards_serveRequests h₁

theorem guards_awaitFinalDone (hpast : Owes [] past) :
    awaitFinalDone.Guards (Obliging allowed) (fun _ past' => Owes [] past') past := by
  refine Guards.bind (Guards.bind ((guards_readIndex hpast {}).returning fun read past₁ h₁ => ?_))
  obtain ⟨index, state⟩ := read
  show (if index ≠ rsyncIndexDone then throw (.session (.invalidFinalAck index))
    else pure () : Session Unit).Guards (Obliging allowed) _ past₁
  split
  · trivial
  · rename_i hdone
    rw [not_not.mp hdone] at h₁
    exact h₁

theorem guards_senderGoodbyes (hpast : Owes [] past) :
    senderGoodbyes.Guards (Obliging allowed) (fun _ _ => True) past := by
  refine Guards.bind ((guards_awaitFinalDone hpast).returning fun _ past₁ h₁ => ?_)
  refine Guards.bind (Guards.bind ((guards_writeDoneOwing h₁ {}).returning fun _ past₂ h₂ => ?_))
  exact (guards_awaitFinalDone h₂).returning fun _ _ _ => trivial

theorem guards_serveDaemonSenderRequests {entries : List RemoteSourceEntry} (dryRun : Bool)
    (compression : Option RemoteCompressionConfig) (fuel : Nat) :
    (serveDaemonSenderRequestsProtocol31 flate hashes entries dryRun compression fuel).Guards
      (Obliging (daemonSender entries dryRun compression).mayOpen) (fun _ _ => True) [] := by
  refine Guards.bind ((guards_serveRequests owes_nil).returning fun st past₁ h₁ => ?_)
  refine Guards.bind ((guards_writeDoneOwing h₁ _).returning fun _ past₂ h₂ => ?_)
  exact (does_toMux _).owing h₂ fun _ past₃ h₃ => guards_senderGoodbyes h₃

end Rounds

/-- **A sender gives away its list and no more.** Whatever a receiver asks for, of the client that
pushes or of the daemon: the session opens the regular files of its list, nothing at all in a dry
run; no file on any machine changes at any point; and its answers follow the requests, so that at
every moment the indices sent are the first of the indices read. -/
theorem senders_serve_their_list (flate : Flate) (hashes : Hashes)
    (entries : List RemoteSourceEntry) (dryRun : Bool) (fuel : Nat) :
    (∀ (appendVerify : Bool) (checksum : RemoteFileChecksum) (runtime : RemoteTransferRuntime),
      Serves (clientSender entries dryRun appendVerify checksum runtime).mayOpen
        (serveRemoteReceiverRequestsProtocol31 flate hashes entries dryRun appendVerify checksum
          runtime fuel)) ∧
    ∀ compression : Option RemoteCompressionConfig,
      Serves (daemonSender entries dryRun compression).mayOpen
        (serveDaemonSenderRequestsProtocol31 flate hashes entries dryRun compression fuel) := by
  refine ⟨fun appendVerify checksum runtime => serves_of_guards (Q := fun _ _ => True) ?_,
    fun compression => serves_of_guards (guards_serveDaemonSenderRequests dryRun compression fuel)⟩
  refine Guards.bind ((guards_serveRequests owes_nil).returning fun st past₁ h₁ => ?_)
  refine Guards.bind ((guards_writeDoneOwing h₁ _).returning fun _ past₂ h₂ => ?_)
  exact Guards.bind ((guards_senderGoodbyes h₂).returning fun _ _ _ => trivial)

end RsyncWin
