import RsyncWin.Lib.Calls
import RsyncWin.Remote.Serve

/-!
# What a session does to the machine it runs on

Whatever the other side sends. A receiver touches the targets of the regular
files that are listed, the directories they lie in and the temporary files
beside them; a sender opens the regular files it lists. Both do nothing of the
kind in a dry run. The parts of a session that only talk are covered by two
lemmas, on reading and on writing the stream.
-/

namespace RsyncWin

open ByteString Codec Duplex Prog

/-! ## Operations and their paths -/

/-- The files and directories an operation is given. -/
def LocalOp.paths : LocalOp → List LocalPath
  | .now => []
  | .createDirAll path => [path]
  | .create path => [path]
  | .append path _ => [path]
  | .syncAll path => [path]
  | .openFile path => [path]
  | .readAt path _ _ => [path]
  | .fileLen path => [path]
  | .removeFile path => [path]
  | .copyFile source dest _ => [source, dest]
  | .appendFileFrom path source _ => [path, source]
  | .filePrefixMatches path pre => [path, pre]
  | .setMtime path _ => [path]
  | .note _ => []

theorem LocalOp.mem_paths_of_writes {o : LocalOp} {path : LocalPath} (h : o.writes = some path) :
    path ∈ o.paths := by
  cases o <;> simp_all [writes, paths]

/-- An operation on allowed files that asks for nothing. -/
structure Touches (allowed : LocalPath → Prop) (o : LocalOp) : Prop where
  allowed : ∀ path ∈ o.paths, allowed path
  silent : ∀ index, o ≠ .note (.wroteIndex index)

theorem Touches.mono {allowed allowed' : LocalPath → Prop} {o : LocalOp} (h : Touches allowed o)
    (hsub : ∀ path, allowed path → allowed' path) : Touches allowed' o :=
  ⟨fun path hpath => hsub path (h.allowed path hpath), h.silent⟩

abbrev Does {α : Type} (P : LocalOp → Prop) (p : Session α) : Prop :=
  p.Calls (onLoc P) fun _ => True

section Sessions

variable {P : LocalOp → Prop} {α : Type}

theorem Does.mono {P' : LocalOp → Prop} {p : Session α} (h : Does P p) (hP : ∀ o, P o → P' o) :
    Does P' p := by
  refine h.weaken fun o ho => ?_
  cases o with
  | recv n => trivial
  | send bs => trivial
  | loc o => exact hP o ho

theorem does_perform {o : LocalOp} (h : P o) : Does P (perform o) :=
  (calls_loc h).bind fun _ _ => calls_ofExcept fun _ _ => trivial

theorem does_ofExcept (r : Except Error α) : Does P (Prog.ofExcept r : Session α) :=
  calls_ofExcept fun _ _ => trivial

theorem does_onMux (r : Reader α) : Does P (onMux r : Session α) :=
  calls_interp (fun n => calls_recv n) r

theorem does_multiplexedWrite (bs : Bytes) : Does P (multiplexedWrite bs : Session Unit) := by
  refine calls_forM fun c _ => ?_
  exact calls_ite (fun _ => trivial) fun _ => (calls_send _).bind fun _ _ => calls_send _

theorem does_toMux (w : Writer α) : Does P (toMux w : Session α) :=
  calls_interp (fun bs => does_multiplexedWrite bs) w

theorem does_checkTransferDeadline (hnow : P .now) (deadline : Option Nat) :
    Does P (checkTransferDeadline deadline) := by
  cases deadline with
  | none => trivial
  | some deadline =>
      exact (does_perform hnow).bind fun now _ => calls_ite (fun _ => trivial) fun _ => trivial

theorem does_readIndex (hread : ∀ index, P (.note (.readIndex index))) (state : RsyncIndexState) :
    Does P (readIndex state) :=
  (does_onMux _).bind fun read _ => (does_perform (hread read.1)).bind fun _ _ => trivial

theorem does_writeRsync31Index (hwrote : ∀ index, P (.note (.wroteIndex index)))
    (state : RsyncIndexState) (index : Int) : Does P (writeRsync31Index state index) :=
  (does_toMux _).bind fun _ _ => (does_perform (hwrote index)).bind fun _ _ => trivial

end Sessions

variable {flate : Flate} {hashes : Hashes} {allowed : LocalPath → Prop}

theorem touches_now : Touches allowed .now := ⟨by simp [LocalOp.paths], by simp⟩

theorem touches_readIndex (index : Int) : Touches allowed (.note (.readIndex index)) :=
  ⟨by simp [LocalOp.paths], by simp⟩

/-! ## Receiving -/

/-- A target, the directory it lies in, and what can be put beside it. -/
inductive Near (processId : Nat) (target : LocalPath) : LocalPath → Prop
  | target : Near processId target target
  | parent : Near processId target target.parent
  | temp (nanos : Nat) : Near processId target (tempPath processId nanos target)

section Receiving

variable {chunkFuel : Nat} {t : TokenTarget} {basis : Option (LocalPath × RemoteSumHead)}

/-- What the reader of tokens is allowed: its output, the directory of that, and the basis. -/
structure TokensAllowed (allowed : LocalPath → Prop) (t : TokenTarget)
    (basis : Option (LocalPath × RemoteSumHead)) : Prop where
  output : allowed t.output
  directory : allowed t.output.parent
  basis : ∀ b, basis = some b → allowed b.1

theorem does_readBasisBlock {b : LocalPath × RemoteSumHead} (hb : allowed b.1) (blockIndex : Nat) :
    Does (Touches allowed) (readBasisBlock b blockIndex) := by
  refine (does_ofExcept _).bind fun span _ => does_perform ⟨?_, by simp⟩
  simpa [LocalOp.paths] using hb

theorem does_append {path : LocalPath} (hpath : allowed path) (bytes : Bytes) :
    Does (Touches allowed) (perform (.append path bytes)) :=
  does_perform ⟨by simpa [LocalOp.paths] using hpath, by simp⟩

theorem does_openFile {path : LocalPath} (hpath : allowed path) :
    Does (Touches allowed) (perform (.openFile path)) :=
  does_perform ⟨by simpa [LocalOp.paths] using hpath, by simp⟩

theorem does_readLiteral {output : LocalPath} (houtput : allowed output) :
    ∀ fuel remaining, Does (Touches allowed) (readLiteral output fuel remaining)
  | 0, _ => trivial
  | fuel + 1, _ => calls_ite (fun _ => trivial) fun _ =>
      (does_onMux _).bind fun buf _ => (does_append houtput buf).bind fun _ _ =>
        does_readLiteral houtput fuel _

theorem does_finishTokens (h : TokensAllowed allowed t basis) (total : Nat) :
    Does (Touches allowed) (finishTokens hashes t total) := by
  have hchecksum : Does (Touches allowed) (remoteFileChecksumForPath hashes t.checksum t.output) :=
    (does_openFile h.output).bind fun _ _ => trivial
  refine (does_perform ⟨by simpa [LocalOp.paths] using h.output, by simp⟩).bind fun _ _ => ?_
  refine calls_ite (fun _ => trivial) fun _ => (does_onMux _).bind fun remoteChecksum _ => ?_
  refine hchecksum.bind fun localChecksum _ => ?_
  exact calls_ite (fun _ => trivial) fun _ => trivial

theorem does_appendBytes (h : TokensAllowed allowed t basis) (total : Nat) (bytes : Bytes) :
    Does (Touches allowed) (appendBytes t total bytes) :=
  (does_ofExcept _).bind fun _ _ => (does_append h.output bytes).bind fun _ _ => trivial

theorem does_copyBlock (h : TokensAllowed allowed t basis) (token : Int)
    (blockIndex : Except Error Nat) :
    Does (Touches allowed) (copyBlock t basis token blockIndex) := by
  cases hbasis : basis with
  | none => trivial
  | some b =>
      exact (does_ofExcept _).bind fun index _ => does_readBasisBlock (h.basis b hbasis) index

theorem does_deflatedCopyBlock (h : TokensAllowed allowed t basis) (blockIndex : Nat) :
    Does (Touches allowed) (deflatedCopyBlock t basis blockIndex) := by
  cases hbasis : basis with
  | none => exact (does_ofExcept _).bind fun _ _ => trivial
  | some b => exact does_readBasisBlock (h.basis b hbasis) blockIndex

theorem does_plainLoop (h : TokensAllowed allowed t basis) :
    ∀ fuel total, Does (Touches allowed) (plainLoop hashes t basis fuel total)
  | 0, _ => trivial
  | fuel + 1, total => by
      refine (does_checkTransferDeadline touches_now _).bind fun _ _ => ?_
      refine (does_onMux _).bind fun token _ => calls_ite (fun _ => ?_) fun _ =>
        calls_ite (fun _ => does_finishTokens h total) fun _ => ?_
      · exact (does_ofExcept _).bind fun next _ => (does_readLiteral h.output _ _).bind fun _ _ =>
          does_plainLoop h fuel next
      · exact (does_copyBlock h token _).bind fun bytes _ => (does_appendBytes h total bytes).bind
          fun total _ => does_plainLoop h fuel total

theorem does_deflatedLoop (h : TokensAllowed allowed t basis) :
    ∀ fuel (reader : RsyncDeflatedTokenReader flate) total,
      Does (Touches allowed) (deflatedLoop hashes t basis chunkFuel fuel reader total)
  | 0, _, _ => trivial
  | fuel + 1, reader, total => by
      refine (does_checkTransferDeadline touches_now _).bind fun _ _ => ?_
      refine (does_onMux _).bind fun next _ => ?_
      obtain ⟨token, reader⟩ := next
      cases token with
      | literal literal =>
          exact (does_appendBytes h total literal).bind fun total _ =>
            does_deflatedLoop h fuel reader total
      | copy blockIndex =>
          exact (does_deflatedCopyBlock h blockIndex).bind fun bytes _ =>
            (does_ofExcept _).bind fun reader _ => (does_appendBytes h total bytes).bind
              fun total _ => does_deflatedLoop h fuel reader total
      | finish => exact does_finishTokens h total

theorem does_readFileTokens (h : TokensAllowed allowed t basis)
    (compression : Option RsyncDeflatedTokenMode) (maxAlloc : Option Nat) :
    Does (Touches allowed)
      (readFileTokensToPathWithBasis flate hashes chunkFuel t basis compression maxAlloc) := by
  have hbasis : (openBasis basis maxAlloc).Calls (onLoc (Touches allowed))
      fun opened => ∀ b, opened = some b → allowed b.1 := by
    cases hb : basis with
    | none => exact fun b hnone => by cases hnone
    | some b =>
        have hallowed := h.basis b hb
        refine calls_ite (fun _ => ?_) fun _ => fun b hnone => by cases hnone
        refine (does_ofExcept _).bind fun _ _ => (does_openFile hallowed).bind fun _ _ => ?_
        rintro b' hb'
        rwa [← Option.some.inj hb']
  refine (does_perform ⟨by simpa [LocalOp.paths] using h.directory, by simp⟩).bind fun _ _ => ?_
  refine (does_perform ⟨by simpa [LocalOp.paths] using h.output, by simp⟩).bind fun _ _ => ?_
  refine hbasis.bind fun opened hopened => ?_
  have hstill : TokensAllowed allowed t opened := ⟨h.output, h.directory, hopened⟩
  cases compression with
  | none => exact does_plainLoop hstill _ 0
  | some mode => exact does_deflatedLoop hstill _ _ 0

variable {ctx : RemoteReceiveContext} {entry : RsyncFileListEntry}

theorem does_preserveRemoteMtime {target : LocalPath} (htarget : allowed target) (r : Received) :
    Does (Touches allowed) (preserveRemoteMtime ctx entry target r) :=
  calls_ite
    (fun _ => (does_perform ⟨by simpa [LocalOp.paths] using htarget, by simp⟩).bind
      fun _ _ => trivial)
    fun _ => trivial

theorem does_writeReceivedFileFromPath {target source : LocalPath} (htarget : allowed target)
    (hsource : allowed source) (sourceLen : Nat) (r : Received) :
    Does (Touches allowed) (writeReceivedFileFromPath ctx entry target source sourceLen r) := by
  have hreplace : Does (Touches allowed) (replaceTarget ctx entry target source sourceLen r) := by
    refine (does_ofExcept _).bind fun len _ => (does_perform ⟨?_, by simp⟩).bind fun _ _ =>
      does_preserveRemoteMtime htarget _
    simpa [LocalOp.paths] using ⟨hsource, htarget⟩
  have hoffset : Does (Touches allowed) (appendVerifyOffsetLocal source target sourceLen) := by
    refine (calls_loc ⟨by simpa [LocalOp.paths] using htarget, by simp⟩).bind fun found _ => ?_
    have hsame : Does (Touches allowed) (perform (.filePrefixMatches source target)) :=
      does_perform ⟨by simpa [LocalOp.paths] using ⟨hsource, htarget⟩, by simp⟩
    split
    · exact calls_ite (fun _ => trivial) fun _ => hsame.bind fun _ _ => trivial
    · trivial
  refine calls_ite (fun _ => hoffset.bind fun offset _ => ?_) fun _ => hreplace
  cases offset with
  | none => exact hreplace
  | some offset =>
      refine calls_ite (fun _ => ?_) fun _ => does_preserveRemoteMtime htarget r
      refine (does_ofExcept _).bind fun len _ => (does_perform ⟨?_, by simp⟩).bind fun _ _ =>
        does_preserveRemoteMtime htarget _
      simpa [LocalOp.paths] using ⟨htarget, hsource⟩

/-- Tokens into a temporary file and from there to the target, or the temporary file removed. -/
theorem does_receiveFile (sumHead : Option RemoteSumHead) (r : Received) :
    Does (Touches (Near ctx.processId (ctx.dest.join entry.path)))
      (receiveFile flate hashes chunkFuel ctx entry sumHead r) := by
  have htemp : (receiveTempPath ctx.processId (ctx.dest.join entry.path)).Calls
      (onLoc (Touches (Near ctx.processId (ctx.dest.join entry.path))))
      fun temp => ∃ nanos, temp = tempPath ctx.processId nanos (ctx.dest.join entry.path) :=
    (does_perform touches_now).bind fun nanos _ => ⟨nanos, rfl⟩
  refine htemp.bind fun temp htemp => ?_
  obtain ⟨nanos, rfl⟩ := htemp
  have hremove : Does (Touches (Near ctx.processId (ctx.dest.join entry.path)))
      (removeLocalFileBestEffort
        (tempPath ctx.processId nanos (ctx.dest.join entry.path))) := by
    refine (calls_loc ⟨?_, by simp⟩).bind fun _ _ => trivial
    simpa [LocalOp.paths] using Near.temp nanos
  have hparent : (tempPath ctx.processId nanos (ctx.dest.join entry.path)).parent =
      (ctx.dest.join entry.path).parent := by
    simp [tempPath, LocalPath.parent]
  have htokens : Does (Touches (Near ctx.processId (ctx.dest.join entry.path)))
      (readTokensInto flate hashes chunkFuel ctx entry sumHead
        (tempPath ctx.processId nanos (ctx.dest.join entry.path))) := by
    refine does_readFileTokens ⟨Near.temp nanos, hparent ▸ Near.parent, ?_⟩ _ _
    rintro b hb
    obtain ⟨head, -, rfl⟩ := Option.map_eq_some_iff.mp hb
    exact Near.target
  refine htokens.attempt.bind fun result _ => ?_
  cases result with
  | error e => exact hremove.bind fun _ _ => trivial
  | ok bytes =>
      refine (does_writeReceivedFileFromPath Near.target (Near.temp nanos) bytes r).attempt.bind
        fun written _ => ?_
      exact hremove.bind fun _ _ => (does_ofExcept _).bind fun _ _ => trivial

/-- What a receiver may touch: nothing in a dry run, else what lies near the target of a listed
regular file. -/
def NearListed (dryRun : Bool) (processId : Nat) (dest : LocalPath)
    (entries : List RsyncFileListEntry) (path : LocalPath) : Prop :=
  dryRun = false ∧ ∃ entry ∈ entries, entry.fileType = .file ∧
    Near processId (dest.join entry.path) path

abbrev RemoteReceiveContext.mayTouch (ctx : RemoteReceiveContext) : LocalPath → Prop :=
  NearListed ctx.dryRun ctx.processId ctx.dest ctx.entries

theorem does_receiveListed (hmem : entry ∈ ctx.entries) (hfile : entry.fileType = .file)
    (hreal : ctx.dryRun = false) (sumHead : Option RemoteSumHead) (r : Received) :
    Does (Touches ctx.mayTouch) (receiveFile flate hashes chunkFuel ctx entry sumHead r) :=
  (does_receiveFile sumHead r).mono fun _ ho =>
    ho.mono fun _ hnear => ⟨hreal, entry, hmem, hfile, hnear⟩

theorem does_receiveRemoteSenderFile (hmem : entry ∈ ctx.entries) (entryIndex : Nat)
    (r : Received) :
    Does (Touches ctx.mayTouch)
      (receiveRemoteSenderFile flate hashes chunkFuel ctx entry entryIndex r) := by
  have hnumber : ∀ label, Does (Touches ctx.mayTouch) (readNonnegativeMultiplexedI32 label) :=
    fun label => (does_onMux _).bind fun value _ =>
      calls_ite (fun _ => trivial) fun _ => trivial
  refine calls_ite (fun _ => trivial) fun hfile => calls_ite (fun _ => ?_) fun hreal => ?_
  · exact (does_ofExcept _).bind fun _ _ => trivial
  · refine (hnumber _).bind fun _ _ => (hnumber _).bind fun _ _ => (hnumber _).bind fun _ _ =>
      (hnumber _).bind fun _ _ => ?_
    exact does_receiveListed hmem (not_not.mp hfile) (Bool.eq_false_iff.mpr hreal) _ r

theorem does_receiveRemoteSenderFiles : ∀ fuel r,
    Does (Touches ctx.mayTouch) (receiveRemoteSenderFiles flate hashes chunkFuel ctx fuel r)
  | 0, _ => trivial
  | fuel + 1, r => by
      refine (does_checkTransferDeadline touches_now _).bind fun _ _ => ?_
      refine (does_onMux _).bind fun index _ =>
        (does_perform (touches_readIndex index)).bind fun _ _ => ?_
      refine calls_ite (fun _ => trivial) fun _ => (does_ofExcept _).bind fun entryIndex _ => ?_
      cases hentry : ctx.entries[entryIndex]? with
      | none => trivial
      | some entry =>
          exact (does_receiveRemoteSenderFile (List.mem_of_getElem? hentry) entryIndex r).bind
            fun r _ => does_receiveRemoteSenderFiles fuel r

theorem does_applyRemoteSenderFileResponseProtocol31 (entryIndex iflags : Nat)
    (sumHead : Option RemoteSumHead) (r : Received) :
    Does (Touches ctx.mayTouch) (applyRemoteSenderFileResponseProtocol31 flate hashes chunkFuel ctx
      entryIndex iflags sumHead r) := by
  unfold applyRemoteSenderFileResponseProtocol31
  cases hentry : ctx.entries[entryIndex]? with
  | none => trivial
  | some entry =>
      refine calls_ite (fun _ => calls_ite (fun _ => trivial) fun _ => trivial) fun hfile => ?_
      refine calls_ite (fun _ => (does_ofExcept _).bind fun _ _ => trivial) fun hreal => ?_
      exact does_receiveListed (List.mem_of_getElem? hentry) (not_not.mp hfile)
        (Bool.eq_false_iff.mpr fun hdry => hreal (Or.inr hdry)) sumHead r

theorem does_readProtocol31SenderResponse (idListFuel : Nat) (state : RsyncIndexState)
    (entries : List RsyncFileListEntry) (allowIncrementalFlist : Bool)
    (fileListOptions : RsyncFileListOptions) :
    Does (Touches allowed) (readProtocol31SenderResponse idListFuel state entries
      allowIncrementalFlist fileListOptions) := by
  refine (does_readIndex touches_readIndex state).bind fun read _ => ?_
  refine calls_ite (fun _ => trivial) fun _ => calls_ite (fun _ => ?_) fun _ => ?_
  · exact calls_ite (fun _ => trivial) fun _ => trivial
  · refine calls_ite (fun _ => calls_ite (fun _ => trivial) fun _ => ?_) fun _ => ?_
    · exact (does_ofExcept _).bind fun _ _ => (does_onMux _).bind fun _ _ => trivial
    · exact (does_onMux _).bind fun _ _ => trivial

theorem does_receiveRemoteSenderFilesProtocol31 : ∀ fuel state r,
    Does (Touches ctx.mayTouch)
      (receiveRemoteSenderFilesProtocol31 flate hashes chunkFuel ctx fuel state r)
  | 0, _, _ => trivial
  | fuel + 1, state, r => by
      refine (does_checkTransferDeadline touches_now _).bind fun _ _ => ?_
      refine (does_readProtocol31SenderResponse 0 state _ _ _).bind fun read _ => ?_
      obtain ⟨response, state⟩ := read
      cases response with
      | file index iflags sumHead =>
          exact (does_ofExcept _).bind fun entryIndex _ =>
            (does_applyRemoteSenderFileResponseProtocol31 entryIndex iflags sumHead r).bind
              fun r _ => does_receiveRemoteSenderFilesProtocol31 fuel state r
      | done => trivial
      | fileListEof => trivial
      | extraFileList entries => trivial

end Receiving

end RsyncWin
