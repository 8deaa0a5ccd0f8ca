import RsyncWin.Protocol.LevelZero

/-!
# Compressed tokens, read after they were written

A copy waits until the run that it belongs to ends, a literal is deflated at
once, and the tail of a flush is left out on the way. What the reader has been
handed is therefore always behind what was sent: by the run that is pending,
and by the literal bytes that the decompressor still holds back.
-/

namespace RsyncWin

open ByteString Codec

/-! ## The writer, and the reader behind it -/

namespace RsyncDeflatedTokenWriter

open RsyncDeflatedTokenReader

variable {flate : Flate}

/-- A writer within a file: what it fed its compressor, and whether that is flushed. -/
structure Opened (w : RsyncDeflatedTokenWriter flate) (fed out : Bytes) (synced : Bool) :
    Prop where
  codec : Deflated flate w.compressor fed out synced
  pending : w.flushPending = !synced
  lower : 0 ≤ w.lastRunEnd
  upper : w.lastRunEnd ≤ i32Max

/-- A reader between two tokens that knows where the last run ended. -/
structure Idle (r : RsyncDeflatedTokenReader flate) (w : RsyncDeflatedTokenWriter flate) :
    Prop where
  token : r.rxToken = w.lastRunEnd
  run : r.rxRun = 0
  saved : r.savedFlag = none

/-- It has taken everything, and after a flush nothing is held back. -/
structure Level (r : RsyncDeflatedTokenReader flate) (w : RsyncDeflatedTokenWriter flate)
    (out : Bytes) (synced : Bool) (given : Bytes) : Prop extends Idle r w where
  took : Inflated flate r.decompressor out given
  even : synced = true → r.needsSyncTail = false

/-- It has taken everything but perhaps the tail of the last flush, which is not sent. -/
structure Short (r : RsyncDeflatedTokenReader flate) (w : RsyncDeflatedTokenWriter flate)
    (out given : Bytes) : Prop extends Idle r w where
  took : (Inflated flate r.decompressor out given ∧ r.needsSyncTail = false) ∨
    ∃ taken, Inflated flate r.decompressor taken given ∧ r.needsSyncTail = true ∧
      out = taken ++ rsyncZlibSyncTail

/-! ### What is owed -/

/-- The tokens `tokens` hand out what was fed and not given yet, and then what `sent`
says. -/
def Owed (given fed : Bytes) (tokens sent : List RsyncDeflatedToken) : Prop :=
  given ++ (pieces tokens).1 = fed ++ (pieces sent).1 ∧ (pieces tokens).2 = (pieces sent).2

theorem Owed.literal {given fed bytes : Bytes} {mores : List Bytes}
    {tokens sent : List RsyncDeflatedToken}
    (h : Owed (given ++ mores.flatten) (fed ++ bytes) tokens sent) :
    Owed given fed (literals mores ++ tokens) (.literal bytes :: sent) := by
  unfold Owed at h ⊢
  rw [pieces_literals_append, pieces, ← List.append_assoc, ← List.append_assoc]
  exact h

theorem Owed.flushed {given fed : Bytes} {mores : List Bytes}
    {tokens sent : List RsyncDeflatedToken} (h : Owed (given ++ mores.flatten) fed tokens sent) :
    Owed given fed (literals mores ++ tokens) sent := by
  unfold Owed at h ⊢
  rw [pieces_literals_append, ← List.append_assoc]
  exact h

theorem Owed.run {given fed more : Bytes} {start : Nat} {copies tokens sent : List RsyncDeflatedToken}
    (hmore : given ++ more = fed) (h : Owed fed fed tokens sent) :
    Owed given fed (literals (handed more) ++ (.copy start :: (copies ++ tokens)))
      (.copy start :: (copies ++ sent)) := by
  have hsame : pieces tokens = pieces sent := by
    refine Prod.ext ?_ h.2
    exact List.append_cancel_left h.1
  have hcopies : pieces (copies ++ tokens) = pieces (copies ++ sent) := pieces_append_congr hsame
  unfold Owed
  rw [pieces_literals_append, flatten_handed, pieces, pieces, hcopies]
  simp [hmore]

theorem Owed.finish {given fed more : Bytes} (hmore : given ++ more = fed) :
    Owed given fed (literals (handed more)) [] := by
  have h := pieces_literals_append (handed more) []
  rw [List.append_nil] at h
  unfold Owed
  rw [h, flatten_handed]
  simp [pieces, hmore]

/-! ### Data on the way -/

section Sends

variable {w : RsyncDeflatedTokenWriter flate} {fed out : Bytes} {synced : Bool}

theorem writes_dataChunks (bytes : Bytes) : ∃ cs, Writes (writeDeflatedDataChunks bytes) cs () ∧
    cs.flatten = (chunks rsyncDeflatedMaxDataCount bytes).flatMap dataChunk := by
  refine ⟨_, writes_forM fun chunk _ => (writes_writeAll _).bind (writes_writeAll chunk), ?_⟩
  rw [List.flatten_eq_flatMap, List.flatMap_assoc]
  congr 1
  funext chunk
  simp [dataChunk]

/-- A literal is deflated as it comes. -/
theorem writes_literal (hcodec : StreamingCodec flate) (hopen : Opened w fed out synced)
    (data : Bytes) :
    ∃ cs more d, Writes (writeDeflated w data .none) cs { w with compressor := d } ∧
      cs.flatten = (chunks rsyncDeflatedMaxDataCount more).flatMap dataChunk ∧
      flate.deflate w.compressor data .none = .ok (more, d) := by
  obtain ⟨more, d, hdeflate⟩ := hcodec.deflates hopen.codec data .none
  obtain ⟨cs, hwrites, hflat⟩ := writes_dataChunks more
  refine ⟨cs, more, d, ?_, hflat, hdeflate⟩
  unfold writeDeflated
  rw [hdeflate, Prog.ofExcept_ok, Prog.ret_bind]
  exact hwrites.bind_ret rfl

/-- A flush sends all but its tail, and that is something. -/
theorem writes_flush (hcodec : StreamingCodec flate) (hopen : Opened w fed out false) :
    ∃ cs body d, Writes (writeDeflated w [] .sync) cs { w with compressor := d } ∧
      cs.flatten = (chunks rsyncDeflatedMaxDataCount body).flatMap dataChunk ∧ body ≠ [] ∧
      flate.deflate w.compressor [] .sync = .ok (body ++ rsyncZlibSyncTail, d) := by
  obtain ⟨more, d, hdeflate⟩ := hcodec.deflates hopen.codec [] .sync
  obtain ⟨body, hbody, rfl⟩ := hcodec.tail hopen.codec hdeflate
  obtain ⟨cs, hwrites, hflat⟩ := writes_dataChunks body
  refine ⟨cs, body, d, ?_, hflat, hbody, hdeflate⟩
  unfold writeDeflated
  rw [hdeflate, Prog.ofExcept_ok, Prog.ret_bind]
  dsimp only
  rw [if_pos rfl, if_pos (List.suffix_append body rsyncZlibSyncTail)]
  have htake : (body ++ rsyncZlibSyncTail).take
      ((body ++ rsyncZlibSyncTail).length - rsyncZlibSyncTail.length) = body := by
    rw [List.length_append, Nat.add_sub_cancel, List.take_left]
  rw [htake]
  exact hwrites.bind_ret rfl

/-- A reader that has taken everything takes what comes next. -/
theorem hands_bytes (hcodec : StreamingCodec flate) {d : flate.Deflate} {fed' out' bytes given : Bytes}
    {synced' : Bool} (hd : Deflated flate d fed' out' synced') (hpre : out ++ bytes <+: out')
    {r : RsyncDeflatedTokenReader flate} (hidle : Idle r w)
    (hi : Inflated flate r.decompressor out given) :
    ∃ (i : flate.Inflate) (mores : List Bytes),
      Inflated flate i (out ++ bytes) (given ++ mores.flatten) ∧
      Hands r ((chunks rsyncDeflatedMaxDataCount bytes).flatMap dataChunk) mores
        { r with decompressor := i, needsSyncTail := r.needsSyncTail || !bytes.isEmpty } := by
  have hpos : 0 < rsyncDeflatedMaxDataCount := by decide
  have hwhole : (chunks rsyncDeflatedMaxDataCount bytes).flatten = bytes := flatten_chunks hpos bytes
  have hempty : (chunks rsyncDeflatedMaxDataCount bytes).isEmpty = bytes.isEmpty := by
    by_cases hb : bytes = []
    · rw [hb]
      rfl
    · rw [chunks_of_ne_nil hpos hb]
      cases bytes with
      | nil => exact absurd rfl hb
      | cons b bytes => rfl
  obtain ⟨i, mores, hi', hhands⟩ := hands_chunks hcodec hd
    (chunks rsyncDeflatedMaxDataCount bytes) (fun c hc => (length_of_mem_chunks hpos hc).2)
    hidle.run hidle.saved hi (by rwa [hwhole])
  rw [hwhole] at hi'
  rw [hempty] at hhands
  exact ⟨i, mores, hi', hhands⟩

theorem sends_literal (hcodec : StreamingCodec flate) (hopen : Opened w fed out synced)
    {data : Bytes} (hdata : data ≠ []) :
    ∃ cs more d, Writes (writeDeflated w data .none) cs { w with compressor := d } ∧
      Deflated flate d (fed ++ data) (out ++ more) false ∧
      ∀ r given, Idle r w → Inflated flate r.decompressor out given →
        ∃ (i : flate.Inflate) (mores : List Bytes),
          Inflated flate i (out ++ more) (given ++ mores.flatten) ∧
          Hands r cs.flatten mores
            { r with decompressor := i, needsSyncTail := r.needsSyncTail || !more.isEmpty } := by
  obtain ⟨cs, more, d, hwrites, hflat, hdeflate⟩ := writes_literal hcodec hopen data
  have hd := hopen.codec.fed hdata hdeflate
  refine ⟨cs, more, d, hwrites, hd, fun r given hidle hi => ?_⟩
  rw [hflat]
  exact hands_bytes hcodec hd (List.prefix_refl _) hidle hi

theorem sends_flush (hcodec : StreamingCodec flate) (hopen : Opened w fed out false) :
    ∃ cs body d, Writes (writeDeflated w [] .sync) cs { w with compressor := d } ∧
      Deflated flate d fed (out ++ body ++ rsyncZlibSyncTail) true ∧
      ∀ r given, Idle r w → Inflated flate r.decompressor out given →
        ∃ (i : flate.Inflate) (mores : List Bytes),
          Inflated flate i (out ++ body) (given ++ mores.flatten) ∧
          Hands r cs.flatten mores { r with decompressor := i, needsSyncTail := true } := by
  obtain ⟨cs, body, d, hwrites, hflat, hbody, hdeflate⟩ := writes_flush hcodec hopen
  have hd := hopen.codec.synced hdeflate
  rw [← List.append_assoc] at hd
  refine ⟨cs, body, d, hwrites, hd, fun r given hidle hi => ?_⟩
  obtain ⟨i, mores, hi', hhands⟩ := hands_bytes hcodec hd (List.prefix_append _ _) hidle hi
  have hsome : (!body.isEmpty) = true := by simpa using hbody
  rw [hsome, Bool.or_true] at hhands
  rw [hflat]
  exact ⟨i, mores, hi', hhands⟩

/-! ### Runs on the way -/

/-- A run of `runLen + 1` copies from `start` that is not sent yet. -/
structure Running (w : RsyncDeflatedTokenWriter flate) (start runLen : Nat) : Prop where
  first : w.runStart = start
  last : w.lastToken = (start + runLen : Nat)
  short : runLen ≤ u16Max
  small : start + runLen ≤ i32Max

theorem writes_runStart {relative runLen : Int} (hrel : relative = w.runStart - w.lastRunEnd)
    (hopen : Opened w fed out synced) (hlow : 0 ≤ w.runStart) (hhigh : w.runStart ≤ i32Max) :
    ∃ cs flag bytes, Writes (writeRunStart w relative runLen) cs () ∧ cs.flatten = flag :: bytes ∧
      RunFlag flate w.lastRunEnd w.runStart (runLen ≠ 0) flag bytes := by
  subst hrel
  unfold writeRunStart
  by_cases hshort : 0 ≤ w.runStart - w.lastRunEnd ∧ w.runStart - w.lastRunEnd ≤ 63
  · rw [if_pos hshort]
    exact ⟨_, _, _, writes_writeAll _, rfl, runFlag_rel hopen.lower hhigh hshort runLen⟩
  · rw [if_neg hshort]
    refine ⟨_, _, _, (writes_writeAll _).bind (writes_writeI32Le w.runStart), ?_,
      runFlag_long hlow hhigh runLen⟩
    simp

theorem sends_run {start runLen : Nat} (hopen : Opened w fed out synced)
    (hrun : Running w start runLen) :
    ∃ cs flag bytes, Writes (writePendingRun w) cs () ∧ cs.flatten = flag :: bytes ∧
      flag &&& 0xc0 ≠ rsyncDeflatedData ∧
      ∀ r : RsyncDeflatedTokenReader flate, r.rxToken = w.lastRunEnd → r.rxRun = 0 →
        Decodes (readTokenFlag r flag) bytes
          (.copy start, { r with rxToken := start, rxRun := runLen }) := by
  have hlower := hopen.lower
  have hupper := hopen.upper
  have hsmall := hrun.small
  have hshort := hrun.short
  have hrelative : checkedI32 (w.runStart - w.lastRunEnd) = some (w.runStart - w.lastRunEnd) := by
    unfold i32Max at hupper hsmall
    rw [hrun.first]
    exact if_pos (by omega)
  have hlength : checkedI32 (w.lastToken - w.runStart) = some (runLen : Int) := by
    unfold u16Max at hshort
    rw [hrun.first, hrun.last]
    have hdiff : ((start + runLen : Nat) : Int) - start = runLen := by omega
    rw [hdiff]
    exact if_pos (by omega)
  obtain ⟨cs, flag, bytes, hwrites, hflat, hflag⟩ := @writes_runStart flate w fed out synced
    _ runLen rfl hopen (by rw [hrun.first]; omega) (by rw [hrun.first]; omega)
  have htail : Writes (if (runLen : Int) ≠ 0 then writeAll (leBytes 2 (ofSigned 32 runLen))
      else pure () : Writer Unit) (if runLen = 0 then [] else [leBytes 2 runLen]) () := by
    unfold u16Max at hshort
    by_cases hzero : runLen = 0
    · rw [if_neg (by omega), if_pos hzero]
      exact writes_ret ()
    · rw [if_pos (by omega), if_neg hzero, ofSigned_natCast (by omega)]
      exact writes_writeAll _
  refine ⟨cs ++ (if runLen = 0 then [] else [leBytes 2 runLen]), flag, bytes ++ runLenBytes runLen,
    ?_, ?_, hflag.kind, fun r htoken hidle => ?_⟩
  · unfold writePendingRun checkedRunI32
    rw [hrelative, hlength]
    simp only [Prog.pure_eq, Prog.ret_bind]
    rw [if_neg (by omega)]
    exact hwrites.bind htail
  · rw [List.flatten_append, hflat, List.cons_append]
    congr 2
    unfold runLenBytes
    split
    · rfl
    · exact List.flatten_singleton
  · have hstart : (start : Int).toNat = start := Int.toNat_natCast start
    rw [hrun.first, ← htoken] at hflag
    have hread := decodes_readTokenFlag (by omega) hshort hidle hflag
    rwa [hstart] at hread

/-- The tail is put back in front of a flag, and everything that was fed has been given. -/
theorem Short.tailed (hcodec : StreamingCodec flate) (hopen : Opened w fed out true)
    {r : RsyncDeflatedTokenReader flate} {given : Bytes} (h : Short r w out given) :
    ∃ more r', Tailed r more r' ∧ given ++ more = fed ∧ Level r' w out true fed := by
  rcases h.took with ⟨hi, heven⟩ | ⟨taken, hi, hneeds, rfl⟩
  · obtain rfl := hcodec.yields hopen.codec hi
    exact ⟨[], r, .even heven, List.append_nil _, ⟨h.toIdle, hi, fun _ => heven⟩⟩
  · obtain ⟨more, i, hinflate⟩ := hcodec.inflates hopen.codec hi (List.prefix_refl _) .sync
    have hi' := hi.taken hinflate
    obtain rfl := hcodec.yields hopen.codec hi'
    exact ⟨more, _, .held hneeds hinflate, rfl, ⟨⟨h.token, h.run, h.saved⟩, hi', fun _ => rfl⟩⟩

/-- The state after a run has been sent. -/
def closed (w : RsyncDeflatedTokenWriter flate) : RsyncDeflatedTokenWriter flate :=
  { w with lastRunEnd := w.lastToken, lastToken := -2 }

theorem Running.closed {start runLen : Nat} (hrun : Running w start runLen)
    (hopen : Opened w fed out true) : Opened w.closed fed out true := by
  have hsmall := hrun.small
  refine ⟨hopen.codec, hopen.pending, ?_, ?_⟩
  · show 0 ≤ w.lastToken
    rw [hrun.last]
    omega
  · show w.lastToken ≤ i32Max
    rw [hrun.last]
    omega

theorem closes_run (hcodec : StreamingCodec flate) {start runLen : Nat}
    (hopen : Opened w fed out true) (hrun : Running w start runLen) :
    ∃ cs, Writes (writePendingRun w) cs () ∧ ∀ r given, Short r w out given →
      ∃ more r', given ++ more = fed ∧ Level r' w.closed out true fed ∧
        Consumes r cs.flatten
          (literals (handed more) ++ (.copy start :: copiesFrom start runLen)) r' := by
  obtain ⟨cs, flag, bytes, hwrites, hflat, hflag, hreads⟩ := sends_run hopen hrun
  refine ⟨cs, hwrites, fun r given hshort => ?_⟩
  obtain ⟨more, r₁, htailed, hmore, hlevel⟩ := hshort.tailed hcodec hopen
  refine ⟨more, { r₁ with rxToken := (start + runLen : Nat), rxRun := 0 }, hmore,
    ⟨⟨hrun.last.symm, rfl, hlevel.saved⟩, hlevel.took, hlevel.even⟩, ?_⟩
  rw [hflat]
  intro inp tokens last rest hmoreTokens
  rw [List.append_assoc, List.cons_append, List.cons_append]
  refine reads_flag hshort.run hshort.saved hflag htailed
    (hreads r₁ hlevel.token hlevel.run inp) fun x xs hnext => ?_
  refine .token hnext (by simp) ?_
  have hcopies := consumes_run hrun.small { r₁ with rxToken := (start : Int), rxRun := runLen }
    rfl rfl
  exact hcopies inp tokens last rest hmoreTokens

/-! ### A file on the way -/

/-- A writer before a file, and a reader before one. -/
def AtStart (w : RsyncDeflatedTokenWriter flate) : Prop :=
  w.lastToken = -1 ∧ ∃ fed out synced, Deflated flate w.compressor fed out synced

structure Fresh (r : RsyncDeflatedTokenReader flate) : Prop where
  token : r.rxToken = 0
  run : r.rxRun = 0
  saved : r.savedFlag = none
  even : r.needsSyncTail = false
  took : Inflated flate r.decompressor [] []

/-- `x` writes the rest of a file, and a reader that is behind reads what it is owed. -/
def Encodes (x : Writer (RsyncDeflatedTokenWriter flate)) (fed : Bytes)
    (sent : List RsyncDeflatedToken) (behind : RsyncDeflatedTokenReader flate → Bytes → Prop) :
    Prop :=
  ∃ cs w', Writes x cs w' ∧ AtStart w' ∧ ∀ r given, behind r given →
    ∃ tokens r', Fresh r' ∧ (∀ rest, ReadsTo r (cs.flatten ++ rest) tokens r' rest) ∧
      Owed given fed tokens sent

theorem Encodes.step {α : Type} {x : Writer α} {k : α → Writer (RsyncDeflatedTokenWriter flate)}
    {cs : List Bytes} {a : α} {fed₁ : Bytes} {sent sent₁ : List RsyncDeflatedToken}
    {behind behind₁ : RsyncDeflatedTokenReader flate → Bytes → Prop} (hx : Writes x cs a)
    (hk : Encodes (k a) fed₁ sent₁ behind₁)
    (h : ∀ r given, behind r given → ∃ r₁ given₁ tokens, behind₁ r₁ given₁ ∧
      Consumes r cs.flatten tokens r₁ ∧
      ∀ more, Owed given₁ fed₁ more sent₁ → Owed given fed (tokens ++ more) sent) :
    Encodes (x >>= k) fed sent behind := by
  obtain ⟨ds, w', hwrites, hstart, hreads⟩ := hk
  refine ⟨cs ++ ds, w', hx.bind hwrites, hstart, fun r given hbehind => ?_⟩
  obtain ⟨r₁, given₁, tokens, hbehind₁, hconsumes, howed⟩ := h r given hbehind
  obtain ⟨more, r', hfresh, hread, hmore⟩ := hreads r₁ given₁ hbehind₁
  refine ⟨tokens ++ more, r', hfresh, fun rest => ?_, howed more hmore⟩
  rw [List.flatten_append, List.append_assoc]
  exact hconsumes _ _ _ _ (hread rest)

/-- The end of a file, read with a flush before it or without one. -/
theorem encodes_end (hcodec : StreamingCodec flate) (hopen : Opened w fed out true)
    (hlast : w.lastToken = -1) :
    Encodes (do writeAll [rsyncDeflatedEndFlag]; pure w) fed [] fun r given => Short r w out given := by
  refine ⟨[[rsyncDeflatedEndFlag]], w, (writes_writeAll _).bind_ret rfl,
    ⟨hlast, fed, out, true, hopen.codec⟩, fun r given hshort => ?_⟩
  obtain ⟨more, r₁, htailed, hmore, hlevel⟩ := hshort.tailed hcodec hopen
  refine ⟨literals (handed more), r₁.resetFile, ⟨rfl, rfl, rfl, rfl, .reset hlevel.took⟩,
    fun rest => ?_, Owed.finish hmore⟩
  have hread : (readTokenFlag r₁ rsyncDeflatedEndFlag).run buffer rest =
      .ret (.finish, r₁.resetFile) rest := rfl
  have h : ReadsTo r ([rsyncDeflatedEndFlag] ++ rest) (literals (handed more) ++ [])
      r₁.resetFile rest :=
    reads_flag hshort.run hshort.saved (by decide) htailed hread fun x xs hnext => .finish hnext
  rwa [List.append_nil] at h

/-- What is sent in a file, a literal cut as `send_literal` cuts it. -/
inductive DeflatedSend where
  | literal (bytes : Bytes)
  | copy (blockIndex : Nat)

def DeflatedSend.token : DeflatedSend → RsyncDeflatedToken
  | literal bytes => .literal bytes
  | copy blockIndex => .copy blockIndex

def DeflatedSend.InRange : DeflatedSend → Prop
  | literal _ => True
  | copy blockIndex => blockIndex ≤ i32Max

def sendStep (w : RsyncDeflatedTokenWriter flate) :
    DeflatedSend → Writer (RsyncDeflatedTokenWriter flate)
  | .literal bytes => sendToken w (-2) bytes
  | .copy blockIndex => sendToken w blockIndex []

def sendSteps (w : RsyncDeflatedTokenWriter flate) :
    List DeflatedSend → Writer (RsyncDeflatedTokenWriter flate)
  | [] => finish w
  | step :: steps => do
      let w ← sendStep w step
      sendSteps w steps

/-- A flush where one is due. -/
theorem flushes (hcodec : StreamingCodec flate) (hopen : Opened w fed out synced) {token : Int}
    (htoken : token ≠ -2) :
    ∃ cs d pending out₁, Writes (flushData w token []) cs
        { w with compressor := d, flushPending := pending } ∧
      Opened { w with compressor := d, flushPending := pending } fed out₁ true ∧
      ∀ r given, Level r w out synced given → ∃ r₁ mores,
        Short r₁ { w with compressor := d, flushPending := pending } out₁
          (given ++ mores.flatten) ∧ Hands r cs.flatten mores r₁ := by
  unfold flushData
  rw [if_neg (by simp)]
  cases synced with
  | true =>
      have hpending : w.flushPending = false := hopen.pending
      rw [if_neg (by simp [hpending])]
      refine ⟨[], w.compressor, w.flushPending, out, writes_ret w, hopen, fun r given hlevel => ?_⟩
      refine ⟨r, [], ⟨hlevel.toIdle, Or.inl ⟨?_, hlevel.even rfl⟩⟩, .refl r⟩
      simpa using hlevel.took
  | false =>
      have hpending : w.flushPending = true := hopen.pending
      rw [if_pos ⟨hpending, htoken⟩]
      obtain ⟨cs, body, d, hwrites, hd, hreads⟩ := sends_flush hcodec hopen
      refine ⟨cs, d, false, out ++ body ++ rsyncZlibSyncTail, hwrites.bind_ret rfl,
        ⟨hd, rfl, hopen.lower, hopen.upper⟩, fun r given hlevel => ?_⟩
      obtain ⟨i, mores, hi, hhands⟩ := hreads r given hlevel.toIdle hlevel.took
      exact ⟨{ r with decompressor := i, needsSyncTail := true }, mores,
        ⟨⟨hlevel.token, hlevel.run, hlevel.saved⟩, Or.inr ⟨out ++ body, hi, rfl, rfl⟩⟩, hhands⟩

def EncodesOpen (flate : Flate) (steps : List DeflatedSend) : Prop :=
  ∀ (w : RsyncDeflatedTokenWriter flate) (fed out : Bytes) (synced : Bool), w.lastToken = -2 →
    Opened w fed out synced → Encodes (sendSteps w steps) fed (steps.map DeflatedSend.token)
      fun r given => Level r w out synced given

def EncodesRun (flate : Flate) (steps : List DeflatedSend) : Prop :=
  ∀ (w : RsyncDeflatedTokenWriter flate) (fed out : Bytes) (start runLen : Nat),
    Running w start runLen → Opened w fed out true → Encodes (sendSteps w steps) fed
      (.copy start :: (copiesFrom start runLen ++ steps.map DeflatedSend.token))
      fun r given => Short r w out given

/-- A token where no run is pending. -/
theorem sendToken_open {token : Int} {data : Bytes} (hlast : w.lastToken = -2) :
    sendToken w token data = (do
      let w ← flushData { w with runStart := token, lastToken := token } token data
      if token = -1 then
        writeAll [rsyncDeflatedEndFlag]
        pure w
      else pure w) := by
  unfold sendToken startToken
  rw [hlast, if_neg (by decide), if_pos rfl]
  rfl

/-- A literal where no run is pending. -/
theorem writes_openLiteral (hlast : w.lastToken = -2) {data : Bytes} (hdata : data ≠ [])
    {cs : List Bytes} {d : flate.Deflate}
    (h : Writes (writeDeflated { w with runStart := -2, lastToken := -2 } data .none) cs
      { w with compressor := d, runStart := -2, lastToken := -2 }) :
    Writes (sendStep w (.literal data)) cs
      { w with compressor := d, runStart := -2, lastToken := -2, flushPending := true } := by
  show Writes (sendToken w (-2) data) _ _
  rw [sendToken_open hlast]
  unfold flushData
  rw [if_pos hdata]
  refine Writes.bind_ret (Writes.bind_ret h rfl) ?_
  rw [if_neg (by decide)]
  rfl

/-- A copy where no run is pending. -/
theorem writes_openCopy (hlast : w.lastToken = -2) {blockIndex : Nat} {cs : List Bytes}
    {w' : RsyncDeflatedTokenWriter flate}
    (h : Writes (flushData { w with runStart := blockIndex, lastToken := blockIndex } blockIndex [])
      cs w') : Writes (sendStep w (.copy blockIndex)) cs w' := by
  show Writes (sendToken w blockIndex []) _ _
  rw [sendToken_open hlast]
  refine h.bind_ret ?_
  rw [if_neg (by omega)]
  rfl

/-- The end of a file where no run is pending. -/
theorem writes_openEnd (hlast : w.lastToken = -2) {cs : List Bytes}
    {w' : RsyncDeflatedTokenWriter flate}
    (h : Writes (flushData { w with runStart := -1, lastToken := -1 } (-1) []) cs w') :
    Writes (sendSteps w []) (cs ++ [[rsyncDeflatedEndFlag]]) w' := by
  show Writes (sendToken w (-1) []) _ _
  rw [sendToken_open hlast]
  refine h.bind ?_
  rw [if_pos rfl]
  exact (writes_writeAll _).bind_ret rfl

theorem encodesOpen_nil (hcodec : StreamingCodec flate) : EncodesOpen flate [] := by
  intro w fed out synced hlast hopen
  have hopen' : Opened { w with runStart := -1, lastToken := -1 } fed out synced :=
    ⟨hopen.codec, hopen.pending, hopen.lower, hopen.upper⟩
  obtain ⟨cs, d, pending, out₁, hwrites, hopen₁, hreads⟩ :=
    @flushes flate _ fed out synced hcodec hopen' (-1) (by decide)
  show Encodes (sendToken w (-1) []) _ _ _
  rw [sendToken_open hlast]
  refine Encodes.step hwrites (encodes_end hcodec hopen₁ rfl) fun r given hlevel => ?_
  obtain ⟨r₁, mores, hshort, hhands⟩ :=
    hreads r given ⟨⟨hlevel.token, hlevel.run, hlevel.saved⟩, hlevel.took, hlevel.even⟩
  exact ⟨r₁, _, _, hshort, hhands.consumes, fun more hmore => hmore.flushed⟩

theorem encodesOpen_cons (hcodec : StreamingCodec flate) {step : DeflatedSend}
    {steps : List DeflatedSend} (hstep : step.InRange) (hne : step ≠ .literal [])
    (hopens : EncodesOpen flate steps) (hruns : EncodesRun flate steps) :
    EncodesOpen flate (step :: steps) := by
  intro w fed out synced hlast hopen
  cases step with
  | literal data =>
      have hdata : data ≠ [] := fun h => hne (by rw [h])
      have hopen' : Opened { w with runStart := -2, lastToken := -2 } fed out synced :=
        ⟨hopen.codec, hopen.pending, hopen.lower, hopen.upper⟩
      obtain ⟨cs, more, d, hwrites, hd, hreads⟩ := sends_literal hcodec hopen' hdata
      refine Encodes.step (writes_openLiteral hlast hdata hwrites) (hopens _ (fed ++ data) (out ++ more) false rfl
        ⟨hd, rfl, hopen.lower, hopen.upper⟩) fun r given hlevel => ?_
      obtain ⟨i, mores, hi, hhands⟩ :=
        hreads r given ⟨hlevel.token, hlevel.run, hlevel.saved⟩ hlevel.took
      exact ⟨{ r with decompressor := i, needsSyncTail := r.needsSyncTail || !more.isEmpty }, _, _,
        ⟨⟨hlevel.token, hlevel.run, hlevel.saved⟩, hi, by simp⟩, hhands.consumes,
        fun tokens howed => howed.literal⟩
  | copy blockIndex =>
      have hopen' : Opened { w with runStart := blockIndex, lastToken := blockIndex }
          fed out synced := ⟨hopen.codec, hopen.pending, hopen.lower, hopen.upper⟩
      obtain ⟨cs, d, pending, out₁, hwrites, hopen₁, hreads⟩ :=
        @flushes flate _ fed out synced hcodec hopen' blockIndex (by omega)
      have hrunning : Running ({ w with
          compressor := d
          runStart := blockIndex
          lastToken := blockIndex
          flushPending := pending } : RsyncDeflatedTokenWriter flate) blockIndex 0 := ⟨rfl, rfl, by decide, hstep⟩
      refine Encodes.step (writes_openCopy hlast hwrites)
        (hruns _ fed out₁ blockIndex 0 hrunning hopen₁) fun r given hlevel => ?_
      obtain ⟨r₁, mores, hshort, hhands⟩ :=
        hreads r given ⟨⟨hlevel.token, hlevel.run, hlevel.saved⟩, hlevel.took, hlevel.even⟩
      exact ⟨r₁, _, _, hshort, hhands.consumes, fun tokens howed => howed.flushed⟩

/-- A token that the pending run does not take in. -/
theorem sendToken_closes {token : Int} {data : Bytes} (hlast : 0 ≤ w.lastToken)
    (hbreak : data ≠ [] ∨ checkedI32 (w.lastToken + 1) ≠ some token ∨
      (checkedI32 (w.runStart + 65536)).all (fun limit => token ≥ limit)) :
    sendToken w token data = (do
      writePendingRun w
      sendToken w.closed token data) := by
  have hopen : w.closed.lastToken = -2 := rfl
  simp only [sendToken_open hopen]
  unfold sendToken startToken
  rw [if_neg (by omega), if_neg (by omega), if_pos hbreak, Prog.bind_assoc]
  rfl

/-- Where the pending run ends, it is sent and the writer is where it was between
tokens. -/
theorem encodesRun_of_open (hcodec : StreamingCodec flate) {steps : List DeflatedSend}
    (hopens : EncodesOpen flate steps) {start runLen : Nat} (hrun : Running w start runLen)
    (hopen : Opened w fed out true)
    (hsend : sendSteps w steps = (do writePendingRun w; sendSteps w.closed steps)) :
    Encodes (sendSteps w steps) fed
      (.copy start :: (copiesFrom start runLen ++ steps.map DeflatedSend.token))
      fun r given => Short r w out given := by
  obtain ⟨cs, hwrites, hreads⟩ := closes_run hcodec hopen hrun
  rw [hsend]
  refine Encodes.step hwrites (hopens w.closed fed out true rfl (hrun.closed hopen))
    fun r given hshort => ?_
  obtain ⟨more, r₁, hmore, hlevel, hconsumes⟩ := hreads r given hshort
  refine ⟨r₁, fed, _, hlevel, hconsumes, fun tokens howed => ?_⟩
  rw [List.append_assoc, List.cons_append]
  exact Owed.run hmore howed

theorem copiesFrom_succ : ∀ (start runLen : Nat),
    copiesFrom start (runLen + 1) = copiesFrom start runLen ++ [.copy (start + runLen + 1)]
  | start, 0 => rfl
  | start, runLen + 1 => by
      have h := copiesFrom_succ (start + 1) runLen
      have hsum : start + 1 + runLen + 1 = start + (runLen + 1) + 1 := by omega
      rw [copiesFrom, h, hsum]
      rfl

/-- What comes next ends the run that is pending, or continues it and nothing is written. -/
theorem sendSteps_running {start runLen : Nat} (hrun : Running w start runLen)
    (hopen : Opened w fed out true) {steps : List DeflatedSend}
    (h : ∀ step ∈ steps, step.InRange ∧ step ≠ .literal []) :
    sendSteps w steps = (do writePendingRun w; sendSteps w.closed steps) ∨
      ∃ rest, steps = .copy (start + runLen + 1) :: rest ∧
        sendSteps w steps = sendSteps { w with lastToken := (start + runLen + 1 : Nat) } rest ∧
        Running { w with lastToken := ((start + runLen + 1 : Nat) : Int) } start (runLen + 1) := by
  have hlast : 0 ≤ w.lastToken := by
    rw [hrun.last]
    omega
  cases steps with
  | nil =>
      left
      refine sendToken_closes hlast (Or.inr (Or.inl fun hnext => ?_))
      unfold checkedI32 at hnext
      split at hnext
      · have := Option.some.inj hnext
        omega
      · cases hnext
  | cons step steps =>
      obtain ⟨hrange, hne⟩ := h step List.mem_cons_self
      cases step with
      | literal data =>
          left
          have hdata : data ≠ [] := fun h => hne (by rw [h])
          show (sendToken w (-2) data >>= fun w => sendSteps w steps) = _
          rw [sendToken_closes hlast (Or.inl hdata), Prog.bind_assoc]
          rfl
      | copy blockIndex =>
          by_cases hbreak : checkedI32 (w.lastToken + 1) ≠ some (blockIndex : Int) ∨
              (checkedI32 (w.runStart + 65536)).all (fun limit => (blockIndex : Int) ≥ limit)
          · left
            show (sendToken w blockIndex [] >>= fun w => sendSteps w steps) = _
            rw [sendToken_closes hlast (Or.inr hbreak), Prog.bind_assoc]
            rfl
          · right
            rw [not_or, not_not] at hbreak
            obtain ⟨hnext, hlimit⟩ := hbreak
            have hindex : blockIndex = start + runLen + 1 := by
              unfold checkedI32 at hnext
              split at hnext
              · have := Option.some.inj hnext
                rw [hrun.last] at this
                omega
              · cases hnext
            have hlen : runLen + 1 ≤ u16Max := by
              unfold checkedI32 at hlimit
              rw [hrun.first] at hlimit
              unfold u16Max
              split at hlimit
              · simp at hlimit
                omega
              · simp at hlimit
            have hpending : w.flushPending = false := hopen.pending
            have hsend : sendStep w (.copy blockIndex) = .ret { w with lastToken := blockIndex } := by
              show sendToken w blockIndex [] = _
              unfold sendToken startToken
              rw [if_neg (by omega), if_neg (by omega), if_neg (by simp [hnext, hlimit])]
              unfold flushData
              simp [hpending]
            subst hindex
            refine ⟨steps, rfl, ?_, hrun.first, ?_, hlen, ?_⟩
            · show (sendStep w _ >>= fun w => sendSteps w steps) = _
              rw [hsend, Prog.ret_bind]
            · show ((start + runLen + 1 : Nat) : Int) = _
              rw [Nat.add_assoc]
            · rw [← Nat.add_assoc]
              exact hrange

theorem encodesRun (hcodec : StreamingCodec flate) {steps : List DeflatedSend}
    (h : ∀ step ∈ steps, step.InRange ∧ step ≠ .literal []) (hopens : EncodesOpen flate steps)
    (hruns : EncodesRun flate steps.tail) : EncodesRun flate steps := by
  intro w fed out start runLen hrun hopen
  rcases sendSteps_running hrun hopen h with hsend | ⟨rest, rfl, hsend, hrunning⟩
  · exact encodesRun_of_open hcodec hopens hrun hopen hsend
  · have hopen' : Opened { w with lastToken := ((start + runLen + 1 : Nat) : Int) } fed out true :=
      ⟨hopen.codec, hopen.pending, hopen.lower, hopen.upper⟩
    have hmore := hruns _ fed out start (runLen + 1) hrunning hopen'
    rw [copiesFrom_succ, List.append_assoc] at hmore
    rw [hsend]
    obtain ⟨cs, w', hwrites, hstart, hreads⟩ := hmore
    refine ⟨cs, w', hwrites, hstart, fun r given hshort => ?_⟩
    exact hreads r given ⟨⟨hshort.token, hshort.run, hshort.saved⟩, hshort.took⟩

/-- Induction on what is sent; a run that is pending is sent with what comes after it. -/
theorem encodes_steps (hcodec : StreamingCodec flate) : ∀ (steps : List DeflatedSend),
    (∀ step ∈ steps, step.InRange ∧ step ≠ .literal []) →
      EncodesOpen flate steps ∧ EncodesRun flate steps
  | [], h => by
      have hopens := encodesOpen_nil hcodec
      refine ⟨hopens, ?_⟩
      intro w fed out start runLen hrun hopen
      rcases sendSteps_running hrun hopen h with hsend | ⟨rest, hrest, -⟩
      · exact encodesRun_of_open hcodec hopens hrun hopen hsend
      · cases hrest
  | step :: steps, h => by
      obtain ⟨hrange, hne⟩ := h step List.mem_cons_self
      obtain ⟨hopens, hruns⟩ :=
        encodes_steps hcodec steps fun s hs => h s (List.mem_cons_of_mem step hs)
      have hopens' := encodesOpen_cons hcodec hrange hne hopens hruns
      exact ⟨hopens', encodesRun hcodec h hopens' hruns⟩

/-! ### Files -/

def DeflatedSend.send (w : RsyncDeflatedTokenWriter flate) :
    DeflatedSend → Writer (RsyncDeflatedTokenWriter flate)
  | literal bytes => sendLiteral w bytes
  | copy blockIndex => sendCopy w blockIndex

/-- A file: what is sent in it, and `finish`. -/
def sendFile (w : RsyncDeflatedTokenWriter flate) (sends : List DeflatedSend) :
    Writer (RsyncDeflatedTokenWriter flate) := do
  let w ← sends.foldlM DeflatedSend.send w
  finish w

def sendFiles (w : RsyncDeflatedTokenWriter flate) (files : List (List DeflatedSend)) :
    Writer (RsyncDeflatedTokenWriter flate) :=
  files.foldlM sendFile w

/-- The calls of `send_token` behind a call. -/
def DeflatedSend.steps : DeflatedSend → List DeflatedSend
  | literal bytes => (chunks rsyncDeflatedChunkSize bytes).map .literal
  | copy blockIndex => [.copy blockIndex]

theorem sendSteps_append : ∀ (steps more : List DeflatedSend) (w : RsyncDeflatedTokenWriter flate),
    sendSteps w (steps ++ more) = (do
      let w ← steps.foldlM sendStep w
      sendSteps w more)
  | [], more, w => rfl
  | step :: steps, more, w => by
      rw [List.cons_append, sendSteps, List.foldlM_cons, Prog.bind_assoc]
      congr 1
      funext w
      exact sendSteps_append steps more w

theorem send_eq {step : DeflatedSend} (hrange : step.InRange) (w : RsyncDeflatedTokenWriter flate) :
    step.send w = step.steps.foldlM sendStep w := by
  cases step with
  | literal bytes =>
      show sendLiteral w bytes = _
      unfold sendLiteral DeflatedSend.steps
      rw [List.foldlM_map]
      rfl
  | copy blockIndex =>
      have hle : ¬ blockIndex > i32Max := Nat.not_lt.mpr hrange
      show sendCopy w blockIndex = _
      unfold sendCopy DeflatedSend.steps
      rw [if_neg hle, List.foldlM_cons]
      exact (Prog.bind_ret _).symm

theorem sendFile_eq : ∀ {sends : List DeflatedSend} (_ : ∀ s ∈ sends, s.InRange)
    (w : RsyncDeflatedTokenWriter flate),
    sendFile w sends = sendSteps w (sends.flatMap DeflatedSend.steps)
  | [], _, w => rfl
  | s :: sends, h, w => by
      rw [List.flatMap_cons, sendSteps_append, ← send_eq (h s List.mem_cons_self)]
      unfold sendFile
      rw [List.foldlM_cons, Prog.bind_assoc]
      congr 1
      funext w
      exact sendFile_eq (fun x hx => h x (List.mem_cons_of_mem s hx)) w

theorem pieces_steps : ∀ (sends : List DeflatedSend),
    pieces ((sends.flatMap DeflatedSend.steps).map DeflatedSend.token) =
      pieces (sends.map DeflatedSend.token)
  | [] => rfl
  | .literal bytes :: sends => by
      have hpos : 0 < rsyncDeflatedChunkSize := by decide
      have hmap : ((chunks rsyncDeflatedChunkSize bytes).map DeflatedSend.literal).map
          DeflatedSend.token = literals (chunks rsyncDeflatedChunkSize bytes) := by
        rw [List.map_map]
        rfl
      rw [List.flatMap_cons, List.map_append]
      unfold DeflatedSend.steps
      rw [hmap, pieces_literals_append, flatten_chunks hpos]
      rw [List.map_cons, DeflatedSend.token, pieces]
      rw [← pieces_steps sends]
      rfl
  | .copy blockIndex :: sends => by
      have ih := pieces_steps sends
      rw [List.flatMap_cons, List.map_append, List.map_cons]
      show pieces (.copy blockIndex :: _) = pieces (.copy blockIndex :: _)
      rw [pieces, pieces, ← ih]
      rfl

/-- The state after the first token of a file has reset it. -/
def begun (w : RsyncDeflatedTokenWriter flate) : RsyncDeflatedTokenWriter flate :=
  { w with
    compressor := flate.deflateReset w.compressor
    lastToken := -2
    lastRunEnd := 0
    flushPending := false }

theorem sendToken_begun {token : Int} {data : Bytes} (hlast : w.lastToken = -1) :
    sendToken w token data = sendToken w.begun token data := by
  have hopen : w.begun.lastToken = -2 := rfl
  rw [sendToken_open hopen]
  unfold sendToken startToken
  rw [if_pos hlast]
  rfl

theorem sendSteps_begun (steps : List DeflatedSend) (hlast : w.lastToken = -1) :
    sendSteps w steps = sendSteps w.begun steps := by
  cases steps with
  | nil => exact sendToken_begun hlast
  | cons step steps =>
      have hstep : sendStep w step = sendStep w.begun step := by
        cases step with
        | literal bytes => exact sendToken_begun hlast
        | copy blockIndex => exact sendToken_begun hlast
      rw [sendSteps, sendSteps, hstep]

theorem steps_inRange {sends : List DeflatedSend} (h : ∀ s ∈ sends, s.InRange) :
    ∀ step ∈ sends.flatMap DeflatedSend.steps, step.InRange ∧ step ≠ .literal [] := by
  intro step hstep
  obtain ⟨s, hs, hmem⟩ := List.mem_flatMap.mp hstep
  cases s with
  | literal bytes =>
      obtain ⟨chunk, hchunk, rfl⟩ := List.mem_map.mp hmem
      have hpos : 0 < rsyncDeflatedChunkSize := by decide
      have hlen := (length_of_mem_chunks hpos hchunk).1
      refine ⟨trivial, fun heq => ?_⟩
      rw [DeflatedSend.literal.inj heq] at hlen
      exact absurd hlen (Nat.lt_irrefl 0)
  | copy blockIndex =>
      rw [List.mem_singleton.mp hmem]
      exact ⟨h _ hs, by simp⟩

/-- One file, from a writer and a reader between two files. -/
theorem encodes_file (hcodec : StreamingCodec flate) (hstart : AtStart w)
    {sends : List DeflatedSend} (h : ∀ s ∈ sends, s.InRange) :
    ∃ cs w', Writes (sendFile w sends) cs w' ∧ AtStart w' ∧
      ∀ r : RsyncDeflatedTokenReader flate, Fresh r → ∃ tokens r', Fresh r' ∧
        (∀ rest, ReadsTo r (cs.flatten ++ rest) tokens r' rest) ∧
        pieces tokens = pieces (sends.map DeflatedSend.token) := by
  obtain ⟨hlast, fed, out, synced, hd⟩ := hstart
  have hopen : Opened w.begun [] [] true := ⟨.reset hd, rfl, le_rfl, Int.natCast_nonneg i32Max⟩
  obtain ⟨hopens, -⟩ := encodes_steps hcodec _ (steps_inRange h)
  obtain ⟨cs, w', hwrites, hstart', hreads⟩ := hopens w.begun [] [] true rfl hopen
  refine ⟨cs, w', ?_, hstart', fun r hfresh => ?_⟩
  · rw [sendFile_eq h, sendSteps_begun _ hlast]
    exact hwrites
  · have hlevel : Level r w.begun [] true [] :=
      ⟨⟨hfresh.token, hfresh.run, hfresh.saved⟩, hfresh.took, fun _ => hfresh.even⟩
    obtain ⟨tokens, r', hfresh', hread, howed⟩ := hreads r [] hlevel
    refine ⟨tokens, r', hfresh', hread, ?_⟩
    rw [← pieces_steps]
    exact Prod.ext howed.1 howed.2

end Sends

/-- Files one after the other, by induction on the files. -/
theorem encodes_files (hcodec : StreamingCodec flate) : ∀ (files : List (List DeflatedSend))
    (w : RsyncDeflatedTokenWriter flate), AtStart w →
    (∀ file ∈ files, ∀ s ∈ file, s.InRange) →
    ∃ cs w', Writes (sendFiles w files) cs w' ∧
      ∀ r : RsyncDeflatedTokenReader flate, Fresh r → ∃ tokens r',
        tokens.map pieces = files.map (fun file => pieces (file.map DeflatedSend.token)) ∧
        ∀ rest, ∃ least, ∀ fuel ≥ least,
          (readFiles fuel files.length r).run buffer (cs.flatten ++ rest) = .ret (tokens, r') rest
  | [], w, _, _ => by
      refine ⟨[], w, writes_ret w, fun r _ => ⟨[], r, rfl, fun rest => ⟨0, fun fuel _ => rfl⟩⟩⟩
  | file :: files, w, hstart, h => by
      obtain ⟨cs, w₁, hwrites, hstart₁, hreads⟩ :=
        encodes_file hcodec hstart (h file List.mem_cons_self)
      obtain ⟨ds, w', hmore, hrest⟩ :=
        encodes_files hcodec files w₁ hstart₁ fun f hf => h f (List.mem_cons_of_mem file hf)
      refine ⟨cs ++ ds, w', hwrites.bind hmore, fun r hfresh => ?_⟩
      obtain ⟨tokens, r₁, hfresh₁, hread, hpieces⟩ := hreads r hfresh
      obtain ⟨more, r', hmorePieces, hruns⟩ := hrest r₁ hfresh₁
      refine ⟨tokens :: more, r', ?_, fun rest => ?_⟩
      · rw [List.map_cons, List.map_cons, hpieces, hmorePieces]
      · obtain ⟨enough, henough⟩ := (hread (ds.flatten ++ rest)).run_readFile
        obtain ⟨least, hleast⟩ := hruns rest
        refine ⟨enough + least, fun fuel hfuel => ?_⟩
        rw [List.length_cons, readFiles, List.flatten_append, List.append_assoc,
          Prog.run_bind_ret (henough fuel (by omega) fuel (by omega))]
        dsimp only
        rw [Prog.run_bind_ret (hleast fuel (by omega))]
        rfl

end RsyncDeflatedTokenWriter

end RsyncWin
