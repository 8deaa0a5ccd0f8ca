import RsyncWin.Lib.Chunks
import RsyncWin.Protocol.Io

/-!
# Compressed tokens (`rsync-protocol/src/session.rs`)

Literals travel deflated, copy tokens as runs of block indices. Raw deflate
comes from outside the repository and enters as a `Flate`: two states and the
two functions the source's loops around `compress` and `decompress` compute.
-/

namespace RsyncWin

open ByteString Codec

inductive RsyncDeflatedTokenMode where
  | zlib
  | zlibx
deriving DecidableEq, Repr

inductive RsyncDeflatedToken where
  | literal (bytes : Bytes)
  | copy (blockIndex : Nat)
  | finish
deriving DecidableEq, Repr

inductive FlateFlush where
  | none
  | sync
deriving DecidableEq, Repr

structure Flate where
  Deflate : Type
  deflateNew : Nat → Deflate
  deflateReset : Deflate → Deflate
  deflate : Deflate → Bytes → FlateFlush → Except Error (Bytes × Deflate)
  Inflate : Type
  inflateNew : Inflate
  inflateReset : Inflate → Inflate
  inflate : Inflate → Bytes → FlateFlush → Except Error (Bytes × Inflate)

def rsyncDeflatedEndFlag : UInt8 := 0
def rsyncDeflatedTokenLong : UInt8 := 0x20
def rsyncDeflatedTokenrunLong : UInt8 := 0x21
def rsyncDeflatedData : UInt8 := 0x40
def rsyncDeflatedTokenRel : UInt8 := 0x80
def rsyncDeflatedTokenrunRel : UInt8 := 0xc0
def rsyncDeflatedMaxDataCount : Nat := 16383
def rsyncDeflatedChunkSize : Nat := 32 * 1024
def rsyncZlibSyncTail : Bytes := [0, 0, 0xff, 0xff]

/-! ## Writing -/

structure RsyncDeflatedTokenWriter (flate : Flate) where
  compressor : flate.Deflate
  lastToken : Int := -1
  runStart : Int := 0
  lastRunEnd : Int := 0
  flushPending : Bool := false

namespace RsyncDeflatedTokenWriter

variable {flate : Flate}

def new (level : Nat) : RsyncDeflatedTokenWriter flate :=
  { compressor := flate.deflateNew (min level 9) }

def writeDeflatedDataChunks (bytes : Bytes) : Writer Unit :=
  (chunks rsyncDeflatedMaxDataCount bytes).forM fun chunk => do
    writeAll [rsyncDeflatedData + UInt8.ofNat (chunk.length / 256), UInt8.ofNat chunk.length]
    writeAll chunk

def writeDeflated (w : RsyncDeflatedTokenWriter flate) (input : Bytes) (flush : FlateFlush) :
    Writer (RsyncDeflatedTokenWriter flate) := do
  let (output, compressor) ← Prog.ofExcept (flate.deflate w.compressor input flush)
  if flush = .sync then
    if rsyncZlibSyncTail <:+ output then
      writeDeflatedDataChunks (output.take (output.length - rsyncZlibSyncTail.length))
      pure { w with compressor }
    else throw (.io .invalidData "rsync compressed sync flush omitted zlib tail")
  else
    writeDeflatedDataChunks output
    pure { w with compressor }

def checkedRunI32 (value : Int) (message : String) : Writer Int :=
  match checkedI32 value with
  | some v => pure v
  | none => throw (.io .invalidData message)

/-- The head of a run: relative to the end of the last one where that is short,
else in full. -/
def writeRunStart (w : RsyncDeflatedTokenWriter flate) (relative runLen : Int) : Writer Unit :=
  if 0 ≤ relative ∧ relative ≤ 63 then
    writeAll [(if runLen = 0 then rsyncDeflatedTokenRel else rsyncDeflatedTokenrunRel) +
      UInt8.ofNat relative.toNat]
  else do
    writeAll [if runLen = 0 then rsyncDeflatedTokenLong else rsyncDeflatedTokenrunLong]
    writeI32Le w.runStart

def writePendingRun (w : RsyncDeflatedTokenWriter flate) : Writer Unit := do
  let relative ← checkedRunI32 (w.runStart - w.lastRunEnd) "rsync compressed token run underflowed"
  let runLen ← checkedRunI32 (w.lastToken - w.runStart)
    "rsync compressed token run length underflowed"
  if runLen > u16Max then
    throw (.io .invalidData "rsync compressed token run exceeded u16 range")
  else
    writeRunStart w relative runLen
    if runLen ≠ 0 then writeAll (leBytes 2 (ofSigned 32 runLen)) else pure ()

/-- What precedes a token: a fresh start, or the run that it does not continue. -/
def startToken (w : RsyncDeflatedTokenWriter flate) (token : Int) (data : Bytes) :
    Writer (RsyncDeflatedTokenWriter flate) :=
  if w.lastToken = -1 then
    pure { w with
      compressor := flate.deflateReset w.compressor
      lastRunEnd := 0
      runStart := token
      flushPending := false }
  else if w.lastToken = -2 then pure { w with runStart := token }
  else if data ≠ [] ∨ checkedI32 (w.lastToken + 1) ≠ some token ∨
      (checkedI32 (w.runStart + 65536)).all (fun limit => token ≥ limit) then do
    writePendingRun w
    pure { w with lastRunEnd := w.lastToken, runStart := token }
  else pure w

def flushData (w : RsyncDeflatedTokenWriter flate) (token : Int) (data : Bytes) :
    Writer (RsyncDeflatedTokenWriter flate) :=
  if data ≠ [] then do
    let w ← writeDeflated w data .none
    pure { w with flushPending := true }
  else if w.flushPending ∧ token ≠ -2 then do
    let w ← writeDeflated w [] .sync
    pure { w with flushPending := false }
  else pure w

def sendToken (w : RsyncDeflatedTokenWriter flate) (token : Int) (data : Bytes) :
    Writer (RsyncDeflatedTokenWriter flate) := do
  let w ← startToken w token data
  let w ← flushData { w with lastToken := token } token data
  if token = -1 then
    writeAll [rsyncDeflatedEndFlag]
    pure w
  else pure w

def sendLiteral (w : RsyncDeflatedTokenWriter flate) (literal : Bytes) :
    Writer (RsyncDeflatedTokenWriter flate) :=
  (chunks rsyncDeflatedChunkSize literal).foldlM (fun w chunk => sendToken w (-2) chunk) w

def sendCopy (w : RsyncDeflatedTokenWriter flate) (blockIndex : Nat) :
    Writer (RsyncDeflatedTokenWriter flate) :=
  if blockIndex > i32Max then
    throw (.io .invalidInput "rsync compressed copy token exceeded i32 range")
  else sendToken w blockIndex []

def finish (w : RsyncDeflatedTokenWriter flate) : Writer (RsyncDeflatedTokenWriter flate) :=
  sendToken w (-1) []

end RsyncDeflatedTokenWriter

/-! ## Reading -/

structure RsyncDeflatedTokenReader (flate : Flate) where
  mode : RsyncDeflatedTokenMode
  decompressor : flate.Inflate
  rxToken : Int := 0
  rxRun : Nat := 0
  needsSyncTail : Bool := false
  savedFlag : Option UInt8 := none

namespace RsyncDeflatedTokenReader

variable {flate : Flate}

def new (mode : RsyncDeflatedTokenMode) : RsyncDeflatedTokenReader flate :=
  { mode, decompressor := flate.inflateNew }

def resetFile (r : RsyncDeflatedTokenReader flate) : RsyncDeflatedTokenReader flate :=
  { r with
    decompressor := flate.inflateReset r.decompressor
    rxToken := 0
    rxRun := 0
    needsSyncTail := false
    savedFlag := none }

def inflateBytes (r : RsyncDeflatedTokenReader flate) (input : Bytes) (flush : FlateFlush) :
    Except Error (Bytes × RsyncDeflatedTokenReader flate) :=
  match flate.inflate r.decompressor input flush with
  | .ok (output, decompressor) => .ok (output, { r with decompressor })
  | .error e => .error e

def copyToken (rxToken : Int) : Reader RsyncDeflatedToken :=
  if rxToken < 0 then throw (.io .invalidData "rsync compressed copy token did not fit usize")
  else pure (.copy rxToken.toNat)

def takeFlag (r : RsyncDeflatedTokenReader flate) :
    Reader (UInt8 × RsyncDeflatedTokenReader flate) :=
  match r.savedFlag with
  | some flag => pure (flag, { r with savedFlag := none })
  | none => do
      let flag ← readU8
      pure (flag, r)

def readRxToken (r : RsyncDeflatedTokenReader flate) (flag : UInt8) : Reader Int :=
  if flag &&& rsyncDeflatedTokenRel ≠ 0 then
    match checkedI32 (r.rxToken + (flag &&& 0x3f).toNat) with
    | some token => pure token
    | none => throw (.io .invalidData "rsync compressed relative token overflowed")
  else do
    let token ← readI32Le
    if token < 0 then
      throw (.io .invalidData "rsync compressed stream contained a negative token number")
    else pure token

def readRxRun (r : RsyncDeflatedTokenReader flate) (flag : UInt8) : Reader Nat :=
  let tokenFlag := if flag &&& rsyncDeflatedTokenRel ≠ 0 then flag >>> 6 else flag
  if tokenFlag &&& 1 ≠ 0 then do
    let lo ← readU8
    let hi ← readU8
    pure (lo.toNat + hi.toNat * 256)
  else pure r.rxRun

/-- A flag that is not data: the end of the file or a copy token. -/
def readTokenFlag (r : RsyncDeflatedTokenReader flate) (flag : UInt8) :
    Reader (RsyncDeflatedToken × RsyncDeflatedTokenReader flate) :=
  if flag = rsyncDeflatedEndFlag then pure (.finish, r.resetFile)
  else do
    let rxToken ← readRxToken r flag
    let rxRun ← readRxRun r flag
    let token ← copyToken rxToken
    pure (token, { r with rxToken, rxRun })

def rxRunOverflow : Error := .io .invalidData "rsync compressed token run overflowed"

/-- Chunks that inflate to nothing are skipped; the counter bounds how many. -/
def nextToken : Nat → RsyncDeflatedTokenReader flate →
    Reader (RsyncDeflatedToken × RsyncDeflatedTokenReader flate)
  | 0, _ => throw (.panic "out of fuel")
  | fuel + 1, r =>
      if r.rxRun > 0 then
        match checkedI32 (r.rxToken + 1) with
        | none => throw rxRunOverflow
        | some rxToken => do
            let token ← copyToken rxToken
            pure (token, { r with rxToken, rxRun := r.rxRun - 1 })
      else do
        let (flag, r) ← takeFlag r
        if flag &&& 0xc0 = rsyncDeflatedData then do
          let low ← readU8
          let compressed ← readExact ((flag &&& 0x3f).toNat * 256 + low.toNat)
          let (literal, r) ← Prog.ofExcept (r.inflateBytes compressed .none)
          if literal ≠ [] then pure (.literal literal, { r with needsSyncTail := true })
          else nextToken fuel { r with needsSyncTail := true }
        else if r.needsSyncTail then do
          let (literal, r) ← Prog.ofExcept (r.inflateBytes rsyncZlibSyncTail .sync)
          if literal ≠ [] then
            pure (.literal literal, { r with needsSyncTail := false, savedFlag := some flag })
          else readTokenFlag { r with needsSyncTail := false } flag
        else readTokenFlag r flag

/-- A stored block, so that copied data enters the decompressor's history. -/
def storedBlock (chunk : Bytes) : Bytes :=
  [0, UInt8.ofNat chunk.length, UInt8.ofNat (chunk.length / 256),
    ~~~UInt8.ofNat chunk.length, ~~~UInt8.ofNat (chunk.length / 256)] ++ chunk

def observeCopyData (r : RsyncDeflatedTokenReader flate) (bytes : Bytes) :
    Except Error (RsyncDeflatedTokenReader flate) :=
  if r.mode ≠ .zlib ∨ bytes = [] then .ok r
  else
    (chunks u16Max bytes).foldlM (fun r chunk => do
      let (_, r) ← r.inflateBytes (storedBlock chunk) .sync
      pure r) r

/-! ## Which byte a token came from

A flag may be set aside while the inflated rest of a literal is handed out, so
the end of a file is not always the read just made. What does hold is that a
flag set aside is the last byte heard. -/

def Flagged (r : RsyncDeflatedTokenReader flate) (heard : List Bytes) : Prop :=
  ∀ flag, r.savedFlag = some flag → heard.getLast? = some [flag]

theorem hears_readU8 {reads : List Bytes} {b : UInt8} (h : Hears readU8 reads b) :
    reads = [[b]] := by
  obtain ⟨xs, ys, bs, rfl, hx, hy⟩ := hears_bind h
  obtain ⟨rfl, hlen⟩ := hears_readExact hx
  obtain ⟨rfl, rfl⟩ := hears_ret hy
  match bs, hlen with
  | [c], _ => rfl

theorem hears_takeFlag {r r' : RsyncDeflatedTokenReader flate} {reads heard : List Bytes}
    {flag : UInt8} (h : Hears (takeFlag r) reads (flag, r')) (hr : Flagged r heard) :
    (heard ++ reads).getLast? = some [flag] ∧ r'.savedFlag = none := by
  unfold takeFlag at h
  cases hsaved : r.savedFlag with
  | some f =>
      rw [hsaved] at h
      obtain ⟨rfl, hpair⟩ := hears_ret h
      obtain ⟨rfl, rfl⟩ := Prod.mk.inj hpair
      exact ⟨by simpa using hr flag hsaved, rfl⟩
  | none =>
      rw [hsaved] at h
      obtain ⟨xs, ys, b, rfl, hx, hy⟩ := hears_bind h
      obtain rfl := hears_readU8 hx
      obtain ⟨rfl, hpair⟩ := hears_ret hy
      obtain ⟨rfl, rfl⟩ := Prod.mk.inj hpair
      exact ⟨by simp, hsaved⟩

/-- What one token leaves behind. -/
structure TokenRead (token : RsyncDeflatedToken) (r : RsyncDeflatedTokenReader flate)
    (heard : List Bytes) : Prop where
  flagged : Flagged r heard
  ended : token = .finish → heard.getLast? = some [rsyncDeflatedEndFlag]
  literal : token ≠ .literal []

theorem hears_copyToken {rxToken : Int} {reads : List Bytes} {token : RsyncDeflatedToken}
    (h : Hears (copyToken rxToken) reads token) : reads = [] ∧ token = .copy rxToken.toNat := by
  unfold copyToken at h
  split at h
  · exact h.elim
  · exact hears_ret h

theorem hears_readTokenFlag {r r' : RsyncDeflatedTokenReader flate} {flag : UInt8}
    {reads heard : List Bytes} {token : RsyncDeflatedToken} (hsaved : r.savedFlag = none)
    (hflag : heard.getLast? = some [flag])
    (h : Hears (readTokenFlag r flag) reads (token, r')) : TokenRead token r' (heard ++ reads) := by
  unfold readTokenFlag at h
  split at h
  · rename_i hend
    obtain ⟨rfl, hpair⟩ := hears_ret h
    obtain ⟨rfl, rfl⟩ := Prod.mk.inj hpair
    refine ⟨by simp [Flagged, resetFile], fun _ => ?_, by simp⟩
    rw [List.append_nil, hflag, hend]
  · obtain ⟨xs, ys, rxToken, rfl, -, h⟩ := hears_bind h
    obtain ⟨us, vs, rxRun, rfl, -, h⟩ := hears_bind h
    obtain ⟨ws, zs, copy, rfl, hcopy, h⟩ := hears_bind h
    obtain ⟨rfl, rfl⟩ := hears_copyToken hcopy
    obtain ⟨rfl, hpair⟩ := hears_ret h
    obtain ⟨rfl, rfl⟩ := Prod.mk.inj hpair
    exact ⟨by simp [Flagged, hsaved], by simp, by simp⟩

theorem inflateBytes_savedFlag {r r' : RsyncDeflatedTokenReader flate} {input output : Bytes}
    {flush : FlateFlush} (h : r.inflateBytes input flush = .ok (output, r')) :
    r'.savedFlag = r.savedFlag := by
  unfold inflateBytes at h
  split at h
  · obtain ⟨-, rfl⟩ := Prod.mk.inj (Except.ok.inj h)
    rfl
  · cases h

/-- Induction on the chunks that inflate to nothing. -/
theorem hears_nextToken : ∀ {fuel : Nat} {r r' : RsyncDeflatedTokenReader flate}
    {reads heard : List Bytes} {token : RsyncDeflatedToken},
    Hears (nextToken fuel r) reads (token, r') → Flagged r heard →
      TokenRead token r' (heard ++ reads)
  | 0, _, _, _, _, _, h, _ => h.elim
  | fuel + 1, r, r', reads, heard, token, h, hr => by
      unfold nextToken at h
      split at h
      · -- inside a run of copies nothing is read
        split at h
        · exact h.elim
        · obtain ⟨xs, ys, copy, rfl, hcopy, h⟩ := hears_bind h
          obtain ⟨rfl, rfl⟩ := hears_copyToken hcopy
          obtain ⟨rfl, hpair⟩ := hears_ret h
          obtain ⟨rfl, rfl⟩ := Prod.mk.inj hpair
          exact ⟨by simpa [Flagged] using hr, by simp, by simp⟩
      · obtain ⟨xs, ys, ⟨flag, r₁⟩, rfl, hflag, hrest⟩ := hears_bind h
        obtain ⟨hlast, hsaved⟩ := hears_takeFlag hflag hr
        rw [← List.append_assoc]
        dsimp only at hrest
        split at hrest
        · obtain ⟨us, vs, low, rfl, -, hdata⟩ := hears_bind hrest
          obtain ⟨ws, zs, compressed, rfl, -, hchunk⟩ := hears_bind hdata
          obtain ⟨es, fs, ⟨literal, r₂⟩, rfl, hof, htoken⟩ := hears_bind hchunk
          obtain ⟨rfl, hinflate⟩ := hears_ofExcept hof
          have hsaved₂ : r₂.savedFlag = none := (inflateBytes_savedFlag hinflate).trans hsaved
          dsimp only at htoken
          split at htoken
          · rename_i hne
            obtain ⟨rfl, hpair⟩ := hears_ret htoken
            obtain ⟨rfl, rfl⟩ := Prod.mk.inj hpair
            exact ⟨by simp [Flagged, hsaved₂], by simp, by simpa using hne⟩
          · simp only [← List.append_assoc]
            exact hears_nextToken htoken (by simp [Flagged, hsaved₂])
        · split at hrest
          · obtain ⟨us, vs, ⟨literal, r₂⟩, rfl, hof, htoken⟩ := hears_bind hrest
            obtain ⟨rfl, hinflate⟩ := hears_ofExcept hof
            have hsaved₂ : r₂.savedFlag = none := (inflateBytes_savedFlag hinflate).trans hsaved
            dsimp only at htoken
            split at htoken
            · rename_i hne
              obtain ⟨rfl, hpair⟩ := hears_ret htoken
              obtain ⟨rfl, rfl⟩ := Prod.mk.inj hpair
              refine ⟨?_, by simp, by simpa using hne⟩
              intro f hf
              obtain rfl := Option.some.inj hf
              simpa using hlast
            · exact hears_readTokenFlag (by exact hsaved₂) hlast htoken
          · exact hears_readTokenFlag hsaved hlast hrest

theorem observeCopyData_savedFlag {r r' : RsyncDeflatedTokenReader flate} {bytes : Bytes}
    (h : r.observeCopyData bytes = .ok r') : r'.savedFlag = r.savedFlag := by
  have hfold : ∀ (l : List Bytes) (r r' : RsyncDeflatedTokenReader flate),
      l.foldlM (fun r chunk => do
        let (_, r) ← r.inflateBytes (storedBlock chunk) .sync
        pure r) r = .ok r' → r'.savedFlag = r.savedFlag := by
    intro l
    induction l with
    | nil =>
        intro r r' h
        exact congrArg savedFlag (Except.ok.inj h).symm
    | cons chunk l ih =>
        intro r r' h
        rw [List.foldlM_cons] at h
        cases hone : r.inflateBytes (storedBlock chunk) .sync with
        | error e =>
            rw [hone] at h
            cases h
        | ok x =>
            rw [hone] at h
            exact (ih x.2 r' h).trans (inflateBytes_savedFlag hone)
  unfold observeCopyData at h
  split at h
  · rw [Except.ok.inj h]
  · exact hfold _ _ _ h

end RsyncDeflatedTokenReader

end RsyncWin
