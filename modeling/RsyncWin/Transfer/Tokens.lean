import RsyncWin.Transfer.Delta

/-!
# Reading an answer (`rsync-cli/src/transfer/tokens.rs`)

The receiver of a file: literals and copies go to the output file as long as
they fit the expected length, and at the end mark the length and the checksum
decide. The plain and the deflated stream have a loop each. Also here, the
sender of append mode, which keeps a prefix of its file to itself.
-/

namespace RsyncWin

open ByteString Codec Duplex

/-! ## Append mode -/

section Append

variable {flate : Flate}

def appendLoop (stopDeadline : Option Nat) : Nat → FileReader → RemoteChecksumBuilder →
    TokenWriter flate → Nat → Nat →
    Session (RemoteChecksumBuilder × TokenWriter flate × Nat × Nat)
  | 0, _, checksum, compressor, remainingPrefix, total =>
      pure (checksum, compressor, remainingPrefix, total)
  | fuel + 1, reader, checksum, compressor, remainingPrefix, total => do
      checkTransferDeadline stopDeadline
      let (chunk, reader) := reader.read (32 * 1024)
      if chunk = [] then pure (checksum, compressor, remainingPrefix, total)
      else
        let checksum := checksum.update chunk
        if remainingPrefix ≥ chunk.length then
          appendLoop stopDeadline fuel reader checksum compressor (remainingPrefix - chunk.length)
            total
        else do
          let literal := chunk.drop remainingPrefix
          let compressor ← toMux (writeLiteralToken compressor literal)
          appendLoop stopDeadline fuel reader checksum compressor 0 (total + literal.length)

def writeAppendVerifyFileTokensFromPath (flate : Flate) (hashes : Hashes)
    (checksum : RemoteFinalChecksum) (path : LocalPath) (prefixLen : Nat)
    (compressionLevel stopDeadline : Option Nat) : Session Nat := do
  let file ← perform (.openFile path)
  let compressor : TokenWriter flate := compressionLevel.map RsyncDeflatedTokenWriter.new
  let (checksum, compressor, remainingPrefix, total) ←
    appendLoop stopDeadline (file.rest.length + 1) file (remoteFinalChecksumBuilder checksum)
      compressor prefixLen 0
  if remainingPrefix > 0 then
    throw (.other "append-verify prefix length exceeds source file length")
  else do
    toMux (writeEndToken compressor)
    toMux (writeAll (checksum.finalize hashes))
    pure total

end Append

/-! ## Receiving -/

/-- Where a file goes and what is known about it. -/
structure TokenTarget where
  path : Bytes
  output : LocalPath
  expectedLen : Nat
  checksum : RemoteFinalChecksum
  stopDeadline : Option Nat := none

def lengthExceeded (t : TokenTarget) (actual : Nat) : Error :=
  .session (.fileLengthExceeded t.path t.expectedLen actual)

/-- The length after `len` more bytes, as long as it stays within bounds. -/
def nextTotal (t : TokenTarget) (total len : Nat) : Except Error Nat :=
  if total + len > u64Max then .error (lengthExceeded t u64Max)
  else if total + len > t.expectedLen then .error (lengthExceeded t (total + len))
  else .ok (total + len)

def readBasisBlock (basis : LocalPath × RemoteSumHead) (blockIndex : Nat) : Session Bytes := do
  let (offset, len) ← Prog.ofExcept (blockSpan basis.2 blockIndex)
  perform (.readAt basis.1 offset len)

def readLiteral (output : LocalPath) : Nat → Nat → Session Unit
  | 0, _ => pure ()
  | fuel + 1, remaining =>
      if remaining = 0 then pure ()
      else do
        let len := min (32 * 1024) remaining
        let buf ← onMux (readExact len)
        perform (.append output buf)
        readLiteral output fuel (remaining - len)

/-- The end mark: length first, then the peer's checksum against our own. -/
def finishTokens (hashes : Hashes) (t : TokenTarget) (total : Nat) : Session Nat := do
  perform (.syncAll t.output)
  if total ≠ t.expectedLen then
    throw (.session (.fileLengthShort t.path t.expectedLen total))
  else do
    let remoteChecksum ← onMux (readExact 16)
    let localChecksum ← remoteFileChecksumForPath hashes t.checksum t.output
    if remoteChecksum ≠ localChecksum then throw (.session (.fileChecksumMismatch t.path))
    else pure total

/-- A copy token of either stream: the bytes of the block. -/
def copyBlock (t : TokenTarget) (basis : Option (LocalPath × RemoteSumHead)) (token : Int)
    (blockIndex : Except Error Nat) : Session Bytes :=
  match basis with
  | none => throw (.session (.unexpectedToken token t.path))
  | some basis => do
      let blockIndex ← Prog.ofExcept blockIndex
      readBasisBlock basis blockIndex

def appendBytes (t : TokenTarget) (total : Nat) (bytes : Bytes) : Session Nat := do
  let total ← Prog.ofExcept (nextTotal t total bytes.length)
  perform (.append t.output bytes)
  pure total

def plainLoop (hashes : Hashes) (t : TokenTarget) (basis : Option (LocalPath × RemoteSumHead)) :
    Nat → Nat → Session Nat
  | 0, _ => throw (.panic "out of fuel")
  | fuel + 1, total => do
      checkTransferDeadline t.stopDeadline
      let token ← onMux readI32Le
      if token > 0 then do
        let next ← Prog.ofExcept (nextTotal t total token.toNat)
        readLiteral t.output token.toNat token.toNat
        plainLoop hashes t basis fuel next
      else if token = 0 then finishTokens hashes t total
      else do
        let bytes ← copyBlock t basis token (copyTokenToBlockIndex token)
        let total ← appendBytes t total bytes
        plainLoop hashes t basis fuel total

section Deflated

variable {flate : Flate}

/-- A copy token of the deflated stream when there is no basis: the error names
the plain token, whose own overflow comes first. -/
def deflatedCopyBlock (t : TokenTarget) (basis : Option (LocalPath × RemoteSumHead))
    (blockIndex : Nat) : Session Bytes :=
  match basis with
  | none => do
      let token ← Prog.ofExcept (blockIndexToCopyToken blockIndex)
      throw (.session (.unexpectedToken token t.path))
  | some basis => readBasisBlock basis blockIndex

def deflatedLoop (hashes : Hashes) (t : TokenTarget) (basis : Option (LocalPath × RemoteSumHead))
    (chunkFuel : Nat) : Nat → RsyncDeflatedTokenReader flate → Nat → Session Nat
  | 0, _, _ => throw (.panic "out of fuel")
  | fuel + 1, reader, total => do
      checkTransferDeadline t.stopDeadline
      let (token, reader) ← onMux (reader.nextToken chunkFuel)
      match token with
      | .literal literal => do
          let total ← appendBytes t total literal
          deflatedLoop hashes t basis chunkFuel fuel reader total
      | .copy blockIndex => do
          let bytes ← deflatedCopyBlock t basis blockIndex
          let reader ← Prog.ofExcept (reader.observeCopyData bytes)
          let total ← appendBytes t total bytes
          deflatedLoop hashes t basis chunkFuel fuel reader total
      | .finish => finishTokens hashes t total

end Deflated

def openBasis (basis : Option (LocalPath × RemoteSumHead)) (maxAlloc : Option Nat) :
    Session (Option (LocalPath × RemoteSumHead)) :=
  match basis with
  | none => pure none
  | some basis =>
      if basis.2.blockCount > 0 then do
        Prog.ofExcept (ensureBasisCopyBudget basis.2 maxAlloc)
        let _ ← perform (.openFile basis.1)
        pure (some basis)
      else pure none

/-- Every token adds at least one byte, so the expected length bounds the
rounds of both loops; `chunkFuel` bounds the compressed chunks that inflate to
nothing. -/
def readFileTokensToPathWithBasis (flate : Flate) (hashes : Hashes) (chunkFuel : Nat)
    (t : TokenTarget) (basis : Option (LocalPath × RemoteSumHead))
    (compression : Option RsyncDeflatedTokenMode) (maxAlloc : Option Nat) : Session Nat := do
  perform (.createDirAll t.output.parent)
  perform (.create t.output)
  let basis ← openBasis basis maxAlloc
  match compression with
  | some mode =>
      deflatedLoop hashes t basis chunkFuel (t.expectedLen + 2)
        (RsyncDeflatedTokenReader.new mode : RsyncDeflatedTokenReader flate) 0
  | none => plainLoop hashes t basis (t.expectedLen + 2) 0

end RsyncWin
