import RsyncWin.Protocol.Deflated
import RsyncWin.Transfer.Checksum
import RsyncWin.Transfer.SumHead
import Mathlib.Data.List.Destutter
import Mathlib.Data.List.Sort

/-!
# Signatures and the delta sender (`rsync-cli/src/transfer/{limits,delta,tokens}.rs`)

The receiver cuts its basis file into blocks and sends a signature of each; the
sender slides a window over its own file and answers with literals and block
indices. Files are read piece by piece, however short the reads are. What only
feeds the progress display is left out.
-/

namespace RsyncWin

open ByteString Codec Duplex

/-! ## Limits -/

def ensureAllocationWithinLimit (label : String) (bytes : Nat) (maxAlloc : Option Nat) :
    Except Error Unit :=
  match maxAlloc with
  | none => .ok ()
  | some limit =>
      if limit > 0 ∧ bytes > limit then
        .error (.other
          s!"{label} would require a {bytes} byte allocation, exceeding --max-alloc={limit}")
      else .ok ()

/-- `size_of::<BlockSignature>()` on a 64-bit target. -/
def blockSignatureSize : Nat := 56

def ensureSignatureTableBudget (label : String) (blockCount checksumLen : Nat)
    (maxAlloc : Option Nat) : Except Error Unit :=
  if blockSignatureSize + checksumLen > usizeMax ∨
      blockCount * (blockSignatureSize + checksumLen) > usizeMax then
    .error (.other "signature table allocation estimate overflow")
  else
    ensureAllocationWithinLimit label (blockCount * (blockSignatureSize + checksumLen)) maxAlloc

def ensureBasisCopyBudget (sumHead : RemoteSumHead) (maxAlloc : Option Nat) : Except Error Unit :=
  match validateSumHead sumHead with
  | .error e => .error e
  | .ok () =>
      if sumHead.blockCount = 0 then .ok ()
      else ensureAllocationWithinLimit "basis copy block" sumHead.blockLen maxAlloc

def checkTransferDeadline : Option Nat → Session Unit
  | none => pure ()
  | some deadline => do
      let now ← perform .now
      if now ≥ deadline then throw (.other "transfer stop deadline reached") else pure ()

/-! ## Signatures -/

structure BlockSignature where
  index : Nat
  offset : Nat
  len : Nat
  weak : Nat
  strong : Bytes
deriving DecidableEq, Repr

def readSignatures (sumHead : RemoteSumHead) : Nat → Nat → Reader (List BlockSignature)
  | 0, _ => pure []
  | count + 1, index => do
      let weak ← readI32Le
      let strong ← readExact sumHead.checksumLen
      let (offset, len) ← Prog.ofExcept (blockSpan sumHead index)
      let signatures ← readSignatures sumHead count (index + 1)
      pure (⟨index, offset, len, ofSigned 32 weak, strong⟩ :: signatures)

def readRemoteBlockSignaturesFromReader (sumHead : RemoteSumHead) (maxAlloc : Option Nat) :
    Reader (List BlockSignature) := do
  Prog.ofExcept (validateSumHead sumHead)
  Prog.ofExcept (ensureSignatureTableBudget "remote signature table" sumHead.blockCount
    sumHead.checksumLen maxAlloc)
  readSignatures sumHead sumHead.blockCount 0

def writeRemoteBlockSignatures (signatures : List BlockSignature) : Writer Unit :=
  signatures.forM fun signature => do
    writeI32Le (asI32 signature.weak)
    writeAll signature.strong

/-- `while read < block_size { read; if 0 break }`: the next block of a file. -/
def readBlock (blockSize : Nat) : Nat → FileReader → Bytes → Bytes × FileReader
  | 0, file, block => (block, file)
  | fuel + 1, file, block =>
      if block.length < blockSize then
        let (chunk, file) := file.read (blockSize - block.length)
        if chunk = [] then (block, file) else readBlock blockSize fuel file (block ++ chunk)
      else (block, file)

section Signatures

variable (hashes : Hashes) (checksum : RemoteFileChecksum)

def blockSignature (index offset : Nat) (block : Bytes) : BlockSignature :=
  ⟨index, offset, block.length, rollingChecksum block, strongDigest hashes checksum 16 block⟩

def generateSignatures (blockSize : Nat) : Nat → FileReader → Nat → Nat →
    Except Error (List BlockSignature)
  | 0, _, _, _ => .ok []
  | fuel + 1, file, index, offset =>
      let (block, file) := readBlock blockSize (file.rest.length + 1) file []
      if block = [] then .ok []
      else if offset + block.length > usizeMax then
        .error (.other "basis signature offset overflow")
      else if block.length < blockSize then .ok [blockSignature hashes checksum index offset block]
      else do
        let signatures ← generateSignatures blockSize fuel file (index + 1) (offset + block.length)
        .ok (blockSignature hashes checksum index offset block :: signatures)

def generateSignaturesFromPath (path : LocalPath) (blockSize : Nat) :
    Session (List BlockSignature) :=
  if blockSize = 0 then throw (.other "remote delta block size must be greater than zero")
  else do
    let file ← perform (.openFile path)
    Prog.ofExcept (generateSignatures hashes checksum blockSize (file.rest.length + 1) file 0 0)

/-- The request for a file that has no usable basis. -/
def emptySumHead (blockSize : Nat) : RemoteSumHead := ⟨0, blockSize, 16, 0⟩

def basisSignatureRequest (path : LocalPath) (blockSize fileLen : Nat) (maxAlloc : Option Nat) :
    Session (RemoteSumHead × List BlockSignature) :=
  if blockSize = 0 then throw (.panic "attempt to subtract with overflow")
  else if fileLen + (blockSize - 1) > usizeMax then
    throw (.other "basis signature block count overflow")
  else do
    Prog.ofExcept (ensureSignatureTableBudget "basis signature table"
      ((fileLen + (blockSize - 1)) / blockSize) 16 maxAlloc)
    Prog.ofExcept (ensureAllocationWithinLimit "basis checksum block" blockSize maxAlloc)
    let signatures ← generateSignaturesFromPath hashes checksum path blockSize
    if signatures = [] then pure (emptySumHead blockSize, [])
    else pure (⟨signatures.length, blockSize, 16, fileLen % blockSize⟩, signatures)

def localBasisSignatureRequest (path : LocalPath) (blockSize : Nat) (wholeFile : Bool)
    (maxAlloc : Option Nat) : Session (RemoteSumHead × List BlockSignature) :=
  if wholeFile then pure (emptySumHead blockSize, [])
  else do
    match ← loc (L := localSig) (.fileLen path) with
    | .ok (some fileLen) =>
        basisSignatureRequest hashes checksum path blockSize fileLen maxAlloc
    | _ => pure (emptySumHead blockSize, [])

end Signatures

/-! ## Matching -/

structure RemoteSignatureIndex where
  signatures : List BlockSignature
  lengthsDesc : List Nat
  maxLen : Nat

def RemoteSignatureIndex.new (signatures : List BlockSignature) :
    Except Error RemoteSignatureIndex :=
  let lengths := (signatures.map (·.len)).filter (0 < ·)
  let lengthsDesc := (lengths.insertionSort (· ≥ ·)).destutter (· ≠ ·)
  let maxLen := lengthsDesc.headD 0
  if maxLen = 0 then
    .error (.other "remote delta signatures did not include any non-empty blocks")
  else .ok ⟨signatures, lengthsDesc, maxLen⟩

def RemoteSignatureIndex.findMatch (index : RemoteSignatureIndex) (strong : Bytes → Bytes)
    (window : Bytes) : Option BlockSignature :=
  index.lengthsDesc.findSome? fun len =>
    if window.length < len then none
    else
      let candidate := window.take len
      index.signatures.find? fun signature =>
        signature.len = len ∧ signature.weak = rollingChecksum candidate ∧
          signature.strong = strong candidate

/-! ## Sending -/

structure RemoteDeltaStats where
  literalBytes : Nat := 0
  copiedBytes : Nat := 0
deriving DecidableEq, Repr

variable {flate : Flate}

/-- How tokens are written: deflated when a compressor is given. -/
abbrev TokenWriter (flate : Flate) := Option (RsyncDeflatedTokenWriter flate)

def writeLiteralToken (compressor : TokenWriter flate) (literal : Bytes) :
    Writer (TokenWriter flate) :=
  match compressor with
  | some w => do
      let w ← w.sendLiteral literal
      pure (some w)
  | none => do
      writeI32Le (asI32 literal.length)
      writeAll literal
      pure none

def writeCopyToken (compressor : TokenWriter flate) (blockIndex : Nat) :
    Writer (TokenWriter flate) :=
  match compressor with
  | some w => do
      let w ← w.sendCopy blockIndex
      pure (some w)
  | none => do
      let token ← Prog.ofExcept (blockIndexToCopyToken blockIndex)
      writeI32Le token
      pure none

def writeEndToken (compressor : TokenWriter flate) : Writer Unit :=
  match compressor with
  | some w => do
      let _ ← w.finish
      pure ()
  | none => writeI32Le 0

structure DeltaState (flate : Flate) where
  reader : FileReader
  window : Bytes := []
  literal : Bytes := []
  checksum : RemoteChecksumBuilder
  eof : Bool := false
  compressor : TokenWriter flate
  stats : RemoteDeltaStats := {}

def fillDeltaWindow (maxLen : Nat) (stopDeadline : Option Nat) :
    Nat → DeltaState flate → Session (DeltaState flate)
  | 0, s => pure s
  | fuel + 1, s =>
      if s.eof = false ∧ s.window.length < maxLen then do
        checkTransferDeadline stopDeadline
        let (chunk, reader) := s.reader.read (maxLen - s.window.length)
        if chunk = [] then pure { s with reader, eof := true }
        else
          fillDeltaWindow maxLen stopDeadline fuel
            { s with
              reader
              window := s.window ++ chunk
              checksum := s.checksum.update chunk }
      else pure s

def writePendingLiteralToken (s : DeltaState flate) : Session (DeltaState flate) :=
  if s.literal = [] then pure s
  else do
    let compressor ← toMux (writeLiteralToken s.compressor s.literal)
    pure { s with
      compressor
      literal := []
      stats := { s.stats with literalBytes := s.stats.literalBytes + s.literal.length } }

/-- `literal.push(window.remove(0))`, flushed at 32 KiB. -/
def literalStep (s : DeltaState flate) : Session (DeltaState flate) :=
  let s := { s with literal := s.literal ++ s.window.take 1, window := s.window.drop 1 }
  if s.literal.length ≥ 32 * 1024 then writePendingLiteralToken s else pure s

def copyStep (s : DeltaState flate) (signature : BlockSignature) : Session (DeltaState flate) := do
  let s ← writePendingLiteralToken s
  let compressor ← toMux (writeCopyToken s.compressor signature.index)
  pure { s with
    compressor
    window := s.window.drop signature.len
    stats := { s.stats with copiedBytes := s.stats.copiedBytes + signature.len } }

def deltaStep (index : RemoteSignatureIndex) (strong : Bytes → Bytes) (s : DeltaState flate) :
    Session (DeltaState flate) :=
  match index.findMatch strong s.window with
  | some signature => copyStep s signature
  | none => literalStep s

/-- `while !window.is_empty()`. Each round takes at least one byte off the
window, so the counter only has to bound the length of the file. -/
def deltaLoop (index : RemoteSignatureIndex) (strong : Bytes → Bytes) (stopDeadline : Option Nat) :
    Nat → DeltaState flate → Session (DeltaState flate)
  | 0, s => pure s
  | fuel + 1, s =>
      if s.window = [] then pure s
      else do
        checkTransferDeadline stopDeadline
        let s ← deltaStep index strong s
        let s ← fillDeltaWindow index.maxLen stopDeadline (s.reader.rest.length + 1) s
        deltaLoop index strong stopDeadline fuel s

structure RemoteDeltaChecksums where
  block : RemoteFileChecksum
  finalFile : RemoteFinalChecksum

structure TransferLimits where
  maxAlloc : Option Nat := none
  stopDeadline : Option Nat := none

def writeDeltaTokensFromReaderWithChecksum (hashes : Hashes) (reader : FileReader)
    (checksums : RemoteDeltaChecksums) (signatures : List BlockSignature)
    (compressionLevel : Option Nat) (limits : TransferLimits) : Session RemoteDeltaStats := do
  let index ← Prog.ofExcept (RemoteSignatureIndex.new signatures)
  Prog.ofExcept (ensureAllocationWithinLimit "delta match window" index.maxLen limits.maxAlloc)
  Prog.ofExcept (ensureAllocationWithinLimit "delta literal buffer" (32 * 1024) limits.maxAlloc)
  let checksumLen := (signatures.head?.map (·.strong.length)).getD 16
  let strong := strongDigest hashes checksums.block checksumLen
  let start : DeltaState flate :=
    { reader
      checksum := remoteFinalChecksumBuilder checksums.finalFile
      compressor := compressionLevel.map RsyncDeflatedTokenWriter.new }
  let s ← fillDeltaWindow index.maxLen limits.stopDeadline (reader.rest.length + 1) start
  let s ← deltaLoop index strong limits.stopDeadline (reader.rest.length + 1) s
  let s ← writePendingLiteralToken s
  toMux (writeEndToken s.compressor)
  toMux (writeAll (s.checksum.finalize hashes))
  pure s.stats

/-- `loop { read; if 0 break; update; write }`, the counter bounding the reads. -/
def literalLoop (stopDeadline : Option Nat) : Nat → FileReader → RemoteChecksumBuilder →
    TokenWriter flate → Nat → Session (RemoteChecksumBuilder × TokenWriter flate × Nat)
  | 0, _, checksum, compressor, total => pure (checksum, compressor, total)
  | fuel + 1, reader, checksum, compressor, total => do
      checkTransferDeadline stopDeadline
      let (chunk, reader) := reader.read (32 * 1024)
      if chunk = [] then pure (checksum, compressor, total)
      else do
        let compressor ← toMux (writeLiteralToken compressor chunk)
        literalLoop stopDeadline fuel reader (checksum.update chunk) compressor
          (total + chunk.length)

def writeLiteralTokensFromReaderWithChecksum (hashes : Hashes) (reader : FileReader)
    (checksum : RemoteFinalChecksum) (compressionLevel : Option Nat) (stopDeadline : Option Nat) :
    Session Nat := do
  let compressor : TokenWriter flate := compressionLevel.map RsyncDeflatedTokenWriter.new
  let (checksum, compressor, total) ←
    literalLoop stopDeadline (reader.rest.length + 1) reader (remoteFinalChecksumBuilder checksum)
      compressor 0
  toMux (writeEndToken compressor)
  toMux (writeAll (checksum.finalize hashes))
  pure total

/-- `compressionLevel` is `level_for_path` of the file. -/
def writeDeltaTokensFromPath (flate : Flate) (hashes : Hashes) (checksums : RemoteDeltaChecksums)
    (path : LocalPath) (signatures : List BlockSignature) (compressionLevel : Option Nat)
    (limits : TransferLimits) : Session RemoteDeltaStats := do
  checkTransferDeadline limits.stopDeadline
  let file ← perform (.openFile path)
  if signatures = [] then do
    let literalBytes ← @writeLiteralTokensFromReaderWithChecksum flate hashes file
      checksums.finalFile compressionLevel limits.stopDeadline
    pure { literalBytes }
  else
    @writeDeltaTokensFromReaderWithChecksum flate hashes file checksums signatures
      compressionLevel limits

end RsyncWin
