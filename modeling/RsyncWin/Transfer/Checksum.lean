import RsyncWin.Transfer.Local

/-!
# Checksums (`rsync-cli/src/transfer/checksum.rs`, `rsync-delta/src/rollsum.rs`)

MD4 and MD5 come from outside the repository. Feeding one of them piece by
piece digests the concatenation of the pieces, so a hasher at work is the bytes
fed so far, and a hash function is what `finalize` makes of them. Everything
around them (seeds, prefixes, truncation) is the source's.
-/

namespace RsyncWin

open ByteString Codec Duplex

structure Hasher where
  digest : Bytes → Bytes
  digest_length : ∀ bytes, (digest bytes).length = 16

structure Hashes where
  md4 : Hasher
  md5 : Hasher

inductive RemoteChecksumAlgorithm where
  | md4
  | md5
deriving DecidableEq, Repr

inductive RemoteFileChecksum where
  | seededMd4 (seed : Int)
  | plainMd4
  | seededMd5 (seed : Int)
  | plainMd5
deriving DecidableEq, Repr

def Hashes.hasher (hashes : Hashes) : RemoteChecksumAlgorithm → Hasher
  | .md4 => hashes.md4
  | .md5 => hashes.md5

def RemoteFileChecksum.algorithm : RemoteFileChecksum → RemoteChecksumAlgorithm
  | .seededMd4 _ => .md4
  | .plainMd4 => .md4
  | .seededMd5 _ => .md5
  | .plainMd5 => .md5

inductive RemoteFinalChecksum where
  | plainMd4
  | seededMd4Prefix (seed : Int)
  | plainMd5
deriving DecidableEq, Repr

def RemoteFinalChecksum.protocol31ForAlgorithm : RemoteChecksumAlgorithm → RemoteFinalChecksum
  | .md4 => .plainMd4
  | .md5 => .plainMd5

/-- `seed.to_le_bytes()`. -/
def seedBytes (seed : Int) : Bytes := leBytes 4 (ofSigned 32 seed)

/-- A hasher at work, and the seed it is finished with. -/
structure RemoteChecksumBuilder where
  algorithm : RemoteChecksumAlgorithm
  fed : Bytes := []
  seed : Option Int := none
deriving DecidableEq

def RemoteChecksumBuilder.update (b : RemoteChecksumBuilder) (bytes : Bytes) :
    RemoteChecksumBuilder :=
  { b with fed := b.fed ++ bytes }

def remoteFileChecksumBuilder : RemoteFileChecksum → RemoteChecksumBuilder
  | .seededMd4 seed => ⟨.md4, [], if seed ≠ 0 then some seed else none⟩
  | .plainMd4 => ⟨.md4, [], none⟩
  | .seededMd5 seed => ⟨.md5, [], some seed⟩
  | .plainMd5 => ⟨.md5, [], none⟩

def remoteFinalChecksumBuilder : RemoteFinalChecksum → RemoteChecksumBuilder
  | .plainMd4 => ⟨.md4, [], none⟩
  | .seededMd4Prefix seed => ⟨.md4, if seed ≠ 0 then seedBytes seed else [], none⟩
  | .plainMd5 => ⟨.md5, [], none⟩

section Digests

variable (hashes : Hashes)

def RemoteChecksumBuilder.finalize (b : RemoteChecksumBuilder) : Bytes :=
  (hashes.hasher b.algorithm).digest (b.fed ++ (b.seed.map seedBytes).getD [])

def remoteChecksumForBytes (checksum : RemoteFileChecksum) (bytes : Bytes) : Bytes :=
  ((remoteFileChecksumBuilder checksum).update bytes).finalize hashes

/-- `RsyncStrongChecksum::digest`. -/
def strongDigest (checksum : RemoteFileChecksum) (checksumLen : Nat) (block : Bytes) : Bytes :=
  (remoteChecksumForBytes hashes checksum block).take (min checksumLen 16)

/-- The final checksum of a whole file. -/
def finalDigest (checksum : RemoteFinalChecksum) (content : Bytes) : Bytes :=
  ((remoteFinalChecksumBuilder checksum).update content).finalize hashes

end Digests

/-- `loop { read; if 0 break; update }` over an open file. The counter bounds
the reads, each of which returns at least one byte. -/
def checksumReader : Nat → FileReader → RemoteChecksumBuilder → RemoteChecksumBuilder
  | 0, _, checksum => checksum
  | fuel + 1, file, checksum =>
      let (chunk, file) := file.read (32 * 1024)
      if chunk = [] then checksum else checksumReader fuel file (checksum.update chunk)

def remoteFileChecksumForPath (hashes : Hashes) (checksum : RemoteFinalChecksum)
    (path : LocalPath) : Session Bytes := do
  let file ← perform (.openFile path)
  let checksum := checksumReader (file.rest.length + 1) file (remoteFinalChecksumBuilder checksum)
  pure (checksum.finalize hashes)

/-! ## The rolling checksum -/

def modU16 (value : Int) : Nat := (value % 65536).toNat

def signedByte (byte : UInt8) : Int := toSigned 8 byte.toNat

/-- One byte of `RollingChecksum::from_block`: the plain sum and the sum of
sums. -/
def rollingStep (sums : Nat × Nat) (byte : UInt8) : Nat × Nat :=
  let a := modU16 (sums.1 + signedByte byte)
  (a, modU16 (sums.2 + a))

def rollingSums (block : Bytes) : Nat × Nat := block.foldl rollingStep (0, 0)

def rollingChecksum (block : Bytes) : Nat :=
  let (a, b) := rollingSums block
  b * 65536 + a

theorem modU16_lt (v : Int) : modU16 v < 65536 := by
  unfold modU16
  omega

theorem rollingStep_lt : ∀ {block : Bytes} {sums : Nat × Nat}, sums.1 < 65536 → sums.2 < 65536 →
    (block.foldl rollingStep sums).1 < 65536 ∧ (block.foldl rollingStep sums).2 < 65536
  | [], _, h1, h2 => ⟨h1, h2⟩
  | byte :: block, sums, _, _ => by
      exact @rollingStep_lt block (rollingStep sums byte) (modU16_lt _)
        (modU16_lt (sums.2 + modU16 (sums.1 + signedByte byte)))

/-! ## Streaming -/

@[simp] theorem RemoteChecksumBuilder.update_update (b : RemoteChecksumBuilder) (x y : Bytes) :
    (b.update x).update y = b.update (x ++ y) := by
  simp [update]

@[simp] theorem RemoteChecksumBuilder.update_nil (b : RemoteChecksumBuilder) : b.update [] = b := by
  simp [update]

theorem finalDigest_length (hashes : Hashes) (checksum : RemoteFinalChecksum) (content : Bytes) :
    (finalDigest hashes checksum content).length = 16 :=
  Hasher.digest_length _ _

/-- However the file is read, the whole of it goes into the checksum. -/
theorem checksumReader_eq : ∀ {fuel : Nat} {file : FileReader} {checksum : RemoteChecksumBuilder},
    file.rest.length < fuel → checksumReader fuel file checksum = checksum.update file.rest
  | 0, _, _, h => absurd h (by omega)
  | fuel + 1, file, checksum, h => by
      unfold checksumReader
      rcases file.read_cases (show 0 < 32 * 1024 by decide) with
        ⟨file', hread, hrest, -⟩ | ⟨chunk, file', hread, hchunk, hsplit, hpos, -, hlen⟩
      · rw [hread, hrest, RemoteChecksumBuilder.update_nil]
        exact if_pos rfl
      · rw [hread]
        dsimp only
        rw [if_neg hchunk, checksumReader_eq (by omega), RemoteChecksumBuilder.update_update,
          hsplit]

theorem exchange_remoteFileChecksumForPath {hashes : Hashes} {checksum : RemoteFinalChecksum}
    {path : LocalPath} {m : Machine} {content : Bytes} (hcalm : m.faults = [])
    (h : m.files path = some content) :
    Exchange machine (remoteFileChecksumForPath hashes checksum path) m [] []
      (finalDigest hashes checksum content) m := by
  have hserve : m.serve (.openFile path) = (.ok ⟨content, m.cuts⟩, m) := by simp [Machine.serve, h]
  refine (exchange_perform hcalm hserve).bind_ret ?_
  have hread : checksumReader (content.length + 1) ⟨content, m.cuts⟩
      (remoteFinalChecksumBuilder checksum) = (remoteFinalChecksumBuilder checksum).update content :=
    checksumReader_eq (Nat.lt_succ_self _)
  simp only [hread]
  rfl

end RsyncWin
