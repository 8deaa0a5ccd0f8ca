import RsyncWin.Transfer.DeltaTokens

/-!
# The signature request of the receiver

What `local_basis_signature_request` computes, and that the sender reads back
exactly what was computed: sum head and signatures survive the wire as long as
block size and block count fit `i32`.
-/

namespace RsyncWin

open ByteString Codec Duplex

variable {m : Machine} {hashes : Hashes} {checksum : RemoteFileChecksum} {b : Nat}

/-! ## Computing signatures -/

section Generate

variable (hashes : Hashes) (checksum : RemoteFileChecksum) (b : Nat)

/-- The signatures of consecutive blocks, the first of them block `i`. -/
def signaturesOf : Nat → List Bytes → List BlockSignature
  | _, [] => []
  | i, block :: blocks => blockSignature hashes checksum i (i * b) block :: signaturesOf (i + 1) blocks

/-- The basis that is asked with: what is at the path, unless whole files are
asked for. -/
def usedBasis (wholeFile : Bool) (file : Option Bytes) : Bytes :=
  if wholeFile then [] else file.getD []

/-- The sum head of a non-empty basis. -/
def sumHeadOf (basis : Bytes) : RemoteSumHead :=
  ⟨(chunks b basis).length, b, 16, basis.length % b⟩

def requestOf (basis : Bytes) : RemoteSumHead × List BlockSignature :=
  if basis = [] then (emptySumHead b, [])
  else (sumHeadOf b basis, signaturesOf hashes checksum b 0 (chunks b basis))

end Generate

theorem length_signaturesOf : ∀ {i : Nat} {blocks : List Bytes},
    (signaturesOf hashes checksum b i blocks).length = blocks.length
  | _, [] => rfl
  | _, _ :: _ => by simp [signaturesOf, length_signaturesOf]

/-- However short the reads, a block is the next `b` bytes of the file. -/
theorem readBlock_eq : ∀ {fuel : Nat} {file : FileReader} {block : Bytes},
    file.rest.length < fuel → block.length ≤ b →
    (readBlock b fuel file block).1 = block ++ file.rest.take (b - block.length) ∧
      (readBlock b fuel file block).2.rest = file.rest.drop (b - block.length)
  | 0, _, _, h, _ => absurd h (by omega)
  | fuel + 1, file, block, hfuel, hblock => by
      unfold readBlock
      by_cases hshort : block.length < b
      · rw [if_pos hshort]
        rcases file.read_cases (show 0 < b - block.length by omega) with
          ⟨file', hread, hrest, hrest'⟩ | ⟨chunk, file', hread, hchunk, hsplit, hpos, hle, hlen⟩
        · rw [hread, hrest]
          exact ⟨by simp, by simpa using hrest'⟩
        · rw [hread]
          dsimp only
          have hrec := @readBlock_eq fuel file' (block ++ chunk) (by omega)
            (by rw [List.length_append]; omega)
          rw [List.length_append] at hrec
          rw [if_neg hchunk, hrec.1, hrec.2, ← hsplit, List.take_append, List.drop_append,
            List.take_of_length_le hle, List.drop_of_length_le hle, List.nil_append,
            List.append_assoc, Nat.sub_sub]
          exact ⟨rfl, rfl⟩
      · rw [if_neg hshort]
        have hzero : b - block.length = 0 := by omega
        rw [hzero]
        exact ⟨by simp, by simp⟩

theorem generateSignatures_eq (hb : 0 < b) : ∀ {fuel i : Nat} {file : FileReader},
    file.rest.length < fuel → i * b + file.rest.length ≤ usizeMax →
    generateSignatures hashes checksum b fuel file i (i * b) =
      .ok (signaturesOf hashes checksum b i (chunks b file.rest))
  | 0, _, _, h, _ => absurd h (by omega)
  | fuel + 1, i, file, hfuel, hsize => by
      unfold generateSignatures
      have hread := @readBlock_eq b (file.rest.length + 1) file [] (Nat.lt_succ_self _) (by simp)
      generalize readBlock b (file.rest.length + 1) file [] = read at hread ⊢
      obtain ⟨block, file'⟩ := read
      dsimp only at hread ⊢
      simp only [List.nil_append, List.length_nil, Nat.sub_zero] at hread
      obtain ⟨rfl, hrest⟩ := hread
      by_cases hnil : file.rest = []
      · simp [hnil, signaturesOf]
      · have hpos : 0 < file.rest.length := List.length_pos_iff.mpr hnil
        have hblock : file.rest.take b ≠ [] := by
          rw [Ne, List.take_eq_nil_iff]
          rintro (h | h)
          · omega
          · exact hnil h
        have hoff : ¬ i * b + (file.rest.take b).length > usizeMax := by
          rw [List.length_take]
          omega
        rw [if_neg hblock, if_neg hoff, chunks_of_ne_nil hb hnil, signaturesOf]
        by_cases hlast : (file.rest.take b).length < b
        · rw [if_pos hlast]
          rw [List.length_take] at hlast
          rw [List.drop_of_length_le (by omega), chunks_nil, signaturesOf]
        · have hlen : (file.rest.take b).length = b := by
            rw [List.length_take] at hlast ⊢
            omega
          rw [List.length_take] at hlast
          have hnext : i * b + b = (i + 1) * b := by ring
          have hrestlen : file'.rest.length = file.rest.length - b := by
            rw [hrest, List.length_drop]
          have hrec := @generateSignatures_eq hb fuel (i + 1) file' (by omega)
            (by rw [← hnext]; omega)
          rw [if_neg (by omega), hlen, hnext, hrec, hrest]
          rfl

/-- What the receiver asks for, whatever its reads of the basis are. -/
theorem exchange_localBasisSignatureRequest {path : LocalPath} {wholeFile : Bool}
    (hcalm : m.faults = []) (hb : 0 < b)
    (hsize : ∀ content, m.files path = some content → content.length + (b - 1) ≤ usizeMax ∧
      (chunks b content).length * 72 ≤ usizeMax) :
    Exchange machine (localBasisSignatureRequest hashes checksum path b wholeFile none) m [] []
      (requestOf hashes checksum b (usedBasis wholeFile (m.files path))) m := by
  unfold localBasisSignatureRequest usedBasis
  by_cases hwhole : wholeFile = true
  · simp only [hwhole, if_true]
    exact exchange_ret _ m
  · rw [if_neg hwhole, if_neg hwhole]
    have hloc : Exchange machine (loc (L := localSig) (.fileLen path)) m [] []
        (.ok ((m.files path).map (·.length))) m :=
      exchange_loc (L := localSig) (machine_of_calm hcalm)
    refine hloc.before ?_
    cases hfile : m.files path with
    | none => exact exchange_ret _ m
    | some content =>
        obtain ⟨hsum, hcount⟩ := hsize content hfile
        have hopen : Exchange machine (perform (.openFile path)) m [] [] ⟨content, m.cuts⟩ m :=
          exchange_perform hcalm (by simp [Machine.serve, hfile])
        have hgen : generateSignatures hashes checksum b (content.length + 1) ⟨content, m.cuts⟩ 0 0 =
            .ok (signaturesOf hashes checksum b 0 (chunks b content)) := by
          have h := @generateSignatures_eq hashes checksum b hb (content.length + 1) 0
            ⟨content, m.cuts⟩ (Nat.lt_succ_self _) (by simp only; omega)
          rwa [Nat.zero_mul] at h
        have hbudget : ¬ (blockSignatureSize + 16 > usizeMax ∨
            (content.length + (b - 1)) / b * (blockSignatureSize + 16) > usizeMax) := by
          rw [← length_chunks hb]
          unfold blockSignatureSize usizeMax at *
          omega
        show Exchange machine (basisSignatureRequest hashes checksum path b content.length none)
          m [] [] _ m
        unfold basisSignatureRequest ensureSignatureTableBudget ensureAllocationWithinLimit
          generateSignaturesFromPath
        rw [if_neg (by omega), if_neg (by omega), if_neg hbudget, if_neg (by omega)]
        simp only [Prog.ofExcept_ok, Prog.ret_bind, Prog.bind_assoc]
        refine hopen.before ?_
        rw [hgen, Prog.ofExcept_ok, Prog.ret_bind]
        rw [Option.getD_some]
        unfold requestOf
        by_cases hnil : content = []
        · have hsigs : signaturesOf hashes checksum b 0 (chunks b content) = [] := by
            rw [hnil, chunks_nil, signaturesOf]
          rw [if_pos hsigs, if_pos hnil]
          exact exchange_ret _ m
        · have hne : signaturesOf hashes checksum b 0 (chunks b content) ≠ [] := by
            rw [chunks_of_ne_nil hb hnil]
            simp [signaturesOf]
          rw [if_neg hne, if_neg hnil, length_signaturesOf]
          exact exchange_ret _ m

/-! ## The request on the wire -/

theorem rollingChecksum_lt (block : Bytes) : rollingChecksum block < 2 ^ 32 := by
  obtain ⟨h1, h2⟩ := @rollingStep_lt block (0, 0) (by simp) (by simp)
  unfold rollingChecksum rollingSums
  dsimp only
  omega

theorem roundTrips_weak {weak : Nat} (h : weak < 2 ^ 32) :
    RoundTrips (writeI32Le (asI32 weak)) () readI32Le (asI32 weak) ∧
      ofSigned 32 (asI32 weak) = weak := by
  have hrange : -2147483648 ≤ asI32 weak ∧ asI32 weak ≤ 2147483647 := by
    unfold asI32 toSigned
    split <;> omega
  refine ⟨roundTrips_i32Le hrange.1 hrange.2, ?_⟩
  unfold asI32
  rw [Nat.mod_eq_of_lt h]
  exact ofSigned_toSigned h

theorem lt_length_chunks {content : Bytes} {i : Nat} (hb : 0 < b) :
    i < (chunks b content).length ↔ i * b < content.length := by
  have hget := chunks_getElem? hb content i
  constructor
  · intro hi
    rw [List.getElem?_eq_getElem hi] at hget
    by_contra hge
    rw [if_neg hge] at hget
    cases hget
  · intro hi
    rw [if_pos hi] at hget
    exact (List.getElem?_eq_some_iff.mp hget).1

theorem chunks_blockAt {content : Bytes} (hb : 0 < b) (j : Nat) (block : Bytes)
    (h : (chunks b content)[j]? = some block) :
    (0 + j) * b < content.length ∧ block = blockAt b content (0 + j) := by
  rw [chunks_getElem? hb] at h
  rw [Nat.zero_add]
  split at h
  · rename_i hj
    exact ⟨hj, (Option.some.inj h).symm⟩
  · cases h

theorem validateSumHead_sumHeadOf {content : Bytes} (hb : 0 < b) :
    validateSumHead (sumHeadOf b content) = .ok () := by
  have hmod := Nat.mod_lt content.length hb
  unfold validateSumHead sumHeadOf
  rw [if_neg (by simp; omega), if_neg (by simp; omega)]

/-- The sum head of a file that was cut into blocks of `b` bytes gives back the
place and length of each block. -/
theorem blockSpan_chunks {content : Bytes} {i : Nat} (hb : 0 < b)
    (hi : i * b < content.length) (hsize : content.length ≤ usizeMax) :
    blockSpan (sumHeadOf b content) i =
      .ok (i * b, (blockAt b content i).length) := by
  have hmod := Nat.mod_lt content.length hb
  have hvalid := @validateSumHead_sumHeadOf b content hb
  have hcount : i < (chunks b content).length := (lt_length_chunks hb).mpr hi
  have hnext := @lt_length_chunks b content (i + 1) hb
  have hstep : (i + 1) * b = i * b + b := by ring
  unfold blockSpan
  rw [hvalid]
  unfold sumHeadOf
  dsimp only
  rw [if_neg (by omega), if_neg (by omega)]
  obtain ⟨k, hk⟩ : ∃ k, content.length = i * b + k := ⟨content.length - i * b, by omega⟩
  have hkmod : content.length % b = k % b := by rw [hk, Nat.mul_add_mod']
  congr 2
  rw [blockAt, List.length_take, List.length_drop, hk, Nat.add_sub_cancel_left, ← hk, hkmod]
  by_cases hlast : i + 1 = (chunks b content).length
  · have hkle : k ≤ b := by
      rw [hstep] at hnext
      omega
    by_cases hzero : k % b = 0
    · rw [if_neg (by simp [hzero])]
      have hkb : k = b := by
        by_contra hne
        rw [Nat.mod_eq_of_lt (by omega)] at hzero
        omega
      omega
    · rw [if_pos ⟨hlast, hzero⟩]
      have hklt : k < b := by
        by_contra hge
        have hkb : k = b := by omega
        rw [hkb, Nat.mod_self] at hzero
        exact hzero rfl
      rw [Nat.mod_eq_of_lt hklt]
      omega
  · rw [if_neg fun h => hlast h.1]
    rw [hstep] at hnext
    omega

theorem writeRemoteBlockSignatures_cons (signature : BlockSignature)
    (signatures : List BlockSignature) :
    writeRemoteBlockSignatures (signature :: signatures) = (do
      writeI32Le (asI32 signature.weak)
      writeAll signature.strong
      writeRemoteBlockSignatures signatures) :=
  Prog.bind_assoc _ _ _

theorem readRemoteBlockSignatures_eq {sumHead : RemoteSumHead}
    (hvalid : validateSumHead sumHead = .ok ()) (hcount : sumHead.blockCount ≤ i32Max)
    (hlen : sumHead.checksumLen = 16) :
    readRemoteBlockSignaturesFromReader sumHead none =
      readSignatures sumHead sumHead.blockCount 0 := by
  have hbudget : ¬ (blockSignatureSize + 16 > usizeMax ∨
      sumHead.blockCount * (blockSignatureSize + 16) > usizeMax) := by
    unfold blockSignatureSize usizeMax
    unfold i32Max at hcount
    omega
  unfold readRemoteBlockSignaturesFromReader ensureSignatureTableBudget ensureAllocationWithinLimit
  rw [hvalid, hlen, if_neg hbudget]
  rfl

section Wire

variable {content : Bytes}

theorem roundTrips_signatures (hb : 0 < b) (hsize : content.length ≤ usizeMax) :
    ∀ {blocks : List Bytes} {i : Nat},
      (∀ j block, blocks[j]? = some block → (i + j) * b < content.length ∧
        block = blockAt b content (i + j)) →
      RoundTrips (writeRemoteBlockSignatures (signaturesOf hashes checksum b i blocks)) ()
        (readSignatures (sumHeadOf b content) blocks.length i)
        (signaturesOf hashes checksum b i blocks)
  | [], _, _ => roundTrips_ret () []
  | block :: blocks, i, h => by
      obtain ⟨hi, hblock⟩ := h 0 block rfl
      rw [Nat.add_zero] at hi hblock
      have hrest := @roundTrips_signatures hb hsize blocks (i + 1) (by
        intro j c hc
        have hnext := h (j + 1) c hc
        have e : i + 1 + j = i + (j + 1) := by omega
        rwa [e])
      obtain ⟨hweak, hback⟩ := roundTrips_weak (rollingChecksum_lt block)
      have hstrong : RoundTrips (writeAll (strongDigest hashes checksum 16 block)) ()
          (readExact 16 : Reader Bytes) (strongDigest hashes checksum 16 block) :=
        roundTrips_writeAll (decodes_readExact (strongDigest_length hashes checksum block))
      have hspan := blockSpan_chunks hb hi hsize
      have hentry : ⟨i, i * b, (blockAt b content i).length,
          ofSigned 32 (asI32 (rollingChecksum block)), strongDigest hashes checksum 16 block⟩ =
          blockSignature hashes checksum i (i * b) block := by
        rw [hback, ← hblock]
        rfl
      rw [signaturesOf, writeRemoteBlockSignatures_cons, List.length_cons, readSignatures]
      refine hweak.bind (hstrong.bind ?_)
      rw [hspan, Prog.ofExcept_ok, Prog.ret_bind]
      refine hrest.bind_read ?_
      rw [hentry]
      rfl

/-- What the sender reads is what the receiver computed. -/
theorem roundTrips_request {basis : Bytes} (hb : 0 < b) (hb32 : b ≤ i32Max)
    (hlen : basis.length ≤ usizeMax) (hcount : (chunks b basis).length ≤ i32Max) :
    RoundTrips (do
        writeSumHead (requestOf hashes checksum b basis).1
        writeRemoteBlockSignatures (requestOf hashes checksum b basis).2) ()
      (do
        let sumHead ← readSumHead
        let signatures ← readRemoteBlockSignaturesFromReader sumHead none
        pure (sumHead, signatures)) (requestOf hashes checksum b basis) := by
  unfold requestOf
  by_cases hnil : basis = []
  · simp only [if_pos hnil]
    have hfits : (emptySumHead b).Fits :=
      ⟨Nat.zero_le _, hb32, by show 16 ≤ i32Max; decide, Nat.zero_le _⟩
    refine (roundTrips_sumHead hfits).bind ?_
    rw [readRemoteBlockSignatures_eq (by simp [validateSumHead, emptySumHead])
      (Nat.zero_le _) rfl]
    exact roundTrips_ret () _
  · simp only [if_neg hnil]
    have hmod := Nat.mod_lt basis.length hb
    have hfits : (sumHeadOf b basis).Fits :=
      ⟨hcount, hb32, by show 16 ≤ i32Max; decide, by unfold sumHeadOf; simp only; omega⟩
    refine (roundTrips_sumHead hfits).bind ?_
    rw [readRemoteBlockSignatures_eq (validateSumHead_sumHeadOf hb) hcount rfl]
    exact (roundTrips_signatures hb hlen (chunks_blockAt hb)).bind_read rfl

end Wire

/-- The signatures of a request are those of blocks of its basis. -/
theorem describes_signaturesOf {basis : Bytes} (hb : 0 < b)
    (hcount : (chunks b basis).length ≤ i32Max) :
    Describes b basis (strongDigest hashes checksum 16) (requestOf hashes checksum b basis).2 := by
  have key : ∀ {blocks : List Bytes} {i : Nat},
      (∀ j block, blocks[j]? = some block → (i + j) * b < basis.length ∧
        block = blockAt b basis (i + j)) →
      Describes b basis (strongDigest hashes checksum 16) (signaturesOf hashes checksum b i blocks) := by
    intro blocks
    induction blocks with
    | nil =>
        intro i _ signature hmem
        cases hmem
    | cons block blocks ih =>
        intro i h signature hmem
        rcases List.mem_cons.mp hmem with rfl | hmem
        · obtain ⟨hi, hblock⟩ := h 0 block rfl
          rw [Nat.add_zero] at hi hblock
          have hlt := (lt_length_chunks hb).mpr hi
          subst hblock
          exact ⟨hi, by simp only [blockSignature]; omega, rfl, rfl⟩
        · refine ih (i := i + 1) ?_ signature hmem
          intro j c hc
          have hnext := h (j + 1) c hc
          have e : i + 1 + j = i + (j + 1) := by omega
          rwa [e]
  unfold requestOf
  split
  · intro signature hmem
    cases hmem
  · exact key (chunks_blockAt hb)

end RsyncWin
