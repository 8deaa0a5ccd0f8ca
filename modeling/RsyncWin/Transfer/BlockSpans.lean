import RsyncWin.Transfer.DeltaTransfer

/-!
# Blocks of a basis file

The spans that a sum head gives to its blocks lie one behind the other and end
where the file ends. Those of a request are the places the signatures were
computed at; on the wire they stay what they are as long as the block length
and the number of blocks fit `i32`, which the writer does not check.
-/

namespace RsyncWin

open ByteString Codec Duplex

/-- `(offset, len)` pairs from `start` to `stop`, none empty, each behind the one before. -/
def Tiles : Nat → List (Nat × Nat) → Nat → Prop
  | start, [], stop => start = stop
  | start, (offset, len) :: spans, stop =>
      offset = start ∧ 0 < len ∧ Tiles (start + len) spans stop

/-- The spans of all blocks. -/
def blockSpans (sumHead : RemoteSumHead) : Except Error (List (Nat × Nat)) :=
  (List.range sumHead.blockCount).mapM (blockSpan sumHead)

/-! ## The spans of a sum head -/

section Spans

variable {head : RemoteSumHead}

theorem valid_of_validateSumHead (h : validateSumHead head = .ok ()) (hcount : 0 < head.blockCount) :
    0 < head.blockLen ∧ head.remainder ≤ head.blockLen := by
  unfold validateSumHead at h
  split at h
  · cases h
  · split at h
    · cases h
    · omega

/-- The length of a block: the remainder, where there is one, in the last. -/
def spanLen (head : RemoteSumHead) (i : Nat) : Nat :=
  if i + 1 = head.blockCount ∧ head.remainder ≠ 0 then head.remainder else head.blockLen

theorem blockSpan_eq (h : validateSumHead head = .ok ())
    (hsize : head.blockCount * head.blockLen ≤ usizeMax) {i : Nat} (hi : i < head.blockCount) :
    blockSpan head i = .ok (i * head.blockLen, spanLen head i) := by
  have hmul : i * head.blockLen ≤ head.blockCount * head.blockLen :=
    Nat.mul_le_mul_right _ hi.le
  unfold blockSpan
  rw [h]
  dsimp only
  rw [if_neg (by omega), if_neg (by omega)]
  rfl

/-- Where the file ends that was cut. -/
def coveredLen (head : RemoteSumHead) : Nat :=
  if head.blockCount = 0 then 0
  else if head.remainder = 0 then head.blockCount * head.blockLen
  else head.blockCount * head.blockLen - (head.blockLen - head.remainder)

theorem remoteSumHeadFileLen_eq (h : validateSumHead head = .ok ())
    (hsize : head.blockCount * head.blockLen ≤ usizeMax) :
    remoteSumHeadFileLen head = .ok (coveredLen head) := by
  unfold remoteSumHeadFileLen coveredLen
  by_cases hzero : head.blockCount = 0
  · rw [if_pos hzero, if_pos hzero]
  · obtain ⟨hpos, hrem⟩ := valid_of_validateSumHead h (Nat.pos_of_ne_zero hzero)
    have hone : 1 * head.blockLen ≤ head.blockCount * head.blockLen :=
      Nat.mul_le_mul_right _ (Nat.pos_of_ne_zero hzero)
    rw [if_neg hzero, if_neg hzero, if_neg (by omega), if_neg (by omega), if_neg (by omega)]
    by_cases hfull : head.remainder = 0
    · rw [if_pos hfull, if_pos hfull]
    · rw [if_neg hfull, if_neg hfull, if_neg (by omega)]

/-- Where block `i` starts; behind the last block, where the file ends. -/
def spanStart (head : RemoteSumHead) (i : Nat) : Nat :=
  if i < head.blockCount then i * head.blockLen else coveredLen head

theorem spanStart_succ (h : validateSumHead head = .ok ()) {i : Nat} (hi : i < head.blockCount) :
    spanStart head i + spanLen head i = spanStart head (i + 1) ∧ 0 < spanLen head i := by
  obtain ⟨hpos, hrem⟩ := valid_of_validateSumHead h (by omega)
  have hnext : (i + 1) * head.blockLen = i * head.blockLen + head.blockLen := by ring
  unfold spanStart spanLen coveredLen
  rw [if_pos hi, if_neg (by omega : ¬ head.blockCount = 0)]
  by_cases hlast : i + 1 = head.blockCount
  · rw [if_neg (by omega : ¬ i + 1 < head.blockCount), ← hlast, hnext]
    by_cases hfull : head.remainder = 0
    · rw [if_neg (by simp [hfull]), if_pos hfull]
      omega
    · rw [if_pos ⟨rfl, hfull⟩, if_neg hfull]
      omega
  · rw [if_neg fun hboth => hlast hboth.1, if_pos (by omega), hnext]
    omega

/-- Induction on the blocks that are left. -/
theorem mapM_blockSpan (h : validateSumHead head = .ok ())
    (hsize : head.blockCount * head.blockLen ≤ usizeMax) : ∀ {n i : Nat},
    i + n = head.blockCount → ∃ spans, (List.range' i n).mapM (blockSpan head) = .ok spans ∧
      Tiles (spanStart head i) spans (coveredLen head)
  | 0, i, hi => by
      refine ⟨[], rfl, ?_⟩
      unfold Tiles spanStart
      rw [if_neg (by omega)]
  | n + 1, i, hi => by
      have hlt : i < head.blockCount := by omega
      obtain ⟨spans, hspans, htiles⟩ := @mapM_blockSpan h hsize n (i + 1) (by omega)
      obtain ⟨hnext, hpos⟩ := spanStart_succ h hlt
      refine ⟨(i * head.blockLen, spanLen head i) :: spans, ?_, ?_, hpos, ?_⟩
      · rw [List.range'_succ, List.mapM_cons, blockSpan_eq h hsize hlt]
        dsimp only [bind, Except.bind]
        rw [hspans]
        rfl
      · unfold spanStart
        rw [if_pos hlt]
      · rwa [hnext]

theorem blockSpans_tile (h : validateSumHead head = .ok ())
    (hsize : head.blockCount * head.blockLen ≤ usizeMax) :
    ∃ spans len, blockSpans head = .ok spans ∧ remoteSumHeadFileLen head = .ok len ∧
      Tiles 0 spans len := by
  obtain ⟨spans, hspans, htiles⟩ := mapM_blockSpan h hsize (Nat.zero_add head.blockCount)
  refine ⟨spans, coveredLen head, ?_, remoteSumHeadFileLen_eq h hsize, ?_⟩
  · unfold blockSpans
    rw [List.range_eq_range']
    exact hspans
  · have hzero : spanStart head 0 = 0 := by
      unfold spanStart coveredLen
      split
      · exact Nat.zero_mul _
      · rw [if_pos (by omega)]
    rwa [hzero] at htiles

end Spans

/-! ## The spans of a request -/

section Request

variable {m m' : Machine} {hashes : Hashes} {checksum : RemoteFileChecksum} {b : Nat}

/-- Two returns from one start are one return. -/
theorem Exchange.unique {L : Sig} {σ α : Type} {H : Handler L σ} {p : Party Error L α}
    {m m' m'' : σ} {out out' : Bytes} {a a' : α} (h : Exchange H p m [] out a m')
    (h' : Exchange H p m [] out' a' m'') : a = a' := by
  obtain ⟨l, sent, hrun, -⟩ := h {} [] [] carries_empty
  obtain ⟨l', sent', hrun', -⟩ := h' {} [] [] carries_empty
  exact (Final.ret.inj (hrun.symm.trans hrun')).1

/-- A request that is returned is that of what is at the path. -/
theorem eq_requestOf {path : LocalPath} {wholeFile : Bool}
    {request : RemoteSumHead × List BlockSignature} (hcalm : m.faults = []) (hb : 0 < b)
    (h : Exchange machine (localBasisSignatureRequest hashes checksum path b wholeFile none) m [] []
      request m') :
    request = requestOf hashes checksum b (usedBasis wholeFile (m.files path)) ∧
      (wholeFile = false → ∀ content, m.files path = some content →
        content.length + (b - 1) ≤ usizeMax) := by
  by_cases hwhole : wholeFile = true
  · subst hwhole
    refine ⟨?_, by simp⟩
    have hret : Exchange machine (localBasisSignatureRequest hashes checksum path b true none) m
        [] [] (emptySumHead b, []) m := exchange_ret _ m
    rw [h.unique hret]
    rfl
  · obtain rfl : wholeFile = false := by simpa using hwhole
    have hsize : ∀ content, m.files path = some content → content.length + (b - 1) ≤ usizeMax ∧
        (chunks b content).length * 72 ≤ usizeMax := by
      intro content hfile
      have hlen : (loc (L := localSig) (.fileLen path)).run (soloHandler muxLink machine)
          ⟨m, {}, []⟩ = .ret (.ok (some content.length)) ⟨m, {}, []⟩ := by
        refine run_loc (K := muxLink) ?_
        rw [machine_of_calm hcalm]
        simp [Machine.serve, hfile]
      obtain ⟨l, sent, hrun, -⟩ := h {} [] [] carries_empty
      unfold localBasisSignatureRequest at hrun
      rw [if_neg (by simp), Prog.run_bind_ret hlen] at hrun
      dsimp only at hrun
      unfold basisSignatureRequest at hrun
      rw [if_neg (by omega)] at hrun
      by_cases hsum : content.length + (b - 1) > usizeMax
      · rw [if_pos hsum] at hrun
        cases hrun
      · rw [if_neg hsum] at hrun
        by_cases htable : content.length + (b - 1) ≤ usizeMax ∧
            (chunks b content).length * 72 ≤ usizeMax
        · exact htable
        · have hbudget : blockSignatureSize + 16 > usizeMax ∨
              (content.length + (b - 1)) / b * (blockSignatureSize + 16) > usizeMax := by
            rw [← length_chunks hb]
            unfold blockSignatureSize
            omega
          unfold ensureSignatureTableBudget at hrun
          rw [if_pos hbudget] at hrun
          cases hrun
    exact ⟨h.unique (exchange_localBasisSignatureRequest hcalm hb hsize),
      fun _ content hfile => (hsize content hfile).1⟩

theorem mapM_blockSpan_chunks {content : Bytes} (hb : 0 < b) (hsize : content.length ≤ usizeMax) :
    ∀ {blocks : List Bytes} {i : Nat},
      (∀ j block, blocks[j]? = some block → (i + j) * b < content.length ∧
        block = blockAt b content (i + j)) →
      (List.range' i blocks.length).mapM (blockSpan (sumHeadOf b content)) =
        .ok ((signaturesOf hashes checksum b i blocks).map fun s => (s.offset, s.len))
  | [], _, _ => rfl
  | block :: blocks, i, h => by
      obtain ⟨hi, hblock⟩ := h 0 block rfl
      rw [Nat.add_zero] at hi hblock
      have hrest := @mapM_blockSpan_chunks content hb hsize blocks (i + 1) (by
        intro j c hc
        have hnext := h (j + 1) c hc
        have e : i + 1 + j = i + (j + 1) := by omega
        rwa [e])
      rw [List.length_cons, List.range'_succ, List.mapM_cons, blockSpan_chunks hb hi hsize, hblock]
      dsimp only [bind, Except.bind]
      rw [hrest]
      rfl

/-- A file cut into blocks is as long as its sum head says. -/
theorem remoteSumHeadFileLen_sumHeadOf {content : Bytes} (hb : 0 < b) (hne : content ≠ [])
    (hsize : content.length + (b - 1) ≤ usizeMax) :
    remoteSumHeadFileLen (sumHeadOf b content) = .ok content.length := by
  have hpos : 0 < content.length := List.length_pos_iff.mpr hne
  have hcount := @length_chunks _ b hb content
  have hmul := Nat.div_mul_le_self (content.length + (b - 1)) b
  have hmod := Nat.mod_lt content.length hb
  have hsplit := Nat.div_add_mod content.length b
  have hsplit' := Nat.div_add_mod (content.length + (b - 1)) b
  have hmod' := Nat.mod_lt (content.length + (b - 1)) hb
  have hnonzero : (chunks b content).length ≠ 0 := by
    rw [hcount]
    intro hzero
    rw [Nat.div_eq_zero_iff] at hzero
    omega
  have hle : (sumHeadOf b content).blockCount * (sumHeadOf b content).blockLen ≤ usizeMax := by
    show (chunks b content).length * b ≤ usizeMax
    rw [hcount]
    omega
  rw [remoteSumHeadFileLen_eq (validateSumHead_sumHeadOf hb) hle]
  unfold coveredLen sumHeadOf
  dsimp only
  rw [if_neg hnonzero, hcount]
  congr 1
  -- the blocks are as many as whole ones fit, and one more where bytes are left
  by_cases hfull : content.length % b = 0
  · rw [if_pos hfull]
    have hquot : (content.length + (b - 1)) / b = content.length / b := by
      rw [Nat.div_eq_iff hb]
      rw [Nat.mul_comm] at hsplit
      omega
    rw [hquot, Nat.mul_comm]
    omega
  · rw [if_neg hfull]
    have hquot : (content.length + (b - 1)) / b = content.length / b + 1 := by
      rw [Nat.div_eq_iff hb, Nat.add_mul]
      rw [Nat.mul_comm] at hsplit
      omega
    rw [hquot, Nat.add_mul, Nat.mul_comm]
    omega

/-- What a request says of a file of this content. -/
theorem spans_requestOf {content : Bytes} (hb : 0 < b) (hsize : content.length + (b - 1) ≤ usizeMax) :
    remoteSumHeadFileLen (requestOf hashes checksum b content).1 = .ok content.length ∧
      blockSpans (requestOf hashes checksum b content).1 =
        .ok ((requestOf hashes checksum b content).2.map fun s => (s.offset, s.len)) := by
  unfold requestOf
  by_cases hnil : content = []
  · subst hnil
    exact ⟨rfl, rfl⟩
  · rw [if_neg hnil]
    refine ⟨remoteSumHeadFileLen_sumHeadOf hb hnil hsize, ?_⟩
    unfold blockSpans
    rw [List.range_eq_range']
    exact mapM_blockSpan_chunks hb (by omega) (chunks_blockAt hb)

end Request

/-- **Blocks tile the file.** The spans of a valid sum head lie one behind the other from 0 to
the length it stands for; those of a request are the places its signatures were computed at,
however the file is read; and a copy token is the block it was made from. -/
theorem block_spans_tile :
    (∀ head : RemoteSumHead, validateSumHead head = .ok () →
      head.blockCount * head.blockLen ≤ usizeMax →
      ∃ spans len, blockSpans head = .ok spans ∧ remoteSumHeadFileLen head = .ok len ∧
        Tiles 0 spans len) ∧
    (∀ (hashes : Hashes) (checksum : RemoteFileChecksum) (b : Nat) (m m' : Machine)
      (path : LocalPath) (content : Bytes) (head : RemoteSumHead)
      (signatures : List BlockSignature), 0 < b → m.faults = [] → m.files path = some content →
      Exchange machine (localBasisSignatureRequest hashes checksum path b false none) m [] []
        (head, signatures) m' →
      remoteSumHeadFileLen head = .ok content.length ∧
        ∀ cuts, ∃ generated,
          generateSignatures hashes checksum b (content.length + 1) ⟨content, cuts⟩ 0 0 =
            .ok generated ∧
          blockSpans head = .ok (generated.map fun s => (s.offset, s.len))) ∧
    ∀ i < i32Max, ∃ token, blockIndexToCopyToken i = .ok token ∧
      copyTokenToBlockIndex token = .ok i := by
  refine ⟨fun head => blockSpans_tile, ?_, ?_⟩
  · intro hashes checksum b m m' path content head signatures hb hcalm hfile hrequest
    obtain ⟨heq, hbound⟩ := eq_requestOf hcalm hb hrequest
    have hsize := hbound rfl content hfile
    have hused : usedBasis false (m.files path) = content := by
      rw [hfile]
      rfl
    rw [hused] at heq
    obtain ⟨hlen, hspans⟩ := @spans_requestOf hashes checksum b content hb hsize
    rw [← heq] at hlen hspans
    refine ⟨hlen, fun cuts => ⟨signatures, ?_, hspans⟩⟩
    have hgen := @generateSignatures_eq hashes checksum b hb (content.length + 1) 0
      ⟨content, cuts⟩ (Nat.lt_succ_self _) (by simp only; omega)
    have hsignatures : signatures = (requestOf hashes checksum b content).2 := congrArg Prod.snd heq
    rw [Nat.zero_mul] at hgen
    rw [hgen, hsignatures]
    unfold requestOf
    by_cases hnil : content = []
    · subst hnil
      rfl
    · rw [if_neg hnil]
  · intro i hi
    exact ⟨_, blockIndexToCopyToken_eq hi, copyTokenToBlockIndex_eq hi⟩

/-- Five bytes in blocks of two. -/
theorem block_spans_tile_five :
    ∃ spans len, blockSpans ⟨3, 2, 16, 1⟩ = .ok spans ∧
      remoteSumHeadFileLen ⟨3, 2, 16, 1⟩ = .ok len ∧ Tiles 0 spans len :=
  block_spans_tile.1 ⟨3, 2, 16, 1⟩ rfl (by decide)

/-! ## A sum head on the wire -/

/-- The block size of `plan.block_size`. -/
def remoteDeltaBlockSize (blockSize : Option Nat) : Except Error Nat :=
  let blockSize := blockSize.getD (32 * 1024)
  if blockSize ≤ usizeMax ∧ 0 < blockSize then .ok blockSize
  else .error (.other "remote delta block size must fit usize and be greater than zero")

section Wire

variable {m m' : Machine} {hashes : Hashes} {checksum : RemoteFileChecksum} {b : Nat}

/-- What is read from an `i32` fits one. -/
theorem le_of_readNonnegativeI32 {label : String} {inp rest : Bytes} {n : Nat}
    (h : (readNonnegativeI32 label).run buffer inp = .ret n rest) : n ≤ i32Max := by
  unfold readNonnegativeI32 readI32Le at h
  rw [Prog.bind_assoc] at h
  obtain ⟨buf, rest', hbuf, h⟩ := Prog.run_bind_eq_ret.mp h
  obtain ⟨reads, hreads⟩ := hears_of_run hbuf
  have hlt := leNat_lt buf
  rw [(hears_readExact hreads).2] at hlt
  obtain ⟨value, rest'', hvalue, h⟩ := Prog.run_bind_eq_ret.mp h
  obtain ⟨rfl, rfl⟩ := Final.ret.inj hvalue
  split at h
  · cases h
  · rename_i hneg
    obtain ⟨rfl, rfl⟩ := Final.ret.inj h
    unfold i32Max
    unfold toSigned at hneg ⊢
    split <;> omega

/-- Only what fits can be read. -/
theorem fits_of_readSumHead {head : RemoteSumHead} {inp rest : Bytes}
    (h : readSumHead.run buffer inp = .ret head rest) : head.Fits := by
  unfold readSumHead at h
  obtain ⟨blockCount, inp₁, hcount, h⟩ := Prog.run_bind_eq_ret.mp h
  obtain ⟨blockLen, inp₂, hlen, h⟩ := Prog.run_bind_eq_ret.mp h
  obtain ⟨checksumLen, inp₃, hsum, h⟩ := Prog.run_bind_eq_ret.mp h
  obtain ⟨remainder, inp₄, hrem, h⟩ := Prog.run_bind_eq_ret.mp h
  obtain ⟨rfl, -⟩ := Final.ret.inj h
  exact ⟨le_of_readNonnegativeI32 hcount, le_of_readNonnegativeI32 hlen,
    le_of_readNonnegativeI32 hsum, le_of_readNonnegativeI32 hrem⟩

theorem roundTrips_sumHead_iff {head : RemoteSumHead} :
    RoundTrips (writeSumHead head) () readSumHead head ↔ head.Fits := by
  constructor
  · rintro ⟨cs, -, hdecodes⟩
    exact fits_of_readSumHead (hdecodes [])
  · exact roundTrips_sumHead

theorem fits_requestOf_iff {basis : Bytes} (hb : 0 < b) :
    (requestOf hashes checksum b basis).1.Fits ↔
      b ≤ i32Max ∧ (chunks b basis).length ≤ i32Max := by
  unfold requestOf
  by_cases hnil : basis = []
  · subst hnil
    constructor
    · intro h
      exact ⟨h.blockLen, Nat.zero_le _⟩
    · rintro ⟨hlen, -⟩
      exact ⟨Nat.zero_le _, hlen, by show 16 ≤ i32Max; decide, Nat.zero_le _⟩
  · rw [if_neg hnil]
    constructor
    · intro h
      exact ⟨h.blockLen, h.blockCount⟩
    · rintro ⟨hlen, hcount⟩
      have hmod := Nat.mod_lt basis.length hb
      exact ⟨hcount, hlen, by show 16 ≤ i32Max; decide,
        by show basis.length % b ≤ i32Max; omega⟩

/-- **Sum heads on the wire.** What a request writes is read back exactly where the block size
and the number of blocks fit `i32`: the writer casts, only the reader looks at the sign. -/
theorem sumHead_survives_iff (blockSize : Option Nat) (wholeFile : Bool) (path : LocalPath)
    (head : RemoteSumHead) (signatures : List BlockSignature)
    (hcalm : m.faults = []) (hplan : remoteDeltaBlockSize blockSize = .ok b)
    (hrequest : Exchange machine
      (localBasisSignatureRequest hashes checksum path b wholeFile none) m [] []
        (head, signatures) m') :
    RoundTrips (writeSumHead head) () readSumHead head ↔
      b ≤ i32Max ∧ (chunks b (usedBasis wholeFile (m.files path))).length ≤ i32Max := by
  have hb : 0 < b := by
    unfold remoteDeltaBlockSize at hplan
    dsimp only at hplan
    split at hplan
    · rename_i hvalid
      obtain rfl := Except.ok.inj hplan
      exact hvalid.2
    · cases hplan
  obtain ⟨heq, -⟩ := eq_requestOf hcalm hb hrequest
  rw [roundTrips_sumHead_iff, ← @fits_requestOf_iff hashes checksum b _ hb, ← heq]

/-- With `--block-size=2147483648` and whole files the length that is read is negative. -/
theorem sumHead_lost_2147483648 :
    remoteDeltaBlockSize (some 2147483648) = .ok 2147483648 ∧
    Exchange machine
      (localBasisSignatureRequest md4Hashes .plainMd4 [.normal [0x66]] 2147483648 true none)
      { files := fun _ => none } [] [] (emptySumHead 2147483648, []) { files := fun _ => none } ∧
    ¬ RoundTrips (writeSumHead (emptySumHead 2147483648)) () readSumHead
      (emptySumHead 2147483648) := by
  refine ⟨rfl, exchange_ret _ _, fun h => ?_⟩
  exact absurd (roundTrips_sumHead_iff.mp h).blockLen (by decide)

theorem sumHead_survives_default :
    RoundTrips (writeSumHead (emptySumHead 32768)) () readSumHead (emptySumHead 32768) :=
  (@sumHead_survives_iff { files := fun _ => none } { files := fun _ => none } md4Hashes .plainMd4
    32768 none true [.normal [0x66]] (emptySumHead 32768) [] rfl rfl (exchange_ret _ _)).mpr
      ⟨by decide, by simp [usedBasis, i32Max]⟩

end Wire

end RsyncWin
