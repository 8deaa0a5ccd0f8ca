import RsyncWin.Lib.Md4
import RsyncWin.Transfer.Signatures
import RsyncWin.Transfer.Tokens

/-!
# A file transfer from end to end

The receiver turns the sender's tokens back into the file. Together with the
sender's side this is the transfer as a whole: request, answer and decoding
agree on every block boundary, whatever the files and the block size are.
-/

namespace RsyncWin

open ByteString Codec Duplex

variable {m : Machine} {hashes : Hashes} {b : Nat} {t : TokenTarget}

/-! ## The receiver -/

theorem exchange_append {path : LocalPath} {content bytes : Bytes} (hcalm : m.faults = []) :
    Exchange machine (perform (.append path bytes)) (m.put path (some content)) [] [] ()
      (m.put path (some (content ++ bytes))) := by
  refine exchange_perform hcalm ?_
  simp [Machine.serve]

theorem exchange_readExact (bs : Bytes) :
    Exchange machine (onMux (readExact bs.length)) m bs [] bs m :=
  exchange_onMux (decodes_readExact rfl)

theorem exchange_readLiteral {path : LocalPath} (hcalm : m.faults = []) :
    ∀ {fuel : Nat} {content bs : Bytes}, bs.length ≤ fuel →
      Exchange machine (readLiteral path fuel bs.length) (m.put path (some content)) bs [] ()
        (m.put path (some (content ++ bs)))
  | 0, content, bs, h => by
      have hnil : bs = [] := List.length_eq_zero_iff.mp (by omega)
      subst hnil
      rw [List.append_nil]
      exact exchange_ret () _
  | fuel + 1, content, bs, h => by
      unfold readLiteral
      by_cases hzero : bs.length = 0
      · have hnil : bs = [] := List.length_eq_zero_iff.mp hzero
        rw [if_pos hzero, hnil, List.append_nil]
        exact exchange_ret () _
      · rw [if_neg hzero]
        dsimp only
        generalize hk : min (32 * 1024) bs.length = k
        have hle : k ≤ bs.length := by omega
        have hlen : (bs.take k).length = k := List.length_take_of_le hle
        have hread := exchange_readExact (m := m.put path (some content)) (bs.take k)
        rw [hlen] at hread
        have hrec := @exchange_readLiteral path hcalm fuel (content ++ bs.take k) (bs.drop k)
          (by rw [List.length_drop]; omega)
        rw [List.length_drop, List.append_assoc, List.take_append_drop] at hrec
        refine Exchange.of_eq (List.take_append_drop k bs) rfl (hread.bind_reads ?_)
        exact (exchange_append hcalm).before hrec

theorem nextTotal_ok {total len : Nat} (h : total + len ≤ t.expectedLen)
    (h64 : t.expectedLen ≤ u64Max) : nextTotal t total len = .ok (total + len) := by
  unfold nextTotal
  rw [if_neg (by omega), if_neg (by omega)]

theorem exchange_finishTokens {target : Bytes} (hcalm : m.faults = [])
    (hlen : target.length = t.expectedLen) :
    Exchange machine (finishTokens hashes t target.length) (m.put t.output (some target))
      (finalDigest hashes t.checksum target) [] target.length (m.put t.output (some target)) := by
  have hsync : Exchange machine (perform (.syncAll t.output)) (m.put t.output (some target))
      [] [] () (m.put t.output (some target)) := exchange_perform hcalm rfl
  have hread := exchange_readExact (m := m.put t.output (some target))
    (finalDigest hashes t.checksum target)
  rw [finalDigest_length] at hread
  have hsum := @exchange_remoteFileChecksumForPath hashes t.checksum t.output
    (m.put t.output (some target)) target hcalm (by simp)
  unfold finishTokens
  refine hsync.before ?_
  rw [if_neg (by simp [hlen])]
  refine Exchange.of_eq (List.append_nil _) rfl (hread.bind_reads (hsum.bind_ret ?_))
  simp

/-- The basis as the receiver uses it: open, with the sum head it asked with. -/
def basisOf (path : LocalPath) (b : Nat) (basis : Bytes) : Option (LocalPath × RemoteSumHead) :=
  if basis = [] then none
  else some (path, sumHeadOf b basis)

theorem decodes_token {v : Int} (hlo : -2147483648 ≤ v) (hhi : v ≤ 2147483647) :
    Exchange machine (onMux readI32Le) m (leBytes 4 (ofSigned 32 v)) [] v m :=
  exchange_onMux (decodes_readI32Le hlo hhi)

/-- A block of the basis is read next to the output. -/
theorem exchange_readBasisBlock {basisPath : LocalPath} {basis content : Bytes} {i : Nat}
    (hcalm : m.faults = []) (hb : 0 < b) (hbasis : basisPath ≠ t.output)
    (hfile : m.files basisPath = some basis) (hsize : basis.length ≤ usizeMax)
    (hi : i * b < basis.length) :
    Exchange machine (readBasisBlock (basisPath, sumHeadOf b basis) i)
      (m.put t.output (some content)) [] [] (blockAt b basis i)
      (m.put t.output (some content)) := by
  unfold readBasisBlock
  rw [blockSpan_chunks hb hi hsize]
  refine exchange_perform hcalm ?_
  have hfile' : (m.put t.output (some content)).files basisPath = some basis := by
    simp [hbasis, hfile]
  have hfit : i * b + (blockAt b basis i).length ≤ basis.length := by
    rw [blockAt, List.length_take, List.length_drop]
    omega
  simp only [Machine.serve, hfile', if_pos hfit]
  have htake : (basis.drop (i * b)).take (blockAt b basis i).length = blockAt b basis i := by
    rw [blockAt, List.length_take, List.take_eq_take_iff]
    simp
  rw [htake]

/-- Decoding any well-formed token list appends the bytes it spells out. -/
theorem exchange_plainLoop {basisPath : LocalPath} {basis target : Bytes} (hcalm : m.faults = [])
    (hb : 0 < b) (hdeadline : t.stopDeadline = none) (hbasis : basisPath ≠ t.output)
    (hfile : basis ≠ [] → m.files basisPath = some basis) (hsize : basis.length ≤ usizeMax)
    (hlen : target.length = t.expectedLen) (h64 : t.expectedLen ≤ u64Max) :
    ∀ {tokens : List Token} {fuel : Nat} {content : Bytes}, tokens.length < fuel →
      (∀ tok ∈ tokens, tok.Ok b basis) →
      content ++ tokens.flatMap (Token.data b basis) = target →
      Exchange machine (plainLoop hashes t (basisOf basisPath b basis) fuel content.length)
        (m.put t.output (some content))
        (tokens.flatMap Token.wire ++ trailer hashes t.checksum target) []
        target.length (m.put t.output (some target))
  | _, 0, _, h, _, _ => absurd h (by omega)
  | [], fuel + 1, content, _, _, hdata => by
      rw [List.flatMap_nil, List.append_nil] at hdata
      subst hdata
      unfold plainLoop
      rw [hdeadline]
      refine (decodes_token (by omega) (by omega)).bind_reads ?_
      exact exchange_finishTokens hcalm hlen
  | .literal bytes :: tokens, fuel + 1, content, hfuel, hok, hdata => by
      obtain ⟨hpos, hmax⟩ := hok (.literal bytes) List.mem_cons_self
      rw [List.flatMap_cons, ← List.append_assoc] at hdata
      have hlong := congrArg List.length hdata
      simp only [List.length_append, Token.data] at hlong
      have hasI32 : asI32 bytes.length = bytes.length := asI32_of_le (by unfold i32Max; omega)
      have htoken : (bytes.length : Int).toNat = bytes.length := Int.toNat_natCast _
      have hrec := @exchange_plainLoop basisPath basis target hcalm hb hdeadline hbasis hfile hsize
        hlen h64 tokens fuel (content ++ bytes) (by simp at hfuel; omega)
        (fun tok h => hok tok (List.mem_cons_of_mem _ h)) hdata
      rw [List.length_append] at hrec
      rw [List.flatMap_cons, Token.wire, hasI32, List.append_assoc, List.append_assoc]
      unfold plainLoop
      rw [hdeadline]
      refine (decodes_token (by omega) (by omega)).bind_reads ?_
      rw [if_pos (by omega), htoken, nextTotal_ok (by omega) h64]
      exact (exchange_readLiteral hcalm (Nat.le_refl _)).bind_reads hrec
  | .copy i :: tokens, fuel + 1, content, hfuel, hok, hdata => by
      obtain ⟨hi, hi32⟩ := hok (.copy i) List.mem_cons_self
      rw [List.flatMap_cons, ← List.append_assoc] at hdata
      have hlong := congrArg List.length hdata
      simp only [List.length_append, Token.data] at hlong
      have hne : basis ≠ [] := by
        rintro rfl
        simp at hi
      have hread := @exchange_readBasisBlock m b t basisPath basis content i hcalm hb hbasis
        (hfile hne) hsize hi
      have hrec := @exchange_plainLoop basisPath basis target hcalm hb hdeadline hbasis hfile hsize
        hlen h64 tokens fuel (content ++ blockAt b basis i) (by simp at hfuel; omega)
        (fun tok h => hok tok (List.mem_cons_of_mem _ h)) hdata
      rw [List.length_append] at hrec
      rw [List.flatMap_cons, Token.wire, List.append_assoc]
      unfold plainLoop
      rw [hdeadline]
      unfold i32Max at hi32
      refine (decodes_token (by omega) (by omega)).bind_reads ?_
      rw [if_neg (by omega), if_neg (by omega), copyTokenToBlockIndex_eq (by unfold i32Max; omega)]
      unfold basisOf at hrec ⊢
      rw [if_neg hne] at hrec ⊢
      refine hread.before ?_
      unfold appendBytes
      rw [nextTotal_ok (by omega) h64]
      simp only [Prog.ofExcept_ok, Prog.ret_bind, Prog.bind_assoc]
      exact (exchange_append hcalm).before hrec

/-- Every token adds at least one byte. -/
theorem length_le_sum_data {basis : Bytes} (hb : 0 < b) : ∀ {tokens : List Token},
    (∀ tok ∈ tokens, tok.Ok b basis) →
    tokens.length ≤ (tokens.map fun tok => (tok.data b basis).length).sum
  | [], _ => Nat.zero_le _
  | tok :: tokens, hok => by
      have hrest := length_le_sum_data hb fun u hu => hok u (List.mem_cons_of_mem _ hu)
      have hpos : 0 < (tok.data b basis).length := by
        have h := hok tok List.mem_cons_self
        cases tok with
        | literal bytes => exact h.1
        | copy i =>
            have hi := h.1
            simp only [Token.data, blockAt, List.length_take, List.length_drop]
            omega
      rw [List.length_cons, List.map_cons, List.sum_cons]
      omega

theorem exchange_openBasis {basisPath : LocalPath} {basis : Bytes} {checksum : RemoteFileChecksum}
    (hcalm : m.faults = []) (hb : 0 < b) (hfile : basis ≠ [] → m.files basisPath = some basis) :
    Exchange machine (openBasis (some (basisPath, (requestOf hashes checksum b basis).1)) none) m
      [] [] (basisOf basisPath b basis) m := by
  unfold openBasis requestOf basisOf
  by_cases hnil : basis = []
  · simp only [if_pos hnil]
    exact exchange_ret _ m
  · simp only [if_neg hnil]
    have hpos : (sumHeadOf b basis).blockCount > 0 := by
      have h := (@lt_length_chunks b basis 0 hb).mpr (by
        rw [Nat.zero_mul]
        exact List.length_pos_iff.mpr hnil)
      exact h
    have hbudget : ensureBasisCopyBudget (sumHeadOf b basis) none = .ok () := by
      unfold ensureBasisCopyBudget
      rw [validateSumHead_sumHeadOf hb]
      dsimp only
      rw [if_neg (by omega)]
      rfl
    rw [if_pos hpos, hbudget, Prog.ofExcept_ok, Prog.ret_bind]
    have hopen : Exchange machine (perform (.openFile basisPath)) m [] [] ⟨basis, m.cuts⟩ m :=
      exchange_perform hcalm (by simp [Machine.serve, hfile hnil])
    exact hopen.bind_ret rfl

/-- Receiving an answer that spells out `target`: exactly its bytes are taken
and `target` is what the output file holds afterwards. -/
theorem exchange_readFileTokens {flate : Flate} {chunkFuel : Nat} {basisPath : LocalPath}
    {basis target : Bytes} {checksum : RemoteFileChecksum} {tokens : List Token}
    (hcalm : m.faults = []) (hb : 0 < b) (hdeadline : t.stopDeadline = none)
    (hbasis : basisPath ≠ t.output) (hfile : basis ≠ [] → m.files basisPath = some basis)
    (hsize : basis.length ≤ usizeMax) (hlen : target.length = t.expectedLen)
    (h64 : t.expectedLen ≤ u64Max) (hfree : m.refuses t.output = false)
    (hok : ∀ tok ∈ tokens, tok.Ok b basis)
    (hdata : tokens.flatMap (Token.data b basis) = target) :
    Exchange machine
      (readFileTokensToPathWithBasis flate hashes chunkFuel t
        (some (basisPath, (requestOf hashes checksum b basis).1)) none none) m
      (tokens.flatMap Token.wire ++ trailer hashes t.checksum target) []
      target.length (m.put t.output (some target)) := by
  have hparent : Exchange machine (perform (.createDirAll t.output.parent)) m [] [] () m :=
    exchange_perform hcalm rfl
  have hcreate : Exchange machine (perform (.create t.output)) m [] [] ()
      (m.put t.output (some [])) :=
    exchange_perform hcalm (by simp [Machine.serve, hfree])
  have hopen := @exchange_openBasis (m.put t.output (some [])) hashes b basisPath basis checksum
    hcalm hb (fun hne => by simp [hbasis, hfile hne])
  have hcount : tokens.length < t.expectedLen + 2 := by
    have hle : tokens.length ≤ (tokens.flatMap (Token.data b basis)).length := by
      rw [List.length_flatMap]
      exact length_le_sum_data hb hok
    rw [hdata] at hle
    omega
  have hloop := @exchange_plainLoop m hashes b t basisPath basis target hcalm hb hdeadline hbasis
    hfile hsize hlen h64 tokens (t.expectedLen + 2) [] hcount hok (by simpa using hdata)
  unfold readFileTokensToPathWithBasis
  exact hparent.before (hcreate.before (hopen.before hloop))

/-! ## The transfer -/

/-- At most `n` blocks of `b` bytes are at most `n * b` bytes. -/
theorem length_le_chunks_mul {content : Bytes} (hb : 0 < b) :
    content.length ≤ (chunks b content).length * b := by
  have h := @lt_length_chunks b content (chunks b content).length hb
  omega

theorem request_sizes {basis : Bytes} (hb : 0 < b) (hb32 : b ≤ i32Max)
    (hcount : (chunks b basis).length ≤ i32Max) :
    basis.length + (b - 1) ≤ usizeMax ∧ (chunks b basis).length * 72 ≤ usizeMax := by
  have hlen := @length_le_chunks_mul b basis hb
  have hmul : (chunks b basis).length * b ≤ i32Max * i32Max := Nat.mul_le_mul hcount hb32
  unfold i32Max at *
  unfold usizeMax
  omega

/-- **Delta transfer.** The receiver asks with the signatures of its basis, the
sender reads exactly that request and answers it from its own file, and the
receiver turns exactly that answer into the sender's file. -/
theorem delta_transfer {flate : Flate} {chunkFuel : Nat} {checksum : RemoteFileChecksum}
    {basisPath path : LocalPath} {basis target : Bytes} {receiver sender : Machine}
    (hb : 0 < b) (hb32 : b ≤ i32Max) (hcount : (chunks b basis).length ≤ i32Max)
    (hcollide : NoCollision b basis target (strongDigest hashes checksum 16))
    (hreceiver : receiver.faults = []) (hbasis : receiver.files basisPath = some basis)
    (houtput : t.output ≠ basisPath) (hfree : receiver.refuses t.output = false)
    (hsender : sender.faults = []) (htarget : sender.files path = some target)
    (h64 : target.length ≤ u64Max) (hlen : t.expectedLen = target.length)
    (hdeadline : t.stopDeadline = none) :
    ∃ (request : RemoteSumHead × List BlockSignature) (stats : RemoteDeltaStats) (answer : Bytes),
      Exchange machine (localBasisSignatureRequest hashes checksum basisPath b false none) receiver
        [] [] request receiver ∧
      RoundTrips (do
          writeSumHead request.1
          writeRemoteBlockSignatures request.2) ()
        (do
          let sumHead ← readSumHead
          let signatures ← readRemoteBlockSignaturesFromReader sumHead none
          pure (sumHead, signatures)) request ∧
      Exchange machine
        (writeDeltaTokensFromPath flate hashes ⟨checksum, t.checksum⟩ path request.2 none {}) sender
        [] answer stats sender ∧
      Exchange machine
        (readFileTokensToPathWithBasis flate hashes chunkFuel t (some (basisPath, request.1)) none
          none) receiver answer [] target.length (receiver.put t.output (some target)) ∧
      stats.literalBytes + stats.copiedBytes = target.length := by
  obtain ⟨hsum, htable⟩ := request_sizes hb hb32 hcount
  have hrequest := @exchange_localBasisSignatureRequest receiver hashes checksum b basisPath false
    hreceiver hb (fun content hc => by
      obtain rfl : basis = content := Option.some.inj (hbasis.symm.trans hc)
      exact ⟨hsum, htable⟩)
  have hused : usedBasis false (receiver.files basisPath) = basis := by
    rw [hbasis]
    rfl
  rw [hused] at hrequest
  obtain ⟨stats, tokens, hsend, hok, hdata, hstats⟩ :=
    @exchange_writeDeltaTokensFromPath flate sender b basis hashes ⟨checksum, t.checksum⟩
      (requestOf hashes checksum b basis).2 path target hsender htarget hb
      (describes_signaturesOf hb hcount) hcollide
  refine ⟨requestOf hashes checksum b basis, stats, _, hrequest,
    roundTrips_request hb hb32 (by omega) hcount, hsend, ?_, hstats⟩
  exact exchange_readFileTokens hreceiver hb hdeadline houtput.symm (fun _ => hbasis) (by omega)
    hlen.symm (by omega) hfree hok hdata

def md4Hashes : Hashes where
  md4 := ⟨Md4.digest, Md4.digest_length⟩
  md5 := ⟨fun _ => List.replicate 16 0, fun _ => List.length_replicate⟩

/-- A compression library that stores its input, for runs that do not compress. -/
def storedFlate : Flate where
  Deflate := Unit
  deflateNew _ := ()
  deflateReset _ := ()
  deflate _ bytes _ := .ok (bytes, ())
  Inflate := Unit
  inflateNew := ()
  inflateReset _ := ()
  inflate _ bytes _ := .ok (bytes, ())

/-- Blocks `a` and `b` against the target `aab`. -/
theorem noCollision_aab : NoCollision 1 [0x61, 0x62] [0x61, 0x61, 0x62]
    (strongDigest md4Hashes .plainMd4 16) := by
  intro i hi window hwindow hlen hdigest
  have hblock : blockAt 1 [0x61, 0x62] i = [0x61] ∨ blockAt 1 [0x61, 0x62] i = [0x62] := by
    have h : i = 0 ∨ i = 1 := by
      simp at hi
      omega
    rcases h with rfl | rfl
    · exact Or.inl rfl
    · exact Or.inr rfl
  have hone : window.length = 1 := by
    rcases hblock with h | h <;> rw [hlen, h] <;> rfl
  obtain ⟨x, rfl⟩ := List.length_eq_one_iff.mp hone
  have hx : x = 0x61 ∨ x = 0x62 := by
    have hmem := hwindow.subset List.mem_cons_self
    simpa using hmem
  have hdiffer : strongDigest md4Hashes .plainMd4 16 [0x61] ≠
      strongDigest md4Hashes .plainMd4 16 [0x62] := by
    decide +kernel
  rcases hblock with h | h <;> rcases hx with rfl | rfl <;> rw [h] at hdigest ⊢
  · exact absurd hdigest.symm hdiffer
  · exact absurd hdigest hdiffer

theorem delta_transfer_aab :
    ∃ (request : RemoteSumHead × List BlockSignature) (stats : RemoteDeltaStats) (answer : Bytes),
      Exchange machine
        (localBasisSignatureRequest md4Hashes .plainMd4 [.normal [0x66]] 1 false none)
        { files := fun p => if p = [.normal [0x66]] then some [0x61, 0x62] else none }
        [] [] request
        { files := fun p => if p = [.normal [0x66]] then some [0x61, 0x62] else none } ∧
      Exchange machine
        (writeDeltaTokensFromPath storedFlate md4Hashes ⟨.plainMd4, .plainMd4⟩ [.normal [0x66]]
          request.2 none {})
        { files := fun p => if p = [.normal [0x66]] then some [0x61, 0x61, 0x62] else none }
        [] answer stats
        { files := fun p => if p = [.normal [0x66]] then some [0x61, 0x61, 0x62] else none } ∧
      stats.literalBytes + stats.copiedBytes = 3 := by
  let receiver : Machine :=
    { files := fun p => if p = [.normal [0x66]] then some [0x61, 0x62] else none }
  let sender : Machine :=
    { files := fun p => if p = [.normal [0x66]] then some [0x61, 0x61, 0x62] else none }
  let target : TokenTarget :=
    { path := [0x66], output := [.normal [0x67]], expectedLen := 3, checksum := .plainMd4 }
  have h := @delta_transfer md4Hashes 1 target storedFlate 0 .plainMd4 [.normal [0x66]]
    [.normal [0x66]] [0x61, 0x62] [0x61, 0x61, 0x62] receiver sender (by decide) (by decide)
    (by decide) noCollision_aab rfl rfl (by decide) rfl rfl rfl (by decide) rfl rfl
  obtain ⟨request, stats, answer, hrequest, -, hsend, -, hstats⟩ := h
  exact ⟨request, stats, answer, hrequest, hsend, hstats⟩

end RsyncWin
