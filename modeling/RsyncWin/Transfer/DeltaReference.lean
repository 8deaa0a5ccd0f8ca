import RsyncWin.Delta.Matcher
import RsyncWin.Protocol.LevelZero
import RsyncWin.Transfer.DeltaScript
import RsyncWin.Transfer.DeltaTransfer

/-!
# The delta sender against the delta in memory

`write_delta_tokens_from_bytes_with_checksum` holds the whole target, matches it
with `rsync-delta` and cuts the literals of the result into chunks. The sender
that reads its file through a window has the same script, so it is the same
program.
-/

namespace RsyncWin

open ByteString Codec Duplex RsyncDeflatedTokenWriter

variable {flate : Flate}

/-! ## The sender that holds the whole target -/

section InMemory

variable (signatures : List BlockSignature)

/-- What goes through the loop over the tokens. -/
abbrev Rendering (flate : Flate) := TokenWriter flate × RemoteDeltaStats

def renderChunk (r : Rendering flate) (chunk : Bytes) : Session (Rendering flate) := do
  let compressor ← toMux (writeLiteralToken r.1 chunk)
  pure (compressor, { r.2 with literalBytes := r.2.literalBytes + chunk.length })

def renderToken (r : Rendering flate) : DeltaToken → Session (Rendering flate)
  | .literal bytes => (chunks (32 * 1024) bytes).foldlM renderChunk r
  | .copy offset len =>
      match signatures.find? fun signature => signature.offset = offset ∧ signature.len = len with
      | none =>
          throw (.other "delta matcher emitted a copy span without a block signature")
      | some signature => do
          let compressor ← toMux (writeCopyToken r.1 signature.index)
          pure (compressor, { r.2 with copiedBytes := r.2.copiedBytes + len })

/-- The matcher is given as many turns as it can need. -/
def writeDeltaTokensFromBytesWithChecksum (hashes : Hashes) (bytes : Bytes)
    (blockChecksum : RemoteFileChecksum) (finalChecksum : RemoteFinalChecksum)
    (compressionLevel : Option Nat) : Session RemoteDeltaStats :=
  if signatures = [] then do
    let literalBytes ← @writeLiteralTokensFromReaderWithChecksum flate hashes ⟨bytes, []⟩
      finalChecksum compressionLevel none
    pure { literalBytes }
  else
    let checksumLen := (signatures.head?.map (·.strong.length)).getD 16
    let strong := strongDigest hashes blockChecksum checksumLen
    match generateDeltaWith strong (bytes.length + 1) signatures bytes with
    | none => throw (.panic "the matcher does not end")
    | some tokens => do
        let compressor : TokenWriter flate := compressionLevel.map RsyncDeflatedTokenWriter.new
        let (compressor, stats) ← tokens.foldlM (renderToken signatures) (compressor, {})
        toMux (writeEndToken compressor)
        toMux (writeAll (finalDigest hashes finalChecksum bytes))
        pure stats

end InMemory

/-! ## The two indexes find the same -/

section Index

variable {signatures : List BlockSignature}

theorem destutter_insertionSort (lengths : List Nat) :
    (lengths.insertionSort (· ≥ ·)).destutter (· ≠ ·) = lengths.dedup.insertionSort (· ≥ ·) := by
  have hsorted := List.pairwise_insertionSort (· ≥ ·) lengths
  rw [hsorted.destutter_eq_dedup]
  have hperm : (lengths.insertionSort (· ≥ ·)).dedup.Perm (lengths.dedup.insertionSort (· ≥ ·)) :=
    (List.perm_insertionSort (· ≥ ·) lengths).dedup.trans
      (List.perm_insertionSort (· ≥ ·) lengths.dedup).symm
  exact hperm.eq_of_pairwise' (hsorted.sublist (List.dedup_sublist _))
    (List.pairwise_insertionSort (· ≥ ·) lengths.dedup)

/-- The longest length comes first. -/
theorem lengthsDesc_le_maxLen {index : RemoteSignatureIndex}
    (h : RemoteSignatureIndex.new signatures = .ok index) :
    ∀ len ∈ index.lengthsDesc, len ≤ index.maxLen := by
  unfold RemoteSignatureIndex.new at h
  dsimp only at h
  rw [destutter_insertionSort] at h
  have hsorted := List.pairwise_insertionSort (· ≥ ·)
    ((signatures.map (·.len)).filter (0 < ·)).dedup
  generalize ((signatures.map (·.len)).filter (0 < ·)).dedup.insertionSort (· ≥ ·) = lens at h hsorted
  split at h
  · cases h
  · cases h
    intro len hlen
    cases lens with
    | nil => cases hlen
    | cons first lens =>
        rcases List.mem_cons.mp hlen with rfl | hlen
        · exact le_rfl
        · exact (List.pairwise_cons.mp hsorted).1 len hlen

theorem lengthsDesc_new (hpos : ∀ signature ∈ signatures, 0 < signature.len)
    {index : RemoteSignatureIndex} (h : RemoteSignatureIndex.new signatures = .ok index) :
    index.signatures = signatures ∧
      index.lengthsDesc = (SignatureIndex.new signatures).lengthsDesc := by
  have hall : (signatures.map (·.len)).filter (0 < ·) = signatures.map (·.len) := by
    rw [List.filter_eq_self]
    intro len hlen
    obtain ⟨signature, hmem, rfl⟩ := List.mem_map.mp hlen
    exact decide_eq_true (hpos signature hmem)
  unfold RemoteSignatureIndex.new at h
  dsimp only at h
  rw [hall, destutter_insertionSort] at h
  split at h
  · cases h
  · cases h
    exact ⟨rfl, rfl⟩

/-- The indices under a key are those of its signatures, in order. -/
theorem byLenAndWeak_eq (key : Nat × Nat) :
    (SignatureIndex.new signatures).byLenAndWeak key =
      (signatures.zipIdx.filter fun entry => (entry.1.len, entry.1.weak) = key).map Prod.snd := by
  have hfold : ∀ (entries : List (BlockSignature × Nat)) (map : Nat × Nat → List Nat),
      entries.foldl SignatureIndex.insert map key =
        map key ++
          (entries.filter fun entry => (entry.1.len, entry.1.weak) = key).map Prod.snd := by
    intro entries
    induction entries with
    | nil => exact fun map => (List.append_nil _).symm
    | cons entry entries ih =>
        intro map
        rw [List.foldl_cons, ih]
        unfold SignatureIndex.insert
        by_cases hkey : (entry.1.len, entry.1.weak) = key
        · rw [hkey, Function.update_self, List.filter_cons_of_pos (by simpa using hkey),
            List.map_cons, List.append_assoc]
          rfl
        · rw [Function.update_of_ne (Ne.symm hkey), List.filter_cons_of_neg (by simpa using hkey)]
  exact hfold signatures.zipIdx fun _ => []

/-- Looking up one by one the indices that pass the first test. -/
theorem findSome?_indices {p q : BlockSignature → Bool} :
    ∀ {entries : List (BlockSignature × Nat)},
      (∀ entry ∈ entries, signatures[entry.2]? = some entry.1) →
      (((entries.filter fun entry => p entry.1).map Prod.snd).findSome? fun i =>
          signatures[i]?.filter q) =
        (entries.map Prod.fst).find? fun signature => p signature && q signature
  | [], _ => rfl
  | (signature, i) :: entries, hentries => by
      have ih := @findSome?_indices p q entries fun entry hmem =>
        hentries entry (List.mem_cons_of_mem _ hmem)
      have hget := hentries (signature, i) List.mem_cons_self
      rw [List.map_cons, List.find?_cons]
      cases hp : p signature with
      | false =>
          rw [List.filter_cons_of_neg (by simpa using hp), ih]
          rfl
      | true =>
          rw [List.filter_cons_of_pos (by simpa using hp), List.map_cons, List.findSome?_cons, hget]
          cases hq : q signature with
          | false =>
              rw [Option.filter_some, if_neg (by simpa using hq), ih]
              rfl
          | true =>
              rw [Option.filter_some, if_pos hq]
              rfl

/-- The window of the sender stands for the rest of the target. -/
theorem findMatch_eq {index : RemoteSignatureIndex}
    (hpos : ∀ signature ∈ signatures, 0 < signature.len)
    (h : RemoteSignatureIndex.new signatures = .ok index) (digest : Bytes → Bytes)
    (target : Bytes) (pos : Nat) :
    (SignatureIndex.new signatures).findMatch target pos digest =
      index.findMatch digest (target.drop pos) := by
  obtain ⟨hsignatures, hlengths⟩ := lengthsDesc_new hpos h
  unfold SignatureIndex.findMatch RemoteSignatureIndex.findMatch
  rw [hlengths, hsignatures]
  congr 1
  funext len
  rw [List.length_drop]
  by_cases hshort : target.length - pos < len
  · rw [if_pos hshort, if_pos hshort]
  · rw [if_neg hshort, if_neg hshort]
    dsimp only
    rw [byLenAndWeak_eq]
    have hentries : ∀ entry ∈ signatures.zipIdx, signatures[entry.2]? = some entry.1 :=
      fun entry hmem => List.mem_zipIdx_iff_getElem?.mp hmem
    have hfound := @findSome?_indices signatures
      (fun signature => (signature.len, signature.weak) =
        (len, rollingChecksum ((target.drop pos).take len)))
      (fun signature => signature.strong = digest ((target.drop pos).take len)) _ hentries
    rw [List.zipIdx_map_fst] at hfound
    refine hfound.trans ?_
    congr 1
    funext signature
    simp only [Prod.mk.injEq, Bool.decide_and, Bool.and_assoc]

end Index

/-! ## What the tokens come to -/

/-- The sends of a token, its literal in chunks. -/
def rendered (signatures : List BlockSignature) : DeltaToken → List DeflatedSend
  | .literal bytes => (chunks (32 * 1024) bytes).map .literal
  | .copy offset len =>
      ((signatures.find? fun signature => signature.offset = offset ∧ signature.len = len).map
        fun signature => .copy signature.index).toList

def counted (stats : RemoteDeltaStats) : DeltaToken → RemoteDeltaStats
  | .literal bytes => { stats with literalBytes := stats.literalBytes + bytes.length }
  | .copy _ len => { stats with copiedBytes := stats.copiedBytes + len }

/-- A copy is of the block of some signature. -/
def Signed (signatures : List BlockSignature) (token : DeltaToken) : Prop :=
  ∀ offset len, token = .copy offset len →
    ∃ signature ∈ signatures, signature.offset = offset ∧ signature.len = len

/-- `x` sends `sends` and leaves `stats`, but for how tokens are written. -/
def Renders (x : Session (Rendering flate)) (compressor : TokenWriter flate)
    (sends : List DeflatedSend) (stats : RemoteDeltaStats) : Prop :=
  x = (do
    let compressor ← toMux (sends.foldlM writeSend compressor)
    pure (compressor, stats))

section Rendered

variable {signatures : List BlockSignature}

theorem renders_ret (compressor : TokenWriter flate) (stats : RemoteDeltaStats) :
    Renders (.ret (compressor, stats)) compressor [] stats := rfl

theorem Renders.bind {x : Session (Rendering flate)} {k : Rendering flate → Session (Rendering flate)}
    {compressor : TokenWriter flate} {xs ys : List DeflatedSend} {stats stats' : RemoteDeltaStats}
    (hx : Renders x compressor xs stats)
    (hk : ∀ compressor, Renders (k (compressor, stats)) compressor ys stats') :
    Renders (x >>= k) compressor (xs ++ ys) stats' := by
  unfold Renders toMux at hx hk ⊢
  rw [hx, List.foldlM_append, Prog.interp_bind, Prog.bind_assoc, Prog.bind_assoc]
  congr 1
  funext c
  exact hk c

theorem renders_chunk (compressor : TokenWriter flate) (stats : RemoteDeltaStats)
    (chunk : Bytes) :
    Renders (renderChunk (compressor, stats) chunk) compressor [.literal chunk]
      { stats with literalBytes := stats.literalBytes + chunk.length } := by
  unfold Renders
  rw [foldlM_writeSend_singleton]
  rfl

theorem renders_chunks (compressor : TokenWriter flate) (stats : RemoteDeltaStats)
    (cs : List Bytes) :
    Renders (cs.foldlM renderChunk (compressor, stats)) compressor (cs.map .literal)
      { stats with literalBytes := stats.literalBytes + cs.flatten.length } := by
  induction cs generalizing compressor stats with
  | nil => exact renders_ret compressor stats
  | cons chunk cs ih =>
      have hboth := (renders_chunk compressor stats chunk).bind (k := cs.foldlM renderChunk)
        fun c => ih c _
      rw [List.foldlM_cons, List.flatten_cons, List.length_append, ← Nat.add_assoc]
      exact hboth

/-- Offsets tell signatures apart, so a copy finds the signature that it was made of. -/
theorem find?_signature (hdistinct : (signatures.map (·.offset)).Nodup)
    {signature : BlockSignature} (hmem : signature ∈ signatures) :
    (signatures.find? fun other => other.offset = signature.offset ∧ other.len = signature.len) =
      some signature := by
  have hsome : (signatures.find? fun other =>
      other.offset = signature.offset ∧ other.len = signature.len).isSome := by
    rw [List.find?_isSome]
    exact ⟨signature, hmem, decide_eq_true ⟨rfl, rfl⟩⟩
  obtain ⟨found, hfound⟩ := Option.isSome_iff_exists.mp hsome
  have hsame := List.find?_some hfound
  rw [decide_eq_true_eq] at hsame
  rw [hfound, List.inj_on_of_nodup_map hdistinct (List.mem_of_find?_eq_some hfound) hmem hsame.1]

theorem rendered_signature (hdistinct : (signatures.map (·.offset)).Nodup)
    {signature : BlockSignature} (hmem : signature ∈ signatures) :
    rendered signatures (.copy signature.offset signature.len) = [.copy signature.index] := by
  rw [rendered, find?_signature hdistinct hmem]
  rfl

theorem renders_token (hdistinct : (signatures.map (·.offset)).Nodup) {token : DeltaToken}
    (hsigned : Signed signatures token) (compressor : TokenWriter flate)
    (stats : RemoteDeltaStats) :
    Renders (renderToken signatures (compressor, stats) token) compressor
      (rendered signatures token) (counted stats token) := by
  cases token with
  | literal bytes =>
      have hflat : (chunks (32 * 1024) bytes).flatten = bytes := flatten_chunks (by decide) bytes
      have hchunks := renders_chunks compressor stats (chunks (32 * 1024) bytes)
      rw [hflat] at hchunks
      exact hchunks
  | copy offset len =>
      obtain ⟨signature, hmem, rfl, rfl⟩ := hsigned offset len rfl
      rw [rendered_signature hdistinct hmem, renderToken, find?_signature hdistinct hmem]
      unfold Renders
      rw [foldlM_writeSend_singleton]
      rfl

theorem renders_tokens (hdistinct : (signatures.map (·.offset)).Nodup) {tokens : List DeltaToken}
    (hsigned : ∀ token ∈ tokens, Signed signatures token) (compressor : TokenWriter flate)
    (stats : RemoteDeltaStats) :
    Renders (tokens.foldlM (renderToken signatures) (compressor, stats)) compressor
      (tokens.flatMap (rendered signatures)) (tokens.foldl counted stats) := by
  induction tokens generalizing compressor stats with
  | nil => exact renders_ret compressor stats
  | cons token tokens ih =>
      rw [List.forall_mem_cons] at hsigned
      rw [List.foldlM_cons, List.flatMap_cons, List.foldl_cons]
      exact (renders_token hdistinct hsigned.1 compressor stats).bind
        (k := tokens.foldlM (renderToken signatures)) fun c => ih hsigned.2 c _

/-! ## The matcher has the same script -/

theorem chunks_append {n : Nat} (hn : 0 < n) {full rest : Bytes} (hfull : n ∣ full.length) :
    chunks n (full ++ rest) = chunks n full ++ chunks n rest := by
  induction full using chunks_induction hn with
  | hnil => rfl
  | hcons full hne ih =>
      have hle : n ≤ full.length := Nat.le_of_dvd (List.length_pos_iff.mpr hne) hfull
      have hmore : n ∣ (full.drop n).length := by
        rw [List.length_drop]
        exact Nat.dvd_sub hfull (Nat.dvd_refl n)
      rw [chunks_of_ne_nil hn hne, chunks_of_ne_nil hn (List.append_ne_nil_of_left_ne_nil hne rest),
        List.take_append_of_le_length hle, List.drop_append_of_le_length hle, ih hmore]
      rfl

theorem literals_flushed {literal : Bytes} (h : literal.length ≤ 32 * 1024) :
    (chunks (32 * 1024) literal).map DeflatedSend.literal = flushed literal := by
  unfold flushed
  by_cases hnil : literal = []
  · rw [if_pos hnil, hnil]
    rfl
  · rw [if_neg hnil, chunks_of_length_le hnil h]
    rfl

theorem literals_append {full literal : Bytes} (hfull : 32 * 1024 ∣ full.length)
    (h : literal.length ≤ 32 * 1024) :
    (chunks (32 * 1024) (full ++ literal)).map DeflatedSend.literal =
      (chunks (32 * 1024) full).map DeflatedSend.literal ++ flushed literal := by
  rw [chunks_append (by decide) hfull, List.map_append, literals_flushed h]

theorem rendered_flushLiteral (tokens : List DeltaToken) (literal : Bytes) :
    (flushLiteral tokens literal).flatMap (rendered signatures) =
      tokens.flatMap (rendered signatures) ++
        (chunks (32 * 1024) literal).map DeflatedSend.literal := by
  unfold flushLiteral
  by_cases hnil : literal = []
  · rw [if_pos hnil, hnil]
    exact (List.append_nil _).symm
  · rw [if_neg hnil, List.flatMap_append, List.flatMap_singleton]
    rfl

theorem counted_flushLiteral (tokens : List DeltaToken) (literal : Bytes)
    (stats : RemoteDeltaStats) :
    (flushLiteral tokens literal).foldl counted stats =
      { tokens.foldl counted stats with
        literalBytes := (tokens.foldl counted stats).literalBytes + literal.length } := by
  unfold flushLiteral
  by_cases hnil : literal = []
  · rw [if_pos hnil, hnil]
    rfl
  · rw [if_neg hnil, List.foldl_append]
    rfl

theorem signed_flushLiteral {tokens : List DeltaToken}
    (h : ∀ token ∈ tokens, Signed signatures token) (literal : Bytes) :
    ∀ token ∈ flushLiteral tokens literal, Signed signatures token := by
  unfold flushLiteral
  split
  · exact h
  · intro token hmem
    rcases List.mem_append.mp hmem with hmem | hmem
    · exact h token hmem
    · rw [List.mem_singleton.mp hmem]
      exact fun offset len heq => by cases heq

section MatchLoop

variable {index : SignatureIndex} {digest : Bytes → Bytes} {target : Bytes}
  {matching : Bytes → Option BlockSignature}

/-- The literal of the matcher is what the sender has flushed of it, in whole
chunks, and what is still pending. Induction on the counter. -/
theorem matchLoop_script (hdistinct : (signatures.map (·.offset)).Nodup)
    (hsame : ∀ pos, index.findMatch target pos digest = matching (target.drop pos))
    (hmatch : ∀ window signature, matching window = some signature →
      signature ∈ signatures ∧ 0 < signature.len ∧ signature.len ≤ window.length)
    (start : RemoteDeltaStats) :
    ∀ {fuel pos : Nat} {full literal : Bytes} {tokens : List DeltaToken},
      32 * 1024 ∣ full.length → literal.length < 32 * 1024 → target.length < pos + fuel →
      pos ≤ target.length → (∀ token ∈ tokens, Signed signatures token) →
      ∃ result, matchLoop digest index target fuel pos (full ++ literal) tokens = some result ∧
        (∀ token ∈ result, Signed signatures token) ∧
        result.flatMap (rendered signatures) = tokens.flatMap (rendered signatures) ++
          ((chunks (32 * 1024) full).map DeflatedSend.literal ++
            script matching fuel literal (target.drop pos)) ∧
        Counted (tokens.foldl counted start) (full ++ literal)
          (tally matching fuel (target.drop pos)) (result.foldl counted start)
  | 0, pos, _, _, _, _, _, hfuel, hle, _ => by omega
  | fuel + 1, pos, full, literal, tokens, hfull, hshort, hfuel, hle, hsigned => by
      rw [matchLoop]
      by_cases hpos : pos < target.length
      · have hne : target.drop pos ≠ [] := by
          rw [Ne, List.drop_eq_nil_iff]
          omega
        rw [dif_pos hpos, hsame pos, script, tally, if_neg hne, if_neg hne]
        cases hfound : matching (target.drop pos) with
        | some signature =>
            obtain ⟨hmem, hlen, hfits⟩ := hmatch _ signature hfound
            rw [List.length_drop] at hfits
            have hcopied : ∀ token ∈ flushLiteral tokens (full ++ literal) ++
                [.copy signature.offset signature.len], Signed signatures token := by
              intro token htoken
              rcases List.mem_append.mp htoken with htoken | htoken
              · exact signed_flushLiteral hsigned _ token htoken
              · rw [List.mem_singleton.mp htoken]
                intro offset len heq
                obtain ⟨rfl, rfl⟩ := DeltaToken.copy.inj heq
                exact ⟨signature, hmem, rfl, rfl⟩
            obtain ⟨result, hloop, hresult, hsends, hstats⟩ :=
              @matchLoop_script hdistinct hsame hmatch start fuel (pos + signature.len) [] []
                _ (Nat.dvd_zero _) (by decide) (by omega) (by omega) hcopied
            refine ⟨result, hloop, hresult, ?_, ?_⟩
            · rw [hsends, List.flatMap_append, rendered_flushLiteral, List.flatMap_singleton,
                rendered_signature hdistinct hmem, literals_append hfull hshort.le]
              simp only [chunks_nil, List.map_nil, List.nil_append, List.append_assoc,
                List.singleton_append, List.drop_drop]
            · rw [Counted, hstats, List.foldl_append, counted_flushLiteral, List.drop_drop]
              simp [counted, Nat.add_assoc]
        | none =>
            have hone : [target[pos]] = (target.drop pos).take 1 := by
              rw [List.drop_eq_getElem_cons hpos]
              rfl
            have hdrop : target.drop (pos + 1) = (target.drop pos).drop 1 := by
              rw [List.drop_drop]
            have hlong : (literal ++ (target.drop pos).take 1).length = literal.length + 1 := by
              rw [← hone, List.length_append, List.length_singleton]
            simp only []
            rw [hone, List.append_assoc]
            by_cases hflush : (literal ++ (target.drop pos).take 1).length ≥ 32 * 1024
            · have hwhole : 32 * 1024 ∣ (full ++ (literal ++ (target.drop pos).take 1)).length := by
                rw [List.length_append, hlong]
                exact Nat.dvd_add hfull ⟨1, by omega⟩
              obtain ⟨result, hloop, hresult, hsends, hstats⟩ :=
                @matchLoop_script hdistinct hsame hmatch start fuel (pos + 1)
                  (full ++ (literal ++ (target.drop pos).take 1)) [] tokens hwhole (by decide)
                  (by omega) hpos hsigned
              rw [List.append_nil] at hloop hstats
              refine ⟨result, hloop, hresult, ?_, ?_⟩
              · rw [hsends, if_pos hflush, literals_append hfull (by omega), hdrop,
                  List.append_assoc]
              · rw [Counted, hstats, hdrop, List.length_append, hlong]
                simp [Nat.add_assoc]
            · obtain ⟨result, hloop, hresult, hsends, hstats⟩ :=
                @matchLoop_script hdistinct hsame hmatch start fuel (pos + 1) full
                  (literal ++ (target.drop pos).take 1) tokens hfull (by omega) (by omega) hpos
                  hsigned
              refine ⟨result, hloop, hresult, ?_, ?_⟩
              · rw [hsends, if_neg hflush, hdrop]
              · rw [Counted, hstats, hdrop, List.length_append, hlong]
                simp [Nat.add_assoc]
      · have hend : target.drop pos = [] := List.drop_eq_nil_iff.mpr (by omega)
        rw [dif_neg hpos, script, tally, if_pos hend, if_pos hend]
        refine ⟨_, rfl, signed_flushLiteral hsigned _, ?_, ?_⟩
        · rw [rendered_flushLiteral, literals_append hfull hshort.le]
        · exact counted_flushLiteral tokens _ start

end MatchLoop

end Rendered

/-! ## The two senders -/

/-- What the sender in memory makes of its tokens. -/
theorem generateDeltaWith_script {signatures : List BlockSignature} {index : RemoteSignatureIndex}
    (hne : signatures ≠ []) (hpos : ∀ signature ∈ signatures, 0 < signature.len)
    (hdistinct : (signatures.map (·.offset)).Nodup)
    (hnew : RemoteSignatureIndex.new signatures = .ok index) (digest : Bytes → Bytes)
    (target : Bytes) :
    ∃ tokens, generateDeltaWith digest (target.length + 1) signatures target = some tokens ∧
      (∀ token ∈ tokens, Signed signatures token) ∧
      tokens.flatMap (rendered signatures) =
        script (index.findMatch digest) (target.length + 1) [] target ∧
      Counted {} [] (tally (index.findMatch digest) (target.length + 1) target)
        (tokens.foldl counted {}) := by
  unfold generateDeltaWith
  by_cases hnil : target = []
  · subst hnil
    exact ⟨[], rfl, List.forall_mem_nil _, rfl, rfl⟩
  · rw [if_neg hnil, if_neg hne]
    have hmatch : ∀ window signature, index.findMatch digest window = some signature →
        signature ∈ signatures ∧ 0 < signature.len ∧ signature.len ≤ window.length := by
      intro window signature hfound
      obtain ⟨hmem, -, hle, -⟩ := findMatch_some hfound
      rw [(lengthsDesc_new hpos hnew).1] at hmem
      exact ⟨hmem, hpos signature hmem, hle⟩
    have hloop := @matchLoop_script signatures (SignatureIndex.new signatures) digest target
      (index.findMatch digest) hdistinct (findMatch_eq hpos hnew digest target) hmatch {}
      (target.length + 1) 0 [] [] [] (Nat.dvd_zero _) (by decide) (by omega) (Nat.zero_le _)
      (List.forall_mem_nil _)
    exact hloop

/-- A script, the end mark and the digest of the file. -/
def sendScript (hashes : Hashes) (finalChecksum : RemoteFinalChecksum)
    (compressor : TokenWriter flate) (sends : List DeflatedSend) (target : Bytes)
    (stats : RemoteDeltaStats) : Session RemoteDeltaStats := do
  let compressor ← toMux (sends.foldlM writeSend compressor)
  toMux (writeEndToken compressor)
  toMux (writeAll (finalDigest hashes finalChecksum target))
  pure stats

/-- What the sender with a window sends, however its reads are cut. -/
theorem writeDeltaTokensFromReader_eq_sendScript {hashes : Hashes} {reader : FileReader}
    {checksums : RemoteDeltaChecksums} {signatures : List BlockSignature}
    {compressionLevel : Option Nat} {index : RemoteSignatureIndex} {strong : Bytes → Bytes}
    (hnew : RemoteSignatureIndex.new signatures = .ok index)
    (hlengths : ∀ len ∈ index.lengthsDesc, 0 < len) (hsome : 0 < index.maxLen)
    (hstrong : strong = strongDigest hashes checksums.block
      ((signatures.head?.map (·.strong.length)).getD 16)) :
    @writeDeltaTokensFromReaderWithChecksum flate hashes reader checksums signatures
        compressionLevel {} =
      @sendScript flate hashes checksums.finalFile
        (compressionLevel.map RsyncDeflatedTokenWriter.new)
        (script (index.findMatch strong) (reader.rest.length + 1) [] reader.rest) reader.rest
        (tally (index.findMatch strong) (reader.rest.length + 1) reader.rest) := by
  let start : DeltaState flate :=
    { reader
      checksum := remoteFinalChecksumBuilder checksums.finalFile
      compressor := compressionLevel.map RsyncDeflatedTokenWriter.new }
  obtain ⟨filled, hfilled, hret⟩ := @fillDeltaWindow_eq flate index.maxLen
    (reader.rest.length + 1) start (fun h => by cases h) (Nat.lt_succ_self _)
  have hbytes : filled.window ++ filled.reader.rest = reader.rest := hfilled.bytes
  have hliteral : filled.literal = [] := hfilled.literal
  have hcounts : filled.stats = {} := hfilled.stats
  obtain ⟨final, hend, hfed, hcounted, hemits⟩ := @emits_deltaLoop flate index strong hlengths
    (lengthsDesc_le_maxLen hnew) hsome (reader.rest.length + 1) filled hfilled.eof hfilled.full
    (by rw [hbytes]; exact Nat.lt_succ_self _)
  have hscript : script (index.findMatch strong) (reader.rest.length + 1) filled.literal
      (filled.window ++ filled.reader.rest) =
        script (index.findMatch strong) (reader.rest.length + 1) [] reader.rest := by
    rw [hbytes, hliteral]
  rw [hscript] at hemits
  have hstats : final.stats =
      tally (index.findMatch strong) (reader.rest.length + 1) reader.rest := by
    rw [hbytes, hliteral, hcounts] at hcounted
    rw [hcounted]
    simp
  have hdigest : final.checksum.finalize hashes =
      finalDigest hashes checksums.finalFile reader.rest := by
    rw [hend, RemoteChecksumBuilder.update_nil] at hfed
    rw [hfed, hfilled.fed]
    rfl
  have hloop := emits_fill (k := fun s => do
      let s ← deltaLoop index strong none (reader.rest.length + 1) s
      writePendingLiteralToken s)
    (hret (compressionLevel.map RsyncDeflatedTokenWriter.new)) (hemits _)
  calc @writeDeltaTokensFromReaderWithChecksum flate hashes reader checksums signatures
        compressionLevel {}
      = (do
        let s ← (do
          let s ← fillDeltaWindow index.maxLen none (reader.rest.length + 1) start
          let s ← deltaLoop index strong none (reader.rest.length + 1) s
          writePendingLiteralToken s)
        toMux (writeEndToken s.compressor)
        toMux (writeAll (s.checksum.finalize hashes))
        pure s.stats) := by
        unfold writeDeltaTokensFromReaderWithChecksum
        simp only [hnew, Prog.ofExcept_ok, Prog.ret_bind, ensureAllocationWithinLimit,
          Prog.bind_assoc, ← hstrong]
        rfl
    _ = _ := by
        unfold Emits at hloop
        unfold sendScript
        rw [hloop, ← hstats, ← hdigest]
        simp only [Prog.bind_assoc, Prog.pure_eq, Prog.ret_bind]

/-- **The sender with a window is the sender in memory.** However its reads are
cut, the same writes in the same order, and the same counts. -/
theorem writeDeltaTokensFromReader_eq_fromBytes (hashes : Hashes) (reader : FileReader)
    (checksums : RemoteDeltaChecksums) (signatures : List BlockSignature)
    (compressionLevel : Option Nat) (hne : signatures ≠ [])
    (hpos : ∀ signature ∈ signatures, 0 < signature.len)
    (hdistinct : (signatures.map (·.offset)).Nodup) :
    @writeDeltaTokensFromReaderWithChecksum flate hashes reader checksums signatures
        compressionLevel {} =
      @writeDeltaTokensFromBytesWithChecksum flate signatures hashes reader.rest checksums.block
        checksums.finalFile compressionLevel := by
  obtain ⟨first, more, hcons⟩ := List.exists_cons_of_ne_nil hne
  have hfirst : first ∈ signatures := hcons ▸ List.mem_cons_self
  obtain ⟨index, hnew, -, hsome, hlengths⟩ := signatureIndex_new hfirst (hpos first hfirst)
  obtain ⟨tokens, hgenerate, hsigned, hsends, hstats⟩ := generateDeltaWith_script hne hpos hdistinct
    hnew (strongDigest hashes checksums.block
      ((signatures.head?.map (·.strong.length)).getD 16)) reader.rest
  have hrendered := @renders_tokens flate signatures hdistinct tokens hsigned
    (compressionLevel.map RsyncDeflatedTokenWriter.new) {}
  rw [writeDeltaTokensFromReader_eq_sendScript hnew hlengths hsome rfl, ← hsends]
  unfold writeDeltaTokensFromBytesWithChecksum sendScript
  rw [if_neg hne]
  simp only [hgenerate]
  unfold Renders at hrendered
  rw [hrendered, hstats]
  simp only [Prog.bind_assoc, Prog.pure_eq, Prog.ret_bind]
  simp

/-- The file `xab`, read in two pieces, against a basis of the block `ab`. -/
theorem writeDeltaTokensFromReader_moved :
    let signature : BlockSignature :=
      ⟨0, 0, 2, rollingChecksum [0x61, 0x62], strongDigest md4Hashes .plainMd4 16 [0x61, 0x62]⟩
    @writeDeltaTokensFromReaderWithChecksum levelZeroFlate md4Hashes ⟨[0x78, 0x61, 0x62], [0]⟩
        ⟨.plainMd4, .plainMd4⟩ [signature] (some 6) {} =
      @writeDeltaTokensFromBytesWithChecksum levelZeroFlate [signature] md4Hashes
        [0x78, 0x61, 0x62] .plainMd4 .plainMd4 (some 6) :=
  writeDeltaTokensFromReader_eq_fromBytes md4Hashes ⟨[0x78, 0x61, 0x62], [0]⟩
    ⟨.plainMd4, .plainMd4⟩ _ (some 6) (List.cons_ne_nil _ _)
    (by
      intro signature hmem
      rw [List.mem_singleton.mp hmem]
      decide)
    (List.nodup_singleton _)

end RsyncWin
