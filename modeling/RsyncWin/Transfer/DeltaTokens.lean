import RsyncWin.Transfer.Delta

/-!
# What the delta sender sends

The sender's answer as a list of tokens. Whatever the reads of the file are and
wherever the window stands, the tokens sent so far, the pending literal, the
window and the unread rest spell out the same bytes (`Sent`); at the end the
tokens alone do.
-/

namespace RsyncWin

open ByteString Codec Duplex

inductive Token where
  | literal (bytes : Bytes)
  | copy (blockIndex : Nat)
deriving DecidableEq

/-- Block `i` of a file cut into blocks of `b` bytes. -/
def blockAt (b : Nat) (basis : Bytes) (i : Nat) : Bytes := (basis.drop (i * b)).take b

namespace Token

def wire : Token → Bytes
  | .literal bytes => leBytes 4 (ofSigned 32 (asI32 bytes.length)) ++ bytes
  | .copy i => leBytes 4 (ofSigned 32 (-(i : Int) - 1))

def data (b : Nat) (basis : Bytes) : Token → Bytes
  | .literal bytes => bytes
  | .copy i => blockAt b basis i

/-- A literal fits one buffer; a copy names a block that is there. -/
def Ok (b : Nat) (basis : Bytes) : Token → Prop
  | .literal bytes => 0 < bytes.length ∧ bytes.length ≤ 32 * 1024
  | .copy i => i * b < basis.length ∧ i < i32Max

end Token

def endToken : Bytes := leBytes 4 (ofSigned 32 0)

/-- Signatures of blocks of the basis. -/
def Describes (b : Nat) (basis : Bytes) (strong : Bytes → Bytes)
    (signatures : List BlockSignature) : Prop :=
  ∀ signature ∈ signatures, signature.index * b < basis.length ∧ signature.index < i32Max ∧
    signature.len = (blockAt b basis signature.index).length ∧
    signature.strong = strong (blockAt b basis signature.index)

/-- No window of the target has the digest of a different block of its length. -/
def NoCollision (b : Nat) (basis target : Bytes) (strong : Bytes → Bytes) : Prop :=
  ∀ i, i * b < basis.length → ∀ window, window <:+: target →
    window.length = (blockAt b basis i).length → strong window = strong (blockAt b basis i) →
    window = blockAt b basis i

variable {flate : Flate} {m : Machine} {b : Nat} {basis : Bytes}

/-! ## What a stretch of the loop preserves -/

namespace DeltaState

/-- The bytes that are not covered by a token yet. -/
def pending (s : DeltaState flate) : Bytes := s.literal ++ (s.window ++ s.reader.rest)

end DeltaState

structure Sent (b : Nat) (basis : Bytes) (s s' : DeltaState flate) (tokens : List Token) :
    Prop where
  ok : ∀ t ∈ tokens, t.Ok b basis
  data : tokens.flatMap (Token.data b basis) ++ s'.pending = s.pending
  fed : s'.checksum.update s'.reader.rest = s.checksum.update s.reader.rest
  stats : s'.stats.literalBytes + s'.stats.copiedBytes + s'.pending.length =
    s.stats.literalBytes + s.stats.copiedBytes + s.pending.length

/-- What holds between the steps of an uncompressed run. -/
structure Running (s : DeltaState flate) : Prop where
  plain : s.compressor = none
  small : s.literal.length < 32 * 1024
  eof : s.eof = true → s.reader.rest = []

theorem sent_refl (s : DeltaState flate) : Sent b basis s s [] :=
  ⟨by simp, by simp, rfl, rfl⟩

theorem Sent.trans {s s' s'' : DeltaState flate} {ts us : List Token}
    (h : Sent b basis s s' ts) (h' : Sent b basis s' s'' us) :
    Sent b basis s s'' (ts ++ us) := by
  constructor
  · intro t ht
    rcases List.mem_append.mp ht with ht | ht
    · exact h.ok t ht
    · exact h'.ok t ht
  · rw [List.flatMap_append, List.append_assoc, h'.data, h.data]
  · rw [h'.fed, h.fed]
  · rw [h'.stats, h.stats]

/-! ## Tokens on the wire -/

theorem exchange_literalToken (bytes : Bytes) :
    Exchange machine (toMux (writeLiteralToken (none : TokenWriter flate) bytes)) m []
      (Token.literal bytes).wire none m := by
  have hw : Writes (writeLiteralToken (none : TokenWriter flate) bytes)
      [leBytes 4 (ofSigned 32 (asI32 bytes.length)), bytes] none :=
    (writes_writeI32Le _).bind ((writes_writeAll bytes).bind_ret rfl)
  have h := exchange_toMux (H := machine) (m := m) hw
  simpa [Token.wire] using h

theorem exchange_copyToken {i : Nat} (hi : i < i32Max) :
    Exchange machine (toMux (writeCopyToken (none : TokenWriter flate) i)) m []
      (Token.copy i).wire none m := by
  have hw : Writes (writeCopyToken (none : TokenWriter flate) i)
      [leBytes 4 (ofSigned 32 (-(i : Int) - 1))] none := by
    unfold writeCopyToken
    rw [blockIndexToCopyToken_eq hi]
    exact (writes_writeI32Le _).bind_ret rfl
  have h := exchange_toMux (H := machine) (m := m) hw
  simpa [Token.wire] using h

/-! ## The steps -/

/-- After a flush nothing is pending as a literal, and one token was sent if
there was something. -/
theorem exchange_writePendingLiteralToken {s : DeltaState flate} (hs : s.compressor = none)
    (hlen : s.literal.length ≤ 32 * 1024) (heof : s.eof = true → s.reader.rest = []) :
    ∃ s' tokens, Exchange machine (writePendingLiteralToken s) m [] (tokens.flatMap Token.wire) s' m ∧
      Sent b basis s s' tokens ∧ Running s' ∧ s'.literal = [] ∧ s'.window = s.window ∧
      s'.reader = s.reader := by
  unfold writePendingLiteralToken
  by_cases hnil : s.literal = []
  · rw [if_pos hnil]
    have hsmall : s.literal.length < 32 * 1024 := by simp [hnil]
    exact ⟨s, [], exchange_ret s m, sent_refl s, ⟨hs, hsmall, heof⟩, hnil, rfl, rfl⟩
  · rw [if_neg hnil, hs]
    refine ⟨{ s with
        compressor := none
        literal := []
        stats := { s.stats with literalBytes := s.stats.literalBytes + s.literal.length } },
      [.literal s.literal], ?_, ?_, ?_, rfl, rfl, rfl⟩
    · rw [List.flatMap_singleton]
      exact (exchange_literalToken s.literal).bind_ret rfl
    · refine ⟨?_, ?_, rfl, ?_⟩
      · intro t ht
        rw [List.mem_singleton.mp ht]
        exact ⟨List.length_pos_iff.mpr hnil, hlen⟩
      · simp [DeltaState.pending, Token.data]
      · simp only [DeltaState.pending, List.length_append, List.length_nil]
        omega
    · exact ⟨rfl, by simp, heof⟩

theorem exchange_literalStep {s : DeltaState flate} (hs : Running s) (hne : s.window ≠ []) :
    ∃ s' tokens, Exchange machine (literalStep s) m [] (tokens.flatMap Token.wire) s' m ∧
      Sent b basis s s' tokens ∧ Running s' ∧
      s'.reader = s.reader ∧ ∃ n, 0 < n ∧ n ≤ s.window.length ∧ s'.window = s.window.drop n := by
  obtain ⟨x, xs, hx⟩ := List.exists_cons_of_ne_nil hne
  unfold literalStep
  generalize hmid : { s with
    literal := s.literal ++ s.window.take 1, window := s.window.drop 1 } = mid
  have hsent : Sent b basis s mid [] := by
    subst hmid
    refine ⟨by simp, ?_, rfl, ?_⟩
    · simp [DeltaState.pending, hx]
    · simp [DeltaState.pending, hx]
  have hplain : mid.compressor = none := by
    subst hmid
    exact hs.plain
  have hshort : mid.literal.length ≤ 32 * 1024 := by
    subst hmid
    have := hs.small
    simp [hx]
    omega
  have heof : mid.eof = true → mid.reader.rest = [] := by
    subst hmid
    exact hs.eof
  have hread : mid.reader = s.reader := by
    subst hmid
    rfl
  have hwindow : ∃ n, 0 < n ∧ n ≤ s.window.length ∧ mid.window = s.window.drop n := by
    subst hmid
    exact ⟨1, by omega, by simp [hx], rfl⟩
  dsimp only
  by_cases hfull : mid.literal.length ≥ 32 * 1024
  · rw [if_pos hfull]
    obtain ⟨s', tokens, hx, hsent', hrun, -, hwin, hread'⟩ :=
      @exchange_writePendingLiteralToken flate m b basis mid hplain hshort heof
    exact ⟨s', tokens, hx, hsent.trans hsent', hrun, hread'.trans hread, by rwa [hwin]⟩
  · rw [if_neg hfull]
    exact ⟨mid, [], exchange_ret mid m, hsent, ⟨hplain, by omega, heof⟩, hread, hwindow⟩

theorem findMatch_some {index : RemoteSignatureIndex} {strong : Bytes → Bytes} {window : Bytes}
    {signature : BlockSignature} (h : index.findMatch strong window = some signature) :
    signature ∈ index.signatures ∧ signature.len ∈ index.lengthsDesc ∧
      signature.len ≤ window.length ∧ signature.strong = strong (window.take signature.len) := by
  obtain ⟨len, hlen, hfind⟩ := List.exists_of_findSome?_eq_some h
  by_cases hshort : window.length < len
  · simp [hshort] at hfind
  · rw [if_neg hshort] at hfind
    have hmem := List.mem_of_find?_eq_some hfind
    have hprop := List.find?_some hfind
    simp only [decide_eq_true_eq] at hprop
    obtain ⟨rfl, -, hstrong⟩ := hprop
    exact ⟨hmem, hlen, by omega, hstrong⟩

theorem mem_lengthsDesc {lengths : List Nat} {len : Nat}
    (h : len ∈ ((lengths.filter (0 < ·)).insertionSort (· ≥ ·)).destutter (· ≠ ·)) : 0 < len := by
  have hsorted := (List.destutter_sublist _ _).mem h
  rw [List.mem_insertionSort, List.mem_filter] at hsorted
  exact of_decide_eq_true hsorted.2

/-- A signature of a non-empty block is enough for an index; its lengths are
all positive. -/
theorem signatureIndex_new {signatures : List BlockSignature} {signature : BlockSignature}
    (hmem : signature ∈ signatures) (hlen : 0 < signature.len) :
    ∃ index, RemoteSignatureIndex.new signatures = .ok index ∧ index.signatures = signatures ∧
      0 < index.maxLen ∧ ∀ len ∈ index.lengthsDesc, 0 < len := by
  unfold RemoteSignatureIndex.new
  dsimp only
  generalize hdesc : (((signatures.map (·.len)).filter (0 < ·)).insertionSort (· ≥ ·)).destutter
    (· ≠ ·) = lengthsDesc
  have hpos : ∀ len ∈ lengthsDesc, 0 < len := by
    intro len h
    rw [← hdesc] at h
    exact mem_lengthsDesc h
  have hne : lengthsDesc ≠ [] := by
    rw [← hdesc, Ne, List.destutter_eq_nil]
    intro hnil
    have h : signature.len ∈ ((signatures.map (·.len)).filter (0 < ·)).insertionSort (· ≥ ·) := by
      rw [List.mem_insertionSort, List.mem_filter]
      exact ⟨List.mem_map_of_mem hmem, decide_eq_true hlen⟩
    rw [hnil] at h
    cases h
  obtain ⟨first, rest, rfl⟩ := List.exists_cons_of_ne_nil hne
  have hfirst : 0 < first := hpos first List.mem_cons_self
  rw [List.headD_cons, if_neg (by omega)]
  exact ⟨_, rfl, rfl, hfirst, hpos⟩

section Loop

variable {index : RemoteSignatureIndex} {strong : Bytes → Bytes} {target : Bytes}

theorem exchange_copyStep {s : DeltaState flate} {signature : BlockSignature} (hs : Running s)
    (hd : Describes b basis strong index.signatures) (hn : NoCollision b basis target strong)
    (hwindow : s.window <:+: target) (hpos : ∀ len ∈ index.lengthsDesc, 0 < len)
    (hmatch : index.findMatch strong s.window = some signature) :
    ∃ s' tokens, Exchange machine (copyStep s signature) m [] (tokens.flatMap Token.wire) s' m ∧
      Sent b basis s s' tokens ∧ Running s' ∧
      s'.reader = s.reader ∧ ∃ n, 0 < n ∧ n ≤ s.window.length ∧ s'.window = s.window.drop n := by
  obtain ⟨hmem, hlen, hle, hstrong⟩ := findMatch_some hmatch
  obtain ⟨hindex, hi32, hblock, hdigest⟩ := hd signature hmem
  have hwindow : s.window.take signature.len = blockAt b basis signature.index := by
    refine hn signature.index hindex _ ?_ ?_ ?_
    · exact (List.take_prefix _ _).isInfix.trans hwindow
    · rw [List.length_take_of_le hle, hblock]
    · rw [← hstrong, hdigest]
  obtain ⟨mid, tokens, hx, hsent, hrun, hlit, hwin, hread⟩ :=
    @exchange_writePendingLiteralToken flate m b basis s hs.plain hs.small.le hs.eof
  have hcopy : Exchange machine (toMux (writeCopyToken mid.compressor signature.index)) m []
      (Token.copy signature.index).wire none m := by
    rw [hrun.plain]
    exact exchange_copyToken hi32
  refine ⟨{ mid with
      compressor := none
      window := mid.window.drop signature.len
      stats := { mid.stats with copiedBytes := mid.stats.copiedBytes + signature.len } },
    tokens ++ [.copy signature.index], ?_, hsent.trans ?_, ⟨rfl, hrun.small, hrun.eof⟩, hread,
    signature.len, hpos _ hlen, hle, by rw [hwin]⟩
  · rw [List.flatMap_append, List.flatMap_singleton]
    exact hx.bind (hcopy.bind_ret rfl)
  · refine ⟨?_, ?_, rfl, ?_⟩
    · intro t ht
      rw [List.mem_singleton.mp ht]
      exact ⟨hindex, hi32⟩
    · simp only [DeltaState.pending, List.flatMap_singleton, Token.data, hlit, hwin,
        List.nil_append, ← hwindow]
      rw [← List.append_assoc, List.take_append_drop]
    · simp only [DeltaState.pending, List.length_append, List.length_drop, hwin]
      omega

theorem exchange_deltaStep {s : DeltaState flate} (hs : Running s) (hne : s.window ≠ [])
    (hd : Describes b basis strong index.signatures) (hn : NoCollision b basis target strong)
    (hwindow : s.window <:+: target) (hpos : ∀ len ∈ index.lengthsDesc, 0 < len) :
    ∃ s' tokens, Exchange machine (deltaStep index strong s) m [] (tokens.flatMap Token.wire) s' m ∧
      Sent b basis s s' tokens ∧ Running s' ∧
      s'.reader = s.reader ∧ ∃ n, 0 < n ∧ n ≤ s.window.length ∧ s'.window = s.window.drop n := by
  unfold deltaStep
  cases hmatch : index.findMatch strong s.window with
  | some signature => exact exchange_copyStep hs hd hn hwindow hpos hmatch
  | none => exact exchange_literalStep hs hne

/-- The window after it was filled: bytes moved from the file to it until it was full
or the file ended. -/
structure Filled (maxLen : Nat) (s s' : DeltaState flate) : Prop where
  literal : s'.literal = s.literal
  stats : s'.stats = s.stats
  bytes : s'.window ++ s'.reader.rest = s.window ++ s.reader.rest
  fed : s'.checksum.update s'.reader.rest = s.checksum.update s.reader.rest
  eof : s'.eof = true → s'.reader.rest = []
  full : s'.reader.rest = [] ∨ maxLen ≤ s'.window.length

/-- Filling neither sends nor depends on how tokens are written. -/
theorem fillDeltaWindow_eq {maxLen : Nat} : ∀ {fuel : Nat} {s : DeltaState flate},
    (s.eof = true → s.reader.rest = []) → s.reader.rest.length < fuel →
    ∃ s', Filled maxLen s s' ∧ ∀ compressor : TokenWriter flate,
      fillDeltaWindow maxLen none fuel { s with compressor } = .ret { s' with compressor }
  | 0, _, _, hfuel => absurd hfuel (by omega)
  | fuel + 1, s, hs, hfuel => by
      by_cases hmore : s.eof = false ∧ s.window.length < maxLen
      · have hstep : ∀ compressor : TokenWriter flate,
            fillDeltaWindow maxLen none (fuel + 1) { s with compressor } =
              if (s.reader.read (maxLen - s.window.length)).1 = [] then
                .ret { s with
                  reader := (s.reader.read (maxLen - s.window.length)).2
                  eof := true
                  compressor }
              else fillDeltaWindow maxLen none fuel { s with
                reader := (s.reader.read (maxLen - s.window.length)).2
                window := s.window ++ (s.reader.read (maxLen - s.window.length)).1
                checksum := s.checksum.update (s.reader.read (maxLen - s.window.length)).1
                compressor } := by
          intro compressor
          rw [fillDeltaWindow, if_pos hmore]
          rfl
        simp only [hstep]
        rcases s.reader.read_cases (show 0 < maxLen - s.window.length by omega) with
          ⟨reader, hread, hrest, hrest'⟩ | ⟨chunk, reader, hread, hchunk, hsplit, hpos, -, hlen⟩
        · simp only [hread]
          refine ⟨{ s with reader, eof := true }, ⟨rfl, rfl, ?_, ?_, fun _ => hrest', Or.inl hrest'⟩,
            fun compressor => if_pos trivial⟩
          · simp [hrest, hrest']
          · simp [hrest, hrest']
        · simp only [hread]
          have heof : s.eof = true → reader.rest = [] := by
            intro h
            rw [hmore.1] at h
            cases h
          obtain ⟨s', hfilled, hret⟩ := @fillDeltaWindow_eq maxLen fuel
            { s with reader, window := s.window ++ chunk, checksum := s.checksum.update chunk }
            heof (by show reader.rest.length < fuel; omega)
          refine ⟨s', ⟨hfilled.literal, hfilled.stats, ?_, ?_, hfilled.eof, hfilled.full⟩,
            fun compressor => ?_⟩
          · rw [hfilled.bytes, ← hsplit]
            simp
          · rw [hfilled.fed, ← hsplit]
            simp
          · rw [if_neg hchunk]
            exact hret compressor
      · refine ⟨s, ⟨rfl, rfl, rfl, rfl, hs, ?_⟩, fun compressor => ?_⟩
        · cases heof : s.eof with
          | true => exact Or.inl (hs heof)
          | false =>
              right
              by_contra hlt
              exact hmore ⟨heof, by omega⟩
        · rw [fillDeltaWindow, if_neg hmore]
          rfl

theorem exchange_fillDeltaWindow {maxLen fuel : Nat} {s : DeltaState flate} (hs : Running s)
    (hfuel : s.reader.rest.length < fuel) :
    ∃ s', Exchange machine (fillDeltaWindow maxLen none fuel s) m [] [] s' m ∧
      Sent b basis s s' [] ∧ Running s' ∧
      s'.window ++ s'.reader.rest = s.window ++ s.reader.rest ∧
      (s'.reader.rest = [] ∨ maxLen ≤ s'.window.length) := by
  obtain ⟨s', hfilled, hret⟩ := @fillDeltaWindow_eq flate maxLen fuel s hs.eof hfuel
  have hpending : s'.pending = s.pending := by
    unfold DeltaState.pending
    rw [hfilled.literal, hfilled.bytes]
  have hx := exchange_ret (H := machine) (L := localSig) { s' with compressor := s.compressor } m
  rw [← hret s.compressor] at hx
  refine ⟨{ s' with compressor := s.compressor }, hx, ⟨by simp, hpending, hfilled.fed, ?_⟩,
    ⟨hs.plain, ?_, hfilled.eof⟩, hfilled.bytes, hfilled.full⟩
  · show s'.stats.literalBytes + s'.stats.copiedBytes + s'.pending.length = _
    rw [hfilled.stats, hpending]
  · show s'.literal.length < 32 * 1024
    rw [hfilled.literal]
    exact hs.small

/-- The loop ends with an empty window at the end of the file. -/
theorem exchange_deltaLoop (hd : Describes b basis strong index.signatures)
    (hn : NoCollision b basis target strong) (hpos : ∀ len ∈ index.lengthsDesc, 0 < len)
    (hmax : 0 < index.maxLen) : ∀ {fuel : Nat} {s : DeltaState flate}, Running s →
    s.window ++ s.reader.rest <:+ target →
    (s.reader.rest = [] ∨ index.maxLen ≤ s.window.length) →
    (s.window ++ s.reader.rest).length < fuel →
    ∃ s' tokens,
      Exchange machine (deltaLoop index strong none fuel s) m [] (tokens.flatMap Token.wire) s' m ∧
      Sent b basis s s' tokens ∧ Running s' ∧ s'.window = [] ∧ s'.reader.rest = []
  | 0, _, _, _, _, hfuel => absurd hfuel (by omega)
  | fuel + 1, s, hs, hsuffix, hfull, hfuel => by
      unfold deltaLoop
      by_cases hnil : s.window = []
      · rw [if_pos hnil]
        refine ⟨s, [], exchange_ret s m, sent_refl s, hs, hnil, ?_⟩
        rcases hfull with h | h
        · exact h
        · rw [hnil, List.length_nil] at h
          omega
      · rw [if_neg hnil]
        have hwindow : s.window <:+: target :=
          (List.prefix_append _ _).isInfix.trans hsuffix.isInfix
        obtain ⟨s₁, ts, hx₁, hsent₁, hrun₁, hread, n, hn0, hnle, hwin₁⟩ :=
          @exchange_deltaStep flate m b basis index strong target s hs hnil hd hn hwindow hpos
        obtain ⟨s₂, hx₂, hsent₂, hrun₂, hbytes, hfull₂⟩ :=
          @exchange_fillDeltaWindow flate m b basis index.maxLen (s₁.reader.rest.length + 1) s₁
            hrun₁ (by omega)
        have hdrop : s₂.window ++ s₂.reader.rest = (s.window ++ s.reader.rest).drop n := by
          rw [hbytes, hwin₁, hread, List.drop_append_of_le_length hnle]
        have hless : (s₂.window ++ s₂.reader.rest).length < fuel := by
          rw [hdrop, List.length_drop]
          rw [List.length_append] at hfuel ⊢
          omega
        have hsuffix₂ : s₂.window ++ s₂.reader.rest <:+ target := by
          rw [hdrop]
          exact (List.drop_suffix _ _).trans hsuffix
        obtain ⟨s₃, us, hx₃, hsent₃, hrun₃, hend⟩ :=
          @exchange_deltaLoop hd hn hpos hmax fuel s₂ hrun₂ hsuffix₂ hfull₂ hless
        have hsent := (hsent₁.trans hsent₂).trans hsent₃
        rw [List.append_nil] at hsent
        refine ⟨s₃, ts ++ us, ?_, hsent, hrun₃, hend⟩
        rw [List.flatMap_append]
        exact hx₁.bind (hx₂.before hx₃)

end Loop

/-! ## The whole answer -/

/-- The bytes after the last token: the end mark and the checksum of the file. -/
def trailer (hashes : Hashes) (checksum : RemoteFinalChecksum) (target : Bytes) : Bytes :=
  endToken ++ finalDigest hashes checksum target

theorem strongDigest_length (hashes : Hashes) (checksum : RemoteFileChecksum) (block : Bytes) :
    (strongDigest hashes checksum 16 block).length = 16 := by
  unfold strongDigest remoteChecksumForBytes RemoteChecksumBuilder.finalize
  rw [List.length_take, Hasher.digest_length]
  rfl

theorem exchange_trailer {hashes : Hashes} {checksum : RemoteChecksumBuilder}
    {compressor : TokenWriter flate} (h : compressor = none) {α : Type} (a : α) :
    Exchange machine (do
      toMux (writeEndToken compressor)
      toMux (writeAll (checksum.finalize hashes))
      pure a) m [] (endToken ++ checksum.finalize hashes) a m := by
  subst h
  have hend : Exchange machine (toMux (writeEndToken (none : TokenWriter flate))) m [] endToken ()
      m := by
    have hx := exchange_toMux (H := machine) (m := m) (writes_writeI32Le 0)
    rw [List.flatten_singleton] at hx
    exact hx
  have hsum : Exchange machine (toMux (writeAll (checksum.finalize hashes))) m []
      (checksum.finalize hashes) () m := by
    have hx := exchange_toMux (H := machine) (m := m) (writes_writeAll (checksum.finalize hashes))
    simpa using hx
  exact hend.bind (hsum.bind_ret rfl)

theorem exchange_writeDeltaTokensFromReader {hashes : Hashes} {checksums : RemoteDeltaChecksums}
    {signatures : List BlockSignature} {reader : FileReader} (hb : 0 < b)
    (hne : signatures ≠ [])
    (hd : Describes b basis (strongDigest hashes checksums.block 16) signatures)
    (hn : NoCollision b basis reader.rest (strongDigest hashes checksums.block 16)) :
    ∃ (stats : RemoteDeltaStats) (tokens : List Token), Exchange machine
        (@writeDeltaTokensFromReaderWithChecksum flate hashes reader checksums signatures none {})
        m [] (tokens.flatMap Token.wire ++ trailer hashes checksums.finalFile reader.rest) stats m ∧
      (∀ t ∈ tokens, t.Ok b basis) ∧ tokens.flatMap (Token.data b basis) = reader.rest ∧
      stats.literalBytes + stats.copiedBytes = reader.rest.length := by
  obtain ⟨first, rest, rfl⟩ := List.exists_cons_of_ne_nil hne
  obtain ⟨hblock, -, hlen, hstrong⟩ := hd first List.mem_cons_self
  have hpositive : 0 < first.len := by
    rw [hlen, blockAt, List.length_take, List.length_drop]
    omega
  have hchecksumLen : (((first :: rest).head?.map (·.strong.length)).getD 16) = 16 := by
    simp [hstrong, strongDigest_length]
  obtain ⟨index, hnew, hsigs, hmax, hpos⟩ := signatureIndex_new List.mem_cons_self hpositive
  rw [← hsigs] at hd
  generalize hstart : ({
    reader
    checksum := remoteFinalChecksumBuilder checksums.finalFile
    compressor := none } : DeltaState flate) = start
  have hrun₀ : Running start := by
    subst hstart
    exact ⟨rfl, by simp, by simp⟩
  have hpending : start.pending = reader.rest := by
    subst hstart
    rfl
  obtain ⟨s₁, hx₁, hsent₁, hrun₁, hbytes, hfull⟩ :=
    @exchange_fillDeltaWindow flate m b basis index.maxLen (reader.rest.length + 1) start hrun₀
      (by subst hstart; exact Nat.lt_succ_self _)
  have hwhole : s₁.window ++ s₁.reader.rest = reader.rest := by
    rw [hbytes]
    subst hstart
    rfl
  obtain ⟨s₂, ts, hx₂, hsent₂, hrun₂, hwin, hrest⟩ :=
    @exchange_deltaLoop flate m b basis index _ reader.rest hd hn hpos hmax
      (reader.rest.length + 1) s₁ hrun₁ (by rw [hwhole]) hfull (by rw [hwhole]; omega)
  obtain ⟨s₃, us, hx₃, hsent₃, hrun₃, hlit, hwin₃, hread₃⟩ :=
    @exchange_writePendingLiteralToken flate m b basis s₂ hrun₂.plain hrun₂.small.le hrun₂.eof
  have hsent := (hsent₁.trans hsent₂).trans hsent₃
  rw [List.nil_append] at hsent
  have hdone : s₃.pending = [] := by
    simp [DeltaState.pending, hlit, hwin₃, hread₃, hwin, hrest]
  have hdata : (ts ++ us).flatMap (Token.data b basis) = reader.rest := by
    rw [← hpending, ← hsent.data, hdone, List.append_nil]
  have hdigest : s₃.checksum.finalize hashes = finalDigest hashes checksums.finalFile reader.rest := by
    have hfed := hsent.fed
    rw [hread₃, hrest, RemoteChecksumBuilder.update_nil] at hfed
    rw [hfed]
    subst hstart
    rfl
  refine ⟨s₃.stats, ts ++ us, ?_, hsent.ok, hdata, ?_⟩
  · unfold writeDeltaTokensFromReaderWithChecksum
    simp only [hnew, Prog.ofExcept_ok, Prog.ret_bind, ensureAllocationWithinLimit, hchecksumLen,
      Option.map_none, hstart]
    rw [List.flatMap_append, List.append_assoc, trailer, ← hdigest]
    refine hx₁.before (hx₂.bind (hx₃.bind ?_))
    exact exchange_trailer hrun₃.plain s₃.stats
  · have hstats := hsent.stats
    rw [hdone, hpending, List.length_nil] at hstats
    subst hstart
    simpa using hstats

theorem exchange_literalLoop : ∀ {fuel : Nat} {reader : FileReader}
    {checksum : RemoteChecksumBuilder} {total : Nat}, reader.rest.length < fuel →
    ∃ tokens : List Token, Exchange machine
        (literalLoop none fuel reader checksum (none : TokenWriter flate) total) m []
        (tokens.flatMap Token.wire)
        (checksum.update reader.rest, none, total + reader.rest.length) m ∧
      (∀ t ∈ tokens, t.Ok b basis) ∧ tokens.flatMap (Token.data b basis) = reader.rest
  | 0, _, _, _, h => absurd h (by omega)
  | fuel + 1, reader, checksum, total, hfuel => by
      unfold literalLoop
      rcases reader.read_cases (show 0 < 32 * 1024 by decide) with
        ⟨reader', hread, hrest, -⟩ | ⟨chunk, reader', hread, hchunk, hsplit, hpos, hle, hlen⟩
      · refine ⟨[], ?_, by simp, by simp [hrest]⟩
        simp only [hread, if_true, hrest, RemoteChecksumBuilder.update_nil, List.length_nil,
          Nat.add_zero]
        exact exchange_ret _ m
      · rw [hread]
        have hrec := @exchange_literalLoop fuel reader' (checksum.update chunk)
          (total + chunk.length) (by omega)
        obtain ⟨tokens, hx, hok, hdata⟩ := hrec
        refine ⟨.literal chunk :: tokens, ?_, ?_, ?_⟩
        · simp only [if_neg hchunk]
          rw [List.flatMap_cons]
          have hres : (checksum.update reader.rest, (none : TokenWriter flate),
              total + reader.rest.length) =
            ((checksum.update chunk).update reader'.rest, none,
              total + chunk.length + reader'.rest.length) := by
            rw [RemoteChecksumBuilder.update_update, hsplit, ← hlen, Nat.add_assoc]
          rw [hres]
          exact (exchange_literalToken chunk).bind hx
        · intro t ht
          rcases List.mem_cons.mp ht with rfl | ht
          · exact ⟨hpos, hle⟩
          · exact hok t ht
        · rw [List.flatMap_cons, hdata]
          exact hsplit

/-- **The sender's answer.** Tokens that spell out the file, then its trailer;
with or without signatures, however the file is read. -/
theorem exchange_writeDeltaTokensFromPath {hashes : Hashes} {checksums : RemoteDeltaChecksums}
    {signatures : List BlockSignature} {path : LocalPath} {target : Bytes} (hcalm : m.faults = [])
    (hfile : m.files path = some target) (hb : 0 < b)
    (hd : Describes b basis (strongDigest hashes checksums.block 16) signatures)
    (hn : NoCollision b basis target (strongDigest hashes checksums.block 16)) :
    ∃ (stats : RemoteDeltaStats) (tokens : List Token), Exchange machine
        (writeDeltaTokensFromPath flate hashes checksums path signatures none {}) m []
        (tokens.flatMap Token.wire ++ trailer hashes checksums.finalFile target) stats m ∧
      (∀ t ∈ tokens, t.Ok b basis) ∧ tokens.flatMap (Token.data b basis) = target ∧
      stats.literalBytes + stats.copiedBytes = target.length := by
  have hopen : Exchange machine (perform (.openFile path)) m [] [] ⟨target, m.cuts⟩ m :=
    exchange_perform hcalm (by simp [Machine.serve, hfile])
  unfold writeDeltaTokensFromPath
  by_cases hnil : signatures = []
  · obtain ⟨tokens, hx, hok, hdata⟩ :=
      @exchange_literalLoop flate m b basis (target.length + 1) ⟨target, m.cuts⟩
        (remoteFinalChecksumBuilder checksums.finalFile) 0 (Nat.lt_succ_self _)
    refine ⟨{ literalBytes := target.length }, tokens, ?_, hok, hdata, rfl⟩
    refine hopen.before ?_
    simp only [if_pos hnil]
    refine Exchange.bind_ret (a := target.length) ?_ rfl
    unfold writeLiteralTokensFromReaderWithChecksum
    refine hx.bind ?_
    have htrailer := @exchange_trailer flate m hashes
      ((remoteFinalChecksumBuilder checksums.finalFile).update target) none rfl Nat
      (0 + target.length)
    rw [Nat.zero_add] at htrailer ⊢
    exact htrailer
  · obtain ⟨stats, tokens, hx, hrest⟩ :=
      @exchange_writeDeltaTokensFromReader flate m b basis hashes checksums signatures
        ⟨target, m.cuts⟩ hb hnil hd hn
    refine ⟨stats, tokens, ?_, hrest⟩
    refine hopen.before ?_
    simp only [if_neg hnil]
    exact hx

end RsyncWin
