import RsyncWin.Transfer.DeltaTransfer

/-!
# The sender of append mode (`rsync-cli/src/transfer/tokens.rs`)

The receiver has the first bytes of the file already. All of the file goes into
the checksum, only what is behind the prefix is sent, wherever the prefix ends
between or inside the reads.
-/

namespace RsyncWin

open ByteString Codec Duplex

variable {flate : Flate}

def writeAppendVerifyLiteralTokensFromReaderWithChecksum (hashes : Hashes) (reader : FileReader)
    (checksum : RemoteFinalChecksum) (prefixLen : Nat) (compressionLevel stopDeadline : Option Nat) :
    Session Nat := do
  let compressor : TokenWriter flate := compressionLevel.map RsyncDeflatedTokenWriter.new
  let (checksum, compressor, remainingPrefix, total) ←
    appendLoop stopDeadline (reader.rest.length + 1) reader (remoteFinalChecksumBuilder checksum)
      compressor prefixLen 0
  if remainingPrefix > 0 then
    throw (.other "append-verify prefix length exceeds source file length")
  else do
    toMux (writeEndToken compressor)
    toMux (writeAll (checksum.finalize hashes))
    pure total

theorem writeAppendVerifyFileTokensFromPath_eq (hashes : Hashes) (checksum : RemoteFinalChecksum)
    (path : LocalPath) (prefixLen : Nat) (compressionLevel stopDeadline : Option Nat) :
    writeAppendVerifyFileTokensFromPath flate hashes checksum path prefixLen compressionLevel
        stopDeadline = (do
      let file ← perform (.openFile path)
      @writeAppendVerifyLiteralTokensFromReaderWithChecksum flate hashes file checksum prefixLen
        compressionLevel stopDeadline) := rfl

variable {m : Machine} {reader : FileReader} {checksum : RemoteChecksumBuilder}
  {remainingPrefix total : Nat}

/-- A literal token on the wire. -/
def literalWire (literal : Bytes) : Bytes := leBytes 4 literal.length ++ literal

theorem wire_literal {literal : Bytes} (h : literal.length ≤ 32 * 1024) :
    (Token.literal literal).wire = literalWire literal := by
  show leBytes 4 (ofSigned 32 (asI32 literal.length)) ++ literal = leBytes 4 literal.length ++ literal
  rw [asI32_of_le (by unfold i32Max; omega), ofSigned_natCast (by omega)]

/-- A prefix that is longer than the file takes every read. -/
theorem appendLoop_skips {compressor : TokenWriter flate} : ∀ {fuel : Nat} {reader : FileReader}
    {checksum : RemoteChecksumBuilder} {remainingPrefix : Nat}, reader.rest.length < fuel →
    reader.rest.length ≤ remainingPrefix →
    appendLoop none fuel reader checksum compressor remainingPrefix total =
      pure (checksum.update reader.rest, compressor, remainingPrefix - reader.rest.length, total)
  | 0, _, _, _, h, _ => absurd h (by omega)
  | fuel + 1, reader, checksum, remainingPrefix, hfuel, hprefix => by
      unfold appendLoop
      rcases reader.read_cases (show 0 < 32 * 1024 by decide) with
        ⟨reader', hread, hrest, -⟩ | ⟨chunk, reader', hread, hchunk, hsplit, hpos, -, hlen⟩
      · rw [hread, hrest, RemoteChecksumBuilder.update_nil]
        rfl
      · have hrec := @appendLoop_skips compressor fuel reader' (checksum.update chunk)
          (remainingPrefix - chunk.length) (by omega) (by omega)
        rw [hread]
        dsimp only
        rw [if_neg hchunk, if_pos (by omega), hrec, RemoteChecksumBuilder.update_update, hsplit,
          Nat.sub_sub, hlen]
        rfl

/-- What is sent is what is behind the prefix. -/
theorem exchange_appendLoop : ∀ {fuel : Nat} {reader : FileReader}
    {checksum : RemoteChecksumBuilder} {remainingPrefix total : Nat}, reader.rest.length < fuel →
    remainingPrefix ≤ reader.rest.length →
    ∃ literals : List Bytes, literals.flatten = reader.rest.drop remainingPrefix ∧
      (∀ literal ∈ literals, 1 ≤ literal.length ∧ literal.length ≤ 32 * 1024) ∧
      Exchange machine
        (appendLoop none fuel reader checksum (none : TokenWriter flate) remainingPrefix total) m []
        (literals.flatMap literalWire)
        (checksum.update reader.rest, none, 0, total + (reader.rest.length - remainingPrefix)) m
  | 0, _, _, _, _, h, _ => absurd h (by omega)
  | fuel + 1, reader, checksum, remainingPrefix, total, hfuel, hprefix => by
      unfold appendLoop
      rcases reader.read_cases (show 0 < 32 * 1024 by decide) with
        ⟨reader', hread, hrest, -⟩ | ⟨chunk, reader', hread, hchunk, hsplit, hpos, hle, hlen⟩
      · rw [hrest, List.length_nil] at hprefix
        obtain rfl : remainingPrefix = 0 := by omega
        refine ⟨[], by simp [hrest], List.forall_mem_nil _, ?_⟩
        rw [hread, hrest, RemoteChecksumBuilder.update_nil]
        exact exchange_ret _ m
      · rw [hread]
        dsimp only
        by_cases hinside : remainingPrefix ≥ chunk.length
        · -- the read lies in the prefix
          obtain ⟨literals, hflat, hall, hx⟩ := @exchange_appendLoop fuel reader'
            (checksum.update chunk) (remainingPrefix - chunk.length) total (by omega) (by omega)
          refine ⟨literals, ?_, hall, ?_⟩
          · rw [hflat, ← hsplit, List.drop_append, List.drop_of_length_le hinside, List.nil_append]
          · have hcount : reader'.rest.length - (remainingPrefix - chunk.length) =
                reader.rest.length - remainingPrefix := by omega
            rw [RemoteChecksumBuilder.update_update, hsplit, hcount] at hx
            rw [if_neg hchunk, if_pos hinside]
            exact hx
        · -- the prefix ends in the read or before it
          obtain ⟨literals, hflat, hall, hx⟩ := @exchange_appendLoop fuel reader'
            (checksum.update chunk) 0 (total + (chunk.drop remainingPrefix).length) (by omega)
            (Nat.zero_le _)
          have hdrop : (chunk.drop remainingPrefix).length = chunk.length - remainingPrefix :=
            List.length_drop
          refine ⟨chunk.drop remainingPrefix :: literals, ?_, ?_, ?_⟩
          · rw [List.flatten_cons, hflat, ← hsplit, List.drop_zero,
              List.drop_append_of_le_length (by omega)]
          · intro literal hmem
            rcases List.mem_cons.mp hmem with rfl | hmem
            · omega
            · exact hall literal hmem
          · have hliteral := @exchange_literalToken flate m (chunk.drop remainingPrefix)
            rw [wire_literal (by omega)] at hliteral
            have hcount : total + (chunk.drop remainingPrefix).length + (reader'.rest.length - 0) =
                total + (reader.rest.length - remainingPrefix) := by omega
            rw [RemoteChecksumBuilder.update_update, hsplit, hcount] at hx
            rw [if_neg hchunk, if_neg hinside, List.flatMap_cons]
            exact hliteral.bind hx

/-- **Append mode sends the missing suffix.** Up to the length of the file, the literals are what
is behind the prefix, none empty and none longer than the buffer, with one end token and the
checksum of the whole file behind them; a longer prefix is refused before anything is written. -/
theorem append_verify_sends_suffix (hashes : Hashes) (reader : FileReader)
    (checksum : RemoteFinalChecksum) (prefixLen : Nat) (m : Machine) :
    (prefixLen ≤ reader.rest.length → ∃ literals : List Bytes,
      literals.flatten = reader.rest.drop prefixLen ∧
      (∀ literal ∈ literals, 1 ≤ literal.length ∧ literal.length ≤ 32768) ∧
      Exchange machine
        (@writeAppendVerifyLiteralTokensFromReaderWithChecksum flate hashes reader checksum
          prefixLen none none) m []
        (literals.flatMap literalWire ++ leBytes 4 0 ++ finalDigest hashes checksum reader.rest)
        (reader.rest.length - prefixLen) m) ∧
    (reader.rest.length < prefixLen → ∀ (l : MuxState) (sent : List Bytes),
      (@writeAppendVerifyLiteralTokensFromReaderWithChecksum flate hashes reader checksum prefixLen
        none none).run (soloHandler muxLink machine) ⟨m, l, sent⟩ =
        .fail (.other "append-verify prefix length exceeds source file length") ⟨m, l, sent⟩) := by
  constructor
  · intro hprefix
    obtain ⟨literals, hflat, hall, hx⟩ := @exchange_appendLoop flate m (reader.rest.length + 1)
      reader (remoteFinalChecksumBuilder checksum) prefixLen 0 (Nat.lt_succ_self _) hprefix
    refine ⟨literals, hflat, hall, ?_⟩
    unfold writeAppendVerifyLiteralTokensFromReaderWithChecksum
    rw [List.append_assoc]
    rw [Nat.zero_add] at hx
    exact hx.bind (exchange_trailer rfl (reader.rest.length - prefixLen))
  · intro hprefix l sent
    have hloop := @appendLoop_skips flate 0 none (reader.rest.length + 1) reader
      (remoteFinalChecksumBuilder checksum) prefixLen (Nat.lt_succ_self _) hprefix.le
    have hprog : @writeAppendVerifyLiteralTokensFromReaderWithChecksum flate hashes reader checksum
        prefixLen none none =
        throw (.other "append-verify prefix length exceeds source file length") := by
      unfold writeAppendVerifyLiteralTokensFromReaderWithChecksum
      dsimp only [Option.map_none]
      rw [hloop]
      dsimp only [Prog.pure_eq, Prog.ret_bind]
      rw [if_pos (by omega)]
    rw [hprog]
    rfl

/-- Of `abc`, read a byte at a time, the `c` is missing; four bytes of it are not there. -/
theorem append_verify_sends_suffix_abc :
    (∃ literals : List Bytes, literals.flatten = [0x63] ∧
      (∀ literal ∈ literals, 1 ≤ literal.length ∧ literal.length ≤ 32768) ∧
      Exchange machine
        (@writeAppendVerifyLiteralTokensFromReaderWithChecksum storedFlate md4Hashes
          ⟨[0x61, 0x62, 0x63], [0, 0, 0]⟩ .plainMd4 2 none none) { files := fun _ => none } []
        (literals.flatMap literalWire ++ leBytes 4 0 ++
          finalDigest md4Hashes .plainMd4 [0x61, 0x62, 0x63]) 1 { files := fun _ => none }) ∧
    ∀ (l : MuxState) (sent : List Bytes),
      (@writeAppendVerifyLiteralTokensFromReaderWithChecksum storedFlate md4Hashes
        ⟨[0x61, 0x62, 0x63], [0, 0, 0]⟩ .plainMd4 4 none none).run (soloHandler muxLink machine)
          ⟨{ files := fun _ => none }, l, sent⟩ =
        .fail (.other "append-verify prefix length exceeds source file length")
          ⟨{ files := fun _ => none }, l, sent⟩ :=
  ⟨(append_verify_sends_suffix md4Hashes ⟨[0x61, 0x62, 0x63], [0, 0, 0]⟩ .plainMd4 2
      { files := fun _ => none }).1 (by decide),
    (append_verify_sends_suffix md4Hashes ⟨[0x61, 0x62, 0x63], [0, 0, 0]⟩ .plainMd4 4
      { files := fun _ => none }).2 (by decide)⟩

end RsyncWin
