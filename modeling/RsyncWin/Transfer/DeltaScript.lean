import RsyncWin.Protocol.DeflatedHistory
import RsyncWin.Transfer.DeltaTokens

/-!
# The script of a delta

What the sender sends is decided by the target and the signatures alone, not by
how its file is read or how tokens are written. With a compressor it is one file
through the compressed token writer.
-/

namespace RsyncWin

open ByteString Codec Duplex RsyncDeflatedTokenReader RsyncDeflatedTokenWriter

variable {flate : Flate}

/-! ## The script -/

/-- A pending literal, sent. -/
def flushed (literal : Bytes) : List DeflatedSend :=
  if literal = [] then [] else [.literal literal]

/-- `literal` is pending and `rest` is what neither a literal nor a copy covers yet. -/
def script (matching : Bytes → Option BlockSignature) : Nat → Bytes → Bytes → List DeflatedSend
  | 0, literal, _ => flushed literal
  | fuel + 1, literal, rest =>
      if rest = [] then flushed literal
      else
        match matching rest with
        | some signature =>
            flushed literal ++
              .copy signature.index :: script matching fuel [] (rest.drop signature.len)
        | none =>
            let literal := literal ++ rest.take 1
            if literal.length ≥ 32 * 1024 then
              flushed literal ++ script matching fuel [] (rest.drop 1)
            else script matching fuel literal (rest.drop 1)

/-- How many bytes the script sends as literals, and how many as copies. -/
def tally (matching : Bytes → Option BlockSignature) : Nat → Bytes → RemoteDeltaStats
  | 0, _ => {}
  | fuel + 1, rest =>
      if rest = [] then {}
      else
        match matching rest with
        | some signature =>
            let behind := tally matching fuel (rest.drop signature.len)
            { behind with copiedBytes := signature.len + behind.copiedBytes }
        | none =>
            let behind := tally matching fuel (rest.drop 1)
            { behind with literalBytes := 1 + behind.literalBytes }

/-- `counted` is what the loop makes of `stats` with a pending literal. -/
def Counted (stats : RemoteDeltaStats) (literal : Bytes) (behind counted : RemoteDeltaStats) :
    Prop :=
  counted = ⟨stats.literalBytes + literal.length + behind.literalBytes,
    stats.copiedBytes + behind.copiedBytes⟩

/-- One send, with or without a compressor. -/
def writeSend (compressor : TokenWriter flate) : DeflatedSend → Writer (TokenWriter flate)
  | .literal bytes => writeLiteralToken compressor bytes
  | .copy blockIndex => writeCopyToken compressor blockIndex

theorem writeSend_some (sends : List DeflatedSend) : ∀ (w : RsyncDeflatedTokenWriter flate),
    sends.foldlM writeSend (some w) = (do
      let w ← sends.foldlM DeflatedSend.send w
      pure (some w)) := by
  induction sends with
  | nil =>
      intro w
      rfl
  | cons send sends ih =>
      intro w
      have hone : writeSend (some w) send = (do
          let w ← send.send w
          pure (some w)) := by
        cases send with
        | literal bytes => rfl
        | copy blockIndex => rfl
      rw [List.foldlM_cons, List.foldlM_cons, hone, Prog.bind_assoc, Prog.bind_assoc]
      congr 1
      funext w
      exact ih w

theorem foldlM_writeSend_singleton (compressor : TokenWriter flate) (send : DeflatedSend) :
    [send].foldlM writeSend compressor = writeSend compressor send := by
  rw [List.foldlM_cons]
  exact Prog.bind_ret _

/-! ## The loop sends its script -/

/-- `x` sends `sends` and leaves `s`, but for how tokens are written. -/
def Emits (x : Session (DeltaState flate)) (compressor : TokenWriter flate)
    (sends : List DeflatedSend) (s : DeltaState flate) : Prop :=
  x = (do
    let compressor ← toMux (sends.foldlM writeSend compressor)
    pure { s with compressor })

theorem Emits.bind {x : Session (DeltaState flate)} {k : DeltaState flate → Session (DeltaState flate)}
    {compressor : TokenWriter flate} {xs ys : List DeflatedSend} {s s' : DeltaState flate}
    (hx : Emits x compressor xs s)
    (hk : ∀ compressor, Emits (k { s with compressor }) compressor ys s') :
    Emits (x >>= k) compressor (xs ++ ys) s' := by
  unfold Emits toMux at hx hk ⊢
  rw [hx, List.foldlM_append, Prog.interp_bind, Prog.bind_assoc, Prog.bind_assoc]
  congr 1
  funext c
  exact hk c

theorem emits_writePendingLiteralToken (s : DeltaState flate) (compressor : TokenWriter flate) :
    Emits (writePendingLiteralToken { s with compressor }) compressor (flushed s.literal)
      { s with
        literal := []
        stats := { s.stats with literalBytes := s.stats.literalBytes + s.literal.length } } := by
  unfold Emits writePendingLiteralToken flushed
  by_cases hnil : s.literal = []
  · rw [if_pos hnil, if_pos hnil]
    simp only [hnil, List.length_nil, Nat.add_zero]
    rw [← hnil]
    rfl
  · rw [if_neg hnil, if_neg hnil, foldlM_writeSend_singleton]
    rfl

theorem emits_copyStep (s : DeltaState flate) (compressor : TokenWriter flate)
    (signature : BlockSignature) :
    Emits (copyStep { s with compressor } signature) compressor
      (flushed s.literal ++ [.copy signature.index])
      { s with
        literal := []
        window := s.window.drop signature.len
        stats := ⟨s.stats.literalBytes + s.literal.length,
          s.stats.copiedBytes + signature.len⟩ } := by
  refine Emits.bind (emits_writePendingLiteralToken s compressor) fun c => ?_
  unfold Emits
  rw [foldlM_writeSend_singleton]
  rfl

section Loop

variable {index : RemoteSignatureIndex} {strong : Bytes → Bytes}

/-- The window is as good as all the bytes behind it. -/
theorem findMatch_append (hmax : ∀ len ∈ index.lengthsDesc, len ≤ index.maxLen)
    {window rest : Bytes} (hfull : rest = [] ∨ index.maxLen ≤ window.length) :
    index.findMatch strong (window ++ rest) = index.findMatch strong window := by
  rcases hfull with rfl | hfull
  · rw [List.append_nil]
  · have hlens : ∀ len ∈ index.lengthsDesc, len ≤ window.length :=
      fun len hlen => (hmax len hlen).trans hfull
    unfold RemoteSignatureIndex.findMatch
    generalize index.lengthsDesc = lens at hlens
    induction lens with
    | nil => rfl
    | cons len lens ih =>
        have hle := hlens len List.mem_cons_self
        rw [List.findSome?_cons, List.findSome?_cons,
          ih fun x hx => hlens x (List.mem_cons_of_mem len hx)]
        rw [List.length_append, if_neg (by omega), if_neg (by omega),
          List.take_append_of_le_length hle]

variable (index strong) in
/-- What follows a step of the loop, to the last flush. -/
def afterStep (fuel : Nat) (s : DeltaState flate) : Session (DeltaState flate) := do
  let s ← fillDeltaWindow index.maxLen none (s.reader.rest.length + 1) s
  let s ← deltaLoop index strong none fuel s
  writePendingLiteralToken s

/-- A fill, and then the rest of the loop. -/
theorem emits_fill {maxLen fuel : Nat} {s₁ s₂ s' : DeltaState flate} {compressor : TokenWriter flate}
    {k : DeltaState flate → Session (DeltaState flate)} {sends : List DeflatedSend}
    (hfill : fillDeltaWindow maxLen none fuel { s₁ with compressor } =
      .ret { s₂ with compressor }) (hk : Emits (k { s₂ with compressor }) compressor sends s') :
    Emits (fillDeltaWindow maxLen none fuel { s₁ with compressor } >>= k) compressor sends s' := by
  rw [hfill, Prog.ret_bind]
  exact hk

/-- Induction on the counter, which bounds the bytes that are left. -/
theorem emits_deltaLoop (hpos : ∀ len ∈ index.lengthsDesc, 0 < len)
    (hmax : ∀ len ∈ index.lengthsDesc, len ≤ index.maxLen) (hsome : 0 < index.maxLen) :
    ∀ {fuel : Nat} {s : DeltaState flate}, (s.eof = true → s.reader.rest = []) →
    (s.reader.rest = [] ∨ index.maxLen ≤ s.window.length) →
    (s.window ++ s.reader.rest).length < fuel →
    ∃ s' : DeltaState flate, s'.reader.rest = [] ∧
      s'.checksum.update s'.reader.rest = s.checksum.update s.reader.rest ∧
      Counted s.stats s.literal
        (tally (index.findMatch strong) fuel (s.window ++ s.reader.rest)) s'.stats ∧
      ∀ compressor : TokenWriter flate, Emits (do
          let s ← deltaLoop index strong none fuel { s with compressor }
          writePendingLiteralToken s) compressor
        (script (index.findMatch strong) fuel s.literal (s.window ++ s.reader.rest)) s'
  | 0, _, _, _, hfuel => absurd hfuel (by omega)
  | fuel + 1, s, heof, hfull, hfuel => by
      by_cases hnil : s.window = []
      · have hrest : s.reader.rest = [] := by
          rcases hfull with h | h
          · exact h
          · rw [hnil, List.length_nil] at h
            omega
        refine ⟨{ s with
            literal := []
            stats := { s.stats with
              literalBytes := s.stats.literalBytes + s.literal.length } }, hrest, rfl, ?_,
          fun compressor => ?_⟩
        · rw [tally, if_pos (by simp [hnil, hrest])]
          rfl
        · rw [deltaLoop, if_pos hnil, script, if_pos (by simp [hnil, hrest])]
          exact emits_writePendingLiteralToken s compressor
      · have hwindow : 0 < s.window.length := List.length_pos_iff.mpr hnil
        have hne : s.window ++ s.reader.rest ≠ [] := by simp [hnil]
        -- what is left after a step is filled up, and the rest of the loop takes it
        have hmore : ∀ (n : Nat) (literal : Bytes) (stats : RemoteDeltaStats), 0 < n →
            n ≤ s.window.length → ∃ s' : DeltaState flate, s'.reader.rest = [] ∧
              s'.checksum.update s'.reader.rest = s.checksum.update s.reader.rest ∧
              Counted stats literal (tally (index.findMatch strong) fuel
                ((s.window ++ s.reader.rest).drop n)) s'.stats ∧
              ∀ compressor : TokenWriter flate, Emits (afterStep index strong fuel
                  { s with literal, window := s.window.drop n, stats, compressor }) compressor
                (script (index.findMatch strong) fuel literal
                  ((s.window ++ s.reader.rest).drop n)) s' := by
          intro n literal stats hn hle
          obtain ⟨s₂, hfilled, hret⟩ := @fillDeltaWindow_eq flate index.maxLen
            (s.reader.rest.length + 1) { s with literal, window := s.window.drop n, stats } heof
            (Nat.lt_succ_self _)
          have hbytes : s₂.window ++ s₂.reader.rest = (s.window ++ s.reader.rest).drop n := by
            rw [hfilled.bytes, List.drop_append_of_le_length hle]
          have hless : (s₂.window ++ s₂.reader.rest).length < fuel := by
            rw [hbytes, List.length_drop]
            rw [List.length_append] at hfuel ⊢
            omega
          obtain ⟨s', hend, hfed, hcounted, hemits⟩ :=
            emits_deltaLoop hpos hmax hsome hfilled.eof hfilled.full hless
          have hscript : script (index.findMatch strong) fuel s₂.literal
              (s₂.window ++ s₂.reader.rest) = script (index.findMatch strong) fuel literal
                ((s.window ++ s.reader.rest).drop n) := by
            rw [hbytes, hfilled.literal]
          rw [hscript] at hemits
          rw [hbytes, hfilled.literal, hfilled.stats] at hcounted
          exact ⟨s', hend, hfed.trans hfilled.fed, hcounted,
            fun compressor => emits_fill (hret compressor) (hemits compressor)⟩
        have hstep : ∀ compressor : TokenWriter flate,
            (do
              let s ← deltaLoop index strong none (fuel + 1) { s with compressor }
              writePendingLiteralToken s) = (do
              let s ← deltaStep index strong { s with compressor }
              afterStep index strong fuel s) := by
          intro compressor
          rw [deltaLoop, if_neg hnil]
          simp only [checkTransferDeadline, afterStep, Prog.pure_eq, Prog.ret_bind,
            Prog.bind_assoc]
        simp only [hstep]
        have hmatching : index.findMatch strong (s.window ++ s.reader.rest) =
            index.findMatch strong s.window := findMatch_append hmax hfull
        rw [script, tally, if_neg hne, if_neg hne, hmatching]
        unfold deltaStep
        dsimp only
        cases hmatch : index.findMatch strong s.window with
        | some signature =>
            obtain ⟨-, hlen, hle, -⟩ := findMatch_some hmatch
            obtain ⟨s', hend, hfed, hcounted, hemits⟩ := hmore signature.len []
              ⟨s.stats.literalBytes + s.literal.length, s.stats.copiedBytes + signature.len⟩
              (hpos _ hlen) hle
            refine ⟨s', hend, hfed, ?_, fun compressor => ?_⟩
            · rw [Counted, hcounted]
              simp [Nat.add_assoc]
            · have hboth := (emits_copyStep s compressor signature).bind
                (k := afterStep index strong fuel) hemits
              rwa [List.append_assoc, List.singleton_append] at hboth
        | none =>
            have htake : (s.window ++ s.reader.rest).take 1 = s.window.take 1 :=
              List.take_append_of_le_length hwindow
            have hone : (s.window.take 1).length = 1 := List.length_take_of_le hwindow
            dsimp only
            unfold literalStep
            dsimp only
            rw [htake]
            by_cases hlong : (s.literal ++ s.window.take 1).length ≥ 32 * 1024
            · obtain ⟨s', hend, hfed, hcounted, hemits⟩ := hmore 1 []
                ⟨s.stats.literalBytes + (s.literal ++ s.window.take 1).length,
                  s.stats.copiedBytes⟩ Nat.one_pos hwindow
              refine ⟨s', hend, hfed, ?_, fun compressor => ?_⟩
              · rw [Counted, hcounted, List.length_append, hone]
                simp [Nat.add_assoc]
              · rw [if_pos hlong, if_pos hlong]
                exact (emits_writePendingLiteralToken
                  { s with literal := s.literal ++ s.window.take 1, window := s.window.drop 1 }
                  compressor).bind (k := afterStep index strong fuel) hemits
            · obtain ⟨s', hend, hfed, hcounted, hemits⟩ :=
                hmore 1 (s.literal ++ s.window.take 1) s.stats Nat.one_pos hwindow
              refine ⟨s', hend, hfed, ?_, fun compressor => ?_⟩
              · rw [Counted, hcounted, List.length_append, hone]
                simp [Nat.add_assoc]
              · rw [if_neg hlong, if_neg hlong]
                exact hemits compressor

end Loop

/-! ## What a script comes to -/

/-- A block of the basis, where it has one. -/
def basisBlock (b : Nat) (basis : Bytes) (i : Nat) : Option Bytes :=
  if i * b < basis.length then some (blockAt b basis i) else none

/-- A literal fits one buffer; a copy names a block that is there. -/
def RsyncDeflatedTokenWriter.DeflatedSend.Ok (b : Nat) (basis : Bytes) : DeflatedSend → Prop
  | .literal bytes => 0 < bytes.length ∧ bytes.length ≤ 32 * 1024
  | .copy i => i * b < basis.length ∧ i < i32Max

/-- A match is a block of the basis, as long as the window it covers. -/
structure Finds (b : Nat) (basis window : Bytes) (signature : BlockSignature) : Prop where
  stored : signature.index * b < basis.length
  small : signature.index < i32Max
  positive : 0 < signature.len
  fits : signature.len ≤ window.length
  len : signature.len = (blockAt b basis signature.index).length

/-- From here on matches only, and what they name is what is there. -/
inductive MatchesOnly (matching : Bytes → Option BlockSignature) (block : Nat → Bytes) :
    Bytes → Prop
  | nil : MatchesOnly matching block []
  | copy {rest : Bytes} {signature : BlockSignature} : rest ≠ [] →
      matching rest = some signature → rest.take signature.len = block signature.index →
        MatchesOnly matching block (rest.drop signature.len) → MatchesOnly matching block rest

/-- No match in front, then matches only. -/
inductive MatchesLast (matching : Bytes → Option BlockSignature) (block : Nat → Bytes) :
    Bytes → Prop
  | only {rest : Bytes} : MatchesOnly matching block rest → MatchesLast matching block rest
  | literal {x : UInt8} {rest : Bytes} : matching (x :: rest) = none →
      MatchesLast matching block rest → MatchesLast matching block (x :: rest)

section Script

variable {b : Nat} {basis : Bytes} {matching : Bytes → Option BlockSignature}

theorem finds_findMatch {index : RemoteSignatureIndex} {strong : Bytes → Bytes}
    (hd : Describes b basis strong index.signatures) (hpos : ∀ len ∈ index.lengthsDesc, 0 < len)
    {window : Bytes} {signature : BlockSignature}
    (h : index.findMatch strong window = some signature) : Finds b basis window signature := by
  obtain ⟨hmem, hlen, hle, -⟩ := findMatch_some h
  obtain ⟨hstored, hsmall, hblock, -⟩ := hd signature hmem
  exact ⟨hstored, hsmall, hpos _ hlen, hle, hblock⟩

theorem ok_flushed {literal : Bytes} (h : literal.length ≤ 32 * 1024) :
    ∀ s ∈ flushed literal, s.Ok b basis := by
  intro s hs
  unfold flushed at hs
  by_cases hnil : literal = []
  · rw [if_pos hnil] at hs
    cases hs
  · rw [if_neg hnil] at hs
    rw [List.mem_singleton.mp hs]
    exact ⟨List.length_pos_iff.mpr hnil, h⟩

theorem ok_script
    (hfinds : ∀ window signature, matching window = some signature → Finds b basis window signature)
    {fuel : Nat} {literal rest : Bytes} (hshort : literal.length < 32 * 1024) :
    ∀ s ∈ script matching fuel literal rest, s.Ok b basis := by
  fun_induction script matching fuel literal rest with
  | case1 literal rest => exact ok_flushed hshort.le
  | case2 fuel literal => exact ok_flushed hshort.le
  | case3 fuel literal rest hne signature hmatch ih =>
      obtain ⟨hstored, hsmall, -, -, -⟩ := hfinds rest signature hmatch
      intro s hs
      rcases List.mem_append.mp hs with hs | hs
      · exact ok_flushed hshort.le s hs
      · rcases List.mem_cons.mp hs with rfl | hs
        · exact ⟨hstored, hsmall⟩
        · exact ih (by decide) s hs
  | case4 fuel literal rest hne hmatch literal' hlong ih =>
      have hlen : literal'.length ≤ 32 * 1024 := by
        show (literal ++ rest.take 1).length ≤ 32 * 1024
        rw [List.length_append, List.length_take]
        omega
      intro s hs
      rcases List.mem_append.mp hs with hs | hs
      · exact ok_flushed hlen s hs
      · exact ih (by decide) s hs
  | case5 fuel literal rest hne hmatch literal' hlong ih => exact ih (Nat.lt_of_not_le hlong)

theorem fits_flushed {data : Nat → Option Bytes} (literal : Bytes) {target : Bytes}
    {sends : List DeflatedSend}
    (h : Fits data (sends.map DeflatedSend.token) target) :
    Fits data ((flushed literal ++ sends).map DeflatedSend.token) (literal ++ target) := by
  unfold flushed
  by_cases hnil : literal = []
  · rw [if_pos hnil, hnil]
    exact h
  · rw [if_neg hnil]
    exact ⟨target, rfl, h⟩

theorem fits_script
    (hfinds : ∀ window signature, matching window = some signature → Finds b basis window signature)
    {fuel : Nat} {literal rest : Bytes} (hfuel : rest.length < fuel) :
    Fits (basisBlock b basis) ((script matching fuel literal rest).map DeflatedSend.token)
      (literal ++ rest) := by
  fun_induction script matching fuel literal rest with
  | case1 literal rest => exact absurd hfuel (Nat.not_lt_zero _)
  | case2 fuel literal =>
      have h := @fits_flushed (basisBlock b basis) literal [] [] rfl
      rwa [List.append_nil] at h
  | case3 fuel literal rest hne signature hmatch ih =>
      have hfound := hfinds rest signature hmatch
      refine fits_flushed literal ⟨rest.take signature.len, rest.drop signature.len,
        (List.take_append_drop _ _).symm, ?_, ?_⟩
      · rw [basisBlock, if_pos hfound.stored, Option.getD_some, ← hfound.len,
          List.length_take_of_le hfound.fits]
      · have hpos := hfound.positive
        have hle := hfound.fits
        exact ih (by rw [List.length_drop]; omega)
  | case4 fuel literal rest hne hmatch literal' hlong ih =>
      have hpos : 0 < rest.length := List.length_pos_iff.mpr hne
      have h := fits_flushed literal' (ih (by rw [List.length_drop]; omega))
      rwa [List.nil_append, List.append_assoc, List.take_append_drop] at h
  | case5 fuel literal rest hne hmatch literal' hlong ih =>
      have hpos : 0 < rest.length := List.length_pos_iff.mpr hne
      have h := ih (by rw [List.length_drop]; omega)
      rwa [List.append_assoc, List.take_append_drop] at h

theorem stored_script {sends : List DeflatedSend} (hb : 0 < b) (h : ∀ s ∈ sends, s.Ok b basis) :
    Stored (basisBlock b basis) (sends.map DeflatedSend.token) := by
  intro blockIndex hmem
  obtain ⟨s, hs, htoken⟩ := List.mem_map.mp hmem
  cases s with
  | literal bytes => cases htoken
  | copy i =>
      obtain rfl := RsyncDeflatedToken.copy.inj htoken
      obtain ⟨hstored, -⟩ := h _ hs
      refine ⟨blockAt b basis i, if_pos hstored, ?_⟩
      rw [← List.length_pos_iff, blockAt, List.length_take, List.length_drop]
      omega

theorem inRange_of_ok {sends : List DeflatedSend} (h : ∀ s ∈ sends, s.Ok b basis) :
    ∀ s ∈ sends, s.InRange := by
  intro s hs
  have hok := h s hs
  cases s with
  | literal bytes => trivial
  | copy i => exact hok.2.le

/-- Each literal is one piece. -/
theorem steps_of_ok {sends : List DeflatedSend} (h : ∀ s ∈ sends, s.Ok b basis) :
    sends.flatMap DeflatedSend.steps = sends := by
  induction sends with
  | nil => rfl
  | cons s sends ih =>
      have hone : s.steps = [s] := by
        have hok := h s List.mem_cons_self
        cases s with
        | literal bytes =>
            have hne : bytes ≠ [] := List.length_pos_iff.mp hok.1
            have hpos : 0 < rsyncDeflatedChunkSize := by decide
            have hchunks : chunks rsyncDeflatedChunkSize bytes = [bytes] := by
              have hle : bytes.length ≤ rsyncDeflatedChunkSize := hok.2
              rw [chunks_of_ne_nil hpos hne, List.take_of_length_le hle,
                List.drop_of_length_le hle, chunks_nil]
            show (chunks rsyncDeflatedChunkSize bytes).map DeflatedSend.literal = _
            rw [hchunks]
            rfl
        | copy i => rfl
      rw [List.flatMap_cons, hone, ih fun x hx => h x (List.mem_cons_of_mem s hx)]
      rfl

/-! ### Where the matches are -/

theorem literal_mem_script {fuel : Nat} {literal rest : Bytes} (hne : literal ≠ []) :
    ∃ bytes, .literal bytes ∈ script matching fuel literal rest := by
  have hflushed : ∀ {bytes : Bytes}, bytes ≠ [] → .literal bytes ∈ flushed bytes := by
    intro bytes hbytes
    unfold flushed
    rw [if_neg hbytes]
    exact List.mem_singleton_self _
  fun_induction script matching fuel literal rest with
  | case1 literal rest => exact ⟨literal, hflushed hne⟩
  | case2 fuel literal => exact ⟨literal, hflushed hne⟩
  | case3 fuel literal rest _ signature hmatch ih =>
      exact ⟨literal, List.mem_append_left _ (hflushed hne)⟩
  | case4 fuel literal rest _ hmatch literal' hlong ih =>
      have hne' : literal' ≠ [] := List.append_ne_nil_of_left_ne_nil hne _
      exact ⟨literal', List.mem_append_left _ (hflushed hne')⟩
  | case5 fuel literal rest _ hmatch literal' hlong ih =>
      exact ih (List.append_ne_nil_of_left_ne_nil hne _)

theorem not_copiesOnly {data : Nat → Option Bytes} {bytes : Bytes} {tokens : List RsyncDeflatedToken}
    (h : .literal bytes ∈ tokens) (target : Bytes) : ¬ CopiesOnly data tokens target := by
  induction tokens generalizing target with
  | nil => cases h
  | cons token tokens ih =>
      rcases List.mem_cons.mp h with rfl | hrest
      · exact id
      · cases token with
        | literal bytes' => exact id
        | copy blockIndex =>
            rintro ⟨more, -, hmore⟩
            exact ih hrest more hmore
        | finish => exact ih hrest target

theorem matchesOnly_some {block : Nat → Bytes} {rest : Bytes} {signature : BlockSignature}
    (hne : rest ≠ []) (h : matching rest = some signature) :
    MatchesOnly matching block rest ↔ rest.take signature.len = block signature.index ∧
      MatchesOnly matching block (rest.drop signature.len) := by
  constructor
  · intro hmatches
    cases hmatches with
    | nil => exact absurd rfl hne
    | copy _ h' htake hmore =>
        obtain rfl := Option.some.inj (h.symm.trans h')
        exact ⟨htake, hmore⟩
  · rintro ⟨htake, hmore⟩
    exact .copy hne h htake hmore

theorem not_matchesOnly {block : Nat → Bytes} {rest : Bytes} (hne : rest ≠ [])
    (h : matching rest = none) : ¬ MatchesOnly matching block rest := by
  intro hmatches
  cases hmatches with
  | nil => exact hne rfl
  | copy _ h' _ _ =>
      rw [h] at h'
      cases h'

theorem matchesLast_some {block : Nat → Bytes} {rest : Bytes} {signature : BlockSignature}
    (h : matching rest = some signature) :
    MatchesLast matching block rest ↔ MatchesOnly matching block rest := by
  constructor
  · intro hmatches
    cases hmatches with
    | only honly => exact honly
    | literal h' _ =>
        rw [h] at h'
        cases h'
  · exact .only

theorem matchesLast_none {block : Nat → Bytes} {rest : Bytes} (hne : rest ≠ [])
    (h : matching rest = none) :
    MatchesLast matching block rest ↔ MatchesLast matching block (rest.drop 1) := by
  constructor
  · intro hmatches
    cases hmatches with
    | only honly => exact absurd honly (not_matchesOnly hne h)
    | literal _ hmore => exact hmore
  · intro hmore
    obtain ⟨x, xs, rfl⟩ := List.exists_cons_of_ne_nil hne
    exact .literal h hmore

/-- A copy and what comes behind it. -/
theorem copiesOnly_copy {signature : BlockSignature} {rest : Bytes} {tokens : List RsyncDeflatedToken}
    (hfound : Finds b basis rest signature) :
    CopiesOnly (basisBlock b basis) (.copy signature.index :: tokens) rest ↔
      rest.take signature.len = blockAt b basis signature.index ∧
        CopiesOnly (basisBlock b basis) tokens (rest.drop signature.len) := by
  rw [CopiesOnly, basisBlock, if_pos hfound.stored, Option.getD_some]
  constructor
  · rintro ⟨more, rfl, hmore⟩
    rw [hfound.len, List.take_left, List.drop_left]
    exact ⟨rfl, hmore⟩
  · rintro ⟨htake, hmore⟩
    exact ⟨_, by rw [← htake, List.take_append_drop], hmore⟩

/-- Nothing but copies is sent where there are nothing but matches. -/
theorem copiesOnly_script
    (hfinds : ∀ window signature, matching window = some signature → Finds b basis window signature) :
    ∀ {fuel : Nat} {rest : Bytes}, rest.length < fuel →
      (CopiesOnly (basisBlock b basis) ((script matching fuel [] rest).map DeflatedSend.token) rest ↔
        MatchesOnly matching (blockAt b basis) rest)
  | 0, _, hfuel => absurd hfuel (Nat.not_lt_zero _)
  | fuel + 1, rest, hfuel => by
      by_cases hne : rest = []
      · subst hne
        exact ⟨fun _ => .nil, fun _ => rfl⟩
      · cases hmatch : matching rest with
        | some signature =>
            have hfound := hfinds rest signature hmatch
            have hless : (rest.drop signature.len).length < fuel := by
              have hpos := hfound.positive
              have hle := hfound.fits
              rw [List.length_drop]
              omega
            rw [script, if_neg hne, hmatch, matchesOnly_some hne hmatch,
              ← copiesOnly_script hfinds hless]
            exact copiesOnly_copy hfound
        | none =>
            have hpos : 0 < rest.length := List.length_pos_iff.mpr hne
            have hone : (rest.take 1).length = 1 := List.length_take_of_le hpos
            have hfirst : rest.take 1 ≠ [] := List.length_pos_iff.mp (by omega)
            have hscript : script matching (fuel + 1) [] rest =
                script matching fuel (rest.take 1) (rest.drop 1) := by
              rw [script, if_neg hne, hmatch]
              dsimp only
              rw [List.nil_append, if_neg (by omega)]
            obtain ⟨bytes, hliteral⟩ := @literal_mem_script matching fuel _ (rest.drop 1) hfirst
            have htoken : RsyncDeflatedToken.literal bytes ∈
                (script matching (fuel + 1) [] rest).map DeflatedSend.token := by
              rw [hscript]
              exact List.mem_map_of_mem (f := DeflatedSend.token) hliteral
            exact ⟨fun h => absurd h (not_copiesOnly htoken rest),
              fun h => absurd h (not_matchesOnly hne hmatch)⟩

theorem literalsThenCopies_flushed {data : Nat → Option Bytes} {literal target : Bytes}
    {sends : List DeflatedSend} :
    LiteralsThenCopies data ((flushed literal ++ sends).map DeflatedSend.token) (literal ++ target) ↔
      LiteralsThenCopies data (sends.map DeflatedSend.token) target := by
  unfold flushed
  by_cases hnil : literal = []
  · rw [if_pos hnil, hnil]
    rfl
  · rw [if_neg hnil]
    constructor
    · rintro ⟨more, hsame, hmore⟩
      rwa [List.append_cancel_left hsame]
    · intro h
      exact ⟨target, rfl, h⟩

/-- No literal is sent behind a copy exactly where no byte without a match is behind one. -/
theorem literalsThenCopies_script
    (hfinds : ∀ window signature, matching window = some signature → Finds b basis window signature)
    {fuel : Nat} {literal rest : Bytes} (hfuel : rest.length < fuel) :
    LiteralsThenCopies (basisBlock b basis)
        ((script matching fuel literal rest).map DeflatedSend.token) (literal ++ rest) ↔
      MatchesLast matching (blockAt b basis) rest := by
  fun_induction script matching fuel literal rest with
  | case1 literal rest => exact absurd hfuel (Nat.not_lt_zero _)
  | case2 fuel literal =>
      have h := @literalsThenCopies_flushed (basisBlock b basis) literal [] []
      rw [List.append_nil] at h
      rw [h]
      exact ⟨fun _ => .only .nil, fun _ => rfl⟩
  | case3 fuel literal rest hne signature hmatch ih =>
      have hfound := hfinds rest signature hmatch
      have hless : (rest.drop signature.len).length < fuel := by
        have hpos := hfound.positive
        have hle := hfound.fits
        rw [List.length_drop]
        omega
      rw [literalsThenCopies_flushed, matchesLast_some hmatch, matchesOnly_some hne hmatch,
        ← copiesOnly_script hfinds hless]
      exact copiesOnly_copy hfound
  | case4 fuel literal rest hne hmatch literal' hlong ih =>
      have hpos : 0 < rest.length := List.length_pos_iff.mpr hne
      have hsplit : literal ++ rest = literal' ++ rest.drop 1 := by
        rw [List.append_assoc, List.take_append_drop]
      rw [hsplit, literalsThenCopies_flushed, matchesLast_none hne hmatch]
      exact ih (by rw [List.length_drop]; omega)
  | case5 fuel literal rest hne hmatch literal' hlong ih =>
      have hpos : 0 < rest.length := List.length_pos_iff.mpr hne
      have hsplit : literal ++ rest = literal' ++ rest.drop 1 := by
        rw [List.append_assoc, List.take_append_drop]
      rw [hsplit, matchesLast_none hne hmatch]
      exact ih (by rw [List.length_drop]; omega)

end Script

end RsyncWin
