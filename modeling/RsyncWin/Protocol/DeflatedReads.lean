import RsyncWin.Protocol.Deflated
import RsyncWin.Protocol.IoCodec

/-!
# Reading compressed tokens

What the reader hands out while it takes data, flags and runs, whatever comes
behind them, for a raw deflate that is a streaming codec.
-/

namespace RsyncWin

open ByteString Codec

/-! ## What a token stream says

The bytes before the first copy, then each copy with the bytes behind it. How
the bytes are cut into literals does not count. -/

def pieces : List RsyncDeflatedToken → Bytes × List (Nat × Bytes)
  | [] => ([], [])
  | .literal bytes :: rest => (bytes ++ (pieces rest).1, (pieces rest).2)
  | .copy blockIndex :: rest => ([], (blockIndex, (pieces rest).1) :: (pieces rest).2)
  | .finish :: rest => pieces rest

theorem pieces_append_congr {xs ys zs : List RsyncDeflatedToken} (h : pieces ys = pieces zs) :
    pieces (xs ++ ys) = pieces (xs ++ zs) := by
  induction xs with
  | nil => exact h
  | cons x xs ih =>
      cases x with
      | literal bytes => simp only [List.cons_append, pieces, ih]
      | copy blockIndex => simp only [List.cons_append, pieces, ih]
      | finish => simpa only [List.cons_append, pieces] using ih

/-- Literals and nothing else. -/
def literals (chunks : List Bytes) : List RsyncDeflatedToken := chunks.map .literal

theorem pieces_literals_append (cs : List Bytes) (ts : List RsyncDeflatedToken) :
    pieces (literals cs ++ ts) = (cs.flatten ++ (pieces ts).1, (pieces ts).2) := by
  induction cs with
  | nil => rfl
  | cons c cs ih =>
      have hcons : literals (c :: cs) = .literal c :: literals cs := rfl
      rw [hcons, List.cons_append, pieces, ih, List.flatten_cons, List.append_assoc]

/-! ## Raw deflate as a streaming codec

What is known of a compressor and a decompressor that have only been used as
the token streams use them: everything fed and everything that came out since
the last reset. -/

section Streams

variable (flate : Flate)

/-- `synced`: nothing was fed since the last sync flush. -/
inductive Deflated : flate.Deflate → (fed out : Bytes) → (synced : Bool) → Prop
  | new (level : Nat) : Deflated (flate.deflateNew level) [] [] true
  | reset {d : flate.Deflate} {fed out : Bytes} {synced : Bool} :
      Deflated d fed out synced → Deflated (flate.deflateReset d) [] [] true
  | fed {d d' : flate.Deflate} {fed out bytes more : Bytes} {synced : Bool} :
      Deflated d fed out synced → bytes ≠ [] → flate.deflate d bytes .none = .ok (more, d') →
        Deflated d' (fed ++ bytes) (out ++ more) false
  | synced {d d' : flate.Deflate} {fed out more : Bytes} :
      Deflated d fed out false → flate.deflate d [] .sync = .ok (more, d') →
        Deflated d' fed (out ++ more) true

inductive Inflated : flate.Inflate → (taken given : Bytes) → Prop
  | new : Inflated flate.inflateNew [] []
  | reset {i : flate.Inflate} {taken given : Bytes} :
      Inflated i taken given → Inflated (flate.inflateReset i) [] []
  | taken {i i' : flate.Inflate} {taken given bytes more : Bytes} {flush : FlateFlush} :
      Inflated i taken given → flate.inflate i bytes flush = .ok (more, i') →
        Inflated i' (taken ++ bytes) (given ++ more)

/-- Raw deflate with sync flushes: compressing does not fail, a flush of something ends with
the tail and is not only the tail, what came out can be inflated in pieces of any size, and
up to the end of a flush it inflates to what was fed. -/
structure StreamingCodec : Prop where
  deflates : ∀ {d : flate.Deflate} {fed out : Bytes} {synced : Bool},
    Deflated flate d fed out synced → ∀ bytes flush, ∃ more d',
      flate.deflate d bytes flush = .ok (more, d')
  tail : ∀ {d d' : flate.Deflate} {fed out more : Bytes}, Deflated flate d fed out false →
    flate.deflate d [] .sync = .ok (more, d') →
      ∃ body, body ≠ [] ∧ more = body ++ rsyncZlibSyncTail
  inflates : ∀ {d : flate.Deflate} {fed out : Bytes} {synced : Bool} {i : flate.Inflate}
    {taken given bytes : Bytes}, Deflated flate d fed out synced → Inflated flate i taken given →
      taken ++ bytes <+: out → ∀ flush, ∃ more i', flate.inflate i bytes flush = .ok (more, i')
  yields : ∀ {d : flate.Deflate} {fed out : Bytes} {i : flate.Inflate} {given : Bytes},
    Deflated flate d fed out true → Inflated flate i out given → given = fed

end Streams

/-! ## Reading a file -/

namespace RsyncDeflatedTokenReader

variable {flate : Flate}

/-- All tokens up to the end of a file. -/
def readFile (fuel : Nat) : Nat → RsyncDeflatedTokenReader flate →
    Reader (List RsyncDeflatedToken × RsyncDeflatedTokenReader flate)
  | 0, _ => throw (.panic "out of fuel")
  | n + 1, r => do
      let (token, r) ← nextToken fuel r
      if token = .finish then pure ([], r)
      else do
        let (tokens, r) ← readFile fuel n r
        pure (token :: tokens, r)

/-- The files one after the other. -/
def readFiles (fuel : Nat) : Nat → RsyncDeflatedTokenReader flate →
    Reader (List (List RsyncDeflatedToken) × RsyncDeflatedTokenReader flate)
  | 0, r => pure ([], r)
  | count + 1, r => do
      let (tokens, r) ← readFile fuel fuel r
      let (files, r) ← readFiles fuel count r
      pure (tokens :: files, r)

/-- From `r` on `inp` comes `token`, whatever the counter, once it is large enough. -/
def Next (r : RsyncDeflatedTokenReader flate) (inp : Bytes) (token : RsyncDeflatedToken)
    (r' : RsyncDeflatedTokenReader flate) (rest : Bytes) : Prop :=
  ∃ least, ∀ fuel ≥ least, (nextToken fuel r).run buffer inp = .ret (token, r') rest

inductive ReadsTo : RsyncDeflatedTokenReader flate → Bytes → List RsyncDeflatedToken →
    RsyncDeflatedTokenReader flate → Bytes → Prop
  | finish {r r' : RsyncDeflatedTokenReader flate} {inp rest : Bytes} :
      Next r inp .finish r' rest → ReadsTo r inp [] r' rest
  | token {r r₁ r' : RsyncDeflatedTokenReader flate} {inp inp₁ rest : Bytes}
      {token : RsyncDeflatedToken} {tokens : List RsyncDeflatedToken} :
      Next r inp token r₁ inp₁ → token ≠ .finish → ReadsTo r₁ inp₁ tokens r' rest →
        ReadsTo r inp (token :: tokens) r' rest

theorem ReadsTo.run_readFile {r r' : RsyncDeflatedTokenReader flate} {inp rest : Bytes}
    {tokens : List RsyncDeflatedToken} (h : ReadsTo r inp tokens r' rest) :
    ∃ least, ∀ fuel ≥ least, ∀ n ≥ least,
      (readFile fuel n r).run buffer inp = .ret (tokens, r') rest := by
  induction h with
  | finish hnext =>
      obtain ⟨least, hleast⟩ := hnext
      refine ⟨least + 1, fun fuel hfuel n hn => ?_⟩
      obtain ⟨m, rfl⟩ : ∃ m, n = m + 1 := ⟨n - 1, by omega⟩
      rw [readFile, Prog.run_bind_ret (hleast fuel (by omega))]
      rfl
  | token hnext hne _ ih =>
      obtain ⟨least, hleast⟩ := hnext
      obtain ⟨more, hmore⟩ := ih
      refine ⟨least + more + 1, fun fuel hfuel n hn => ?_⟩
      obtain ⟨m, rfl⟩ : ∃ m, n = m + 1 := ⟨n - 1, by omega⟩
      rw [readFile, Prog.run_bind_ret (hleast fuel (by omega))]
      dsimp only
      rw [if_neg hne, Prog.run_bind_ret (hmore fuel (by omega) m (by omega))]
      rfl

/-- Reading `bytes` off the front hands out `tokens` and leads from `r` to `r'`. -/
def Consumes (r : RsyncDeflatedTokenReader flate) (bytes : Bytes)
    (tokens : List RsyncDeflatedToken) (r' : RsyncDeflatedTokenReader flate) : Prop :=
  ∀ inp more last rest, ReadsTo r' inp more last rest →
    ReadsTo r (bytes ++ inp) (tokens ++ more) last rest

theorem Consumes.refl (r : RsyncDeflatedTokenReader flate) : Consumes r [] [] r :=
  fun _ _ _ _ h => h

theorem Consumes.trans {r₁ r₂ r₃ : RsyncDeflatedTokenReader flate} {bytes bytes' : Bytes}
    {tokens tokens' : List RsyncDeflatedToken} (h : Consumes r₁ bytes tokens r₂)
    (h' : Consumes r₂ bytes' tokens' r₃) :
    Consumes r₁ (bytes ++ bytes') (tokens ++ tokens') r₃ := by
  intro inp more last rest hmore
  rw [List.append_assoc, List.append_assoc]
  exact h _ _ _ _ (h' inp more last rest hmore)

/-- A token that is handed out when `bytes` have been read. -/
theorem consumes_token {r r' : RsyncDeflatedTokenReader flate} {bytes : Bytes}
    {token : RsyncDeflatedToken} (hne : token ≠ .finish)
    (h : ∀ inp, Next r (bytes ++ inp) token r' inp) : Consumes r bytes [token] r' :=
  fun inp _ _ _ hmore => ReadsTo.token (h inp) hne hmore

/-- What only changes the state and hands out nothing. -/
theorem consumes_skip {r r' : RsyncDeflatedTokenReader flate} {bytes : Bytes}
    (h : ∀ fuel inp, (nextToken (fuel + 1) r).run buffer (bytes ++ inp) =
      (nextToken fuel r').run buffer inp) : Consumes r bytes [] r' := by
  have hnext : ∀ {inp token r₁ rest}, Next r' inp token r₁ rest →
      Next r (bytes ++ inp) token r₁ rest := by
    rintro inp token r₁ rest ⟨least, hleast⟩
    refine ⟨least + 1, fun fuel hfuel => ?_⟩
    obtain ⟨n, rfl⟩ : ∃ n, fuel = n + 1 := ⟨fuel - 1, by omega⟩
    rw [h]
    exact hleast n (by omega)
  intro inp more last rest hmore
  cases hmore with
  | finish hlast => exact .finish (hnext hlast)
  | token hfirst hne hrest => exact .token (hnext hfirst) hne hrest

/-! ### Data -/

theorem dataFlag : ∀ k < 64, (rsyncDeflatedData + UInt8.ofNat k) &&& 0xc0 = rsyncDeflatedData ∧
    ((rsyncDeflatedData + UInt8.ofNat k) &&& 0x3f).toNat = k := by
  decide

/-- A chunk as it is sent. -/
def dataChunk (chunk : Bytes) : Bytes :=
  [rsyncDeflatedData + UInt8.ofNat (chunk.length / 256), UInt8.ofNat chunk.length] ++ chunk

/-- What is handed out of what was inflated. -/
def handed (literal : Bytes) : List Bytes := if literal = [] then [] else [literal]

theorem flatten_handed (literal : Bytes) : (handed literal).flatten = literal := by
  unfold handed
  split
  · rename_i h
    rw [h]
    rfl
  · exact List.flatten_singleton

section Steps

variable {r : RsyncDeflatedTokenReader flate}

theorem run_takeFlag {β : Type} {flag : UInt8} {inp : Bytes}
    (k : UInt8 × RsyncDeflatedTokenReader flate → Reader β) (hsaved : r.savedFlag = none) :
    (takeFlag r >>= k).run buffer (flag :: inp) = (k (flag, r)).run buffer inp := by
  have hflag : Decodes (takeFlag r) [flag] (flag, r) := by
    unfold takeFlag
    rw [hsaved]
    exact (decodes_readU8 flag).bind_ret rfl
  exact Prog.run_bind_ret (hflag inp) k

theorem run_nextToken_chunk {chunk inp : Bytes} {fuel : Nat} (hrun : r.rxRun = 0)
    (hsaved : r.savedFlag = none) (hlen : chunk.length ≤ rsyncDeflatedMaxDataCount) :
    (nextToken (fuel + 1) r).run buffer (dataChunk chunk ++ inp) =
      (do
        let (literal, r) ← Prog.ofExcept (r.inflateBytes chunk .none)
        if literal ≠ [] then pure (.literal literal, { r with needsSyncTail := true })
        else nextToken fuel { r with needsSyncTail := true } : Reader _).run buffer inp := by
  unfold rsyncDeflatedMaxDataCount at hlen
  obtain ⟨hkind, hhigh⟩ := dataFlag (chunk.length / 256) (by omega)
  have hlow : (UInt8.ofNat chunk.length).toNat = chunk.length % 256 := UInt8.toNat_ofNat
  have hcount : ((rsyncDeflatedData + UInt8.ofNat (chunk.length / 256)) &&& 0x3f).toNat * 256 +
      (UInt8.ofNat chunk.length).toNat = chunk.length := by
    rw [hhigh, hlow]
    omega
  unfold dataChunk
  rw [nextToken, if_neg (by omega)]
  rw [List.append_assoc, List.cons_append, run_takeFlag _ hsaved]
  dsimp only
  rw [if_pos hkind]
  rw [Prog.run_bind_ret (decodes_readU8 (UInt8.ofNat chunk.length) (chunk ++ inp))]
  rw [hcount, Prog.run_bind_ret (run_readExact_append chunk inp)]

theorem inflateBytes_ok {input more : Bytes} {flush : FlateFlush} {i : flate.Inflate}
    (h : flate.inflate r.decompressor input flush = .ok (more, i)) :
    r.inflateBytes input flush = .ok (more, { r with decompressor := i }) := by
  unfold inflateBytes
  rw [h]

theorem run_nextToken_data {chunk more inp : Bytes} {i : flate.Inflate} {fuel : Nat}
    (hrun : r.rxRun = 0) (hsaved : r.savedFlag = none) (hlen : chunk.length ≤ rsyncDeflatedMaxDataCount)
    (hinflate : flate.inflate r.decompressor chunk .none = .ok (more, i)) :
    (nextToken (fuel + 1) r).run buffer (dataChunk chunk ++ inp) =
      (if more ≠ [] then
        pure (.literal more, { r with decompressor := i, needsSyncTail := true })
      else nextToken fuel { r with decompressor := i, needsSyncTail := true } :
        Reader _).run buffer inp := by
  rw [run_nextToken_chunk hrun hsaved hlen, inflateBytes_ok hinflate]
  rfl

theorem consumes_data {chunk more : Bytes} {i : flate.Inflate} (hrun : r.rxRun = 0)
    (hsaved : r.savedFlag = none) (hlen : chunk.length ≤ rsyncDeflatedMaxDataCount)
    (hinflate : flate.inflate r.decompressor chunk .none = .ok (more, i)) :
    Consumes r (dataChunk chunk) (literals (handed more))
      { r with decompressor := i, needsSyncTail := true } := by
  unfold handed
  split
  · rename_i hempty
    refine consumes_skip fun fuel inp => ?_
    rw [run_nextToken_data hrun hsaved hlen hinflate, if_neg (by simp [hempty])]
  · rename_i hsome
    refine consumes_token (by simp) fun inp => ⟨1, fun fuel hfuel => ?_⟩
    obtain ⟨n, rfl⟩ : ∃ n, fuel = n + 1 := ⟨fuel - 1, by omega⟩
    rw [run_nextToken_data hrun hsaved hlen hinflate, if_pos hsome]
    rfl

/-- Data chunks, one after the other, and what is handed out of them. -/
inductive Hands : RsyncDeflatedTokenReader flate → Bytes → List Bytes →
    RsyncDeflatedTokenReader flate → Prop
  | refl (r : RsyncDeflatedTokenReader flate) : Hands r [] [] r
  | data {r r' : RsyncDeflatedTokenReader flate} {chunk more bytes : Bytes} {mores : List Bytes}
      {i : flate.Inflate} : r.rxRun = 0 → r.savedFlag = none →
      chunk.length ≤ rsyncDeflatedMaxDataCount →
      flate.inflate r.decompressor chunk .none = .ok (more, i) →
      Hands { r with decompressor := i, needsSyncTail := true } bytes mores r' →
        Hands r (dataChunk chunk ++ bytes) (handed more ++ mores) r'

theorem Hands.consumes {r' : RsyncDeflatedTokenReader flate} {bytes : Bytes} {mores : List Bytes}
    (h : Hands r bytes mores r') : Consumes r bytes (literals mores) r' := by
  induction h with
  | refl r => exact .refl r
  | @data _ _ _ more _ mores _ hrun hsaved hlen hinflate _ ih =>
      have hlits : literals (handed more ++ mores) = literals (handed more) ++ literals mores :=
        List.map_append
      rw [hlits]
      exact (consumes_data hrun hsaved hlen hinflate).trans ih

/-- All chunks of what the compressor gave. -/
theorem hands_chunks {d : flate.Deflate} {fed out : Bytes} {synced : Bool}
    (hcodec : StreamingCodec flate) (hd : Deflated flate d fed out synced) :
    ∀ (cs : List Bytes) {r : RsyncDeflatedTokenReader flate} {taken given : Bytes},
      (∀ c ∈ cs, c.length ≤ rsyncDeflatedMaxDataCount) → r.rxRun = 0 → r.savedFlag = none →
      Inflated flate r.decompressor taken given → taken ++ cs.flatten <+: out →
        ∃ (i : flate.Inflate) (mores : List Bytes),
          Inflated flate i (taken ++ cs.flatten) (given ++ mores.flatten) ∧
          Hands r (cs.flatMap dataChunk) mores
            { r with decompressor := i, needsSyncTail := r.needsSyncTail || !cs.isEmpty }
  | [], r, taken, given, _, _, _, hi, _ => by
      refine ⟨r.decompressor, [], by simpa using hi, ?_⟩
      have hsame : { r with
          decompressor := r.decompressor
          needsSyncTail := r.needsSyncTail || !(List.isEmpty ([] : List Bytes)) } = r := by
        simp
      rw [hsame]
      exact .refl r
  | c :: cs, r, taken, given, hcs, hrun, hsaved, hi, hpre => by
      rw [List.flatten_cons, ← List.append_assoc] at hpre
      have hfirst : taken ++ c <+: out := (List.prefix_append _ _).trans hpre
      obtain ⟨more, i, hinflate⟩ := hcodec.inflates hd hi hfirst .none
      have hi' := hi.taken hinflate
      obtain ⟨j, mores, hj, hrest⟩ := hands_chunks hcodec hd cs
        (r := { r with decompressor := i, needsSyncTail := true })
        (fun x hx => hcs x (List.mem_cons_of_mem c hx)) hrun hsaved hi' hpre
      refine ⟨j, handed more ++ mores, ?_, ?_⟩
      · rw [List.flatten_cons, List.flatten_append, flatten_handed, ← List.append_assoc,
          ← List.append_assoc]
        exact hj
      · rw [List.flatMap_cons]
        refine .data hrun hsaved (hcs c List.mem_cons_self) hinflate ?_
        simpa using hrest

/-! ### Flags -/

/-- In front of a flag the tail of the flush is put back, and what the decompressor held
comes out. -/
inductive Tailed : RsyncDeflatedTokenReader flate → Bytes → RsyncDeflatedTokenReader flate → Prop
  | held {r : RsyncDeflatedTokenReader flate} {more : Bytes} {i : flate.Inflate} :
      r.needsSyncTail = true →
        flate.inflate r.decompressor rsyncZlibSyncTail .sync = .ok (more, i) →
        Tailed r more { r with decompressor := i, needsSyncTail := false }
  | even {r : RsyncDeflatedTokenReader flate} : r.needsSyncTail = false → Tailed r [] r

section Flag

variable {flag : UInt8} {bytes inp rest : Bytes} {token : RsyncDeflatedToken}
  {r₁ r₂ last : RsyncDeflatedTokenReader flate}

/-- A flag that is read, or was set aside, when nothing has to be put back. -/
theorem next_readTokenFlag (hrun : r.rxRun = 0) (heven : r.needsSyncTail = false)
    (hflag : flag &&& 0xc0 ≠ rsyncDeflatedData)
    (htake : (takeFlag r).run buffer inp = .ret (flag, r₁) bytes)
    (hsame : r₁.needsSyncTail = r.needsSyncTail)
    (hread : (readTokenFlag r₁ flag).run buffer bytes = .ret (token, r₂) rest) :
    Next r inp token r₂ rest := by
  refine ⟨1, fun fuel hfuel => ?_⟩
  obtain ⟨n, rfl⟩ : ∃ n, fuel = n + 1 := ⟨fuel - 1, by omega⟩
  rw [nextToken, if_neg (by omega), Prog.run_bind_ret htake]
  dsimp only
  rw [if_neg hflag, if_neg (by simp [hsame, heven])]
  exact hread

theorem takeFlag_unsaved (hsaved : r.savedFlag = none) :
    (takeFlag r).run buffer (flag :: bytes) = .ret (flag, r) bytes := by
  have h := @run_takeFlag flate r _ flag bytes Prog.ret hsaved
  rwa [Prog.bind_ret] at h

theorem run_nextToken_tail {fuel : Nat} (hrun : r.rxRun = 0) (hsaved : r.savedFlag = none)
    (hflag : flag &&& 0xc0 ≠ rsyncDeflatedData) (hneeds : r.needsSyncTail = true) :
    (nextToken (fuel + 1) r).run buffer (flag :: bytes) =
      (do
        let (literal, r) ← Prog.ofExcept (r.inflateBytes rsyncZlibSyncTail .sync)
        if literal ≠ [] then
          pure (.literal literal, { r with needsSyncTail := false, savedFlag := some flag })
        else readTokenFlag { r with needsSyncTail := false } flag : Reader _).run buffer bytes := by
  rw [nextToken, if_neg (by omega), run_takeFlag _ hsaved]
  dsimp only
  rw [if_neg hflag, if_pos hneeds]

/-- The flag waits until the literal in front of it has been handed out. -/
theorem takeFlag_saved {i : flate.Inflate} (hsaved : r.savedFlag = none) :
    (takeFlag { r with
        decompressor := i
        needsSyncTail := false
        savedFlag := some flag }).run buffer bytes =
      .ret (flag, { r with decompressor := i, needsSyncTail := false }) bytes := by
  have hrest : { r with
      decompressor := i
      needsSyncTail := false
      savedFlag := none } = { r with decompressor := i, needsSyncTail := false } := by
    rw [← hsaved]
  rw [← hrest]
  rfl

/-- What follows a flag is read from where the flag is read, or was set aside. -/
theorem reads_flag {more : Bytes} {tokens : List RsyncDeflatedToken} (hrun : r.rxRun = 0)
    (hsaved : r.savedFlag = none) (hflag : flag &&& 0xc0 ≠ rsyncDeflatedData)
    (htail : Tailed r more r₁)
    (hread : (readTokenFlag r₁ flag).run buffer bytes = .ret (token, r₂) inp)
    (hcont : ∀ x xs, Next x xs token r₂ inp → ReadsTo x xs tokens last rest) :
    ReadsTo r (flag :: bytes) (literals (handed more) ++ tokens) last rest := by
  cases htail with
  | even heven =>
      exact hcont _ _ (next_readTokenFlag hrun heven hflag (takeFlag_unsaved hsaved) rfl hread)
  | @held _ i hneeds hinflate =>
      have hrunTail : ∀ n, (nextToken (n + 1) r).run buffer (flag :: bytes) =
          (if more ≠ [] then
            pure (.literal more, { r with
              decompressor := i
              needsSyncTail := false
              savedFlag := some flag })
          else readTokenFlag { r with decompressor := i, needsSyncTail := false } flag :
            Reader _).run buffer bytes := by
        intro n
        rw [run_nextToken_tail hrun hsaved hflag hneeds, inflateBytes_ok hinflate]
        rfl
      unfold handed
      split
      · rename_i hempty
        refine hcont _ _ ⟨1, fun fuel hfuel => ?_⟩
        obtain ⟨n, rfl⟩ : ∃ n, fuel = n + 1 := ⟨fuel - 1, by omega⟩
        rw [hrunTail, if_neg (by simp [hempty])]
        exact hread
      · rename_i hsome
        have hliteral : Next r (flag :: bytes) (.literal more) { r with
            decompressor := i
            needsSyncTail := false
            savedFlag := some flag } bytes := by
          refine ⟨1, fun fuel hfuel => ?_⟩
          obtain ⟨n, rfl⟩ : ∃ n, fuel = n + 1 := ⟨fuel - 1, by omega⟩
          rw [hrunTail, if_pos hsome]
          rfl
        refine .token hliteral (by simp) (hcont _ _ ?_)
        exact next_readTokenFlag hrun rfl hflag (takeFlag_saved hsaved) rfl hread

end Flag

/-! ### Runs -/

theorem relFlag : ∀ k < 64, (rsyncDeflatedTokenRel + UInt8.ofNat k) &&& 0xc0 ≠ rsyncDeflatedData ∧
    rsyncDeflatedTokenRel + UInt8.ofNat k ≠ rsyncDeflatedEndFlag ∧
    (rsyncDeflatedTokenRel + UInt8.ofNat k) &&& rsyncDeflatedTokenRel ≠ 0 ∧
    ((rsyncDeflatedTokenRel + UInt8.ofNat k) &&& 0x3f).toNat = k ∧
    (rsyncDeflatedTokenRel + UInt8.ofNat k) >>> 6 &&& 1 = 0 := by
  decide

theorem runRelFlag : ∀ k < 64,
    (rsyncDeflatedTokenrunRel + UInt8.ofNat k) &&& 0xc0 ≠ rsyncDeflatedData ∧
    rsyncDeflatedTokenrunRel + UInt8.ofNat k ≠ rsyncDeflatedEndFlag ∧
    (rsyncDeflatedTokenrunRel + UInt8.ofNat k) &&& rsyncDeflatedTokenRel ≠ 0 ∧
    ((rsyncDeflatedTokenrunRel + UInt8.ofNat k) &&& 0x3f).toNat = k ∧
    (rsyncDeflatedTokenrunRel + UInt8.ofNat k) >>> 6 &&& 1 ≠ 0 := by
  decide

variable (flate) in
/-- A flag says where a run starts, and whether its length follows. -/
structure RunFlag (e start : Int) (long : Prop) (flag : UInt8) (bytes : Bytes) : Prop where
  kind : flag &&& 0xc0 ≠ rsyncDeflatedData
  ne_end : flag ≠ rsyncDeflatedEndFlag
  token : ∀ r : RsyncDeflatedTokenReader flate, r.rxToken = e →
    Decodes (readRxToken r flag) bytes start
  run : (if flag &&& rsyncDeflatedTokenRel ≠ 0 then flag >>> 6 else flag) &&& 1 ≠ 0 ↔ long

theorem runFlag_rel {e start : Int} (he : 0 ≤ e) (hmax : start ≤ i32Max)
    (hrel : 0 ≤ start - e ∧ start - e ≤ 63) (runLen : Int) :
    RunFlag flate e start (runLen ≠ 0) ((if runLen = 0 then rsyncDeflatedTokenRel
      else rsyncDeflatedTokenrunRel) + UInt8.ofNat (start - e).toNat) [] := by
  have hk : (start - e).toNat < 64 := by omega
  have hback : checkedI32 (e + (start - e).toNat) = some start := by
    unfold i32Max at hmax
    have hsum : e + ((start - e).toNat : Int) = start := by omega
    rw [hsum]
    exact if_pos (by omega)
  by_cases hlen : runLen = 0
  · obtain ⟨hkind, hend, hbit, hlow, hrun⟩ := relFlag _ hk
    rw [if_pos hlen]
    refine ⟨hkind, hend, fun r hr => ?_, ?_⟩
    · unfold readRxToken
      rw [if_pos hbit, hlow, hr, hback]
      exact decodes_ret start
    · rw [if_pos hbit]
      simp [hrun, hlen]
  · obtain ⟨hkind, hend, hbit, hlow, hrun⟩ := runRelFlag _ hk
    rw [if_neg hlen]
    refine ⟨hkind, hend, fun r hr => ?_, ?_⟩
    · unfold readRxToken
      rw [if_pos hbit, hlow, hr, hback]
      exact decodes_ret start
    · rw [if_pos hbit]
      simp [hrun, hlen]

theorem runFlag_long {e start : Int} (hstart : 0 ≤ start) (hmax : start ≤ i32Max)
    (runLen : Int) :
    RunFlag flate e start (runLen ≠ 0) (if runLen = 0 then rsyncDeflatedTokenLong
      else rsyncDeflatedTokenrunLong) (leBytes 4 (ofSigned 32 start)) := by
  have htoken : Decodes (do
      let token ← readI32Le
      if token < 0 then
        throw (.io .invalidData "rsync compressed stream contained a negative token number")
      else pure token : Reader Int) (leBytes 4 (ofSigned 32 start)) start := by
    unfold i32Max at hmax
    refine (decodes_readI32Le (by omega) (by omega)).bind_ret ?_
    rw [if_neg (by omega)]
    rfl
  by_cases hlen : runLen = 0
  · rw [if_pos hlen]
    exact ⟨by decide, by decide, fun r _ => htoken, by simp [hlen]; decide⟩
  · rw [if_neg hlen]
    exact ⟨by decide, by decide, fun r _ => htoken, by simp [hlen]; decide⟩

/-- The length of a run, when it is more than one copy. -/
def runLenBytes (runLen : Nat) : Bytes := if runLen = 0 then [] else leBytes 2 runLen

theorem decodes_readRxRun {flag : UInt8} {runLen : Nat} (hlen : runLen ≤ u16Max)
    (hrun : r.rxRun = 0)
    (hflag : (if flag &&& rsyncDeflatedTokenRel ≠ 0 then flag >>> 6 else flag) &&& 1 ≠ 0 ↔
      runLen ≠ 0) : Decodes (readRxRun r flag) (runLenBytes runLen) runLen := by
  unfold u16Max at hlen
  unfold readRxRun runLenBytes
  by_cases hzero : runLen = 0
  · rw [if_pos hzero, hzero]
    dsimp only
    rw [if_neg (fun h => hflag.mp h hzero), hrun]
    exact decodes_ret 0
  · have hbytes : leBytes 2 runLen = [UInt8.ofNat runLen] ++ [UInt8.ofNat (runLen / 256)] := rfl
    rw [if_neg hzero, hbytes]
    dsimp only
    rw [if_pos (hflag.mpr hzero)]
    refine (decodes_readU8 _).bind ((decodes_readU8 _).bind_ret ?_)
    have hlo : (UInt8.ofNat runLen).toNat = runLen % 256 := UInt8.toNat_ofNat
    have hhi : (UInt8.ofNat (runLen / 256)).toNat = runLen / 256 % 256 := UInt8.toNat_ofNat
    rw [hlo, hhi]
    congr 1
    omega

theorem decodes_readTokenFlag {flag : UInt8} {bytes : Bytes} {start : Int} {runLen : Nat}
    (hstart : 0 ≤ start) (hlen : runLen ≤ u16Max) (hrun : r.rxRun = 0)
    (hflag : RunFlag flate r.rxToken start ((runLen : Int) ≠ 0) flag bytes) :
    Decodes (readTokenFlag r flag) (bytes ++ runLenBytes runLen)
      (.copy start.toNat, { r with rxToken := start, rxRun := runLen }) := by
  unfold readTokenFlag
  rw [if_neg hflag.ne_end]
  refine (hflag.token r rfl).bind ?_
  refine (decodes_readRxRun hlen hrun (hflag.run.trans (by omega))).bind_ret ?_
  unfold copyToken
  rw [if_neg (by omega)]
  rfl

/-- `runLen` copies after the one at `start`. -/
def copiesFrom (start : Nat) : Nat → List RsyncDeflatedToken
  | 0 => []
  | runLen + 1 => .copy (start + 1) :: copiesFrom (start + 1) runLen

theorem run_nextToken_run {start runLen fuel : Nat} (hmax : start + 1 ≤ i32Max)
    (htoken : r.rxToken = start) (hrun : r.rxRun = runLen + 1) (inp : Bytes) :
    (nextToken (fuel + 1) r).run buffer inp =
      .ret (.copy (start + 1), { r with rxToken := (start + 1 : Nat), rxRun := runLen }) inp := by
  have hnext : checkedI32 (r.rxToken + 1) = some ((start + 1 : Nat) : Int) := by
    unfold i32Max at hmax
    rw [htoken]
    exact if_pos (by omega)
  rw [nextToken, if_pos (by omega), hnext]
  dsimp only
  unfold copyToken
  rw [if_neg (by omega)]
  simp [hrun]

/-- The rest of a run is handed out without reading. -/
theorem consumes_run : ∀ {runLen start : Nat}, start + runLen ≤ i32Max →
    ∀ r : RsyncDeflatedTokenReader flate, r.rxToken = start → r.rxRun = runLen →
      Consumes r [] (copiesFrom start runLen)
        { r with rxToken := (start + runLen : Nat), rxRun := 0 }
  | 0, start, _, r, htoken, hrun => by
      have hsame : { r with rxToken := (start + 0 : Nat), rxRun := 0 } = r := by
        cases r
        simp only at htoken hrun
        rw [htoken, hrun]
        rfl
      rw [hsame]
      exact .refl r
  | runLen + 1, start, hmax, r, htoken, hrun => by
      have hone : Consumes r [] [.copy (start + 1)]
          { r with rxToken := (start + 1 : Nat), rxRun := runLen } := by
        refine consumes_token (by simp) fun inp => ⟨1, fun fuel hfuel => ?_⟩
        obtain ⟨n, rfl⟩ : ∃ n, fuel = n + 1 := ⟨fuel - 1, by omega⟩
        exact run_nextToken_run (by omega) htoken hrun inp
      have hrest := @consumes_run runLen (start + 1) (by omega)
        { r with rxToken := (start + 1 : Nat), rxRun := runLen } rfl rfl
      have hsum : start + 1 + runLen = start + (runLen + 1) := by omega
      rw [hsum] at hrest
      exact hone.trans hrest

end Steps

end RsyncDeflatedTokenReader

end RsyncWin
