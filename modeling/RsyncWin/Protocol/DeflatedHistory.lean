import RsyncWin.Protocol.DeflatedTokens

/-!
# The history behind a literal

A compressor's history is everything it was fed since its reset, a
decompressor's everything it produced and everything that was inserted. The
writer never feeds it the blocks it copies; a reader in `zlib` mode inserts
them. From the first block on the two differ, and what is deflated after that
does not come back.
-/

namespace RsyncWin

open ByteString Codec RsyncDeflatedTokenReader

/-! ## Raw deflate with a history -/

section Histories

variable (flate : Flate)

/-- A decompressor between two blocks: at the end of a flush, or of data that was
inserted. -/
inductive Boundary : flate.Inflate → (known : Bytes) → Prop
  | flushed {d : flate.Deflate} {fed out : Bytes} {i : flate.Inflate} :
      Deflated flate d fed out true → Inflated flate i out fed → Boundary i fed
  | inserted {i i' : flate.Inflate} {known chunk : Bytes} :
      Boundary i known → chunk ≠ [] → chunk.length ≤ u16Max →
        flate.inflate i (storedBlock chunk) .sync = .ok (chunk, i') → Boundary i' (known ++ chunk)

/-- What a compressor gives for `bytes`, however they are cut. -/
inductive Feeds : flate.Deflate → (bytes out : Bytes) → flate.Deflate → Prop
  | refl (d : flate.Deflate) : Feeds d [] [] d
  | fed {d d' d'' : flate.Deflate} {bytes out piece more : Bytes} :
      Feeds d bytes out d' → flate.deflate d' piece .none = .ok (more, d'') →
        Feeds d (bytes ++ piece) (out ++ more) d''

/-- What a decompressor gives for `bytes`, however they are cut. -/
inductive Takes : flate.Inflate → (bytes given : Bytes) → flate.Inflate → Prop
  | refl (i : flate.Inflate) : Takes i [] [] i
  | took {i i' i'' : flate.Inflate} {bytes given piece more : Bytes} {flush : FlateFlush} :
      Takes i bytes given i' → flate.inflate i' piece flush = .ok (more, i'') →
        Takes i (bytes ++ piece) (given ++ more) i''

/-- A streaming codec whose decompressor gives back what was fed only where its history is
the compressor's. How many bytes it gives does not depend on the history. -/
structure HistoryCodec : Prop extends StreamingCodec flate where
  inserts : ∀ {i : flate.Inflate} {known chunk : Bytes}, Boundary flate i known → chunk ≠ [] →
    chunk.length ≤ u16Max → ∃ i', flate.inflate i (storedBlock chunk) .sync = .ok (chunk, i')
  lengths : ∀ {d d' d'' : flate.Deflate} {fed out bytes more last : Bytes}
    {i i' : flate.Inflate} {known given : Bytes}, Deflated flate d fed out true →
      Feeds flate d bytes more d' → bytes ≠ [] → flate.deflate d' [] .sync = .ok (last, d'') →
      Boundary flate i known → Takes flate i (more ++ last) given i' →
        given.length = bytes.length
  returns : ∀ {d d' d'' : flate.Deflate} {fed out bytes more last : Bytes}
    {i i' : flate.Inflate} {known : Bytes}, Deflated flate d fed out true →
      Feeds flate d bytes more d' → bytes ≠ [] → flate.deflate d' [] .sync = .ok (last, d'') →
      Boundary flate i known → Takes flate i (more ++ last) bytes i' → known = fed

end Histories

/-! ## Receiving a file

As the loop over the tokens does it: a copied block is looked up and observed. -/

namespace RsyncDeflatedTokenReader

variable {flate : Flate} {data : Nat → Option Bytes} {r r' : RsyncDeflatedTokenReader flate}
  {inp inp' rest content : Bytes}

/-- `content` is what arrives from `inp` up to the end of the file. -/
inductive Receives (data : Nat → Option Bytes) :
    RsyncDeflatedTokenReader flate → Bytes → Bytes → Bytes → Prop
  | finish {r r' : RsyncDeflatedTokenReader flate} {inp rest : Bytes} :
      Next r inp .finish r' rest → Receives data r inp [] rest
  | literal {r r₁ : RsyncDeflatedTokenReader flate} {inp inp₁ bytes content rest : Bytes} :
      Next r inp (.literal bytes) r₁ inp₁ → Receives data r₁ inp₁ content rest →
        Receives data r inp (bytes ++ content) rest
  | copy {r r₁ r₂ : RsyncDeflatedTokenReader flate} {inp inp₁ bytes content rest : Bytes}
      {blockIndex : Nat} : Next r inp (.copy blockIndex) r₁ inp₁ →
        data blockIndex = some bytes → r₁.observeCopyData bytes = .ok r₂ →
        Receives data r₂ inp₁ content rest → Receives data r inp (bytes ++ content) rest

/-- Where the next token is read at once, it is what is read. -/
theorem next_iff_of_run {x : Final Error Bytes (RsyncDeflatedToken × RsyncDeflatedTokenReader flate)}
    {token : RsyncDeflatedToken}
    (h : ∀ fuel, (nextToken (fuel + 1) r).run buffer inp = x) :
    Next r inp token r' rest ↔ x = .ret (token, r') rest := by
  constructor
  · rintro ⟨least, hleast⟩
    rw [← h least]
    exact hleast (least + 1) (Nat.le_succ least)
  · rintro rfl
    refine ⟨1, fun fuel hfuel => ?_⟩
    obtain ⟨n, rfl⟩ : ∃ n, fuel = n + 1 := ⟨fuel - 1, by omega⟩
    exact h n

theorem next_congr {token : RsyncDeflatedToken} {r₁ : RsyncDeflatedTokenReader flate}
    (h : ∀ fuel, (nextToken (fuel + 1) r).run buffer inp = (nextToken fuel r').run buffer inp') :
    Next r inp token r₁ rest ↔ Next r' inp' token r₁ rest := by
  constructor
  · rintro ⟨least, hleast⟩
    refine ⟨least, fun fuel hfuel => ?_⟩
    rw [← h]
    exact hleast (fuel + 1) (by omega)
  · rintro ⟨least, hleast⟩
    refine ⟨least + 1, fun fuel hfuel => ?_⟩
    obtain ⟨n, rfl⟩ : ∃ n, fuel = n + 1 := ⟨fuel - 1, by omega⟩
    rw [h]
    exact hleast n (by omega)

/-- What arrives is decided by the next token. -/
theorem receives_congr
    (h : ∀ token r₁ inp₁, Next r inp token r₁ inp₁ ↔ Next r' inp' token r₁ inp₁) :
    Receives data r inp content rest ↔ Receives data r' inp' content rest := by
  constructor
  · intro hr
    cases hr with
    | finish hnext => exact .finish ((h _ _ _).mp hnext)
    | literal hnext hmore => exact .literal ((h _ _ _).mp hnext) hmore
    | copy hnext hdata hobserve hmore => exact .copy ((h _ _ _).mp hnext) hdata hobserve hmore
  · intro hr
    cases hr with
    | finish hnext => exact .finish ((h _ _ _).mpr hnext)
    | literal hnext hmore => exact .literal ((h _ _ _).mpr hnext) hmore
    | copy hnext hdata hobserve hmore => exact .copy ((h _ _ _).mpr hnext) hdata hobserve hmore

section Tokens

variable {bytes : Bytes} {blockIndex : Nat}

theorem receives_literal
    (h : ∀ fuel, (nextToken (fuel + 1) r).run buffer inp = .ret (.literal bytes, r') inp') :
    Receives data r inp content rest ↔
      ∃ content', content = bytes ++ content' ∧ Receives data r' inp' content' rest := by
  constructor
  · intro hr
    cases hr with
    | finish hnext => simpa using (next_iff_of_run h).mp hnext
    | literal hnext hmore =>
        obtain ⟨⟨hliteral, rfl⟩, rfl⟩ := by simpa using (next_iff_of_run h).mp hnext
        exact ⟨_, by rw [hliteral], hmore⟩
    | copy hnext _ _ _ => simpa using (next_iff_of_run h).mp hnext
  · rintro ⟨content', rfl, hmore⟩
    exact .literal ((next_iff_of_run h).mpr rfl) hmore

theorem receives_copy
    (h : ∀ fuel, (nextToken (fuel + 1) r).run buffer inp = .ret (.copy blockIndex, r') inp')
    (hdata : data blockIndex = some bytes) :
    Receives data r inp content rest ↔ ∃ r₂ content', r'.observeCopyData bytes = .ok r₂ ∧
      content = bytes ++ content' ∧ Receives data r₂ inp' content' rest := by
  constructor
  · intro hr
    cases hr with
    | finish hnext => simpa using (next_iff_of_run h).mp hnext
    | literal hnext _ => simpa using (next_iff_of_run h).mp hnext
    | copy hnext hdata' hobserve hmore =>
        obtain ⟨⟨hcopy, rfl⟩, rfl⟩ := by simpa using (next_iff_of_run h).mp hnext
        rw [← hcopy, hdata] at hdata'
        obtain rfl := Option.some.inj hdata'
        exact ⟨_, _, hobserve, rfl, hmore⟩
  · rintro ⟨r₂, content', hobserve, rfl, hmore⟩
    exact .copy ((next_iff_of_run h).mpr rfl) hdata hobserve hmore

theorem receives_finish
    (h : ∀ fuel, (nextToken (fuel + 1) r).run buffer inp = .ret (.finish, r') inp') :
    Receives data r inp content rest ↔ content = [] ∧ rest = inp' := by
  constructor
  · intro hr
    cases hr with
    | finish hnext =>
        obtain ⟨-, rfl⟩ := by simpa using (next_iff_of_run h).mp hnext
        exact ⟨rfl, rfl⟩
    | literal hnext _ => simpa using (next_iff_of_run h).mp hnext
    | copy hnext _ _ _ => simpa using (next_iff_of_run h).mp hnext
  · rintro ⟨rfl, rfl⟩
    exact .finish ((next_iff_of_run h).mpr rfl)

theorem not_receives {e : Error}
    (h : ∀ fuel, (nextToken (fuel + 1) r).run buffer inp = .fail e inp') :
    ¬ Receives data r inp content rest := by
  intro hr
  cases hr with
  | finish hnext => simpa using (next_iff_of_run h).mp hnext
  | literal hnext _ => simpa using (next_iff_of_run h).mp hnext
  | copy hnext _ _ _ => simpa using (next_iff_of_run h).mp hnext

end Tokens

/-! ### Data, and the tail in front of a flag -/

theorem receives_data {chunk : Bytes} (hrun : r.rxRun = 0) (hsaved : r.savedFlag = none)
    (hlen : chunk.length ≤ rsyncDeflatedMaxDataCount) :
    Receives data r (dataChunk chunk ++ inp) content rest ↔ ∃ more i content',
      flate.inflate r.decompressor chunk .none = .ok (more, i) ∧ content = more ++ content' ∧
      Receives data { r with decompressor := i, needsSyncTail := true } inp content' rest := by
  cases hinflate : flate.inflate r.decompressor chunk .none with
  | error e =>
      have hfail : ∀ fuel, (nextToken (fuel + 1) r).run buffer (dataChunk chunk ++ inp) =
          .fail e inp := by
        intro fuel
        rw [run_nextToken_chunk hrun hsaved hlen]
        unfold inflateBytes
        rw [hinflate]
        rfl
      simp only [reduceCtorEq, false_and, exists_false, iff_false]
      exact not_receives hfail
  | ok given =>
      obtain ⟨more, i⟩ := given
      have hnext := fun fuel => @run_nextToken_data flate r chunk more inp i fuel hrun hsaved hlen
        hinflate
      have hone : Receives data r (dataChunk chunk ++ inp) content rest ↔ ∃ content',
          content = more ++ content' ∧
          Receives data { r with decompressor := i, needsSyncTail := true } inp content' rest := by
        by_cases hmore : more = []
        · -- a chunk that inflates to nothing is skipped
          subst hmore
          simp only [List.nil_append, exists_eq_left']
          exact receives_congr fun token r₁ inp₁ => next_congr hnext
        · refine receives_literal fun fuel => ?_
          rw [hnext, if_pos hmore]
          rfl
      rw [hone]
      constructor
      · rintro ⟨content', hcontent, hrest⟩
        exact ⟨more, i, content', rfl, hcontent, hrest⟩
      · rintro ⟨more', i', content', hok, hcontent, hrest⟩
        obtain ⟨rfl, rfl⟩ := Prod.mk.inj (Except.ok.inj hok)
        exact ⟨content', hcontent, hrest⟩

section Flag

variable {flag : UInt8}

theorem run_nextToken_flag {fuel : Nat} (hrun : r.rxRun = 0) (hsaved : r.savedFlag = none)
    (heven : r.needsSyncTail = false) (hflag : flag &&& 0xc0 ≠ rsyncDeflatedData) :
    (nextToken (fuel + 1) r).run buffer (flag :: inp) = (readTokenFlag r flag).run buffer inp := by
  rw [nextToken, if_neg (by omega), run_takeFlag _ hsaved]
  dsimp only
  rw [if_neg hflag, if_neg (by simp [heven])]

theorem run_nextToken_saved {fuel : Nat} {i : flate.Inflate} (hrun : r.rxRun = 0)
    (hsaved : r.savedFlag = none) (hflag : flag &&& 0xc0 ≠ rsyncDeflatedData) :
    (nextToken (fuel + 1) { r with
        decompressor := i
        needsSyncTail := false
        savedFlag := some flag }).run buffer inp =
      (readTokenFlag { r with decompressor := i, needsSyncTail := false } flag).run buffer inp := by
  rw [nextToken, if_neg (by simp [hrun]), Prog.run_bind_ret (takeFlag_saved hsaved)]
  dsimp only
  rw [if_neg hflag, if_neg (by simp)]

/-- Where the tail is missing it is put back first. -/
theorem receives_tail (hrun : r.rxRun = 0) (hsaved : r.savedFlag = none)
    (hneeds : r.needsSyncTail = true) (hflag : flag &&& 0xc0 ≠ rsyncDeflatedData) :
    Receives data r (flag :: inp) content rest ↔ ∃ more i content',
      flate.inflate r.decompressor rsyncZlibSyncTail .sync = .ok (more, i) ∧
      content = more ++ content' ∧
      Receives data { r with decompressor := i, needsSyncTail := false } (flag :: inp) content'
        rest := by
  cases hinflate : flate.inflate r.decompressor rsyncZlibSyncTail .sync with
  | error e =>
      have hfail : ∀ fuel, (nextToken (fuel + 1) r).run buffer (flag :: inp) = .fail e inp := by
        intro fuel
        rw [run_nextToken_tail hrun hsaved hflag hneeds]
        unfold inflateBytes
        rw [hinflate]
        rfl
      simp only [reduceCtorEq, false_and, exists_false, iff_false]
      exact not_receives hfail
  | ok given =>
      obtain ⟨more, i⟩ := given
      have hnext : ∀ fuel, (nextToken (fuel + 1) r).run buffer (flag :: inp) =
          (if more ≠ [] then
            pure (.literal more, { r with
              decompressor := i
              needsSyncTail := false
              savedFlag := some flag })
          else readTokenFlag { r with decompressor := i, needsSyncTail := false } flag :
            Reader _).run buffer inp := by
        intro fuel
        rw [run_nextToken_tail hrun hsaved hflag hneeds, inflateBytes_ok hinflate]
        rfl
      have hafter : ∀ token r₁ inp₁,
          Next { r with decompressor := i, needsSyncTail := false } (flag :: inp) token r₁ inp₁ ↔
            (readTokenFlag { r with decompressor := i, needsSyncTail := false } flag).run buffer
              inp = .ret (token, r₁) inp₁ := fun token r₁ inp₁ =>
        next_iff_of_run fun fuel => run_nextToken_flag hrun hsaved rfl hflag
      have hone : Receives data r (flag :: inp) content rest ↔ ∃ content',
          content = more ++ content' ∧ Receives data
            { r with decompressor := i, needsSyncTail := false } (flag :: inp) content' rest := by
        by_cases hmore : more = []
        · subst hmore
          simp only [List.nil_append, exists_eq_left']
          refine receives_congr fun token r₁ inp₁ => ?_
          rw [hafter]
          refine next_iff_of_run fun fuel => ?_
          rw [hnext, if_neg (by simp)]
        · have hliteral : ∀ fuel, (nextToken (fuel + 1) r).run buffer (flag :: inp) =
              .ret (.literal more, { r with
                decompressor := i
                needsSyncTail := false
                savedFlag := some flag }) inp := by
            intro fuel
            rw [hnext, if_pos hmore]
            rfl
          rw [receives_literal hliteral]
          refine exists_congr fun content' => and_congr_right fun _ => ?_
          refine receives_congr fun token r₁ inp₁ => ?_
          rw [hafter]
          exact next_iff_of_run fun fuel => run_nextToken_saved hrun hsaved hflag
      rw [hone]
      constructor
      · rintro ⟨content', hcontent, hrest⟩
        exact ⟨more, i, content', rfl, hcontent, hrest⟩
      · rintro ⟨more', i', content', hok, hcontent, hrest⟩
        obtain ⟨rfl, rfl⟩ := Prod.mk.inj (Except.ok.inj hok)
        exact ⟨content', hcontent, hrest⟩

theorem receives_tailed {more : Bytes} {r₁ : RsyncDeflatedTokenReader flate} (hrun : r.rxRun = 0)
    (hsaved : r.savedFlag = none) (hflag : flag &&& 0xc0 ≠ rsyncDeflatedData)
    (h : Tailed r more r₁) :
    Receives data r (flag :: inp) (more ++ content) rest ↔
      Receives data r₁ (flag :: inp) content rest := by
  cases h with
  | even heven => rfl
  | held hneeds hinflate =>
      rw [receives_tail hrun hsaved hneeds hflag, hinflate]
      constructor
      · rintro ⟨more', i', content', hok, hcontent, hrest⟩
        obtain ⟨rfl, rfl⟩ := Prod.mk.inj (Except.ok.inj hok)
        rwa [List.append_cancel_left hcontent]
      · intro hrest
        exact ⟨_, _, content, rfl, rfl, hrest⟩

theorem receives_end (hrun : r.rxRun = 0) (hsaved : r.savedFlag = none)
    (heven : r.needsSyncTail = false) :
    Receives data r (rsyncDeflatedEndFlag :: inp) content rest ↔ content = [] ∧ rest = inp :=
  receives_finish fun fuel => run_nextToken_flag hrun hsaved heven (by decide)

end Flag

/-! ### What leads from one state to another -/

/-- From `r` on, `bytes` give `more` and lead to `r'`, whatever comes behind them. -/
def Leads (data : Nat → Option Bytes) (r : RsyncDeflatedTokenReader flate) (bytes more : Bytes)
    (r' : RsyncDeflatedTokenReader flate) : Prop :=
  ∀ inp content rest, Receives data r (bytes ++ inp) content rest ↔
    ∃ content', content = more ++ content' ∧ Receives data r' inp content' rest

theorem Leads.refl (data : Nat → Option Bytes) (r : RsyncDeflatedTokenReader flate) :
    Leads data r [] [] r := by
  intro inp content rest
  simp

theorem Leads.trans {r₁ r₂ r₃ : RsyncDeflatedTokenReader flate} {bytes bytes' more more' : Bytes}
    (h : Leads data r₁ bytes more r₂) (h' : Leads data r₂ bytes' more' r₃) :
    Leads data r₁ (bytes ++ bytes') (more ++ more') r₃ := by
  intro inp content rest
  rw [List.append_assoc, h]
  constructor
  · rintro ⟨content₁, rfl, h₁⟩
    obtain ⟨content', rfl, h₂⟩ := (h' _ _ _).mp h₁
    exact ⟨content', (List.append_assoc _ _ _).symm, h₂⟩
  · rintro ⟨content', rfl, h₂⟩
    exact ⟨more' ++ content', List.append_assoc _ _ _, (h' _ _ _).mpr ⟨content', rfl, h₂⟩⟩

/-- With what is owed on both sides. -/
theorem Leads.receives {bytes more : Bytes} (h : Leads data r bytes more r') :
    Receives data r (bytes ++ inp) (more ++ content) rest ↔
      Receives data r' inp content rest := by
  rw [h]
  constructor
  · rintro ⟨content', hsame, hrest⟩
    rwa [List.append_cancel_left hsame]
  · intro hrest
    exact ⟨content, rfl, hrest⟩

theorem Hands.leads {bytes : Bytes} {mores : List Bytes} (h : Hands r bytes mores r') :
    Leads data r bytes mores.flatten r' := by
  induction h with
  | refl r => exact .refl data r
  | @data r r' chunk more bytes mores i hrun hsaved hlen hinflate _ ih =>
      have hone : Leads data r (dataChunk chunk) more
          { r with decompressor := i, needsSyncTail := true } := by
        intro inp content rest
        rw [receives_data hrun hsaved hlen, hinflate]
        constructor
        · rintro ⟨more', i', content', hok, hcontent, hrest⟩
          obtain ⟨rfl, rfl⟩ := Prod.mk.inj (Except.ok.inj hok)
          exact ⟨content', hcontent, hrest⟩
        · rintro ⟨content', hcontent, hrest⟩
          exact ⟨more, i, content', rfl, hcontent, hrest⟩
      have hboth := hone.trans ih
      rwa [List.flatten_append, flatten_handed]

theorem Hands.mode {bytes : Bytes} {mores : List Bytes} (h : Hands r bytes mores r') :
    r'.mode = r.mode := by
  induction h with
  | refl r => rfl
  | data _ _ _ _ _ ih => exact ih

theorem Tailed.mode {more : Bytes} (h : Tailed r more r') : r'.mode = r.mode := by
  cases h with
  | held _ _ => rfl
  | even _ => rfl

/-! ### Copies that are observed -/

/-- The blocks behind the copies. -/
def blocks (data : Nat → Option Bytes) : List RsyncDeflatedToken → Bytes
  | [] => []
  | .copy blockIndex :: rest => (data blockIndex).getD [] ++ blocks data rest
  | _ :: rest => blocks data rest

/-- Every block that is copied is there and is not empty. -/
def Stored (data : Nat → Option Bytes) (tokens : List RsyncDeflatedToken) : Prop :=
  ∀ blockIndex, .copy blockIndex ∈ tokens → ∃ bytes, data blockIndex = some bytes ∧ bytes ≠ []

theorem Stored.append {xs ys : List RsyncDeflatedToken} (hx : Stored data xs)
    (hy : Stored data ys) : Stored data (xs ++ ys) := by
  intro blockIndex h
  rcases List.mem_append.mp h with h | h
  · exact hx blockIndex h
  · exact hy blockIndex h

variable {known : Bytes}

theorem observeCopyData_boundary (hcodec : HistoryCodec flate) (hmode : r.mode = .zlib)
    (h : Boundary flate r.decompressor known) (bytes : Bytes) :
    ∃ i, r.observeCopyData bytes = .ok { r with decompressor := i } ∧
      Boundary flate i (known ++ bytes) := by
  have hfold : ∀ (step : RsyncDeflatedTokenReader flate → Bytes →
        Except Error (RsyncDeflatedTokenReader flate)),
      (∀ r chunk, step r chunk =
        (r.inflateBytes (storedBlock chunk) .sync).bind fun out => .ok out.2) →
      ∀ (cs : List Bytes) (r : RsyncDeflatedTokenReader flate) (known : Bytes),
      (∀ c ∈ cs, 0 < c.length ∧ c.length ≤ u16Max) → Boundary flate r.decompressor known →
      ∃ i, cs.foldlM step r = .ok { r with decompressor := i } ∧
        Boundary flate i (known ++ cs.flatten) := by
    intro step hstep cs
    induction cs with
    | nil =>
        intro r known _ hr
        exact ⟨r.decompressor, rfl, by simpa using hr⟩
    | cons c cs ih =>
        intro r known hcs hr
        obtain ⟨hpos, hmax⟩ := hcs c List.mem_cons_self
        have hne : c ≠ [] := List.length_pos_iff.mp hpos
        obtain ⟨i, hinflate⟩ := hcodec.inserts hr hne hmax
        obtain ⟨j, hmore, hj⟩ := ih { r with decompressor := i } (known ++ c)
          (fun x hx => hcs x (List.mem_cons_of_mem c hx)) (.inserted hr hne hmax hinflate)
        refine ⟨j, ?_, ?_⟩
        · rw [List.foldlM_cons, hstep, inflateBytes_ok hinflate]
          exact hmore
        · rw [List.flatten_cons, ← List.append_assoc]
          exact hj
  have hpos : 0 < u16Max := by decide
  unfold observeCopyData
  by_cases hbytes : bytes = []
  · subst hbytes
    rw [if_pos (Or.inr rfl)]
    exact ⟨r.decompressor, rfl, by simpa using h⟩
  · rw [if_neg (by simp [hmode, hbytes])]
    obtain ⟨i, hmore, hi⟩ := hfold _ (fun _ _ => rfl) (chunks u16Max bytes) r known
      (fun c hc => length_of_mem_chunks hpos hc) h
    rw [flatten_chunks hpos] at hi
    exact ⟨i, hmore, hi⟩

/-- The rest of a run is handed out without reading, and each block is observed. -/
theorem leads_copies (hcodec : HistoryCodec flate) : ∀ {runLen start : Nat},
    start + runLen ≤ i32Max → Stored data (copiesFrom start runLen) →
    ∀ (r : RsyncDeflatedTokenReader flate) (known : Bytes), r.rxToken = start →
      r.rxRun = runLen → r.mode = .zlib → Boundary flate r.decompressor known →
      ∃ i, Boundary flate i (known ++ blocks data (copiesFrom start runLen)) ∧
        Leads data r [] (blocks data (copiesFrom start runLen))
          { r with decompressor := i, rxToken := (start + runLen : Nat), rxRun := 0 }
  | 0, start, _, _, r, known, htoken, hrun, _, hr => by
      have hsame : { r with rxToken := (start + 0 : Nat), rxRun := 0 } = r := by
        cases r
        simp only at htoken hrun
        rw [htoken, hrun]
        rfl
      refine ⟨r.decompressor, by simpa [copiesFrom, blocks] using hr, ?_⟩
      show Leads data r [] [] { r with rxToken := (start + 0 : Nat), rxRun := 0 }
      rw [hsame]
      exact .refl data r
  | runLen + 1, start, hmax, hstored, r, known, htoken, hrun, hmode, hr => by
      obtain ⟨bytes, hdata, hne⟩ := hstored (start + 1) List.mem_cons_self
      obtain ⟨i, hobserve, hi⟩ := @observeCopyData_boundary flate
        { r with rxToken := (start + 1 : Nat), rxRun := runLen } known hcodec hmode hr bytes
      have hone : Leads data r [] bytes
          { r with decompressor := i, rxToken := (start + 1 : Nat), rxRun := runLen } := by
        intro inp content rest
        have hcopy := fun fuel => @run_nextToken_run flate r start runLen fuel (by omega) htoken
          hrun inp
        rw [List.nil_append, receives_copy hcopy hdata, hobserve]
        simp only [Except.ok.injEq, exists_eq_left', exists_and_left]
      obtain ⟨j, hj, hrest⟩ := leads_copies hcodec (by omega)
        (fun index hindex => hstored index (List.mem_cons_of_mem _ hindex))
        { r with decompressor := i, rxToken := (start + 1 : Nat), rxRun := runLen } (known ++ bytes)
        rfl rfl hmode hi
      have hsum : start + 1 + runLen = start + (runLen + 1) := by omega
      rw [hsum] at hrest
      refine ⟨j, ?_, ?_⟩
      · rw [copiesFrom, blocks, hdata, Option.getD_some, ← List.append_assoc]
        exact hj
      · rw [copiesFrom, blocks, hdata, Option.getD_some]
        exact hone.trans hrest

end RsyncDeflatedTokenReader

/-! ## What a file comes to -/

section Targets

variable (data : Nat → Option Bytes)

/-- The target has the literals where the tokens have them, and as many bytes as the block
where there is a copy. -/
def Fits : List RsyncDeflatedToken → Bytes → Prop
  | [], target => target = []
  | .literal bytes :: rest, target => ∃ more, target = bytes ++ more ∧ Fits rest more
  | .copy blockIndex :: rest, target => ∃ bytes more, target = bytes ++ more ∧
      bytes.length = ((data blockIndex).getD []).length ∧ Fits rest more
  | .finish :: rest, target => Fits rest target

/-- Copies and no literal, and the blocks are the target. -/
def CopiesOnly : List RsyncDeflatedToken → Bytes → Prop
  | [], target => target = []
  | .literal _ :: _, _ => False
  | .copy blockIndex :: rest, target =>
      ∃ more, target = (data blockIndex).getD [] ++ more ∧ CopiesOnly rest more
  | .finish :: rest, target => CopiesOnly rest target

/-- The target, with no literal behind a copy. -/
def LiteralsThenCopies : List RsyncDeflatedToken → Bytes → Prop
  | .literal bytes :: rest, target =>
      ∃ more, target = bytes ++ more ∧ LiteralsThenCopies rest more
  | tokens, target => CopiesOnly data tokens target

variable {data} {copies rest : List RsyncDeflatedToken} {target : Bytes}

theorem copiesOnly_append (hcopies : ∀ token ∈ copies, ∃ blockIndex, token = .copy blockIndex) :
    CopiesOnly data (copies ++ rest) target ↔
      ∃ more, target = blocks data copies ++ more ∧ CopiesOnly data rest more := by
  induction copies generalizing target with
  | nil => simp [blocks]
  | cons token copies ih =>
      obtain ⟨blockIndex, rfl⟩ := hcopies token List.mem_cons_self
      have ih' := fun t => @ih t fun token h => hcopies token (List.mem_cons_of_mem _ h)
      simp only [List.cons_append, CopiesOnly, blocks, ih']
      constructor
      · rintro ⟨_, rfl, more, rfl, hrest⟩
        exact ⟨more, (List.append_assoc _ _ _).symm, hrest⟩
      · rintro ⟨more, rfl, hrest⟩
        exact ⟨_, List.append_assoc _ _ _, more, rfl, hrest⟩

theorem Fits.of_append (hcopies : ∀ token ∈ copies, ∃ blockIndex, token = .copy blockIndex)
    (h : Fits data (copies ++ rest) target) :
    ∃ bytes more, target = bytes ++ more ∧ bytes.length = (blocks data copies).length ∧
      Fits data rest more := by
  induction copies generalizing target with
  | nil => exact ⟨[], target, rfl, rfl, h⟩
  | cons token copies ih =>
      obtain ⟨blockIndex, rfl⟩ := hcopies token List.mem_cons_self
      obtain ⟨bytes, more, rfl, hlen, hmore⟩ := h
      obtain ⟨bytes', more', rfl, hlen', hrest⟩ :=
        ih (fun token h => hcopies token (List.mem_cons_of_mem _ h)) hmore
      refine ⟨bytes ++ bytes', more', (List.append_assoc _ _ _).symm, ?_, hrest⟩
      rw [blocks, List.length_append, List.length_append, hlen, hlen']

end Targets

/-! ## A file on the way -/

namespace RsyncDeflatedTokenWriter

variable {flate : Flate} {data : Nat → Option Bytes} {w : RsyncDeflatedTokenWriter flate}
  {fed out known : Bytes} {start runLen : Nat}

/-- A reader that inserts what it copies, between two tokens; `known` is its history. -/
structure Stocked (r : RsyncDeflatedTokenReader flate) (w : RsyncDeflatedTokenWriter flate)
    (known : Bytes) : Prop extends Idle r w where
  mode : r.mode = .zlib
  even : r.needsSyncTail = false
  boundary : Boundary flate r.decompressor known

/-- `runLen + 1` copies from `start`. -/
def runFrom (start runLen : Nat) : List RsyncDeflatedToken := .copy start :: copiesFrom start runLen

theorem copy_of_mem_copiesFrom : ∀ {runLen start : Nat} {token : RsyncDeflatedToken},
    token ∈ copiesFrom start runLen → ∃ blockIndex, token = .copy blockIndex
  | 0, _, _, h => by cases h
  | runLen + 1, start, token, h => by
      rcases List.mem_cons.mp h with rfl | h
      · exact ⟨start + 1, rfl⟩
      · exact copy_of_mem_copiesFrom h

theorem copy_of_mem_runFrom {token : RsyncDeflatedToken} (h : token ∈ runFrom start runLen) :
    ∃ blockIndex, token = .copy blockIndex := by
  rcases List.mem_cons.mp h with rfl | h
  · exact ⟨start, rfl⟩
  · exact copy_of_mem_copiesFrom h

theorem runFrom_succ (start runLen : Nat) :
    runFrom start (runLen + 1) = runFrom start runLen ++ [.copy (start + runLen + 1)] := by
  unfold runFrom
  rw [copiesFrom_succ]
  rfl

/-- A run is sent, and its blocks are in the reader's history, not in the writer's. -/
theorem leads_run (hcodec : HistoryCodec flate) (hopen : Opened w fed out true)
    (hrun : Running w start runLen) (hstored : Stored data (runFrom start runLen)) :
    ∃ cs flag bytes, Writes (writePendingRun w) cs () ∧ cs.flatten = flag :: bytes ∧
      flag &&& 0xc0 ≠ rsyncDeflatedData ∧ ∀ r known, Stocked r w known →
        ∃ r', Stocked r' w.closed (known ++ blocks data (runFrom start runLen)) ∧
          Leads data r cs.flatten (blocks data (runFrom start runLen)) r' := by
  obtain ⟨cs, flag, bytes, hwrites, hflat, hflag, hreads⟩ := sends_run hopen hrun
  refine ⟨cs, flag, bytes, hwrites, hflat, hflag, fun r known hr => ?_⟩
  obtain ⟨block, hdata, -⟩ := hstored start List.mem_cons_self
  have hcopy : ∀ inp fuel, (nextToken (fuel + 1) r).run buffer (flag :: bytes ++ inp) =
      .ret (.copy start, { r with rxToken := start, rxRun := runLen }) inp := by
    intro inp fuel
    rw [List.cons_append, run_nextToken_flag hr.run hr.saved hr.even hflag]
    exact hreads r hr.token hr.run inp
  obtain ⟨i, hobserve, hi⟩ := @observeCopyData_boundary flate
    { r with rxToken := start, rxRun := runLen } known hcodec hr.mode hr.boundary block
  have hone : Leads data r (flag :: bytes) block
      { r with decompressor := i, rxToken := start, rxRun := runLen } := by
    intro inp content rest
    rw [receives_copy (hcopy inp) hdata, hobserve]
    simp only [Except.ok.injEq, exists_eq_left', exists_and_left]
  obtain ⟨j, hj, hrest⟩ := leads_copies hcodec hrun.small
    (fun index hindex => hstored index (List.mem_cons_of_mem _ hindex))
    { r with decompressor := i, rxToken := start, rxRun := runLen } (known ++ block)
    rfl rfl hr.mode hi
  refine ⟨{ r with decompressor := j, rxToken := (start + runLen : Nat), rxRun := 0 },
    ⟨⟨hrun.last.symm, rfl, hr.saved⟩, hr.mode, hr.even, ?_⟩, ?_⟩
  · rw [runFrom, blocks, hdata, Option.getD_some, ← List.append_assoc]
    exact hj
  · rw [hflat, runFrom, blocks, hdata, Option.getD_some]
    have hboth := hone.trans hrest
    rwa [List.append_nil] at hboth

/-! ### A literal behind a copy -/

theorem takes_trans {i i' i'' : flate.Inflate} {bytes bytes' given given' : Bytes}
    (h : Takes flate i bytes given i') (h' : Takes flate i' bytes' given' i'') :
    Takes flate i (bytes ++ bytes') (given ++ given') i'' := by
  induction h' with
  | refl => simpa using h
  | took _ hinflate ih =>
      rw [← List.append_assoc, ← List.append_assoc]
      exact ih.took hinflate

/-- Whatever is received was inflated, whatever that gave. -/
theorem takes_chunks {inp content rest : Bytes} : ∀ (cs : List Bytes)
    {r : RsyncDeflatedTokenReader flate}, (∀ c ∈ cs, c.length ≤ rsyncDeflatedMaxDataCount) →
    r.rxRun = 0 → r.savedFlag = none →
    Receives data r (cs.flatMap dataChunk ++ inp) content rest → ∃ i given content',
      Takes flate r.decompressor cs.flatten given i ∧ content = given ++ content' ∧
      Receives data { r with decompressor := i, needsSyncTail := r.needsSyncTail || !cs.isEmpty }
        inp content' rest
  | [], r, _, _, _, h => by
      refine ⟨r.decompressor, [], content, .refl _, rfl, ?_⟩
      simpa using h
  | c :: cs, r, hcs, hrun, hsaved, h => by
      rw [List.flatMap_cons, List.append_assoc,
        receives_data hrun hsaved (hcs c List.mem_cons_self)] at h
      obtain ⟨more, i, content₁, hinflate, rfl, hrest⟩ := h
      obtain ⟨j, given, content', htakes, rfl, hreceives⟩ :=
        @takes_chunks inp content₁ rest cs { r with decompressor := i, needsSyncTail := true }
          (fun x hx => hcs x (List.mem_cons_of_mem c hx)) hrun hsaved hrest
      refine ⟨j, more ++ given, content', ?_, (List.append_assoc _ _ _).symm, ?_⟩
      · rw [List.flatten_cons]
        exact takes_trans ((Takes.refl _).took hinflate) htakes
      · simpa using hreceives

theorem takes_data {bytes inp content rest : Bytes} {r : RsyncDeflatedTokenReader flate}
    (hidle : Idle r w)
    (h : Receives data r ((chunks rsyncDeflatedMaxDataCount bytes).flatMap dataChunk ++ inp)
      content rest) : ∃ i given content' needs, Takes flate r.decompressor bytes given i ∧
      content = given ++ content' ∧ (bytes ≠ [] → needs = true) ∧
      Receives data { r with decompressor := i, needsSyncTail := needs } inp content' rest := by
  have hpos : 0 < rsyncDeflatedMaxDataCount := by decide
  obtain ⟨i, given, content', htakes, hcontent, hrest⟩ := takes_chunks _
    (fun c hc => (length_of_mem_chunks hpos hc).2) hidle.run hidle.saved h
  rw [flatten_chunks hpos] at htakes
  refine ⟨i, given, content', _, htakes, hcontent, fun hne => ?_, hrest⟩
  rw [chunks_of_ne_nil hpos hne]
  simp

variable (flate data) in
/-- Something was fed after the last flush, and the reader that takes it has another
history: the target is not received. -/
def Lost (steps : List DeflatedSend) : Prop :=
  ∀ (w : RsyncDeflatedTokenWriter flate) (d : flate.Deflate) (fed out bytes more : Bytes),
    w.lastToken = -2 → Deflated flate d fed out true → Feeds flate d bytes more w.compressor →
    bytes ≠ [] → Opened w (fed ++ bytes) (out ++ more) false →
    ∃ cs w', Writes (sendSteps w steps) cs w' ∧
      ∀ r i known given, Boundary flate i known → known ≠ fed →
        Takes flate i more given r.decompressor → Idle r w →
        ∀ target content rest rest', Fits data (steps.map DeflatedSend.token) target →
          given ++ content = bytes ++ target →
            ¬ Receives data r (cs.flatten ++ rest) content rest'

/-- The flush behind it: up to the next flag all of it has to be inflated. -/
theorem lost_flush (hcodec : HistoryCodec flate) {d : flate.Deflate} {bytes more : Bytes}
    (hd : Deflated flate d fed out true) (hfeeds : Feeds flate d bytes more w.compressor)
    (hbytes : bytes ≠ []) (hopen : Opened w (fed ++ bytes) (out ++ more) false) {token : Int}
    (htoken : token ≠ -2) :
    ∃ cs d' out', Writes (flushData w token []) cs
        { w with compressor := d', flushPending := false } ∧
      Opened { w with compressor := d', flushPending := false } (fed ++ bytes) out' true ∧
      ∀ r i known given, Boundary flate i known → known ≠ fed →
        Takes flate i more given r.decompressor → Idle r w →
        ∀ flag target content inp rest, flag &&& 0xc0 ≠ rsyncDeflatedData →
          given ++ content = bytes ++ target →
            ¬ Receives data r (cs.flatten ++ flag :: inp) content rest := by
  obtain ⟨cs, body, d', hwrites, hflat, hbody, hdeflate⟩ :=
    writes_flush hcodec.toStreamingCodec hopen
  have hpending : w.flushPending = true := hopen.pending
  refine ⟨cs, d', out ++ more ++ (body ++ rsyncZlibSyncTail), ?_,
    ⟨hopen.codec.synced hdeflate, rfl, hopen.lower, hopen.upper⟩, ?_⟩
  · unfold flushData
    rw [if_neg (by simp), if_pos ⟨hpending, htoken⟩]
    exact hwrites.bind_ret rfl
  · intro r i known given hboundary hother htakes hidle flag target content inp rest hflag hsame
      hreceives
    rw [hflat] at hreceives
    obtain ⟨j, given₁, content₁, needs, htakes₁, rfl, hneeds, hreceives₁⟩ :=
      takes_data hidle hreceives
    rw [hneeds hbody] at hreceives₁
    rw [receives_tail (by exact hidle.run) (by exact hidle.saved) rfl hflag] at hreceives₁
    obtain ⟨given₂, k, content₂, htail, rfl, -⟩ := hreceives₁
    have hall : Takes flate i (more ++ (body ++ rsyncZlibSyncTail))
        (given ++ (given₁ ++ given₂)) k :=
      takes_trans htakes (htakes₁.took htail)
    have hlen := hcodec.lengths hd hfeeds hbytes hdeflate hboundary hall
    have hback : given ++ (given₁ ++ given₂) = bytes := by
      simp only [← List.append_assoc] at hsame hlen ⊢
      exact (List.append_inj hsame hlen).1
    rw [hback] at hall
    exact hother (hcodec.returns hd hfeeds hbytes hdeflate hboundary hall)

/-! ### The tokens behind the first copy -/

variable (flate data) in
/-- No run is pending, and the reader has inserted what the writer did not feed. -/
def BehindOpen (steps : List DeflatedSend) : Prop :=
  ∀ (w : RsyncDeflatedTokenWriter flate) (fed out : Bytes), w.lastToken = -2 →
    Opened w fed out true → ∃ cs w', Writes (sendSteps w steps) cs w' ∧
      ∀ r known, Stocked r w known → fed.length < known.length →
        ∀ target, Fits data (steps.map DeflatedSend.token) target → ∀ rest rest',
          Receives data r (cs.flatten ++ rest) target rest' ↔
            CopiesOnly data (steps.map DeflatedSend.token) target ∧ rest' = rest

variable (flate data) in
/-- A run is pending; its first copy may be the first of all. -/
def BehindRun (steps : List DeflatedSend) : Prop :=
  ∀ (w : RsyncDeflatedTokenWriter flate) (fed out : Bytes) (start runLen : Nat),
    Running w start runLen → Opened w fed out true → Stored data (runFrom start runLen) →
    ∃ cs w' flag bytes, Writes (sendSteps w steps) cs w' ∧ cs.flatten = flag :: bytes ∧
      flag &&& 0xc0 ≠ rsyncDeflatedData ∧
      ∀ r more r₁ known, r.rxRun = 0 → r.savedFlag = none → Tailed r more r₁ →
        Stocked r₁ w known → fed.length ≤ known.length → ∀ target,
        Fits data (runFrom start runLen ++ steps.map DeflatedSend.token) target → ∀ rest rest',
          Receives data r (cs.flatten ++ rest) (more ++ target) rest' ↔
            CopiesOnly data (runFrom start runLen ++ steps.map DeflatedSend.token) target ∧
              rest' = rest

theorem writes_flushData_synced (hopen : Opened w fed out true) (token : Int) :
    Writes (flushData w token []) [] w := by
  have hpending : w.flushPending = false := hopen.pending
  unfold flushData
  rw [if_neg (by simp), if_neg (by simp [hpending])]
  exact writes_ret w

theorem length_blocks_runFrom (hstored : Stored data (runFrom start runLen)) :
    0 < (blocks data (runFrom start runLen)).length := by
  obtain ⟨bytes, hdata, hne⟩ := hstored start List.mem_cons_self
  have hpos := List.length_pos_iff.mpr hne
  rw [runFrom, blocks, hdata, Option.getD_some, List.length_append]
  omega

theorem behindRun_of_open (hcodec : HistoryCodec flate) {steps : List DeflatedSend}
    (hopens : BehindOpen flate data steps) (hrun : Running w start runLen)
    (hopen : Opened w fed out true) (hstored : Stored data (runFrom start runLen))
    (hsend : sendSteps w steps = (do writePendingRun w; sendSteps w.closed steps)) :
    ∃ cs w' flag bytes, Writes (sendSteps w steps) cs w' ∧ cs.flatten = flag :: bytes ∧
      flag &&& 0xc0 ≠ rsyncDeflatedData ∧
      ∀ r more r₁ known, r.rxRun = 0 → r.savedFlag = none → Tailed r more r₁ →
        Stocked r₁ w known → fed.length ≤ known.length → ∀ target,
        Fits data (runFrom start runLen ++ steps.map DeflatedSend.token) target → ∀ rest rest',
          Receives data r (cs.flatten ++ rest) (more ++ target) rest' ↔
            CopiesOnly data (runFrom start runLen ++ steps.map DeflatedSend.token) target ∧
              rest' = rest := by
  obtain ⟨cs, flag, bytes, hwrites, hflat, hflag, hleads⟩ := leads_run hcodec hopen hrun hstored
  obtain ⟨ds, w', hmore, hreads⟩ := hopens w.closed fed out rfl (hrun.closed hopen)
  refine ⟨cs ++ ds, w', flag, bytes ++ ds.flatten, ?_, ?_, hflag, ?_⟩
  · rw [hsend]
    exact hwrites.bind hmore
  · rw [List.flatten_append, hflat, List.cons_append]
  · intro r more r₁ known hidle hsaved htailed hstocked hle target hfits rest rest'
    obtain ⟨r₂, hstocked₂, hleads₂⟩ := hleads r₁ known hstocked
    have hlonger : fed.length < (known ++ blocks data (runFrom start runLen)).length := by
      have hpos := length_blocks_runFrom hstored
      rw [List.length_append]
      omega
    have hcopies := fun token h => @copy_of_mem_runFrom start runLen token h
    have hinp : (cs ++ ds).flatten ++ rest = flag :: (bytes ++ (ds.flatten ++ rest)) := by
      rw [List.flatten_append, hflat]
      simp
    rw [hinp, receives_tailed hidle hsaved hflag htailed, ← List.cons_append, ← hflat, hleads₂,
      copiesOnly_append hcopies]
    constructor
    · rintro ⟨content, rfl, hreceives⟩
      obtain ⟨block, target', hsplit, hlen, hfits'⟩ := hfits.of_append hcopies
      obtain ⟨-, rfl⟩ := List.append_inj hsplit hlen.symm
      obtain ⟨honly, hrest⟩ := (hreads r₂ _ hstocked₂ hlonger content hfits' _ _).mp hreceives
      exact ⟨⟨content, rfl, honly⟩, hrest⟩
    · rintro ⟨⟨content, rfl, honly⟩, hrest⟩
      obtain ⟨block, target', hsplit, hlen, hfits'⟩ := hfits.of_append hcopies
      obtain ⟨-, rfl⟩ := List.append_inj hsplit hlen.symm
      exact ⟨content, rfl, (hreads r₂ _ hstocked₂ hlonger content hfits' _ _).mpr ⟨honly, hrest⟩⟩

theorem behindRun (hcodec : HistoryCodec flate) {steps : List DeflatedSend}
    (h : ∀ step ∈ steps, step.InRange ∧ step ≠ .literal [])
    (hsteps : Stored data (steps.map DeflatedSend.token)) (hopens : BehindOpen flate data steps)
    (hruns : ∀ step rest, steps = step :: rest → BehindRun flate data rest) :
    BehindRun flate data steps := by
  intro w fed out start runLen hrun hopen hstored
  rcases sendSteps_running hrun hopen h with hsend | ⟨rest, rfl, hsend, hrunning⟩
  · exact behindRun_of_open hcodec hopens hrun hopen hstored hsend
  · have hopen' : Opened { w with lastToken := ((start + runLen + 1 : Nat) : Int) } fed out true :=
      ⟨hopen.codec, hopen.pending, hopen.lower, hopen.upper⟩
    have hlonger : Stored data (runFrom start (runLen + 1)) := by
      rw [runFrom_succ]
      refine hstored.append fun blockIndex hmem => hsteps blockIndex ?_
      rw [List.mem_singleton.mp hmem]
      exact List.mem_cons_self
    have hmore := hruns _ _ rfl _ fed out start (runLen + 1) hrunning hopen' hlonger
    rw [runFrom_succ, List.append_assoc] at hmore
    rw [hsend]
    obtain ⟨cs, w', flag, bytes, hwrites, hflat, hflag, hreads⟩ := hmore
    refine ⟨cs, w', flag, bytes, hwrites, hflat, hflag, ?_⟩
    intro r more r₁ known hidle hsaved htailed hs
    exact hreads r more r₁ known hidle hsaved htailed
      ⟨⟨hs.token, hs.run, hs.saved⟩, hs.mode, hs.even, hs.boundary⟩

theorem behindOpen_nil : BehindOpen flate data [] := by
  intro w fed out hlast hopen
  have hopen' : Opened { w with runStart := -1, lastToken := -1 } fed out true :=
    ⟨hopen.codec, hopen.pending, hopen.lower, hopen.upper⟩
  refine ⟨_, _, writes_openEnd hlast (writes_flushData_synced hopen' (-1)), ?_⟩
  intro r known hstocked _ target _ rest rest'
  exact receives_end hstocked.run hstocked.saved hstocked.even

theorem behindOpen_literal (hcodec : HistoryCodec flate) {bytes : Bytes}
    {steps : List DeflatedSend} (hbytes : bytes ≠ []) (hlost : Lost flate data steps) :
    BehindOpen flate data (.literal bytes :: steps) := by
  intro w fed out hlast hopen
  have hopen' : Opened { w with runStart := -2, lastToken := -2 } fed out true :=
    ⟨hopen.codec, hopen.pending, hopen.lower, hopen.upper⟩
  obtain ⟨cs, more, d, hwrites, hflat, hdeflate⟩ :=
    writes_literal hcodec.toStreamingCodec hopen' bytes
  have hfeeds := (Feeds.refl w.compressor).fed hdeflate
  obtain ⟨ds, w', hmore, hreads⟩ := hlost
    { w with compressor := d, runStart := -2, lastToken := -2, flushPending := true }
    w.compressor fed out bytes more rfl hopen.codec hfeeds hbytes
    ⟨hopen.codec.fed hbytes hdeflate, rfl, hopen.lower, hopen.upper⟩
  refine ⟨cs ++ ds, w', (writes_openLiteral hlast hbytes hwrites).bind hmore, ?_⟩
  rintro r known hstocked hlonger target ⟨target', rfl, hfits⟩ rest rest'
  have hother : known ≠ fed := by
    rintro rfl
    exact absurd hlonger (Nat.lt_irrefl _)
  constructor
  · intro hreceives
    exfalso
    rw [List.flatten_append, List.append_assoc, hflat] at hreceives
    obtain ⟨i, given, content, needs, htakes, hsame, -, hrest⟩ :=
      takes_data hstocked.toIdle hreceives
    exact hreads { r with decompressor := i, needsSyncTail := needs } r.decompressor known given
      hstocked.boundary hother htakes ⟨hstocked.token, hstocked.run, hstocked.saved⟩ target' content
      rest rest' hfits hsame.symm hrest
  · rintro ⟨hnever, -⟩
    exact absurd hnever id

theorem behindOpen_copy {blockIndex : Nat} {steps : List DeflatedSend} (hrange : blockIndex ≤ i32Max)
    (hstored : Stored data [.copy blockIndex]) (hruns : BehindRun flate data steps) :
    BehindOpen flate data (.copy blockIndex :: steps) := by
  intro w fed out hlast hopen
  have hopen' : Opened { w with runStart := blockIndex, lastToken := blockIndex } fed out true :=
    ⟨hopen.codec, hopen.pending, hopen.lower, hopen.upper⟩
  have hrunning : Running { w with runStart := (blockIndex : Int), lastToken := (blockIndex : Int) }
      blockIndex 0 := ⟨rfl, rfl, by decide, hrange⟩
  obtain ⟨cs, w', flag, bytes, hwrites, -, -, hreads⟩ :=
    hruns _ fed out blockIndex 0 hrunning hopen' hstored
  have hsend := writes_openCopy hlast (writes_flushData_synced hopen' blockIndex)
  refine ⟨cs, w', hsend.bind hwrites, ?_⟩
  intro r known hs hlonger
  exact hreads r [] r known hs.run hs.saved (.even hs.even)
    ⟨⟨hs.token, hs.run, hs.saved⟩, hs.mode, hs.even, hs.boundary⟩ hlonger.le

theorem lost_nil (hcodec : HistoryCodec flate) : Lost flate data [] := by
  intro w d fed out bytes more hlast hd hfeeds hbytes hopen
  have hopen' : Opened { w with runStart := -1, lastToken := -1 } (fed ++ bytes) (out ++ more)
      false := ⟨hopen.codec, hopen.pending, hopen.lower, hopen.upper⟩
  obtain ⟨cs, d', out', hwrites, -, hreads⟩ :=
    @lost_flush flate data { w with runStart := -1, lastToken := -1 } fed out hcodec d bytes more hd
      hfeeds hbytes hopen' (-1) (by decide)
  refine ⟨_, _, writes_openEnd hlast hwrites, ?_⟩
  intro r i known given hboundary hother htakes hidle target content rest rest' _ hsame
  rw [List.flatten_append, List.append_assoc]
  exact hreads r i known given hboundary hother htakes ⟨hidle.token, hidle.run, hidle.saved⟩
    rsyncDeflatedEndFlag target content rest rest' (by decide) hsame

theorem lost_literal (hcodec : HistoryCodec flate) {data' : Bytes} {steps : List DeflatedSend}
    (hdata : data' ≠ []) (hlost : Lost flate data steps) :
    Lost flate data (.literal data' :: steps) := by
  intro w d fed out bytes more hlast hd hfeeds hbytes hopen
  have hopen' : Opened { w with runStart := -2, lastToken := -2 } (fed ++ bytes) (out ++ more)
      false := ⟨hopen.codec, hopen.pending, hopen.lower, hopen.upper⟩
  obtain ⟨cs, more', d', hwrites, hflat, hdeflate⟩ :=
    writes_literal hcodec.toStreamingCodec hopen' data'
  have hcodec' := hopen.codec.fed hdata hdeflate
  rw [List.append_assoc, List.append_assoc] at hcodec'
  obtain ⟨ds, w', hmore, hreads⟩ := hlost
    { w with compressor := d', runStart := -2, lastToken := -2, flushPending := true }
    d fed out (bytes ++ data') (more ++ more') rfl hd (hfeeds.fed hdeflate) (by simp [hbytes])
    ⟨hcodec', rfl, hopen.lower, hopen.upper⟩
  refine ⟨cs ++ ds, w', (writes_openLiteral hlast hdata hwrites).bind hmore, ?_⟩
  rintro r i known given hboundary hother htakes hidle target content rest rest'
    ⟨target', rfl, hfits⟩ hsame hreceives
  rw [List.flatten_append, List.append_assoc, hflat] at hreceives
  obtain ⟨j, given', content', needs, htakes', rfl, -, hrest⟩ := takes_data hidle hreceives
  refine hreads { r with decompressor := j, needsSyncTail := needs } i known (given ++ given')
    hboundary hother (takes_trans htakes htakes') ⟨hidle.token, hidle.run, hidle.saved⟩ target'
    content' rest rest' hfits ?_ hrest
  rw [List.append_assoc, hsame, List.append_assoc]

theorem lost_copy (hcodec : HistoryCodec flate) {blockIndex : Nat} {steps : List DeflatedSend}
    (hrange : blockIndex ≤ i32Max) (hstored : Stored data [.copy blockIndex])
    (hruns : BehindRun flate data steps) : Lost flate data (.copy blockIndex :: steps) := by
  intro w d fed out bytes more hlast hd hfeeds hbytes hopen
  have hopen' : Opened { w with runStart := blockIndex, lastToken := blockIndex } (fed ++ bytes)
      (out ++ more) false := ⟨hopen.codec, hopen.pending, hopen.lower, hopen.upper⟩
  obtain ⟨cs, d', out', hwrites, hopen₁, hreads⟩ :=
    @lost_flush flate data { w with runStart := blockIndex, lastToken := blockIndex } fed out hcodec
      d bytes more hd hfeeds hbytes hopen' blockIndex (by omega)
  have hrunning : Running ({ w with
      compressor := d'
      runStart := blockIndex
      lastToken := blockIndex
      flushPending := false } : RsyncDeflatedTokenWriter flate) blockIndex 0 :=
    ⟨rfl, rfl, by decide, hrange⟩
  obtain ⟨ds, w', flag, tokenBytes, hmore, hflat, hflag, -⟩ :=
    hruns _ (fed ++ bytes) out' blockIndex 0 hrunning hopen₁ hstored
  refine ⟨cs ++ ds, w', (writes_openCopy hlast hwrites).bind hmore, ?_⟩
  intro r i known given hboundary hother htakes hidle target content rest rest' _ hsame
  rw [List.flatten_append, hflat, List.append_assoc, List.cons_append]
  exact hreads r i known given hboundary hother htakes ⟨hidle.token, hidle.run, hidle.saved⟩
    flag target content _ rest' hflag hsame

/-- Induction on what is sent, for all three at once: a run that is pending goes on or is
closed, and a literal is lost with what comes after it. -/
theorem behind_steps (hcodec : HistoryCodec flate) : ∀ (steps : List DeflatedSend),
    (∀ step ∈ steps, step.InRange ∧ step ≠ .literal []) →
    Stored data (steps.map DeflatedSend.token) →
      BehindOpen flate data steps ∧ BehindRun flate data steps ∧ Lost flate data steps
  | [], h, hstored => by
      refine ⟨behindOpen_nil, behindRun hcodec h hstored behindOpen_nil ?_, lost_nil hcodec⟩
      intro step rest heq
      cases heq
  | step :: steps, h, hstored => by
      obtain ⟨hrange, hne⟩ := h step List.mem_cons_self
      obtain ⟨hopens, hruns, hlost⟩ := behind_steps hcodec steps
        (fun s hs => h s (List.mem_cons_of_mem step hs))
        fun blockIndex hmem => hstored blockIndex (List.mem_cons_of_mem _ hmem)
      have hboth : BehindOpen flate data (step :: steps) ∧ Lost flate data (step :: steps) := by
        cases step with
        | literal bytes =>
            have hbytes : bytes ≠ [] := fun h => hne (by rw [h])
            exact ⟨behindOpen_literal hcodec hbytes hlost, lost_literal hcodec hbytes hlost⟩
        | copy blockIndex =>
            have hone : Stored data [.copy blockIndex] := by
              intro index hmem
              obtain rfl : index = blockIndex := by simpa using hmem
              exact hstored index List.mem_cons_self
            exact ⟨behindOpen_copy hrange hone hruns, lost_copy hcodec hrange hone hruns⟩
      refine ⟨hboth.1, behindRun hcodec h hstored hboth.1 ?_, hboth.2⟩
      rintro _ _ ⟨⟩
      exact hruns

/-! ### The tokens up to the first copy -/

variable (flate data) in
/-- No run is pending, nothing was copied yet, and the reader may hold back what it is owed. -/
def Abreast (steps : List DeflatedSend) : Prop :=
  ∀ (w : RsyncDeflatedTokenWriter flate) (fed out : Bytes) (synced : Bool), w.lastToken = -2 →
    Opened w fed out synced → ∃ cs w', Writes (sendSteps w steps) cs w' ∧
      ∀ r given, Level r w out synced given → r.mode = .zlib →
        ∀ target, Fits data (steps.map DeflatedSend.token) target →
          (∀ rest, LiteralsThenCopies data (steps.map DeflatedSend.token) target →
            ∃ content, given ++ content = fed ++ target ∧
              Receives data r (cs.flatten ++ rest) content rest) ∧
          ∀ content rest rest', given ++ content = fed ++ target →
            Receives data r (cs.flatten ++ rest) content rest' →
              LiteralsThenCopies data (steps.map DeflatedSend.token) target ∧ rest' = rest

theorem Short.stocked (hcodec : HistoryCodec flate) (hopen : Opened w fed out true)
    {r : RsyncDeflatedTokenReader flate} {given : Bytes} (h : Short r w out given)
    (hmode : r.mode = .zlib) :
    ∃ more r', Tailed r more r' ∧ given ++ more = fed ∧ Stocked r' w fed := by
  obtain ⟨more, r', htailed, hmore, hlevel⟩ := h.tailed hcodec.toStreamingCodec hopen
  exact ⟨more, r', htailed, hmore, hlevel.toIdle, htailed.mode.trans hmode, hlevel.even rfl,
    .flushed hopen.codec hlevel.took⟩

theorem abreast_nil (hcodec : HistoryCodec flate) : Abreast flate data [] := by
  intro w fed out synced hlast hopen
  have hopen' : Opened { w with runStart := -1, lastToken := -1 } fed out synced :=
    ⟨hopen.codec, hopen.pending, hopen.lower, hopen.upper⟩
  obtain ⟨cs, d, pending, out₁, hwrites, hopen₁, hreads⟩ :=
    @flushes flate _ fed out synced hcodec.toStreamingCodec hopen' (-1) (by decide)
  refine ⟨_, _, writes_openEnd hlast hwrites, ?_⟩
  intro r given hlevel hmode target (htarget : target = [])
  obtain ⟨r₁, mores, hshort, hhands⟩ :=
    hreads r given ⟨⟨hlevel.token, hlevel.run, hlevel.saved⟩, hlevel.took, hlevel.even⟩
  obtain ⟨more, r₂, htailed, hmore, hstocked⟩ :=
    hshort.stocked hcodec hopen₁ (hhands.mode.trans hmode)
  subst htarget
  have hreceives : ∀ content rest rest',
      Receives data r ((cs ++ [[rsyncDeflatedEndFlag]]).flatten ++ rest)
        (mores.flatten ++ (more ++ content)) rest' ↔ content = [] ∧ rest' = rest := by
    intro content rest rest'
    have hinp : (cs ++ [[rsyncDeflatedEndFlag]]).flatten ++ rest =
        cs.flatten ++ rsyncDeflatedEndFlag :: rest := by simp
    rw [hinp, hhands.leads.receives, receives_tailed hshort.run hshort.saved (by decide) htailed,
      receives_end hstocked.run hstocked.saved hstocked.even]
  constructor
  · intro rest _
    refine ⟨mores.flatten ++ (more ++ []), ?_, (hreceives [] rest rest).mpr ⟨rfl, rfl⟩⟩
    simpa using hmore
  · intro content rest rest' hsame hr
    have hcontent : content = mores.flatten ++ (more ++ []) := by
      rw [List.append_nil, ← hmore, List.append_assoc] at hsame
      rw [List.append_nil]
      exact List.append_cancel_left hsame
    rw [hcontent, hreceives] at hr
    exact ⟨rfl, hr.2⟩

theorem abreast_literal (hcodec : HistoryCodec flate) {bytes : Bytes} {steps : List DeflatedSend}
    (hbytes : bytes ≠ []) (hrest : Abreast flate data steps) :
    Abreast flate data (.literal bytes :: steps) := by
  intro w fed out synced hlast hopen
  have hopen' : Opened { w with runStart := -2, lastToken := -2 } fed out synced :=
    ⟨hopen.codec, hopen.pending, hopen.lower, hopen.upper⟩
  obtain ⟨cs, more, d, hwrites, hd, hreads⟩ :=
    sends_literal hcodec.toStreamingCodec hopen' hbytes
  obtain ⟨ds, w', hmore, hreceives⟩ := hrest
    { w with compressor := d, runStart := -2, lastToken := -2, flushPending := true }
    (fed ++ bytes) (out ++ more) false rfl ⟨hd, rfl, hopen.lower, hopen.upper⟩
  refine ⟨cs ++ ds, w', (writes_openLiteral hlast hbytes hwrites).bind hmore, ?_⟩
  rintro r given hlevel hmode target ⟨target', rfl, hfits⟩
  obtain ⟨i, mores, hi, hhands⟩ :=
    hreads r given ⟨hlevel.token, hlevel.run, hlevel.saved⟩ hlevel.took
  obtain ⟨hback, honly⟩ := hreceives
    { r with decompressor := i, needsSyncTail := r.needsSyncTail || !more.isEmpty }
    (given ++ mores.flatten) ⟨⟨hlevel.token, hlevel.run, hlevel.saved⟩, hi, by simp⟩ hmode target' hfits
  simp only [List.flatten_append, List.append_assoc] at hback honly ⊢
  constructor
  · rintro rest ⟨_, hsame, hliterals⟩
    rw [List.append_cancel_left hsame] at hback
    obtain ⟨content, hcontent, hr⟩ := hback rest hliterals
    refine ⟨mores.flatten ++ content, ?_, hhands.leads.receives.mpr hr⟩
    rw [hcontent, List.append_cancel_left hsame]
  · intro content rest rest' hsame hr
    obtain ⟨content', rfl, hr'⟩ := (hhands.leads _ _ _).mp hr
    obtain ⟨hliterals, hrest'⟩ := honly content' rest rest' hsame hr'
    exact ⟨⟨target', rfl, hliterals⟩, hrest'⟩

theorem abreast_copy (hcodec : HistoryCodec flate) {blockIndex : Nat} {steps : List DeflatedSend}
    (hrange : blockIndex ≤ i32Max) (hstored : Stored data [.copy blockIndex])
    (hruns : BehindRun flate data steps) : Abreast flate data (.copy blockIndex :: steps) := by
  intro w fed out synced hlast hopen
  have hopen' : Opened { w with runStart := blockIndex, lastToken := blockIndex } fed out synced :=
    ⟨hopen.codec, hopen.pending, hopen.lower, hopen.upper⟩
  obtain ⟨cs, d, pending, out₁, hwrites, hopen₁, hreads⟩ :=
    @flushes flate _ fed out synced hcodec.toStreamingCodec hopen' blockIndex (by omega)
  have hrunning : Running ({ w with
      compressor := d
      runStart := blockIndex
      lastToken := blockIndex
      flushPending := pending } : RsyncDeflatedTokenWriter flate) blockIndex 0 :=
    ⟨rfl, rfl, by decide, hrange⟩
  obtain ⟨ds, w', flag, bytes, hmore, hflat, hflag, hreceives⟩ :=
    hruns _ fed out₁ blockIndex 0 hrunning hopen₁ hstored
  refine ⟨cs ++ ds, w', (writes_openCopy hlast hwrites).bind hmore, ?_⟩
  intro r given hlevel hmode target hfits
  obtain ⟨r₁, mores, hshort, hhands⟩ :=
    hreads r given ⟨⟨hlevel.token, hlevel.run, hlevel.saved⟩, hlevel.took, hlevel.even⟩
  obtain ⟨more, r₂, htailed, hsum, hstocked⟩ :=
    hshort.stocked hcodec hopen₁ (hhands.mode.trans hmode)
  have hall : ∀ rest rest', Receives data r ((cs ++ ds).flatten ++ rest)
      (mores.flatten ++ (more ++ target)) rest' ↔
        CopiesOnly data ((DeflatedSend.copy blockIndex :: steps).map DeflatedSend.token) target ∧
          rest' = rest := by
    intro rest rest'
    rw [List.flatten_append, List.append_assoc, hhands.leads.receives]
    exact hreceives r₁ more r₂ fed hshort.run hshort.saved htailed hstocked le_rfl target hfits
      rest rest'
  constructor
  · intro rest hcopies
    refine ⟨mores.flatten ++ (more ++ target), ?_, (hall rest rest).mpr ⟨hcopies, rfl⟩⟩
    rw [← hsum]
    simp
  · intro content rest rest' hsame hr
    have hcontent : content = mores.flatten ++ (more ++ target) := by
      rw [← hsum, List.append_assoc, List.append_assoc] at hsame
      exact List.append_cancel_left hsame
    rw [hcontent, hall] at hr
    exact hr

theorem abreast_steps (hcodec : HistoryCodec flate) : ∀ (steps : List DeflatedSend),
    (∀ step ∈ steps, step.InRange ∧ step ≠ .literal []) →
    Stored data (steps.map DeflatedSend.token) → Abreast flate data steps
  | [], _, _ => abreast_nil hcodec
  | .literal bytes :: steps, h, hstored => by
      have hbytes : bytes ≠ [] := by
        rintro rfl
        exact (h (.literal []) List.mem_cons_self).2 rfl
      exact abreast_literal hcodec hbytes (abreast_steps hcodec steps
        (fun s hs => h s (List.mem_cons_of_mem _ hs))
        fun index hmem => hstored index (List.mem_cons_of_mem _ hmem))
  | .copy blockIndex :: steps, h, hstored => by
      have hone : Stored data [.copy blockIndex] := by
        intro index hmem
        obtain rfl : index = blockIndex := by simpa using hmem
        exact hstored index List.mem_cons_self
      obtain ⟨-, hruns, -⟩ := @behind_steps flate data hcodec steps
        (fun s hs => h s (List.mem_cons_of_mem _ hs))
        fun index hmem => hstored index (List.mem_cons_of_mem _ hmem)
      exact abreast_copy hcodec (h (.copy blockIndex) List.mem_cons_self).1 hone hruns

/-- A file through a new writer and a new reader in `zlib` mode: the target is received exactly
when no literal comes behind a copy. -/
theorem receives_file (hcodec : HistoryCodec flate) (level : Nat) {sends : List DeflatedSend}
    (h : ∀ s ∈ sends, s.InRange) (hsteps : sends.flatMap DeflatedSend.steps = sends)
    (hstored : Stored data (sends.map DeflatedSend.token)) :
    ∃ cs w', Writes (sendFile (new level : RsyncDeflatedTokenWriter flate) sends) cs w' ∧
      ∀ target, Fits data (sends.map DeflatedSend.token) target → ∀ rest rest',
        Receives data (RsyncDeflatedTokenReader.new .zlib : RsyncDeflatedTokenReader flate)
            (cs.flatten ++ rest) target rest' ↔
          LiteralsThenCopies data (sends.map DeflatedSend.token) target ∧ rest' = rest := by
  have hopen : Opened (new level : RsyncDeflatedTokenWriter flate).begun [] [] true :=
    ⟨.reset (.new _), rfl, le_rfl, Int.natCast_nonneg i32Max⟩
  have hsmall := steps_inRange h
  rw [hsteps] at hsmall
  obtain ⟨cs, w', hwrites, hreads⟩ :=
    abreast_steps hcodec sends hsmall hstored _ [] [] true rfl hopen
  refine ⟨cs, w', ?_, ?_⟩
  · rw [sendFile_eq h, hsteps, sendSteps_begun _ rfl]
    exact hwrites
  · intro target hfits rest rest'
    obtain ⟨hback, honly⟩ := hreads (RsyncDeflatedTokenReader.new .zlib) []
      ⟨⟨rfl, rfl, rfl⟩, .new, fun _ => rfl⟩ rfl target hfits
    constructor
    · exact honly target rest rest' rfl
    · rintro ⟨hliterals, rfl⟩
      obtain ⟨content, hcontent, hr⟩ := hback rest' hliterals
      rw [List.nil_append, List.nil_append] at hcontent
      rwa [← hcontent]

end RsyncDeflatedTokenWriter

end RsyncWin
