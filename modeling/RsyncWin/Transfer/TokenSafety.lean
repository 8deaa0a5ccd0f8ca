import RsyncWin.Transfer.Tokens

/-!
# The receiver against any peer

Nothing is assumed of the peer here: the bytes, their framing, the sum head and
the basis are arbitrary, and so is the machine, including which operations fail.
Along every run the output file stays within the expected length and no other
file changes; a run that returns has the expected length and the checksum the
peer sent last.
-/

namespace RsyncWin

open ByteString Codec Duplex

/-- The receiving end, with the list of what it has heard. -/
abbrev Heard := Solo muxLink.logged Machine

abbrev heardHandler : Handler (sig Error localSig) Heard := soloHandler muxLink.logged machine

def Heard.heard (s : Heard) : List Bytes := s.inbox.2

/-! ## Rules for the operations -/

section Rules

variable {I : Heard → Prop} {s : Heard} {α β : Type}

/-- What a reader hears is appended to the list, and nothing else happens. -/
theorem ensures_onMux {r : Reader α} {Q : α → Heard → Prop}
    (hI : ∀ l, I { s with inbox := l })
    (h : ∀ l reads a, Hears r reads a → Q a { s with inbox := (l, s.heard ++ reads) }) :
    (onMux r : Session α).Ensures heardHandler I Q s := by
  induction r generalizing s with
  | ret a =>
      have hQ := h s.inbox.1 [] a rfl
      rw [List.append_nil] at hQ
      exact ⟨hI s.inbox, hQ⟩
  | fail e => exact hI s.inbox
  | call n k ih =>
      refine Prog.Ensures.bind (ensures_recv (hI s.inbox) ?_)
      intro r l hpull
      refine ⟨hI l, ?_⟩
      rintro bs rfl
      obtain ⟨q, hq, hr⟩ := Option.map_eq_some_iff.mp hpull
      obtain ⟨hok, rfl⟩ := Prod.mk.inj hr
      have hpulled : s.inbox.1.pull n = some (.ok bs, q.2) := by
        rw [← hok]
        exact hq
      rw [hok]
      refine ih bs hI ?_
      intro l' reads a hhears
      have hQ := h l' (bs :: reads) a ⟨MuxState.pull_length hpulled, hhears⟩
      simpa [Heard.heard] using hQ

theorem ensures_perform {o : LocalOp} {Q : LocalRes o → Heard → Prop} (hI : I s)
    (h : ∀ r m, machine o s.mem = some (r, m) → I { s with mem := m } ∧
      ∀ a, r = .ok a → Q a { s with mem := m }) :
    (perform o).Ensures heardHandler I Q s := by
  refine Prog.Ensures.bind (ensures_loc (L := localSig) hI ?_)
  intro r m hr
  obtain ⟨hI', hQ⟩ := h r m hr
  exact ⟨hI', Prog.ensures_ofExcept hI' hQ⟩

end Rules

/-! ## The output file -/

/-- `before` is the machine when the file was asked for. -/
structure Within (t : TokenTarget) (before m : Machine) : Prop where
  others : ∀ p, p ≠ t.output → m.files p = before.files p
  output : m.files t.output = before.files t.output ∨
    ∃ content, m.files t.output = some content ∧ content.length ≤ t.expectedLen

/-- In the token loops the output file has as many bytes as were counted. -/
structure Holds (t : TokenTarget) (before : Machine) (total : Nat) (m : Machine) : Prop where
  others : ∀ p, p ≠ t.output → m.files p = before.files p
  content : ∃ content, m.files t.output = some content ∧ content.length = total
  bounded : total ≤ t.expectedLen

section Output

variable {t : TokenTarget} {before m m' : Machine} {total : Nat} {s : Heard}

theorem Holds.within (h : Holds t before total m) : Within t before m := by
  obtain ⟨content, hfile, hlen⟩ := h.content
  exact ⟨h.others, Or.inr ⟨content, hfile, by rw [hlen]; exact h.bounded⟩⟩

theorem Holds.keep (h : Holds t before total m) (hfiles : m'.files = m.files) :
    Holds t before total m' := by
  obtain ⟨hothers, hcontent, hbounded⟩ := h
  rw [← hfiles] at hothers hcontent
  exact ⟨hothers, hcontent, hbounded⟩

theorem Within.keep (h : Within t before m) (hfiles : m'.files = m.files) :
    Within t before m' := by
  obtain ⟨hothers, houtput⟩ := h
  rw [← hfiles] at hothers houtput
  exact ⟨hothers, houtput⟩

/-- An operation that writes nothing. -/
theorem ensures_look {o : LocalOp} {Q : LocalRes o → Heard → Prop} (ho : o.writes = none)
    (hI : Within t before s.mem)
    (h : ∀ r m, machine o s.mem = some (.ok r, m) → m.files = s.mem.files →
      Q r { s with mem := m }) :
    (perform o).Ensures heardHandler (fun s => Within t before s.mem) Q s := by
  refine ensures_perform hI ?_
  intro r m hr
  have hfiles : m.files = s.mem.files := by
    funext p
    exact machine_frame hr (by simp [ho])
  refine ⟨hI.keep hfiles, ?_⟩
  rintro a rfl
  exact h a m hr hfiles

theorem ensures_checkTransferDeadline {deadline : Option Nat} (h : Holds t before total s.mem) :
    (checkTransferDeadline deadline).Ensures heardHandler (fun s => Within t before s.mem)
      (fun _ s' => Holds t before total s'.mem ∧ s'.inbox = s.inbox) s := by
  cases deadline with
  | none => exact ⟨h.within, h, rfl⟩
  | some deadline =>
      refine Prog.Ensures.bind (ensures_look rfl h.within ?_)
      intro now m _ hfiles
      have hm := h.keep hfiles
      split
      · exact hm.within
      · exact ⟨hm.within, hm, rfl⟩

/-- A write that fits, whether it goes through or fails half-way. -/
theorem ensures_append {bytes : Bytes} (h : Holds t before total s.mem)
    (hfit : total + bytes.length ≤ t.expectedLen) :
    (perform (.append t.output bytes)).Ensures heardHandler (fun s => Within t before s.mem)
      (fun _ s' => Holds t before (total + bytes.length) s'.mem ∧ s'.inbox = s.inbox) s := by
  refine ensures_perform h.within ?_
  intro r m hr
  obtain ⟨content, hfile, hlen⟩ := h.content
  obtain ⟨done, hdone, hafter, hall⟩ := machine_append hfile hr
  have hothers : ∀ p, p ≠ t.output → m.files p = before.files p := by
    intro p hp
    rw [machine_frame hr (by simpa [LocalOp.writes] using Ne.symm hp), h.others p hp]
  have hle := hdone.length_le
  refine ⟨⟨hothers, Or.inr ⟨_, hafter, ?_⟩⟩, ?_⟩
  · rw [List.length_append, hlen]
    omega
  · rintro a rfl
    obtain rfl := hall a rfl
    exact ⟨⟨hothers, ⟨_, hafter, by rw [List.length_append, hlen]⟩, hfit⟩, rfl⟩

theorem nextTotal_eq_ok {len next : Nat} (h : nextTotal t total len = .ok next) :
    next = total + len ∧ total + len ≤ t.expectedLen := by
  unfold nextTotal at h
  split at h
  · cases h
  · split at h
    · cases h
    · exact ⟨(Except.ok.inj h).symm, by omega⟩

theorem ensures_appendBytes {bytes : Bytes} (h : Holds t before total s.mem) :
    (appendBytes t total bytes).Ensures heardHandler (fun s => Within t before s.mem)
      (fun next s' => next = total + bytes.length ∧ Holds t before next s'.mem ∧
        s'.inbox = s.inbox) s := by
  refine Prog.Ensures.bind (Prog.ensures_ofExcept h.within ?_)
  intro next hnext
  obtain ⟨rfl, hfit⟩ := nextTotal_eq_ok hnext
  refine Prog.Ensures.bind ((ensures_append h hfit).mono ?_)
  rintro - s' ⟨hs', hin⟩
  exact ⟨hs'.within, rfl, hs', hin⟩

/-- Induction on the pieces of at most 32 KiB that a literal is read in. -/
theorem ensures_readLiteral : ∀ {fuel remaining total : Nat} {s : Heard}, remaining ≤ fuel →
    Holds t before total s.mem → total + remaining ≤ t.expectedLen →
    (readLiteral t.output fuel remaining).Ensures heardHandler (fun s => Within t before s.mem)
      (fun _ s' => Holds t before (total + remaining) s'.mem) s
  | 0, remaining, total, s, hfuel, h, _ => by
      obtain rfl : remaining = 0 := by omega
      exact ⟨h.within, h⟩
  | fuel + 1, remaining, total, s, hfuel, h, hfit => by
      unfold readLiteral
      split
      · rename_i hzero
        subst hzero
        exact ⟨h.within, h⟩
      · refine Prog.Ensures.bind (ensures_onMux (fun _ => h.within) ?_)
        intro l reads buf hheard
        obtain ⟨-, hlen⟩ := hears_readExact hheard
        have hpiece : total + buf.length ≤ t.expectedLen := by omega
        refine Prog.Ensures.bind ((ensures_append (s := ⟨s.mem, (l, s.heard ++ reads), s.sent⟩)
          h hpiece).mono ?_)
        rintro - s' ⟨hs', -⟩
        have hfuel' : remaining - min (32 * 1024) remaining ≤ fuel := by omega
        have hrest := ensures_readLiteral hfuel' hs' (by omega)
        have hsum : total + buf.length + (remaining - min (32 * 1024) remaining) =
            total + remaining := by omega
        rwa [hsum] at hrest

theorem ensures_readBasisBlock {basis : LocalPath × RemoteSumHead} {blockIndex : Nat}
    (h : Holds t before total s.mem) :
    (readBasisBlock basis blockIndex).Ensures heardHandler (fun s => Within t before s.mem)
      (fun _ s' => Holds t before total s'.mem ∧ s'.inbox = s.inbox) s := by
  refine Prog.Ensures.bind (Prog.ensures_ofExcept h.within ?_)
  rintro ⟨offset, len⟩ -
  refine ensures_look rfl h.within ?_
  intro bytes m _ hfiles
  exact ⟨h.keep hfiles, rfl⟩

end Output

/-! ## The end of a file -/

def endMark : Option RsyncDeflatedTokenMode → Bytes
  | none => [0, 0, 0, 0]
  | some _ => [rsyncDeflatedEndFlag]

/-- The file is complete: the last two things heard are the end mark and a
checksum, and that is the checksum of the output. -/
structure Accepted (hashes : Hashes) (t : TokenTarget) (mark : Bytes) (s : Heard) : Prop where
  accepted : ∃ content earlier sum, s.mem.files t.output = some content ∧
    content.length = t.expectedLen ∧ s.heard = earlier ++ [mark, sum] ∧ sum.length = 16 ∧
    finalDigest hashes t.checksum content = sum

section End

variable {t : TokenTarget} {before : Machine} {total : Nat} {s : Heard} {hashes : Hashes}

theorem ensures_remoteFileChecksumForPath {checksum : RemoteFinalChecksum}
    (h : Holds t before total s.mem) :
    (remoteFileChecksumForPath hashes checksum t.output).Ensures heardHandler
      (fun s => Within t before s.mem)
      (fun sum s' => s'.inbox = s.inbox ∧ Holds t before total s'.mem ∧
        ∃ content, s'.mem.files t.output = some content ∧
          sum = finalDigest hashes checksum content) s := by
  refine Prog.Ensures.bind (ensures_look rfl h.within ?_)
  intro file m hopen hfiles
  have hread : checksumReader (file.rest.length + 1) file (remoteFinalChecksumBuilder checksum) =
      (remoteFinalChecksumBuilder checksum).update file.rest :=
    checksumReader_eq (Nat.lt_succ_self _)
  have hm := h.keep hfiles
  refine ⟨hm.within, rfl, hm, file.rest, ?_, ?_⟩
  · rw [hfiles]
    exact machine_openFile hopen
  · rw [hread]
    rfl

theorem ensures_finishTokens {mark : Bytes} (h : Holds t before total s.mem)
    (hmark : s.heard.getLast? = some mark) :
    (finishTokens hashes t total).Ensures heardHandler (fun s => Within t before s.mem)
      (fun n s' => n = t.expectedLen ∧ Accepted hashes t mark s') s := by
  refine Prog.Ensures.bind (ensures_look rfl h.within ?_)
  intro _ m _ hfiles
  have hm := h.keep hfiles
  split
  · exact hm.within
  · rename_i htotal
    refine Prog.Ensures.bind (ensures_onMux (fun _ => hm.within) ?_)
    intro l reads sum hsum
    obtain ⟨rfl, hlen⟩ := hears_readExact hsum
    refine Prog.Ensures.bind ((ensures_remoteFileChecksumForPath
      (s := ⟨m, (l, s.heard ++ [sum]), s.sent⟩) hm).mono ?_)
    rintro computed s' ⟨hin, hs', content, hfile, rfl⟩
    split
    · exact hs'.within
    · rename_i heq
      refine ⟨hs'.within, by omega, content, s.heard.dropLast, sum, hfile, ?_, ?_, hlen, ?_⟩
      · obtain ⟨content', hfile', hlen'⟩ := hs'.content
        obtain rfl := Option.some.inj (hfile.symm.trans hfile')
        omega
      · have hsplit : s.heard.dropLast ++ [mark] = s.heard :=
          List.dropLast_append_getLast? mark hmark
        calc s'.heard = s.heard ++ [sum] := by rw [Heard.heard, hin]
          _ = s.heard.dropLast ++ [mark] ++ [sum] := by rw [hsplit]
          _ = s.heard.dropLast ++ [mark, sum] := by simp
      · exact (not_not.mp heq).symm

/-! ## Both loops -/

theorem hears_readI32Le {reads : List Bytes} {v : Int} (h : Hears readI32Le reads v) :
    reads = [leBytes 4 (ofSigned 32 v)] := by
  obtain ⟨xs, ys, bs, rfl, hx, hy⟩ := hears_bind h
  obtain ⟨rfl, hlen⟩ := hears_readExact hx
  obtain ⟨rfl, rfl⟩ := hears_ret hy
  have hlt : leNat bs < 2 ^ 32 := by
    have h := leNat_lt bs
    rw [hlen] at h
    exact h
  have hbytes := leBytes_leNat bs
  rw [hlen] at hbytes
  rw [ofSigned_toSigned hlt, hbytes]
  rfl

variable {basis : Option (LocalPath × RemoteSumHead)}

theorem ensures_copyBlock {token : Int} {blockIndex : Except Error Nat}
    (h : Holds t before total s.mem) :
    (copyBlock t basis token blockIndex).Ensures heardHandler (fun s => Within t before s.mem)
      (fun _ s' => Holds t before total s'.mem) s := by
  cases basis with
  | none => exact h.within
  | some basis =>
      refine Prog.Ensures.bind (Prog.ensures_ofExcept h.within ?_)
      intro index _
      exact (ensures_readBasisBlock h).mono fun _ _ hs => hs.1

/-- One round per token; what carries the induction is that the output file has
exactly the counted bytes. -/
theorem ensures_plainLoop : ∀ {fuel total : Nat} {s : Heard}, Holds t before total s.mem →
    (plainLoop hashes t basis fuel total).Ensures heardHandler (fun s => Within t before s.mem)
      (fun n s' => n = t.expectedLen ∧ Accepted hashes t (endMark none) s') s
  | 0, _, _, h => h.within
  | fuel + 1, total, s, h => by
      unfold plainLoop
      refine Prog.Ensures.bind ((ensures_checkTransferDeadline h).mono ?_)
      rintro - s ⟨h, -⟩
      refine Prog.Ensures.bind (ensures_onMux (fun _ => h.within) ?_)
      intro l reads token htoken
      obtain rfl := hears_readI32Le htoken
      have hl : Holds t before total
          ({ s with inbox := (l, s.heard ++ [leBytes 4 (ofSigned 32 token)]) } : Heard).mem := h
      split
      · refine Prog.Ensures.bind (Prog.ensures_ofExcept hl.within ?_)
        intro next hnext
        obtain ⟨rfl, hfit⟩ := nextTotal_eq_ok hnext
        refine Prog.Ensures.bind ((ensures_readLiteral le_rfl hl hfit).mono ?_)
        intro _ s' hs'
        exact ensures_plainLoop hs'
      · split
        · rename_i hzero
          subst hzero
          exact ensures_finishTokens hl (by simp [Heard.heard, endMark]; decide)
        · refine Prog.Ensures.bind ((ensures_copyBlock hl).mono ?_)
          intro bytes s' hs'
          refine Prog.Ensures.bind ((ensures_appendBytes hs').mono ?_)
          rintro next s'' ⟨-, hs'', -⟩
          exact ensures_plainLoop hs''

theorem ensures_deflatedCopyBlock {blockIndex : Nat} (h : Holds t before total s.mem) :
    (deflatedCopyBlock t basis blockIndex).Ensures heardHandler (fun s => Within t before s.mem)
      (fun _ s' => Holds t before total s'.mem ∧ s'.inbox = s.inbox) s := by
  cases basis with
  | none => exact Prog.Ensures.bind (Prog.ensures_ofExcept h.within fun _ _ => h.within)
  | some basis => exact ensures_readBasisBlock h

/-- As `ensures_plainLoop`; a flag set aside by the reader is the last byte
heard, which a copy or a write does not change. -/
theorem ensures_deflatedLoop {flate : Flate} {mode : RsyncDeflatedTokenMode} {chunkFuel : Nat} :
    ∀ {fuel total : Nat} {reader : RsyncDeflatedTokenReader flate} {s : Heard},
    Holds t before total s.mem → reader.Flagged s.heard →
    (deflatedLoop hashes t basis chunkFuel fuel reader total).Ensures heardHandler
      (fun s => Within t before s.mem)
      (fun n s' => n = t.expectedLen ∧ Accepted hashes t (endMark (some mode)) s') s
  | 0, _, _, _, h, _ => h.within
  | fuel + 1, total, reader, s, h, hflag => by
      unfold deflatedLoop
      refine Prog.Ensures.bind ((ensures_checkTransferDeadline h).mono ?_)
      rintro - s₁ ⟨h₁, hin₁⟩
      refine Prog.Ensures.bind (ensures_onMux (fun _ => h₁.within) ?_)
      rintro l reads ⟨token, reader'⟩ htoken
      have hflag₁ : reader.Flagged s₁.heard := by
        rw [Heard.heard, hin₁]
        exact hflag
      have hread := RsyncDeflatedTokenReader.hears_nextToken htoken hflag₁
      have h₂ : Holds t before total
          ({ s₁ with inbox := (l, s₁.heard ++ reads) } : Heard).mem := h₁
      cases token with
      | literal literal =>
          refine Prog.Ensures.bind ((ensures_appendBytes h₂).mono ?_)
          rintro next s' ⟨-, hs', hin⟩
          refine ensures_deflatedLoop hs' ?_
          rw [Heard.heard, hin]
          exact hread.flagged
      | copy blockIndex =>
          refine Prog.Ensures.bind ((ensures_deflatedCopyBlock h₂).mono ?_)
          rintro bytes s₃ ⟨h₃, hin₃⟩
          refine Prog.Ensures.bind (Prog.ensures_ofExcept h₃.within ?_)
          intro reader'' hobserve
          refine Prog.Ensures.bind ((ensures_appendBytes h₃).mono ?_)
          rintro next s' ⟨-, hs', hin⟩
          refine ensures_deflatedLoop hs' ?_
          intro flag hsaved
          rw [RsyncDeflatedTokenReader.observeCopyData_savedFlag hobserve] at hsaved
          rw [Heard.heard, hin, hin₃]
          exact hread.flagged flag hsaved
      | finish => exact ensures_finishTokens h₂ (hread.ended rfl)

/-! ## The whole function -/

theorem ensures_openBasis {maxAlloc : Option Nat} (h : Holds t before total s.mem) :
    (openBasis basis maxAlloc).Ensures heardHandler (fun s => Within t before s.mem)
      (fun _ s' => Holds t before total s'.mem) s := by
  cases basis with
  | none => exact ⟨h.within, h⟩
  | some basis =>
      unfold openBasis
      dsimp only
      split
      · refine Prog.Ensures.bind (Prog.ensures_ofExcept h.within ?_)
        intro _ _
        refine Prog.Ensures.bind (ensures_look rfl h.within ?_)
        intro _ m _ hfiles
        exact ⟨(h.keep hfiles).within, h.keep hfiles⟩
      · exact ⟨h.within, h⟩

theorem ensures_create (h : Within t before s.mem) :
    (perform (.create t.output)).Ensures heardHandler (fun s => Within t before s.mem)
      (fun _ s' => Holds t before 0 s'.mem) s := by
  refine ensures_perform h ?_
  intro r m hr
  have hothers : ∀ p, p ≠ t.output → m.files p = before.files p := by
    intro p hp
    rw [machine_frame hr (by simpa [LocalOp.writes] using Ne.symm hp), h.others p hp]
  rcases machine_create hr with hempty | ⟨hfail, hkept⟩
  · have hholds : Holds t before 0 m := ⟨hothers, ⟨[], hempty, rfl⟩, Nat.zero_le _⟩
    exact ⟨hholds.within, fun _ _ => hholds⟩
  · refine ⟨⟨hothers, ?_⟩, fun a ha => absurd ha (hfail a)⟩
    rw [hkept]
    exact h.output

theorem ensures_readFileTokens {flate : Flate} {chunkFuel : Nat}
    {compression : Option RsyncDeflatedTokenMode} {maxAlloc : Option Nat} :
    (readFileTokensToPathWithBasis flate hashes chunkFuel t basis compression maxAlloc).Ensures
      heardHandler (fun s' => Within t s.mem s'.mem)
      (fun n s' => n = t.expectedLen ∧ Accepted hashes t (endMark compression) s') s := by
  have hstart : Within t s.mem s.mem := ⟨fun _ _ => rfl, Or.inl rfl⟩
  refine Prog.Ensures.bind (ensures_look rfl hstart ?_)
  intro _ m _ hfiles
  refine Prog.Ensures.bind ((ensures_create (hstart.keep hfiles)).mono ?_)
  intro _ s₁ h₁
  refine Prog.Ensures.bind ((ensures_openBasis h₁).mono ?_)
  intro opened s₂ h₂
  cases compression with
  | none => exact ensures_plainLoop h₂
  | some mode =>
      refine ensures_deflatedLoop h₂ ?_
      simp [RsyncDeflatedTokenReader.Flagged, RsyncDeflatedTokenReader.new]

end End

/-! ## Rounds

A literal and a block of the basis are never empty, so each round before the
last adds a byte: with more rounds than bytes expected a loop does not depend on
how many there are. -/

section Rounds

variable {t : TokenTarget} {hashes : Hashes} {basis : Option (LocalPath × RemoteSumHead)}

theorem ensures_readBasisBlock_ne_nil {basis : LocalPath × RemoteSumHead} {blockIndex : Nat}
    {s : Heard} :
    (readBasisBlock basis blockIndex).Ensures heardHandler (fun _ => True)
      (fun bytes _ => bytes ≠ []) s := by
  refine Prog.Ensures.bind (Prog.ensures_ofExcept trivial ?_)
  rintro ⟨offset, len⟩ hspan
  refine ensures_perform trivial ?_
  intro r m hr
  refine ⟨trivial, ?_⟩
  rintro bytes rfl
  have hlen := machine_readAt hr
  have hpos := blockSpan_pos hspan
  intro hnil
  rw [hnil] at hlen
  simp only [List.length_nil] at hlen
  omega

theorem ensures_copyBlock_ne_nil {token : Int} {blockIndex : Except Error Nat} {s : Heard} :
    (copyBlock t basis token blockIndex).Ensures heardHandler (fun _ => True)
      (fun bytes _ => bytes ≠ []) s := by
  cases basis with
  | none => trivial
  | some basis =>
      refine Prog.Ensures.bind (Prog.ensures_ofExcept trivial ?_)
      intro _ _
      exact ensures_readBasisBlock_ne_nil

theorem ensures_deflatedCopyBlock_ne_nil {blockIndex : Nat} {s : Heard} :
    (deflatedCopyBlock t basis blockIndex).Ensures heardHandler (fun _ => True)
      (fun bytes _ => bytes ≠ []) s := by
  cases basis with
  | none => exact Prog.Ensures.bind (Prog.ensures_ofExcept trivial fun _ _ => trivial)
  | some basis => exact ensures_readBasisBlock_ne_nil

/-- The count after a write that went through. -/
theorem run_appendBytes {bytes : Bytes} {total next : Nat} {s s' : Heard}
    (h : (appendBytes t total bytes).run heardHandler s = .ret next s') :
    next = total + bytes.length ∧ next ≤ t.expectedLen := by
  obtain ⟨n, s₁, hn, h⟩ := Prog.run_bind_eq_ret.mp h
  obtain ⟨_, s₂, -, h⟩ := Prog.run_bind_eq_ret.mp h
  have hnext : nextTotal t total bytes.length = .ok n := by
    cases hcase : nextTotal t total bytes.length with
    | ok m =>
        rw [hcase] at hn
        obtain ⟨rfl, -⟩ : m = n ∧ s = s₁ := by simpa using hn
        rfl
    | error e =>
        rw [hcase] at hn
        simp at hn
  obtain ⟨rfl, -⟩ : n = next ∧ s₂ = s' := by simpa using h
  obtain ⟨rfl, hle⟩ := nextTotal_eq_ok hnext
  exact ⟨rfl, hle⟩

theorem run_plainLoop_succ : ∀ {fuel total : Nat} {s : Heard}, t.expectedLen < total + fuel →
    total ≤ t.expectedLen →
    (plainLoop hashes t basis (fuel + 1) total).run heardHandler s =
      (plainLoop hashes t basis fuel total).run heardHandler s
  | 0, total, s, hfuel, hle => by omega
  | fuel + 1, total, s, hfuel, hle => by
      unfold plainLoop
      refine Prog.run_bind_congr fun _ s₁ _ => Prog.run_bind_congr fun token s₂ _ => ?_
      split
      · rename_i hpos
        cases hnext : nextTotal t total token.toNat with
        | error e => rfl
        | ok next =>
            obtain ⟨rfl, hfit⟩ := nextTotal_eq_ok hnext
            simp only [Prog.ofExcept_ok, Prog.ret_bind]
            refine Prog.run_bind_congr fun _ s₃ _ => ?_
            refine run_plainLoop_succ ?_ hfit
            omega
      · split
        · rfl
        · refine Prog.run_bind_congr fun bytes s₃ hbytes => ?_
          have hne := ensures_copyBlock_ne_nil.returns hbytes
          have hlen := List.length_pos_iff.mpr hne
          refine Prog.run_bind_congr fun next s₄ happend => ?_
          obtain ⟨rfl, hfit⟩ := run_appendBytes happend
          refine run_plainLoop_succ ?_ hfit
          omega

theorem run_nextToken_ne_nil {flate : Flate} {fuel : Nat}
    {reader reader' : RsyncDeflatedTokenReader flate} {token : RsyncDeflatedToken} {s s' : Heard}
    (h : (onMux (reader.nextToken fuel) : Session _).run heardHandler s =
      .ret (token, reader') s') : token ≠ .literal [] := by
  have hens : (onMux (reader.nextToken fuel) : Session _).Ensures heardHandler (fun _ => True)
      (fun r _ => ∃ reads, Hears (reader.nextToken fuel) reads r) s :=
    ensures_onMux (fun _ => trivial) fun _ reads _ hreads => ⟨reads, hreads⟩
  obtain ⟨reads, hreads⟩ := hens.returns h
  have hflag : reader.Flagged (reader.savedFlag.toList.map fun flag => [flag]) := by
    intro flag hsaved
    simp [hsaved]
  exact (RsyncDeflatedTokenReader.hears_nextToken hreads hflag).literal

theorem run_deflatedLoop_succ {flate : Flate} {chunkFuel : Nat} :
    ∀ {fuel total : Nat} {reader : RsyncDeflatedTokenReader flate} {s : Heard},
    t.expectedLen < total + fuel → total ≤ t.expectedLen →
    (deflatedLoop hashes t basis chunkFuel (fuel + 1) reader total).run heardHandler s =
      (deflatedLoop hashes t basis chunkFuel fuel reader total).run heardHandler s
  | 0, total, reader, s, hfuel, hle => by omega
  | fuel + 1, total, reader, s, hfuel, hle => by
      unfold deflatedLoop
      refine Prog.run_bind_congr fun _ s₁ _ => Prog.run_bind_congr ?_
      rintro ⟨token, reader'⟩ s₂ htoken
      have hne := run_nextToken_ne_nil htoken
      cases token with
      | literal literal =>
          have hlen : 0 < literal.length := List.length_pos_iff.mpr (by simpa using hne)
          refine Prog.run_bind_congr fun next s₃ happend => ?_
          obtain ⟨rfl, hfit⟩ := run_appendBytes happend
          refine run_deflatedLoop_succ ?_ hfit
          omega
      | copy blockIndex =>
          refine Prog.run_bind_congr fun bytes s₃ hbytes => ?_
          have hlen := List.length_pos_iff.mpr (ensures_deflatedCopyBlock_ne_nil.returns hbytes)
          refine Prog.run_bind_congr fun _ s₄ _ => Prog.run_bind_congr fun next s₅ happend => ?_
          obtain ⟨rfl, hfit⟩ := run_appendBytes happend
          refine run_deflatedLoop_succ ?_ hfit
          omega
      | finish => rfl

end Rounds

end RsyncWin
