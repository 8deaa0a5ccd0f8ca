import RsyncWin.Protocol.HistoryFlate
import RsyncWin.Protocol.MuxDelivery
import RsyncWin.Transfer.DeltaReference

/-!
# A compressed transfer from end to end

The compressed answer against the loop that receives it in `zlib` mode. What the
loop makes of an answer is what `Receives` says, so that the file comes back
exactly where no byte without a match is behind a match.
-/

namespace RsyncWin

open ByteString Codec Duplex MuxFrame

/-! ## Reads that came back -/

section Reads

variable {L : Sig} {σ α : Type} {H : Handler L σ} {inp : Bytes} {l : MuxState}

/-- A read is answered with payload. -/
theorem Carries.le_of_pull {n : Nat} {bs : Bytes} {l' : MuxState} (h : Carries l inp)
    (hpull : l.pull n = some (.ok bs, l')) : n ≤ inp.length := by
  obtain ⟨-, head, frames, hrem, hframes, hraw, hpay⟩ := h
  have hahead : l.raw = ahead head (dataFrames frames) [] := by
    rw [hraw, ahead, dataFrames, List.append_nil, List.flatMap_map]
    rfl
  have hvalid : ∀ f ∈ dataFrames frames, f.Valid := by
    intro f hf
    obtain ⟨payload, hmem, rfl⟩ := List.mem_map.mp hf
    have htag : rsyncMultiplexDataTag < 256 := by decide
    exact ⟨htag, (hframes payload hmem).2⟩
  have hreads : l.reads [n] = some (.ok (bs ++ []), l') := by
    rw [MuxState.reads, hpull]
    rfl
  have hprefix := reads_payload hrem.symm hahead hvalid hreads
  rw [List.append_nil, unread, payloads_dataFrames, ← hpay] at hprefix
  rw [← MuxState.pull_length hpull]
  exact hprefix.length_le

/-- What a reader returned on the link it returns on the payload. -/
theorem run_of_onMux {r : Reader α} {a : α} {m : σ} {sent : List Bytes} {s : Solo muxLink σ}
    (hl : Carries l inp)
    (h : (onMux r : Party Error L α).run (soloHandler muxLink H) ⟨m, l, sent⟩ = .ret a s) :
    ∃ rest l', r.run buffer inp = .ret a rest ∧ s = ⟨m, l', sent⟩ ∧ Carries l' rest := by
  induction r generalizing l inp with
  | ret b =>
      cases h
      exact ⟨inp, l, rfl, rfl, hl⟩
  | fail e => cases h
  | call n k ih =>
      unfold onMux at h
      rw [Prog.interp_call] at h
      obtain ⟨bs, s', hrecv, hrest⟩ := Prog.run_bind_eq_ret.mp h
      obtain ⟨l', hpull, rfl⟩ := pull_of_run_recv hrecv
      have hn : n ≤ inp.length := hl.le_of_pull hpull
      have hlen : (inp.take n).length = n := List.length_take_of_le hn
      rw [← List.take_append_drop n inp] at hl
      obtain ⟨l'', hpull', hl'⟩ := hl.pull
      rw [hlen] at hpull'
      obtain ⟨hbs, rfl⟩ := Prod.mk.inj (Option.some.inj (hpull.symm.trans hpull'))
      obtain rfl := Except.ok.inj hbs
      obtain ⟨rest, l', hrun, hs, hrest'⟩ := ih _ hl' hrest
      have hbuf : buffer n inp = some (inp.take n, inp.drop n) := if_pos hn
      exact ⟨rest, l', by rw [Prog.run_call_some hbuf, hrun], hs, hrest'⟩

end Reads

namespace RsyncDeflatedTokenReader

variable {flate : Flate} {r r' : RsyncDeflatedTokenReader flate} {inp rest : Bytes}
  {token : RsyncDeflatedToken}

/-- A counter that was large enough is still so when it is larger. -/
theorem nextToken_succ {fuel : Nat}
    (h : (nextToken fuel r).run buffer inp = .ret (token, r') rest) :
    (nextToken (fuel + 1) r).run buffer inp = .ret (token, r') rest := by
  induction fuel generalizing r inp with
  | zero => cases h
  | succ fuel ih =>
      rw [nextToken] at h
      rw [nextToken]
      split
      · rename_i hrun
        rwa [if_pos hrun] at h
      · rename_i hrun
        rw [if_neg hrun] at h
        obtain ⟨⟨flag, r₁⟩, inp₁, hflag, hrest⟩ := Prog.run_bind_eq_ret.mp h
        rw [Prog.run_bind_ret hflag]
        dsimp only at hrest ⊢
        by_cases hdata : flag &&& 0xc0 = rsyncDeflatedData
        · rw [if_pos hdata] at hrest ⊢
          obtain ⟨low, inp₂, hlow, hrest⟩ := Prog.run_bind_eq_ret.mp hrest
          obtain ⟨compressed, inp₃, hcompressed, hrest⟩ := Prog.run_bind_eq_ret.mp hrest
          obtain ⟨⟨literal, r₂⟩, inp₄, hinflate, hrest⟩ := Prog.run_bind_eq_ret.mp hrest
          rw [Prog.run_bind_ret hlow, Prog.run_bind_ret hcompressed, Prog.run_bind_ret hinflate]
          dsimp only at hrest ⊢
          by_cases hliteral : literal ≠ []
          · rwa [if_pos hliteral] at hrest ⊢
          · rw [if_neg hliteral] at hrest ⊢
            exact ih hrest
        · rwa [if_neg hdata] at hrest ⊢

theorem next_of_run {fuel : Nat}
    (h : (nextToken fuel r).run buffer inp = .ret (token, r') rest) :
    Next r inp token r' rest := by
  refine ⟨fuel, fun more hmore => ?_⟩
  induction more, hmore using Nat.le_induction with
  | base => exact h
  | succ more _ ih => exact nextToken_succ ih

/-- No literal is empty. -/
theorem Next.literal_ne_nil {bytes : Bytes} (h : Next r inp (.literal bytes) r' rest) :
    bytes ≠ [] := by
  rintro rfl
  obtain ⟨least, hleast⟩ := h
  obtain ⟨reads, hreads⟩ := hears_of_run (hleast least le_rfl)
  have hflagged : Flagged r (r.savedFlag.toList.map fun flag => [flag]) := by
    intro flag hflag
    rw [hflag]
    rfl
  exact (hears_nextToken hreads hflagged).literal rfl

end RsyncDeflatedTokenReader

/-! ## The loop over the tokens -/

section Loop

open RsyncDeflatedTokenReader

variable {flate : Flate} {m : Machine} {hashes : Hashes} {b : Nat} {t : TokenTarget}
  {basisPath : LocalPath} {basis target : Bytes}

theorem block_of_basisBlock {i : Nat} {bytes : Bytes} (h : basisBlock b basis i = some bytes) :
    i * b < basis.length ∧ bytes = blockAt b basis i := by
  unfold basisBlock at h
  split at h
  · rename_i hi
    exact ⟨hi, (Option.some.inj h).symm⟩
  · cases h

/-- What is received arrives in the output file, once the counter is large enough. -/
theorem exchange_deflatedLoop {r : RsyncDeflatedTokenReader flate} {inp content digest : Bytes}
    (hcalm : m.faults = []) (hb : 0 < b) (hdeadline : t.stopDeadline = none)
    (hbasis : basisPath ≠ t.output) (hfile : basis ≠ [] → m.files basisPath = some basis)
    (hsize : basis.length ≤ usizeMax) (hlen : target.length = t.expectedLen)
    (h64 : t.expectedLen ≤ u64Max) (hdigest : digest = finalDigest hashes t.checksum target)
    (h : Receives (basisBlock b basis) r inp content digest) :
    ∃ least, ∀ chunkFuel ≥ least, ∀ fuel done, content.length < fuel → done ++ content = target →
      Exchange machine
        (deflatedLoop hashes t (basisOf basisPath b basis) chunkFuel fuel r done.length)
        (m.put t.output (some done)) inp [] target.length (m.put t.output (some target)) := by
  induction h with
  | finish hnext =>
      obtain ⟨least, hleast⟩ := hnext
      refine ⟨least, fun chunkFuel hchunk fuel done hfuel hdone => ?_⟩
      obtain ⟨fuel, rfl⟩ : ∃ n, fuel = n + 1 := ⟨fuel - 1, by omega⟩
      obtain ⟨bs, rfl, hdecodes⟩ := decodes_of_run (hleast chunkFuel hchunk)
      rw [List.append_nil] at hdone
      subst hdone hdigest
      unfold deflatedLoop
      rw [hdeadline]
      exact (exchange_onMux hdecodes).bind_reads (exchange_finishTokens hcalm hlen)
  | @literal r r₁ inp inp₁ bytes content rest hnext _ ih =>
      have hpos : 0 < bytes.length := List.length_pos_iff.mpr hnext.literal_ne_nil
      obtain ⟨least, hleast⟩ := hnext
      obtain ⟨more, hmore⟩ := ih hdigest
      refine ⟨least + more, fun chunkFuel hchunk fuel done hfuel hdone => ?_⟩
      obtain ⟨fuel, rfl⟩ : ∃ n, fuel = n + 1 := ⟨fuel - 1, by omega⟩
      obtain ⟨bs, rfl, hdecodes⟩ := decodes_of_run (hleast chunkFuel (by omega))
      rw [← List.append_assoc] at hdone
      have hlong := congrArg List.length hdone
      simp only [List.length_append] at hlong hfuel
      have hrec := hmore chunkFuel (by omega) fuel (done ++ bytes) (by omega) hdone
      rw [List.length_append] at hrec
      unfold deflatedLoop
      rw [hdeadline]
      refine (exchange_onMux hdecodes).bind_reads ?_
      dsimp only
      unfold appendBytes
      rw [nextTotal_ok (by omega) h64]
      simp only [Prog.ofExcept_ok, Prog.ret_bind, Prog.bind_assoc]
      exact (exchange_append hcalm).before hrec
  | @copy r r₁ r₂ inp inp₁ bytes content rest blockIndex hnext hdata hobserve _ ih =>
      obtain ⟨hi, rfl⟩ := block_of_basisBlock hdata
      have hne : basis ≠ [] := by
        rintro rfl
        simp at hi
      have hpos : 0 < (blockAt b basis blockIndex).length := by
        rw [blockAt, List.length_take, List.length_drop]
        omega
      have hread := @exchange_readBasisBlock m b t basisPath basis
      obtain ⟨least, hleast⟩ := hnext
      obtain ⟨more, hmore⟩ := ih hdigest
      refine ⟨least + more, fun chunkFuel hchunk fuel done hfuel hdone => ?_⟩
      obtain ⟨fuel, rfl⟩ : ∃ n, fuel = n + 1 := ⟨fuel - 1, by omega⟩
      obtain ⟨bs, rfl, hdecodes⟩ := decodes_of_run (hleast chunkFuel (by omega))
      rw [← List.append_assoc] at hdone
      have hlong := congrArg List.length hdone
      simp only [List.length_append] at hlong hfuel
      have hrec := hmore chunkFuel (by omega) fuel (done ++ blockAt b basis blockIndex)
        (by omega) hdone
      rw [List.length_append] at hrec
      unfold deflatedLoop
      rw [hdeadline]
      refine (exchange_onMux hdecodes).bind_reads ?_
      unfold basisOf at hrec ⊢
      rw [if_neg hne] at hrec ⊢
      refine (hread hcalm hb hbasis (hfile hne) hsize hi).before ?_
      rw [hobserve, Prog.ofExcept_ok, Prog.ret_bind]
      unfold appendBytes
      rw [nextTotal_ok (by omega) h64]
      simp only [Prog.ofExcept_ok, Prog.ret_bind, Prog.bind_assoc]
      exact (exchange_append hcalm).before hrec

/-- After a part that only works on the memory, the run goes on. -/
theorem Exchange.resume {L : Sig} {σ α β : Type} {H : Handler L σ} {p : Party Error L α}
    {k : α → Party Error L β} {w w' : σ} {a : α} {c : β} {l : MuxState} {inp : Bytes}
    {sent : List Bytes} {s : Solo muxLink σ} (hp : Exchange H p w [] [] a w') (hl : Carries l inp)
    (h : (p >>= k).run (soloHandler muxLink H) ⟨w, l, sent⟩ = .ret c s) :
    ∃ l' sent', Carries l' inp ∧
      (k a).run (soloHandler muxLink H) ⟨w', l', sent'⟩ = .ret c s := by
  obtain ⟨l', more, hrun, hl', -⟩ := hp l inp sent hl
  rw [Prog.run_bind_ret hrun] at h
  exact ⟨l', _, hl', h⟩

/-- A part that cannot fail on the link. -/
theorem ok_of_run_ofExcept {L : Sig} {σ α β : Type} {H : Handler L σ} {x : Except Error α}
    {k : α → Party Error L β} {c : β} {s s' : Solo muxLink σ}
    (h : (Prog.ofExcept x >>= k).run (soloHandler muxLink H) s = .ret c s') :
    ∃ a, x = .ok a ∧ (k a).run (soloHandler muxLink H) s = .ret c s' := by
  cases x with
  | error e => cases h
  | ok a => exact ⟨a, rfl, h⟩

/-- The end mark leaves the file as it is. -/
theorem mem_of_finishTokens {total n : Nat} {content inp : Bytes} {l : MuxState}
    {sent : List Bytes} {s : Solo muxLink Machine} (hcalm : m.faults = []) (hl : Carries l inp)
    (h : (finishTokens hashes t total).run (soloHandler muxLink machine)
      ⟨m.put t.output (some content), l, sent⟩ = .ret n s) :
    s.mem = m.put t.output (some content) := by
  have hsync : Exchange machine (perform (.syncAll t.output)) (m.put t.output (some content))
      [] [] () (m.put t.output (some content)) := exchange_perform hcalm rfl
  unfold finishTokens at h
  obtain ⟨l₁, sent₁, hl₁, h⟩ := hsync.resume hl h
  split at h
  · cases h
  · obtain ⟨remoteChecksum, s₂, hread, h⟩ := Prog.run_bind_eq_ret.mp h
    obtain ⟨rest, l₂, -, rfl, hl₂⟩ := run_of_onMux hl₁ hread
    have hsum := @exchange_remoteFileChecksumForPath hashes t.checksum t.output
      (m.put t.output (some content)) content hcalm (by simp)
    obtain ⟨l₃, sent₃, -, h⟩ := hsum.resume hl₂ h
    split at h
    · cases h
    · cases h
      rfl

/-- Bytes that fit are in the file behind what was there. -/
theorem run_appendBytes_bind {bytes done inp : Bytes} {l : MuxState} {sent : List Bytes} {n : Nat}
    {s : Solo muxLink Machine} {k : Nat → Session Nat} (hcalm : m.faults = []) (hl : Carries l inp)
    (h : (appendBytes t done.length bytes >>= k).run (soloHandler muxLink machine)
      ⟨m.put t.output (some done), l, sent⟩ = .ret n s) :
    ∃ l' sent', Carries l' inp ∧ (k (done ++ bytes).length).run (soloHandler muxLink machine)
      ⟨m.put t.output (some (done ++ bytes)), l', sent'⟩ = .ret n s := by
  unfold appendBytes at h
  rw [Prog.bind_assoc] at h
  obtain ⟨total, htotal, h⟩ := ok_of_run_ofExcept h
  have hsum : total = (done ++ bytes).length := by
    unfold nextTotal at htotal
    split at htotal
    · cases htotal
    · split at htotal
      · cases htotal
      · rw [List.length_append]
        exact (Except.ok.inj htotal).symm
  subst hsum
  rw [Prog.bind_assoc] at h
  exact (exchange_append hcalm).resume hl h

/-- Only a block that is there can be read. -/
theorem blockSpan_missing (hb : 0 < b) {i : Nat} (hi : ¬ i * b < basis.length) :
    ∃ e, blockSpan (sumHeadOf b basis) i = .error e := by
  have hcount : ¬ i < (chunks b basis).length := fun h => hi ((lt_length_chunks hb).mp h)
  unfold blockSpan
  rw [validateSumHead_sumHeadOf hb]
  exact ⟨_, if_pos (Nat.le_of_not_lt hcount)⟩

/-- What is in the output file when the loop has returned was received. -/
theorem receives_of_deflatedLoop (hcalm : m.faults = []) (hb : 0 < b)
    (hdeadline : t.stopDeadline = none) (hbasis : basisPath ≠ t.output)
    (hfile : basis ≠ [] → m.files basisPath = some basis) (hsize : basis.length ≤ usizeMax)
    {chunkFuel n : Nat} {s : Solo muxLink Machine} : ∀ {fuel : Nat}
    {r : RsyncDeflatedTokenReader flate} {done inp : Bytes} {l : MuxState} {sent : List Bytes},
    Carries l inp →
    (deflatedLoop hashes t (basisOf basisPath b basis) chunkFuel fuel r done.length).run
      (soloHandler muxLink machine) ⟨m.put t.output (some done), l, sent⟩ = .ret n s →
    ∃ content rest, Receives (basisBlock b basis) r inp content rest ∧
      s.mem = m.put t.output (some (done ++ content))
  | 0, _, _, _, _, _, _, h => by cases h
  | fuel + 1, r, done, inp, l, sent, hl, h => by
      unfold deflatedLoop at h
      rw [hdeadline] at h
      obtain ⟨⟨token, r₁⟩, s₁, hread, h⟩ := Prog.run_bind_eq_ret.mp
        (show (onMux (nextToken chunkFuel r) >>= _).run (soloHandler muxLink machine) _ = _ from h)
      obtain ⟨inp₁, l₁, hrun, rfl, hl₁⟩ := run_of_onMux hl hread
      have hnext := next_of_run hrun
      cases token with
      | literal bytes =>
          obtain ⟨l₂, sent₂, hl₂, h⟩ := run_appendBytes_bind hcalm hl₁ h
          obtain ⟨content, rest, hmore, hmem⟩ := receives_of_deflatedLoop hcalm hb hdeadline hbasis
            hfile hsize hl₂ h
          exact ⟨bytes ++ content, rest, .literal hnext hmore, by rw [hmem, List.append_assoc]⟩
      | copy blockIndex =>
          by_cases hnil : basis = []
          · -- without a basis a copy is an error
            unfold basisOf at h
            rw [if_pos hnil] at h
            obtain ⟨bytes, s₂, hblock, -⟩ := Prog.run_bind_eq_ret.mp h
            obtain ⟨copyToken, -, hthrow⟩ := ok_of_run_ofExcept hblock
            cases hthrow
          · have hbasisOf : basisOf basisPath b basis = some (basisPath, sumHeadOf b basis) :=
              if_neg hnil
            rw [hbasisOf] at h
            by_cases hi : blockIndex * b < basis.length
            · obtain ⟨l₂, sent₂, hl₂, h⟩ :=
                (exchange_readBasisBlock hcalm hb hbasis (hfile hnil) hsize hi).resume hl₁ h
              obtain ⟨r₂, hobserve, h⟩ := ok_of_run_ofExcept h
              obtain ⟨l₃, sent₃, hl₃, h⟩ := run_appendBytes_bind hcalm hl₂ h
              rw [← hbasisOf] at h
              obtain ⟨content, rest, hmore, hmem⟩ := receives_of_deflatedLoop hcalm hb hdeadline
                hbasis hfile hsize hl₃ h
              exact ⟨blockAt b basis blockIndex ++ content, rest,
                .copy hnext (if_pos hi) hobserve hmore, by rw [hmem, List.append_assoc]⟩
            · obtain ⟨bytes, s₂, hblock, -⟩ := Prog.run_bind_eq_ret.mp h
              obtain ⟨span, hspan, -⟩ := ok_of_run_ofExcept hblock
              obtain ⟨e, he⟩ := blockSpan_missing hb hi
              rw [he] at hspan
              cases hspan
      | finish =>
          refine ⟨[], inp₁, .finish hnext, ?_⟩
          rw [List.append_nil]
          exact mem_of_finishTokens hcalm hl₁ h

end Loop

/-! ## The sender -/

section Sender

open RsyncDeflatedTokenReader RsyncDeflatedTokenWriter

variable {flate : Flate} {m : Machine} {hashes : Hashes} {b : Nat} {basis : Bytes}

/-- A script through a compressor is one file of the compressed stream. -/
theorem exchange_sendScript {w w' : RsyncDeflatedTokenWriter flate} {sends : List DeflatedSend}
    {cs : List Bytes} {checksum : RemoteFinalChecksum} {target : Bytes}
    {stats : RemoteDeltaStats} (h : Writes (sendFile w sends) cs w') :
    Exchange machine (sendScript hashes checksum (some w) sends target stats) m []
      (cs.flatten ++ finalDigest hashes checksum target) stats m := by
  have hwrite : Writes (sends.foldlM writeSend (some w) >>= writeEndToken) cs () := by
    have hfile : (sends.foldlM writeSend (some w) >>= writeEndToken) =
        (sendFile w sends >>= fun _ => pure ()) := by
      rw [writeSend_some]
      unfold sendFile
      simp only [Prog.bind_assoc, Prog.pure_eq, Prog.ret_bind]
      rfl
    rw [hfile]
    exact h.bind_ret rfl
  have hfirst := exchange_toMux (H := machine) (m := m) hwrite
  have hsum : Exchange machine (toMux (writeAll (finalDigest hashes checksum target))) m []
      (finalDigest hashes checksum target) () m := by
    have hx := exchange_toMux (H := machine) (m := m)
      (writes_writeAll (finalDigest hashes checksum target))
    simpa using hx
  have hprog : @sendScript flate hashes checksum (some w) sends target stats = (do
      toMux (sends.foldlM writeSend (some w) >>= writeEndToken)
      toMux (writeAll (finalDigest hashes checksum target))
      pure stats) := by
    unfold sendScript toMux
    rw [Prog.interp_bind, Prog.bind_assoc]
  rw [hprog]
  exact hfirst.bind (hsum.bind_ret rfl)

/-- Without signatures every read is a literal. -/
theorem literalLoop_eq : ∀ {fuel : Nat} {reader : FileReader}, reader.rest.length < fuel →
    ∃ pieces : List Bytes, (∀ piece ∈ pieces, 0 < piece.length ∧ piece.length ≤ 32 * 1024) ∧
      pieces.flatten = reader.rest ∧
      ∀ (checksum : RemoteChecksumBuilder) (compressor : TokenWriter flate) (total : Nat),
        literalLoop none fuel reader checksum compressor total = (do
          let compressor ← toMux ((pieces.map DeflatedSend.literal).foldlM writeSend compressor)
          pure (checksum.update reader.rest, compressor, total + reader.rest.length))
  | 0, _, h => absurd h (by omega)
  | fuel + 1, reader, hfuel => by
      simp only [literalLoop]
      rcases reader.read_cases (show 0 < 32 * 1024 by decide) with
        ⟨reader', hread, hrest, -⟩ | ⟨chunk, reader', hread, hchunk, hsplit, hpos, hle, hlen⟩
      · refine ⟨[], List.forall_mem_nil _, hrest.symm, fun checksum compressor total => ?_⟩
        rw [hread, hrest, RemoteChecksumBuilder.update_nil]
        rfl
      · simp only [hread]
        obtain ⟨pieces, hpieces, hflat, hloop⟩ := @literalLoop_eq fuel reader' (by omega)
        refine ⟨chunk :: pieces, ?_, ?_, fun checksum compressor total => ?_⟩
        · intro piece hmem
          rcases List.mem_cons.mp hmem with rfl | hmem
          · exact ⟨hpos, hle⟩
          · exact hpieces piece hmem
        · rw [List.flatten_cons, hflat]
          exact hsplit
        · rw [if_neg hchunk, List.map_cons, List.foldlM_cons]
          simp only [hloop, RemoteChecksumBuilder.update_update, hsplit]
          unfold toMux
          rw [Prog.interp_bind, Prog.bind_assoc, Nat.add_assoc, hlen]
          rfl

theorem fits_literals {data : Nat → Option Bytes} (pieces : List Bytes) :
    Fits data ((pieces.map DeflatedSend.literal).map DeflatedSend.token) pieces.flatten := by
  induction pieces with
  | nil => rfl
  | cons piece pieces ih => exact ⟨pieces.flatten, rfl, ih⟩

theorem literalsThenCopies_literals {data : Nat → Option Bytes} (pieces : List Bytes) :
    LiteralsThenCopies data ((pieces.map DeflatedSend.literal).map DeflatedSend.token)
      pieces.flatten := by
  induction pieces with
  | nil => rfl
  | cons piece pieces ih => exact ⟨pieces.flatten, rfl, ih⟩

/-- What the sender sends against these signatures is a script of literals and of copies of
blocks that are there; behind its copies comes no literal exactly where the matches come
last. -/
theorem exists_script {checksums : RemoteDeltaChecksums} {signatures : List BlockSignature}
    (hb : 0 < b) (hd : Describes b basis (strongDigest hashes checksums.block 16) signatures)
    (reader : FileReader) :
    ∃ (sends : List DeflatedSend) (stats : RemoteDeltaStats), (∀ s ∈ sends, s.Ok b basis) ∧
      Fits (basisBlock b basis) (sends.map DeflatedSend.token) reader.rest ∧
      (LiteralsThenCopies (basisBlock b basis) (sends.map DeflatedSend.token) reader.rest ↔
        ∀ index, RemoteSignatureIndex.new signatures = .ok index →
          MatchesLast (index.findMatch (strongDigest hashes checksums.block 16)) (blockAt b basis)
            reader.rest) ∧
      ∀ level : Option Nat, (if signatures = [] then do
          let literalBytes ← @writeLiteralTokensFromReaderWithChecksum flate hashes reader
            checksums.finalFile level none
          pure ({ literalBytes } : RemoteDeltaStats)
        else
          @writeDeltaTokensFromReaderWithChecksum flate hashes reader checksums signatures level {}) =
        @sendScript flate hashes checksums.finalFile (level.map RsyncDeflatedTokenWriter.new) sends
          reader.rest stats := by
  by_cases hnil : signatures = []
  · subst hnil
    obtain ⟨pieces, hpieces, hflat, hloop⟩ := @literalLoop_eq flate (reader.rest.length + 1) reader
      (Nat.lt_succ_self _)
    refine ⟨pieces.map .literal, { literalBytes := reader.rest.length }, ?_, ?_, ?_, ?_⟩
    · intro s hs
      obtain ⟨piece, hmem, rfl⟩ := List.mem_map.mp hs
      exact hpieces piece hmem
    · rw [← hflat]
      exact fits_literals pieces
    · rw [← hflat]
      refine ⟨fun _ index hnew => ?_, fun _ => literalsThenCopies_literals pieces⟩
      cases hnew
    · intro level
      rw [if_pos rfl]
      unfold writeLiteralTokensFromReaderWithChecksum sendScript
      simp only [hloop, Prog.bind_assoc, Prog.pure_eq, Prog.ret_bind,
        Nat.zero_add]
      rfl
  · obtain ⟨first, more, hcons⟩ := List.exists_cons_of_ne_nil hnil
    have hfirst : first ∈ signatures := hcons ▸ List.mem_cons_self
    obtain ⟨hstored, -, hlen, hstrong⟩ := hd first hfirst
    have hpositive : 0 < first.len := by
      rw [hlen, blockAt, List.length_take, List.length_drop]
      omega
    have hchecksumLen : ((signatures.head?.map (·.strong.length)).getD 16) = 16 := by
      rw [hcons]
      simp [hstrong, strongDigest_length]
    obtain ⟨index, hnew, hsigs, hsome, hlengths⟩ := signatureIndex_new hfirst hpositive
    rw [← hsigs] at hd
    have hfinds := fun window signature => @finds_findMatch b basis index _ hd hlengths window signature
    have hshort : ([] : Bytes).length < 32 * 1024 := by decide
    have hfits := @fits_script b basis _ hfinds (reader.rest.length + 1) [] reader.rest
      (Nat.lt_succ_self _)
    let matching := index.findMatch (strongDigest hashes checksums.block 16)
    refine ⟨script matching (reader.rest.length + 1) [] reader.rest,
      tally matching (reader.rest.length + 1) reader.rest, ok_script hfinds hshort, hfits, ?_, ?_⟩
    · have hiff := @literalsThenCopies_script b basis _ hfinds (reader.rest.length + 1) []
        reader.rest (Nat.lt_succ_self _)
      rw [List.nil_append] at hiff
      rw [hiff]
      constructor
      · intro h index' hnew'
        obtain rfl := Except.ok.inj (hnew.symm.trans hnew')
        exact h
      · intro h
        exact h index hnew
    · intro level
      rw [if_neg hnil]
      exact writeDeltaTokensFromReader_eq_sendScript hnew hlengths hsome (by rw [hchecksumLen])

end Sender

/-! ## The transfer -/

section Transfer

open RsyncDeflatedTokenReader RsyncDeflatedTokenWriter

variable {flate : Flate} {hashes : Hashes} {b : Nat} {t : TokenTarget} {m : Machine}
  {checksum : RemoteFileChecksum} {basisPath : LocalPath} {basis target : Bytes}

/-- The receiver returns with the file exactly where the file is received. -/
theorem exchange_readFileTokens_zlib {inp : Bytes} (hcalm : m.faults = []) (hb : 0 < b)
    (hdeadline : t.stopDeadline = none) (hbasis : basisPath ≠ t.output)
    (hfile : basis ≠ [] → m.files basisPath = some basis) (hsize : basis.length ≤ usizeMax)
    (hlen : target.length = t.expectedLen) (h64 : t.expectedLen ≤ u64Max)
    (hfree : m.refuses t.output = false) (hcarried : ∃ l, Carries l inp)
    (hdigest : ∀ rest, Receives (basisBlock b basis)
      (RsyncDeflatedTokenReader.new .zlib : RsyncDeflatedTokenReader flate) inp target rest →
        rest = finalDigest hashes t.checksum target) :
    ∃ least, ∀ chunkFuel ≥ least,
      (Exchange machine
          (readFileTokensToPathWithBasis flate hashes chunkFuel t
            (some (basisPath, (requestOf hashes checksum b basis).1)) (some .zlib) none) m
          inp [] target.length (m.put t.output (some target)) ↔
        Receives (basisBlock b basis)
          (RsyncDeflatedTokenReader.new .zlib : RsyncDeflatedTokenReader flate) inp target
          (finalDigest hashes t.checksum target)) := by
  have hparent : Exchange machine (perform (.createDirAll t.output.parent)) m [] [] () m :=
    exchange_perform hcalm rfl
  have hcreate : Exchange machine (perform (.create t.output)) m [] [] ()
      (m.put t.output (some [])) :=
    exchange_perform hcalm (by simp [Machine.serve, hfree])
  have hopen := @exchange_openBasis (m.put t.output (some [])) hashes b basisPath basis checksum
    hcalm hb (fun hne => by simp [hbasis, hfile hne])
  have hback : ∀ chunkFuel, Exchange machine
      (readFileTokensToPathWithBasis flate hashes chunkFuel t
        (some (basisPath, (requestOf hashes checksum b basis).1)) (some .zlib) none) m
      inp [] target.length (m.put t.output (some target)) →
      Receives (basisBlock b basis)
        (RsyncDeflatedTokenReader.new .zlib : RsyncDeflatedTokenReader flate) inp target
        (finalDigest hashes t.checksum target) := by
    intro chunkFuel hx
    obtain ⟨l, hl⟩ := hcarried
    obtain ⟨l', sent, hrun, -, -⟩ := hx l [] [] (by rwa [List.append_nil])
    unfold readFileTokensToPathWithBasis at hrun
    obtain ⟨l₁, sent₁, hl₁, hrun⟩ := hparent.resume hl hrun
    obtain ⟨l₂, sent₂, hl₂, hrun⟩ := hcreate.resume hl₁ hrun
    obtain ⟨l₃, sent₃, hl₃, hrun⟩ := hopen.resume hl₂ hrun
    obtain ⟨content, rest, hreceives, hmem⟩ := @receives_of_deflatedLoop flate m hashes b t
      basisPath basis hcalm hb hdeadline hbasis hfile hsize chunkFuel _ _ _ _ [] _ _ _ hl₃ hrun
    have hsame : content = target := by
      have hfiles := congrArg (fun w : Machine => w.files t.output) hmem
      simpa using hfiles.symm
    subst hsame
    rwa [hdigest rest hreceives] at hreceives
  by_cases h : Receives (basisBlock b basis)
      (RsyncDeflatedTokenReader.new .zlib : RsyncDeflatedTokenReader flate) inp target
      (finalDigest hashes t.checksum target)
  · obtain ⟨least, hleast⟩ := @exchange_deflatedLoop flate m hashes b t basisPath basis target _
      inp target _ hcalm hb hdeadline hbasis hfile hsize hlen h64 rfl h
    refine ⟨least, fun chunkFuel hchunk => ⟨fun _ => h, fun _ => ?_⟩⟩
    have hloop := hleast chunkFuel hchunk (t.expectedLen + 2) [] (by omega) (List.nil_append _)
    unfold readFileTokensToPathWithBasis
    exact hparent.before (hcreate.before (hopen.before hloop))
  · exact ⟨0, fun chunkFuel _ => ⟨fun hx => hback chunkFuel hx, fun hr => absurd hr h⟩⟩

/-- The compressed answer of this sender is a script, and it comes back as its file exactly
where behind the copies of the script comes no literal. -/
theorem exchange_zlib {level : Nat} {path : LocalPath} {receiver sender : Machine}
    (hcodec : HistoryCodec flate) (hb : 0 < b) (hb32 : b ≤ i32Max)
    (hcount : (chunks b basis).length ≤ i32Max)
    (hreceiver : receiver.faults = []) (hbasis : receiver.files basisPath = some basis)
    (houtput : t.output ≠ basisPath) (hfree : receiver.refuses t.output = false)
    (hsender : sender.faults = []) (htarget : sender.files path = some target)
    (h64 : target.length ≤ u64Max) (hlen : t.expectedLen = target.length)
    (hdeadline : t.stopDeadline = none) :
    ∃ (sends : List DeflatedSend) (stats : RemoteDeltaStats) (answer : Bytes) (least : Nat),
      Exchange machine
        (writeDeltaTokensFromPath flate hashes ⟨checksum, t.checksum⟩ path
          (requestOf hashes checksum b basis).2 (some level) {}) sender [] answer stats sender ∧
      (∀ chunkFuel ≥ least,
        (Exchange machine
            (readFileTokensToPathWithBasis flate hashes chunkFuel t
              (some (basisPath, (requestOf hashes checksum b basis).1)) (some .zlib) none) receiver
            answer [] target.length (receiver.put t.output (some target)) ↔
          LiteralsThenCopies (basisBlock b basis) (sends.map DeflatedSend.token) target)) ∧
      (LiteralsThenCopies (basisBlock b basis) (sends.map DeflatedSend.token) target ↔
        ∀ index, RemoteSignatureIndex.new (requestOf hashes checksum b basis).2 = .ok index →
          MatchesLast (index.findMatch (strongDigest hashes checksum 16)) (blockAt b basis)
            target) := by
  obtain ⟨hsum, -⟩ := @request_sizes b basis hb hb32 hcount
  obtain ⟨sends, stats, hok, hfits, hlast, hscript⟩ := @exists_script flate hashes b basis
    ⟨checksum, t.checksum⟩ _ hb (describes_signaturesOf hb hcount) ⟨target, sender.cuts⟩
  obtain ⟨cs, w', hwrites, hreceives⟩ := receives_file hcodec level (inRange_of_ok hok)
    (steps_of_ok hok) (stored_script hb hok)
  have hopen : Exchange machine (perform (.openFile path)) sender [] [] ⟨target, sender.cuts⟩
      sender := exchange_perform hsender (by simp [Machine.serve, htarget])
  have hsend := @exchange_sendScript flate sender hashes _ w' sends cs t.checksum target stats hwrites
  have hanswer : Exchange machine
      (writeDeltaTokensFromPath flate hashes ⟨checksum, t.checksum⟩ path
        (requestOf hashes checksum b basis).2 (some level) {}) sender []
      (cs.flatten ++ finalDigest hashes t.checksum target) stats sender := by
    unfold writeDeltaTokensFromPath
    refine hopen.before ?_
    rw [hscript (some level)]
    exact hsend
  have hcarried : ∃ l, Carries l (cs.flatten ++ finalDigest hashes t.checksum target) := by
    obtain ⟨l, sent, -, -, hframes⟩ := hanswer {} [] [] carries_empty
    exact ⟨_, carries_empty.pushes hframes⟩
  obtain ⟨least, hleast⟩ := @exchange_readFileTokens_zlib flate hashes b t receiver checksum
    basisPath basis target _ hreceiver hb hdeadline houtput.symm (fun _ => hbasis) (by omega)
    hlen.symm (by omega) hfree hcarried
    (fun rest h => ((hreceives target hfits _ rest).mp h).2)
  refine ⟨sends, stats, _, least, hanswer, fun chunkFuel hchunk => ?_, hlast⟩
  rw [hleast chunkFuel hchunk, hreceives target hfits]
  exact and_iff_left rfl

end Transfer

/-! ### The block `a`, before and behind a byte that is not in it -/

section Single

open RsyncDeflatedTokenReader

/-- What the index of the one block says of the four windows. -/
theorem findMatch_single {index : RemoteSignatureIndex}
    (h : RemoteSignatureIndex.new (requestOf md4Hashes .plainMd4 1 [0x61]).2 = .ok index) :
    (∃ signature, index.findMatch (strongDigest md4Hashes .plainMd4 16) [0x61, 0x62] =
      some signature ∧ signature.len = 1) ∧
    (∃ signature, index.findMatch (strongDigest md4Hashes .plainMd4 16) [0x61] =
      some signature ∧ signature.len = 1 ∧ signature.index = 0) ∧
    index.findMatch (strongDigest md4Hashes .plainMd4 16) [0x62, 0x61] = none ∧
    index.findMatch (strongDigest md4Hashes .plainMd4 16) [0x62] = none := by
  have hfound : (RemoteSignatureIndex.new (requestOf md4Hashes .plainMd4 1 [0x61]).2).map
      (fun index =>
        ((index.findMatch (strongDigest md4Hashes .plainMd4 16) [0x61, 0x62]).map (·.len),
        (index.findMatch (strongDigest md4Hashes .plainMd4 16) [0x61]).map
          fun signature => (signature.len, signature.index),
        index.findMatch (strongDigest md4Hashes .plainMd4 16) [0x62, 0x61],
        index.findMatch (strongDigest md4Hashes .plainMd4 16) [0x62])) =
      .ok (some 1, some (1, 0), none, none) := by decide +kernel
  rw [h] at hfound
  simp only [Except.map, Except.ok.injEq, Prod.mk.injEq, Option.map_eq_some_iff] at hfound
  obtain ⟨hfirst, ⟨signature, hsecond, hlen, hindex⟩, hthird, hfourth⟩ := hfound
  exact ⟨hfirst, ⟨signature, hsecond, hlen, hindex⟩, hthird, hfourth⟩

end Single

end RsyncWin
