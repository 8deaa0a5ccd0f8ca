import RsyncWin.Protocol.Multiplex

/-!
# Runs of one side on a multiplexed stream

`Exchange H p m inp out a m'` is the specification a session proof works with:
from memory `m`, with payload `inp` in front of whatever comes after, `p`
returns `a` in memory `m'`, has taken exactly `inp` and has sent exactly `out`.
Exchanges compose along `>>=`, and each is a phase of a run of the pair.
-/

namespace RsyncWin

open ByteString Codec Duplex

variable {L : Sig} {σ τ α β γ δ : Type} {H : Handler L σ} {G : Handler L τ}

def Exchange (H : Handler L σ) (p : Party Error L α) (m : σ) (inp out : Bytes) (a : α) (m' : σ) :
    Prop :=
  ∀ (l : MuxState) (rest : Bytes) (done : List Bytes), Carries l (inp ++ rest) →
    ∃ (l' : MuxState) (sent : List Bytes),
      p.run (soloHandler muxLink H) ⟨m, l, done⟩ = .ret a ⟨m', l', done ++ sent⟩ ∧
      Carries l' rest ∧ Frames sent out

theorem exchange_ret (a : α) (m : σ) : Exchange H (.ret a) m [] [] a m := by
  intro l rest done hl
  exact ⟨l, [], by simp, hl, frames_nil⟩

theorem Exchange.bind {p : Party Error L α} {k : α → Party Error L β} {m m' m'' : σ}
    {i j o u : Bytes} {a : α} {b : β} (hp : Exchange H p m i o a m')
    (hk : Exchange H (k a) m' j u b m'') : Exchange H (p >>= k) m (i ++ j) (o ++ u) b m'' := by
  intro l rest done hl
  rw [List.append_assoc] at hl
  obtain ⟨l', sent, hrun, hl', hsent⟩ := hp l (j ++ rest) done hl
  obtain ⟨l'', sent', hrun', hl'', hsent'⟩ := hk l' rest (done ++ sent) hl'
  refine ⟨l'', sent ++ sent', ?_, hl'', hsent.append hsent'⟩
  rw [Prog.run_bind_ret hrun, hrun', List.append_assoc]

/-- The rest of a program, when it neither reads nor writes. -/
theorem Exchange.bind_ret {p : Party Error L α} {k : α → Party Error L β} {m m' : σ}
    {i o : Bytes} {a : α} {b : β} (hp : Exchange H p m i o a m') (hk : k a = .ret b) :
    Exchange H (p >>= k) m i o b m' := by
  have h : Exchange H (p >>= k) m (i ++ []) (o ++ []) b m' :=
    hp.bind (by rw [hk]; exact exchange_ret b m')
  simpa using h

/-- A first part that only works on the memory. -/
theorem Exchange.before {p : Party Error L α} {k : α → Party Error L β} {m m' m'' : σ}
    {i o : Bytes} {a : α} {b : β} (hp : Exchange H p m [] [] a m')
    (hk : Exchange H (k a) m' i o b m'') : Exchange H (p >>= k) m i o b m'' :=
  hp.bind hk

theorem Exchange.of_eq {p : Party Error L α} {m m' : σ} {i j o u : Bytes} {a : α} (hi : i = j)
    (ho : o = u) (h : Exchange H p m i o a m') : Exchange H p m j u a m' := by
  subst hi ho
  exact h

/-- A first part that only reads, in front of a rest that only reads. -/
theorem Exchange.bind_reads {p : Party Error L α} {k : α → Party Error L β} {m m' m'' : σ}
    {i j : Bytes} {a : α} {b : β} (hp : Exchange H p m i [] a m')
    (hk : Exchange H (k a) m' j [] b m'') : Exchange H (p >>= k) m (i ++ j) [] b m'' :=
  hp.bind hk

theorem exchange_loc {o : L.Op} {m m' : σ} {r : L.Ret o} (h : H o m = some (r, m')) :
    Exchange H (loc o) m [] [] r m' := by
  intro l rest done hl
  refine ⟨l, [], ?_, hl, frames_nil⟩
  rw [run_loc (K := muxLink) (s := ⟨m, l, done⟩) h, List.append_nil]

theorem exchange_send {m : σ} {f : Bytes} (h0 : 0 < f.length) (h : f.length < 2 ^ 24) :
    Exchange H (writeMultiplexDataFrame f) m [] f () m := by
  intro l rest done hl
  have hlen : ¬ f.length > 0x00ffffff := by omega
  refine ⟨l, [leBytes 4 (rsyncMultiplexDataTag * 2 ^ 24 + f.length), f], ?_, hl, ?_⟩
  · unfold writeMultiplexDataFrame
    rw [if_neg hlen, Prog.run_bind_ret (run_send _ _), run_send, List.append_assoc]
    rfl
  · refine ⟨[f], by simpa using ⟨h0, h⟩, ?_, by simp⟩
    simp [dataFrame]

/-! ## Readers and writers on the stream -/

theorem exchange_onMux {r : Reader α} {bs : Bytes} {a : α} {m : σ} (h : Decodes r bs a) :
    Exchange H (onMux r) m bs [] a m := by
  have key : ∀ (r : Reader α) (inp rest' : Bytes) (l : MuxState) (done : List Bytes),
      r.run buffer inp = .ret a rest' → Carries l inp →
      ∃ l', (onMux r : Party Error L α).run (soloHandler muxLink H) ⟨m, l, done⟩ =
        .ret a ⟨m, l', done⟩ ∧ Carries l' rest' := by
    intro r
    induction r with
    | ret b =>
        intro inp rest' l done hrun hl
        obtain ⟨rfl, rfl⟩ : b = a ∧ inp = rest' := by simpa using hrun
        exact ⟨l, rfl, hl⟩
    | fail e =>
        intro inp rest' l done hrun _
        simp at hrun
    | call n k ih =>
        intro inp rest' l done hrun hl
        obtain ⟨piece, left, rfl, hlen, hrun⟩ := run_call_ret hrun
        obtain ⟨l', hpull, hl'⟩ := hl.pull
        rw [hlen] at hpull
        obtain ⟨l'', hrun', hl''⟩ := ih piece left rest' l' done hrun hl'
        refine ⟨l'', ?_, hl''⟩
        unfold onMux
        rw [Prog.interp_call,
          Prog.run_bind_ret (run_recv (K := muxLink) (s := ⟨m, l, done⟩) hpull)]
        exact hrun'
  intro l rest done hl
  obtain ⟨l', hrun, hl'⟩ := key r (bs ++ rest) rest l done (h rest) hl
  exact ⟨l', [], by rw [hrun, List.append_nil], hl', frames_nil⟩

theorem exchange_multiplexedWrite {m : σ} (bs : Bytes) :
    Exchange H (multiplexedWrite bs) m [] bs () m := by
  have key : ∀ cs : List Bytes, (∀ c ∈ cs, 0 < c.length ∧ c.length < 2 ^ 24) →
      Exchange H (cs.forM writeMultiplexDataFrame) m [] cs.flatten () m := by
    intro cs
    induction cs with
    | nil =>
        intro _
        exact exchange_ret () m
    | cons c cs ih =>
        intro hcs
        have hc := hcs c List.mem_cons_self
        exact (exchange_send hc.1 hc.2).bind (ih fun d hd => hcs d (List.mem_cons_of_mem _ hd))
  have hpos : 0 < rsync31MuxFrameSize := by decide
  have hflat := flatten_chunks hpos bs
  have hx := key (chunks rsync31MuxFrameSize bs) fun c hc => by
    have h := length_of_mem_chunks hpos hc
    have hsize : rsync31MuxFrameSize < 2 ^ 24 := by decide
    exact ⟨h.1, by omega⟩
  rwa [hflat] at hx

theorem exchange_toMux {w : Writer α} {cs : List Bytes} {a : α} {m : σ} (h : Writes w cs a) :
    Exchange H (toMux w) m [] cs.flatten a m := by
  have key : ∀ (w : Writer α) (acc acc' : List Bytes), w.run calls acc = .ret a acc' →
      ∃ ds, acc' = acc ++ ds ∧ Exchange H (toMux w) m [] ds.flatten a m := by
    intro w
    induction w with
    | ret b =>
        intro acc acc' hrun
        obtain ⟨rfl, rfl⟩ : b = a ∧ acc = acc' := by simpa using hrun
        exact ⟨[], by simp, exchange_ret b m⟩
    | fail e =>
        intro acc acc' hrun
        simp at hrun
    | call bs k ih =>
        intro acc acc' hrun
        obtain ⟨ds, rfl, hx⟩ := ih () (acc ++ [bs]) acc' hrun
        exact ⟨bs :: ds, by simp, (exchange_multiplexedWrite bs).bind hx⟩
  obtain ⟨ds, hds, hx⟩ := key w [] cs (by simpa using h [])
  rw [List.nil_append] at hds
  rwa [hds]

/-! ## Phases of a pair -/

/-- Where the pair stands: both programs, both memories and the payloads under
way. -/
structure At (c : Config muxLink L σ τ α β) (p : Party Error L α) (m : σ) (q : Party Error L β)
    (w : τ) (toLeft toRight : Bytes) : Prop where
  left : c.left = p
  leftMem : c.leftMem = m
  right : c.right = q
  rightMem : c.rightMem = w
  toLeft : Carries c.toLeft toLeft
  toRight : Carries c.toRight toRight

theorem At.left_phase {c : Config muxLink L σ τ α β} {p : Party Error L γ}
    {k : γ → Party Error L α} {q : Party Error L β} {m m' : σ} {w : τ} {i o rest x : Bytes} {a : γ}
    (hc : At c (p >>= k) m q w (i ++ rest) x) (hx : Exchange H p m i o a m') :
    ∃ n d, Steps H G n c d ∧ At d (k a) m' q w rest (x ++ o) := by
  obtain ⟨l', sent, hrun, hl', hsent⟩ := hx c.toLeft rest [] hc.toLeft
  rw [← hc.leftMem] at hrun
  obtain ⟨n, out, hout, hsteps⟩ := leftSteps_of_solo (G := G) p k hrun hc.left
  obtain rfl : sent = out := by simpa using hout
  exact ⟨n, _, hsteps, ⟨rfl, rfl, hc.right, hc.rightMem, hl', hc.toRight.pushes hsent⟩⟩

theorem At.right_phase {c : Config muxLink L σ τ α β} {p : Party Error L α}
    {q : Party Error L γ} {k : γ → Party Error L β} {m : σ} {w w' : τ} {i o rest x : Bytes} {b : γ}
    (hc : At c p m (q >>= k) w x (i ++ rest)) (hx : Exchange G q w i o b w') :
    ∃ n d, Steps H G n c d ∧ At d p m (k b) w' (x ++ o) rest := by
  obtain ⟨l', sent, hrun, hl', hsent⟩ := hx c.toRight rest [] hc.toRight
  rw [← hc.rightMem] at hrun
  obtain ⟨n, out, hout, hsteps⟩ := rightSteps_of_solo (H := H) q k hrun hc.right
  obtain rfl : sent = out := by simpa using hout
  exact ⟨n, _, hsteps, ⟨hc.left, hc.leftMem, rfl, rfl, hc.toLeft.pushes hsent, hl'⟩⟩

/-- The end of a session: both sides have returned. -/
theorem At.stuck {c : Config muxLink L σ τ α β} {a : α} {b : β} {m : σ} {w : τ} {x y : Bytes}
    (hc : At c (.ret a) m (.ret b) w x y) : Stuck H G c := by
  unfold Stuck
  rw [hc.left, hc.right]
  exact ⟨rfl, rfl⟩

end RsyncWin
