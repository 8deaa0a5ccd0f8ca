import RsyncWin.Protocol.Exchange

/-!
# Stages of one side of a session

An `Exchange` speaks of a program that returns. `Reaches` speaks of one that is
in the middle of its work: from memory `m`, with payload `inp` in front of
whatever comes after, `p` comes to be `p'` in memory `m'`, has taken exactly
`inp` and has sent exactly `out`. Stages follow one another, and each is a
stretch of a run of the pair; a session is put together from the stages of
either side in turn.
-/

namespace RsyncWin

open ByteString Codec Duplex

variable {L : Sig} {σ τ α β γ δ : Type} {H : Handler L σ} {G : Handler L τ}

inductive Reaches (H : Handler L σ) :
    Party Error L α → σ → Bytes → Bytes → Party Error L α → σ → Prop where
  | refl (p : Party Error L α) (m : σ) : Reaches H p m [] [] p m
  | step {γ : Type} {q : Party Error L γ} {k : γ → Party Error L α} {p : Party Error L α}
      {m m' m'' : σ} {i j o u : Bytes} {a : γ} :
      Exchange H q m i o a m' → Reaches H (k a) m' j u p m'' →
      Reaches H (q >>= k) m (i ++ j) (o ++ u) p m''

namespace Reaches

variable {p p' p'' : Party Error L α} {m m' m'' : σ} {i j o u : Bytes}

theorem of_eq (hi : i = j) (ho : o = u) (h : Reaches H p m i o p' m') :
    Reaches H p m j u p' m' := by
  subst hi ho
  exact h

theorem trans (h : Reaches H p m i o p' m') (h' : Reaches H p' m' j u p'' m'') :
    Reaches H p m (i ++ j) (o ++ u) p'' m'' := by
  induction h with
  | refl p m => exact h'
  | step hx _ ih =>
      exact of_eq (List.append_assoc _ _ _).symm (List.append_assoc _ _ _).symm (step hx (ih h'))

/-- The rest of a program stays as it is. -/
theorem bind (h : Reaches H p m i o p' m') (k : α → Party Error L β) :
    Reaches H (p >>= k) m i o (p' >>= k) m' := by
  induction h with
  | refl p m => exact refl _ m
  | step hx _ ih =>
      rw [Prog.bind_assoc]
      exact step hx ih

theorem exchange {a : α} (h : Reaches H p m i o p' m') (hp : p' = .ret a) :
    Exchange H p m i o a m' := by
  induction h with
  | refl p m =>
      subst hp
      exact exchange_ret a m
  | step hx _ ih => exact hx.bind (ih hp)

end Reaches

theorem Exchange.reaches {q : Party Error L γ} {k : γ → Party Error L α} {m m' : σ} {i o : Bytes}
    {a : γ} (h : Exchange H q m i o a m') : Reaches H (q >>= k) m i o (k a) m' :=
  Reaches.of_eq (List.append_nil _) (List.append_nil _) (.step h (.refl _ _))

theorem Exchange.returns {p : Party Error L α} {m m' : σ} {i o : Bytes} {a : α}
    (h : Exchange H p m i o a m') : Reaches H p m i o (.ret a) m' := by
  have hr : Reaches H (p >>= fun a => .ret a) m i o (.ret a) m' := h.reaches
  rwa [Prog.bind_ret] at hr

/-- A run whose error would be a value for what comes next. -/
theorem Exchange.attempt {p : Party Error L α} {m m' : σ} {i o : Bytes} {a : α}
    (h : Exchange H p m i o a m') : Exchange H p.attempt m i o (.ok a) m' := by
  intro l rest done hl
  obtain ⟨l', sent, hrun, hl', hsent⟩ := h l rest done hl
  refine ⟨l', sent, ?_, hl', hsent⟩
  rw [Prog.run_attempt, hrun]

/-! ## Stages of the pair -/

variable {p p' : Party Error L α} {q q' : Party Error L β} {m m' : σ} {w w' : τ}

theorem At.left_reaches {c : Config muxLink L σ τ α β} {i o rest x : Bytes}
    (hc : At c p m q w (i ++ rest) x) (h : Reaches H p m i o p' m') :
    ∃ n d, Steps H G n c d ∧ At d p' m' q w rest (x ++ o) := by
  induction h generalizing c x with
  | refl p m => exact ⟨0, c, .refl c, by simpa using hc⟩
  | step hx _ ih =>
      rw [List.append_assoc] at hc
      obtain ⟨n, d, hsteps, hd⟩ := hc.left_phase (G := G) hx
      obtain ⟨n', e, hsteps', he⟩ := ih hd
      rw [List.append_assoc] at he
      exact ⟨n + n', e, hsteps.trans hsteps', he⟩

theorem At.right_reaches {c : Config muxLink L σ τ α β} {i o rest x : Bytes}
    (hc : At c p m q w x (i ++ rest)) (h : Reaches G q w i o q' w') :
    ∃ n d, Steps H G n c d ∧ At d p m q' w' (x ++ o) rest := by
  induction h generalizing c x with
  | refl q w => exact ⟨0, c, .refl c, by simpa using hc⟩
  | step hx _ ih =>
      rw [List.append_assoc] at hc
      obtain ⟨n, d, hsteps, hd⟩ := hc.right_phase (H := H) hx
      obtain ⟨n', e, hsteps', he⟩ := ih hd
      rw [List.append_assoc] at he
      exact ⟨n + n', e, hsteps.trans hsteps', he⟩

/-! ## Whole sessions -/

/-- Both programs at their beginning, nothing under way. -/
def opening (p : Party Error L α) (m : σ) (q : Party Error L β) (w : τ) :
    Config muxLink L σ τ α β :=
  ⟨p, m, q, w, {}, {}⟩

theorem at_opening (p : Party Error L α) (m : σ) (q : Party Error L β) (w : τ) :
    At (opening p m q w) p m q w [] [] :=
  ⟨rfl, rfl, rfl, rfl, carries_empty, carries_empty⟩

/-- The stages that brought the pair where it stands. -/
def Gets (H : Handler L σ) (G : Handler L τ) (c : Config muxLink L σ τ α β)
    (p : Party Error L α) (m : σ) (q : Party Error L β) (w : τ) (toLeft toRight : Bytes) : Prop :=
  ∃ n d, Steps H G n c d ∧ At d p m q w toLeft toRight

section Gets

variable {c : Config muxLink L σ τ α β}

theorem gets_opening (p : Party Error L α) (m : σ) (q : Party Error L β) (w : τ) :
    Gets H G (opening p m q w) p m q w [] [] :=
  ⟨0, _, .refl _, at_opening p m q w⟩

/-- The left side takes all that is under way to it. -/
theorem Gets.left {i o x : Bytes} (hc : Gets H G c p m q w i x) (h : Reaches H p m i o p' m') :
    Gets H G c p' m' q w [] (x ++ o) := by
  obtain ⟨n, d, hsteps, hd⟩ := hc
  obtain ⟨n', e, hsteps', he⟩ :=
    @At.left_reaches L σ τ α β H G p p' q m m' w d i o [] x (by rwa [List.append_nil]) h
  exact ⟨n + n', e, hsteps.trans hsteps', he⟩

theorem Gets.right {i o x : Bytes} (hc : Gets H G c p m q w x i) (h : Reaches G q w i o q' w') :
    Gets H G c p m q' w' (x ++ o) [] := by
  obtain ⟨n, d, hsteps, hd⟩ := hc
  obtain ⟨n', e, hsteps', he⟩ :=
    @At.right_reaches L σ τ α β H G p q q' m w w' d i o [] x (by rwa [List.append_nil]) h
  exact ⟨n + n', e, hsteps.trans hsteps', he⟩

end Gets

/-- How a session ends: both sides return and nothing is left under way; and
whatever run there is of the pair, it is the beginning of a run to this end, so
that none is longer and none gets stuck before. -/
def EndsIn (H : Handler L σ) (G : Handler L τ) (c : Config muxLink L σ τ α β) (a : α) (m : σ)
    (b : β) (w : τ) : Prop :=
  ∃ n e, At e (.ret a) m (.ret b) w [] [] ∧ Steps H G n c e ∧
    ∀ k d, Steps H G k c d → ∃ j, n = k + j ∧ Steps H G j d e

theorem Gets.endsIn {c : Config muxLink L σ τ α β} {a : α} {b : β}
    (h : Gets H G c (.ret a) m (.ret b) w [] []) : EndsIn H G c a m b w := by
  obtain ⟨n, e, hsteps, he⟩ := h
  exact ⟨n, e, he, hsteps, fun _ _ hd => hsteps.unique_end he.stuck hd⟩

end RsyncWin
