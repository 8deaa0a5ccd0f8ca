import RsyncWin.Lib.Prog

/-!
# Two parties over a pair of FIFO links

Each party is a program that receives bytes, sends bytes and calls local
operations. A link decides what a receive takes off it; the one law asked of it
is that bytes sent later do not change a receive that can already be answered.
That law makes the two parties' steps commute, so the interleaving is
immaterial: if one run ends, every run ends, after as many steps and in the
same configuration (`Steps.unique_end`).

`Solo` is one party alone in front of a filled inbox. A solo run is a run of
the pair in which the other party stands still (`leftSteps_of_solo`), which is
how phases of a session are proved one side at a time.
-/

namespace Duplex

open ByteString

/-- A link: what sending does to it, and what a receive of `n` bytes gets. A
receive that has to wait is `none`; an answered one may carry an error. -/
structure Link (ε : Type) where
  State : Type
  push : State → Bytes → State
  pull : Nat → State → Option (Except ε Bytes × State)
  pull_push : ∀ {n : Nat} {l l' : State} {r : Except ε Bytes} (b : Bytes),
    pull n l = some (r, l') → pull n (push l b) = some (r, push l' b)

/-- A link that keeps what was received from it. -/
def Link.logged {ε : Type} (K : Link ε) : Link ε where
  State := K.State × List Bytes
  push l b := (K.push l.1 b, l.2)
  pull n l := (K.pull n l.1).map fun r =>
    (r.1, r.2, match r.1 with
      | .ok bs => l.2 ++ [bs]
      | .error _ => l.2)
  pull_push := by
    intro n l l' r b h
    cases hp : K.pull n l.1 with
    | none => simp [hp] at h
    | some q =>
        rw [hp, Option.map_some, Option.some.injEq, Prod.mk.injEq] at h
        obtain ⟨rfl, rfl⟩ := h
        simp [K.pull_push b hp]

inductive Op (L : Sig) where
  | recv (n : Nat)
  | send (bs : Bytes)
  | loc (o : L.Op)

abbrev Ret (ε : Type) (L : Sig) : Op L → Type
  | .recv _ => Except ε Bytes
  | .send _ => Unit
  | .loc o => L.Ret o

abbrev sig (ε : Type) (L : Sig) : Sig := ⟨Op L, Ret ε L⟩

abbrev Party (ε : Type) (L : Sig) (α : Type) := Prog (sig ε L) ε α

variable {ε : Type} {L : Sig} {σ τ α β : Type}

/-- Receive `n` bytes, failing with the link's error if it has one. -/
def recv (n : Nat) : Party ε L Bytes :=
  .call (.recv n) fun r => Prog.ofExcept r

def send (bs : Bytes) : Party ε L Unit := .call (.send bs) .ret

def loc (o : L.Op) : Party ε L (L.Ret o) := .call (.loc o) .ret

/-! ## One party alone -/

structure Solo (K : Link ε) (σ : Type) where
  mem : σ
  inbox : K.State
  sent : List Bytes

def soloHandler (K : Link ε) (H : Handler L σ) : Handler (sig ε L) (Solo K σ)
  | .recv n, s => (K.pull n s.inbox).map fun r => (r.1, { s with inbox := r.2 })
  | .send bs, s => some ((), { s with sent := s.sent ++ [bs] })
  | .loc o, s => (H o s.mem).map fun r => (r.1, { s with mem := r.2 })

section SoloRuns

variable {K : Link ε} {H : Handler L σ}

theorem run_recv {n : Nat} {s : Solo K σ} {bs : Bytes} {l : K.State}
    (h : K.pull n s.inbox = some (.ok bs, l)) :
    (recv n : Party ε L Bytes).run (soloHandler K H) s =
      .ret bs { s with inbox := l } := by
  have hh : soloHandler K H (.recv n) s = some (.ok bs, { s with inbox := l }) := by
    simp [soloHandler, h]
  unfold recv
  rw [Prog.run_call_some hh]
  rfl

/-- A read that came back was answered. -/
theorem pull_of_run_recv {n : Nat} {s s' : Solo K σ} {bs : Bytes}
    (h : (recv n : Party ε L Bytes).run (soloHandler K H) s = .ret bs s') :
    ∃ l, K.pull n s.inbox = some (.ok bs, l) ∧ s' = { s with inbox := l } := by
  cases hpull : K.pull n s.inbox with
  | none =>
      have hh : soloHandler K H (.recv n) s = none := by simp [soloHandler, hpull]
      unfold recv at h
      rw [Prog.run_call_none hh] at h
      cases h
  | some answer =>
      obtain ⟨r, l⟩ := answer
      have hh : soloHandler K H (.recv n) s = some (r, { s with inbox := l }) := by
        simp [soloHandler, hpull]
      unfold recv at h
      rw [Prog.run_call_some hh] at h
      cases r with
      | error e => cases h
      | ok bytes =>
          cases h
          exact ⟨l, rfl, rfl⟩

theorem run_send (bs : Bytes) (s : Solo K σ) :
    (send bs : Party ε L Unit).run (soloHandler K H) s =
      .ret () { s with sent := s.sent ++ [bs] } := rfl

theorem run_loc {o : L.Op} {s : Solo K σ} {r : L.Ret o} {m : σ}
    (h : H o s.mem = some (r, m)) :
    (loc o : Party ε L (L.Ret o)).run (soloHandler K H) s =
      .ret r { s with mem := m } := by
  have hh : soloHandler K H (.loc o) s = some (r, { s with mem := m }) := by
    simp [soloHandler, h]
  unfold loc
  rw [Prog.run_call_some hh]
  rfl

theorem ensures_recv {I : Solo K σ → Prop} {Q : Bytes → Solo K σ → Prop} {n : Nat}
    {s : Solo K σ} (hI : I s)
    (h : ∀ r l, K.pull n s.inbox = some (r, l) → I { s with inbox := l } ∧
      ∀ bs, r = .ok bs → Q bs { s with inbox := l }) :
    (recv n : Party ε L Bytes).Ensures (soloHandler K H) I Q s := by
  refine ⟨hI, ?_⟩
  intro r s' hs
  obtain ⟨q, hq, hrs⟩ := Option.map_eq_some_iff.mp hs
  obtain ⟨rfl, rfl⟩ := Prod.mk.inj hrs
  obtain ⟨hI', hQ⟩ := h q.1 q.2 hq
  exact Prog.ensures_ofExcept hI' hQ

theorem ensures_loc {I : Solo K σ → Prop} {o : L.Op} {Q : L.Ret o → Solo K σ → Prop}
    {s : Solo K σ} (hI : I s)
    (h : ∀ r m, H o s.mem = some (r, m) → I { s with mem := m } ∧ Q r { s with mem := m }) :
    (loc o : Party ε L (L.Ret o)).Ensures (soloHandler K H) I Q s := by
  refine ⟨hI, ?_⟩
  intro r s' hs
  obtain ⟨q, hq, hrs⟩ := Option.map_eq_some_iff.mp hs
  obtain ⟨rfl, rfl⟩ := Prod.mk.inj hrs
  exact h q.1 q.2 hq

end SoloRuns

/-! ## One move of one party -/

/-- Sending a list of buffers, in order. -/
def pushes {K : Link ε} (l : K.State) (bss : List Bytes) : K.State := bss.foldl K.push l

section Move

variable {K : Link ε}

@[simp] theorem pushes_nil (l : K.State) : pushes l [] = l := rfl

theorem pushes_append (l : K.State) (xs ys : List Bytes) :
    pushes l (xs ++ ys) = pushes (pushes l xs) ys := List.foldl_append

theorem pull_pushes {n : Nat} {l l' : K.State} {r : Except ε Bytes}
    (h : K.pull n l = some (r, l')) (bss : List Bytes) :
    K.pull n (pushes l bss) = some (r, pushes l' bss) := by
  induction bss generalizing l l' with
  | nil => exact h
  | cons b bss ih => exact ih (K.pull_push b h)

/-- What one call does: the party afterwards, and the buffers it sent. -/
structure Moved (K : Link ε) (L : Sig) (σ α : Type) where
  prog : Party ε L α
  mem : σ
  inbox : K.State
  sent : List Bytes

def move (H : Handler L σ) (p : Party ε L α) (m : σ) (l : K.State) :
    Option (Moved K L σ α) :=
  match p with
  | .ret _ => none
  | .fail _ => none
  | .call (.recv n) k => (K.pull n l).map fun r => ⟨k r.1, m, r.2, []⟩
  | .call (.send bs) k => some ⟨k (), m, l, [bs]⟩
  | .call (.loc o) k => (H o m).map fun r => ⟨k r.1, r.2, l, []⟩

/-- A move that is possible stays possible, and does the same, after the other
side has sent more. -/
theorem move_pushes {H : Handler L σ} {p : Party ε L α} {m : σ} {l : K.State}
    {v : Moved K L σ α} (h : move H p m l = some v) (bss : List Bytes) :
    move H p m (pushes l bss) = some { v with inbox := pushes v.inbox bss } := by
  cases p with
  | ret a => simp [move] at h
  | fail e => simp [move] at h
  | call o k =>
      cases o with
      | recv n =>
          cases hp : K.pull n l with
          | none => simp [move, hp] at h
          | some r =>
              obtain rfl : _ = v := by simpa [move, hp] using h
              simp [move, pull_pushes hp bss]
      | send bs =>
          obtain rfl : _ = v := by simpa [move] using h
          rfl
      | loc o =>
          cases hp : H o m with
          | none => simp [move, hp] at h
          | some r =>
              obtain rfl : _ = v := by simpa [move, hp] using h
              simp [move, hp]

/-- A solo run that returns is either over or starts with a move. -/
theorem solo_cases {γ : Type} {H : Handler L σ} {p : Party ε L γ} {s t : Solo K σ} {a : γ}
    (h : p.run (soloHandler K H) s = .ret a t) :
    (p = .ret a ∧ t = s) ∨
      ∃ o f v, p = .call o f ∧ move H p s.mem s.inbox = some v ∧ (∃ r, v.prog = f r) ∧
        v.prog.run (soloHandler K H) ⟨v.mem, v.inbox, s.sent ++ v.sent⟩ = .ret a t := by
  cases p with
  | ret b =>
      left
      obtain ⟨rfl, rfl⟩ : b = a ∧ s = t := by simpa using h
      exact ⟨rfl, rfl⟩
  | fail e => simp at h
  | call o f =>
      right
      cases o with
      | recv n =>
          cases hp : K.pull n s.inbox with
          | none => simp [Prog.run, soloHandler, hp] at h
          | some r =>
              refine ⟨_, f, ⟨f r.1, s.mem, r.2, []⟩, rfl, by simp [move, hp], ⟨r.1, rfl⟩, ?_⟩
              simpa [Prog.run, soloHandler, hp] using h
      | send bs =>
          refine ⟨_, f, ⟨f (), s.mem, s.inbox, [bs]⟩, rfl, rfl, ⟨(), rfl⟩, ?_⟩
          simpa [Prog.run, soloHandler] using h
      | loc o =>
          cases hp : H o s.mem with
          | none => simp [Prog.run, soloHandler, hp] at h
          | some r =>
              refine ⟨_, f, ⟨f r.1, r.2, s.inbox, []⟩, rfl, by simp [move, hp], ⟨r.1, rfl⟩, ?_⟩
              simpa [Prog.run, soloHandler, hp] using h

/-- What comes after a program does not change its moves. -/
theorem move_bind {γ : Type} {H : Handler L σ} {p : Party ε L γ} {m : σ} {l : K.State}
    {v : Moved K L σ γ} (h : move H p m l = some v) (k : γ → Party ε L α) :
    move H (p >>= k) m l = some ⟨v.prog >>= k, v.mem, v.inbox, v.sent⟩ := by
  cases p with
  | ret a => simp [move] at h
  | fail e => simp [move] at h
  | call o f =>
      cases o with
      | recv n =>
          cases hp : K.pull n l with
          | none => simp [move, hp] at h
          | some r =>
              obtain rfl : _ = v := by simpa [move, hp] using h
              simp [move, hp]
      | send bs =>
          obtain rfl : _ = v := by simpa [move] using h
          rfl
      | loc o =>
          cases hp : H o m with
          | none => simp [move, hp] at h
          | some r =>
              obtain rfl : _ = v := by simpa [move, hp] using h
              simp [move, hp]

end Move

/-! ## The pair -/

/-- Both parties, their local memories and the two links. -/
structure Config (K : Link ε) (L : Sig) (σ τ α β : Type) where
  left : Party ε L α
  leftMem : σ
  right : Party ε L β
  rightMem : τ
  toRight : K.State
  toLeft : K.State

variable {K : Link ε}

def Config.afterLeft (c : Config K L σ τ α β) (v : Moved K L σ α) : Config K L σ τ α β :=
  { c with
    left := v.prog, leftMem := v.mem, toLeft := v.inbox, toRight := pushes c.toRight v.sent }

def Config.afterRight (c : Config K L σ τ α β) (v : Moved K L τ β) : Config K L σ τ α β :=
  { c with
    right := v.prog, rightMem := v.mem, toRight := v.inbox, toLeft := pushes c.toLeft v.sent }

variable (H : Handler L σ) (G : Handler L τ)

/-- One step of the pair: either party moves. -/
inductive Step (c : Config K L σ τ α β) : Config K L σ τ α β → Prop where
  | left {v} : move H c.left c.leftMem c.toLeft = some v → Step c (c.afterLeft v)
  | right {v} : move G c.right c.rightMem c.toRight = some v → Step c (c.afterRight v)

/-- No party can move. -/
def Stuck (c : Config K L σ τ α β) : Prop :=
  move H c.left c.leftMem c.toLeft = none ∧ move G c.right c.rightMem c.toRight = none

inductive Steps : Nat → Config K L σ τ α β → Config K L σ τ α β → Prop where
  | refl (c) : Steps 0 c c
  | head {n c d e} : Step H G c d → Steps n d e → Steps (n + 1) c e

variable {H G}

theorem Steps.trans {m n : Nat} {c d e : Config K L σ τ α β}
    (h₁ : Steps H G m c d) (h₂ : Steps H G n d e) : Steps H G (m + n) c e := by
  induction h₁ with
  | refl c => simpa using h₂
  | @head k c d' d hs _ ih =>
      have h := Steps.head hs (ih h₂)
      rwa [Nat.add_right_comm] at h

/-- The two parties' moves commute: a send only appends to the link the other
reads from. -/
theorem step_commute {c : Config K L σ τ α β} {v : Moved K L σ α} {w : Moved K L τ β}
    (hl : move H c.left c.leftMem c.toLeft = some v)
    (hr : move G c.right c.rightMem c.toRight = some w) :
    ∃ f, Step H G (c.afterLeft v) f ∧ Step H G (c.afterRight w) f := by
  have hr' : move G (c.afterLeft v).right (c.afterLeft v).rightMem (c.afterLeft v).toRight =
      some { w with inbox := pushes w.inbox v.sent } := move_pushes hr v.sent
  have hl' : move H (c.afterRight w).left (c.afterRight w).leftMem (c.afterRight w).toLeft =
      some { v with inbox := pushes v.inbox w.sent } := move_pushes hl w.sent
  exact ⟨_, Step.right hr', Step.left hl'⟩

/-- A first step can always be put in front of a run that ends. -/
theorem Steps.strip {n : Nat} {c d e : Config K L σ τ α β}
    (h : Steps H G n c e) (he : Stuck H G e) (hs : Step H G c d) :
    ∃ m, n = m + 1 ∧ Steps H G m d e := by
  induction n generalizing c d with
  | zero =>
      cases h with
      | refl =>
          cases hs with
          | left h => simp [he.1] at h
          | right h => simp [he.2] at h
  | succ n ih =>
      cases h with
      | @head _ _ d' _ hs' hrest =>
          refine ⟨n, rfl, ?_⟩
          have same : d' = d ∨ ∃ f, Step H G d' f ∧ Step H G d f := by
            cases hs with
            | left h =>
                cases hs' with
                | left h' =>
                    obtain rfl := Option.some.inj (h'.symm.trans h)
                    exact Or.inl rfl
                | right h' =>
                    obtain ⟨f, h1, h2⟩ := step_commute h h'
                    exact Or.inr ⟨f, h2, h1⟩
            | right h =>
                cases hs' with
                | left h' =>
                    obtain ⟨f, h1, h2⟩ := step_commute h' h
                    exact Or.inr ⟨f, h1, h2⟩
                | right h' =>
                    obtain rfl := Option.some.inj (h'.symm.trans h)
                    exact Or.inl rfl
          rcases same with rfl | ⟨f, hf', hf⟩
          · exact hrest
          · obtain ⟨m, rfl, hm⟩ := ih hrest hf'
            exact Steps.head hf hm

/-- **The interleaving is immaterial.** If one run ends, every run from the
same start is a beginning of a run to the same end, and none is longer. -/
theorem Steps.unique_end {n k : Nat} {c d e : Config K L σ τ α β}
    (h : Steps H G n c e) (he : Stuck H G e) (hd : Steps H G k c d) :
    ∃ m, n = k + m ∧ Steps H G m d e := by
  induction hd generalizing n with
  | refl c => exact ⟨n, by simp, h⟩
  | @head k c d' d hs _ ih =>
      obtain ⟨m, rfl, hm⟩ := h.strip he hs
      obtain ⟨j, rfl, hj⟩ := ih hm
      exact ⟨j, by omega, hj⟩

/-! ## A solo run is a run of the pair -/

/-- What the left party does alone, it can do in the pair, whatever comes after
in its program. -/
theorem leftSteps_of_solo {γ : Type} (p : Party ε L γ) (k : γ → Party ε L α)
    {c : Config K L σ τ α β} {a : γ} {s : Solo K σ} {done : List Bytes}
    (hrun : p.run (soloHandler K H) ⟨c.leftMem, c.toLeft, done⟩ = .ret a s)
    (hc : c.left = p >>= k) :
    ∃ n out, s.sent = done ++ out ∧
      Steps H G n c (c.afterLeft ⟨k a, s.mem, s.inbox, out⟩) := by
  induction p generalizing c done with
  | fail e => simp at hrun
  | ret b =>
      obtain ⟨rfl, rfl⟩ : b = a ∧ _ = s := by simpa using hrun
      refine ⟨0, [], by simp, ?_⟩
      obtain ⟨left, leftMem, right, rightMem, toRight, toLeft⟩ := c
      simp only at hc
      subst hc
      exact Steps.refl _
  | call o f ih =>
      rcases solo_cases hrun with ⟨h, -⟩ | ⟨o', f', v, hp, hmove, ⟨r, hr⟩, hrun'⟩
      · cases h
      · cases hp
        have hm := move_bind hmove k
        rw [← hc] at hm
        rw [hr] at hrun'
        have hsteps := ih r (c := c.afterLeft ⟨v.prog >>= k, v.mem, v.inbox, v.sent⟩) hrun'
          (by rw [Config.afterLeft, hr])
        obtain ⟨n, out, hsent, hn⟩ := hsteps
        refine ⟨n + 1, v.sent ++ out, by rw [hsent, List.append_assoc], ?_⟩
        have hfin := Steps.head (Step.left hm) hn
        simpa [Config.afterLeft, pushes_append] using hfin

/-- The pair seen from the other side. -/
def Config.swap (c : Config K L σ τ α β) : Config K L τ σ β α :=
  ⟨c.right, c.rightMem, c.left, c.leftMem, c.toLeft, c.toRight⟩

theorem Steps.swap {n : Nat} {c d : Config K L σ τ α β} (h : Steps H G n c d) :
    Steps G H n c.swap d.swap := by
  induction h with
  | refl c => exact Steps.refl _
  | head hs _ ih =>
      refine Steps.head ?_ ih
      cases hs with
      | left h => exact Step.right h
      | right h => exact Step.left h

/-- The mirror image of `leftSteps_of_solo`. -/
theorem rightSteps_of_solo {γ : Type} (p : Party ε L γ) (k : γ → Party ε L β)
    {c : Config K L σ τ α β} {a : γ} {s : Solo K τ} {done : List Bytes}
    (hrun : p.run (soloHandler K G) ⟨c.rightMem, c.toRight, done⟩ = .ret a s)
    (hc : c.right = p >>= k) :
    ∃ n out, s.sent = done ++ out ∧
      Steps H G n c (c.afterRight ⟨k a, s.mem, s.inbox, out⟩) := by
  obtain ⟨n, out, hsent, hsteps⟩ := leftSteps_of_solo (G := H) p k (c := c.swap) hrun hc
  exact ⟨n, out, hsent, hsteps.swap⟩

end Duplex
