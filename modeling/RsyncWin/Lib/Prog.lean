import RsyncWin.Lib.Bytes
import RsyncWin.Lib.Excepts

/-!
# Effectful programs as trees of calls

A program over a signature `S` returns, fails, or calls one operation of `S`
and goes on with the reply. What an operation does is decided by a handler on
some state; a handler may also leave a call unanswered, which is how a read
that has to wait for the peer is expressed.

`run` is the whole run, `states` every state it passes through, so that "at no
point of any run, successful or not" is a statement about `states`. The rules
for `>>=` are the ones every later proof composes.
-/

structure Sig where
  Op : Type
  Ret : Op → Type

inductive Prog (S : Sig) (ε α : Type) : Type where
  | ret (a : α)
  | fail (e : ε)
  | call (o : S.Op) (k : S.Ret o → Prog S ε α)

/-- How a run ends: with a value, with an error, or in front of a call the
handler does not answer. -/
inductive Final (ε σ α : Type) where
  | ret (a : α) (s : σ)
  | fail (e : ε) (s : σ)
  | wait (s : σ)
deriving DecidableEq

def Final.state {ε σ α : Type} : Final ε σ α → σ
  | .ret _ s => s
  | .fail _ s => s
  | .wait s => s

def Final.returned {ε σ α : Type} : Final ε σ α → Option α
  | .ret a _ => some a
  | .fail _ _ => none
  | .wait _ => none

theorem Final.eq_ret {ε σ α : Type} {f : Final ε σ α} {a : α} (h : f.returned = some a) :
    f = .ret a f.state := by
  cases f with
  | ret b s =>
      cases h
      rfl
  | fail e s => cases h
  | wait s => cases h

abbrev Handler (S : Sig) (σ : Type) := (o : S.Op) → σ → Option (S.Ret o × σ)

namespace Prog

variable {S T : Sig} {ε σ α β γ : Type}

def bind : Prog S ε α → (α → Prog S ε β) → Prog S ε β
  | .ret a, k => k a
  | .fail e, _ => .fail e
  | .call o f, k => .call o fun r => (f r).bind k

instance : Monad (Prog S ε) where
  pure := .ret
  bind := Prog.bind

def tryCatch : Prog S ε α → (ε → Prog S ε α) → Prog S ε α
  | .ret a, _ => .ret a
  | .fail e, h => h e
  | .call o f, h => .call o fun r => (f r).tryCatch h

instance : MonadExcept ε (Prog S ε) where
  throw := .fail
  tryCatch := Prog.tryCatch

/-- A run to its end, whose error is a value for what comes next. -/
def attempt : Prog S ε α → Prog S ε (Except ε α)
  | .ret a => .ret (.ok a)
  | .fail e => .ret (.error e)
  | .call o f => .call o fun r => (f r).attempt

def op (o : S.Op) : Prog S ε (S.Ret o) := .call o .ret

def ofExcept : Except ε α → Prog S ε α
  | .ok a => .ret a
  | .error e => .fail e

@[simp] theorem pure_eq (a : α) : (pure a : Prog S ε α) = .ret a := rfl
@[simp] theorem throw_eq (e : ε) : (throw e : Prog S ε α) = .fail e := rfl
@[simp] theorem ret_bind (a : α) (k : α → Prog S ε β) :
    ((.ret a : Prog S ε α) >>= k) = k a := rfl
@[simp] theorem fail_bind (e : ε) (k : α → Prog S ε β) :
    ((.fail e : Prog S ε α) >>= k) = .fail e := rfl
@[simp] theorem call_bind (o : S.Op) (f : S.Ret o → Prog S ε α)
    (k : α → Prog S ε β) :
    ((.call o f : Prog S ε α) >>= k) = .call o fun r => f r >>= k := rfl
@[simp] theorem op_bind (o : S.Op) (k : S.Ret o → Prog S ε β) :
    ((op o : Prog S ε (S.Ret o)) >>= k) = .call o k := rfl
@[simp] theorem ofExcept_ok (a : α) :
    (ofExcept (.ok a) : Prog S ε α) = .ret a := rfl
@[simp] theorem ofExcept_error (e : ε) :
    (ofExcept (.error e) : Prog S ε α) = .fail e := rfl

theorem bind_ret : ∀ p : Prog S ε α, (p >>= fun a => .ret a) = p
  | .ret _ => rfl
  | .fail _ => rfl
  | .call o f => by
      rw [call_bind]
      exact congrArg (Prog.call o) (funext fun r => bind_ret (f r))

theorem bind_assoc (p : Prog S ε α) (f : α → Prog S ε β)
    (g : β → Prog S ε γ) :
    ((p >>= f) >>= g) = p >>= fun a => f a >>= g := by
  induction p with
  | ret a => rfl
  | fail e => rfl
  | call o k ih =>
      simp only [call_bind]
      exact congrArg (Prog.call o) (funext fun r => ih r)

instance : LawfulMonad (Prog S ε) := LawfulMonad.mk' (Prog S ε)
  (fun p => bind_ret p) (fun _ _ => rfl) bind_assoc

/-! ## Runs -/

def run (H : Handler S σ) : Prog S ε α → σ → Final ε σ α
  | .ret a, s => .ret a s
  | .fail e, s => .fail e s
  | .call o k, s =>
      match H o s with
      | none => .wait s
      | some (r, s') => (k r).run H s'

@[simp] theorem run_ret (H : Handler S σ) (a : α) (s : σ) :
    (Prog.ret a : Prog S ε α).run H s = .ret a s := rfl

@[simp] theorem run_fail (H : Handler S σ) (e : ε) (s : σ) :
    (Prog.fail e : Prog S ε α).run H s = .fail e s := rfl

theorem run_call_some {H : Handler S σ} {o : S.Op} {s s' : σ} {r : S.Ret o}
    (h : H o s = some (r, s')) (k : S.Ret o → Prog S ε α) :
    (Prog.call o k).run H s = (k r).run H s' := by
  rw [run, h]

theorem run_call_none {H : Handler S σ} {o : S.Op} {s : σ}
    (h : H o s = none) (k : S.Ret o → Prog S ε α) :
    (Prog.call o k).run H s = .wait s := by
  rw [run, h]

theorem run_bind (H : Handler S σ) (p : Prog S ε α) (k : α → Prog S ε β) (s : σ) :
    (p >>= k).run H s =
      match p.run H s with
      | .ret a s' => (k a).run H s'
      | .fail e s' => .fail e s'
      | .wait s' => .wait s' := by
  induction p generalizing s with
  | ret a => rfl
  | fail e => rfl
  | call o f ih =>
      rw [call_bind, run, run]
      cases h : H o s with
      | none => rfl
      | some rs => exact ih rs.1 rs.2

theorem run_bind_ret {H : Handler S σ} {p : Prog S ε α} {s s' : σ} {a : α}
    (h : p.run H s = .ret a s') (k : α → Prog S ε β) :
    (p >>= k).run H s = (k a).run H s' := by
  rw [run_bind, h]

theorem run_bind_fail {H : Handler S σ} {p : Prog S ε α} {s s' : σ} {e : ε}
    (h : p.run H s = .fail e s') (k : α → Prog S ε β) :
    (p >>= k).run H s = .fail e s' := by
  rw [run_bind, h]

/-- A bound program returns exactly when its first part does and the rest
returns from there. -/
theorem run_bind_eq_ret {H : Handler S σ} {p : Prog S ε α} {k : α → Prog S ε β}
    {s s'' : σ} {b : β} :
    (p >>= k).run H s = .ret b s'' ↔
      ∃ a s', p.run H s = .ret a s' ∧ (k a).run H s' = .ret b s'' := by
  rw [run_bind]
  cases h : p.run H s with
  | ret a s' => simp
  | fail e s' => simp
  | wait s' => simp

/-- A bound program fails where its first part does, or where the rest fails from
what that returned. -/
theorem run_bind_eq_fail {H : Handler S σ} {p : Prog S ε α} {k : α → Prog S ε β}
    {s s'' : σ} {e : ε} :
    (p >>= k).run H s = .fail e s'' ↔
      p.run H s = .fail e s'' ∨ ∃ a s', p.run H s = .ret a s' ∧ (k a).run H s' = .fail e s'' := by
  rw [run_bind]
  cases h : p.run H s with
  | ret a s' => simp
  | fail e' s' => simp
  | wait s' => simp

/-- Two continuations that run the same from wherever the first part returns. -/
theorem run_bind_congr {H : Handler S σ} {p : Prog S ε α} {k l : α → Prog S ε β} {s : σ}
    (h : ∀ a s', p.run H s = .ret a s' → (k a).run H s' = (l a).run H s') :
    (p >>= k).run H s = (p >>= l).run H s := by
  rw [run_bind, run_bind]
  cases hp : p.run H s with
  | ret a s' => exact h a s' hp
  | fail e s' => rfl
  | wait s' => rfl

theorem run_attempt (H : Handler S σ) (p : Prog S ε α) (s : σ) :
    p.attempt.run H s =
      match p.run H s with
      | .ret a s' => .ret (.ok a) s'
      | .fail e s' => .ret (.error e) s'
      | .wait s' => .wait s' := by
  induction p generalizing s with
  | ret a => rfl
  | fail e => rfl
  | call o f ih =>
      rw [attempt, run, run]
      cases hs : H o s with
      | none => rfl
      | some rs => exact ih rs.1 rs.2

/-- A handler that answers every call makes no run wait. -/
theorem run_ne_wait {H : Handler S σ} (hH : ∀ o s, H o s ≠ none) (p : Prog S ε α) (s t : σ) :
    p.run H s ≠ .wait t := by
  induction p generalizing s with
  | ret a => simp
  | fail e => simp
  | call o k ih =>
      cases h : H o s with
      | none => exact absurd h (hH o s)
      | some rs =>
          rw [run_call_some h]
          exact ih rs.1 rs.2

/-- So a run that returns nothing fails. -/
theorem run_eq_fail {H : Handler S σ} (hH : ∀ o s, H o s ≠ none) {p : Prog S ε α} {s : σ}
    (h : (p.run H s).returned = none) : ∃ e, p.run H s = .fail e (p.run H s).state := by
  cases hp : p.run H s with
  | ret a t =>
      rw [hp] at h
      cases h
  | fail e t => exact ⟨e, rfl⟩
  | wait t => exact absurd hp (run_ne_wait hH p s t)

/-! ## Every state of a run -/

def states (H : Handler S σ) : Prog S ε α → σ → List σ
  | .ret _, s => [s]
  | .fail _, s => [s]
  | .call o k, s =>
      s :: match H o s with
        | none => []
        | some (r, s') => (k r).states H s'

/-! ## Invariants of a run

`Ensures H I p Q s`: along the run of `p` from `s` every state satisfies `I`,
and if the run returns, `Q` holds of the result. -/

def Ensures (H : Handler S σ) (I : σ → Prop) : Prog S ε α → (α → σ → Prop) → σ → Prop
  | .ret a, Q, s => I s ∧ Q a s
  | .fail _, _, s => I s
  | .call o k, Q, s => I s ∧ ∀ r s', H o s = some (r, s') → (k r).Ensures H I Q s'

section Ensures

variable {H : Handler S σ} {I : σ → Prop} {Q : α → σ → Prop} {s : σ}

theorem Ensures.always {p : Prog S ε α} (h : p.Ensures H I Q s) : ∀ t ∈ p.states H s, I t := by
  induction p generalizing s with
  | ret a =>
      intro t ht
      rw [List.mem_singleton.mp ht]
      exact h.1
  | fail e =>
      intro t ht
      rw [List.mem_singleton.mp ht]
      exact h
  | call o k ih =>
      intro t ht
      rw [states] at ht
      rcases List.mem_cons.mp ht with rfl | ht
      · exact h.1
      · cases hs : H o s with
        | none => simp [hs] at ht
        | some rs =>
            rw [hs] at ht
            exact ih rs.1 (h.2 rs.1 rs.2 hs) t ht

theorem Ensures.returns {p : Prog S ε α} (h : p.Ensures H I Q s) {a : α} {t : σ}
    (hrun : p.run H s = .ret a t) : Q a t := by
  induction p generalizing s with
  | ret b =>
      obtain ⟨rfl, rfl⟩ : b = a ∧ s = t := by simpa using hrun
      exact h.2
  | fail e => simp at hrun
  | call o k ih =>
      cases hs : H o s with
      | none => simp [run_call_none hs] at hrun
      | some rs => exact ih rs.1 (h.2 rs.1 rs.2 hs) (by rwa [run_call_some hs] at hrun)

theorem ensures_true (p : Prog S ε α) (s : σ) :
    p.Ensures H (fun _ => True) (fun _ _ => True) s := by
  induction p generalizing s with
  | ret a => exact ⟨trivial, trivial⟩
  | fail e => exact trivial
  | call o k ih => exact ⟨trivial, fun r s' _ => ih r s'⟩

theorem Ensures.start {p : Prog S ε α} (h : p.Ensures H I Q s) : I s := by
  cases p with
  | ret a => exact h.1
  | fail e => exact h
  | call o k => exact h.1

theorem Ensures.mono {p : Prog S ε α} {R : α → σ → Prop} (h : p.Ensures H I Q s)
    (hQ : ∀ a t, Q a t → R a t) : p.Ensures H I R s := by
  induction p generalizing s with
  | ret a => exact ⟨h.1, hQ a s h.2⟩
  | fail e => exact h
  | call o k ih => exact ⟨h.1, fun r s' hs => ih r (h.2 r s' hs)⟩

theorem Ensures.mono_always {p : Prog S ε α} {J : σ → Prop} (h : p.Ensures H I Q s)
    (hJ : ∀ t, I t → J t) : p.Ensures H J Q s := by
  induction p generalizing s with
  | ret a => exact ⟨hJ s h.1, h.2⟩
  | fail e => exact hJ s h
  | call o k ih => exact ⟨hJ s h.1, fun r s' hs => ih r (h.2 r s' hs)⟩

/-- Where the run returns, what holds in every state holds as well. -/
theorem Ensures.with_always {p : Prog S ε α} (h : p.Ensures H I Q s) :
    p.Ensures H I (fun _ => I) s := by
  induction p generalizing s with
  | ret a => exact ⟨h.1, h.1⟩
  | fail e => exact h
  | call o k ih => exact ⟨h.1, fun r s' hs => ih r (h.2 r s' hs)⟩

/-- What comes after may use which run led there. -/
theorem Ensures.with_run {p : Prog S ε α} (h : p.Ensures H I Q s) :
    p.Ensures H I (fun a t => Q a t ∧ p.run H s = .ret a t) s := by
  induction p generalizing s with
  | ret a => exact ⟨h.1, h.2, rfl⟩
  | fail e => exact h
  | call o k ih =>
      refine ⟨h.1, fun r s' hs => ?_⟩
      rw [run_call_some hs]
      exact ih r (h.2 r s' hs)

theorem Ensures.bind {p : Prog S ε α} {k : α → Prog S ε β} {R : β → σ → Prop}
    (h : p.Ensures H I (fun a t => (k a).Ensures H I R t) s) : (p >>= k).Ensures H I R s := by
  induction p generalizing s with
  | ret a => exact h.2
  | fail e => exact h
  | call o f ih => exact ⟨h.1, fun r s' hs => ih r (h.2 r s' hs)⟩

theorem Ensures.and {p : Prog S ε α} {J : σ → Prop} {R : α → σ → Prop} (h : p.Ensures H I Q s)
    (h' : p.Ensures H J R s) :
    p.Ensures H (fun t => I t ∧ J t) (fun a t => Q a t ∧ R a t) s := by
  induction p generalizing s with
  | ret a => exact ⟨⟨h.1, h'.1⟩, h.2, h'.2⟩
  | fail e => exact ⟨h, h'⟩
  | call o k ih => exact ⟨⟨h.1, h'.1⟩, fun r s' hs => ih r (h.2 r s' hs) (h'.2 r s' hs)⟩

theorem Ensures.attempt {p : Prog S ε α} (h : p.Ensures H I Q s) :
    p.attempt.Ensures H I (fun r t => I t ∧ ∀ a, r = .ok a → Q a t) s := by
  induction p generalizing s with
  | ret a =>
      refine ⟨h.1, h.1, ?_⟩
      rintro b hb
      rw [← Except.ok.inj hb]
      exact h.2
  | fail e => exact ⟨h, h, by simp⟩
  | call o k ih => exact ⟨h.1, fun r s' hs => ih r (h.2 r s' hs)⟩

theorem ensures_ofExcept {r : Except ε α} (hI : I s) (h : ∀ a, r = .ok a → Q a s) :
    (ofExcept r : Prog S ε α).Ensures H I Q s := by
  cases r with
  | ok a => exact ⟨hI, h a rfl⟩
  | error e => exact hI

end Ensures

/-! ## The calls of a program

`Only P p`: whatever the replies are, `p` makes no call but those of `P`. -/

def Only (P : S.Op → Prop) : Prog S ε α → Prop
  | .ret _ => True
  | .fail _ => True
  | .call o k => P o ∧ ∀ r, (k r).Only P

theorem Only.bind {P : S.Op → Prop} {p : Prog S ε α} {k : α → Prog S ε β} (h : p.Only P)
    (hk : ∀ a, (k a).Only P) : (p >>= k).Only P := by
  induction p with
  | ret a => exact hk a
  | fail e => trivial
  | call o f ih => exact ⟨h.1, fun r => ih r (h.2 r)⟩

theorem Only.mono {P Q : S.Op → Prop} {p : Prog S ε α} (h : p.Only P) (hPQ : ∀ o, P o → Q o) :
    p.Only Q := by
  induction p with
  | ret a => trivial
  | fail e => trivial
  | call o k ih => exact ⟨hPQ o h.1, fun r => ih r (h.2 r)⟩

theorem only_ofExcept (P : S.Op → Prop) (r : Except ε α) : (ofExcept r : Prog S ε α).Only P := by
  cases r with
  | ok a => trivial
  | error e => trivial

/-! ## Reading one signature in another -/

def interp (f : (o : S.Op) → Prog T ε (S.Ret o)) : Prog S ε α → Prog T ε α
  | .ret a => .ret a
  | .fail e => .fail e
  | .call o k => f o >>= fun r => (k r).interp f

@[simp] theorem interp_ret (f : (o : S.Op) → Prog T ε (S.Ret o)) (a : α) :
    (Prog.ret a : Prog S ε α).interp f = .ret a := rfl

@[simp] theorem interp_fail (f : (o : S.Op) → Prog T ε (S.Ret o)) (e : ε) :
    (Prog.fail e : Prog S ε α).interp f = .fail e := rfl

@[simp] theorem interp_call (f : (o : S.Op) → Prog T ε (S.Ret o)) (o : S.Op)
    (k : S.Ret o → Prog S ε α) :
    (Prog.call o k).interp f = f o >>= fun r => (k r).interp f := rfl

theorem interp_bind (f : (o : S.Op) → Prog T ε (S.Ret o)) (p : Prog S ε α)
    (k : α → Prog S ε β) :
    (p >>= k).interp f = p.interp f >>= fun a => (k a).interp f := by
  induction p with
  | ret a => rfl
  | fail e => rfl
  | call o g ih =>
      rw [call_bind, interp_call, interp_call, bind_assoc]
      exact congrArg (f o >>= ·) (funext fun r => ih r)

end Prog
