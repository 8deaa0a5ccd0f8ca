import Std.Data.HashMap.Lemmas

/-!
# Computations that share a table of results

A computation may look up what it computed before and may fail to come to an end. As
long as the table only holds values of one function, sharing it changes no result.
-/

namespace MemoTable

variable {κ β α γ : Type} [BEq κ] [Hashable κ]

/-- A computation over a table; `none` is one that does not end. -/
abbrev MemoM (κ β : Type) [BEq κ] [Hashable κ] := StateT (Std.HashMap κ β) Option

def diverge : MemoM κ β α := fun _ => none

/-- The result for `key`, computed at most once. -/
def memoised (key : κ) (compute : MemoM κ β β) : MemoM κ β β := fun memo =>
  match memo[key]? with
  | some result => some (result, memo)
  | none => (compute memo).map fun (result, memo) => (result, memo.insert key result)

/-- The table holds nothing but values of `f`. -/
def Remembers (f : κ → β) (memo : Std.HashMap κ β) : Prop :=
  ∀ key result, memo[key]? = some result → result = f key

/-- Whatever the table remembers of `f`, the computation ends with `a`. -/
def Answers (f : κ → β) (x : MemoM κ β α) (a : α) : Prop :=
  ∀ memo, Remembers f memo → ∃ memo', x memo = some (a, memo') ∧ Remembers f memo'

variable {f : κ → β}

theorem remembers_empty [EquivBEq κ] [LawfulHashable κ] : Remembers f (∅ : Std.HashMap κ β) := by
  intro key result h
  rw [Std.HashMap.getElem?_empty] at h
  cases h

theorem Remembers.insert [LawfulBEq κ] {memo : Std.HashMap κ β} (h : Remembers f memo) (key : κ) :
    Remembers f (memo.insert key (f key)) := by
  intro key' result hget
  rw [Std.HashMap.getElem?_insert] at hget
  split at hget
  · rename_i heq
    rw [← Option.some.inj hget, eq_of_beq heq]
  · exact h key' result hget

theorem answers_pure (a : α) : Answers f (pure a) a := fun memo h => ⟨memo, rfl, h⟩

theorem Answers.bind {x : MemoM κ β α} {k : α → MemoM κ β γ} {a : α} {c : γ}
    (hx : Answers f x a) (hk : Answers f (k a) c) : Answers f (x >>= k) c := by
  intro memo h
  obtain ⟨memo₁, hrun₁, h₁⟩ := hx memo h
  obtain ⟨memo₂, hrun₂, h₂⟩ := hk memo₁ h₁
  refine ⟨memo₂, ?_, h₂⟩
  show (x memo).bind (fun r => k r.1 r.2) = _
  rw [hrun₁]
  exact hrun₂

theorem answers_memoised [LawfulBEq κ] {key : κ} {compute : MemoM κ β β}
    (h : Answers f compute (f key)) : Answers f (memoised key compute) (f key) := by
  intro memo hmemo
  unfold memoised
  cases hget : memo[key]? with
  | some result =>
      rw [hmemo key result hget]
      exact ⟨memo, rfl, hmemo⟩
  | none =>
      obtain ⟨memo', hrun, hmemo'⟩ := h memo hmemo
      refine ⟨memo'.insert key (f key), ?_, hmemo'.insert key⟩
      rw [hrun]
      rfl

/-- `&&` and `||` skip what they need not know. -/
theorem answers_and {x : MemoM κ β Bool} {b : Bool} (c : Bool) (h : c = true → Answers f x b) :
    Answers f (if c then x else pure false) (c && b) := by
  cases c with
  | true => exact h rfl
  | false => exact answers_pure false

theorem answers_or {x y : MemoM κ β Bool} {a b : Bool} (hx : Answers f x a)
    (hy : Answers f y b) : Answers f (do if ← x then pure true else y) (a || b) := by
  refine hx.bind ?_
  cases a with
  | true => exact answers_pure true
  | false => exact hy

end MemoTable
