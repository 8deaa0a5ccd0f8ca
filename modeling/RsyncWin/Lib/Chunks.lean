import RsyncWin.Lib.Bytes

/-!
# Cutting a list into chunks

`chunks n l` cuts `l` into pieces of `n` elements, the last one possibly
shorter. It is structurally recursive on a counter that the length of the list
bounds, so it evaluates in the kernel.
-/

namespace ByteString

variable {α : Type}

def chunksAux (n : Nat) : Nat → List α → List (List α)
  | 0, _ => []
  | _ + 1, [] => []
  | k + 1, x :: xs => (x :: xs).take n :: chunksAux n k ((x :: xs).drop n)

def chunks (n : Nat) (l : List α) : List (List α) := chunksAux n l.length l

/-- The counter only has to bound the length. -/
theorem chunksAux_counter {n : Nat} (hn : 0 < n) : ∀ {j k : Nat} {l : List α},
    l.length ≤ j → l.length ≤ k → chunksAux n j l = chunksAux n k l := by
  intro j
  induction j with
  | zero =>
      intro k l hj _
      rw [List.length_eq_zero_iff.mp (Nat.le_zero.mp hj)]
      cases k <;> rfl
  | succ j ih =>
      intro k l hj hk
      cases l with
      | nil => cases k <;> rfl
      | cons x xs =>
          cases k with
          | zero => simp at hk
          | succ k =>
              have hd : ((x :: xs).drop n).length ≤ xs.length := by simp; omega
              simp only [List.length_cons] at hj hk
              simp only [chunksAux]
              rw [ih (k := k) (by omega) (by omega)]

@[simp] theorem chunks_nil (n : Nat) : chunks n ([] : List α) = [] := rfl

theorem chunks_of_ne_nil {n : Nat} (hn : 0 < n) {l : List α} (hl : l ≠ []) :
    chunks n l = l.take n :: chunks n (l.drop n) := by
  cases l with
  | nil => exact absurd rfl hl
  | cons x xs =>
      have hd : ((x :: xs).drop n).length ≤ xs.length := by simp; omega
      simp only [chunks, List.length_cons, chunksAux]
      rw [chunksAux_counter hn hd le_rfl]

/-- Induction along the cutting: the empty list, then one chunk at a time. -/
theorem chunks_induction {n : Nat} (hn : 0 < n) {P : List α → Prop} (hnil : P [])
    (hcons : ∀ l, l ≠ [] → P (l.drop n) → P l) : ∀ l, P l := by
  intro l
  induction h : l.length using Nat.strong_induction_on generalizing l with
  | _ m ih =>
      by_cases hl : l = []
      · rw [hl]
        exact hnil
      · have hpos : 0 < l.length := List.length_pos_iff.mpr hl
        exact hcons l hl (ih (l.drop n).length (by simp; omega) (l.drop n) rfl)

theorem flatten_chunks {n : Nat} (hn : 0 < n) (l : List α) : (chunks n l).flatten = l := by
  induction l using chunks_induction hn with
  | hnil => rfl
  | hcons l hl ih =>
      rw [chunks_of_ne_nil hn hl, List.flatten_cons, ih, List.take_append_drop]

theorem length_of_mem_chunks {n : Nat} (hn : 0 < n) {l c : List α} :
    c ∈ chunks n l → 0 < c.length ∧ c.length ≤ n := by
  induction l using chunks_induction hn with
  | hnil => simp
  | hcons l hl ih =>
      have hpos : 0 < l.length := List.length_pos_iff.mpr hl
      rw [chunks_of_ne_nil hn hl, List.mem_cons]
      rintro (rfl | h)
      · simp
        omega
      · exact ih h

/-- A list of at most `n` elements is one chunk. -/
theorem chunks_of_length_le {n : Nat} {l : List α} (hl : l ≠ []) (h : l.length ≤ n) :
    chunks n l = [l] := by
  have hn : 0 < n := by
    have := List.length_pos_iff.mpr hl
    omega
  rw [chunks_of_ne_nil hn hl, List.take_of_length_le h, List.drop_of_length_le h,
    chunks_nil]

/-- There are as many chunks as the length rounded up. -/
theorem length_chunks {n : Nat} (hn : 0 < n) (l : List α) :
    (chunks n l).length = (l.length + (n - 1)) / n := by
  induction l using chunks_induction hn with
  | hnil =>
      rw [chunks_nil, List.length_nil, List.length_nil, Nat.zero_add]
      exact (Nat.div_eq_of_lt (by omega)).symm
  | hcons l hl ih =>
      have hpos : 0 < l.length := List.length_pos_iff.mpr hl
      rw [chunks_of_ne_nil hn hl, List.length_cons, ih, List.length_drop]
      by_cases h : n ≤ l.length
      · have e : l.length + (n - 1) = (l.length - n + (n - 1)) + n := by omega
        rw [e, Nat.add_div_right _ hn]
      · have e : l.length - n = 0 := by omega
        have hone : (l.length + (n - 1)) / n = 1 :=
          Nat.div_eq_of_lt_le (by omega) (by omega)
        rw [e, Nat.zero_add, Nat.div_eq_of_lt (by omega), hone]

/-- Chunk `i` is the slice of `l` that starts at `i * n`. -/
theorem chunks_getElem? {n : Nat} (hn : 0 < n) (l : List α) (i : Nat) :
    (chunks n l)[i]? =
      if i * n < l.length then some ((l.drop (i * n)).take n) else none := by
  induction l using chunks_induction hn generalizing i with
  | hnil => simp
  | hcons l hl ih =>
      have hpos : 0 < l.length := List.length_pos_iff.mpr hl
      rw [chunks_of_ne_nil hn hl]
      cases i with
      | zero => simp [hpos]
      | succ i =>
          rw [List.getElem?_cons_succ, ih, List.length_drop, List.drop_drop]
          have e : (i + 1) * n = n + i * n := by ring
          rw [e]
          by_cases h : i * n < l.length - n
          · rw [if_pos h, if_pos (by omega)]
          · rw [if_neg h, if_neg (by omega)]

end ByteString
