import Mathlib.Data.Set.Basic
import Mathlib.Order.BooleanAlgebra.Set

/-!
# Words as sets of bits

The bits that are on make a word a set of numbers, and its operations those of sets. On
any Boolean algebra, three ways to change a value by one computed from it (add that, remove
that, assign it within a region) do nothing the second time, each under its condition on what
is computed.
-/

namespace Masks

section Words

variable {w : Nat} {a b mask : BitVec w} {i : Nat}

/-- The positions of the bits that are on. -/
def on (b : BitVec w) : Set Nat := {i | b.getLsbD i = true}

theorem mem_on : i ∈ on b ↔ b.getLsbD i = true := Iff.rfl

theorem lt_of_mem_on (h : i ∈ on b) : i < w := BitVec.lt_of_getLsbD h

theorem on_injective : Function.Injective (on : BitVec w → Set Nat) := by
  intro a b h
  refine BitVec.eq_of_getLsbD_eq fun i _ => ?_
  have hi : i ∈ on a ↔ i ∈ on b := by rw [h]
  exact Bool.eq_iff_iff.mpr hi

@[simp] theorem on_zero : on (0#w) = ∅ := by
  ext i
  simp [on]

@[simp] theorem on_or : on (a ||| b) = on a ∪ on b := by
  ext i
  simp [on]

@[simp] theorem on_and : on (a &&& b) = on a ∩ on b := by
  ext i
  simp [on]

@[simp] theorem on_and_not : on (a &&& ~~~b) = on a \ on b := by
  ext i
  rw [Set.mem_sdiff, mem_on, mem_on, mem_on]
  simp only [BitVec.getLsbD_and, BitVec.getLsbD_not, Bool.and_eq_true, decide_eq_true_eq,
    Bool.not_eq_true', Bool.not_eq_true]
  constructor
  · rintro ⟨ha, -, hb⟩
    exact ⟨ha, hb⟩
  · rintro ⟨ha, hb⟩
    exact ⟨ha, BitVec.lt_of_getLsbD ha, hb⟩

theorem ne_zero_iff : b ≠ 0#w ↔ (on b).Nonempty := by
  rw [Set.nonempty_iff_ne_empty, ← on_zero, on_injective.ne_iff]

/-- The bits of a fixed mask, counted out. -/
theorem mem_on_mask (mask : BitVec w) (positions : List Nat)
    (h : (List.range w).filter mask.getLsbD = positions) : i ∈ on mask ↔ i ∈ positions := by
  rw [← h, List.mem_filter, List.mem_range]
  exact ⟨fun hi => ⟨lt_of_mem_on hi, hi⟩, And.right⟩

theorem mem_on_ushiftRight {s : Nat} : i ∈ on (b >>> s) ↔ s + i ∈ on b := by
  simp [on]

theorem mem_on_shiftLeft {s : Nat} : i ∈ on (b <<< s) ↔ i < w ∧ s ≤ i ∧ i - s ∈ on b := by
  simp [on, and_assoc]

/-- The bits under a mask, replaced. -/
theorem replaced_and (old : BitVec w) {new : BitVec w} (h : on new ⊆ on mask) :
    ((old &&& ~~~mask) ||| new) &&& mask = new := by
  apply on_injective
  rw [on_and, on_or, on_and_not, Set.union_inter_distrib_right, Set.sdiff_inter_self,
    Set.empty_union, Set.inter_eq_left.mpr h]

theorem replaced_and_not (old : BitVec w) {new : BitVec w} (h : on new ⊆ on mask) :
    ((old &&& ~~~mask) ||| new) &&& ~~~mask = old &&& ~~~mask := by
  apply on_injective
  rw [on_and_not, on_or, on_and_not, Set.union_sdiff_distrib, sdiff_idem,
    Set.sdiff_eq_empty.mpr h, Set.union_empty]

/-- `if flag { bits |= mask }`. -/
def orIf (flag : Bool) (mask bits : BitVec w) : BitVec w := if flag then bits ||| mask else bits

@[simp] theorem mem_on_orIf {flag : Bool} :
    i ∈ on (orIf flag mask b) ↔ i ∈ on b ∨ flag = true ∧ i ∈ on mask := by
  cases flag with
  | false => simp [orIf]
  | true => simp [orIf]

end Words

section Twice

variable {α : Type*} [GeneralizedBooleanAlgebra α] {r : α → α} {p region : α}

theorem add_twice (h : r (p ⊔ r p) ≤ r p) : (p ⊔ r p) ⊔ r (p ⊔ r p) = p ⊔ r p :=
  sup_eq_left.mpr (h.trans le_sup_right)

/-- What is left meets nothing of what was removed, so nothing of less. -/
theorem remove_twice (h : r (p \ r p) ≤ r p) : (p \ r p) \ r (p \ r p) = p \ r p :=
  (disjoint_sdiff_self_left.mono_right h).sdiff_eq_left

theorem assign_twice (h : r (p \ region ⊔ r p) = r p) :
    (p \ region ⊔ r p) \ region ⊔ r (p \ region ⊔ r p) = p \ region ⊔ r p := by
  rw [h, sup_sdiff, sdiff_idem, sup_assoc, sup_eq_right.mpr sdiff_le]

end Twice

end Masks
