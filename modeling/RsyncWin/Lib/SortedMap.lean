import Mathlib.Data.List.Perm.Basic

/-!
# Maps kept in the order of their keys

A `BTreeMap` as the list of its entries. Inserting at a key that is there
replaces the value and keeps the key.
-/

namespace SortedMap

variable {κ ν : Type} {cmp : κ → κ → Ordering}

def insert (cmp : κ → κ → Ordering) (key : κ) (value : ν) : List (κ × ν) → List (κ × ν)
  | [] => [(key, value)]
  | entry :: map =>
      match cmp key entry.1 with
      | .lt => (key, value) :: entry :: map
      | .eq => (entry.1, value) :: map
      | .gt => entry :: insert cmp key value map

/-- A key that is not there yet is added, and nothing else changes. -/
theorem insert_perm {key : κ} {value : ν} : ∀ {map : List (κ × ν)},
    (∀ entry ∈ map, cmp key entry.1 ≠ .eq) →
      (insert cmp key value map).Perm ((key, value) :: map)
  | [], _ => List.Perm.refl _
  | entry :: map, h => by
      have hentry := h entry (by simp)
      rw [insert]
      cases hcmp : cmp key entry.1 with
      | lt => exact List.Perm.refl _
      | eq => exact absurd hcmp hentry
      | gt =>
          have hrest : ∀ e ∈ map, cmp key e.1 ≠ .eq := fun e he => h e (List.mem_cons_of_mem entry he)
          exact ((insert_perm hrest).cons entry).trans (List.Perm.swap (key, value) entry map)

/-- Distinct keys put in one after the other. -/
theorem foldl_insert_perm {ι : Type} {key : ι → κ} {value : ι → ν} : ∀ {items : List ι}
    {map : List (κ × ν)}, (∀ i ∈ items, ∀ e ∈ map, cmp (key i) e.1 ≠ .eq) →
    items.Pairwise (fun a b => cmp (key b) (key a) ≠ .eq) →
      (items.foldl (fun map i => insert cmp (key i) (value i) map) map).Perm
        (map ++ items.map fun i => (key i, value i))
  | [], map, _, _ => by simp
  | i :: items, map, hmap, hpair => by
      obtain ⟨hfirst, hrest⟩ := List.pairwise_cons.mp hpair
      have hinsert : (insert cmp (key i) (value i) map).Perm ((key i, value i) :: map) :=
        insert_perm (hmap i (by simp))
      have hmap' : ∀ j ∈ items, ∀ e ∈ insert cmp (key i) (value i) map,
          cmp (key j) e.1 ≠ .eq := by
        intro j hj e he
        rcases List.mem_cons.mp (hinsert.mem_iff.mp he) with rfl | he
        · exact hfirst j hj
        · exact hmap j (List.mem_cons_of_mem i hj) e he
      rw [List.foldl_cons, List.map_cons]
      refine (foldl_insert_perm hmap' hrest).trans ?_
      refine (hinsert.append_right _).trans ?_
      exact List.perm_middle.symm

end SortedMap
