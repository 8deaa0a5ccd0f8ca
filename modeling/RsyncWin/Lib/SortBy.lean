import Mathlib.Data.List.Sort

/-!
# Sorting with a comparison function

`sort_by`: a stable sort by a function into `Ordering`. A list that is in order
comes back as it is; for a comparison that is an order, that is the only way it
can.
-/

variable {α β : Type}

/-- No element is greater than one that comes after it. -/
def InOrder (cmp : α → α → Ordering) (l : List α) : Prop :=
  l.Pairwise fun a b => (cmp a b).isLE

def sortBy (cmp : α → α → Ordering) (l : List α) : List α :=
  l.insertionSort fun a b => (cmp a b).isLE = true

theorem sortBy_of_inOrder {cmp : α → α → Ordering} {l : List α} (h : InOrder cmp l) :
    sortBy cmp l = l :=
  List.Pairwise.insertionSort_eq h

theorem sortBy_perm (cmp : α → α → Ordering) (l : List α) : (sortBy cmp l).Perm l :=
  List.perm_insertionSort _ l

theorem inOrder_sortBy (cmp : α → α → Ordering) [Std.TransCmp cmp] (l : List α) :
    InOrder cmp (sortBy cmp l) := by
  have trans : IsTrans α fun a b => (cmp a b).isLE = true :=
    ⟨fun _ _ _ hab hbc => Std.TransCmp.isLE_trans hab hbc⟩
  have total : Std.Total fun a b => (cmp a b).isLE = true := by
    refine ⟨fun a b => ?_⟩
    cases h : cmp a b with
    | lt => exact Or.inl rfl
    | eq => exact Or.inl rfl
    | gt =>
        right
        rw [Std.OrientedCmp.gt_iff_lt.mp h]
        rfl
  exact List.pairwise_insertionSort _ l

/-- Sorting by a comparison that, on this list, only looks at a key. -/
theorem map_sortBy_eq_iff {cmp : α → α → Ordering} {kcmp : β → β → Ordering} [Std.TransCmp kcmp]
    {key : α → β} {l : List α} (h : ∀ a ∈ l, ∀ b ∈ l, cmp a b = kcmp (key a) (key b)) :
    (sortBy cmp l).map key = l.map key ↔ InOrder kcmp (l.map key) := by
  have hmap : (sortBy cmp l).map key = sortBy kcmp (l.map key) := by
    refine List.map_insertionSort _ _ key l fun a ha b hb => ?_
    rw [h a ha b hb]
  rw [hmap]
  refine ⟨fun heq => ?_, sortBy_of_inOrder⟩
  rw [← heq]
  exact inOrder_sortBy kcmp _

theorem sortBy_eq_self_of_key {cmp : α → α → Ordering} {kcmp : β → β → Ordering} {key : α → β}
    {l : List α} (h : ∀ a ∈ l, ∀ b ∈ l, cmp a b = kcmp (key a) (key b))
    (hin : InOrder kcmp (l.map key)) : sortBy cmp l = l := by
  refine sortBy_of_inOrder ?_
  refine (List.pairwise_map.mp hin).imp_of_mem fun {a b} ha hb hab => ?_
  rw [h a ha b hb]
  exact hab

/-! ## Comparisons by a key -/

/-- A comparison orders the elements of a list, no two of them equal. -/
structure StrictOrderOn (cmp : α → α → Ordering) (l : List α) : Prop where
  refl : ∀ a ∈ l, cmp a a = .eq
  eq : ∀ a ∈ l, ∀ b ∈ l, cmp a b = .eq → a = b
  swap : ∀ a ∈ l, ∀ b ∈ l, cmp b a = (cmp a b).swap
  trans : ∀ a ∈ l, ∀ b ∈ l, ∀ c ∈ l, cmp a b = .lt → cmp b c = .lt → cmp a c = .lt

section Key

variable {cmp : α → α → Ordering} {kcmp : β → β → Ordering} {key : α → β} {l l' : List α}

theorem StrictOrderOn.of_key [Std.TransCmp kcmp] [Std.LawfulEqCmp kcmp]
    (h : ∀ a ∈ l, ∀ b ∈ l, cmp a b = kcmp (key a) (key b))
    (hinj : ∀ a ∈ l, ∀ b ∈ l, key a = key b → a = b) : StrictOrderOn cmp l := by
  constructor
  case refl =>
    intro a ha
    rw [h a ha a ha]
    exact Std.ReflCmp.compare_self
  case eq =>
    intro a ha b hb heq
    rw [h a ha b hb] at heq
    exact hinj a ha b hb (Std.LawfulEqCmp.eq_of_compare heq)
  case swap =>
    intro a ha b hb
    rw [h a ha b hb, h b hb a ha]
    exact Std.OrientedCmp.eq_swap
  case trans =>
    intro a ha b hb c hc hab hbc
    rw [h a ha b hb] at hab
    rw [h b hb c hc] at hbc
    rw [h a ha c hc]
    exact Std.TransCmp.lt_trans hab hbc

theorem StrictOrderOn.of_perm (h : StrictOrderOn cmp l) (hperm : l'.Perm l) :
    StrictOrderOn cmp l' := by
  have hmem : ∀ {a}, a ∈ l' → a ∈ l := fun ha => hperm.mem_iff.mp ha
  exact ⟨fun a ha => h.refl a (hmem ha), fun a ha b hb => h.eq a (hmem ha) b (hmem hb),
    fun a ha b hb => h.swap a (hmem ha) b (hmem hb),
    fun a ha b hb c hc => h.trans a (hmem ha) b (hmem hb) c (hmem hc)⟩

theorem inOrder_sortBy_of_key [Std.TransCmp kcmp]
    (h : ∀ a ∈ l, ∀ b ∈ l, cmp a b = kcmp (key a) (key b)) : InOrder cmp (sortBy cmp l) := by
  have hmap : (sortBy cmp l).map key = sortBy kcmp (l.map key) := by
    refine List.map_insertionSort _ _ key l fun a ha b hb => ?_
    rw [h a ha b hb]
  have horder : InOrder kcmp ((sortBy cmp l).map key) := by
    rw [hmap]
    exact inOrder_sortBy kcmp _
  refine (List.pairwise_map.mp horder).imp_of_mem fun {a b} ha hb hab => ?_
  rw [h a ((sortBy_perm cmp l).mem_iff.mp ha) b ((sortBy_perm cmp l).mem_iff.mp hb)]
  exact hab

/-- What is in strict order is sorted in one way only. -/
theorem StrictOrderOn.sorted_unique (h : StrictOrderOn cmp l) (hperm : l'.Perm l)
    (horder : InOrder cmp l) (horder' : InOrder cmp l') : l' = l := by
  refine hperm.eq_of_pairwise (fun a b ha hb hab hba => ?_) horder' horder
  have ha := hperm.mem_iff.mp ha
  rw [h.swap a ha b hb] at hba
  cases hcmp : cmp a b with
  | eq => exact h.eq a ha b hb hcmp
  | lt =>
      rw [hcmp] at hba
      cases hba
  | gt =>
      rw [hcmp] at hab
      cases hab

/-- Of two elements the lesser stands before the other. -/
theorem StrictOrderOn.sublist_of_lt (h : StrictOrderOn cmp l) (horder : InOrder cmp l) {a b : α}
    (ha : a ∈ l) (hb : b ∈ l) (hlt : cmp a b = .lt) : [a, b].Sublist l := by
  obtain ⟨before, after, rfl⟩ := List.append_of_mem ha
  rcases List.mem_append.mp hb with hmem | hmem
  · -- in front of the lesser it would have to be no greater
    have hle : (cmp b a).isLE := (List.pairwise_append.mp horder).2.2 b hmem a (by simp)
    rw [h.swap a ha b hb, hlt] at hle
    cases hle
  · rcases List.mem_cons.mp hmem with rfl | hmem
    · rw [h.refl b hb] at hlt
      cases hlt
    · have hpair : [a, b].Sublist (a :: after) := (List.singleton_sublist.mpr hmem).cons_cons a
      exact hpair.trans (List.sublist_append_right before _)

end Key
