import Mathlib.Data.List.Basic

/-!
# Results that may be errors

Taking a sequence of checked steps apart, and a checked step for each element of a list.
-/

theorem except_bind_ok {ε α β : Type} {x : Except ε α} {f : α → Except ε β} {b : β}
    (h : (x >>= f) = .ok b) : ∃ a, x = .ok a ∧ f a = .ok b := by
  cases x with
  | error e => cases h
  | ok a => exact ⟨a, rfl, h⟩

theorem except_bind_error {ε α β : Type} {x : Except ε α} {f : α → Except ε β} {e : ε}
    (h : (x >>= f) = .error e) : x = .error e ∨ ∃ a, x = .ok a ∧ f a = .error e := by
  cases x with
  | error e' => exact Or.inl (congrArg Except.error (Except.error.inj h))
  | ok a => exact Or.inr ⟨a, rfl, h⟩

/-- What comes of a sequence is what comes of its steps, whatever their errors say. -/
theorem except_toOption_bind {ε α β : Type} {x y : Except ε α} {f g : α → Except ε β}
    (hxy : x.toOption = y.toOption) (hfg : ∀ a, (f a).toOption = (g a).toOption) :
    (x >>= f).toOption = (y >>= g).toOption := by
  cases x with
  | error e =>
      cases y with
      | error e' => rfl
      | ok b => cases hxy
  | ok a =>
      cases y with
      | error e' => cases hxy
      | ok b =>
          obtain rfl := Option.some.inj hxy
          exact hfg a

/-! ## A step for each element -/

theorem except_mapM_cons_ok {ε α β : Type} {f : α → Except ε β} {x : α} {xs : List α} {y : β}
    {ys : List β} (hx : f x = .ok y) (hxs : xs.mapM f = .ok ys) :
    (x :: xs).mapM f = .ok (y :: ys) := by
  rw [List.mapM_cons, hx]
  dsimp only [bind, Except.bind]
  rw [hxs]
  rfl

theorem except_mapM_length {ε α β : Type} {f : α → Except ε β} : ∀ {xs : List α}
    {ys : List β}, xs.mapM f = .ok ys → ys.length = xs.length
  | [], ys, h => by
      rw [List.mapM_nil] at h
      rw [← Except.ok.inj h]
      rfl
  | x :: xs, ys, h => by
      rw [List.mapM_cons] at h
      obtain ⟨y, -, h⟩ := except_bind_ok h
      obtain ⟨zs, hzs, h⟩ := except_bind_ok h
      rw [← Except.ok.inj h, List.length_cons, List.length_cons, except_mapM_length hzs]

theorem except_mapM_eq_self_iff {α ε : Type} {f : α → Except ε α} : ∀ {xs : List α},
    xs.mapM f = .ok xs ↔ ∀ x ∈ xs, f x = .ok x
  | [] => iff_of_true List.mapM_nil (List.forall_mem_nil _)
  | x :: xs => by
      rw [List.forall_mem_cons, ← except_mapM_eq_self_iff, List.mapM_cons]
      constructor
      · intro h
        obtain ⟨y, hy, h⟩ := except_bind_ok h
        obtain ⟨ys, hys, h⟩ := except_bind_ok h
        obtain ⟨rfl, rfl⟩ := List.cons.inj (Except.ok.inj h)
        exact ⟨hy, hys⟩
      · rintro ⟨hx, hxs⟩
        rw [hx, hxs]
        rfl

theorem except_mapM_ok_iff {α β ε : Type} {f : α → Except ε β} {xs : List α} :
    (∃ ys, xs.mapM f = .ok ys) ↔ ∀ x ∈ xs, ∃ y, f x = .ok y := by
  induction xs with
  | nil => exact ⟨fun _ _ hmem => absurd hmem List.not_mem_nil, fun _ => ⟨[], rfl⟩⟩
  | cons x xs ih =>
      rw [List.forall_mem_cons, ← ih]
      constructor
      · rintro ⟨ys, h⟩
        rw [List.mapM_cons] at h
        obtain ⟨y, hy, h⟩ := except_bind_ok h
        obtain ⟨rest, hrest, -⟩ := except_bind_ok h
        exact ⟨⟨y, hy⟩, rest, hrest⟩
      · rintro ⟨⟨y, hy⟩, rest, hrest⟩
        exact ⟨y :: rest, except_mapM_cons_ok hy hrest⟩

theorem except_mapM_congr {α β ε : Type} {f g : α → Except ε β} {xs : List α}
    (h : ∀ x ∈ xs, f x = g x) : xs.mapM f = xs.mapM g := by
  induction xs with
  | nil => rfl
  | cons x xs ih =>
      rw [List.forall_mem_cons] at h
      rw [List.mapM_cons, List.mapM_cons, h.1, ih h.2]

theorem except_toOption_mapM {ε α β : Type} {f g : α → Except ε β}
    (h : ∀ x, (f x).toOption = (g x).toOption) (xs : List α) :
    (xs.mapM f).toOption = (xs.mapM g).toOption := by
  induction xs with
  | nil => rfl
  | cons x xs ih =>
      rw [List.mapM_cons, List.mapM_cons]
      exact except_toOption_bind (h x) fun y => except_toOption_bind ih fun ys => rfl
