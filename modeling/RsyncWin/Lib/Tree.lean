import Mathlib.Data.List.Infix
import Mathlib.Logic.Function.Basic

/-!
# Trees as maps from paths

A tree gives each path (a list of names, `[]` the root) its node or nothing.
The four changes a file system makes to it are `Function.update`, `fill`, which
puts the missing nodes of one path, and `prune`, which takes a path with all
that is below it. A tree is `Closed` when what has something below it is a
directory.
-/

abbrev PathTree (ν α : Type) := List ν → Option α

namespace PathTree

variable {ν α : Type} [DecidableEq ν]

def fill (t : PathTree ν α) (path : List ν) (dir : α) : PathTree ν α := fun x =>
  if x <+: path then some ((t x).getD dir) else t x

def prune (t : PathTree ν α) (path : List ν) : PathTree ν α := fun x =>
  if path <+: x then none else t x

/-- A node at a path, and the directories above it. -/
def place (t : PathTree ν α) (path : List ν) (node dir : α) : PathTree ν α :=
  Function.update (t.fill path.dropLast dir) path (some node)

/-- Everything that is not the root has its parent in the tree, as a directory. -/
def Closed (isDir : α → Prop) (t : PathTree ν α) : Prop :=
  ∀ k n a, t (k ++ [n]) = some a → ∃ p, t k = some p ∧ isDir p

theorem fill_eq_some_of {t : PathTree ν α} {path x : List ν} {dir a : α} (h : t x = some a) :
    t.fill path dir x = some a := by
  unfold fill
  rw [h]
  split <;> rfl

theorem fill_of_not {t : PathTree ν α} {path x : List ν} {dir : α} (h : ¬ x <+: path) :
    t.fill path dir x = t x :=
  if_neg h

theorem fill_self {t : PathTree ν α} {path : List ν} {dir : α} :
    t.fill path dir path = some ((t path).getD dir) :=
  if_pos (List.prefix_refl path)

/-- A node after filling was there, or is a new directory on the path. -/
theorem fill_eq_some {t : PathTree ν α} {path x : List ν} {dir a : α}
    (h : t.fill path dir x = some a) : t x = some a ∨ (x <+: path ∧ t x = none ∧ a = dir) := by
  unfold fill at h
  split at h
  · rename_i hx
    cases ht : t x with
    | none =>
        rw [ht] at h
        exact Or.inr ⟨hx, rfl, (Option.some.inj h).symm⟩
    | some b =>
        rw [ht] at h
        exact Or.inl h
  · exact Or.inl h

@[simp] theorem place_self {t : PathTree ν α} {path : List ν} {node dir : α} :
    t.place path node dir path = some node :=
  Function.update_self ..

theorem place_of_ne {t : PathTree ν α} {path x : List ν} {node dir : α} (h : x ≠ path) :
    t.place path node dir x = t.fill path.dropLast dir x :=
  Function.update_of_ne h ..

theorem prune_of_not {t : PathTree ν α} {path x : List ν} (h : ¬ path <+: x) : t.prune path x = t x :=
  if_neg h

theorem prune_of_prefix {t : PathTree ν α} {path x : List ν} (h : path <+: x) :
    t.prune path x = none :=
  if_pos h

theorem prune_eq_some {t : PathTree ν α} {path x : List ν} {a : α} (h : t.prune path x = some a) :
    t x = some a ∧ ¬ path <+: x := by
  unfold prune at h
  split at h
  · cases h
  · exact ⟨h, by assumption⟩

/-! ## Frames

What a change of a tree leaves alone: outside of `T` every node keeps what `f`
says of it, up to new directories on the way to a path of `T`. -/

/-- From `t` to `t'` nothing changes outside of `T`. -/
def Framed {β : Type} (f : α → β) (dir : α) (T : List ν → Prop) (t t' : PathTree ν α) : Prop :=
  ∀ x, ¬ T x → (t' x).map f = (t x).map f ∨
    (t x = none ∧ (t' x).map f = some (f dir) ∧ ∃ path, T path ∧ x <+: path)

section Framed

variable {β : Type} {f : α → β} {dir : α} {T T' : List ν → Prop} {t t' t'' : PathTree ν α}

omit [DecidableEq ν] in
theorem Framed.refl (t : PathTree ν α) : Framed f dir T t t := fun _ _ => Or.inl rfl

omit [DecidableEq ν] in
theorem Framed.trans (h : Framed f dir T t t') (h' : Framed f dir T t' t'') :
    Framed f dir T t t'' := by
  intro x hx
  rcases h x hx with heq | ⟨hnone, hdir, hpath⟩
  · rcases h' x hx with heq' | ⟨hnone', hdir', hpath'⟩
    · exact Or.inl (heq'.trans heq)
    · refine Or.inr ⟨?_, hdir', hpath'⟩
      rwa [hnone', Option.map_none, eq_comm, Option.map_eq_none_iff] at heq
  · rcases h' x hx with heq' | ⟨hnone', _, _⟩
    · exact Or.inr ⟨hnone, heq'.trans hdir, hpath⟩
    · rw [hnone'] at hdir
      cases hdir

omit [DecidableEq ν] in
theorem Framed.mono (h : Framed f dir T t t') (hT : ∀ x, T x → T' x) : Framed f dir T' t t' := by
  intro x hx
  refine (h x fun hTx => hx (hT x hTx)).imp_right fun ⟨hnone, hdir, path, hpath, hpre⟩ => ?_
  exact ⟨hnone, hdir, path, hT path hpath, hpre⟩

theorem framed_update {path : List ν} (hpath : T path) (node : Option α) :
    Framed f dir T t (Function.update t path node) := by
  intro x hx
  rw [Function.update_of_ne (by rintro rfl; exact hx hpath)]
  exact Or.inl rfl

theorem framed_fill {path above : List ν} (habove : above <+: path) (hpath : T path) :
    Framed f dir T t (t.fill above dir) := by
  intro x _
  unfold fill
  split
  · rename_i hx
    cases ht : t x with
    | none => exact Or.inr ⟨rfl, rfl, path, hpath, hx.trans habove⟩
    | some a => exact Or.inl rfl
  · exact Or.inl rfl

theorem framed_prune {path : List ν} (hpath : ∀ x, path <+: x → T x) :
    Framed f dir T t (t.prune path) := by
  intro x hx
  rw [prune_of_not fun h => hx (hpath x h)]
  exact Or.inl rfl

omit [DecidableEq ν] in
/-- Nothing changes that `f` sees. -/
theorem framed_of_map (h : ∀ x, (t' x).map f = (t x).map f) : Framed f dir T t t' :=
  fun x _ => Or.inl (h x)

end Framed

section Map

variable {β : Type} (f : α → β) (t : PathTree ν α) (path : List ν)

/-- The same tree with `f` of its nodes. -/
def map (f : α → β) (t : PathTree ν α) : PathTree ν β := fun x => (t x).map f

theorem map_update (node : Option α) :
    map f (Function.update t path node) = Function.update (map f t) path (node.map f) := by
  funext x
  unfold map
  by_cases hx : x = path
  · rw [hx, Function.update_self, Function.update_self]
  · rw [Function.update_of_ne hx, Function.update_of_ne hx]

theorem map_fill (dir : α) : map f (t.fill path dir) = fill (map f t) path (f dir) := by
  funext x
  unfold map fill
  by_cases hx : x <+: path
  · rw [if_pos hx, if_pos hx]
    cases ht : t x with
    | none => simp [ht]
    | some a => simp [ht]
  · rw [if_neg hx, if_neg hx]

theorem map_prune : map f (t.prune path) = prune (map f t) path := by
  funext x
  unfold map prune
  by_cases hx : path <+: x
  · rw [if_pos hx, if_pos hx, Option.map_none]
  · rw [if_neg hx, if_neg hx]

end Map

section Closed

omit [DecidableEq ν]

variable {isDir : α → Prop} {t : PathTree ν α}

/-- What is above a node is a directory. -/
theorem Closed.above (hc : Closed isDir t) {k rest : List ν} {a : α} (h : t (k ++ rest) = some a)
    (hrest : rest ≠ []) : ∃ p, t k = some p ∧ isDir p := by
  induction rest using List.reverseRecOn generalizing a with
  | nil => exact absurd rfl hrest
  | append_singleton rest n ih =>
      rw [← List.append_assoc] at h
      obtain ⟨p, hp, hdir⟩ := hc _ _ _ h
      by_cases hnil : rest = []
      · rw [hnil, List.append_nil] at hp
        exact ⟨p, hp, hdir⟩
      · exact ih hp hnil

/-- Nothing is below what is missing or no directory. -/
theorem Closed.eq_none (hc : Closed isDir t) {k rest : List ν} (hrest : rest ≠ [])
    (hk : ∀ p, t k = some p → ¬ isDir p) : t (k ++ rest) = none := by
  cases h : t (k ++ rest) with
  | none => rfl
  | some a =>
      obtain ⟨p, hp, hdir⟩ := hc.above h hrest
      exact absurd hdir (hk p hp)

end Closed

end PathTree
