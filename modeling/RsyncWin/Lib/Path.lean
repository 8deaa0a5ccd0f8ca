import RsyncWin.Lib.Utf8

/-!
# Slash-separated paths

A path is a byte string; what it means is its list of components. Repeated
separators and inner `.` components do not count, a leading `.` does.
-/

namespace ByteString

inductive Component where
  | rootDir
  | curDir
  | parentDir
  | normal (name : Bytes)
deriving DecidableEq, Repr

abbrev slash : UInt8 := 0x2f
abbrev dot : UInt8 := 0x2e

def namedComponent (part : Bytes) : Option Component :=
  if part = [] ∨ part = [dot] then none
  else if part = [dot, dot] then some .parentDir
  else some (.normal part)

def components (path : Bytes) : List Component :=
  let parts := path.splitOn slash
  let body := parts.filterMap namedComponent
  if path.head? = some slash then .rootDir :: body
  else if parts.head? = some [dot] then .curDir :: body
  else body

/-- The path with the given component names. -/
def joinNames (names : List Bytes) : Bytes := [slash].intercalate names

/-- `root.join(name)` for a relative name. -/
def pathJoin (root name : Bytes) : Bytes :=
  if root = [] then name else root ++ [slash] ++ name

/-- What a directory entry can be called. -/
structure ValidName (name : Bytes) : Prop where
  ne_nil : name ≠ []
  no_slash : slash ∉ name
  ne_dot : name ≠ [dot]
  ne_dotdot : name ≠ [dot, dot]

theorem joinNames_ne_nil {names : List Bytes} (hne : names ≠ [])
    (h : ∀ n ∈ names, ValidName n) : joinNames names ≠ [] := by
  cases names with
  | nil => exact absurd rfl hne
  | cons n rest =>
      have hn := (h n (by simp)).ne_nil
      cases rest with
      | nil => simpa [joinNames, List.intercalate] using hn
      | cons m rest => simp [joinNames, List.intercalate, hn]

theorem joinNames_concat (name : Bytes) : ∀ {names : List Bytes}, names ≠ [] →
    joinNames (names ++ [name]) = joinNames names ++ [slash] ++ name
  | [n], _ => by simp [joinNames, List.intercalate_cons_cons]
  | n :: m :: rest, _ => by
      have ih := joinNames_concat name (List.cons_ne_nil m rest)
      simp only [joinNames, List.cons_append, List.intercalate_cons_cons] at ih ⊢
      rw [ih]
      simp

theorem pathJoin_joinNames {names : List Bytes} (h : ∀ n ∈ names, ValidName n) (name : Bytes) :
    pathJoin (joinNames names) name = joinNames (names ++ [name]) := by
  unfold pathJoin
  by_cases hne : names = []
  · subst hne
    simp [joinNames, List.intercalate]
  · rw [if_neg (joinNames_ne_nil hne h), joinNames_concat name hne]

theorem components_joinNames {names : List Bytes} (hne : names ≠ [])
    (h : ∀ n ∈ names, ValidName n) :
    components (joinNames names) = names.map .normal := by
  have hsplit : (joinNames names).splitOn slash = names :=
    List.splitOn_intercalate slash (fun n hn => (h n hn).no_slash) hne
  have hbody : names.filterMap namedComponent = names.map .normal := by
    rw [← List.filterMap_eq_map']
    apply List.filterMap_congr
    intro n hn
    have hv := h n hn
    simp [namedComponent, hv.ne_nil, hv.ne_dot, hv.ne_dotdot]
  obtain ⟨n, rest, rfl⟩ := List.exists_cons_of_ne_nil hne
  have hn := h n (by simp)
  have hhead : (joinNames (n :: rest)).head? ≠ some slash := by
    obtain ⟨b, bs, rfl⟩ := List.exists_cons_of_ne_nil hn.ne_nil
    have hb : b ≠ slash := by
      intro heq
      exact hn.no_slash (by simp [heq])
    cases rest with
    | nil => simpa [joinNames, List.intercalate] using hb
    | cons m rest => simpa [joinNames, List.intercalate] using hb
  unfold components
  simp only [hsplit, hbody, if_neg hhead, List.head?_cons, Option.some.injEq, if_neg hn.ne_dot]

/-- Joined to any root, names are put behind its components. -/
theorem components_pathJoin_joinNames {names : List Bytes} (hne : names ≠ [])
    (h : ∀ n ∈ names, ValidName n) (root : Bytes) :
    components (pathJoin root (joinNames names)) = components root ++ names.map .normal := by
  unfold pathJoin
  by_cases hroot : root = []
  · rw [if_pos hroot, components_joinNames hne h, hroot]
    rfl
  · have hbody : names.filterMap namedComponent = names.map .normal := by
      rw [← List.filterMap_eq_map']
      apply List.filterMap_congr
      intro n hn
      have hv := h n hn
      simp [namedComponent, hv.ne_nil, hv.ne_dot, hv.ne_dotdot]
    have hsplit : (root ++ [slash] ++ joinNames names).splitOn slash =
        root.splitOn slash ++ names := by
      rw [List.append_assoc]
      refine (List.splitOn_append_cons_self root (joinNames names)).trans ?_
      rw [joinNames, List.splitOn_intercalate slash (fun n hn => (h n hn).no_slash) hne]
    have hfirst : (root ++ [slash] ++ joinNames names).head? = root.head? := by
      rw [List.append_assoc, List.head?_append_of_ne_nil _ hroot]
    have hpart : (root.splitOn slash ++ names).head? = (root.splitOn slash).head? :=
      List.head?_append_of_ne_nil _ (List.splitOn_ne_nil slash root)
    rw [if_neg hroot]
    unfold components
    simp only [hsplit, List.filterMap_append, hbody, hfirst, hpart]
    by_cases h1 : root.head? = some slash
    · rw [if_pos h1, if_pos h1, List.cons_append]
    · rw [if_neg h1, if_neg h1]
      by_cases h2 : (root.splitOn slash).head? = some [dot]
      · rw [if_pos h2, if_pos h2, List.cons_append]
      · rw [if_neg h2, if_neg h2]

/-! ## Decoding the parts of a path -/

theorem splitOn_append_of_not_mem {α : Type} [DecidableEq α] {a : α} :
    ∀ {xs : List α} (ys : List α), a ∉ xs →
      (xs ++ ys).splitOn a = (ys.splitOn a).modifyHead (xs ++ ·)
  | [], ys, _ => by
      obtain ⟨z, zs, hz⟩ := List.exists_cons_of_ne_nil (List.splitOn_ne_nil a ys)
      rw [List.nil_append, hz]
      rfl
  | x :: xs, ys, h => by
      rw [List.mem_cons, not_or] at h
      have hx : ¬ (x == a) = true := by simpa using Ne.symm h.1
      obtain ⟨z, zs, hz⟩ := List.exists_cons_of_ne_nil (List.splitOn_ne_nil a ys)
      rw [List.cons_append, List.splitOn_cons_eq_if_modifyHead, if_neg hx,
        splitOn_append_of_not_mem ys h.2, hz]
      rfl

/-- A part has no separator, and only what the whole has. -/
theorem mem_splitOn {α : Type} [DecidableEq α] {a : α} : ∀ {l part : List α},
    part ∈ l.splitOn a → a ∉ part ∧ part ⊆ l
  | [], part, h => by
      rw [List.splitOn_nil, List.mem_singleton] at h
      simp [h]
  | x :: l, part, h => by
      rw [List.splitOn_cons_eq_if_modifyHead] at h
      obtain ⟨p, ps, hps⟩ := List.exists_cons_of_ne_nil (List.splitOn_ne_nil a l)
      have ih : ∀ q ∈ p :: ps, a ∉ q ∧ q ⊆ l := fun q hq => mem_splitOn (hps ▸ hq)
      rw [hps] at h
      split at h
      · rcases List.mem_cons.mp h with rfl | h
        · simp
        · exact ⟨(ih part h).1, List.subset_cons_of_subset x (ih part h).2⟩
      · rename_i hx
        rcases List.mem_cons.mp h with rfl | h
        · obtain ⟨hnot, hsub⟩ := ih p List.mem_cons_self
          refine ⟨?_, List.cons_subset_cons x hsub⟩
          rw [List.mem_cons, not_or]
          exact ⟨fun heq => hx (by simp [heq]), hnot⟩
        · obtain ⟨hnot, hsub⟩ := ih part (List.mem_cons_of_mem p h)
          exact ⟨hnot, List.subset_cons_of_subset x hsub⟩

theorem validName_of_mem_components {path name : Bytes} (h : .normal name ∈ components path) :
    ValidName name := by
  have hbody : .normal name ∈ (path.splitOn slash).filterMap namedComponent := by
    unfold components at h
    dsimp only at h
    split at h
    · simpa using h
    · split at h
      · simpa using h
      · exact h
  obtain ⟨part, hpart, hnamed⟩ := List.mem_filterMap.mp hbody
  unfold namedComponent at hnamed
  split at hnamed
  · cases hnamed
  · rename_i hne
    split at hnamed
    · cases hnamed
    · rename_i hdots
      rw [not_or] at hne
      obtain rfl := Component.normal.inj (Option.some.inj hnamed)
      exact ⟨hne.1, (mem_splitOn hpart).1, hne.2, hdots⟩

theorem decodeStep_slash (rest : Bytes) : decodeStep slash rest = (some '/', 1) := rfl

/-- Cutting a text at its slashes and decoding the parts, in either order. -/
theorem utf8Chars_splitOn : ∀ {k : Nat} {bs : Bytes} {cs : List Char}, bs.length ≤ k →
    utf8Chars bs = some cs →
    (bs.splitOn slash).map utf8Chars = (cs.splitOn '/').map some
  | _, [], cs, _, h => by
      obtain rfl : [] = cs := by simpa [utf8Chars, decodeStrict] using h
      rfl
  | k + 1, b :: bs, cs, hk, h => by
      obtain ⟨c, n, hstep⟩ := utf8Chars_cons_isSome (Option.isSome_iff_exists.mpr ⟨cs, h⟩)
      have hpos := decodeStep_pos b bs
      rw [hstep] at hpos
      have hdrop : (b :: bs).drop n = bs.drop (n - 1) := by
        obtain ⟨m, rfl⟩ := Nat.exists_eq_add_of_le' hpos
        rfl
      rw [utf8Chars_cons hstep, Option.map_eq_some_iff, hdrop] at h
      obtain ⟨cs', hcs, rfl⟩ := h
      have ih := utf8Chars_splitOn (k := k) (by simp at hk ⊢; omega) hcs
      by_cases hc : c = '/'
      · have hb : b = slash := by
          rw [← UInt8.toNat_inj, decodeStep_ascii hstep (by rw [hc]; decide) (by rw [hc]; decide), hc]
          rfl
        subst hb
        rw [decodeStep_slash] at hstep
        obtain rfl : 1 = n := (Prod.mk.inj hstep).2
        rw [hc, List.splitOn_cons_eq_if_modifyHead, List.splitOn_cons_eq_if_modifyHead,
          if_pos (by simp), if_pos (by simp), List.map_cons, List.map_cons]
        exact congrArg₂ List.cons rfl ih
      · obtain ⟨hown, hhigh⟩ := decodeStep_take hstep
        have hchunk : slash ∉ b :: bs.take (n - 1) := by
          rw [List.mem_cons]
          rintro (rfl | hmem)
          · rw [decodeStep_slash] at hstep
            exact hc (by simpa using (Prod.mk.inj hstep).1.symm)
          · exact absurd (hhigh _ hmem).2 (by decide)
        obtain ⟨p, ps, hps⟩ := List.exists_cons_of_ne_nil (List.splitOn_ne_nil slash (bs.drop (n - 1)))
        obtain ⟨q, qs, hqs⟩ := List.exists_cons_of_ne_nil (List.splitOn_ne_nil '/' cs')
        rw [hps, hqs, List.map_cons, List.map_cons, List.cons_eq_cons] at ih
        have hhead : utf8Chars (b :: bs.take (n - 1) ++ p) = some (c :: q) := by
          rw [List.cons_append, utf8Chars_cons (decodeStep_append hown p).1]
          have hlen : n - 1 = (bs.take (n - 1)).length := by
            have hn := (decodeStep_append hstep []).2
            rw [List.length_take_of_le (by omega)]
          have hrest : (b :: (bs.take (n - 1) ++ p)).drop n = p := by
            obtain ⟨m, rfl⟩ := Nat.exists_eq_add_of_le' hpos
            rw [Nat.add_sub_cancel] at hlen
            rw [Nat.add_sub_cancel, List.drop_succ_cons, List.drop_append_of_le_length (by omega),
              List.drop_of_length_le (by omega), List.nil_append]
          rw [hrest, ih.1]
          rfl
        have hsplit : b :: bs = (b :: bs.take (n - 1)) ++ bs.drop (n - 1) := by
          rw [List.cons_append, List.take_append_drop]
        rw [hsplit, splitOn_append_of_not_mem _ hchunk, hps, List.splitOn_cons_eq_if_modifyHead,
          if_neg (by simpa using hc), hqs]
        simp only [List.modifyHead_cons, List.map_cons, hhead, ih.2]

/-! ## The order of paths -/

def Component.rank : Component → Nat
  | .rootDir => 0
  | .curDir => 1
  | .parentDir => 2
  | .normal _ => 3

def Component.name : Component → Bytes
  | .normal name => name
  | _ => []

instance : Ord Component := ⟨compareLex (compareOn Component.rank) (compareOn Component.name)⟩

/-- `Path::cmp`: component by component, names by their bytes. -/
def comparePath (left right : Bytes) : Ordering := compare (components left) (components right)

end ByteString
