import RsyncWin.Filter.Rule

/-!
# Normalised texts (`normalize_filter_path`, `Pattern::parse`)

Patterns and paths are brought to one form before they are compared: no backslash, and
no two slashes side by side. What the form keeps of a text is stated here, and which
texts are patterns at all.
-/

namespace RsyncWin

/-! ## Separators -/

def IsSeparator (ch : Char) : Prop := ch = '/' ∨ ch = '\\'

instance (ch : Char) : Decidable (IsSeparator ch) := inferInstanceAs (Decidable (_ ∨ _))

/-- The form that `normalize_filter_path` brings a text to. -/
structure Separated (text : Text) : Prop where
  noBackslash : '\\' ∉ text
  apart : text.IsChain fun a b => ¬ (a = '/' ∧ b = '/')

theorem normalizeFrom_separator {ch : Char} (h : IsSeparator ch) (previous : Bool) (rest : Text) :
    normalizeFrom previous (ch :: rest) =
      if previous then normalizeFrom true rest else '/' :: normalizeFrom true rest := by
  have hch : (if ch = '\\' then '/' else ch) = '/' := by
    rcases h with rfl | rfl
    · decide
    · decide
  rw [normalizeFrom]
  show (if (if ch = '\\' then '/' else ch) = '/' then _ else _) = _
  rw [if_pos hch]

theorem normalizeFrom_name {ch : Char} (h : ¬ IsSeparator ch) (previous : Bool) (rest : Text) :
    normalizeFrom previous (ch :: rest) = ch :: normalizeFrom false rest := by
  unfold IsSeparator at h
  rw [not_or] at h
  rw [normalizeFrom]
  show (if (if ch = '\\' then '/' else ch) = '/' then _ else
    (if ch = '\\' then '/' else ch) :: _) = _
  rw [if_neg h.2, if_neg h.1]

theorem noBackslash_normalizeFrom (previous : Bool) (text : Text) :
    '\\' ∉ normalizeFrom previous text := by
  induction text generalizing previous with
  | nil => exact List.not_mem_nil
  | cons ch rest ih =>
      by_cases hch : IsSeparator ch
      · rw [normalizeFrom_separator hch]
        cases previous with
        | true => exact ih true
        | false =>
            rw [if_neg Bool.false_ne_true, List.mem_cons, not_or]
            exact ⟨by decide, ih true⟩
      · rw [normalizeFrom_name hch, List.mem_cons, not_or]
        exact ⟨fun h => hch (Or.inr h.symm), ih false⟩

theorem head_normalizeFrom_true (text : Text) : (normalizeFrom true text).head? ≠ some '/' := by
  induction text with
  | nil => exact nofun
  | cons ch rest ih =>
      by_cases hch : IsSeparator ch
      · rw [normalizeFrom_separator hch, if_pos rfl]
        exact ih
      · rw [normalizeFrom_name hch]
        exact fun h => hch (Or.inl (Option.some.inj h))

theorem apart_normalizeFrom (previous : Bool) (text : Text) :
    (normalizeFrom previous text).IsChain fun a b => ¬ (a = '/' ∧ b = '/') := by
  induction text generalizing previous with
  | nil => exact List.IsChain.nil
  | cons ch rest ih =>
      by_cases hch : IsSeparator ch
      · rw [normalizeFrom_separator hch]
        cases previous with
        | true => exact ih true
        | false =>
            refine List.isChain_cons.mpr ⟨fun y hy => ?_, ih true⟩
            rintro ⟨-, rfl⟩
            exact head_normalizeFrom_true rest hy
      · rw [normalizeFrom_name hch]
        refine List.isChain_cons.mpr ⟨fun y _ => ?_, ih false⟩
        rintro ⟨rfl, -⟩
        exact hch (Or.inl rfl)

theorem separated_normalize (text : Text) : Separated (normalizeFilterPath text) :=
  ⟨noBackslash_normalizeFrom false text, apart_normalizeFrom false text⟩

/-- A text in normal form is its own. -/
theorem normalizeFrom_of_separated {text : Text} (h : Separated text) (previous : Bool)
    (hhead : previous = true → text.head? ≠ some '/') : normalizeFrom previous text = text := by
  induction text generalizing previous with
  | nil => rfl
  | cons ch rest ih =>
      obtain ⟨hback, hapart⟩ := h
      rw [List.mem_cons, not_or] at hback
      rw [List.isChain_cons] at hapart
      by_cases hch : ch = '/'
      · subst hch
        rw [normalizeFrom_separator (Or.inl rfl)]
        cases previous with
        | true => exact absurd rfl (hhead rfl)
        | false =>
            rw [if_neg Bool.false_ne_true, ih ⟨hback.2, hapart.2⟩ true]
            exact fun _ hslash => hapart.1 '/' hslash ⟨rfl, rfl⟩
      · have hname : ¬ IsSeparator ch := fun h => h.elim hch fun h => hback.1 h.symm
        rw [normalizeFrom_name hname, ih ⟨hback.2, hapart.2⟩ false nofun]

theorem normalize_of_separated {text : Text} (h : Separated text) :
    normalizeFilterPath text = text := normalizeFrom_of_separated h false nofun

/-- Only separators are dropped. -/
theorem mem_normalizeFrom {ch : Char} (hch : ¬ IsSeparator ch) (previous : Bool) (text : Text) :
    ch ∈ normalizeFrom previous text ↔ ch ∈ text := by
  induction text generalizing previous with
  | nil => exact Iff.rfl
  | cons head rest ih =>
      by_cases hhead : IsSeparator head
      · have hne : ch ≠ head := fun h => hch (h ▸ hhead)
        have hslash : ch ≠ '/' := fun h => hch (Or.inl h)
        rw [normalizeFrom_separator hhead]
        cases previous with
        | true => rw [if_pos rfl, ih, List.mem_cons, or_iff_right hne]
        | false =>
            rw [if_neg Bool.false_ne_true, List.mem_cons, List.mem_cons, ih, or_iff_right hne,
              or_iff_right hslash]
      · rw [normalizeFrom_name hhead, List.mem_cons, List.mem_cons, ih]

theorem normalizeFrom_separators {text : Text} (h : ∀ ch ∈ text, IsSeparator ch) :
    normalizeFrom true text = [] := by
  induction text with
  | nil => rfl
  | cons ch rest ih =>
      rw [List.forall_mem_cons] at h
      rw [normalizeFrom_separator h.1, if_pos rfl]
      exact ih h.2

/-! ## Which texts are patterns -/

theorem stripDotSlash_eq_nil {text : Text} (h : stripDotSlash text = []) :
    text = [] ∨ text.getLast? = some '/' := by
  fun_induction stripDotSlash text with
  | case1 rest ih =>
      right
      rcases ih h with rfl | hlast
      · rfl
      · rw [List.getLast?_cons, List.getLast?_cons, hlast]
        rfl
  | case2 text _ => exact Or.inl h

/-- The body of a pattern: what is left of the text without its slashes at the ends and
its leading `./`. -/
def patternBody (raw : Text) : Text :=
  let body := normalizeFilterPath raw
  let body := if body.head? = some '/' then body.tail else body
  let body := if body.getLast? = some '/' then body.dropLast else body
  stripDotSlash body

theorem mem_tail_of_ne {ch : Char} (hch : ch ≠ '/') {text : Text} (h : ch ∈ text) :
    ch ∈ if text.head? = some '/' then text.tail else text := by
  cases text with
  | nil => exact absurd h List.not_mem_nil
  | cons head rest =>
      split
      · rename_i hhead
        rcases List.mem_cons.mp h with rfl | h
        · exact absurd (Option.some.inj hhead) hch
        · exact h
      · exact h

theorem mem_dropLast_of_ne {ch : Char} (hch : ch ≠ '/') {text : Text} (h : ch ∈ text) :
    ch ∈ if text.getLast? = some '/' then text.dropLast else text := by
  split
  · rename_i hlast
    obtain ⟨init, rfl⟩ := List.getLast?_eq_some_iff.mp hlast
    rw [List.dropLast_concat]
    rcases List.mem_append.mp h with h | h
    · exact h
    · exact absurd (List.mem_singleton.mp h) hch
  · exact h

/-- One slash at the end is all there can be. -/
theorem getLast_dropLast {text : Text} (h : text.IsChain fun a b => ¬ (a = '/' ∧ b = '/')) :
    (if text.getLast? = some '/' then text.dropLast else text).getLast? ≠ some '/' := by
  split
  · rename_i hlast
    obtain ⟨init, rfl⟩ := List.getLast?_eq_some_iff.mp hlast
    rw [List.dropLast_concat]
    intro hinit
    obtain ⟨front, rfl⟩ := List.getLast?_eq_some_iff.mp hinit
    rw [List.isChain_append] at h
    exact h.2.2 '/' (by simp) '/' rfl ⟨rfl, rfl⟩
  · assumption

theorem isChain_tail {text : Text} {R : Char → Char → Prop} (h : text.IsChain R) :
    (if text.head? = some '/' then text.tail else text).IsChain R := by
  split
  · exact h.tail
  · exact h

/-- Only of separators nothing is left. -/
theorem patternBody_eq_nil_iff (raw : Text) :
    patternBody raw = [] ↔ ∀ ch ∈ raw, IsSeparator ch := by
  constructor
  · intro h ch hmem
    by_contra hch
    have hslash : ch ≠ '/' := fun h => hch (Or.inl h)
    have hnormal : ch ∈ normalizeFilterPath raw := (mem_normalizeFrom hch false raw).mpr hmem
    have hbody := mem_dropLast_of_ne hslash (mem_tail_of_ne hslash hnormal)
    rcases stripDotSlash_eq_nil h with hnil | hlast
    · rw [hnil] at hbody
      exact List.not_mem_nil hbody
    · exact getLast_dropLast (isChain_tail (separated_normalize raw).apart) hlast
  · intro h
    cases raw with
    | nil => rfl
    | cons ch rest =>
        rw [List.forall_mem_cons] at h
        have hnormal : normalizeFilterPath (ch :: rest) = ['/'] := by
          unfold normalizeFilterPath
          rw [normalizeFrom_separator h.1, if_neg Bool.false_ne_true,
            normalizeFrom_separators h.2]
        unfold patternBody
        rw [hnormal]
        rfl

/-- The pattern that a trimmed text is read as. -/
def patternOf (raw : Text) : Pattern :=
  { raw
    body := patternBody raw
    anchored := decide ((normalizeFilterPath raw).head? = some '/')
    directoryOnly :=
      let body := normalizeFilterPath raw
      decide ((if body.head? = some '/' then body.tail else body).getLast? = some '/')
    hasPathSeparator := (patternBody raw).contains '/'
    matchDirectoryPrefix := stripSuffix "/***".toList (patternBody raw) }

theorem parse_eq {raw : Text} (h : trim raw ≠ []) :
    Pattern.parse raw =
      if patternBody (trim raw) = [] then .error .emptyPattern else .ok (patternOf (trim raw)) := by
  unfold Pattern.parse
  simp only
  rw [if_neg h]
  rfl

theorem parse_ok {raw : Text} (h : trim raw ≠ []) (hbody : patternBody (trim raw) ≠ []) :
    Pattern.parse raw = .ok (patternOf (trim raw)) :=
  (parse_eq h).trans (if_neg hbody)

theorem parse_ok_iff {raw : Text} (htrim : trim raw = raw) (hraw : raw ≠ []) :
    (∃ p, Pattern.parse raw = .ok p) ↔ ∃ ch ∈ raw, ¬ IsSeparator ch := by
  have hparse : (∃ p, Pattern.parse raw = .ok p) ↔ patternBody raw ≠ [] := by
    rw [parse_eq (htrim.symm ▸ hraw), htrim]
    split
    · rename_i hbody
      constructor
      · rintro ⟨p, hp⟩
        cases hp
      · exact fun h => absurd hbody h
    · rename_i hbody
      exact ⟨fun _ => hbody, fun _ => ⟨_, rfl⟩⟩
  rw [hparse, Ne, patternBody_eq_nil_iff]
  push Not
  rfl

/-! ## Bodies and paths are in normal form -/

theorem Separated.part {text part : Text} (h : Separated text) (hpart : part <:+: text) :
    Separated part :=
  ⟨fun hmem => h.noBackslash (hpart.subset hmem), List.IsChain.infix h.apart hpart⟩

theorem stripDotSlash_suffix (text : Text) : stripDotSlash text <:+ text := by
  fun_induction stripDotSlash text with
  | case1 rest ih => exact ih.trans ((List.suffix_cons _ _).trans (List.suffix_cons _ _))
  | case2 text _ => exact List.suffix_rfl

theorem tail_isPart (text : Text) :
    (if text.head? = some '/' then text.tail else text) <:+: text := by
  split
  · exact (List.tail_suffix _).isInfix
  · exact List.infix_rfl

theorem dropLast_isPart (text : Text) :
    (if text.getLast? = some '/' then text.dropLast else text) <:+: text := by
  split
  · exact (List.dropLast_prefix _).isInfix
  · exact List.infix_rfl

theorem separated_patternBody (raw : Text) : Separated (patternBody raw) :=
  (separated_normalize raw).part
    ((stripDotSlash_suffix _).isInfix.trans ((dropLast_isPart _).trans (tail_isPart _)))

theorem separated_candidate (path : Text) : Separated (normalizeCandidatePath path) := by
  refine (separated_normalize path).part ?_
  unfold normalizeCandidatePath
  simp only
  refine List.IsInfix.trans ?_ (List.dropWhile_suffix (· = '/')).isInfix
  refine List.IsInfix.trans ?_ (stripDotSlash_suffix _).isInfix
  refine List.IsPrefix.isInfix ?_
  rw [← List.reverse_suffix, List.reverse_reverse]
  exact List.dropWhile_suffix _

end RsyncWin
