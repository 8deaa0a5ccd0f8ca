import RsyncWin.Filter.FilterFile
import RsyncWin.Filter.GlobLaws

/-!
# Escaped names

The matcher takes a backslash for an escape, but normalisation has made a slash of every
backslash before the matcher sees it. What an escaped name matches is worked out here: the
slash in front of a wildcard needs a slash of the text or a class to stand in.
-/

namespace RsyncWin

def specials : List Char := ['*', '?', '[', ']']

/-- A backslash in front of each character that has a meaning. -/
def escapeName (text : Text) : Text :=
  text.flatMap fun ch => if ch ∈ specials then ['\\', ch] else [ch]

/-- What normalisation makes of an escaped text behind a character. -/
def slashName (text : Text) : Text :=
  text.flatMap fun ch => if ch ∈ specials then ['/', ch] else [ch]

/-- A name without surrounding whitespace. -/
structure PlainText (text : Text) : Prop where
  nonempty : text ≠ []
  noSeparator : ∀ ch ∈ text, ¬ IsSeparator ch
  trimmed : trim text = text

/-- A relative path as the matcher sees it. -/
def NormalPath (path : Text) : Prop := path ≠ [] ∧ normalizeCandidatePath path = path

/-! ## Trimmed texts -/

theorem head_of_dropWhile {p : Char → Bool} {text : Text} (h : text.dropWhile p = text) :
    ∀ ch ∈ text.head?, ¬ p ch = true := by
  intro ch hch hp
  obtain ⟨rest, rfl⟩ := List.head?_eq_some_iff.mp hch
  rw [List.dropWhile_cons_of_pos hp] at h
  have hlength := (List.dropWhile_sublist p (l := rest)).length_le
  rw [h, List.length_cons] at hlength
  exact absurd hlength (Nat.not_succ_le_self _)

theorem dropWhile_of_head {p : Char → Bool} {text : Text} (h : ∀ ch ∈ text.head?, ¬ p ch = true) :
    text.dropWhile p = text := by
  cases text with
  | nil => rfl
  | cons ch rest => exact List.dropWhile_cons_of_neg (h ch rfl)

/-- Trimming leaves a text alone just if neither end is whitespace. -/
theorem trim_eq_self_iff {text : Text} :
    trim text = text ↔ (∀ ch ∈ text.head?, ¬ isWhitespace ch = true) ∧
      ∀ ch ∈ text.getLast?, ¬ isWhitespace ch = true := by
  constructor
  · intro h
    have hsuffix : trimStart text <:+ text := List.dropWhile_suffix _
    have hprefix : trim text <+: trimStart text := by
      unfold trim trimEnd
      rw [← List.reverse_suffix, List.reverse_reverse]
      exact List.dropWhile_suffix _
    have hstart : trimStart text = text := by
      refine hsuffix.eq_of_length_le ?_
      exact (congrArg List.length h).symm.le.trans hprefix.length_le
    refine ⟨head_of_dropWhile hstart, ?_⟩
    unfold trim trimEnd at h
    rw [hstart] at h
    have hend := congrArg List.reverse h
    rw [List.reverse_reverse] at hend
    have hlast := head_of_dropWhile hend
    rw [List.head?_reverse] at hlast
    exact hlast
  · rintro ⟨hhead, hlast⟩
    unfold trim trimEnd trimStart
    rw [dropWhile_of_head hhead, dropWhile_of_head, List.reverse_reverse]
    rw [List.head?_reverse]
    exact hlast

/-! ## What an escaped name is read as -/

theorem normalizeFrom_escape {text : Text} (h : ∀ ch ∈ text, ¬ IsSeparator ch) :
    normalizeFrom false (escapeName text) = slashName text := by
  induction text with
  | nil => rfl
  | cons ch rest ih =>
      rw [List.forall_mem_cons] at h
      unfold escapeName slashName
      rw [List.flatMap_cons, List.flatMap_cons]
      split
      · show normalizeFrom false ('\\' :: ch :: escapeName rest) = '/' :: ch :: slashName rest
        rw [normalizeFrom_separator (Or.inr rfl), if_neg Bool.false_ne_true,
          normalizeFrom_name h.1, ih h.2]
      · show normalizeFrom false (ch :: escapeName rest) = ch :: slashName rest
        rw [normalizeFrom_name h.1, ih h.2]

/-- The first escape is swallowed by the slash in front. -/
theorem normalizeFrom_escape_cons {ch : Char} {rest : Text}
    (h : ∀ c ∈ ch :: rest, ¬ IsSeparator c) :
    normalizeFrom true (escapeName (ch :: rest)) = ch :: slashName rest := by
  rw [List.forall_mem_cons] at h
  unfold escapeName
  rw [List.flatMap_cons]
  split
  · show normalizeFrom true ('\\' :: ch :: escapeName rest) = _
    rw [normalizeFrom_separator (Or.inr rfl), if_pos rfl, normalizeFrom_name h.1,
      normalizeFrom_escape h.2]
  · show normalizeFrom true (ch :: escapeName rest) = _
    rw [normalizeFrom_name h.1, normalizeFrom_escape h.2]

theorem getLast_escape (text : Text) : (escapeName text).getLast? = text.getLast? := by
  induction text with
  | nil => rfl
  | cons ch rest ih =>
      have hcons : escapeName (ch :: rest) =
          (if ch ∈ specials then ['\\', ch] else [ch]) ++ escapeName rest := List.flatMap_cons
      rw [hcons, List.getLast?_append, ih, List.getLast?_cons]
      cases rest.getLast? with
      | some last => rfl
      | none => split <;> rfl

theorem getLast_slashName (ch : Char) (text : Text) :
    (ch :: slashName text).getLast? = (ch :: text).getLast? := by
  induction text generalizing ch with
  | nil => rfl
  | cons head rest ih =>
      have hcons : slashName (head :: rest) =
          (if head ∈ specials then ['/', head] else [head]) ++ slashName rest := List.flatMap_cons
      rw [hcons]
      split
      · show (ch :: '/' :: head :: slashName rest).getLast? = _
        rw [List.getLast?_cons_cons, List.getLast?_cons_cons, ih, List.getLast?_cons_cons]
      · show (ch :: head :: slashName rest).getLast? = _
        rw [List.getLast?_cons_cons, ih, List.getLast?_cons_cons]

variable {ch : Char} {rest : Text}

theorem normalize_anchored (h : ∀ c ∈ ch :: rest, ¬ IsSeparator c) :
    normalizeFilterPath ('/' :: escapeName (ch :: rest)) = '/' :: ch :: slashName rest := by
  unfold normalizeFilterPath
  rw [normalizeFrom_separator (Or.inl rfl), if_neg Bool.false_ne_true,
    normalizeFrom_escape_cons h]

theorem last_ne_slash (h : ∀ c ∈ ch :: rest, ¬ IsSeparator c) :
    (ch :: slashName rest).getLast? ≠ some '/' := by
  rw [getLast_slashName]
  intro hlast
  exact h '/' (List.mem_of_getLast? hlast) (Or.inl rfl)

theorem patternBody_anchored (h : ∀ c ∈ ch :: rest, ¬ IsSeparator c) :
    patternBody ('/' :: escapeName (ch :: rest)) = stripDotSlash (ch :: slashName rest) := by
  have hhead : ('/' :: ch :: slashName rest).head? = some '/' := rfl
  unfold patternBody
  simp only
  rw [normalize_anchored h, if_pos hhead, List.tail_cons, if_neg (last_ne_slash h)]

theorem directoryOnly_anchored (h : ∀ c ∈ ch :: rest, ¬ IsSeparator c) :
    (patternOf ('/' :: escapeName (ch :: rest))).directoryOnly = false := by
  have hhead : ('/' :: ch :: slashName rest).head? = some '/' := rfl
  unfold patternOf
  simp only
  rw [normalize_anchored h, if_pos hhead, List.tail_cons]
  exact decide_eq_false (last_ne_slash h)

theorem trim_escape {text : Text} (h : PlainText text) : trim (escapeName text) = escapeName text := by
  obtain ⟨hhead, hlast⟩ := trim_eq_self_iff.mp h.trimmed
  refine trim_eq_self_iff.mpr ⟨?_, ?_⟩
  · cases text with
    | nil => exact absurd rfl h.nonempty
    | cons ch rest =>
        unfold escapeName
        rw [List.flatMap_cons]
        split
        · rintro c ⟨⟩
          decide
        · exact hhead
  · rw [getLast_escape]
    exact hlast

theorem trim_anchored {text : Text} (h : PlainText text) :
    trim ('/' :: escapeName text) = '/' :: escapeName text := by
  obtain ⟨-, hlast⟩ := trim_eq_self_iff.mp h.trimmed
  refine trim_eq_self_iff.mpr ⟨?_, ?_⟩
  · rintro c ⟨⟩
    decide
  · rw [List.getLast?_cons, getLast_escape]
    intro c hc
    cases hget : text.getLast? with
    | none => exact absurd (List.getLast?_eq_none_iff.mp hget) h.nonempty
    | some last =>
        rw [hget] at hc hlast
        exact hlast c hc

theorem mem_escape {text : Text} {c : Char} (h : c ∈ text) : c ∈ escapeName text := by
  refine List.mem_flatMap.mpr ⟨c, h, ?_⟩
  split
  · exact List.mem_cons_of_mem _ List.mem_cons_self
  · exact List.mem_singleton_self c

theorem escape_ne_nil {text : Text} (h : text ≠ []) : escapeName text ≠ [] := by
  obtain ⟨ch, rest, rfl⟩ := List.exists_cons_of_ne_nil h
  exact List.ne_nil_of_mem (mem_escape List.mem_cons_self)

/-- The escaped text is a pattern, and its anchored form is the one that the body shows. -/
theorem parse_escape {text : Text} (h : PlainText text) :
    (∃ p, Pattern.parse (escapeName text) = .ok p) ∧
      Pattern.parse ('/' :: escapeName text) = .ok (patternOf ('/' :: escapeName text)) := by
  obtain ⟨ch, rest, rfl⟩ := List.exists_cons_of_ne_nil h.nonempty
  have hname := h.noSeparator ch List.mem_cons_self
  constructor
  · refine (parse_ok_iff (trim_escape h) (escape_ne_nil h.nonempty)).mpr ⟨ch, ?_, hname⟩
    exact mem_escape List.mem_cons_self
  · have htrim := trim_anchored h
    have hparse := @parse_ok ('/' :: escapeName (ch :: rest))
    rw [htrim] at hparse
    refine hparse (List.cons_ne_nil _ _) fun hbody => ?_
    rw [patternBody_eq_nil_iff] at hbody
    exact hname (hbody ch (List.mem_cons_of_mem _ (mem_escape List.mem_cons_self)))

/-- A file matches the anchored pattern just if its path is in the grammar of the body. -/
theorem admits_escape (h : PlainText (ch :: rest)) {path : Text} (hpath : NormalPath path) :
    (patternOf ('/' :: escapeName (ch :: rest))).admits path .file = true ↔
      Glob (stripDotSlash (ch :: slashName rest)) path := by
  have hanchored : (patternOf ('/' :: escapeName (ch :: rest))).anchored = true := by
    show decide ((normalizeFilterPath ('/' :: escapeName (ch :: rest))).head? = some '/') = true
    rw [normalize_anchored h.noSeparator]
    rfl
  have hnames : (patternOf ('/' :: escapeName (ch :: rest))).Names path ↔
      Glob (stripDotSlash (ch :: slashName rest)) path := by
    unfold Pattern.Names
    rw [if_pos hanchored]
    show Glob (patternBody _) path ↔ _
    rw [patternBody_anchored h.noSeparator]
  rw [admits_iff (separated_patternBody _), hpath.2, hnames,
    directoryOnly_anchored h.noSeparator]
  constructor
  · rintro ⟨-, -, hdir | hglob⟩
    · cases hdir.1
    · exact hglob
  · exact fun hglob => ⟨hpath.1, nofun, Or.inr hglob⟩

/-! ## Names without slashes -/

theorem normalPath_of_noSeparator {path : Text} (hne : path ≠ [])
    (h : ∀ ch ∈ path, ¬ IsSeparator ch) : NormalPath path := by
  refine ⟨hne, ?_⟩
  have hslash : '/' ∉ path := fun hmem => h '/' hmem (Or.inl rfl)
  have hback : '\\' ∉ path := fun hmem => h '\\' hmem (Or.inr rfl)
  have hnormal := normalize_of_separated (separated_of_noSlash hback hslash)
  have hdrop : path.dropWhile (· = '/') = path := by
    apply dropWhile_of_head
    intro ch hch
    simpa using fun heq : ch = '/' => hslash (heq ▸ List.mem_of_mem_head? hch)
  have hstrip : stripDotSlash path = path := by
    rw [stripDotSlash.eq_def]
    split
    · exact absurd (List.mem_cons_of_mem _ List.mem_cons_self) hslash
    · rfl
  have hend : path.reverse.dropWhile (· = '/') = path.reverse := by
    apply dropWhile_of_head
    intro ch hch
    have hmem := List.mem_reverse.mp (List.mem_of_mem_head? hch)
    simpa using fun heq : ch = '/' => hslash (heq ▸ hmem)
  unfold normalizeCandidatePath
  simp only
  rw [hnormal, hdrop, hstrip, hend, List.reverse_reverse]

/-! ## What the body matches -/

/-- Every star but the first character stands behind a slash. -/
def StarsBehindSlash (pattern : Text) : Prop := pattern.IsChain fun a b => b = '*' → a = '/'

theorem head_ne_star {head : Char} {pattern : Text} (h : StarsBehindSlash (head :: pattern))
    (hhead : head ≠ '/') : pattern.head? ≠ some '*' := by
  intro hstar
  obtain ⟨rest, rfl⟩ := List.head?_eq_some_iff.mp hstar
  exact hhead ((List.isChain_cons_cons.mp h).1 rfl)

/-- Against a text without slashes a slash counts for nothing, and the star behind it
stands in the same class: each character of the text uses up one of the pattern. -/
theorem glob_short {pattern text : Text} (h : Glob pattern text) (hslash : '/' ∉ text)
    (hstars : StarsBehindSlash pattern) (hhead : pattern.head? ≠ some '*') :
    ('/' ∉ pattern ∧ text.length = pattern.length) ∨
      text.length + pattern.count '/' < pattern.length := by
  induction h with
  | nil => exact Or.inl ⟨List.not_mem_nil, rfl⟩
  | @literal ch pattern text _ _ _ _ ih =>
      rw [List.mem_cons, not_or] at hslash
      rw [List.mem_cons, not_or, List.count_cons_of_ne (Ne.symm hslash.1), List.length_cons,
        List.length_cons]
      rcases ih hslash.2 hstars.tail (head_ne_star hstars (Ne.symm hslash.1)) with ⟨hmem, heq⟩ | hlt
      · exact Or.inl ⟨⟨hslash.1, hmem⟩, by rw [heq]⟩
      · right
        omega
  | @any ch pattern text _ _ ih =>
      rw [List.mem_cons, not_or] at hslash
      rw [List.mem_cons, not_or, List.count_cons_of_ne (by decide), List.length_cons,
        List.length_cons]
      rcases ih hslash.2 hstars.tail (head_ne_star hstars (by decide)) with ⟨hmem, heq⟩ | hlt
      · exact Or.inl ⟨⟨by decide, hmem⟩, by rw [heq]⟩
      · right
        omega
  | star => exact absurd rfl hhead
  | stars => exact absurd rfl hhead
  | @oneOf pattern cls after ch text hclass _ _ _ ih =>
      rw [List.mem_cons, not_or] at hslash
      obtain ⟨taken, rfl⟩ := hclass.split
      have hafter : StarsBehindSlash (']' :: after) :=
        hstars.suffix (List.suffix_append ('[' :: taken) (']' :: after))
      have hcount := List.count_le_length (a := '/') (l := taken)
      have hrest : text.length + after.count '/' ≤ after.length := by
        rcases ih hslash.2 hafter.tail (head_ne_star hafter (by decide)) with ⟨hmem, heq⟩ | hlt
        · rw [List.count_eq_zero_of_not_mem hmem, heq]
          exact Nat.le_refl _
        · exact hlt.le
      right
      rw [List.count_cons_of_ne (by decide), List.count_append, List.count_cons_of_ne (by decide),
        List.length_cons, List.length_cons, List.length_append, List.length_cons]
      omega
  | @bracket pattern text _ _ ih =>
      rw [List.mem_cons, not_or] at hslash
      rw [List.mem_cons, not_or, List.count_cons_of_ne (by decide), List.length_cons,
        List.length_cons]
      rcases ih hslash.2 hstars.tail (head_ne_star hstars (by decide)) with ⟨hmem, heq⟩ | hlt
      · exact Or.inl ⟨⟨by decide, hmem⟩, by rw [heq]⟩
      · right
        omega

/-- A star in front takes one more character. -/
theorem glob_star_cons {pattern text : Text} {ch : Char} (h : Glob ('*' :: pattern) text)
    (hch : ch ≠ '/') : Glob ('*' :: pattern) (ch :: text) := by
  generalize hwhole : '*' :: pattern = whole at h ⊢
  cases h with
  | nil => cases hwhole
  | literal hstar _ _ _ =>
      obtain ⟨rfl, -⟩ := List.cons.inj hwhole
      exact absurd rfl hstar
  | any => cases hwhole
  | @star pattern run text hhead hrun hrest =>
      have hrun' : '/' ∉ ch :: run := by
        rw [List.mem_cons, not_or]
        exact ⟨Ne.symm hch, hrun⟩
      exact Glob.star hhead hrun' hrest
  | @stars n pattern run text hhead hrest =>
      have hmatch : Glob (List.replicate (n + 2) '*' ++ pattern) ((ch :: run) ++ text) :=
        Glob.stars hhead hrest
      exact hmatch
  | oneOf => cases hwhole
  | bracket => cases hwhole

/-- A plain character matches itself only, and so does a bracket that no other closes. -/
theorem glob_plain {text : Text} (h : ∀ ch ∈ text, ch ∉ specials) (path : Text) :
    Glob text path ↔ path = text := by
  induction text generalizing path with
  | nil =>
      constructor
      · rintro ⟨⟩
        rfl
      · rintro rfl
        exact Glob.nil
  | cons ch rest ih =>
      rw [List.forall_mem_cons] at h
      have hch := h.1
      unfold specials at hch
      simp only [List.mem_cons, List.not_mem_nil, or_false, not_or] at hch
      constructor
      · intro hglob
        cases hglob with
        | literal _ _ _ hrest => rw [(ih h.2 _).mp hrest]
        | any => exact absurd rfl hch.2.1
        | star => exact absurd rfl hch.1
        | stars => exact absurd rfl hch.1
        | oneOf => exact absurd rfl hch.2.2.1
        | bracket => exact absurd rfl hch.2.2.1
      · rintro rfl
        exact Glob.literal hch.1 hch.2.1 hch.2.2.1 ((ih h.2 rest).mpr rfl)

theorem glob_plain_cons (hstar : ch ≠ '*') (hany : ch ≠ '?') (h : ∀ c ∈ rest, c ∉ specials)
    (path : Text) : Glob (ch :: rest) path ↔ path = ch :: rest := by
  have hbracket : ']' ∉ rest := fun hmem => h ']' hmem (by decide)
  constructor
  · intro hglob
    cases hglob with
    | literal _ _ _ hrest => rw [(glob_plain h _).mp hrest]
    | any => exact absurd rfl hany
    | star => exact absurd rfl hstar
    | stars => exact absurd rfl hstar
    | oneOf hclass => exact absurd hclass.bracket_mem hbracket
    | bracket _ hrest => rw [(glob_plain h _).mp hrest]
  · rintro rfl
    by_cases hclass : ch = '['
    · subst hclass
      refine Glob.bracket (fun cls after hclass => ?_) ((glob_plain h rest).mpr rfl)
      exact hbracket hclass.bracket_mem
    · exact Glob.literal hstar hany hclass ((glob_plain h rest).mpr rfl)

/-! ## Escapes that survive -/

theorem slashName_cons (ch : Char) (rest : Text) :
    slashName (ch :: rest) = (if ch ∈ specials then ['/', ch] else [ch]) ++ slashName rest :=
  List.flatMap_cons

theorem starsBehindSlash_slashName (ch : Char) (text : Text) :
    StarsBehindSlash (ch :: slashName text) := by
  induction text generalizing ch with
  | nil => exact List.IsChain.singleton ch
  | cons head rest ih =>
      rw [slashName_cons]
      split
      · show StarsBehindSlash (ch :: '/' :: head :: slashName rest)
        refine List.isChain_cons_cons.mpr ⟨fun h => absurd h (by decide), ?_⟩
        exact List.isChain_cons_cons.mpr ⟨fun _ => rfl, ih head⟩
      · rename_i hhead
        refine List.isChain_cons_cons.mpr ⟨fun h => ?_, ih head⟩
        exact absurd (h ▸ by decide) hhead

theorem length_slashName {text : Text} (h : ∀ ch ∈ text, ¬ IsSeparator ch) :
    (slashName text).length = text.length + (slashName text).count '/' := by
  induction text with
  | nil => rfl
  | cons ch rest ih =>
      rw [List.forall_mem_cons] at h
      have hch : ch ≠ '/' := fun heq => h.1 (Or.inl heq)
      rw [slashName_cons]
      split
      · show (slashName rest).length + 1 + 1 =
          rest.length + 1 + ('/' :: ch :: slashName rest).count '/'
        rw [List.count_cons_self, List.count_cons_of_ne hch, ih h.2]
        omega
      · show (slashName rest).length + 1 = rest.length + 1 + (ch :: slashName rest).count '/'
        rw [List.count_cons_of_ne hch, ih h.2]
        omega

theorem plain_of_noSlash {text : Text} (h : '/' ∉ slashName text) : ∀ ch ∈ text, ch ∉ specials := by
  intro ch hmem hspecial
  refine h (List.mem_flatMap.mpr ⟨ch, hmem, ?_⟩)
  rw [if_pos hspecial]
  exact List.mem_cons_self

theorem slashName_plain {text : Text} (h : ∀ ch ∈ text, ch ∉ specials) : slashName text = text := by
  induction text with
  | nil => rfl
  | cons ch rest ih =>
      rw [List.forall_mem_cons] at h
      rw [slashName_cons, if_neg h.1, ih h.2]
      rfl

theorem stripDotSlash_self {text : Text} (h : ∀ rest, text ≠ '.' :: '/' :: rest) :
    stripDotSlash text = text := by
  rw [stripDotSlash.eq_def]
  split
  · exact absurd rfl (h _)
  · rfl

/-- A `./` is stripped that comes from a dot and an escape. -/
theorem stripDotSlash_slashName (h : ∀ c ∈ ch :: rest, ¬ IsSeparator c) :
    stripDotSlash (ch :: slashName rest) = ch :: slashName rest ∨
      ∃ head tail, rest = head :: tail ∧
        stripDotSlash (ch :: slashName rest) = head :: slashName tail := by
  cases rest with
  | nil => exact Or.inl (stripDotSlash_self fun rest heq => nomatch (List.cons.inj heq).2)
  | cons head tail =>
      rw [slashName_cons]
      split
      · rename_i hhead
        by_cases hdot : ch = '.'
        · subst hdot
          refine Or.inr ⟨head, tail, rfl, ?_⟩
          show stripDotSlash ('.' :: '/' :: head :: slashName tail) = _
          rw [stripDotSlash]
          refine stripDotSlash_self fun rest heq => ?_
          rw [(List.cons.inj heq).1] at hhead
          exact absurd hhead (by decide)
        · exact Or.inl (stripDotSlash_self fun rest heq => hdot (List.cons.inj heq).1)
      · refine Or.inl (stripDotSlash_self fun rest heq => ?_)
        have hslash : head = '/' := (List.cons.inj (List.cons.inj heq).2).1
        exact h head (List.mem_cons_of_mem _ List.mem_cons_self) (Or.inl hslash)

/-- The first character is no star and no `?`, and behind it there is nothing to escape. -/
def Survives (text : Text) : Prop :=
  (∀ ch ∈ text.head?, ch ≠ '*' ∧ ch ≠ '?') ∧ ∀ ch ∈ text.tail, ch ∉ specials

/-- A body that matches `text` only is `text`, without a wildcard at work in it. -/
theorem body_of_exact {text : Text} (htext : text = ch :: rest ∨ ∃ first, text = first :: ch :: rest)
    (hname : ∀ c ∈ text, ¬ IsSeparator c)
    (h : ∀ path, NormalPath path → (Glob (ch :: slashName rest) path ↔ path = text)) :
    text = ch :: rest ∧ Survives text := by
  have hne : text ≠ [] := by
    rcases htext with rfl | ⟨first, rfl⟩
    · exact List.cons_ne_nil _ _
    · exact List.cons_ne_nil _ _
  have hmem : ∀ c ∈ ch :: rest, ¬ IsSeparator c := by
    intro c hc
    rcases htext with rfl | ⟨first, rfl⟩
    · exact hname c hc
    · exact hname c (List.mem_cons_of_mem _ hc)
  have hself : Glob (ch :: slashName rest) text :=
    (h text (normalPath_of_noSeparator hne hname)).mpr rfl
  have hone : ∀ other, (∀ c ∈ other, ¬ IsSeparator c) → other ≠ [] →
      Glob (ch :: slashName rest) other → other = text := fun other hother hne hglob =>
    (h other (normalPath_of_noSeparator hne hother)).mp hglob
  have hstar : ch ≠ '*' := by
    rintro rfl
    have hlonger := hone ('a' :: text)
      (List.forall_mem_cons.mpr ⟨by decide, hname⟩) (List.cons_ne_nil _ _)
      (glob_star_cons hself (by decide))
    exact absurd (congrArg List.length hlonger) (Nat.succ_ne_self _)
  have hany : ch ≠ '?' := by
    rintro rfl
    cases hself with
    | literal _ hany _ _ => exact hany rfl
    | @any first _ text hfirst hrest =>
        have hother : ∀ c, ¬ IsSeparator c → c :: text = first :: text := fun c hc =>
          hone (c :: text) (List.forall_mem_cons.mpr ⟨hc, (List.forall_mem_cons.mp hname).2⟩)
            (List.cons_ne_nil _ _) (Glob.any (fun heq => hc (Or.inl heq)) hrest)
        have ha := (List.cons.inj (hother 'a' (by decide))).1
        have hb := (List.cons.inj (hother 'b' (by decide))).1
        exact absurd (ha.trans hb.symm) (by decide)
  have hslash : '/' ∉ text := fun hmem => hname '/' hmem (Or.inl rfl)
  have hch : ch ≠ '/' := fun heq => hmem ch List.mem_cons_self (Or.inl heq)
  have hlength := length_slashName (List.forall_mem_cons.mp hmem).2
  have hhead : (ch :: slashName rest).head? ≠ some '*' := fun heq => hstar (Option.some.inj heq)
  have hshort := glob_short hself hslash (starsBehindSlash_slashName ch rest) hhead
  rw [List.mem_cons, not_or, List.count_cons_of_ne hch, List.length_cons] at hshort
  rcases hshort with ⟨⟨-, hnone⟩, heq⟩ | hlt
  · rw [slashName_plain (plain_of_noSlash hnone)] at heq
    rcases htext with rfl | ⟨first, rfl⟩
    · refine ⟨rfl, fun c hc => ?_, plain_of_noSlash hnone⟩
      obtain rfl : ch = c := Option.some.inj hc
      exact ⟨hstar, hany⟩
    · simp only [List.length_cons] at heq
      omega
  · rcases htext with rfl | ⟨first, rfl⟩
    · simp only [List.length_cons] at hlt
      omega
    · simp only [List.length_cons] at hlt
      omega

/-- An escaped name is accepted and its anchored pattern matches that file only, just if
the escapes could have been left out but for the first. -/
theorem escapeName_exact_iff (text : Text) (h : PlainText text) :
    ((∃ p, Pattern.parse (escapeName text) = .ok p) ∧
      ∃ p, Pattern.parse ('/' :: escapeName text) = .ok p ∧
        ∀ path, NormalPath path → (p.admits path .file = true ↔ path = text)) ↔
      Survives text := by
  obtain ⟨ch, rest, rfl⟩ := List.exists_cons_of_ne_nil h.nonempty
  obtain ⟨haccepted, hparse⟩ := parse_escape h
  have hadmits : (∀ path, NormalPath path →
      ((patternOf ('/' :: escapeName (ch :: rest))).admits path .file = true ↔
        path = ch :: rest)) ↔
      ∀ path, NormalPath path →
        (Glob (stripDotSlash (ch :: slashName rest)) path ↔ path = ch :: rest) := by
    refine forall_congr' fun path => forall_congr' fun hpath => ?_
    rw [admits_escape h hpath]
  constructor
  · rintro ⟨-, p, hp, hexact⟩
    obtain rfl := Except.ok.inj (hparse.symm.trans hp)
    rw [hadmits] at hexact
    rcases stripDotSlash_slashName h.noSeparator with hbody | ⟨head, tail, rfl, hbody⟩
    · rw [hbody] at hexact
      exact (body_of_exact (Or.inl rfl) h.noSeparator hexact).2
    · rw [hbody] at hexact
      exact (body_of_exact (Or.inr ⟨ch, rfl⟩) h.noSeparator hexact).2
  · rintro ⟨hhead, htail⟩
    rw [List.tail_cons] at htail
    refine ⟨haccepted, _, hparse, hadmits.mpr fun path _ => ?_⟩
    have hslash : ∀ rest', ch :: rest ≠ '.' :: '/' :: rest' := by
      rintro rest' heq
      refine h.noSeparator '/' ?_ (Or.inl rfl)
      rw [heq]
      exact List.mem_cons_of_mem _ List.mem_cons_self
    rw [slashName_plain htail, stripDotSlash_self hslash]
    exact glob_plain_cons (hhead ch rfl).1 (hhead ch rfl).2 htail path

/-- `[a` needs only its first escape. -/
theorem escapeName_exact_iff_bracket :
    ((∃ p, Pattern.parse (escapeName "[a".toList) = .ok p) ∧
      ∃ p, Pattern.parse ('/' :: escapeName "[a".toList) = .ok p ∧
        ∀ path, NormalPath path → (p.admits path .file = true ↔ path = "[a".toList)) ↔
      Survives "[a".toList :=
  escapeName_exact_iff "[a".toList ⟨by decide, by simp [IsSeparator], by decide⟩

/-- The escaped `a*b` is a path of two components. -/
theorem escapeName_star :
    PlainText "a*b".toList ∧
      ¬ ((∃ p, Pattern.parse (escapeName "a*b".toList) = .ok p) ∧
        ∃ p, Pattern.parse ('/' :: escapeName "a*b".toList) = .ok p ∧
          ∀ path, NormalPath path → (p.admits path .file = true ↔ path = "a*b".toList)) := by
  refine ⟨⟨by decide, by simp [IsSeparator], by decide⟩, ?_⟩
  rintro ⟨-, p, hp, h⟩
  have hparse : Pattern.parse ('/' :: escapeName "a*b".toList) =
      .ok (patternOf ('/' :: escapeName "a*b".toList)) := by decide
  obtain rfl := Except.ok.inj (hparse.symm.trans hp)
  have hself := (h "a*b".toList ⟨by decide, by decide⟩).mpr rfl
  exact absurd hself (by decide)

end RsyncWin
