import RsyncWin.Filter.Escapes

/-!
# A directory and everything below it

The pattern `P/***` is meant to name what `P/` names and what is below. The directory
itself is recognised by its text, without globbing and at the top only; what is below
goes through the grammar, which treats two stars and three alike.
-/

namespace RsyncWin

/-! ## What a pattern with something behind it is read as -/

def dropSlash (text : Text) : Text := if text.getLast? = some '/' then text.dropLast else text

/-- A normalised text without its slash in front. -/
def unanchored (text : Text) : Text :=
  let body := normalizeFilterPath text
  if body.head? = some '/' then body.tail else body

theorem patternBody_eq (text : Text) :
    patternBody text = stripDotSlash (dropSlash (unanchored text)) := rfl

theorem directoryOnly_eq (text : Text) :
    (patternOf text).directoryOnly = decide ((unanchored text).getLast? = some '/') := rfl

theorem dropSlash_cons {ch : Char} {text : Text} (h : ch ≠ '/' ∨ text ≠ []) :
    dropSlash (ch :: text) = ch :: dropSlash text := by
  unfold dropSlash
  cases text with
  | nil =>
      have hch : ch ≠ '/' := h.resolve_right (fun h => h rfl)
      have hlast : [ch].getLast? ≠ some '/' := fun hlast => hch (Option.some.inj hlast)
      rw [if_neg hlast]
      rfl
  | cons head rest =>
      rw [List.getLast?_cons_cons]
      split
      · rw [List.dropLast_cons_cons]
      · rfl

/-- A slash behind a text takes the place of the one at its end. -/
theorem normalizeFrom_append_slash (text more : Text) :
    normalizeFrom false (text ++ '/' :: more) =
        dropSlash (normalizeFrom false text) ++ '/' :: normalizeFrom true more ∧
      normalizeFrom true (text ++ '/' :: more) =
        if normalizeFrom true text = [] then normalizeFrom true more
        else dropSlash (normalizeFrom true text) ++ '/' :: normalizeFrom true more := by
  induction text with
  | nil => exact ⟨rfl, rfl⟩
  | cons ch rest ih =>
      obtain ⟨ihFalse, ihTrue⟩ := ih
      rw [List.cons_append]
      by_cases hch : IsSeparator ch
      · rw [normalizeFrom_separator hch, normalizeFrom_separator hch, normalizeFrom_separator hch,
          normalizeFrom_separator hch, if_neg Bool.false_ne_true, if_neg Bool.false_ne_true,
          if_pos rfl, if_pos rfl]
        refine ⟨?_, ihTrue⟩
        rw [ihTrue]
        by_cases hrest : normalizeFrom true rest = []
        · rw [if_pos hrest, hrest]
          rfl
        · rw [if_neg hrest, dropSlash_cons (Or.inr hrest)]
          rfl
      · have hne : ch ≠ '/' := fun h => hch (Or.inl h)
        rw [normalizeFrom_name hch, normalizeFrom_name hch, normalizeFrom_name hch,
          normalizeFrom_name hch, ihFalse, if_neg (List.cons_ne_nil _ _),
          dropSlash_cons (Or.inl hne)]
        exact ⟨rfl, rfl⟩

theorem normalize_append_slash (text more : Text) :
    normalizeFilterPath (text ++ '/' :: more) =
      dropSlash (normalizeFilterPath text) ++ '/' :: normalizeFrom true more :=
  (normalizeFrom_append_slash text more).1

theorem stripDotSlash_append_slash (text more : Text) :
    stripDotSlash (text ++ '/' :: more) =
      if stripDotSlash text = ['.'] then stripDotSlash more
      else stripDotSlash text ++ '/' :: more := by
  fun_induction stripDotSlash text with
  | case1 rest ih => exact ih
  | case2 text htext =>
      split
      · rename_i hdot
        rw [hdot]
        rfl
      · rename_i hdot
        refine stripDotSlash_self fun rest heq => ?_
        rcases text with - | ⟨first, - | ⟨second, rest'⟩⟩
        · exact absurd (List.cons.inj heq).1 (by decide)
        · obtain ⟨rfl, -⟩ := List.cons.inj heq
          exact hdot rfl
        · simp only [List.cons_append, List.cons.injEq] at heq
          obtain ⟨rfl, rfl, -⟩ := heq
          exact htext rest' rfl

theorem trim_append {text more : Text} (htext : trimStart text ≠ [])
    (hmore : ∃ last, more.getLast? = some last ∧ ¬ isWhitespace last = true) :
    trim (text ++ more) = trimStart text ++ more := by
  obtain ⟨last, hlast, hspace⟩ := hmore
  have hstart : trimStart (text ++ more) = trimStart text ++ more := by
    unfold trimStart at htext ⊢
    rw [List.dropWhile_append, if_neg (by rw [List.isEmpty_iff]; exact htext)]
  unfold trim trimEnd
  rw [hstart, dropWhile_of_head, List.reverse_reverse]
  rw [List.head?_reverse, List.getLast?_append, hlast]
  intro ch hch
  obtain rfl : last = ch := Option.some.inj hch
  exact hspace

/-- A text with a name in it keeps its first character when it loses a slash at its end. -/
theorem dropSlash_of_name {text : Text} (h : ∃ ch ∈ text, ch ≠ '/') :
    ∃ head rest, text = head :: rest ∧ dropSlash text = head :: dropSlash rest := by
  obtain ⟨ch, hmem, hch⟩ := h
  cases text with
  | nil => exact absurd hmem List.not_mem_nil
  | cons head rest =>
      refine ⟨head, rest, rfl, dropSlash_cons ?_⟩
      rcases List.mem_cons.mp hmem with rfl | hmem
      · exact Or.inl hch
      · exact Or.inr (List.ne_nil_of_mem hmem)

section Appended

variable {text : Text}

theorem name_normalize (h : ∃ ch ∈ text, ¬ IsSeparator ch) :
    ∃ ch ∈ normalizeFilterPath text, ch ≠ '/' := by
  obtain ⟨ch, hmem, hch⟩ := h
  exact ⟨ch, (mem_normalizeFrom hch false text).mpr hmem, fun heq => hch (Or.inl heq)⟩

theorem head_append_slash_normal (h : ∃ ch ∈ text, ¬ IsSeparator ch) (more : Text) :
    (normalizeFilterPath (text ++ '/' :: more)).head? = (normalizeFilterPath text).head? := by
  obtain ⟨head, rest, htext, hdrop⟩ := dropSlash_of_name (name_normalize h)
  rw [normalize_append_slash, hdrop, htext]
  rfl

theorem unanchored_append_slash (h : ∃ ch ∈ text, ¬ IsSeparator ch) (more : Text) :
    unanchored (text ++ '/' :: more) =
      dropSlash (unanchored text) ++ '/' :: normalizeFrom true more := by
  unfold unanchored
  simp only
  rw [head_append_slash_normal h more, normalize_append_slash]
  obtain ⟨head, rest, htext, hdrop⟩ := dropSlash_of_name (name_normalize h)
  rw [hdrop, htext]
  split
  · rfl
  · rw [← htext, hdrop]

theorem patternBody_append_slash (h : ∃ ch ∈ text, ¬ IsSeparator ch) {more : Text}
    (hnormal : normalizeFrom true more = more)
    (hlast : (unanchored (text ++ '/' :: more)).getLast? ≠ some '/') :
    patternBody (text ++ '/' :: more) =
      if patternBody text = ['.'] then stripDotSlash more else patternBody text ++ '/' :: more := by
  have hdrop : dropSlash (unanchored (text ++ '/' :: more)) = unanchored (text ++ '/' :: more) :=
    if_neg hlast
  rw [patternBody_eq, hdrop, unanchored_append_slash h, hnormal, stripDotSlash_append_slash]
  rfl

theorem patternOf_slash (h : ∃ ch ∈ text, ¬ IsSeparator ch) :
    patternOf (text ++ ['/']) =
      { patternOf text with raw := text ++ ['/'], directoryOnly := true } := by
  have hunanchored : unanchored (text ++ ['/']) = dropSlash (unanchored text) ++ ['/'] :=
    unanchored_append_slash h []
  have hlast : (unanchored (text ++ ['/'])).getLast? = some '/' := by
    rw [hunanchored, List.getLast?_concat]
  have hbody : patternBody (text ++ ['/']) = patternBody text := by
    have hdrop : dropSlash (unanchored (text ++ ['/'])) = dropSlash (unanchored text) := by
      rw [dropSlash, if_pos hlast, hunanchored, List.dropLast_concat]
    rw [patternBody_eq, hdrop]
    rfl
  have hdirectory : (patternOf (text ++ ['/'])).directoryOnly = true := by
    rw [directoryOnly_eq, hlast]
    rfl
  have hanchored : (patternOf (text ++ ['/'])).anchored = (patternOf text).anchored := by
    show decide ((normalizeFilterPath (text ++ ['/'])).head? = some '/') = _
    rw [head_append_slash_normal h []]
    rfl
  have hfields : patternOf (text ++ ['/']) =
      ⟨text ++ ['/'], patternBody (text ++ ['/']), (patternOf (text ++ ['/'])).anchored,
        (patternOf (text ++ ['/'])).directoryOnly, (patternBody (text ++ ['/'])).contains '/',
        stripSuffix "/***".toList (patternBody (text ++ ['/']))⟩ := rfl
  rw [hfields, hbody, hanchored, hdirectory]
  rfl

/-! ## Stars behind a slash -/

def stars (k : Nat) : Text := List.replicate (k + 2) '*'

theorem mem_stars {k : Nat} {ch : Char} (h : ch ∈ stars k) : ch = '*' := List.eq_of_mem_replicate h

theorem normalize_stars (k : Nat) : normalizeFrom true (stars k) = stars k := by
  refine normalizeFrom_of_separated ?_ true fun _ hhead => ?_
  · refine separated_of_noSlash (fun h => ?_) fun h => ?_
    · exact absurd (mem_stars h) (by decide)
    · exact absurd (mem_stars h) (by decide)
  · exact absurd (mem_stars (List.mem_of_mem_head? hhead)) (by decide)

theorem unanchored_stars_last (h : ∃ ch ∈ text, ¬ IsSeparator ch) (k : Nat) :
    (unanchored (text ++ '/' :: stars k)).getLast? ≠ some '/' := by
  rw [unanchored_append_slash h, normalize_stars, List.getLast?_append, List.getLast?_cons]
  cases hlast : (stars k).getLast? with
  | none => exact absurd (List.getLast?_eq_none_iff.mp hlast) (List.cons_ne_nil _ _)
  | some last =>
      intro hslash
      obtain rfl : last = '/' := Option.some.inj hslash
      exact absurd (mem_stars (List.mem_of_getLast? hlast)) (by decide)

theorem patternBody_stars (h : ∃ ch ∈ text, ¬ IsSeparator ch) (k : Nat) :
    patternBody (text ++ '/' :: stars k) =
      if patternBody text = ['.'] then stars k else patternBody text ++ '/' :: stars k := by
  have hstrip : stripDotSlash (stars k) = stars k := by
    refine stripDotSlash_self fun rest heq => ?_
    have hdot : '.' ∈ stars k := heq ▸ List.mem_cons_self
    exact absurd (mem_stars hdot) (by decide)
  rw [patternBody_append_slash h (normalize_stars k) (unanchored_stars_last h k), hstrip]

theorem directoryOnly_stars (h : ∃ ch ∈ text, ¬ IsSeparator ch) (k : Nat) :
    (patternOf (text ++ '/' :: stars k)).directoryOnly = false := by
  rw [directoryOnly_eq]
  exact decide_eq_false (unanchored_stars_last h k)

/-- `path` is below what the body matches. -/
def LiesBelow (text path : Text) : Prop :=
  patternBody text = ['.'] ∨
    if (patternOf text).anchored then
      ∃ left right, path = left ++ '/' :: right ∧ Glob (patternBody text) left
    else
      ∃ suffix ∈ pathSuffixes path, ∃ left right, suffix = left ++ '/' :: right ∧
        Glob (patternBody text) left

theorem containsDoubleStar_stars (k : Nat) : containsDoubleStar (stars k) = true := rfl

theorem bracket_not_mem_stars (k : Nat) : ']' ∉ stars k := fun h =>
  absurd (mem_stars h) (by decide)

/-- However many the stars are, they name what is below. -/
theorem names_stars (h : ∃ ch ∈ text, ¬ IsSeparator ch) (k : Nat) (path : Text) :
    (patternOf (text ++ '/' :: stars k)).Names path ↔ LiesBelow text path := by
  have hanchored : (patternOf (text ++ '/' :: stars k)).anchored = (patternOf text).anchored := by
    show decide ((normalizeFilterPath (text ++ '/' :: stars k)).head? = some '/') = _
    rw [head_append_slash_normal h]
    rfl
  have hseparator : (patternOf (text ++ '/' :: stars k)).hasPathSeparator =
      (patternBody (text ++ '/' :: stars k)).contains '/' := rfl
  unfold Pattern.Names
  rw [hanchored, hseparator]
  show (if (patternOf text).anchored = true then Glob (patternBody (text ++ '/' :: stars k)) path
    else if (patternBody (text ++ '/' :: stars k)).contains '/' = true ∨
      containsDoubleStar (patternBody (text ++ '/' :: stars k)) = true then
        ∃ suffix ∈ pathSuffixes path, Glob (patternBody (text ++ '/' :: stars k)) suffix
    else Glob (patternBody (text ++ '/' :: stars k)) ((path.splitOn '/').getLastD [])) ↔ _
  rw [patternBody_stars h]
  unfold LiesBelow
  by_cases hdot : patternBody text = ['.']
  · have hall : ∀ path, Glob (stars k) path := fun path => glob_stars k path
    rw [if_pos hdot]
    refine ⟨fun _ => Or.inl hdot, fun _ => ?_⟩
    split
    · exact hall path
    · rw [if_pos (Or.inr (containsDoubleStar_stars k))]
      exact ⟨path, List.mem_cons_self, hall path⟩
  · have hsplit : ∀ path, Glob (patternBody text ++ '/' :: stars k) path ↔
        ∃ left right, path = left ++ '/' :: right ∧ Glob (patternBody text) left := by
      intro path
      rw [glob_append_slash_iff (bracket_not_mem_stars k)]
      constructor
      · rintro ⟨left, right, hpath, hleft, -⟩
        exact ⟨left, right, hpath, hleft⟩
      · rintro ⟨left, right, hpath, hleft⟩
        exact ⟨left, right, hpath, hleft, glob_stars k right⟩
    have hcontains : (patternBody text ++ '/' :: stars k).contains '/' = true := by
      rw [List.contains_iff_mem]
      exact List.mem_append_right _ List.mem_cons_self
    rw [if_neg hdot, or_iff_right hdot]
    split
    · exact hsplit path
    · rw [if_pos (Or.inl hcontains)]
      exact exists_congr fun suffix => and_congr_right fun _ => hsplit suffix

/-- Three stars remember the directory, two do not. -/
theorem matchDirectoryPrefix_three (h : ∃ ch ∈ text, ¬ IsSeparator ch)
    (hdot : patternBody text ≠ ['.']) :
    (patternOf (text ++ '/' :: stars 1)).matchDirectoryPrefix = some (patternBody text) := by
  show stripSuffix "/***".toList (patternBody (text ++ '/' :: stars 1)) = _
  have hsuffix : List.isSuffixOf "/***".toList (patternBody text ++ '/' :: stars 1) = true :=
    List.isSuffixOf_iff_suffix.mpr (List.suffix_append _ _)
  rw [patternBody_stars h, if_neg hdot, stripSuffix, if_pos hsuffix, List.length_append]
  have hlength : ('/' :: stars 1).length = "/***".toList.length := rfl
  rw [hlength, Nat.add_sub_cancel, List.take_left]

theorem matchDirectoryPrefix_two (h : ∃ ch ∈ text, ¬ IsSeparator ch) :
    (patternOf (text ++ '/' :: stars 0)).matchDirectoryPrefix = none := by
  show stripSuffix "/***".toList (patternBody (text ++ '/' :: stars 0)) = _
  rw [patternBody_stars h, stripSuffix, if_neg]
  rw [List.isSuffixOf_iff_suffix]
  split
  · rintro ⟨front, hfront⟩
    have hlength := congrArg List.length hfront
    rw [List.length_append] at hlength
    have hfour : "/***".toList.length = 4 := rfl
    have htwo : (stars 0).length = 2 := rfl
    omega
  · rintro ⟨front, hfront⟩
    have hreverse := congrArg List.reverse hfront
    rw [List.reverse_append, List.reverse_append] at hreverse
    have hthird := (List.cons.inj (List.cons.inj (List.cons.inj hreverse).2).2).1
    exact absurd hthird (by decide)

end Appended

/-- The directories that `P/` names: by globbing, at any depth unless it is anchored. -/
def DirectoryNamed (text path : Text) : Prop :=
  (patternOf text).matchDirectoryPrefix = some path ∨ (patternOf text).Names path

/-- Where the three patterns agree: below what is named, and where the text of the
pattern and its meaning name the same. -/
def TripleStarAgrees (text path : Text) (kind : EntryKind) : Prop :=
  kind = .file ∨ normalizeCandidatePath path = [] ∨
    LiesBelow (trimStart text) (normalizeCandidatePath path) ∨
      (patternBody (trimStart text) = normalizeCandidatePath path ↔
        DirectoryNamed (trimStart text) (normalizeCandidatePath path))

theorem name_of_parse {text : Text} (h : ∃ p, Pattern.parse text = .ok p) :
    trimStart text ≠ [] ∧ ∃ ch ∈ trimStart text, ¬ IsSeparator ch := by
  have htrim : trim text ≠ [] := by
    intro hempty
    obtain ⟨p, hp⟩ := h
    unfold Pattern.parse at hp
    simp only at hp
    rw [if_pos hempty] at hp
    cases hp
  have hbody : patternBody (trim text) ≠ [] := by
    intro hempty
    obtain ⟨p, hp⟩ := h
    rw [parse_eq htrim, if_pos hempty] at hp
    cases hp
  have hprefix : trim text <+: trimStart text := by
    unfold trim trimEnd
    rw [← List.reverse_suffix, List.reverse_reverse]
    exact List.dropWhile_suffix _
  rw [Ne, patternBody_eq_nil_iff] at hbody
  push Not at hbody
  obtain ⟨ch, hmem, hch⟩ := hbody
  have hstart := hprefix.subset hmem
  exact ⟨List.ne_nil_of_mem hstart, ch, hstart, hch⟩

theorem parse_append_slash {text more : Text} (h : ∃ p, Pattern.parse text = .ok p)
    (hmore : ∀ last ∈ ('/' :: more).getLast?, ¬ isWhitespace last = true) :
    Pattern.parse (text ++ '/' :: more) = .ok (patternOf (trimStart text ++ '/' :: more)) := by
  obtain ⟨hne, ch, hmem, hch⟩ := name_of_parse h
  have htrim : trim (text ++ '/' :: more) = trimStart text ++ '/' :: more := by
    refine trim_append hne ?_
    cases hlast : ('/' :: more).getLast? with
    | none => exact absurd (List.getLast?_eq_none_iff.mp hlast) (List.cons_ne_nil _ _)
    | some last => exact ⟨last, rfl, hmore last hlast⟩
  rw [← htrim]
  refine parse_ok ?_ ?_
  · rw [htrim]
    exact List.append_ne_nil_of_left_ne_nil hne _
  · rw [htrim, Ne, patternBody_eq_nil_iff]
    exact fun hall => hch (hall ch (List.mem_append_left _ hmem))

section Kinds

variable {text : Text} (h : ∃ ch ∈ text, ¬ IsSeparator ch) (path : Text) (kind : EntryKind)

include h

theorem admits_two :
    (patternOf (text ++ '/' :: stars 0)).admits path kind = true ↔
      normalizeCandidatePath path ≠ [] ∧ LiesBelow text (normalizeCandidatePath path) := by
  rw [admits_iff (separated_patternBody _), names_stars h, directoryOnly_stars h,
    matchDirectoryPrefix_two h]
  constructor
  · rintro ⟨hne, -, ⟨-, hprefix⟩ | hbelow⟩
    · cases hprefix
    · exact ⟨hne, hbelow⟩
  · rintro ⟨hne, hbelow⟩
    exact ⟨hne, nofun, Or.inr hbelow⟩

theorem admits_three :
    (patternOf (text ++ '/' :: stars 1)).admits path kind = true ↔
      normalizeCandidatePath path ≠ [] ∧ (LiesBelow text (normalizeCandidatePath path) ∨
        (kind = .directory ∧ patternBody text = normalizeCandidatePath path)) := by
  rw [admits_iff (separated_patternBody _), names_stars h, directoryOnly_stars h]
  by_cases hdot : patternBody text = ['.']
  · have hbelow : LiesBelow text (normalizeCandidatePath path) := Or.inl hdot
    constructor
    · rintro ⟨hne, -⟩
      exact ⟨hne, Or.inl hbelow⟩
    · rintro ⟨hne, -⟩
      exact ⟨hne, nofun, Or.inr hbelow⟩
  · rw [matchDirectoryPrefix_three h hdot, Option.some.injEq]
    constructor
    · rintro ⟨hne, -, hprefix | hbelow⟩
      · exact ⟨hne, Or.inr hprefix⟩
      · exact ⟨hne, Or.inl hbelow⟩
    · rintro ⟨hne, hbelow | hprefix⟩
      · exact ⟨hne, nofun, Or.inr hbelow⟩
      · exact ⟨hne, nofun, Or.inl hprefix⟩

theorem admits_slash :
    (patternOf (text ++ ['/'])).admits path kind = true ↔
      normalizeCandidatePath path ≠ [] ∧ kind = .directory ∧
        DirectoryNamed text (normalizeCandidatePath path) := by
  rw [admits_iff (separated_patternBody _), patternOf_slash h]
  show _ ∧ (true = true → kind = .directory) ∧
    ((kind = .directory ∧ (patternOf text).matchDirectoryPrefix = _) ∨
      (patternOf text).Names _) ↔ _
  constructor
  · rintro ⟨hne, hkind, ⟨-, hprefix⟩ | hnames⟩
    · exact ⟨hne, hkind rfl, Or.inl hprefix⟩
    · exact ⟨hne, hkind rfl, Or.inr hnames⟩
  · rintro ⟨hne, hkind, hprefix | hnames⟩
    · exact ⟨hne, fun _ => hkind, Or.inl ⟨hkind, hprefix⟩⟩
    · exact ⟨hne, fun _ => hkind, Or.inr hnames⟩

end Kinds

/-- `P/***` matches what `P/` or `P/**` matches just where the text of the pattern and
its meaning agree. -/
theorem tripleStar_iff (text path : Text) (kind : EntryKind)
    (h : ∃ p, Pattern.parse text = .ok p) :
    ∃ all directory below, Pattern.parse (text ++ "/***".toList) = .ok all ∧
      Pattern.parse (text ++ "/".toList) = .ok directory ∧
      Pattern.parse (text ++ "/**".toList) = .ok below ∧
      ((all.admits path kind = true ↔
          directory.admits path kind = true ∨ below.admits path kind = true) ↔
        TripleStarAgrees text path kind) := by
  obtain ⟨-, hname⟩ := name_of_parse h
  have hall := @parse_append_slash text (stars 1) h (by rintro last ⟨⟩; decide)
  have hdirectory := @parse_append_slash text [] h (by rintro last ⟨⟩; decide)
  have hbelow := @parse_append_slash text (stars 0) h (by rintro last ⟨⟩; decide)
  refine ⟨_, _, _, hall, hdirectory, hbelow, ?_⟩
  rw [admits_three hname, admits_slash hname, admits_two hname]
  unfold TripleStarAgrees
  generalize normalizeCandidatePath path = q
  by_cases hempty : q = []
  · exact ⟨fun _ => Or.inr (Or.inl hempty), fun _ =>
      ⟨fun hall => absurd hempty hall.1, fun hor => hor.elim (fun hdirectory =>
        absurd hempty hdirectory.1) fun hbelow => absurd hempty hbelow.1⟩⟩
  by_cases hbelow : LiesBelow (trimStart text) q
  · exact ⟨fun _ => Or.inr (Or.inr (Or.inl hbelow)), fun _ =>
      ⟨fun _ => Or.inr ⟨hempty, hbelow⟩, fun _ => ⟨hempty, Or.inl hbelow⟩⟩⟩
  cases kind with
  | file => simp [hbelow]
  | directory => simp [hempty, hbelow]

/-- A directory named by its text. -/
theorem tripleStar_iff_vendor :
    ∃ all directory below, Pattern.parse ("vendor".toList ++ "/***".toList) = .ok all ∧
      Pattern.parse ("vendor".toList ++ "/".toList) = .ok directory ∧
      Pattern.parse ("vendor".toList ++ "/**".toList) = .ok below ∧
      ((all.admits "vendor".toList .directory = true ↔
          directory.admits "vendor".toList .directory = true ∨
            below.admits "vendor".toList .directory = true) ↔
        TripleStarAgrees "vendor".toList "vendor".toList .directory) :=
  tripleStar_iff "vendor".toList "vendor".toList .directory ⟨_, rfl⟩

/-- The nested directory itself is left out. -/
theorem tripleStar_nested :
    ∃ all directory below, Pattern.parse "vendor/***".toList = .ok all ∧
      Pattern.parse "vendor/".toList = .ok directory ∧
      Pattern.parse "vendor/**".toList = .ok below ∧
      ¬ (all.admits "nested/vendor".toList .directory = true ↔
          directory.admits "nested/vendor".toList .directory = true ∨
            below.admits "nested/vendor".toList .directory = true) :=
  ⟨_, _, _, rfl, rfl, rfl, by decide +kernel⟩

end RsyncWin
