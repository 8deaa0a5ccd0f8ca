import RsyncWin.Filter.GlobGrammar
import RsyncWin.Lib.Path

/-!
# Laws of the grammar

A class ends at a bracket of its own pattern, so nothing that stands behind a pattern and
has no bracket changes what the pattern means. A slash outside of classes splits pattern
and text at once.
-/

namespace RsyncWin

/-! ## Where a class ends -/

theorem ClassItems.bracket_mem {first : Bool} {pattern after : Text} {items : List (Char × Char)}
    (h : ClassItems first pattern items after) : ']' ∈ pattern := by
  induction h with
  | close => exact List.mem_cons_self
  | range _ _ _ ih => exact List.mem_cons_of_mem _ (List.mem_cons_of_mem _ (List.mem_cons_of_mem _ ih))
  | single _ _ _ ih => exact List.mem_cons_of_mem _ ih

/-- A class that is closed goes on being the same class. -/
theorem ClassItems.append {first : Bool} {pattern after : Text} {items : List (Char × Char)}
    (h : ClassItems first pattern items after) (more : Text) :
    ClassItems first (pattern ++ more) items (after ++ more) := by
  induction h with
  | close => exact ClassItems.close
  | range hch hstop _ ih => exact ClassItems.range hch hstop ih
  | @single first ch rest items after hch hrest htail ih =>
      refine ClassItems.single hch (fun stop rest' heq => ?_) ih
      cases rest with
      | nil => exact absurd htail.bracket_mem List.not_mem_nil
      | cons dash rest =>
          obtain ⟨rfl, hstop⟩ := List.cons.inj heq
          cases rest with
          | nil =>
              have hmem := htail.bracket_mem
              exact absurd (List.mem_singleton.mp hmem) (by decide)
          | cons stop' rest =>
              obtain ⟨rfl, -⟩ := List.cons.inj hstop
              exact hrest _ _ rfl

/-- What has no bracket cannot close a class. -/
theorem ClassItems.of_append {first : Bool} {pattern more after : Text}
    {items : List (Char × Char)} (h : ClassItems first (pattern ++ more) items after)
    (hmore : ']' ∉ more) :
    ∃ rest, after = rest ++ more ∧ ClassItems first pattern items rest := by
  generalize htext : pattern ++ more = text at h
  induction h generalizing pattern with
  | close =>
      cases pattern with
      | nil =>
          rw [List.nil_append] at htext
          exact absurd (htext ▸ List.mem_cons_self) hmore
      | cons ch rest =>
          obtain ⟨rfl, rfl⟩ := List.cons.inj htext
          exact ⟨rest, rfl, ClassItems.close⟩
  | @range first ch stop rest items after hch hstop htail ih =>
      have hbracket := htail.bracket_mem
      match pattern, htext with
      | [], htext =>
          rw [List.nil_append] at htext
          rw [htext] at hmore
          exact absurd (by simp [hbracket]) hmore
      | [_], htext =>
          obtain ⟨-, rfl⟩ := List.cons.inj htext
          exact absurd (by simp [hbracket]) hmore
      | [_, _], htext =>
          obtain ⟨-, htext⟩ := List.cons.inj htext
          obtain ⟨-, rfl⟩ := List.cons.inj htext
          exact absurd (by simp [hbracket]) hmore
      | _ :: _ :: _ :: pattern, htext =>
          simp only [List.cons_append, List.cons.injEq] at htext
          obtain ⟨rfl, rfl, rfl, hrest⟩ := htext
          obtain ⟨rest', rfl, hitems⟩ := ih hrest
          exact ⟨rest', rfl, ClassItems.range hch hstop hitems⟩
  | @single first ch rest items after hch hrest htail ih =>
      cases pattern with
      | nil =>
          rw [List.nil_append] at htext
          rw [htext] at hmore
          exact absurd (List.mem_cons_of_mem _ htail.bracket_mem) hmore
      | cons head pattern =>
          obtain ⟨rfl, hpattern⟩ := List.cons.inj htext
          obtain ⟨rest', rfl, hitems⟩ := ih hpattern
          refine ⟨rest', rfl, ClassItems.single hch (fun stop rest'' heq => ?_) hitems⟩
          refine hrest stop (rest'' ++ more) ?_
          rw [← hpattern, heq]
          rfl

theorem ClassOf.bracket_mem {pattern after : Text} {cls : CharacterClass}
    (h : ClassOf pattern cls after) : ']' ∈ pattern := by
  cases h with
  | negated _ hitems => exact List.mem_cons_of_mem _ hitems.bracket_mem
  | plain _ hitems => exact hitems.bracket_mem

theorem ClassOf.append {pattern after : Text} {cls : CharacterClass}
    (h : ClassOf pattern cls after) (more : Text) :
    ClassOf (pattern ++ more) cls (after ++ more) := by
  cases h with
  | negated hmark hitems => exact ClassOf.negated hmark (hitems.append more)
  | plain hhead hitems =>
      refine ClassOf.plain (fun ch hch => hhead ch ?_) (hitems.append more)
      cases pattern with
      | nil => exact absurd hitems.bracket_mem List.not_mem_nil
      | cons head pattern => exact hch

theorem ClassOf.of_append {pattern more after : Text} {cls : CharacterClass}
    (h : ClassOf (pattern ++ more) cls after) (hmore : ']' ∉ more) :
    ∃ rest, after = rest ++ more ∧ ClassOf pattern cls rest := by
  generalize htext : pattern ++ more = text at h
  cases h with
  | @negated mark rest items after hmark hitems =>
      cases pattern with
      | nil =>
          rw [List.nil_append] at htext
          rw [htext] at hmore
          exact absurd (List.mem_cons_of_mem _ hitems.bracket_mem) hmore
      | cons head pattern =>
          obtain ⟨rfl, rfl⟩ := List.cons.inj htext
          obtain ⟨rest', rfl, hitems'⟩ := hitems.of_append hmore
          exact ⟨rest', rfl, ClassOf.negated hmark hitems'⟩
  | plain hhead hitems =>
      subst htext
      obtain ⟨rest', rfl, hitems'⟩ := hitems.of_append hmore
      refine ⟨rest', rfl, ClassOf.plain (fun ch hch => hhead ch ?_) hitems'⟩
      cases pattern with
      | nil => cases hch
      | cons head pattern => exact hch

/-- The bracket that closes a class, and what is behind it. -/
theorem ClassItems.split {first : Bool} {pattern after : Text} {items : List (Char × Char)}
    (h : ClassItems first pattern items after) : ∃ taken, pattern = taken ++ ']' :: after := by
  induction h with
  | close => exact ⟨[], rfl⟩
  | @range first ch stop rest items after _ _ _ ih =>
      obtain ⟨taken, rfl⟩ := ih
      exact ⟨ch :: '-' :: stop :: taken, rfl⟩
  | @single first ch rest items after _ _ _ ih =>
      obtain ⟨taken, rfl⟩ := ih
      exact ⟨ch :: taken, rfl⟩

theorem ClassOf.split {pattern after : Text} {cls : CharacterClass}
    (h : ClassOf pattern cls after) : ∃ taken, pattern = taken ++ ']' :: after := by
  cases h with
  | @negated mark rest items after _ hitems =>
      obtain ⟨taken, rfl⟩ := hitems.split
      exact ⟨mark :: taken, rfl⟩
  | plain _ hitems => exact hitems.split

/-! ## Splitting at a slash -/

theorem head_append_slash {pattern more : Text} (h : pattern.head? ≠ some '*') :
    (pattern ++ '/' :: more).head? ≠ some '*' := by
  cases pattern with
  | nil => exact fun h => absurd (Option.some.inj h) (by decide)
  | cons head pattern => exact h

theorem head_of_append_slash {pattern more : Text}
    (h : (pattern ++ '/' :: more).head? ≠ some '*') : pattern.head? ≠ some '*' := by
  cases pattern with
  | nil => exact nofun
  | cons head pattern => exact h

theorem glob_append_slash {pattern more left right : Text} (hmore : ']' ∉ more)
    (hleft : Glob pattern left) (hright : Glob more right) :
    Glob (pattern ++ '/' :: more) (left ++ '/' :: right) := by
  have hslash : ']' ∉ '/' :: more := by
    rw [List.mem_cons, not_or]
    exact ⟨by decide, hmore⟩
  induction hleft with
  | nil => exact Glob.literal (by decide) (by decide) (by decide) hright
  | literal hstar hany hclass _ ih => exact Glob.literal hstar hany hclass ih
  | any hne _ ih => exact Glob.any hne ih
  | star hhead hrun _ ih =>
      rw [List.append_assoc]
      exact Glob.star (head_append_slash hhead) hrun ih
  | stars hhead _ ih =>
      rw [List.append_assoc, List.append_assoc]
      exact Glob.stars (head_append_slash hhead) ih
  | oneOf hclass hne hcontains _ ih => exact Glob.oneOf (hclass.append _) hne hcontains ih
  | bracket hnone _ ih =>
      refine Glob.bracket (fun cls after hclass => ?_) ih
      obtain ⟨rest, -, hclass'⟩ := hclass.of_append hslash
      exact hnone cls rest hclass'

theorem glob_split_slash {pattern more text : Text} (hmore : ']' ∉ more)
    (h : Glob (pattern ++ '/' :: more) text) :
    ∃ left right, text = left ++ '/' :: right ∧ Glob pattern left ∧ Glob more right := by
  have hslash : ']' ∉ '/' :: more := by
    rw [List.mem_cons, not_or]
    exact ⟨by decide, hmore⟩
  generalize hwhole : pattern ++ '/' :: more = whole at h
  induction h generalizing pattern with
  | nil => exact absurd hwhole (List.append_ne_nil_of_right_ne_nil _ (List.cons_ne_nil _ _))
  | @literal ch rest text hstar hany hclass hrest ih =>
      cases pattern with
      | nil =>
          obtain ⟨rfl, rfl⟩ := List.cons.inj hwhole
          exact ⟨[], text, rfl, Glob.nil, hrest⟩
      | cons head pattern =>
          obtain ⟨rfl, hpattern⟩ := List.cons.inj hwhole
          obtain ⟨left, right, rfl, hleft, hright⟩ := ih hpattern
          exact ⟨head :: left, right, rfl, Glob.literal hstar hany hclass hleft, hright⟩
  | @any ch rest text hne hrest ih =>
      cases pattern with
      | nil => exact absurd (List.cons.inj hwhole).1 (by decide)
      | cons head pattern =>
          obtain ⟨rfl, hpattern⟩ := List.cons.inj hwhole
          obtain ⟨left, right, rfl, hleft, hright⟩ := ih hpattern
          exact ⟨ch :: left, right, rfl, Glob.any hne hleft, hright⟩
  | @star rest run text hhead hrun hrest ih =>
      cases pattern with
      | nil => exact absurd (List.cons.inj hwhole).1 (by decide)
      | cons head pattern =>
          obtain ⟨rfl, hpattern⟩ := List.cons.inj hwhole
          obtain ⟨left, right, rfl, hleft, hright⟩ := ih hpattern
          rw [← hpattern] at hhead
          exact ⟨run ++ left, right, by rw [List.append_assoc],
            Glob.star (head_of_append_slash hhead) hrun hleft, hright⟩
  | @stars n rest run text hhead hrest ih =>
      rcases List.append_eq_append_iff.mp hwhole with ⟨gap, hstars, hgap⟩ | ⟨gap, rfl, hgap⟩
      · -- The slash would be one of the stars.
        cases gap with
        | nil =>
            rw [List.append_nil] at hstars
            rw [List.nil_append] at hgap
            rw [← hstars]
            obtain ⟨left, right, rfl, hleft, hright⟩ := @ih [] hgap
            refine ⟨run ++ left, right, by rw [List.append_assoc], ?_, hright⟩
            have hmatch : Glob (List.replicate (n + 2) '*' ++ []) (run ++ left) :=
              Glob.stars nofun hleft
            rwa [List.append_nil] at hmatch
        | cons ch gap =>
            obtain ⟨rfl, -⟩ := List.cons.inj hgap
            have hmem : '/' ∈ List.replicate (n + 2) '*' := by
              rw [hstars]
              exact List.mem_append_right _ List.mem_cons_self
            exact absurd (List.eq_of_mem_replicate hmem) (by decide)
      · obtain ⟨left, right, rfl, hleft, hright⟩ := ih hgap.symm
        rw [hgap] at hhead
        exact ⟨run ++ left, right, by rw [List.append_assoc],
          Glob.stars (head_of_append_slash hhead) hleft, hright⟩
  | @oneOf rest cls after ch text hclass hne hcontains hrest ih =>
      cases pattern with
      | nil => exact absurd (List.cons.inj hwhole).1 (by decide)
      | cons head pattern =>
          obtain ⟨rfl, rfl⟩ := List.cons.inj hwhole
          obtain ⟨after', rfl, hclass'⟩ := hclass.of_append hslash
          obtain ⟨left, right, rfl, hleft, hright⟩ := ih rfl
          exact ⟨ch :: left, right, rfl, Glob.oneOf hclass' hne hcontains hleft, hright⟩
  | @bracket rest text hnone hrest ih =>
      cases pattern with
      | nil => exact absurd (List.cons.inj hwhole).1 (by decide)
      | cons head pattern =>
          obtain ⟨rfl, hpattern⟩ := List.cons.inj hwhole
          obtain ⟨left, right, rfl, hleft, hright⟩ := ih hpattern
          refine ⟨'[' :: left, right, rfl, Glob.bracket (fun cls after hclass => ?_) hleft, hright⟩
          refine hnone cls (after ++ '/' :: more) ?_
          rw [← hpattern]
          exact hclass.append _

/-- Behind its last slash outside of classes a pattern may be matched on its own. -/
theorem glob_append_slash_iff {pattern more : Text} (hmore : ']' ∉ more) (text : Text) :
    Glob (pattern ++ '/' :: more) text ↔
      ∃ left right, text = left ++ '/' :: right ∧ Glob pattern left ∧ Glob more right := by
  constructor
  · exact glob_split_slash hmore
  · rintro ⟨left, right, rfl, hleft, hright⟩
    exact glob_append_slash hmore hleft hright

/-- Two stars or more match every text. -/
theorem glob_stars (n : Nat) (text : Text) : Glob (List.replicate (n + 2) '*') text := by
  have h : Glob (List.replicate (n + 2) '*' ++ []) (text ++ []) := Glob.stars nofun Glob.nil
  rwa [List.append_nil, List.append_nil] at h

/-! ## What a pattern names -/

/-- `path` matches the body, at the place that the pattern looks at. -/
def Pattern.Names (p : Pattern) (path : Text) : Prop :=
  if p.anchored then Glob p.body path
  else if p.hasPathSeparator ∨ containsDoubleStar p.body then
    ∃ suffix ∈ pathSuffixes path, Glob p.body suffix
  else Glob p.body ((path.splitOn '/').getLastD [])

theorem suffix_of_mem_afterSlashes {path suffix : Text} (h : suffix ∈ afterSlashes path) :
    suffix <:+ path := by
  induction path with
  | nil => cases h
  | cons ch rest ih =>
      rw [afterSlashes] at h
      split at h
      · rcases List.mem_cons.mp h with rfl | h
        · exact List.suffix_cons ch _
        · exact (ih h).trans (List.suffix_cons ch rest)
      · exact (ih h).trans (List.suffix_cons ch rest)

theorem suffix_of_mem_pathSuffixes {path suffix : Text} (h : suffix ∈ pathSuffixes path) :
    suffix <:+ path := by
  rcases List.mem_cons.mp h with rfl | h
  · exact List.suffix_rfl
  · exact suffix_of_mem_afterSlashes h

theorem separated_of_noSlash {text : Text} (hback : '\\' ∉ text) (hslash : '/' ∉ text) :
    Separated text := by
  refine ⟨hback, List.Pairwise.isChain ?_⟩
  refine List.pairwise_of_forall_mem_list fun a ha b _ => ?_
  rintro ⟨rfl, -⟩
  exact hslash ha

theorem separated_basename {path : Text} (h : Separated path) :
    Separated ((path.splitOn '/').getLastD []) := by
  have hmem : (path.splitOn '/').getLastD [] ∈ path.splitOn '/' := by
    obtain ⟨part, parts, hparts⟩ := List.exists_cons_of_ne_nil (List.splitOn_ne_nil '/' path)
    rw [hparts, List.getLastD_cons]
    exact List.getLastD_mem_cons
  obtain ⟨hslash, hsubset⟩ := ByteString.mem_splitOn hmem
  exact separated_of_noSlash (fun hback => h.noBackslash (hsubset hback)) hslash

theorem globMatches_separated {pattern text : Text} (hpattern : Separated pattern)
    (htext : Separated text) : globMatches pattern text = true ↔ Glob pattern text := by
  rw [globMatches_iff, normalize_of_separated hpattern, normalize_of_separated htext]

/-- A pattern matches what it names, and its own text before a `***`. -/
theorem admits_iff {p : Pattern} (hbody : Separated p.body) (path : Text) (kind : EntryKind) :
    p.admits path kind = true ↔
      normalizeCandidatePath path ≠ [] ∧ (p.directoryOnly = true → kind = .directory) ∧
        ((kind = .directory ∧ p.matchDirectoryPrefix = some (normalizeCandidatePath path)) ∨
          p.Names (normalizeCandidatePath path)) := by
  have hpath := separated_candidate path
  unfold Pattern.admits
  by_cases hdir : p.directoryOnly = true ∧ kind ≠ .directory
  · rw [if_pos hdir]
    constructor
    · exact nofun
    · rintro ⟨-, hkind, -⟩
      exact absurd (hkind hdir.1) hdir.2
  rw [if_neg hdir]
  show (if normalizeCandidatePath path = [] then _ else _) = true ↔ _
  generalize normalizeCandidatePath path = q at hpath ⊢
  by_cases hempty : q = []
  · rw [if_pos hempty]
    exact ⟨nofun, fun h => absurd hempty h.1⟩
  rw [if_neg hempty]
  have hkind : p.directoryOnly = true → kind = .directory := fun h =>
    not_not.mp fun hne => hdir ⟨h, hne⟩
  by_cases hprefix : kind = .directory ∧ p.matchDirectoryPrefix = some q
  · rw [if_pos hprefix]
    exact ⟨fun _ => ⟨hempty, hkind, Or.inl hprefix⟩, fun _ => rfl⟩
  rw [if_neg hprefix]
  have hnames : (if p.anchored = true then globMatches p.body q
      else if p.hasPathSeparator = true ∨ containsDoubleStar p.body = true then
        (pathSuffixes q).any (globMatches p.body)
      else globMatches p.body ((q.splitOn '/').getLastD [])) = true ↔ p.Names q := by
    unfold Pattern.Names
    split
    · exact globMatches_separated hbody hpath
    · split
      · rw [List.any_eq_true]
        refine exists_congr fun suffix => and_congr_right fun hmem => ?_
        exact globMatches_separated hbody
          (hpath.part (suffix_of_mem_pathSuffixes hmem).isInfix)
      · exact globMatches_separated hbody (separated_basename hpath)
  rw [hnames]
  exact ⟨fun h => ⟨hempty, hkind, Or.inr h⟩, fun h => h.2.2.resolve_left hprefix⟩

end RsyncWin
