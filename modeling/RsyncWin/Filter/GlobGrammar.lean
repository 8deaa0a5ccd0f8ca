import RsyncWin.Filter.Normal
import RsyncWin.Lib.Memo

/-!
# What wildcards mean

The grammar of patterns as a relation, and the matcher of the source with its positions
and its table. The matcher without positions stands between the two: it has an equation
for every kind of pattern, the table never holds anything but its values, and it decides
the relation.
-/

namespace RsyncWin

open MemoTable

/-! ## The grammar -/

/-- The items of a class up to its closing bracket. In `first` position a bracket is an
item, and a range needs an end that is no bracket. -/
inductive ClassItems : Bool → Text → List (Char × Char) → Text → Prop where
  | close {rest} : ClassItems false (']' :: rest) [] rest
  | range {first ch stop rest items after} : (first = false → ch ≠ ']') → stop ≠ ']' →
      ClassItems false rest items after →
      ClassItems first (ch :: '-' :: stop :: rest) ((ch, stop) :: items) after
  | single {first ch rest items after} : (first = false → ch ≠ ']') →
      (∀ stop rest', rest = '-' :: stop :: rest' → stop = ']') →
      ClassItems false rest items after →
      ClassItems first (ch :: rest) ((ch, ch) :: items) after

/-- A class behind its opening bracket. -/
inductive ClassOf : Text → CharacterClass → Text → Prop where
  | negated {mark rest items after} : mark = '!' ∨ mark = '^' → ClassItems true rest items after →
      ClassOf (mark :: rest) ⟨true, items⟩ after
  | plain {rest items after} : (∀ ch ∈ rest.head?, ch ≠ '!' ∧ ch ≠ '^') →
      ClassItems true rest items after → ClassOf rest ⟨false, items⟩ after

/-- `ch` is in the class. -/
def CharacterClass.Contains (cls : CharacterClass) (ch : Char) : Prop :=
  (∃ range ∈ cls.ranges, range.1 ≤ ch ∧ ch ≤ range.2) ↔ cls.negated = false

/-- A pattern and a text that it matches. -/
inductive Glob : Text → Text → Prop where
  | nil : Glob [] []
  | literal {ch pattern text} : ch ≠ '*' → ch ≠ '?' → ch ≠ '[' → Glob pattern text →
      Glob (ch :: pattern) (ch :: text)
  | any {ch pattern text} : ch ≠ '/' → Glob pattern text → Glob ('?' :: pattern) (ch :: text)
  | star {pattern run text} : pattern.head? ≠ some '*' → '/' ∉ run → Glob pattern text →
      Glob ('*' :: pattern) (run ++ text)
  | stars {n pattern run text} : pattern.head? ≠ some '*' → Glob pattern text →
      Glob (List.replicate (n + 2) '*' ++ pattern) (run ++ text)
  | oneOf {pattern cls after ch text} : ClassOf pattern cls after → ch ≠ '/' → cls.Contains ch →
      Glob after text → Glob ('[' :: pattern) (ch :: text)
  | bracket {pattern text} : (∀ cls after, ¬ ClassOf pattern cls after) → Glob pattern text →
      Glob ('[' :: pattern) ('[' :: text)

/-! ## The matcher of the source -/

/-- `while pattern.get(end) == Some(&'*')`. -/
def starEnd (pattern : Text) (patternPos : Nat) : Nat :=
  patternPos + ((pattern.drop patternPos).takeWhile (· = '*')).length

/-- `CharacterClass::parse`: the position behind the class is what is left of the pattern. -/
def CharacterClass.parseAt (pattern : Text) (openPos : Nat) : Option (CharacterClass × Nat) :=
  (CharacterClass.parse (pattern.drop (openPos + 1))).map fun (cls, rest) =>
    (cls, pattern.length - rest.length)

/-- The loop of `match_star` over the text from `consume_pos` on. -/
def matchStarFrom (go : Nat → MemoM (Nat × Nat) Bool Bool) (recursive : Bool) :
    Text → Nat → MemoM (Nat × Nat) Bool Bool
  | [], _ => pure false
  | ch :: rest, consumePos =>
      if recursive = false ∧ ch = '/' then pure false
      else do
        if ← go (consumePos + 1) then pure true
        else matchStarFrom go recursive rest (consumePos + 1)

section Positions

variable (go : Nat → Nat → MemoM (Nat × Nat) Bool Bool) (pattern : Text) (patternPos : Nat)
  (text : Text) (textPos : Nat)

def matchStar : MemoM (Nat × Nat) Bool Bool := do
  let stop := starEnd pattern patternPos
  let recursive := decide (stop - patternPos ≥ 2)
  if ← go stop textPos then pure true
  else matchStarFrom (go stop) recursive (text.drop textPos) textPos

def matchClass : MemoM (Nat × Nat) Bool Bool :=
  match CharacterClass.parseAt pattern patternPos with
  | none =>
      if text[textPos]? = some '[' then go (patternPos + 1) (textPos + 1) else pure false
  | some (cls, nextPatternPos) =>
      match text[textPos]? with
      | none => pure false
      | some ch =>
          if ch ≠ '/' && cls.admits ch then go nextPatternPos (textPos + 1) else pure false

def matchEscaped : MemoM (Nat × Nat) Bool Bool :=
  match pattern[patternPos + 1]? with
  | none =>
      if text[textPos]? = some '\\' then go (patternPos + 1) (textPos + 1) else pure false
  | some literal =>
      if text[textPos]? = some literal then go (patternPos + 2) (textPos + 1) else pure false

end Positions

/-- `glob_matches_at`, with the depth of the recursion bounded. -/
def globMatchesMemo (pattern text : Text) : Nat → Nat → Nat → MemoM (Nat × Nat) Bool Bool
  | 0, _, _ => diverge
  | fuel + 1, patternPos, textPos =>
      let go := globMatchesMemo pattern text fuel
      memoised (patternPos, textPos) <|
        if patternPos = pattern.length then pure (decide (textPos = text.length))
        else
          match pattern[patternPos]? with
          | none => diverge
          | some head =>
              if head = '*' then matchStar go pattern patternPos text textPos
              else if head = '?' then
                if (text[textPos]?).any (· ≠ '/') then go (patternPos + 1) (textPos + 1)
                else pure false
              else if head = '[' then matchClass go pattern patternPos text textPos
              else if head = '\\' then matchEscaped go pattern patternPos text textPos
              else if text[textPos]? = some head then go (patternPos + 1) (textPos + 1)
              else pure false

/-! ## One equation for each kind of pattern -/

/-- What is asked of the rest of a pattern behind its first character. -/
def globStep (go : Text → Text → Bool) (head : Char) (rest text : Text) : Bool :=
  if head = '*' then
    (starEnds (rest.head? = some '*') text).any (go (rest.dropWhile (· = '*')))
  else
    match text with
    | [] => false
    | ch :: text =>
        if head = '?' then ch ≠ '/' && go rest text
        else if head = '[' then
          match CharacterClass.parse rest with
          | none => ch = '[' && go rest text
          | some (cls, rest) => ch ≠ '/' && cls.admits ch && go rest text
        else if head = '\\' then
          match rest with
          | [] => ch = '\\' && go [] text
          | literal :: rest => ch = literal && go rest text
        else ch = head && go rest text

theorem globMatchesAt_cons (fuel : Nat) (head : Char) (rest text : Text) :
    globMatchesAt (fuel + 1) (head :: rest) text =
      globStep (globMatchesAt fuel) head rest text := rfl

/-- A class takes something off the pattern. -/
theorem parseItems_append {negated : Bool} {ranges : List (Char × Char)} {sawItem : Bool}
    {pattern after : Text} {cls : CharacterClass}
    (h : CharacterClass.parseItems negated ranges sawItem pattern = some (cls, after)) :
    ∃ taken, taken ≠ [] ∧ taken ++ after = pattern := by
  fun_induction CharacterClass.parseItems negated ranges sawItem pattern with
  | case1 => cases h
  | case2 ranges sawItem ch stop rest hclose =>
      obtain ⟨-, rfl⟩ := Prod.mk.inj (Option.some.inj h)
      exact ⟨[ch], List.cons_ne_nil _ _, rfl⟩
  | case3 ranges sawItem ch stop rest hclose hstop ih =>
      obtain ⟨taken, -, rfl⟩ := ih h
      exact ⟨ch :: '-' :: stop :: taken, List.cons_ne_nil _ _, rfl⟩
  | case4 ranges sawItem ch stop rest hclose hstop ih =>
      obtain ⟨taken, -, htaken⟩ := ih h
      exact ⟨ch :: taken, List.cons_ne_nil _ _, congrArg (ch :: ·) htaken⟩
  | case5 ranges sawItem ch rest hform hclose =>
      obtain ⟨-, rfl⟩ := Prod.mk.inj (Option.some.inj h)
      exact ⟨[ch], List.cons_ne_nil _ _, rfl⟩
  | case6 ranges sawItem ch rest hform hclose ih =>
      obtain ⟨taken, -, rfl⟩ := ih h
      exact ⟨ch :: taken, List.cons_ne_nil _ _, rfl⟩

theorem parse_append {pattern after : Text} {cls : CharacterClass}
    (h : CharacterClass.parse pattern = some (cls, after)) :
    ∃ taken, taken ≠ [] ∧ taken ++ after = pattern := by
  unfold CharacterClass.parse at h
  split at h
  · obtain ⟨taken, -, rfl⟩ := parseItems_append h
    exact ⟨'!' :: taken, List.cons_ne_nil _ _, rfl⟩
  · obtain ⟨taken, -, rfl⟩ := parseItems_append h
    exact ⟨'^' :: taken, List.cons_ne_nil _ _, rfl⟩
  · exact parseItems_append h

theorem parse_suffix {pattern after : Text} {cls : CharacterClass}
    (h : CharacterClass.parse pattern = some (cls, after)) : after <:+ pattern := by
  obtain ⟨taken, -, rfl⟩ := parse_append h
  exact List.suffix_append taken after

theorem globStep_congr {go go' : Text → Text → Bool} {rest : Text} (head : Char) (text : Text)
    (h : ∀ pattern text, pattern.length ≤ rest.length → go pattern text = go' pattern text) :
    globStep go head rest text = globStep go' head rest text := by
  have hrest : ∀ text, go rest text = go' rest text := fun text => h rest text (Nat.le_refl _)
  unfold globStep
  split
  · congr 1
    funext text
    exact h _ text (List.dropWhile_sublist _).length_le
  · split
    · rfl
    · split
      · rw [hrest]
      · split
        · split
          · rw [hrest]
          · rename_i hparse
            rw [h _ _ (parse_suffix hparse).length_le]
        · split
          · split
            · rw [hrest]
            · rw [h _ _ (Nat.le_succ _)]
          · rw [hrest]

/-- Any fuel that covers the pattern will do. -/
theorem globMatchesAt_fuel {fuel fuel' : Nat} {pattern : Text} (text : Text)
    (h : pattern.length ≤ fuel) (h' : pattern.length ≤ fuel') :
    globMatchesAt fuel pattern text = globMatchesAt fuel' pattern text := by
  induction fuel generalizing fuel' pattern text with
  | zero =>
      obtain rfl := List.eq_nil_of_length_eq_zero (Nat.le_zero.mp h)
      cases fuel' with
      | zero => rfl
      | succ fuel' => rfl
  | succ fuel ih =>
      cases pattern with
      | nil =>
          cases fuel' with
          | zero => rfl
          | succ fuel' => rfl
      | cons head rest =>
          cases fuel' with
          | zero => exact absurd h' (Nat.not_succ_le_zero _)
          | succ fuel' =>
              rw [globMatchesAt_cons, globMatchesAt_cons]
              refine globStep_congr head text fun pattern text hle => ?_
              exact ih text (hle.trans (Nat.le_of_succ_le_succ h))
                (hle.trans (Nat.le_of_succ_le_succ h'))

/-- The matcher with the fuel that its pattern needs. -/
def globAt (pattern text : Text) : Bool := globMatchesAt pattern.length pattern text

theorem globAt_nil (text : Text) : globAt [] text = decide (text = []) := rfl

theorem globAt_cons (head : Char) (rest text : Text) :
    globAt (head :: rest) text = globStep globAt head rest text := by
  show globMatchesAt (rest.length + 1) (head :: rest) text = _
  rw [globMatchesAt_cons]
  exact globStep_congr head text fun pattern text hle =>
    globMatchesAt_fuel text hle (Nat.le_refl _)

/-! ## The table changes nothing -/

theorem drop_of_getElem? {l : Text} {i : Nat} {a : Char} (h : l[i]? = some a) :
    l.drop i = a :: l.drop (i + 1) := by
  obtain ⟨hlt, rfl⟩ := List.getElem?_eq_some_iff.mp h
  exact List.drop_eq_getElem_cons hlt

theorem drop_of_getElem?_none {l : Text} {i : Nat} (h : l[i]? = none) : l.drop i = [] :=
  List.drop_eq_nil_of_le (List.getElem?_eq_none_iff.mp h)

theorem lt_of_drop {l rest : Text} {i : Nat} {head : Char} (h : l.drop i = head :: rest) :
    i < l.length := by
  by_contra hge
  rw [List.drop_eq_nil_of_le (Nat.le_of_not_lt hge)] at h
  cases h

theorem drop_succ_of_drop {l rest : Text} {i : Nat} {head : Char} (h : l.drop i = head :: rest) :
    l.drop (i + 1) = rest := by
  rw [← List.drop_drop, h]
  rfl

theorem starEnds_cons (recursive : Bool) (text : Text) :
    starEnds recursive text = text :: (starEnds recursive text).tail := by
  cases text with
  | nil => rfl
  | cons ch rest => rfl

theorem drop_length_takeWhile (p : Char → Bool) (l : Text) :
    l.drop (l.takeWhile p).length = l.dropWhile p := by
  have hparts := congrArg (List.drop (l.takeWhile p).length)
    (List.takeWhile_append_dropWhile (p := p) (l := l))
  rw [List.drop_left] at hparts
  exact hparts.symm

/-- What the table remembers: the answers for what is left at two positions. -/
def globValue (pattern text : Text) (pos : Nat × Nat) : Bool :=
  globAt (pattern.drop pos.1) (text.drop pos.2)

section Positions

variable {f : Nat × Nat → Bool} {pattern text : Text}

theorem matchStarFrom_answers {go : Nat → MemoM (Nat × Nat) Bool Bool} {value : Text → Bool}
    (hgo : ∀ pos ≤ text.length, Answers f (go pos) (value (text.drop pos))) (recursive : Bool)
    {rest : Text} {pos : Nat} (hrest : text.drop pos = rest) :
    Answers f (matchStarFrom go recursive rest pos)
      ((starEnds recursive rest).tail.any value) := by
  induction rest generalizing pos with
  | nil => exact answers_pure false
  | cons ch rest ih =>
      have hlt := lt_of_drop hrest
      have hnext := drop_succ_of_drop hrest
      rw [matchStarFrom, starEnds, List.tail_cons]
      split
      · exact answers_pure false
      · have hhead := hgo (pos + 1) hlt
        rw [hnext] at hhead
        rw [starEnds_cons, List.any_cons]
        exact answers_or hhead (ih hnext)

/-- The recursion answers for all that is left of the pattern behind `patternPos`. -/
def GoesOn (f : Nat × Nat → Bool) (go : Nat → Nat → MemoM (Nat × Nat) Bool Bool)
    (pattern text : Text) (patternPos : Nat) : Prop :=
  ∀ patternPos' ≤ pattern.length, patternPos < patternPos' → ∀ textPos ≤ text.length,
    Answers f (go patternPos' textPos) (globAt (pattern.drop patternPos') (text.drop textPos))

theorem matchStar_answers {go : Nat → Nat → MemoM (Nat × Nat) Bool Bool} {patternPos : Nat}
    {rest : Text} (hpattern : pattern.drop patternPos = '*' :: rest)
    (hgo : GoesOn f go pattern text patternPos)
    {textPos : Nat} (htext : textPos ≤ text.length) :
    Answers f (matchStar go pattern patternPos text textPos)
      (globAt ('*' :: rest) (text.drop textPos)) := by
  have hstop : starEnd pattern patternPos = patternPos + 1 + (rest.takeWhile (· = '*')).length := by
    unfold starEnd
    rw [hpattern, List.takeWhile_cons_of_pos (by decide), List.length_cons]
    omega
  have hrest : pattern.drop (patternPos + 1) = rest := drop_succ_of_drop hpattern
  have hdrop : pattern.drop (starEnd pattern patternPos) = rest.dropWhile (· = '*') := by
    rw [hstop, ← List.drop_drop, hrest, drop_length_takeWhile]
  have hrecursive : decide (starEnd pattern patternPos - patternPos ≥ 2) =
      decide (rest.head? = some '*') := by
    rw [hstop, decide_eq_decide]
    cases rest with
    | nil =>
        show patternPos + 1 + 0 - patternPos ≥ 2 ↔ none = some '*'
        simp
    | cons next rest =>
        by_cases hnext : next = '*'
        · rw [List.takeWhile_cons_of_pos (by simpa using hnext), hnext]
          simp only [List.length_cons, List.head?_cons, iff_true]
          omega
        · rw [List.takeWhile_cons_of_neg (by simpa using hnext)]
          simp only [List.length_nil, List.head?_cons, Option.some.injEq, hnext, iff_false]
          omega
  have hle : starEnd pattern patternPos ≤ pattern.length := by
    have hlength := congrArg List.length hrest
    have htake := (List.takeWhile_sublist (l := rest) (· = '*')).length_le
    rw [List.length_drop] at hlength
    have hlt := lt_of_drop hpattern
    omega
  have hgo' : ∀ pos ≤ text.length, Answers f (go (starEnd pattern patternPos) pos)
      (globAt (rest.dropWhile (· = '*')) (text.drop pos)) := by
    intro pos hpos
    rw [← hdrop]
    exact hgo _ hle (by omega) pos hpos
  have hvalue : globAt ('*' :: rest) (text.drop textPos) =
      (starEnds (decide (rest.head? = some '*')) (text.drop textPos)).any
        (globAt (rest.dropWhile (· = '*'))) := by
    rw [globAt_cons]
    rfl
  rw [hvalue, starEnds_cons, List.any_cons]
  unfold matchStar
  simp only [hrecursive]
  exact answers_or (hgo' textPos htext) (matchStarFrom_answers hgo' _ rfl)

/-- One character is read, and the rest of the text is matched behind it. -/
theorem answers_char {go : Nat → Nat → MemoM (Nat × Nat) Bool Bool} {patternPos next textPos : Nat}
    {ch : Char} (hch : text[textPos]? = some ch) (hgo : GoesOn f go pattern text patternPos)
    (hlt : patternPos < next) (hle : next ≤ pattern.length) (c : Bool) :
    Answers f (if c then go next (textPos + 1) else pure false)
      (c && globAt (pattern.drop next) (text.drop (textPos + 1))) :=
  answers_and c fun _ => hgo next hle hlt _ (List.getElem?_eq_some_iff.mp hch).1

theorem matchClass_answers {go : Nat → Nat → MemoM (Nat × Nat) Bool Bool} {patternPos : Nat}
    {rest : Text} (hpattern : pattern.drop patternPos = '[' :: rest)
    (hgo : GoesOn f go pattern text patternPos) (textPos : Nat) :
    Answers f (matchClass go pattern patternPos text textPos)
      (globAt ('[' :: rest) (text.drop textPos)) := by
  have hlt := lt_of_drop hpattern
  have hrest := drop_succ_of_drop hpattern
  have hparseAt : CharacterClass.parseAt pattern patternPos =
      (CharacterClass.parse rest).map fun (cls, after) => (cls, pattern.length - after.length) := by
    unfold CharacterClass.parseAt
    rw [hrest]
  unfold matchClass
  rw [hparseAt, globAt_cons]
  cases hparse : CharacterClass.parse rest with
  | none =>
      rw [Option.map_none]
      cases hch : text[textPos]? with
      | none =>
          rw [drop_of_getElem?_none hch]
          exact answers_pure false
      | some ch =>
          rw [drop_of_getElem? hch]
          have hvalue : globStep globAt '[' rest (ch :: text.drop (textPos + 1)) =
              (decide (ch = '[') && globAt (pattern.drop (patternPos + 1))
                (text.drop (textPos + 1))) := by
            rw [hrest]
            show (match CharacterClass.parse rest with
              | none => _
              | some (cls, rest) => _) = _
            rw [hparse]
          rw [hvalue]
          have hanswers := answers_char hch hgo (Nat.lt_succ_self patternPos) hlt (decide (ch = '['))
          simpa using hanswers
  | some result =>
      obtain ⟨cls, after⟩ := result
      rw [Option.map_some]
      have hafter := parse_suffix hparse
      have hsuffix : after <:+ pattern := (hafter.trans (hrest ▸ List.drop_suffix _ _))
      have hdrop : pattern.drop (pattern.length - after.length) = after :=
        (List.suffix_iff_eq_drop.mp hsuffix).symm
      have hlength := congrArg List.length hrest
      rw [List.length_drop] at hlength
      have hless := hafter.length_le
      cases hch : text[textPos]? with
      | none =>
          rw [drop_of_getElem?_none hch]
          exact answers_pure false
      | some ch =>
          rw [drop_of_getElem? hch]
          have hvalue : globStep globAt '[' rest (ch :: text.drop (textPos + 1)) =
              (decide (ch ≠ '/') && cls.admits ch &&
                globAt (pattern.drop (pattern.length - after.length)) (text.drop (textPos + 1))) := by
            rw [hdrop]
            show (match CharacterClass.parse rest with
              | none => _
              | some (cls, rest) => _) = _
            rw [hparse]
          rw [hvalue]
          exact answers_char hch hgo (by omega) (Nat.sub_le _ _) _

theorem matchEscaped_answers {go : Nat → Nat → MemoM (Nat × Nat) Bool Bool} {patternPos : Nat}
    {rest : Text} (hpattern : pattern.drop patternPos = '\\' :: rest)
    (hgo : GoesOn f go pattern text patternPos) (textPos : Nat) :
    Answers f (matchEscaped go pattern patternPos text textPos)
      (globAt ('\\' :: rest) (text.drop textPos)) := by
  have hlt := lt_of_drop hpattern
  have hrest := drop_succ_of_drop hpattern
  unfold matchEscaped
  rw [globAt_cons]
  cases hliteral : pattern[patternPos + 1]? with
  | none =>
      obtain rfl : [] = rest := (drop_of_getElem?_none hliteral).symm.trans hrest
      cases hch : text[textPos]? with
      | none =>
          rw [drop_of_getElem?_none hch]
          exact answers_pure false
      | some ch =>
          have hanswers := answers_char hch hgo (Nat.lt_succ_self patternPos) hlt
            (decide (ch = '\\'))
          rw [hrest] at hanswers
          rw [drop_of_getElem? hch]
          show Answers f _ (decide (ch = '\\') && globAt [] (text.drop (textPos + 1)))
          simpa using hanswers
  | some literal =>
      obtain rfl : literal :: pattern.drop (patternPos + 1 + 1) = rest :=
        (drop_of_getElem? hliteral).symm.trans hrest
      cases hch : text[textPos]? with
      | none =>
          rw [drop_of_getElem?_none hch]
          exact answers_pure false
      | some ch =>
          have hnext : patternPos + 2 ≤ pattern.length :=
            (List.getElem?_eq_some_iff.mp hliteral).1
          have hanswers := answers_char hch hgo (by omega) hnext (decide (ch = literal))
          rw [drop_of_getElem? hch]
          show Answers f _ (decide (ch = literal) && globAt (pattern.drop (patternPos + 2)) _)
          simpa using hanswers

/-- Enough fuel for what is left of the pattern. -/
theorem globMatchesMemo_answers {fuel patternPos textPos : Nat}
    (hfuel : pattern.length - patternPos < fuel) (hpattern : patternPos ≤ pattern.length)
    (htext : textPos ≤ text.length) :
    Answers (globValue pattern text) (globMatchesMemo pattern text fuel patternPos textPos)
      (globValue pattern text (patternPos, textPos)) := by
  induction fuel generalizing patternPos textPos with
  | zero => exact absurd hfuel (Nat.not_lt_zero _)
  | succ fuel ih =>
      refine answers_memoised ?_
      show Answers _ _ (globAt (pattern.drop patternPos) (text.drop textPos))
      by_cases hend : patternPos = pattern.length
      · rw [if_pos hend, hend, List.drop_length]
        have hvalue : globAt [] (text.drop textPos) = decide (textPos = text.length) := by
          rw [globAt_nil, decide_eq_decide, List.drop_eq_nil_iff]
          omega
        rw [hvalue]
        exact answers_pure _
      · have hlt : patternPos < pattern.length := by omega
        have hgo : GoesOn (globValue pattern text) (globMatchesMemo pattern text fuel) pattern text
            patternPos := fun next hle hnext textPos htext => ih (by omega) hle htext
        obtain ⟨head, hhead⟩ : ∃ head, pattern[patternPos]? = some head :=
          ⟨_, List.getElem?_eq_getElem hlt⟩
        have hdrop := drop_of_getElem? hhead
        rw [if_neg hend, hhead, hdrop]
        show Answers _ (if head = '*' then _ else _) _
        by_cases hstar : head = '*'
        · subst hstar
          exact matchStar_answers hdrop hgo htext
        rw [if_neg hstar]
        by_cases hany : head = '?'
        · subst hany
          rw [if_pos rfl, globAt_cons]
          cases hch : text[textPos]? with
          | none =>
              rw [drop_of_getElem?_none hch]
              exact answers_pure false
          | some ch =>
              rw [drop_of_getElem? hch]
              exact answers_char hch hgo (Nat.lt_succ_self patternPos) hlt (decide (ch ≠ '/'))
        rw [if_neg hany]
        by_cases hclass : head = '['
        · subst hclass
          exact matchClass_answers hdrop hgo textPos
        rw [if_neg hclass]
        by_cases hescape : head = '\\'
        · subst hescape
          exact matchEscaped_answers hdrop hgo textPos
        rw [if_neg hescape, globAt_cons]
        cases hch : text[textPos]? with
        | none =>
            rw [drop_of_getElem?_none hch]
            have hvalue : globStep globAt head (pattern.drop (patternPos + 1)) [] = false := by
              unfold globStep
              rw [if_neg hstar]
            rw [hvalue]
            exact answers_pure false
        | some ch =>
            rw [drop_of_getElem? hch]
            have hvalue : globStep globAt head (pattern.drop (patternPos + 1))
                (ch :: text.drop (textPos + 1)) =
                  (decide (ch = head) && globAt (pattern.drop (patternPos + 1))
                    (text.drop (textPos + 1))) := by
              unfold globStep
              simp only [if_neg hstar, if_neg hany, if_neg hclass, if_neg hescape]
            rw [hvalue]
            have hanswers := answers_char hch hgo (Nat.lt_succ_self patternPos) hlt
              (decide (ch = head))
            simpa using hanswers

end Positions

/-! ## The equations decide the grammar -/

section Classes

variable {negated : Bool} {ranges : List (Char × Char)} {sawItem : Bool}

theorem parseItems_close (rest : Text) :
    CharacterClass.parseItems negated ranges true (']' :: rest) = some (⟨negated, ranges⟩, rest) := by
  rw [CharacterClass.parseItems.eq_def]
  split
  · rename_i heq
    cases heq
  · rename_i heq
    obtain ⟨rfl, rfl⟩ := List.cons.inj heq
    exact if_pos ⟨rfl, rfl⟩
  · rename_i heq
    obtain ⟨rfl, rfl⟩ := List.cons.inj heq
    exact if_pos ⟨rfl, rfl⟩

theorem parseItems_range {ch stop : Char} {rest : Text} (hch : sawItem = true → ch ≠ ']')
    (hstop : stop ≠ ']') :
    CharacterClass.parseItems negated ranges sawItem (ch :: '-' :: stop :: rest) =
      CharacterClass.parseItems negated (ranges ++ [(ch, stop)]) true rest := by
  rw [CharacterClass.parseItems, if_neg fun h => hch h.2 h.1, if_pos hstop]

theorem parseItems_single {ch : Char} {rest : Text} (hch : sawItem = true → ch ≠ ']')
    (hrest : ∀ stop rest', rest = '-' :: stop :: rest' → stop = ']') :
    CharacterClass.parseItems negated ranges sawItem (ch :: rest) =
      CharacterClass.parseItems negated (ranges ++ [(ch, ch)]) true rest := by
  rw [CharacterClass.parseItems.eq_def]
  split
  · rename_i heq
    cases heq
  · rename_i heq
    obtain ⟨rfl, rfl⟩ := List.cons.inj heq
    rw [if_neg fun h => hch h.2 h.1, if_neg (not_not.mpr (hrest _ _ rfl))]
  · rename_i heq
    obtain ⟨rfl, rfl⟩ := List.cons.inj heq
    exact if_neg fun h => hch h.2 h.1

theorem parseItems_of_items {first : Bool} {pattern after : Text} {items : List (Char × Char)}
    (h : ClassItems first pattern items after) (negated : Bool) (ranges : List (Char × Char)) :
    CharacterClass.parseItems negated ranges (!first) pattern =
      some (⟨negated, ranges ++ items⟩, after) := by
  induction h generalizing ranges with
  | close =>
      rw [List.append_nil]
      exact parseItems_close _
  | range hch hstop _ ih =>
      rw [parseItems_range (fun h => hch (by simpa using h)) hstop]
      refine (ih _).trans ?_
      rw [List.append_assoc]
      rfl
  | single hch hrest _ ih =>
      rw [parseItems_single (fun h => hch (by simpa using h)) hrest]
      refine (ih _).trans ?_
      rw [List.append_assoc]
      rfl

theorem items_of_parseItems {pattern after : Text} {cls : CharacterClass}
    (h : CharacterClass.parseItems negated ranges sawItem pattern = some (cls, after)) :
    ∃ items, ClassItems (!sawItem) pattern items after ∧ cls = ⟨negated, ranges ++ items⟩ := by
  fun_induction CharacterClass.parseItems negated ranges sawItem pattern with
  | case1 => cases h
  | case2 ranges sawItem ch stop rest hclose =>
      obtain ⟨rfl, rfl⟩ := Prod.mk.inj (Option.some.inj h)
      obtain ⟨rfl, rfl⟩ := hclose
      exact ⟨[], ClassItems.close, by rw [List.append_nil]⟩
  | case3 ranges sawItem ch stop rest hclose hstop ih =>
      obtain ⟨items, hitems, rfl⟩ := ih h
      refine ⟨(ch, stop) :: items, ClassItems.range ?_ hstop hitems, ?_⟩
      · intro hsaw hch
        exact hclose ⟨hch, by simpa using hsaw⟩
      · rw [List.append_assoc]
        rfl
  | case4 ranges sawItem ch stop rest hclose hstop ih =>
      obtain ⟨items, hitems, rfl⟩ := ih h
      refine ⟨(ch, ch) :: items, ClassItems.single ?_ ?_ hitems, ?_⟩
      · intro hsaw hch
        exact hclose ⟨hch, by simpa using hsaw⟩
      · rintro stop' rest' heq
        obtain ⟨rfl, -⟩ := List.cons.inj (List.cons.inj heq).2
        exact not_not.mp hstop
      · rw [List.append_assoc]
        rfl
  | case5 ranges sawItem ch rest hform hclose =>
      obtain ⟨rfl, rfl⟩ := Prod.mk.inj (Option.some.inj h)
      obtain ⟨rfl, rfl⟩ := hclose
      exact ⟨[], ClassItems.close, by rw [List.append_nil]⟩
  | case6 ranges sawItem ch rest hform hclose ih =>
      obtain ⟨items, hitems, rfl⟩ := ih h
      refine ⟨(ch, ch) :: items, ClassItems.single ?_ ?_ hitems, ?_⟩
      · intro hsaw hch
        exact hclose ⟨hch, by simpa using hsaw⟩
      · rintro stop rest' rfl
        exact absurd rfl (hform stop rest')
      · rw [List.append_assoc]
        rfl

theorem parse_eq_some_iff {pattern after : Text} {cls : CharacterClass} :
    CharacterClass.parse pattern = some (cls, after) ↔ ClassOf pattern cls after := by
  constructor
  · intro h
    unfold CharacterClass.parse at h
    split at h
    · obtain ⟨items, hitems, rfl⟩ := items_of_parseItems h
      exact ClassOf.negated (Or.inl rfl) hitems
    · obtain ⟨items, hitems, rfl⟩ := items_of_parseItems h
      exact ClassOf.negated (Or.inr rfl) hitems
    · rename_i hbang hcaret
      obtain ⟨items, hitems, rfl⟩ := items_of_parseItems h
      refine ClassOf.plain (fun ch hhead => ?_) hitems
      obtain ⟨rest, rfl⟩ := List.head?_eq_some_iff.mp hhead
      exact ⟨fun h => hbang rest (h ▸ rfl), fun h => hcaret rest (h ▸ rfl)⟩
  · intro h
    cases h with
    | negated hmark hitems =>
        rcases hmark with rfl | rfl
        · exact parseItems_of_items hitems true []
        · exact parseItems_of_items hitems true []
    | plain hhead hitems =>
        unfold CharacterClass.parse
        split
        · exact absurd rfl (hhead '!' rfl).1
        · exact absurd rfl (hhead '^' rfl).2
        · exact parseItems_of_items hitems false []

theorem parse_eq_none_iff {pattern : Text} :
    CharacterClass.parse pattern = none ↔ ∀ cls after, ¬ ClassOf pattern cls after := by
  rw [Option.eq_none_iff_forall_ne_some]
  constructor
  · intro h cls after hclass
    exact h (cls, after) (parse_eq_some_iff.mpr hclass)
  · rintro h ⟨cls, after⟩ hparse
    exact h cls after (parse_eq_some_iff.mp hparse)

theorem admits_iff_contains (cls : CharacterClass) (ch : Char) :
    cls.admits ch = true ↔ cls.Contains ch := by
  have hany : (cls.ranges.any fun range => range.1 ≤ ch && ch ≤ range.2) = true ↔
      ∃ range ∈ cls.ranges, range.1 ≤ ch ∧ ch ≤ range.2 := by
    simp only [List.any_eq_true, Bool.and_eq_true, decide_eq_true_eq]
  unfold CharacterClass.admits CharacterClass.Contains
  rw [← hany]
  cases (cls.ranges.any fun range => range.1 ≤ ch && ch ≤ range.2) with
  | true => cases cls.negated <;> simp
  | false => cases cls.negated <;> simp

end Classes

/-- Behind a star any run may be left out, behind a single one any run without a slash. -/
theorem mem_starEnds {recursive : Bool} {text rest : Text} :
    rest ∈ starEnds recursive text ↔
      ∃ run, run ++ rest = text ∧ (recursive = false → '/' ∉ run) := by
  induction text with
  | nil =>
      rw [starEnds, List.mem_singleton]
      constructor
      · rintro rfl
        exact ⟨[], rfl, fun _ => List.not_mem_nil⟩
      · rintro ⟨run, happend, -⟩
        exact (List.append_eq_nil_iff.mp happend).2
  | cons ch text ih =>
      rw [starEnds, List.mem_cons]
      constructor
      · rintro (rfl | h)
        · exact ⟨[], rfl, fun _ => List.not_mem_nil⟩
        · split at h
          · exact absurd h List.not_mem_nil
          · rename_i hslash
            obtain ⟨run, rfl, hrun⟩ := ih.mp h
            refine ⟨ch :: run, rfl, fun hrec hmem => ?_⟩
            rcases List.mem_cons.mp hmem with heq | hmem
            · exact hslash ⟨hrec, heq.symm⟩
            · exact hrun hrec hmem
      · rintro ⟨run, happend, hrun⟩
        cases run with
        | nil => exact Or.inl happend
        | cons head run =>
            obtain ⟨rfl, rfl⟩ := List.cons.inj happend
            right
            rw [if_neg]
            · exact ih.mpr ⟨run, rfl, fun hrec hmem => hrun hrec (List.mem_cons_of_mem _ hmem)⟩
            · rintro ⟨hrec, rfl⟩
              exact hrun hrec List.mem_cons_self

theorem globAt_star {rest text : Text} :
    globAt ('*' :: rest) text = true ↔
      ∃ run after, run ++ after = text ∧ (rest.head? ≠ some '*' → '/' ∉ run) ∧
        globAt (rest.dropWhile (· = '*')) after = true := by
  rw [globAt_cons]
  show (starEnds (decide (rest.head? = some '*')) text).any
    (globAt (rest.dropWhile (· = '*'))) = true ↔ _
  rw [List.any_eq_true]
  constructor
  · rintro ⟨after, hmem, hglob⟩
    obtain ⟨run, happend, hrun⟩ := mem_starEnds.mp hmem
    exact ⟨run, after, happend, fun h => hrun (decide_eq_false h), hglob⟩
  · rintro ⟨run, after, happend, hrun, hglob⟩
    exact ⟨after, mem_starEnds.mpr ⟨run, happend, fun h => hrun (of_decide_eq_false h)⟩, hglob⟩

theorem dropWhile_star_of_head {pattern : Text} (h : pattern.head? ≠ some '*') :
    pattern.dropWhile (· = '*') = pattern := by
  cases pattern with
  | nil => rfl
  | cons ch rest =>
      refine List.dropWhile_cons_of_neg ?_
      simpa using h

theorem dropWhile_stars {pattern : Text} (h : pattern.head? ≠ some '*') (n : Nat) :
    (List.replicate n '*' ++ pattern).dropWhile (· = '*') = pattern := by
  induction n with
  | zero => exact dropWhile_star_of_head h
  | succ n ih =>
      rw [List.replicate_succ, List.cons_append, List.dropWhile_cons_of_pos (by decide), ih]

/-- The stars in front of a pattern, and what is behind them. -/
theorem stars_append_dropWhile (pattern : Text) :
    ∃ n, pattern = List.replicate n '*' ++ pattern.dropWhile (· = '*') := by
  induction pattern with
  | nil => exact ⟨0, rfl⟩
  | cons ch rest ih =>
      by_cases hch : ch = '*'
      · subst hch
        obtain ⟨n, hn⟩ := ih
        refine ⟨n + 1, ?_⟩
        rw [List.dropWhile_cons_of_pos (by decide), List.replicate_succ, List.cons_append, ← hn]
      · refine ⟨0, ?_⟩
        rw [List.dropWhile_cons_of_neg (by simpa using hch)]
        rfl

theorem head_dropWhile_star (pattern : Text) :
    (pattern.dropWhile (· = '*')).head? ≠ some '*' := by
  intro h
  obtain ⟨rest, hrest⟩ := List.head?_eq_some_iff.mp h
  have hnot := List.head?_dropWhile_not (fun ch => decide (ch = '*')) pattern
  rw [hrest] at hnot
  simp at hnot

/-- What a pattern matches, the matcher finds. -/
theorem globAt_of_glob {pattern text : Text} (h : Glob pattern text) (hback : '\\' ∉ pattern) :
    globAt pattern text = true := by
  induction h with
  | nil => rfl
  | @literal ch pattern text hstar hany hclass _ ih =>
      rw [List.mem_cons, not_or] at hback
      rw [globAt_cons]
      unfold globStep
      simp only [if_neg hstar, if_neg hany, if_neg hclass, if_neg (Ne.symm hback.1)]
      rw [ih hback.2, decide_true]
      rfl
  | @any ch pattern text hslash _ ih =>
      rw [List.mem_cons, not_or] at hback
      rw [globAt_cons]
      show (decide (ch ≠ '/') && globAt pattern text) = true
      rw [ih hback.2, decide_eq_true hslash]
      rfl
  | @star pattern run text hhead hrun _ ih =>
      rw [List.mem_cons, not_or] at hback
      refine globAt_star.mpr ⟨run, text, rfl, fun _ => hrun, ?_⟩
      rw [dropWhile_star_of_head hhead]
      exact ih hback.2
  | @stars n pattern run text hhead _ ih =>
      rw [List.mem_append, not_or] at hback
      rw [List.replicate_succ, List.cons_append, globAt_star]
      refine ⟨run, text, rfl, fun h => absurd rfl h, ?_⟩
      rw [dropWhile_stars hhead]
      exact ih hback.2
  | @oneOf pattern cls after ch text hclass hslash hcontains _ ih =>
      rw [List.mem_cons, not_or] at hback
      have hparse := parse_eq_some_iff.mpr hclass
      have hafter : '\\' ∉ after := fun hmem => hback.2 ((parse_suffix hparse).subset hmem)
      rw [globAt_cons]
      show (match CharacterClass.parse pattern with
        | none => decide (ch = '[') && globAt pattern text
        | some (cls, rest) => decide (ch ≠ '/') && cls.admits ch && globAt rest text) = true
      rw [hparse]
      show (decide (ch ≠ '/') && cls.admits ch && globAt after text) = true
      rw [ih hafter, decide_eq_true hslash, (admits_iff_contains cls ch).mpr hcontains]
      rfl
  | @bracket pattern text hnone _ ih =>
      rw [List.mem_cons, not_or] at hback
      rw [globAt_cons]
      show (match CharacterClass.parse pattern with
        | none => decide ('[' = '[') && globAt pattern text
        | some (cls, rest) => decide ('[' ≠ '/') && cls.admits '[' && globAt rest text) = true
      rw [parse_eq_none_iff.mpr hnone]
      show (decide ('[' = '[') && globAt pattern text) = true
      rw [ih hback.2, decide_eq_true rfl]
      rfl

/-- What the matcher finds is in the grammar, by induction on the length of the pattern. -/
theorem glob_of_globAt {pattern text : Text} (h : globAt pattern text = true)
    (hback : '\\' ∉ pattern) : Glob pattern text := by
  induction hlength : pattern.length using Nat.strong_induction_on generalizing pattern text with
  | _ n ih =>
      subst hlength
      cases pattern with
      | nil =>
          rw [globAt_nil, decide_eq_true_eq] at h
          subst h
          exact Glob.nil
      | cons head rest =>
          rw [List.mem_cons, not_or] at hback
          have hgo : ∀ {pattern text}, pattern <:+ rest → globAt pattern text = true →
              Glob pattern text := fun hsuffix hglob =>
            ih _ (Nat.lt_succ_of_le hsuffix.length_le) hglob (fun hmem => hback.2 (hsuffix.subset hmem))
              rfl
          by_cases hstar : head = '*'
          · subst hstar
            obtain ⟨run, after, rfl, hrun, hglob⟩ := globAt_star.mp h
            have hafter := hgo (List.dropWhile_suffix _) hglob
            have hhead := head_dropWhile_star rest
            obtain ⟨n, hn⟩ := stars_append_dropWhile rest
            cases n with
            | zero =>
                rw [List.replicate_zero, List.nil_append] at hn
                rw [← hn] at hafter hhead
                exact Glob.star hhead (hrun hhead) hafter
            | succ n =>
                have hstars : '*' :: rest =
                    List.replicate (n + 2) '*' ++ rest.dropWhile (· = '*') := by
                  rw [List.replicate_succ, List.cons_append, ← hn]
                rw [hstars]
                exact Glob.stars hhead hafter
          rw [globAt_cons] at h
          unfold globStep at h
          rw [if_neg hstar] at h
          cases text with
          | nil => cases h
          | cons ch text =>
              by_cases hany : head = '?'
              · subst hany
                simp only [if_true, Bool.and_eq_true, decide_eq_true_eq] at h
                exact Glob.any h.1 (hgo List.suffix_rfl h.2)
              by_cases hclass : head = '['
              · subst hclass
                simp only [if_neg hany, if_true] at h
                cases hparse : CharacterClass.parse rest with
                | none =>
                    rw [hparse] at h
                    simp only [Bool.and_eq_true, decide_eq_true_eq] at h
                    obtain ⟨rfl, hglob⟩ := h
                    exact Glob.bracket (parse_eq_none_iff.mp hparse) (hgo List.suffix_rfl hglob)
                | some result =>
                    obtain ⟨cls, after⟩ := result
                    rw [hparse] at h
                    simp only [Bool.and_eq_true, decide_eq_true_eq] at h
                    exact Glob.oneOf (parse_eq_some_iff.mp hparse) h.1.1
                      ((admits_iff_contains cls ch).mp h.1.2) (hgo (parse_suffix hparse) h.2)
              simp only [if_neg hany, if_neg hclass, if_neg (Ne.symm hback.1), Bool.and_eq_true,
                decide_eq_true_eq] at h
              obtain ⟨rfl, hglob⟩ := h
              exact Glob.literal hstar hany hclass (hgo List.suffix_rfl hglob)

theorem globAt_iff_glob {pattern : Text} (hback : '\\' ∉ pattern) (text : Text) :
    globAt pattern text = true ↔ Glob pattern text :=
  ⟨fun h => glob_of_globAt h hback, fun h => globAt_of_glob h hback⟩

theorem globMatches_iff (pattern text : Text) :
    globMatches pattern text = true ↔
      Glob (normalizeFilterPath pattern) (normalizeFilterPath text) :=
  globAt_iff_glob (separated_normalize pattern).noBackslash _

/-- From an empty table and with any fuel beyond the length of the pattern, the recursion
of the source ends, with the answer of the matcher without a table, which is that of the
grammar. -/
theorem globMatchesMemo_decides (pattern text : Text) (fuel : Nat)
    (hfuel : (normalizeFilterPath pattern).length < fuel) :
    ∃ memo, globMatchesMemo (normalizeFilterPath pattern) (normalizeFilterPath text) fuel 0 0 ∅ =
        some (globMatches pattern text, memo) ∧
      (globMatches pattern text = true ↔
        Glob (normalizeFilterPath pattern) (normalizeFilterPath text)) := by
  have hanswers : Answers (globValue (normalizeFilterPath pattern) (normalizeFilterPath text))
      (globMatchesMemo (normalizeFilterPath pattern) (normalizeFilterPath text) fuel 0 0)
      (globMatches pattern text) :=
    globMatchesMemo_answers hfuel (Nat.zero_le _) (Nat.zero_le _)
  obtain ⟨memo, hrun, -⟩ := hanswers ∅ remembers_empty
  exact ⟨memo, hrun, globMatches_iff pattern text⟩

theorem globMatchesMemo_decides_range :
    ∃ memo, globMatchesMemo (normalizeFilterPath "x[a-c]*".toList)
        (normalizeFilterPath "xbz".toList) 8 0 0 ∅ =
          some (globMatches "x[a-c]*".toList "xbz".toList, memo) ∧
      (globMatches "x[a-c]*".toList "xbz".toList = true ↔
        Glob (normalizeFilterPath "x[a-c]*".toList) (normalizeFilterPath "xbz".toList)) :=
  globMatchesMemo_decides "x[a-c]*".toList "xbz".toList 8 (by decide)

end RsyncWin
