import Mathlib.Data.List.Basic

/-!
# What a shell makes of each character of a command line

A character is bare, or stands inside quotes, or after a backslash; quotes and
backslashes outside quotes are marks. A line is inert when no character of it
can be anything but text or the space between two words.
-/

namespace ShellWords

variable {safe : Char → Bool}

inductive Mode where
  | bare | single | double
deriving DecidableEq, Repr

inductive Standing where
  | bare | single | double | escaped | mark
deriving DecidableEq, Repr

/-- What each character stands as. Inside double quotes a backslash and what it
escapes are both still inside. -/
def standings : Mode → List Char → List (Standing × Char)
  | _, [] => []
  | .bare, '\\' :: ch :: rest => (.mark, '\\') :: (.escaped, ch) :: standings .bare rest
  | .double, '\\' :: ch :: rest => (.double, '\\') :: (.double, ch) :: standings .double rest
  | .bare, ch :: rest =>
      if ch = '\'' then (.mark, ch) :: standings .single rest
      else if ch = '"' then (.mark, ch) :: standings .double rest
      else if ch = '\\' then (.mark, ch) :: standings .bare rest
      else (.bare, ch) :: standings .bare rest
  | .single, ch :: rest =>
      if ch = '\'' then (.mark, ch) :: standings .bare rest
      else (.single, ch) :: standings .single rest
  | .double, ch :: rest =>
      if ch = '"' then (.mark, ch) :: standings .bare rest
      else (.double, ch) :: standings .double rest

/-- Bare characters are spaces or safe ones, and double quotes hold single quotes only. -/
def Harmless (safe : Char → Bool) : Standing × Char → Prop
  | (.bare, ch) => ch = ' ' ∨ safe ch = true
  | (.double, ch) => ch = '\''
  | _ => True

def Inert (safe : Char → Bool) (line : List Char) : Prop :=
  ∀ s ∈ standings .bare line, Harmless safe s

/-- A text that, whatever comes after it, is read in `mode` and leaves `mode`
again, with no harm done. -/
def Closed (safe : Char → Bool) (mode : Mode) (text : List Char) : Prop :=
  ∃ before : List (Standing × Char), (∀ s ∈ before, Harmless safe s) ∧
    ∀ rest, standings mode (text ++ rest) = before ++ standings mode rest

theorem Closed.nil (mode : Mode) : Closed safe mode [] :=
  ⟨[], by simp, fun _ => rfl⟩

theorem Closed.append {mode : Mode} {text text' : List Char} (h : Closed safe mode text)
    (h' : Closed safe mode text') : Closed safe mode (text ++ text') := by
  obtain ⟨before, hharmless, hread⟩ := h
  obtain ⟨before', hharmless', hread'⟩ := h'
  refine ⟨before ++ before', ?_, fun rest => ?_⟩
  · intro s hs
    rcases List.mem_append.mp hs with hs | hs
    · exact hharmless s hs
    · exact hharmless' s hs
  · rw [List.append_assoc, hread, hread', List.append_assoc]

theorem Closed.flatMap {mode : Mode} {f : Char → List Char} {text : List Char}
    (h : ∀ ch ∈ text, Closed safe mode (f ch)) : Closed safe mode (text.flatMap f) := by
  induction text with
  | nil => exact Closed.nil mode
  | cons ch text ih =>
      rw [List.flatMap_cons]
      exact (h ch (by simp)).append (ih fun c hc => h c (by simp [hc]))

theorem Closed.inert {line : List Char} (h : Closed safe .bare line) : Inert safe line := by
  obtain ⟨before, hharmless, hread⟩ := h
  intro s hs
  have hline := hread []
  rw [List.append_nil] at hline
  rw [hline] at hs
  rcases List.mem_append.mp hs with hs | hs
  · exact hharmless s hs
  · cases hs

/-- A character without a meaning of its own. -/
def IsText (ch : Char) : Prop := ch ≠ '\'' ∧ ch ≠ '"' ∧ ch ≠ '\\'

theorem standings_bare {ch : Char} (h : IsText ch) (rest : List Char) :
    standings .bare (ch :: rest) = (.bare, ch) :: standings .bare rest := by
  obtain ⟨hsingle, hdouble, hslash⟩ := h
  cases rest <;> simp [standings, hsingle, hdouble, hslash]

theorem standings_single {ch : Char} (h : ch ≠ '\'') (rest : List Char) :
    standings .single (ch :: rest) = (.single, ch) :: standings .single rest := by
  simp [standings, h]

theorem Closed.bare {ch : Char} (h : IsText ch) (hsafe : ch = ' ' ∨ safe ch = true) :
    Closed safe .bare [ch] := by
  refine ⟨[(.bare, ch)], ?_, fun rest => standings_bare h rest⟩
  intro s hs
  rw [List.mem_singleton.mp hs]
  exact hsafe

theorem Closed.single {ch : Char} (h : ch ≠ '\'') : Closed safe .single [ch] := by
  refine ⟨[(.single, ch)], ?_, fun rest => standings_single h rest⟩
  intro s hs
  rw [List.mem_singleton.mp hs]
  trivial

/-- What is closed inside single quotes is, in quotes, closed outside. -/
theorem Closed.quoted {text : List Char} (h : Closed safe .single text) :
    Closed safe .bare ('\'' :: text ++ ['\'']) := by
  obtain ⟨before, hharmless, hread⟩ := h
  refine ⟨(.mark, '\'') :: before ++ [(.mark, '\'')], ?_, fun rest => ?_⟩
  · intro s hs
    simp only [List.cons_append, List.mem_cons, List.mem_append, List.not_mem_nil, or_false] at hs
    rcases hs with rfl | hs | rfl
    · trivial
    · exact hharmless s hs
    · trivial
  · have hopen : ∀ t, standings .bare ('\'' :: t) = (.mark, '\'') :: standings .single t := by
      intro t
      cases t <;> simp [standings]
    rw [List.cons_append, List.cons_append, hopen, List.append_assoc, hread]
    simp [standings]

end ShellWords
