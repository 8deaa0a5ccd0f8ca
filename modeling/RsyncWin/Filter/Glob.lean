import Mathlib.Data.List.Basic

/-!
# Wildcards (`rsync-filter/src/matcher.rs`)

Patterns and texts are lists of characters. The source matches by positions and
remembers what it has tried; the cache is left out, the positions are the
remaining lists.
-/

namespace RsyncWin

abbrev Text := List Char

def normalizeFrom : Bool → Text → Text
  | _, [] => []
  | previousWasSeparator, ch :: rest =>
      let ch := if ch = '\\' then '/' else ch
      if ch = '/' then
        if previousWasSeparator then normalizeFrom true rest else '/' :: normalizeFrom true rest
      else ch :: normalizeFrom false rest

/-- Backslashes become slashes, runs of slashes one slash. -/
def normalizeFilterPath (path : Text) : Text := normalizeFrom false path

structure CharacterClass where
  negated : Bool
  ranges : List (Char × Char)
deriving DecidableEq, Repr

namespace CharacterClass

/-- The items of a class up to its closing bracket, and what follows it. -/
def parseItems (negated : Bool) : List (Char × Char) → Bool → Text → Option (CharacterClass × Text)
  | _, _, [] => none
  | ranges, sawItem, ch :: '-' :: stop :: rest =>
      if ch = ']' ∧ sawItem then some (⟨negated, ranges⟩, '-' :: stop :: rest)
      else if stop ≠ ']' then parseItems negated (ranges ++ [(ch, stop)]) true rest
      else parseItems negated (ranges ++ [(ch, ch)]) true ('-' :: stop :: rest)
  | ranges, sawItem, ch :: rest =>
      if ch = ']' ∧ sawItem then some (⟨negated, ranges⟩, rest)
      else parseItems negated (ranges ++ [(ch, ch)]) true rest

/-- A class behind its opening bracket. -/
def parse : Text → Option (CharacterClass × Text)
  | '!' :: rest => parseItems true [] false rest
  | '^' :: rest => parseItems true [] false rest
  | pattern => parseItems false [] false pattern

/-- `matches`. -/
def admits (c : CharacterClass) (ch : Char) : Bool :=
  (c.ranges.any fun range => range.1 ≤ ch && ch ≤ range.2) != c.negated

end CharacterClass

/-- What may be left of the text behind a star. -/
def starEnds (recursive : Bool) : Text → List Text
  | [] => [[]]
  | ch :: rest =>
      (ch :: rest) :: if recursive = false ∧ ch = '/' then [] else starEnds recursive rest

/-- `fuel` is at least the length of the pattern, which gets shorter with every
step. -/
def globMatchesAt : Nat → Text → Text → Bool
  | _, [], text => text = []
  | 0, _ :: _, _ => false
  | fuel + 1, head :: rest, text =>
      if head = '*' then
        (starEnds (rest.head? = some '*') text).any
          (globMatchesAt fuel (rest.dropWhile (· = '*')))
      else
        match text with
        | [] => false
        | ch :: text =>
            if head = '?' then ch ≠ '/' && globMatchesAt fuel rest text
            else if head = '[' then
              match CharacterClass.parse rest with
              | none => ch = '[' && globMatchesAt fuel rest text
              | some (cls, rest) => ch ≠ '/' && cls.admits ch && globMatchesAt fuel rest text
            else if head = '\\' then
              match rest with
              | [] => ch = '\\' && globMatchesAt fuel [] text
              | literal :: rest => ch = literal && globMatchesAt fuel rest text
            else ch = head && globMatchesAt fuel rest text

def globMatches (pattern text : Text) : Bool :=
  let pattern := normalizeFilterPath pattern
  globMatchesAt pattern.length pattern (normalizeFilterPath text)

example : globMatches "src/*.rs".toList "src/lib.rs".toList = true := by decide
example : globMatches "src/*.rs".toList "src/nested/lib.rs".toList = false := by decide
example : globMatches "src/**/mod.rs".toList "src/a/b/mod.rs".toList = true := by decide

end RsyncWin
