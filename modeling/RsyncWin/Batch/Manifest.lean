import RsyncWin.Filter.Rule
import RsyncWin.Protocol.Io

/-!
# The manifest of a batch file (`rsync-cli/src/batch.rs`)

One line for each value, its key in front. Line breaks and backslashes of a
value are escaped, so that a value is never more than its line.
-/

namespace RsyncWin

open ByteString

structure BatchManifest where
  options : List Text := []
  filters : List Text := []
  tokenStream : Text := []
deriving DecidableEq, Repr

/-! ## Values -/

/-- `replace` of one character by a text. -/
def replaceChar (ch : Char) (replacement value : Text) : Text :=
  value.flatMap fun c => if c = ch then replacement else [c]

def escapeManifestValue (value : Text) : Text :=
  replaceChar '\r' ['\\', 'r'] (replaceChar '\n' ['\\', 'n'] (replaceChar '\\' ['\\', '\\'] value))

def invalidEscape : Error := .other "invalid escape in batch manifest"

def unescapeManifestValue : Text → Except Error Text
  | [] => .ok []
  | '\\' :: [] => .error invalidEscape
  | '\\' :: escaped :: rest =>
      match unescapeManifestValue rest with
      | .error e => .error e
      | .ok out =>
          .ok (match escaped with
            | '\\' => '\\' :: out
            | 'n' => '\n' :: out
            | 'r' => '\r' :: out
            | other => '\\' :: other :: out)
  | ch :: rest =>
      match unescapeManifestValue rest with
      | .error e => .error e
      | .ok out => .ok (ch :: out)

/-! ## Lines -/

/-- `lines()`: a line break takes a carriage return before it along. -/
def linesOf : Text → Text → List Text
  | [], [] => []
  | line, [] => [line]
  | line, '\n' :: rest =>
      (if line.getLast? = some '\r' then line.dropLast else line) :: linesOf [] rest
  | line, ch :: rest => linesOf (line ++ [ch]) rest

def optionKey : Text := ['o', 'p', 't', 'i', 'o', 'n']
def filterKey : Text := ['f', 'i', 'l', 't', 'e', 'r']
def tokenStreamKey : Text := ['t', 'o', 'k', 'e', 'n', '_', 's', 't', 'r', 'e', 'a', 'm']

def manifestLine (key value : Text) : Text := key ++ '=' :: escapeManifestValue value ++ ['\n']

def literalFileContents : Text := "literal-file-contents".toList

def renderManifest (manifest : BatchManifest) : Text :=
  manifestLine tokenStreamKey
    (if manifest.tokenStream = [] then literalFileContents else manifest.tokenStream) ++
  manifest.options.flatMap (manifestLine optionKey) ++
  manifest.filters.flatMap (manifestLine filterKey)

def BatchManifest.set (manifest : BatchManifest) (key value : Text) : BatchManifest :=
  if key = tokenStreamKey then { manifest with tokenStream := value }
  else if key = optionKey then { manifest with options := manifest.options ++ [value] }
  else if key = filterKey then { manifest with filters := manifest.filters ++ [value] }
  else manifest

def parseLines : BatchManifest → List Text → Except Error BatchManifest
  | manifest, [] => .ok manifest
  | manifest, line :: lines =>
      match splitOnce (· = '=') line with
      | none => parseLines manifest lines
      | some (key, value) =>
          match unescapeManifestValue value with
          | .error e => .error e
          | .ok value => parseLines (manifest.set key value) lines

def parseManifest (text : Text) : Except Error BatchManifest := parseLines {} (linesOf [] text)

/-! ## Escaping is undone -/

/-- What the three replacements make of one character. -/
def escapeChar (ch : Char) : Text :=
  if ch = '\\' then ['\\', '\\'] else if ch = '\n' then ['\\', 'n']
  else if ch = '\r' then ['\\', 'r'] else [ch]

theorem escapeManifestValue_eq (value : Text) :
    escapeManifestValue value = value.flatMap escapeChar := by
  unfold escapeManifestValue replaceChar
  rw [List.flatMap_assoc, List.flatMap_assoc]
  congr 1
  funext ch
  unfold escapeChar
  by_cases hslash : ch = '\\'
  · simp [hslash]
  · by_cases hnew : ch = '\n'
    · simp [hnew]
    · simp [hslash, hnew]

theorem escapeManifestValue_cons (ch : Char) (value : Text) :
    escapeManifestValue (ch :: value) = escapeChar ch ++ escapeManifestValue value := by
  rw [escapeManifestValue_eq, escapeManifestValue_eq, List.flatMap_cons]

theorem unescape_escape : ∀ value : Text,
    unescapeManifestValue (escapeManifestValue value) = .ok value
  | [] => rfl
  | ch :: value => by
      rw [escapeManifestValue_cons, escapeChar]
      by_cases hslash : ch = '\\'
      · simp [hslash, unescapeManifestValue, unescape_escape value]
      · by_cases hnew : ch = '\n'
        · simp [hnew, unescapeManifestValue, unescape_escape value]
        · by_cases hret : ch = '\r'
          · simp [hret, unescapeManifestValue, unescape_escape value]
          · simp [hslash, hnew, hret, unescapeManifestValue, unescape_escape value]

/-- A line break in a value is not one of the line. -/
theorem lineBreak_notMem_escape (value : Text) :
    '\n' ∉ escapeManifestValue value ∧ '\r' ∉ escapeManifestValue value := by
  rw [escapeManifestValue_eq]
  simp only [List.mem_flatMap, not_exists, not_and]
  constructor
  · intro ch _ hmem
    unfold escapeChar at hmem
    split at hmem
    · simp at hmem
    · split at hmem
      · simp at hmem
      · rename_i hnew
        split at hmem
        · simp at hmem
        · exact hnew (List.mem_singleton.mp hmem).symm
  · intro ch _ hmem
    unfold escapeChar at hmem
    split at hmem
    · simp at hmem
    · split at hmem
      · simp at hmem
      · split at hmem
        · simp at hmem
        · rename_i hret
          exact hret (List.mem_singleton.mp hmem).symm

/-! ## A rendered manifest is parsed back -/

def stripCarriageReturn (line : Text) : Text :=
  if line.getLast? = some '\r' then line.dropLast else line

theorem linesOf_break : ∀ {text line rest : Text}, '\n' ∉ text →
    linesOf line (text ++ '\n' :: rest) = stripCarriageReturn (line ++ text) :: linesOf [] rest
  | [], line, rest, _ => by
      rw [List.append_nil, List.nil_append]
      cases line <;> rfl
  | ch :: text, line, rest, hnew => by
      have hch : ch ≠ '\n' := fun h => hnew (by simp [h])
      have htext : '\n' ∉ text := fun h => hnew (List.mem_cons_of_mem ch h)
      have hstep : ∀ t : Text, linesOf line (ch :: t) = linesOf (line ++ [ch]) t := by
        intro t
        cases line <;> simp [linesOf]
      rw [List.cons_append, hstep, linesOf_break htext, List.append_assoc]
      rfl

theorem linesOf_line {text line rest : Text} (hnew : '\n' ∉ text) (hret : '\r' ∉ line ++ text) :
    linesOf line (text ++ '\n' :: rest) = (line ++ text) :: linesOf [] rest := by
  rw [linesOf_break hnew, stripCarriageReturn, if_neg fun h => hret (List.mem_of_getLast? h)]

/-- A key that a line can have: no separator and no line break. -/
def IsKey (key : Text) : Prop := '=' ∉ key ∧ '\n' ∉ key ∧ '\r' ∉ key

instance (key : Text) : Decidable (IsKey key) := inferInstanceAs (Decidable (_ ∧ _ ∧ _))

theorem splitOnce_key {separator : Char} {key value : Text} (h : separator ∉ key) :
    splitOnce (· = separator) (key ++ separator :: value) = some (key, value) := by
  have hkey : ∀ ch ∈ key, (!decide (ch = separator)) = true := by
    intro ch hch
    simp only [Bool.not_eq_true', decide_eq_false_iff_not]
    rintro rfl
    exact h hch
  have hspan : (key ++ separator :: value).span (fun ch => !decide (ch = separator)) =
      (key, separator :: value) := by
    rw [List.span_eq_takeWhile_dropWhile, List.takeWhile_append_of_pos hkey,
      List.dropWhile_append_of_pos hkey]
    simp
  unfold splitOnce
  rw [hspan]

theorem parseLines_manifestLine {key value rest : Text} (hkey : IsKey key)
    (manifest : BatchManifest) :
    parseLines manifest (linesOf [] (manifestLine key value ++ rest)) =
      parseLines (manifest.set key value) (linesOf [] rest) := by
  obtain ⟨hequal, hnew, hret⟩ := hkey
  obtain ⟨hnew', hret'⟩ := lineBreak_notMem_escape value
  have hline : manifestLine key value ++ rest =
      (key ++ '=' :: escapeManifestValue value) ++ '\n' :: rest := by
    simp [manifestLine]
  rw [hline, linesOf_line (by simp [hnew, hnew']) (by simp [hret, hret']), List.nil_append,
    parseLines, splitOnce_key hequal]
  simp only
  rw [unescape_escape]

theorem parseLines_values {key : Text} (hkey : IsKey key) (rest : Text) :
    ∀ (values : List Text) (manifest : BatchManifest),
      parseLines manifest (linesOf [] (values.flatMap (manifestLine key) ++ rest)) =
        parseLines (values.foldl (fun m value => m.set key value) manifest) (linesOf [] rest)
  | [], manifest => rfl
  | value :: values, manifest => by
      rw [List.flatMap_cons, List.append_assoc, parseLines_manifestLine hkey,
        parseLines_values hkey rest values]
      rfl

theorem foldl_set_option : ∀ (values : List Text) (manifest : BatchManifest),
    values.foldl (fun m value => m.set optionKey value) manifest =
      { manifest with options := manifest.options ++ values }
  | [], manifest => by simp
  | value :: values, manifest => by
      rw [List.foldl_cons, foldl_set_option values]
      simp [BatchManifest.set, optionKey, tokenStreamKey]

theorem foldl_set_filter : ∀ (values : List Text) (manifest : BatchManifest),
    values.foldl (fun m value => m.set filterKey value) manifest =
      { manifest with filters := manifest.filters ++ values }
  | [], manifest => by simp
  | value :: values, manifest => by
      rw [List.foldl_cons, foldl_set_filter values]
      simp [BatchManifest.set, optionKey, filterKey, tokenStreamKey]

/-- A manifest with a token stream comes back from its text. -/
theorem parse_render {manifest : BatchManifest} (h : manifest.tokenStream ≠ []) :
    parseManifest (renderManifest manifest) = .ok manifest := by
  unfold parseManifest renderManifest
  rw [if_neg h, List.append_assoc, parseLines_manifestLine (by decide),
    parseLines_values (by decide), foldl_set_option]
  have hfilters := @parseLines_values filterKey (by decide) [] manifest.filters
  rw [List.append_nil] at hfilters
  rw [hfilters, foldl_set_filter]
  simp [linesOf, parseLines, BatchManifest.set]

end RsyncWin
