import RsyncWin.Filter.Rule
import RsyncWin.Lib.ShellWords

/-!
# Remote shell commands (`rsync-transport/src/remote_shell.rs`)

The argv of the remote server becomes one line for a remote shell. The same
module splits a line given with `-e` into words, by the rules of a shell.
-/

namespace RsyncWin

open ByteString ShellWords

/-! ## Splitting -/

inductive RemoteShellCommandParseError where
  | empty | unterminatedQuote | incompleteEscape
deriving DecidableEq, Repr

/-- The locals of `parse_remote_shell_command`. -/
structure WordSplit where
  args : List Text := []
  current : Text := []
  inSingle : Bool := false
  inDouble : Bool := false
  sawToken : Bool := false

def WordSplit.push (s : WordSplit) (word : Text) : WordSplit :=
  { s with current := s.current ++ word, sawToken := true }

/-- The end of a word, where one has begun. -/
def WordSplit.flush (s : WordSplit) : WordSplit :=
  if s.sawToken then { s with args := s.args ++ [s.current], current := [], sawToken := false }
  else s

/-- The loop over the characters. -/
def splitWords : WordSplit → Text → Except RemoteShellCommandParseError WordSplit
  | s, [] => .ok s
  | s, ch :: chars =>
      if ch = '\'' ∧ ¬ s.inDouble then
        splitWords { s with inSingle := !s.inSingle, sawToken := true } chars
      else if ch = '"' ∧ ¬ s.inSingle then
        splitWords { s with inDouble := !s.inDouble, sawToken := true } chars
      else if ch = '\\' ∧ ¬ s.inSingle then
        match chars with
        | [] => .error .incompleteEscape
        | next :: chars => splitWords (s.push [next]) chars
      else if isWhitespace ch ∧ ¬ s.inSingle ∧ ¬ s.inDouble then splitWords s.flush chars
      else splitWords (s.push [ch]) chars

theorem splitWords_cons (s : WordSplit) (ch : Char) (chars : Text) :
    splitWords s (ch :: chars) =
      if ch = '\'' ∧ ¬ s.inDouble then
        splitWords { s with inSingle := !s.inSingle, sawToken := true } chars
      else if ch = '"' ∧ ¬ s.inSingle then
        splitWords { s with inDouble := !s.inDouble, sawToken := true } chars
      else if ch = '\\' ∧ ¬ s.inSingle then
        match chars with
        | [] => .error .incompleteEscape
        | next :: chars => splitWords (s.push [next]) chars
      else if isWhitespace ch ∧ ¬ s.inSingle ∧ ¬ s.inDouble then splitWords s.flush chars
      else splitWords (s.push [ch]) chars := by
  cases chars <;> rfl

def parseRemoteShellCommand (command : Text) :
    Except RemoteShellCommandParseError (Text × List Text) :=
  match splitWords {} command with
  | .error e => .error e
  | .ok s =>
      if s.inSingle ∨ s.inDouble then .error .unterminatedQuote
      else
        match s.flush.args with
        | [] => .error .empty
        | program :: args => .ok (program, args)

/-! ## Quoting -/

def asciiAlphanumeric (byte : UInt8) : Bool :=
  (0x30 ≤ byte && byte ≤ 0x39) || (0x41 ≤ byte && byte ≤ 0x5a) || (0x61 ≤ byte && byte ≤ 0x7a)

/-- `_`, `-`, `.`, `/`, `:` and `@`. -/
def remoteShellSafe (byte : UInt8) : Bool :=
  asciiAlphanumeric byte || [0x5f, 0x2d, 0x2e, 0x2f, 0x3a, 0x40].contains byte

/-- The value in single quotes, with `escape` for those it has itself. -/
def singleQuoted (escape value : Text) : Text :=
  '\'' :: value.flatMap (fun ch => if ch = '\'' then escape else [ch]) ++ ['\'']

namespace RemoteShell

def shellQuote (value : Text) : Text :=
  if value = [] then ['\'', '\'']
  else if (utf8Encode value).all remoteShellSafe then value
  else singleQuoted ['\'', '"', '\'', '"', '\''] value

/-- Under `old_args` what follows the argument `.` goes as it is. -/
def appendArgs (oldArgs : Bool) : Bool → Text → List Text → Text
  | _, command, [] => command
  | filenameArgs, command, arg :: args =>
      appendArgs oldArgs (filenameArgs || arg = ['.'])
        (command ++ [' '] ++ if oldArgs && filenameArgs then arg else shellQuote arg) args

def remoteServerCommand (remoteServerArgv : List Text) (oldArgs : Bool) : Text :=
  match remoteServerArgv with
  | [] => []
  | program :: args => appendArgs oldArgs false program args

end RemoteShell

/-! ## How a quoted word is split -/

/-- A character that neither quotes nor separates: `_ - . / : @ =`, letters and digits. -/
def plainChar (ch : Char) : Bool :=
  ch.isAlphanum || ['_', '-', '.', '/', ':', '@', '='].contains ch

/-- A word that needs no quotes. -/
def PlainWord (word : Text) : Prop := word ≠ [] ∧ ∀ ch ∈ word, plainChar ch = true

/-- Outside quotes, the text adds `word` to the current word, whatever comes after it. -/
def Spells (text word : Text) : Prop :=
  ∀ (s : WordSplit) (rest : Text), s.inSingle = false → s.inDouble = false →
    splitWords s (text ++ rest) = splitWords (s.push word) rest

/-- Inside single quotes, the text adds `word` and stays inside. -/
def SpellsQuoted (text word : Text) : Prop :=
  ∀ (s : WordSplit) (rest : Text), s.inSingle = true → s.inDouble = false → s.sawToken = true →
    splitWords s (text ++ rest) = splitWords (s.push word) rest

@[simp] theorem WordSplit.push_inSingle (s : WordSplit) (word : Text) :
    (s.push word).inSingle = s.inSingle := rfl

@[simp] theorem WordSplit.push_inDouble (s : WordSplit) (word : Text) :
    (s.push word).inDouble = s.inDouble := rfl

@[simp] theorem WordSplit.push_sawToken (s : WordSplit) (word : Text) :
    (s.push word).sawToken = true := rfl

theorem WordSplit.push_push (s : WordSplit) (word word' : Text) :
    (s.push word).push word' = s.push (word ++ word') := by
  simp [WordSplit.push]

theorem Spells.append {text text' word word' : Text} (h : Spells text word)
    (h' : Spells text' word') : Spells (text ++ text') (word ++ word') := by
  intro s rest hsingle hdouble
  rw [List.append_assoc, h s _ hsingle hdouble, h' (s.push word) rest hsingle hdouble,
    WordSplit.push_push]

/-- A statement about ASCII characters, tried on all of them. -/
theorem ascii_forall {P : Char → Prop} (h : ∀ n : Fin 128, P (Char.ofNat n)) {ch : Char}
    (hch : ch.toNat < 128) : P ch := by
  have hp := h ⟨ch.toNat, hch⟩
  rwa [Char.ofNat_toNat] at hp

theorem plainChar_lt {ch : Char} (h : plainChar ch = true) : ch.toNat < 128 := by
  unfold plainChar Char.isAlphanum Char.isAlpha Char.isUpper Char.isLower Char.isDigit at h
  simp only [Bool.or_eq_true, Bool.and_eq_true, decide_eq_true_eq, ge_iff_le,
    UInt32.le_iff_toNat_le, List.contains_iff_mem, List.mem_cons, List.not_mem_nil, or_false] at h
  rcases h with ((h | h) | h) | h
  · exact Nat.lt_of_le_of_lt h.2 (by decide)
  · exact Nat.lt_of_le_of_lt h.2 (by decide)
  · exact Nat.lt_of_le_of_lt h.2 (by decide)
  · rcases h with rfl | rfl | rfl | rfl | rfl | rfl | rfl <;> decide

/-- What plain characters are not. -/
theorem plainChar_not {ch : Char} (h : plainChar ch = true) :
    IsText ch ∧ isWhitespace ch = false := by
  have hall : ∀ n : Fin 128, plainChar (Char.ofNat n) = true →
      IsText (Char.ofNat n) ∧ isWhitespace (Char.ofNat n) = false := by
    unfold IsText
    decide
  exact ascii_forall (P := fun ch => plainChar ch = true → IsText ch ∧ isWhitespace ch = false)
    hall (plainChar_lt h) h

theorem plainChar_of_safe {value : Text} (h : (utf8Encode value).all remoteShellSafe = true) :
    ∀ ch ∈ value, plainChar ch = true := by
  have hlt : ∀ b, remoteShellSafe b = true → b.toNat < 0x80 := by
    intro b hb
    have hall : ∀ n : Fin 256, remoteShellSafe (UInt8.ofNat n) = true → n.val < 0x80 := by
      decide +kernel
    have := hall ⟨b.toNat, b.toNat_lt⟩
    rw [UInt8.ofNat_toNat] at this
    exact this hb
  intro ch hch
  obtain ⟨hascii, hsafe⟩ := all_utf8Encode hlt h ch hch
  have hall : ∀ n : Fin 128, remoteShellSafe (UInt8.ofNat (Char.ofNat n).toNat) = true →
      plainChar (Char.ofNat n) = true := by decide
  exact ascii_forall
    (P := fun ch => remoteShellSafe (UInt8.ofNat ch.toNat) = true → plainChar ch = true)
    hall hascii hsafe

theorem splitWords_text {ch : Char} (h : IsText ch) (hspace : isWhitespace ch = false)
    (s : WordSplit) (rest : Text) : splitWords s (ch :: rest) = splitWords (s.push [ch]) rest := by
  obtain ⟨hsingle, hdouble, hslash⟩ := h
  rw [splitWords_cons]
  simp [hsingle, hdouble, hslash, hspace]

theorem Spells.plain : ∀ {word : Text}, PlainWord word → Spells word word
  | [], h => absurd rfl h.1
  | [ch], h => by
      intro s rest _ _
      obtain ⟨htext, hspace⟩ := plainChar_not (h.2 ch (by simp))
      exact splitWords_text htext hspace s rest
  | ch :: ch' :: word, h => by
      have hone : Spells [ch] [ch] := Spells.plain ⟨by simp, fun c hc => h.2 c (by simp_all)⟩
      have hrest : Spells (ch' :: word) (ch' :: word) :=
        Spells.plain ⟨by simp, fun c hc => h.2 c (List.mem_cons_of_mem ch hc)⟩
      exact hone.append hrest

theorem SpellsQuoted.char {ch : Char} (h : ch ≠ '\'') : SpellsQuoted [ch] [ch] := by
  intro s rest hsingle hdouble _
  rw [List.singleton_append, splitWords_cons]
  simp [h, hsingle]

/-- A value is spelled by itself in quotes, when each quote in it is spelled by its escape. -/
theorem Spells.singleQuoted {escape : Text} (hescape : SpellsQuoted escape ['\''])
    (value : Text) : Spells (singleQuoted escape value) value := by
  have hinner : ∀ (value : Text) (s : WordSplit) (rest : Text), s.inSingle = true →
      s.inDouble = false → s.sawToken = true →
      splitWords s (value.flatMap (fun ch => if ch = '\'' then escape else [ch]) ++ rest) =
        splitWords (s.push value) rest := by
    intro value
    induction value with
    | nil =>
        intro s rest _ _ hsaw
        have hpush : s.push [] = s := by
          unfold WordSplit.push
          rw [List.append_nil, ← hsaw]
        rw [hpush]
        rfl
    | cons ch value ih =>
        intro s rest hsingle hdouble hsaw
        have hone : SpellsQuoted (if ch = '\'' then escape else [ch]) [ch] := by
          by_cases hch : ch = '\''
          · rw [if_pos hch, hch]
            exact hescape
          · rw [if_neg hch]
            exact SpellsQuoted.char hch
        rw [List.flatMap_cons, List.append_assoc, hone s _ hsingle hdouble hsaw,
          ih (s.push [ch]) rest hsingle hdouble rfl, WordSplit.push_push]
        rfl
  intro s rest hsingle hdouble
  have hopen : ∀ t, splitWords s ('\'' :: t) =
      splitWords { s with inSingle := true, sawToken := true } t := by
    intro t
    rw [splitWords_cons, if_pos ⟨rfl, by simp [hdouble]⟩, hsingle]
    rfl
  have hclose : ∀ s' : WordSplit, s'.inSingle = true → s'.inDouble = false →
      splitWords s' ('\'' :: rest) =
        splitWords { s' with inSingle := false, sawToken := true } rest := by
    intro s' hsingle' hdouble'
    rw [splitWords_cons, if_pos ⟨rfl, by simp [hdouble']⟩, hsingle']
    rfl
  unfold RsyncWin.singleQuoted
  rw [List.cons_append, List.cons_append, hopen, List.append_assoc,
    hinner value { s with inSingle := true, sawToken := true } _ rfl hdouble rfl,
    List.singleton_append,
    hclose (WordSplit.push { s with inSingle := true, sawToken := true } value) rfl hdouble]
  congr 1
  simp [WordSplit.push, hsingle]

/-! ## Lines of words -/

/-- A word written so that it is split back and does no harm. -/
structure Written (text word : Text) : Prop where
  spells : Spells text word
  closed : Closed plainChar .bare text

theorem Written.plain {word : Text} (h : PlainWord word) : Written word word := by
  refine ⟨Spells.plain h, ?_⟩
  have hclosed : Closed plainChar .bare (word.flatMap fun ch => [ch]) :=
    Closed.flatMap fun ch hch =>
      Closed.bare (plainChar_not (h.2 ch hch)).1 (Or.inr (h.2 ch hch))
  rwa [List.flatMap_singleton'] at hclosed

/-- A way of writing a single quote from inside single quotes. -/
structure QuoteEscape (escape : Text) : Prop where
  spells : SpellsQuoted escape ['\'']
  closed : Closed plainChar .single escape

theorem QuoteEscape.written {escape : Text} (h : QuoteEscape escape) (value : Text) :
    Written (singleQuoted escape value) value := by
  refine ⟨Spells.singleQuoted h.spells value, Closed.quoted (Closed.flatMap fun ch _ => ?_)⟩
  by_cases hch : ch = '\''
  · rw [if_pos hch]
    exact h.closed
  · rw [if_neg hch]
    exact Closed.single hch

/-- A line of written words: one space before each but the first. -/
inductive WrittenLine : Text → List Text → Prop
  | one {text word : Text} : Written text word → WrittenLine text [word]
  | snoc {line text word : Text} {words : List Text} : WrittenLine line words →
      Written text word → WrittenLine (line ++ [' '] ++ text) (words ++ [word])

theorem WrittenLine.closed {line : Text} {words : List Text} (h : WrittenLine line words) :
    Closed plainChar .bare line := by
  induction h with
  | one h => exact h.closed
  | snoc _ h ih =>
      have hspace : Closed plainChar .bare [' '] := Closed.bare (by simp [IsText]) (Or.inl rfl)
      exact (ih.append hspace).append h.closed

/-- What the splitter has when it comes to the end of a line of words. -/
theorem WrittenLine.split {line : Text} {words : List Text} (h : WrittenLine line words)
    (rest : Text) : ∃ before word, words = before ++ [word] ∧
      splitWords {} (line ++ rest) =
        splitWords { args := before, current := word, sawToken := true } rest := by
  induction h generalizing rest with
  | @one text word h => exact ⟨[], word, rfl, h.spells {} rest rfl rfl⟩
  | @snoc line text word words _ h ih =>
      obtain ⟨before, last, rfl, hsplit⟩ := ih ([' '] ++ text ++ rest)
      refine ⟨before ++ [last], word, rfl, ?_⟩
      have hspace : ∀ (s : WordSplit) (t : Text), s.inSingle = false → s.inDouble = false →
          splitWords s (' ' :: t) = splitWords s.flush t := by
        intro s t hsingle hdouble
        rw [splitWords_cons]
        simp [hsingle, hdouble, show isWhitespace ' ' = true by decide]
      rw [List.append_assoc, List.append_assoc, ← List.append_assoc [' '], hsplit,
        List.append_assoc, List.singleton_append, hspace _ _ rfl rfl]
      exact h.spells { args := before ++ [last] } rest rfl rfl

theorem parse_of_written {line program : Text} {args : List Text}
    (h : WrittenLine line (program :: args)) :
    parseRemoteShellCommand line = .ok (program, args) := by
  obtain ⟨before, word, hwords, hsplit⟩ := h.split []
  unfold parseRemoteShellCommand
  rw [List.append_nil] at hsplit
  rw [hsplit]
  simp [splitWords, WordSplit.flush, ← hwords]

/-! ## The remote server's command -/

namespace RemoteShell

theorem quoteEscape : QuoteEscape ['\'', '"', '\'', '"', '\''] := by
  constructor
  case spells =>
    intro s rest hsingle hdouble hsaw
    simp [splitWords_cons, hsingle, hdouble, WordSplit.push]
  case closed =>
    refine ⟨[(.mark, '\''), (.mark, '"'), (.double, '\''), (.mark, '"'), (.mark, '\'')], ?_,
      fun rest => ?_⟩
    · simp [Harmless]
    · cases rest <;> simp [standings]

theorem written_shellQuote (value : Text) : Written (shellQuote value) value := by
  unfold shellQuote
  split
  · rename_i hnil
    rw [hnil]
    exact quoteEscape.written []
  · rename_i hne
    split
    · rename_i hsafe
      exact Written.plain ⟨hne, plainChar_of_safe hsafe⟩
    · exact quoteEscape.written value

theorem writtenLine_appendArgs : ∀ (args : List Text) {filenameArgs : Bool} {line : Text}
    {words : List Text}, WrittenLine line words →
      WrittenLine (appendArgs false filenameArgs line args) (words ++ args)
  | [], _, _, _, h => by
      rw [List.append_nil]
      exact h
  | arg :: args, filenameArgs, line, words, h => by
      have hwords : words ++ arg :: args = words ++ [arg] ++ args := List.append_cons words arg args
      rw [appendArgs, Bool.false_and, if_neg (by decide), hwords]
      exact writtenLine_appendArgs args (h.snoc (written_shellQuote arg))

theorem writtenLine_remoteServerCommand {program : Text} (h : PlainWord program)
    (args : List Text) :
    WrittenLine (remoteServerCommand (program :: args) false) (program :: args) :=
  writtenLine_appendArgs args (.one (Written.plain h))

end RemoteShell

end RsyncWin
