import RsyncWin.Filter.Glob
import RsyncWin.Lib.Utf8

/-!
# Filter rules (`rsync-filter/src/rule.rs`, `matcher.rs`)

A rule has an action, a pattern and the sides it applies to; a rule set answers
with the action of its first rule that matches.
-/

namespace RsyncWin

open ByteString

inductive EntryKind where
  | file | directory
deriving DecidableEq, Repr

inductive RuleAction where
  | include | exclude | hide | show | protect | risk | clearList | merge | dirMerge
deriving DecidableEq, Repr

inductive RuleSide where
  | sender | receiver
deriving DecidableEq, Repr

inductive ParseRuleError where
  | emptyRule
  | missingPattern
  | emptyPattern
  | unknownRule (rule : Text)
  | invalidModifier (modifier : Char)
  | invalidUtf8 (offset : Nat)
  | unexpectedNul (offset : Nat)
deriving DecidableEq, Repr

/-- `char::is_whitespace`: the property `White_Space`. -/
def isWhitespace (ch : Char) : Bool :=
  let n := ch.toNat
  (0x9 ≤ n && n ≤ 0xd) || n = 0x20 || n = 0x85 || n = 0xa0 || n = 0x1680 ||
    (0x2000 ≤ n && n ≤ 0x200a) || n = 0x2028 || n = 0x2029 || n = 0x202f || n = 0x205f ||
    n = 0x3000

def trimStart (text : Text) : Text := text.dropWhile isWhitespace

def trimEnd (text : Text) : Text := (text.reverse.dropWhile isWhitespace).reverse

def trim (text : Text) : Text := trimEnd (trimStart text)

/-- `split_once`: the parts before and after the first character that `p` holds of. -/
def splitOnce (p : Char → Bool) (text : Text) : Option (Text × Text) :=
  match text.span fun ch => !p ch with
  | (_, []) => none
  | (head, _ :: rest) => some (head, rest)

/-! ## Patterns -/

structure Pattern where
  raw : Text
  body : Text
  anchored : Bool
  directoryOnly : Bool
  hasPathSeparator : Bool
  matchDirectoryPrefix : Option Text
deriving DecidableEq, Repr

/-- `while let Some(stripped) = body.strip_prefix("./")`. -/
def stripDotSlash : Text → Text
  | '.' :: '/' :: rest => stripDotSlash rest
  | text => text

/-- `strip_suffix`. -/
def stripSuffix (suffix text : Text) : Option Text :=
  if suffix.isSuffixOf text then some (text.take (text.length - suffix.length)) else none

def Pattern.parse (raw : Text) : Except ParseRuleError Pattern :=
  let raw := trim raw
  if raw = [] then .error .missingPattern
  else
    let body := normalizeFilterPath raw
    let anchored := body.head? = some '/'
    let body := if anchored then body.tail else body
    let directoryOnly := body.getLast? = some '/'
    let body := if directoryOnly then body.dropLast else body
    let body := stripDotSlash body
    if body = [] then .error .emptyPattern
    else
      .ok
        { raw
          body
          anchored
          directoryOnly
          hasPathSeparator := body.contains '/'
          matchDirectoryPrefix := stripSuffix "/***".toList body }

def normalizeCandidatePath (path : Text) : Text :=
  let path := (normalizeFilterPath path).dropWhile (· = '/')
  let path := stripDotSlash path
  (path.reverse.dropWhile (· = '/')).reverse

/-- What follows each slash. -/
def afterSlashes : Text → List Text
  | [] => []
  | ch :: rest => if ch = '/' then rest :: afterSlashes rest else afterSlashes rest

def pathSuffixes (path : Text) : List Text := path :: afterSlashes path

def containsDoubleStar : Text → Bool
  | '*' :: '*' :: _ => true
  | _ :: rest => containsDoubleStar rest
  | [] => false

/-- `matches`. -/
def Pattern.admits (p : Pattern) (path : Text) (kind : EntryKind) : Bool :=
  if p.directoryOnly ∧ kind ≠ .directory then false
  else
    let path := normalizeCandidatePath path
    if path = [] then false
    else if kind = .directory ∧ p.matchDirectoryPrefix = some path then true
    else if p.anchored then globMatches p.body path
    else if p.hasPathSeparator ∨ containsDoubleStar p.body then
      (pathSuffixes path).any (globMatches p.body)
    else globMatches p.body ((path.splitOn '/').getLastD [])

/-! ## Rules -/

structure Rule where
  action : RuleAction
  pattern : Option Pattern
  senderSide : Bool
  receiverSide : Bool
  perishable : Bool
deriving DecidableEq, Repr

structure ModifierState where
  senderSide : Bool := false
  receiverSide : Bool := false
  perishable : Bool := false
deriving DecidableEq, Repr

def defaultSides : RuleAction → Bool × Bool
  | .hide | .show => (true, false)
  | .protect | .risk => (false, true)
  | .include | .exclude | .clearList | .merge | .dirMerge => (true, true)

def ModifierState.sides (modifiers : ModifierState) (action : RuleAction) : Bool × Bool :=
  if modifiers.senderSide ∨ modifiers.receiverSide then
    (modifiers.senderSide, modifiers.receiverSide)
  else defaultSides action

namespace Rule

def new (action : RuleAction) (pattern : Text) : Except ParseRuleError Rule := do
  let pattern ← Pattern.parse pattern
  pure
    { action
      pattern := some pattern
      senderSide := (defaultSides action).1
      receiverSide := (defaultSides action).2
      perishable := false }

def withModifiers (action : RuleAction) (pattern : Text) (modifiers : ModifierState) :
    Except ParseRuleError Rule := do
  let pattern ← Pattern.parse pattern
  pure
    { action
      pattern := some pattern
      senderSide := (modifiers.sides action).1
      receiverSide := (modifiers.sides action).2
      perishable := modifiers.perishable }

def withoutPattern (action : RuleAction) (modifiers : ModifierState) : Rule :=
  { action
    pattern := none
    senderSide := (modifiers.sides action).1
    receiverSide := (modifiers.sides action).2
    perishable := modifiers.perishable }

def appliesTo (rule : Rule) : RuleSide → Bool
  | .sender => rule.senderSide
  | .receiver => rule.receiverSide

/-- `matches`. -/
def admits (rule : Rule) (path : Text) (kind : EntryKind) : Bool :=
  match rule.pattern with
  | some pattern => pattern.admits path kind
  | none => false

end Rule

/-! ## Parsing -/

def splitRuleHead (input : Text) : Except ParseRuleError (Text × Text) :=
  match splitOnce isWhitespace input with
  | none => .error .missingPattern
  | some (head, pattern) =>
      if trim pattern = [] then .error .missingPattern else .ok (head, trim pattern)

def shortAction (marker : Char) : Option RuleAction :=
  if marker = '+' then some .include
  else if marker = '-' then some .exclude
  else if marker = 'H' then some .hide
  else if marker = 'S' then some .show
  else if marker = 'P' then some .protect
  else if marker = 'R' then some .risk
  else if marker = '!' then some .clearList
  else if marker = '.' then some .merge
  else if marker = ':' then some .dirMerge
  else none

def longAction (keyword : Text) : Option RuleAction :=
  if keyword = "include".toList then some .include
  else if keyword = "exclude".toList then some .exclude
  else if keyword = "hide".toList then some .hide
  else if keyword = "show".toList then some .show
  else if keyword = "protect".toList then some .protect
  else if keyword = "risk".toList then some .risk
  else if keyword = "clear".toList ∨ keyword = "clear-list".toList then some .clearList
  else if keyword = "merge".toList then some .merge
  else if keyword = "dir-merge".toList then some .dirMerge
  else none

def applyModifier (modifiers : ModifierState) (ch : Char) : Except ParseRuleError ModifierState :=
  if ch = 's' then .ok { modifiers with senderSide := true }
  else if ch = 'r' then .ok { modifiers with receiverSide := true }
  else if ch = 'p' then .ok { modifiers with perishable := true }
  else if ['e', 'n', 'w', 'x', '-', '+', '!'].contains ch then .ok modifiers
  else .error (.invalidModifier ch)

def parseModifiers (input : Text) : Except ParseRuleError ModifierState :=
  (input.filter (· ≠ ',')).foldlM applyModifier {}

def parseRuleHead (head : Text) : Except ParseRuleError (RuleAction × ModifierState) :=
  match head with
  | [] => .error .emptyRule
  | first :: chars =>
      match shortAction first with
      | some action => do
          let modifiers ← parseModifiers (chars.dropWhile (· = ','))
          pure (action, modifiers)
      | none =>
          let parts := (splitOnce (· = ',') head).getD (head, [])
          match longAction parts.1 with
          | none => .error (.unknownRule head)
          | some action => do
              let modifiers ← parseModifiers parts.2
              pure (action, modifiers)

def Rule.parseFilter (input : Text) : Except ParseRuleError Rule :=
  let trimmed := trim input
  if trimmed = [] then .error .emptyRule
  else if trimmed = ['!'] then .ok (Rule.withoutPattern .clearList {})
  else do
    let (head, pattern) ← splitRuleHead trimmed
    let (action, modifiers) ← parseRuleHead head
    if action = .clearList then pure (Rule.withoutPattern action modifiers)
    else Rule.withModifiers action pattern modifiers

/-- `valid_up_to`: how many bytes decode before the first that does not. -/
def validUpTo : Nat → Bytes → Nat
  | 0, _ => 0
  | _ + 1, [] => 0
  | fuel + 1, b :: bs =>
      match decodeStep b bs with
      | (none, _) => 0
      | (some _, n) => n + validUpTo fuel ((b :: bs).drop n)

def utf8Record (offset : Nat) (record : Bytes) : Except ParseRuleError Text :=
  match utf8Chars record with
  | some text => .ok text
  | none => .error (.invalidUtf8 (offset + validUpTo record.length record))

def nulRecords : Nat → List Bytes → Except ParseRuleError (List Text)
  | _, [] => .ok []
  | offset, record :: records =>
      if record = [] then nulRecords (offset + 1) records
      else do
        let text ← utf8Record offset record
        let texts ← nulRecords (offset + record.length + 1) records
        pure (text :: texts)

def parseFilterRecords (input : Bytes) (from0 : Bool) : Except ParseRuleError (List Text) :=
  if from0 then nulRecords 0 (input.splitOn 0)
  else if 0 ∈ input then .error (.unexpectedNul (input.idxOf 0))
  else do
    let text ← utf8Record 0 input
    pure ((text.splitOn '\n').map fun record => (stripSuffix ['\r'] record).getD record)

def normalizeFilterRecord (record : Text) : Option Text :=
  match trim record with
  | [] => none
  | '#' :: _ => none
  | '\\' :: '#' :: stripped => some ('#' :: stripped)
  | '\\' :: ' ' :: stripped => some (' ' :: stripped)
  | trimmed => some trimmed

def startsWithExplicitRule (record : Text) : Bool :=
  match record with
  | [] => false
  | first :: _ =>
      (shortAction first).isSome ||
        match splitOnce isWhitespace record with
        | none => false
        | some (head, _) =>
            let keyword := ((splitOnce (· = ',') head).map (·.1)).getD head
            (longAction keyword).isSome

def parseRecord (defaultAction : RuleAction) (record : Text) : Except ParseRuleError Rule :=
  if startsWithExplicitRule record then Rule.parseFilter record else Rule.new defaultAction record

def Rule.parseFilterFile (input : Bytes) (from0 : Bool) (defaultAction : RuleAction) :
    Except ParseRuleError (List Rule) := do
  let records ← parseFilterRecords input from0
  (records.filterMap normalizeFilterRecord).mapM (parseRecord defaultAction)

/-! ## Rule sets -/

structure RuleSet where
  rules : List Rule := []
deriving DecidableEq, Repr

namespace RuleSet

def push (set : RuleSet) (rule : Rule) : RuleSet :=
  if rule.action = .clearList then ⟨[]⟩ else ⟨set.rules ++ [rule]⟩

def isMergeDirective (action : RuleAction) : Bool := action = .merge || action = .dirMerge

/-- The action of the first rule that applies and matches. -/
def decideForSide (set : RuleSet) (path : Text) (kind : EntryKind) (side : RuleSide) :
    RuleAction :=
  match set.rules.find? fun rule =>
      !isMergeDirective rule.action && rule.appliesTo side && rule.admits path kind with
  | some rule => rule.action
  | none => .include

@[simp] theorem decideForSide_empty (path : Text) (kind : EntryKind) (side : RuleSide) :
    decideForSide {} path kind side = .include := rfl

end RuleSet

end RsyncWin
