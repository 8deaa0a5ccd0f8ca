import Mathlib.Data.List.TakeWhile
import RsyncWin.Batch.Manifest
import RsyncWin.Lib.Excepts
import RsyncWin.Lib.Numeral
import RsyncWin.Lib.Path

/-!
# POSIX sidecar manifests (`rsync-winfs/src/sidecar.rs`)

One line for each field, its key in front. Nothing is escaped, and an absent
value is the word `none`.
-/

namespace RsyncWin

open ByteString

structure PosixAclRecord where
  tag : Text
  qualifier : Option Text
  perms : Text
deriving DecidableEq

structure PosixXattrRecord where
  name : Text
  valueHex : Text
deriving DecidableEq

/-- `u32` is `UInt32` here, `i128` is `BitVec 128`. -/
structure PosixFakeSuperSidecar where
  path : Bytes
  mode : Option UInt32
  uid : Option UInt32
  gid : Option UInt32
  userName : Option Text
  groupName : Option Text
  accessTimeUnixNanos : Option (BitVec 128)
  creationTimeUnixNanos : Option (BitVec 128)
  acls : List PosixAclRecord
  xattrs : List PosixXattrRecord
  fakeSuper : Bool
deriving DecidableEq

structure PosixFakeSuperSidecarManifest where
  sidecar : PosixFakeSuperSidecar
  unknownFields : List (Text × Text)
deriving DecidableEq

inductive SidecarParseError where
  | invalidHeader
  | missingField (field : Text)
  | invalidField (field value : Text)
  | invalidLine (line : Text)
deriving DecidableEq

inductive PosixKey where
  | path | mode | uid | gid | userName | groupName | accessTime | creationTime
  | acls | acl | xattrs | xattr | fakeSuper
deriving DecidableEq

namespace PosixKey

def text : PosixKey → Text
  | path => ['p', 'a', 't', 'h']
  | mode => ['m', 'o', 'd', 'e']
  | uid => ['u', 'i', 'd']
  | gid => ['g', 'i', 'd']
  | userName => ['u', 's', 'e', 'r', '_', 'n', 'a', 'm', 'e']
  | groupName => ['g', 'r', 'o', 'u', 'p', '_', 'n', 'a', 'm', 'e']
  | accessTime => ['a', 'c', 'c', 'e', 's', 's', '_', 't', 'i', 'm', 'e']
  | creationTime => ['c', 'r', 'e', 'a', 't', 'i', 'o', 'n', '_', 't', 'i', 'm', 'e']
  | acls => ['a', 'c', 'l', 's']
  | acl => ['a', 'c', 'l']
  | xattrs => ['x', 'a', 't', 't', 'r', 's']
  | xattr => ['x', 'a', 't', 't', 'r']
  | fakeSuper => ['f', 'a', 'k', 'e', '_', 's', 'u', 'p', 'e', 'r']

def all : List PosixKey :=
  [path, mode, uid, gid, userName, groupName, accessTime, creationTime, acls, acl, xattrs, xattr,
   fakeSuper]

def ofText (key : Text) : Option PosixKey := all.find? fun k => k.text = key

theorem ofText_text (key : PosixKey) : ofText key.text = some key := by
  cases key <;> decide

theorem isKey_text (key : PosixKey) : IsKey key.text := by
  cases key <;> decide

end PosixKey

/-! ## Rendering -/

def posixFakeSuperSidecarHeader : Text :=
  ['r', 's', 'y', 'n', 'c', '-', 'w', 'i', 'n', ' ', 'p', 'o', 's', 'i', 'x', ' ', 'f', 'a', 'k',
   'e', '-', 's', 'u', 'p', 'e', 'r', ' ', 's', 'i', 'd', 'e', 'c', 'a', 'r', ' ', 'v', '1']

def noneText : Text := ['n', 'o', 'n', 'e']

def oldNoneText : Text := ['N', 'o', 'n', 'e']

def someOpen : Text := ['S', 'o', 'm', 'e', '(']

def formatOption {α : Type} (print : α → Text) (value : Option α) : Text :=
  (value.map print).getD noneText

def printU32 (value : UInt32) : Text := Nat.toDigits 10 value.toNat

def printOctal (value : UInt32) : Text := Nat.toDigits 8 value.toNat

def printI128 (value : BitVec 128) : Text := Numeral.printSigned value.toInt

def printBool : Bool → Text
  | true => ['t', 'r', 'u', 'e']
  | false => ['f', 'a', 'l', 's', 'e']

def formatStringOption (value : Option Text) : Text := value.getD noneText

/-- `path.display()`. -/
def displayPath (path : Bytes) : Text := decodeLossy path.length path

def fieldLine (key : PosixKey) (value : Text) : Text := key.text ++ '=' :: value ++ ['\n']

def PosixAclRecord.line (acl : PosixAclRecord) : Text :=
  acl.tag ++ ',' :: (acl.qualifier.getD noneText ++ ',' :: acl.perms)

def PosixXattrRecord.line (xattr : PosixXattrRecord) : Text := xattr.name ++ ',' :: xattr.valueHex

def PosixFakeSuperSidecar.manifest (sidecar : PosixFakeSuperSidecar) : Text :=
  posixFakeSuperSidecarHeader ++ ['\n'] ++
  fieldLine .path (displayPath sidecar.path) ++
  fieldLine .mode (formatOption printOctal sidecar.mode) ++
  fieldLine .uid (formatOption printU32 sidecar.uid) ++
  fieldLine .gid (formatOption printU32 sidecar.gid) ++
  fieldLine .userName (formatStringOption sidecar.userName) ++
  fieldLine .groupName (formatStringOption sidecar.groupName) ++
  fieldLine .accessTime (formatOption printI128 sidecar.accessTimeUnixNanos) ++
  fieldLine .creationTime (formatOption printI128 sidecar.creationTimeUnixNanos) ++
  fieldLine .acls (Nat.toDigits 10 sidecar.acls.length) ++
  sidecar.acls.flatMap (fun acl => fieldLine .acl acl.line) ++
  fieldLine .xattrs (Nat.toDigits 10 sidecar.xattrs.length) ++
  sidecar.xattrs.flatMap (fun xattr => fieldLine .xattr xattr.line) ++
  fieldLine .fakeSuper (printBool sidecar.fakeSuper)

/-! ## Parsing -/

def stripPrefix (start text : Text) : Option Text :=
  if start.isPrefixOf text then some (text.drop start.length) else none

def invalidField (key : PosixKey) (value : Text) : SidecarParseError :=
  .invalidField key.text value

/-- `value.parse().map_err(|_| invalid(field, value))`. -/
def parseWith {α : Type} (parse : Text → Option α) (key : PosixKey) (value : Text) :
    Except SidecarParseError α :=
  match parse value with
  | some v => .ok v
  | none => .error (invalidField key value)

/-- `none`, the old spelling `Some(...)`, or the value. -/
def parseOptionWith {α : Type} (parse : Text → Option α) (key : PosixKey) (value : Text) :
    Except SidecarParseError (Option α) :=
  if value = noneText ∨ value = oldNoneText then .ok none
  else
    match (stripPrefix someOpen value).bind (stripSuffix [')']) with
    | some inner =>
        match parse inner with
        | some v => .ok (some v)
        | none => .error (invalidField key value)
    | none => (parseWith parse key value).map some

def parseOptionString (value : Text) : Option Text :=
  if value = noneText ∨ value = oldNoneText then none
  else
    match stripPrefix (someOpen ++ ['"']) value with
    | some inner => stripSuffix ['"', ')'] inner
    | none => some value

def readU32 (radix : Nat) (value : Text) : Option UInt32 :=
  (Numeral.parseUnsigned radix 4294967295 value).map UInt32.ofNat

def readI128 (value : Text) : Option (BitVec 128) :=
  (Numeral.parseSigned 10 (2 ^ 127 - 1) value).map (BitVec.ofInt 128)

def readBool (value : Text) : Option Bool :=
  if value = printBool true then some true
  else if value = printBool false then some false
  else none

def parseAcl (value : Text) : Except SidecarParseError PosixAclRecord :=
  match value.splitOn ',' with
  | [tag, qualifier, perms] =>
      if tag = [] ∨ perms = [] then .error (invalidField .acl value)
      else .ok ⟨tag, if qualifier ≠ noneText then some qualifier else none, perms⟩
  | _ => .error (invalidField .acl value)

/-- `rsplit_once(',')`. -/
def rsplitComma (value : Text) : Option (Text × Text) :=
  (splitOnce (· = ',') value.reverse).map fun parts => (parts.2.reverse, parts.1.reverse)

def isAsciiHexdigit (ch : Char) : Bool :=
  ('0' ≤ ch && ch ≤ '9') || ('a' ≤ ch && ch ≤ 'f') || ('A' ≤ ch && ch ≤ 'F')

def parseXattr (value : Text) : Except SidecarParseError PosixXattrRecord :=
  match rsplitComma value with
  | none => .error (invalidField .xattr value)
  | some (name, valueHex) =>
      if name = [] ∨ (utf8Encode valueHex).length % 2 ≠ 0 ∨ ¬ valueHex.all isAsciiHexdigit then
        .error (invalidField .xattr value)
      else .ok ⟨name, valueHex⟩

structure PosixParsedFields where
  path : Option Bytes := none
  mode : Option UInt32 := none
  uid : Option UInt32 := none
  gid : Option UInt32 := none
  userName : Option Text := none
  groupName : Option Text := none
  accessTime : Option (BitVec 128) := none
  creationTime : Option (BitVec 128) := none
  aclCount : Option Nat := none
  xattrCount : Option Nat := none
  fakeSuper : Option Bool := none

/-- What the loop over the lines has gathered. -/
structure PosixParse where
  fields : PosixParsedFields := {}
  acls : List PosixAclRecord := []
  xattrs : List PosixXattrRecord := []
  unknownFields : List (Text × Text) := []

def PosixParse.set (p : PosixParse) (key : PosixKey) (value : Text) :
    Except SidecarParseError PosixParse :=
  let fields := p.fields
  match key with
  | .path => .ok { p with fields := { fields with path := some (utf8Encode value) } }
  | .mode => do
      let mode ← parseOptionWith (readU32 8) .mode value
      .ok { p with fields := { fields with mode := mode } }
  | .uid => do
      let uid ← parseOptionWith (readU32 10) .uid value
      .ok { p with fields := { fields with uid := uid } }
  | .gid => do
      let gid ← parseOptionWith (readU32 10) .gid value
      .ok { p with fields := { fields with gid := gid } }
  | .userName => .ok { p with fields := { fields with userName := parseOptionString value } }
  | .groupName => .ok { p with fields := { fields with groupName := parseOptionString value } }
  | .accessTime => do
      let time ← parseOptionWith readI128 .accessTime value
      .ok { p with fields := { fields with accessTime := time } }
  | .creationTime => do
      let time ← parseOptionWith readI128 .creationTime value
      .ok { p with fields := { fields with creationTime := time } }
  | .acls => do
      let count ← parseWith (Numeral.parseUnsigned 10 u64Max) .acls value
      .ok { p with fields := { fields with aclCount := some count } }
  | .acl => do
      let acl ← parseAcl value
      .ok { p with acls := p.acls ++ [acl] }
  | .xattrs => do
      let count ← parseWith (Numeral.parseUnsigned 10 u64Max) .xattrs value
      .ok { p with fields := { fields with xattrCount := some count } }
  | .xattr => do
      let xattr ← parseXattr value
      .ok { p with xattrs := p.xattrs ++ [xattr] }
  | .fakeSuper => do
      let fakeSuper ← parseWith readBool .fakeSuper value
      .ok { p with fields := { fields with fakeSuper := some fakeSuper } }

def parsePosixLine (p : PosixParse) (line : Text) : Except SidecarParseError PosixParse :=
  if trim line = [] then .ok p
  else
    match splitOnce (· = '=') line with
    | none => .error (.invalidLine line)
    | some (key, value) =>
        match PosixKey.ofText key with
        | some k => p.set k value
        | none => .ok { p with unknownFields := p.unknownFields ++ [(key, value)] }

def parsePosixLines : PosixParse → List Text → Except SidecarParseError PosixParse
  | p, [] => .ok p
  | p, line :: lines => do
      let p ← parsePosixLine p line
      parsePosixLines p lines

def countMismatch (expected found : Nat) : Text :=
  "expected ".toList ++ Nat.toDigits 10 expected ++ ", found ".toList ++ Nat.toDigits 10 found

def checkCount (key : PosixKey) (count : Option Nat) (found : Nat) :
    Except SidecarParseError Unit :=
  match count with
  | none => .ok ()
  | some expected =>
      if expected ≠ found then .error (invalidField key (countMismatch expected found)) else .ok ()

def required {α : Type} (value : Option α) (key : PosixKey) : Except SidecarParseError α :=
  match value with
  | some v => .ok v
  | none => .error (.missingField key.text)

def PosixParse.finish (p : PosixParse) : Except SidecarParseError PosixFakeSuperSidecarManifest := do
  checkCount .acls p.fields.aclCount p.acls.length
  checkCount .xattrs p.fields.xattrCount p.xattrs.length
  let path ← required p.fields.path .path
  let fakeSuper ← required p.fields.fakeSuper .fakeSuper
  .ok ⟨⟨path, p.fields.mode, p.fields.uid, p.fields.gid, p.fields.userName, p.fields.groupName,
    p.fields.accessTime, p.fields.creationTime, p.acls, p.xattrs, fakeSuper⟩, p.unknownFields⟩

def parsePosixFakeSuperSidecarManifest (input : Text) :
    Except SidecarParseError PosixFakeSuperSidecarManifest :=
  match linesOf [] input with
  | [] => .error .invalidHeader
  | header :: lines =>
      if header ≠ posixFakeSuperSidecarHeader then .error .invalidHeader
      else do
        let p ← parsePosixLines {} lines
        p.finish

/-! ## Line by line -/

theorem trim_cons_ne_nil {ch : Char} (h : ¬ isWhitespace ch = true) (rest : Text) :
    trim (ch :: rest) ≠ [] := by
  have hstart : trimStart (ch :: rest) = ch :: rest := List.dropWhile_cons_of_neg h
  intro htrim
  unfold trim trimEnd at htrim
  rw [hstart, List.reverse_eq_nil_iff, List.dropWhile_eq_nil_iff] at htrim
  exact h (htrim ch (by simp))

theorem PosixKey.text_cons (key : PosixKey) :
    ∃ ch rest, key.text = ch :: rest ∧ ¬ isWhitespace ch = true := by
  cases key <;> exact ⟨_, _, rfl, by decide⟩

/-- Only what is behind a separator can lose a carriage return. -/
theorem stripCarriageReturn_append (before : Text) {ch : Char} (h : ch ≠ '\r') (value : Text) :
    stripCarriageReturn (before ++ ch :: value) = before ++ ch :: stripCarriageReturn value := by
  have hlast : (before ++ ch :: value).getLast? = (ch :: value).getLast? :=
    List.getLast?_append_of_ne_nil _ (List.cons_ne_nil _ _)
  unfold stripCarriageReturn
  rw [hlast]
  cases value with
  | nil => simp [h]
  | cons first value =>
      rw [List.getLast?_cons_cons]
      by_cases hret : (first :: value).getLast? = some '\r'
      · rw [if_pos hret, if_pos hret, List.dropLast_append_of_ne_nil (List.cons_ne_nil _ _)]
        rfl
      · rw [if_neg hret, if_neg hret]

/-- A field is read from its line, but for a carriage return at its end. -/
theorem parsePosixLines_field (p : PosixParse) (key : PosixKey) {value : Text}
    (hvalue : '\n' ∉ value) (rest : Text) :
    parsePosixLines p (linesOf [] (fieldLine key value ++ rest)) =
      p.set key (stripCarriageReturn value) >>= fun p => parsePosixLines p (linesOf [] rest) := by
  obtain ⟨hequal, hnew, -⟩ := key.isKey_text
  have hline : fieldLine key value ++ rest = (key.text ++ '=' :: value) ++ '\n' :: rest := by
    simp [fieldLine]
  have hbreak : '\n' ∉ key.text ++ '=' :: value := by simp [hnew, hvalue]
  have hset : parsePosixLine p (key.text ++ '=' :: stripCarriageReturn value) =
      p.set key (stripCarriageReturn value) := by
    obtain ⟨ch, more, htext, hch⟩ := key.text_cons
    have htrim : trim (key.text ++ '=' :: stripCarriageReturn value) ≠ [] := by
      rw [htext]
      exact trim_cons_ne_nil hch _
    unfold parsePosixLine
    rw [if_neg htrim, splitOnce_key hequal]
    dsimp only
    rw [key.ofText_text]
  rw [hline, linesOf_break hbreak, List.nil_append, stripCarriageReturn_append _ (by decide),
    parsePosixLines, hset]

/-! ## Values that always come back -/

/-- Digits and perhaps a sign: what a number is printed as. -/
def NumberText (text : Text) : Prop :=
  text ≠ [] ∧ ∀ ch ∈ text, Numeral.IsDigit 10 ch ∨ ch = '-'

theorem NumberText.notMem {text : Text} (h : NumberText text) (ch : Char)
    (hdigit : ¬ Numeral.IsDigit 10 ch) (hminus : ch ≠ '-') : ch ∉ text :=
  fun hmem => (h.2 ch hmem).elim hdigit hminus

theorem stripCarriageReturn_eq_self {text : Text} (h : '\r' ∉ text) :
    stripCarriageReturn text = text := if_neg fun hlast => h (List.mem_of_getLast? hlast)

theorem numberText_toDigits {radix : Nat} (hone : 1 < radix) (hradix : radix ≤ 10) (n : Nat) :
    NumberText (Nat.toDigits radix n) := by
  refine ⟨Nat.toDigits_ne_nil, fun ch hch => Or.inl ?_⟩
  obtain ⟨hlo, hhi⟩ := Numeral.isDigit_of_mem_toDigits hone hradix n ch hch
  exact ⟨hlo, by omega⟩

theorem numberText_printI128 (value : BitVec 128) : NumberText (printI128 value) := by
  unfold printI128 Numeral.printSigned
  split
  · have hdigits := (@numberText_toDigits 10 (by decide) (by decide) value.toInt.natAbs).2
    exact ⟨List.cons_ne_nil _ _, List.forall_mem_cons.mpr ⟨Or.inr rfl, hdigits⟩⟩
  · exact numberText_toDigits (by decide) (by decide) _

theorem numberText_printU32 (value : UInt32) : NumberText (printU32 value) :=
  numberText_toDigits (by decide) (by decide) _

theorem numberText_printOctal (value : UInt32) : NumberText (printOctal value) :=
  numberText_toDigits (by decide) (by decide) _

theorem readU32_print {radix : Nat} (hone : 1 < radix) (hradix : radix ≤ 10) (value : UInt32) :
    readU32 radix (Nat.toDigits radix value.toNat) = some value := by
  have hlt := value.toNat_lt
  unfold readU32
  rw [Numeral.parseUnsigned_toDigits hone hradix (by omega), Option.map_some, UInt32.ofNat_toNat]

theorem readU32_printU32 (value : UInt32) : readU32 10 (printU32 value) = some value :=
  readU32_print (by decide) (by decide) value

theorem readU32_printOctal (value : UInt32) : readU32 8 (printOctal value) = some value :=
  readU32_print (by decide) (by decide) value

theorem readI128_print (value : BitVec 128) : readI128 (printI128 value) = some value := by
  have hlo := value.le_toInt
  have hhi := value.toInt_lt
  unfold readI128 printI128
  rw [Numeral.parseSigned_printSigned (by push_cast; omega) (by push_cast; omega),
    Option.map_some, BitVec.ofInt_toInt]

section OptionField

variable {α : Type} {print : α → Text} {parse : Text → Option α}

theorem lineBreak_notMem_formatOption (hprint : ∀ v, NumberText (print v)) (value : Option α) :
    '\n' ∉ formatOption print value ∧ '\r' ∉ formatOption print value := by
  cases value with
  | none =>
      show '\n' ∉ noneText ∧ '\r' ∉ noneText
      decide
  | some v =>
      exact ⟨(hprint v).notMem '\n' (by decide) (by decide),
        (hprint v).notMem '\r' (by decide) (by decide)⟩

/-- A number is neither the word for an absent value nor in the old spelling. -/
theorem parseOptionWith_format (hprint : ∀ v, NumberText (print v))
    (hparse : ∀ v, parse (print v) = some v) (key : PosixKey) (value : Option α) :
    parseOptionWith parse key (stripCarriageReturn (formatOption print value)) = .ok value := by
  rw [stripCarriageReturn_eq_self (lineBreak_notMem_formatOption hprint value).2]
  cases value with
  | none => rfl
  | some v =>
      have hnone : ¬ (print v = noneText ∨ print v = oldNoneText) := by
        rintro (h | h)
        · exact (hprint v).notMem 'n' (by decide) (by decide) (by rw [h]; decide)
        · exact (hprint v).notMem 'o' (by decide) (by decide) (by rw [h]; decide)
      have hsome : stripPrefix someOpen (print v) = none := by
        refine if_neg fun h => (hprint v).notMem 'S' (by decide) (by decide) ?_
        exact (List.isPrefixOf_iff_prefix.mp h).subset (by decide)
      unfold parseOptionWith formatOption
      rw [Option.map_some, Option.getD_some, if_neg hnone, hsome]
      dsimp only [Option.bind]
      unfold parseWith
      rw [hparse]
      rfl

end OptionField

theorem parseWith_count {n : Nat} (hn : n ≤ u64Max) (key : PosixKey) :
    parseWith (Numeral.parseUnsigned 10 u64Max) key
      (stripCarriageReturn (Nat.toDigits 10 n)) = .ok n := by
  have hnumber := @numberText_toDigits 10 (by decide) (by decide) n
  rw [stripCarriageReturn_eq_self (hnumber.notMem '\r' (by decide) (by decide))]
  unfold parseWith
  rw [Numeral.parseUnsigned_toDigits (by decide) (by decide) hn]

theorem parseWith_bool (value : Bool) :
    parseWith readBool .fakeSuper (stripCarriageReturn (printBool value)) = .ok value := by
  cases value <;> decide

/-! ## Names -/

/-- A name that stands for itself: no word for an absent value, not in the old spelling of a
present one, and nothing at its end that goes with the line break. -/
structure PlainOwnerName (name : Text) : Prop where
  ne_none : name ≠ noneText
  ne_old_none : name ≠ oldNoneText
  not_some : ¬ (someOpen ++ ['"']) <+: name
  no_return : name.getLast? ≠ some '\r'

theorem stripCarriageReturn_eq_self_iff (text : Text) :
    stripCarriageReturn text = text ↔ text.getLast? ≠ some '\r' := by
  unfold stripCarriageReturn
  by_cases h : text.getLast? = some '\r'
  · rw [if_pos h]
    refine iff_of_false (fun heq => ?_) (not_not.mpr h)
    have hlen := congrArg List.length heq
    have hpos : 0 < text.length := List.length_pos_of_mem (List.mem_of_getLast? h)
    rw [List.length_dropLast] at hlen
    omega
  · rw [if_neg h]
    exact iff_of_true rfl h

theorem length_stripCarriageReturn_le (text : Text) :
    (stripCarriageReturn text).length ≤ text.length := by
  unfold stripCarriageReturn
  split
  · rw [List.length_dropLast]
    omega
  · exact le_rfl

/-- A name is read as it stands or, in the old spelling, as a part of it. -/
theorem parseOptionString_eq_some {value name : Text} (h : parseOptionString value = some name) :
    (name = value ∧ value ≠ noneText ∧ value ≠ oldNoneText ∧ ¬ (someOpen ++ ['"']) <+: value) ∨
      name.length < value.length := by
  unfold parseOptionString stripPrefix at h
  by_cases hnone : value = noneText ∨ value = oldNoneText
  · rw [if_pos hnone] at h
    cases h
  · rw [if_neg hnone] at h
    by_cases hold : (someOpen ++ ['"']).isPrefixOf value
    · rw [if_pos hold] at h
      have hlen := (List.isPrefixOf_iff_prefix.mp hold).length_le
      unfold stripSuffix at h
      dsimp only at h
      split at h
      · right
        rw [← Option.some.inj h, List.length_take, List.length_drop]
        simp only [someOpen, List.cons_append, List.nil_append, List.length_cons,
          List.length_nil] at hlen ⊢
        omega
      · cases h
    · rw [if_neg hold] at h
      exact Or.inl ⟨(Option.some.inj h).symm, fun heq => hnone (Or.inl heq),
        fun heq => hnone (Or.inr heq), fun hp => hold (List.isPrefixOf_iff_prefix.mpr hp)⟩

theorem name_comes_back_iff (name : Option Text) :
    parseOptionString (stripCarriageReturn (formatStringOption name)) = name ↔
      ∀ n, name = some n → PlainOwnerName n := by
  cases name with
  | none => exact iff_of_true (by decide) (by rintro n ⟨⟩)
  | some name =>
      show parseOptionString (stripCarriageReturn name) = some name ↔ _
      constructor
      · rintro h n ⟨⟩
        have hlen := length_stripCarriageReturn_le name
        rcases parseOptionString_eq_some h with ⟨hself, hplain⟩ | hshort
        · rw [← hself] at hplain
          exact ⟨hplain.1, hplain.2.1, hplain.2.2,
            (stripCarriageReturn_eq_self_iff name).mp hself.symm⟩
        · omega
      · intro hplain
        obtain ⟨hnone, hold, hsome, hret⟩ := hplain name rfl
        rw [(stripCarriageReturn_eq_self_iff name).mpr hret]
        unfold parseOptionString stripPrefix
        rw [if_neg (not_or.mpr ⟨hnone, hold⟩),
          if_neg fun h => hsome (List.isPrefixOf_iff_prefix.mp h)]

/-! ## ACL and extended attribute lines -/

/-- An entry whose three parts the commas tell apart. -/
structure PlainAcl (acl : PosixAclRecord) : Prop where
  tag : ',' ∉ acl.tag
  qualifier : ∀ q, acl.qualifier = some q → ',' ∉ q ∧ q ≠ noneText
  perms : ',' ∉ acl.perms ∧ acl.perms.getLast? ≠ some '\r'

theorem acl_stripped (acl : PosixAclRecord) : stripCarriageReturn acl.line =
    acl.tag ++ ',' :: (acl.qualifier.getD noneText ++ ',' :: stripCarriageReturn acl.perms) := by
  unfold PosixAclRecord.line
  rw [stripCarriageReturn_append _ (by decide), stripCarriageReturn_append _ (by decide)]

theorem parseAcl_of_plain {acl : PosixAclRecord} (htag : acl.tag ≠ []) (hperms : acl.perms ≠ [])
    (h : PlainAcl acl) : parseAcl (stripCarriageReturn acl.line) = .ok acl := by
  obtain ⟨tag, qualifier, perms⟩ := acl
  obtain ⟨hcomma, hqualifier, hcomma', hret⟩ := h
  dsimp only at *
  have hq : ',' ∉ qualifier.getD noneText := by
    cases qualifier with
    | none => decide
    | some q => exact (hqualifier q rfl).1
  have hsplit : (tag ++ ',' :: (qualifier.getD noneText ++ ',' :: perms)).splitOn ',' =
      [tag, qualifier.getD noneText, perms] := by
    have hcommas : ∀ part ∈ [tag, qualifier.getD noneText, perms], ',' ∉ part := by
      simp [hcomma, hq, hcomma']
    have hparts := List.splitOn_intercalate ',' hcommas (by simp)
    simpa [List.intercalate] using hparts
  rw [acl_stripped, (stripCarriageReturn_eq_self_iff perms).mpr hret]
  unfold parseAcl
  rw [hsplit]
  dsimp only
  rw [if_neg (not_or.mpr ⟨htag, hperms⟩)]
  cases qualifier with
  | none => rfl
  | some q =>
      rw [Option.getD_some, if_pos (hqualifier q rfl).2]

theorem parseAcl_eq_ok {value : Text} {acl : PosixAclRecord} (h : parseAcl value = .ok acl) :
    ∃ q, value = acl.tag ++ ',' :: (q ++ ',' :: acl.perms) ∧ ',' ∉ acl.tag ∧ ',' ∉ q ∧
      ',' ∉ acl.perms ∧ acl.qualifier = if q ≠ noneText then some q else none := by
  have hjoin : [','].intercalate (value.splitOn ',') = value := List.intercalate_splitOn ','
  have hcommas : ∀ part ∈ value.splitOn ',', ',' ∉ part := fun part hpart =>
    (mem_splitOn hpart).1
  unfold parseAcl at h
  split at h
  · rename_i tag qualifier perms hsplit
    rw [hsplit] at hjoin hcommas
    split at h
    · cases h
    · obtain rfl := Except.ok.inj h
      refine ⟨qualifier, ?_, hcommas tag (by simp), hcommas qualifier (by simp),
        hcommas perms (by simp), rfl⟩
      rw [← hjoin]
      simp [List.intercalate]
  · cases h

theorem acl_comes_back_iff {acl : PosixAclRecord} (htag : acl.tag ≠ []) (hperms : acl.perms ≠ []) :
    parseAcl (stripCarriageReturn acl.line) = .ok acl ↔ PlainAcl acl := by
  refine ⟨fun h => ?_, parseAcl_of_plain htag hperms⟩
  obtain ⟨q, hline, hcomma, hq, hcomma', hqualifier⟩ := parseAcl_eq_ok h
  rw [acl_stripped, List.append_cancel_left_eq, List.cons.injEq] at hline
  -- two commas in all, so there is none in the qualifier
  have hcount := congrArg (List.count ',') hline.2
  simp only [List.count_append, List.count_cons_self, List.count_eq_zero.mpr hq,
    List.count_eq_zero.mpr hcomma'] at hcount
  have hnone : ',' ∉ acl.qualifier.getD noneText := List.count_eq_zero.mp (by omega)
  have hend : ',' ∉ stripCarriageReturn acl.perms := List.count_eq_zero.mp (by omega)
  obtain ⟨heq, -, hret⟩ := (List.append_cons_inj_of_notMem hnone hend).mp hline.2
  refine ⟨hcomma, fun x hx => ?_, hcomma', (stripCarriageReturn_eq_self_iff _).mp hret⟩
  rw [hx] at hqualifier hnone heq
  rw [Option.getD_some] at hnone heq
  subst heq
  refine ⟨hnone, fun hword => ?_⟩
  rw [if_neg (not_not.mpr hword)] at hqualifier
  cases hqualifier

theorem isAsciiHexdigit_lt {ch : Char} (h : isAsciiHexdigit ch = true) : ch.toNat < 0x80 := by
  unfold isAsciiHexdigit at h
  simp only [Bool.or_eq_true, Bool.and_eq_true, decide_eq_true_eq, Char.le_def,
    UInt32.le_iff_toNat_le] at h
  rcases h with (⟨-, h⟩ | ⟨-, h⟩) | ⟨-, h⟩
  · exact Nat.lt_of_le_of_lt h (by decide)
  · exact Nat.lt_of_le_of_lt h (by decide)
  · exact Nat.lt_of_le_of_lt h (by decide)

theorem length_utf8Encode_ascii : ∀ {text : Text}, (∀ ch ∈ text, ch.toNat < 0x80) →
    (utf8Encode text).length = text.length
  | [], _ => rfl
  | ch :: text, h => by
      obtain ⟨hch, htext⟩ := List.forall_mem_cons.mp h
      have hone : (String.utf8EncodeChar ch).length = 1 := by
        have hle : ch.val.toNat ≤ 0x7f := Nat.le_of_lt_succ hch
        unfold String.utf8EncodeChar
        simp only [hle, if_true]
        rfl
      rw [utf8Encode, List.flatMap_cons, List.length_append, hone, ← utf8Encode,
        length_utf8Encode_ascii htext, List.length_cons, Nat.add_comm]

theorem xattr_comes_back {xattr : PosixXattrRecord} (hname : xattr.name ≠ [])
    (hhex : xattr.valueHex.all isAsciiHexdigit = true) (heven : xattr.valueHex.length % 2 = 0) :
    parseXattr (stripCarriageReturn xattr.line) = .ok xattr := by
  have hmem := List.all_eq_true.mp hhex
  have hcomma : ',' ∉ xattr.valueHex.reverse := fun h =>
    absurd (hmem ',' (List.mem_reverse.mp h)) (by decide)
  have hret : '\r' ∉ xattr.valueHex := fun h => absurd (hmem '\r' h) (by decide)
  have hlen := @length_utf8Encode_ascii xattr.valueHex fun ch hch => isAsciiHexdigit_lt (hmem ch hch)
  have hsplit : rsplitComma (xattr.name ++ ',' :: xattr.valueHex) =
      some (xattr.name, xattr.valueHex) := by
    unfold rsplitComma
    rw [List.reverse_append, List.reverse_cons, List.append_assoc, List.singleton_append,
      splitOnce_key hcomma, Option.map_some, List.reverse_reverse, List.reverse_reverse]
  unfold PosixXattrRecord.line
  rw [stripCarriageReturn_append _ (by decide), stripCarriageReturn_eq_self hret]
  unfold parseXattr
  rw [hsplit]
  dsimp only
  rw [if_neg]
  rw [hlen]
  simp [hname, heven, hhex]

/-! ## The whole manifest -/

/-- Field by field: no line break in a string, no empty tag, permission or attribute name, an even
number of hexadecimal digits. The number of elements of a `Vec` is a `usize`. -/
structure PosixFakeSuperSidecar.WellFormed (sidecar : PosixFakeSuperSidecar) : Prop where
  path : '\n' ∉ displayPath sidecar.path
  userName : ∀ name, sidecar.userName = some name → '\n' ∉ name
  groupName : ∀ name, sidecar.groupName = some name → '\n' ∉ name
  acl_line : ∀ acl ∈ sidecar.acls,
    '\n' ∉ acl.tag ∧ (∀ q, acl.qualifier = some q → '\n' ∉ q) ∧ '\n' ∉ acl.perms
  acl_parts : ∀ acl ∈ sidecar.acls, acl.tag ≠ [] ∧ acl.perms ≠ []
  xattr_line : ∀ xattr ∈ sidecar.xattrs, '\n' ∉ xattr.name
  xattr_parts : ∀ xattr ∈ sidecar.xattrs, xattr.name ≠ [] ∧
    xattr.valueHex.all isAsciiHexdigit = true ∧ xattr.valueHex.length % 2 = 0
  acl_count : sidecar.acls.length ≤ u64Max
  xattr_count : sidecar.xattrs.length ≤ u64Max

/-- What the format can tell apart. -/
structure PosixFakeSuperSidecar.Plain (sidecar : PosixFakeSuperSidecar) : Prop where
  path : ∃ text, sidecar.path = utf8Encode text ∧ text.getLast? ≠ some '\r'
  userName : ∀ name, sidecar.userName = some name → PlainOwnerName name
  groupName : ∀ name, sidecar.groupName = some name → PlainOwnerName name
  acls : ∀ acl ∈ sidecar.acls, PlainAcl acl

theorem parsePosixLines_ok {p q : PosixParse} {key : PosixKey} {value : Text}
    (hvalue : '\n' ∉ value) (hset : p.set key (stripCarriageReturn value) = .ok q) (rest : Text) :
    parsePosixLines p (linesOf [] (fieldLine key value ++ rest)) =
      parsePosixLines q (linesOf [] rest) := by
  rw [parsePosixLines_field p key hvalue, hset]
  rfl

theorem parsePosixLines_acls (rest : Text) : ∀ {acls : List PosixAclRecord} {p : PosixParse},
    (∀ acl ∈ acls, '\n' ∉ acl.line) →
    parsePosixLines p (linesOf [] (acls.flatMap (fun acl => fieldLine .acl acl.line) ++ rest)) =
      acls.mapM (fun acl => parseAcl (stripCarriageReturn acl.line)) >>= fun parsed =>
        parsePosixLines { p with acls := p.acls ++ parsed } (linesOf [] rest)
  | [], p, _ => by
      show parsePosixLines p (linesOf [] rest) =
        parsePosixLines { p with acls := p.acls ++ [] } (linesOf [] rest)
      rw [List.append_nil]
  | acl :: acls, p, h => by
      obtain ⟨hacl, hacls⟩ := List.forall_mem_cons.mp h
      rw [List.flatMap_cons, List.append_assoc, parsePosixLines_field p .acl hacl, List.mapM_cons]
      unfold PosixParse.set
      dsimp only
      cases hparse : parseAcl (stripCarriageReturn acl.line) with
      | error e => rfl
      | ok parsed =>
          dsimp only [bind, Except.bind]
          rw [parsePosixLines_acls rest hacls]
          cases acls.mapM fun acl => parseAcl (stripCarriageReturn acl.line) with
          | error e => rfl
          | ok more =>
              dsimp only [bind, Except.bind, pure, Except.pure]
              rw [List.append_assoc]
              rfl

theorem parsePosixLines_xattrs (rest : Text) : ∀ {xattrs : List PosixXattrRecord} {p : PosixParse},
    (∀ xattr ∈ xattrs, '\n' ∉ xattr.line ∧
      parseXattr (stripCarriageReturn xattr.line) = .ok xattr) →
    parsePosixLines p
        (linesOf [] (xattrs.flatMap (fun xattr => fieldLine .xattr xattr.line) ++ rest)) =
      parsePosixLines { p with xattrs := p.xattrs ++ xattrs } (linesOf [] rest)
  | [], p, _ => by
      rw [List.append_nil]
      rfl
  | xattr :: xattrs, p, h => by
      obtain ⟨⟨hline, hparse⟩, hxattrs⟩ := List.forall_mem_cons.mp h
      have hset : p.set .xattr (stripCarriageReturn xattr.line) =
          .ok { p with xattrs := p.xattrs ++ [xattr] } := by
        unfold PosixParse.set
        dsimp only
        rw [hparse]
        rfl
      rw [List.flatMap_cons, List.append_assoc, parsePosixLines_ok hline hset,
        parsePosixLines_xattrs rest hxattrs]
      dsimp only
      rw [List.append_assoc]
      rfl

section OptionLine

variable {α : Type} {print : α → Text} {parse : Text → Option α} {p : PosixParse} {key : PosixKey}
  {update : Option α → PosixParse}

theorem parsePosixLines_option (hprint : ∀ v, NumberText (print v))
    (hparse : ∀ v, parse (print v) = some v)
    (hset : ∀ value, p.set key value = parseOptionWith parse key value >>= fun v => .ok (update v))
    (value : Option α) (rest : Text) :
    parsePosixLines p (linesOf [] (fieldLine key (formatOption print value) ++ rest)) =
      parsePosixLines (update value) (linesOf [] rest) := by
  refine parsePosixLines_ok (lineBreak_notMem_formatOption hprint value).1 ?_ rest
  rw [hset, parseOptionWith_format hprint hparse]
  rfl

end OptionLine

theorem parsePosixLines_count {p : PosixParse} {key : PosixKey} {update : Nat → PosixParse}
    (hset : ∀ value, p.set key value =
      parseWith (Numeral.parseUnsigned 10 u64Max) key value >>= fun n => .ok (update n))
    {n : Nat} (hn : n ≤ u64Max) (rest : Text) :
    parsePosixLines p (linesOf [] (fieldLine key (Nat.toDigits 10 n) ++ rest)) =
      parsePosixLines (update n) (linesOf [] rest) := by
  have hnumber := @numberText_toDigits 10 (by decide) (by decide) n
  refine parsePosixLines_ok (hnumber.notMem '\n' (by decide) (by decide)) ?_ rest
  rw [hset, parseWith_count hn]
  rfl

theorem lineBreak_notMem_name {name : Option Text} (h : ∀ n, name = some n → '\n' ∉ n) :
    '\n' ∉ formatStringOption name := by
  cases name with
  | none => decide
  | some n => exact h n rfl

theorem lineBreak_notMem_acl {acl : PosixAclRecord}
    (h : '\n' ∉ acl.tag ∧ (∀ q, acl.qualifier = some q → '\n' ∉ q) ∧ '\n' ∉ acl.perms) :
    '\n' ∉ acl.line := by
  obtain ⟨htag, hqualifier, hperms⟩ := h
  have hq : '\n' ∉ acl.qualifier.getD noneText := lineBreak_notMem_name hqualifier
  simp [PosixAclRecord.line, htag, hq, hperms]

theorem parse_behind_header (body : Text) :
    parsePosixFakeSuperSidecarManifest (posixFakeSuperSidecarHeader ++ (['\n'] ++ body)) =
      parsePosixLines {} (linesOf [] body) >>= fun p => p.finish := by
  have hlines : linesOf [] (posixFakeSuperSidecarHeader ++ (['\n'] ++ body)) =
      posixFakeSuperSidecarHeader :: linesOf [] body := by
    rw [List.singleton_append, linesOf_break (by decide)]
    rfl
  unfold parsePosixFakeSuperSidecarManifest
  rw [hlines]
  exact if_neg (not_not.mpr rfl)

theorem parsePosixLines_last {p q : PosixParse} {key : PosixKey} {value : Text}
    (hvalue : '\n' ∉ value) (hset : p.set key (stripCarriageReturn value) = .ok q) :
    parsePosixLines p (linesOf [] (fieldLine key value)) = .ok q := by
  have hline := parsePosixLines_ok hvalue hset []
  rwa [List.append_nil] at hline

theorem set_fakeSuper (p : PosixParse) (value : Bool) :
    p.set .fakeSuper (stripCarriageReturn (printBool value)) =
      .ok { p with fields := { p.fields with fakeSuper := some value } } := by
  unfold PosixParse.set
  dsimp only
  rw [parseWith_bool]
  rfl

theorem checkCount_self (key : PosixKey) (n : Nat) : checkCount key (some n) n = .ok () :=
  if_neg (not_not.mpr rfl)

/-- What comes back of a sidecar: only paths, names and ACL entries can differ. -/
theorem parse_manifest {sidecar : PosixFakeSuperSidecar} (h : sidecar.WellFormed) :
    parsePosixFakeSuperSidecarManifest sidecar.manifest =
      sidecar.acls.mapM (fun acl => parseAcl (stripCarriageReturn acl.line)) >>= fun acls =>
        .ok ⟨{ sidecar with
          path := utf8Encode (stripCarriageReturn (displayPath sidecar.path))
          userName := parseOptionString (stripCarriageReturn (formatStringOption sidecar.userName))
          groupName :=
            parseOptionString (stripCarriageReturn (formatStringOption sidecar.groupName))
          acls := acls }, []⟩ := by
  have hxattrs : ∀ xattr ∈ sidecar.xattrs, '\n' ∉ xattr.line ∧
      parseXattr (stripCarriageReturn xattr.line) = .ok xattr := by
    intro xattr hmem
    obtain ⟨hname, hhex, heven⟩ := h.xattr_parts xattr hmem
    have hline := h.xattr_line xattr hmem
    have hvalue : '\n' ∉ xattr.valueHex := fun hbreak =>
      absurd (List.all_eq_true.mp hhex '\n' hbreak) (by decide)
    exact ⟨by simp [PosixXattrRecord.line, hline, hvalue], xattr_comes_back hname hhex heven⟩
  unfold PosixFakeSuperSidecar.manifest
  simp only [List.append_assoc]
  rw [parse_behind_header]
  -- one line after the other, up to the first that can be rejected
  refine Eq.trans (congrArg (· >>= _) (parsePosixLines_ok h.path rfl _)) ?_
  dsimp only
  refine Eq.trans (congrArg (· >>= _) (parsePosixLines_option numberText_printOctal
    readU32_printOctal (fun _ => rfl) _ _)) ?_
  dsimp only
  refine Eq.trans (congrArg (· >>= _) (parsePosixLines_option numberText_printU32
    readU32_printU32 (fun _ => rfl) _ _)) ?_
  dsimp only
  refine Eq.trans (congrArg (· >>= _) (parsePosixLines_option numberText_printU32
    readU32_printU32 (fun _ => rfl) _ _)) ?_
  dsimp only
  refine Eq.trans (congrArg (· >>= _) (parsePosixLines_ok (lineBreak_notMem_name h.userName)
    rfl _)) ?_
  dsimp only
  refine Eq.trans (congrArg (· >>= _) (parsePosixLines_ok (lineBreak_notMem_name h.groupName)
    rfl _)) ?_
  dsimp only
  refine Eq.trans (congrArg (· >>= _) (parsePosixLines_option numberText_printI128
    readI128_print (fun _ => rfl) _ _)) ?_
  dsimp only
  refine Eq.trans (congrArg (· >>= _) (parsePosixLines_option numberText_printI128
    readI128_print (fun _ => rfl) _ _)) ?_
  dsimp only
  refine Eq.trans (congrArg (· >>= _) (parsePosixLines_count (fun _ => rfl) h.acl_count _)) ?_
  dsimp only
  rw [parsePosixLines_acls _ fun acl hmem => lineBreak_notMem_acl (h.acl_line acl hmem)]
  dsimp only
  cases hacls : sidecar.acls.mapM fun acl => parseAcl (stripCarriageReturn acl.line) with
  | error e => rfl
  | ok acls =>
      have hlen := except_mapM_length hacls
      have hbool' : '\n' ∉ printBool sidecar.fakeSuper := by
        cases sidecar.fakeSuper <;> decide
      show parsePosixLines _ _ >>= _ = _
      refine Eq.trans (congrArg (· >>= _) (parsePosixLines_count (fun _ => rfl) h.xattr_count _)) ?_
      dsimp only
      refine Eq.trans (congrArg (· >>= _) (parsePosixLines_xattrs _ hxattrs)) ?_
      dsimp only
      refine Eq.trans (congrArg (· >>= _) (parsePosixLines_last hbool' (set_fakeSuper _ _))) ?_
      dsimp only [bind, Except.bind]
      unfold PosixParse.finish
      dsimp only [List.nil_append]
      rw [checkCount_self, hlen.symm, checkCount_self]
      rfl

theorem path_comes_back_iff (path : Bytes) :
    utf8Encode (stripCarriageReturn (displayPath path)) = path ↔
      ∃ text, path = utf8Encode text ∧ text.getLast? ≠ some '\r' := by
  have hdisplay : ∀ text, displayPath (utf8Encode text) = text := fun text =>
    decodeLossy_of_decodeStrict (utf8Chars_utf8Encode text)
  constructor
  · intro h
    refine ⟨stripCarriageReturn (displayPath path), h.symm, ?_⟩
    have hself := hdisplay (stripCarriageReturn (displayPath path))
    rw [h] at hself
    rw [← hself, ← stripCarriageReturn_eq_self_iff, ← hself]
  · rintro ⟨text, rfl, hret⟩
    rw [hdisplay, (stripCarriageReturn_eq_self_iff text).mpr hret]

/-- **Which POSIX sidecars come back.** From its manifest a well-formed sidecar is read as it was
exactly where the format can tell its values apart: its path is text, no name is a word for an
absent one or in the old spelling, no ACL part has a comma, no ACL qualifier is that word, and
no carriage return stands at the end of a line. -/
theorem sidecar_comes_back_iff (sidecar : PosixFakeSuperSidecar) (h : sidecar.WellFormed) :
    parsePosixFakeSuperSidecarManifest sidecar.manifest = .ok ⟨sidecar, []⟩ ↔ sidecar.Plain := by
  rw [parse_manifest h]
  constructor
  · intro hok
    obtain ⟨acls, hacls, hok⟩ := except_bind_ok hok
    have hsame := congrArg PosixFakeSuperSidecarManifest.sidecar (Except.ok.inj hok)
    dsimp only at hsame
    have hpath := congrArg PosixFakeSuperSidecar.path hsame
    have huser := congrArg PosixFakeSuperSidecar.userName hsame
    have hgroup := congrArg PosixFakeSuperSidecar.groupName hsame
    have hsameAcls := congrArg PosixFakeSuperSidecar.acls hsame
    dsimp only at hpath huser hgroup hsameAcls
    rw [hsameAcls] at hacls
    exact ⟨(path_comes_back_iff _).mp hpath, (name_comes_back_iff _).mp huser,
      (name_comes_back_iff _).mp hgroup, fun acl hmem =>
        (acl_comes_back_iff (h.acl_parts acl hmem).1 (h.acl_parts acl hmem).2).mp
          (except_mapM_eq_self_iff.mp hacls acl hmem)⟩
  · rintro ⟨hpath, huser, hgroup, hacls⟩
    have hsame : sidecar.acls.mapM (fun acl => parseAcl (stripCarriageReturn acl.line)) =
        .ok sidecar.acls := except_mapM_eq_self_iff.mpr fun acl hmem =>
      parseAcl_of_plain (h.acl_parts acl hmem).1 (h.acl_parts acl hmem).2 (hacls acl hmem)
    rw [hsame, (path_comes_back_iff _).mpr hpath, (name_comes_back_iff _).mpr huser,
      (name_comes_back_iff _).mpr hgroup]
    rfl

/-- An owner and an ACL without surprises. -/
def plainSidecar : PosixFakeSuperSidecar where
  path := [0x66]
  mode := some 0o644
  uid := some 0
  gid := none
  userName := some ['a', 'l']
  groupName := none
  accessTimeUnixNanos := some (BitVec.ofInt 128 (-1))
  creationTimeUnixNanos := none
  acls := [⟨['u'], some ['a', 'l'], ['r']⟩]
  xattrs := [⟨['n', ','], ['0', 'F']⟩]
  fakeSuper := true

theorem plainSidecar_wellFormed : plainSidecar.WellFormed where
  path := by decide
  userName := by rintro name ⟨⟩; decide
  groupName := by rintro name ⟨⟩
  acl_line := by simp [plainSidecar]
  acl_parts := by simp [plainSidecar]
  xattr_line := by simp [plainSidecar]
  xattr_parts := by simp [plainSidecar, isAsciiHexdigit]
  acl_count := by decide
  xattr_count := by decide

theorem sidecar_comes_back_plain :
    parsePosixFakeSuperSidecarManifest plainSidecar.manifest = .ok ⟨plainSidecar, []⟩ ↔
      plainSidecar.Plain :=
  sidecar_comes_back_iff plainSidecar plainSidecar_wellFormed

/-- An owner called `none` is lost. -/
theorem owner_none_is_lost :
    { plainSidecar with userName := some noneText }.WellFormed ∧
    parsePosixFakeSuperSidecarManifest { plainSidecar with userName := some noneText }.manifest ≠
      .ok ⟨{ plainSidecar with userName := some noneText }, []⟩ := by
  have hformed : { plainSidecar with userName := some noneText }.WellFormed :=
    { plainSidecar_wellFormed with userName := by rintro name ⟨⟩; decide }
  refine ⟨hformed, fun h => ?_⟩
  rw [parse_manifest hformed] at h
  obtain ⟨acls, -, hok⟩ := except_bind_ok h
  have hsame := congrArg PosixFakeSuperSidecarManifest.sidecar (Except.ok.inj hok)
  have huser := congrArg PosixFakeSuperSidecar.userName hsame
  dsimp only at huser
  revert huser
  decide

end RsyncWin
