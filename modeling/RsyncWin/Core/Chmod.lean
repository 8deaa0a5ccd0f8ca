import Mathlib.Data.List.TakeWhile
import RsyncWin.Filter.Rule
import RsyncWin.Lib.Excepts
import RsyncWin.Lib.Masks
import RsyncWin.Lib.Numeral

/-!
# Mode changes (`rsync-core/src/chmod.rs`)

A list of rules, each a mode in octal or an expression with classes, an operation and
permissions, that is run over the twelve permission bits of a mode.
-/

namespace RsyncWin

open Masks

inductive RsyncCoreError where
  | invalidArgument (name reason : Text)
deriving DecidableEq, Repr

/-! ## Rules -/

inductive ChmodTarget where
  | all
  | files
  | directories
deriving DecidableEq, Repr

inductive ChmodFileKind where
  | file
  | directory
deriving DecidableEq, Repr

inductive SymbolicOp where
  | add
  | remove
  | set
deriving DecidableEq, Repr

structure WhoMask where
  bits : BitVec 8
deriving DecidableEq, Repr

namespace WhoMask

def user : BitVec 8 := 0b001
def group : BitVec 8 := 0b010
def other : BitVec 8 := 0b100
def allBits : BitVec 8 := user ||| group ||| other

def all : WhoMask := ⟨allBits⟩

def contains (self : WhoMask) (bit : BitVec 8) : Bool := self.bits &&& bit ≠ 0

def permissionBits (self : WhoMask) : BitVec 32 :=
  let bits := orIf (self.contains user) 0o700#32 0#32
  let bits := orIf (self.contains group) 0o070#32 bits
  orIf (self.contains other) 0o007#32 bits

def setidBits (self : WhoMask) : BitVec 32 :=
  let bits := orIf (self.contains user) 0o4000#32 0#32
  orIf (self.contains group) 0o2000#32 bits

def stickyBits (self : WhoMask) : BitVec 32 :=
  if self.contains other || self.bits = allBits then 0o1000#32 else 0

end WhoMask

structure PermissionMask where
  read : Bool := false
  write : Bool := false
  exec : Bool := false
  conditionalExec : Bool := false
  setid : Bool := false
  sticky : Bool := false
  copyUser : Bool := false
  copyGroup : Bool := false
  copyOther : Bool := false
deriving DecidableEq, Repr

structure SymbolicMode where
  who : WhoMask
  op : SymbolicOp
  perms : PermissionMask
deriving DecidableEq, Repr

/-- A mode with nothing beyond the permission bits. -/
structure NumericMode where
  mode : BitVec 32
  masked : mode &&& 0o7777#32 = mode
deriving DecidableEq, Repr

inductive ChmodAction where
  | numeric (mode : NumericMode)
  | symbolic (symbolic : SymbolicMode)
deriving DecidableEq, Repr

structure ChmodRule where
  target : ChmodTarget
  action : ChmodAction
deriving DecidableEq, Repr

structure ChmodRules where
  rules : List ChmodRule
deriving DecidableEq, Repr

/-! ## Applying them -/

def classBits (who : WhoMask) (user group other : BitVec 32) : BitVec 32 :=
  let bits := orIf (who.contains WhoMask.user) user 0#32
  let bits := orIf (who.contains WhoMask.group) group bits
  orIf (who.contains WhoMask.other) other bits

def copyClassBits (who : WhoMask) (permissions : BitVec 32) (sourceShift : Nat) : BitVec 32 :=
  let source := (permissions >>> sourceShift) &&& 0o7#32
  let bits := orIf (who.contains WhoMask.user) (source <<< 6) 0#32
  let bits := orIf (who.contains WhoMask.group) (source <<< 3) bits
  orIf (who.contains WhoMask.other) source bits

namespace PermissionMask

def isEmpty (self : PermissionMask) : Bool :=
  !self.read && !self.write && !self.exec && !self.conditionalExec && !self.setid &&
    !self.sticky && !self.copyUser && !self.copyGroup && !self.copyOther

def toBits (self : PermissionMask) (who : WhoMask) (permissions : BitVec 32)
    (kind : ChmodFileKind) : BitVec 32 :=
  let bits := orIf self.read (classBits who 0o400 0o040 0o004) 0#32
  let bits := orIf self.write (classBits who 0o200 0o020 0o002) bits
  let bits := orIf (self.exec ||
      (self.conditionalExec && (kind = .directory || permissions &&& 0o111#32 ≠ 0#32)))
    (classBits who 0o100 0o010 0o001) bits
  let bits := orIf self.setid who.setidBits bits
  let bits := orIf self.sticky who.stickyBits bits
  let bits := orIf self.copyUser (copyClassBits who permissions 6) bits
  let bits := orIf self.copyGroup (copyClassBits who permissions 3) bits
  orIf self.copyOther (copyClassBits who permissions 0) bits

def specialClearBits (self : PermissionMask) (who : WhoMask) : BitVec 32 :=
  let bits := orIf self.setid who.setidBits 0#32
  orIf self.sticky who.stickyBits bits

end PermissionMask

def SymbolicMode.apply (self : SymbolicMode) (permissions : BitVec 32) (kind : ChmodFileKind) :
    BitVec 32 :=
  let setBits := self.perms.toBits self.who permissions kind
  match self.op with
  | .add => permissions ||| setBits
  | .remove => permissions &&& ~~~setBits
  | .set =>
      let clearBits := self.who.permissionBits ||| self.perms.specialClearBits self.who
      (permissions &&& ~~~clearBits) ||| setBits

/-- `matches`. -/
def ChmodRule.matchesKind (self : ChmodRule) (kind : ChmodFileKind) : Bool :=
  match self.target, kind with
  | .all, _ => true
  | .files, .file => true
  | .directories, .directory => true
  | _, _ => false

def ChmodRule.apply (self : ChmodRule) (permissions : BitVec 32) (kind : ChmodFileKind) :
    BitVec 32 :=
  match self.action with
  | .numeric mode => mode.mode
  | .symbolic symbolic => symbolic.apply permissions kind

/-- A turn of the loop of `apply`. -/
def ChmodRule.step (kind : ChmodFileKind) (permissions : BitVec 32) (rule : ChmodRule) :
    BitVec 32 :=
  if rule.matchesKind kind then rule.apply permissions kind else permissions

def ChmodRules.apply (self : ChmodRules) (wireMode : BitVec 32) (kind : ChmodFileKind) :
    BitVec 32 :=
  let typeBits := wireMode &&& ~~~0o7777#32
  let permissions := self.rules.foldl (ChmodRule.step kind) (wireMode &&& 0o7777#32)
  typeBits ||| permissions

/-! ## Reading them -/

def invalidChmod (value reason : Text) : RsyncCoreError :=
  .invalidArgument "chmod".toList (reason ++ ": `".toList ++ value ++ "`".toList)

def parseWhoLoop : BitVec 8 → Text → BitVec 8 × Text
  | who, [] => (who, [])
  | who, ch :: rest =>
      match ch with
      | 'u' => parseWhoLoop (who ||| WhoMask.user) rest
      | 'g' => parseWhoLoop (who ||| WhoMask.group) rest
      | 'o' => parseWhoLoop (who ||| WhoMask.other) rest
      | 'a' => parseWhoLoop (who ||| WhoMask.allBits) rest
      | _ => (who, ch :: rest)

def parseWho (expression : Text) : WhoMask × Text :=
  let (who, rest) := parseWhoLoop 0 expression
  (if who = 0 then WhoMask.all else ⟨who⟩, rest)

/-- A turn of the loop of `parse_permissions`. -/
def PermissionMask.note (full : Text) (mask : PermissionMask) (ch : Char) :
    Except RsyncCoreError PermissionMask :=
  match ch with
  | 'r' => .ok { mask with read := true }
  | 'w' => .ok { mask with write := true }
  | 'x' => .ok { mask with exec := true }
  | 'X' => .ok { mask with conditionalExec := true }
  | 's' => .ok { mask with setid := true }
  | 't' => .ok { mask with sticky := true }
  | 'u' => .ok { mask with copyUser := true }
  | 'g' => .ok { mask with copyGroup := true }
  | 'o' => .ok { mask with copyOther := true }
  | _ =>
      .error (invalidChmod full ("unsupported chmod permission `".toList ++ ch :: "`".toList))

def parsePermissions (full permissions : Text) : Except RsyncCoreError PermissionMask :=
  permissions.foldlM (PermissionMask.note full) {}

/-- The file type that a rule may begin with. -/
def splitTarget (part : Text) : ChmodTarget × Text :=
  match part with
  | 'F' :: rest => (.files, rest)
  | 'f' :: rest => (.files, rest)
  | 'D' :: rest => (.directories, rest)
  | 'd' :: rest => (.directories, rest)
  | _ => (.all, part)

def parseOp (full : Text) (opChar : Char) : Except RsyncCoreError SymbolicOp :=
  match opChar with
  | '+' => .ok .add
  | '-' => .ok .remove
  | '=' => .ok .set
  | _ => .error (invalidChmod full "expected chmod operation +, -, or =".toList)

def parseSymbolicRule (full part : Text) : Except RsyncCoreError ChmodRule :=
  let (target, expression) := splitTarget part
  if expression = [] then
    .error (invalidChmod full "missing chmod expression after file type prefix".toList)
  else
    let (who, rest) := parseWho expression
    match rest with
    | [] => .error (invalidChmod full "missing chmod operation".toList)
    | opChar :: permissions => do
        let op ← parseOp full opChar
        let perms ← parsePermissions full permissions
        if perms.isEmpty ∧ op ≠ .set then
          .error (invalidChmod full
            "chmod + and - operations require at least one permission".toList)
        else .ok { target, action := .symbolic { who, op, perms } }

/-- `len`: in bytes. -/
def byteLength (text : Text) : Nat := (text.map Char.utf8Size).sum

def NumericMode.ofMode (mode : BitVec 32) : NumericMode :=
  ⟨mode &&& 0o7777#32, by rw [BitVec.and_assoc, BitVec.and_self]⟩

def parseNumericRule (full part : Text) : Except RsyncCoreError ChmodRule :=
  let (target, digits) := splitTarget part
  if 1 ≤ byteLength digits ∧ byteLength digits ≤ 4 ∧
      digits.all (fun ch => '0' ≤ ch && ch ≤ '7') then
    match Numeral.parseUnsigned 8 4294967295 digits with
    -- four octal digits are always read
    | none => .error (invalidChmod full
        "numeric modes must contain only octal permission digits".toList)
    | some mode => .ok { target, action := .numeric (.ofMode (BitVec.ofNat 32 mode)) }
  else parseSymbolicRule full part

/-- A turn of the loop of `from_str`. -/
def parseRule (full rawPart : Text) : Except RsyncCoreError ChmodRule :=
  let part := trim rawPart
  if part = [] then .error (invalidChmod full "empty chmod component".toList)
  else parseNumericRule full part

/-- `from_str`. -/
def ChmodRules.parse (value : Text) : Except RsyncCoreError ChmodRules := do
  let rules ← (value.splitOn ',').mapM (parseRule value)
  .ok { rules }

/-! ## Permissions as a set

A class has a row of three bits, execute first. What a rule grants is the same row for each of
its classes, computed from the set of the bits that are on. -/

inductive ModeClass where
  | user
  | group
  | other
deriving DecidableEq, Repr

namespace ModeClass

def shift : ModeClass → Nat
  | user => 6
  | group => 3
  | other => 0

def bit : ModeClass → BitVec 8
  | user => WhoMask.user
  | group => WhoMask.group
  | other => WhoMask.other

def letter : ModeClass → Char
  | user => 'u'
  | group => 'g'
  | other => 'o'

/-- Read, write and execute. -/
def mask (c : ModeClass) : BitVec 32 := 0o7#32 <<< c.shift

theorem exists_iff {P : ModeClass → Prop} :
    (∃ c, P c) ↔ P user ∨ P group ∨ P other := by
  constructor
  · rintro ⟨c, hc⟩
    cases c with
    | user => exact Or.inl hc
    | group => exact Or.inr (Or.inl hc)
    | other => exact Or.inr (Or.inr hc)
  · rintro (h | h | h)
    · exact ⟨user, h⟩
    · exact ⟨group, h⟩
    · exact ⟨other, h⟩

/-- Rows do not overlap. -/
theorem shift_add_inj {c d : ModeClass} {q r : Nat} (hq : q < 3) (hr : r < 3)
    (h : c.shift + q = d.shift + r) : c = d ∧ q = r := by
  cases c <;> cases d <;> simp only [shift] at h <;> first | exact ⟨rfl, by omega⟩ | omega

theorem shift_add_lt {c : ModeClass} {q : Nat} (hq : q < 3) : c.shift + q < 9 := by
  cases c <;> simp only [shift] <;> omega

end ModeClass

def WhoMask.has (who : WhoMask) (c : ModeClass) : Prop := who.contains c.bit = true

/-- The classes whose row is copied. -/
def PermissionMask.copies (perms : PermissionMask) : ModeClass → Prop
  | .user => perms.copyUser = true
  | .group => perms.copyGroup = true
  | .other => perms.copyOther = true

/-- `exec`, and `conditional_exec` where it holds. -/
def PermissionMask.Execs (perms : PermissionMask) (kind : ChmodFileKind) (p : Set Nat) : Prop :=
  perms.exec = true ∨
    perms.conditionalExec = true ∧ (kind = .directory ∨ ∃ c : ModeClass, c.shift ∈ p)

def ModeClass.row (c : ModeClass) (p : Set Nat) : Set Nat := {q | q < 3 ∧ c.shift + q ∈ p}

/-- The row that each class gets. -/
def PermissionMask.row (perms : PermissionMask) (kind : ChmodFileKind) (p : Set Nat) : Set Nat :=
  {q | perms.read = true ∧ q = 2 ∨ perms.write = true ∧ q = 1 ∨ perms.Execs kind p ∧ q = 0 ∨
    ∃ c, perms.copies c ∧ q ∈ ModeClass.row c p}

def spread (who : WhoMask) (row : Set Nat) : Set Nat :=
  {i | ∃ c, who.has c ∧ ∃ q ∈ row, i = c.shift + q}

/-- All that a rule grants where `p` is on. -/
def SymbolicMode.granted (s : SymbolicMode) (kind : ChmodFileKind) (p : Set Nat) : Set Nat :=
  spread s.who (s.perms.row kind p) ∪ on (s.perms.specialClearBits s.who)

/-- What `=` clears. -/
def SymbolicMode.region (s : SymbolicMode) : Set Nat :=
  spread s.who {q | q < 3} ∪ on (s.perms.specialClearBits s.who)

variable {who : WhoMask} {perms : PermissionMask} {kind : ChmodFileKind} {p p' : Set Nat}
  {s : SymbolicMode} {i q : Nat}

theorem PermissionMask.lt_of_mem_row (h : q ∈ perms.row kind p) : q < 3 := by
  rcases h with ⟨-, rfl⟩ | ⟨-, rfl⟩ | ⟨-, rfl⟩ | ⟨c, -, hq, -⟩
  · decide
  · decide
  · decide
  · exact hq

theorem PermissionMask.Execs.mono (hsub : p ⊆ p') (h : perms.Execs kind p) :
    perms.Execs kind p' := by
  rcases h with hexec | ⟨hcond, hdir | ⟨c, hc⟩⟩
  · exact Or.inl hexec
  · exact Or.inr ⟨hcond, Or.inl hdir⟩
  · exact Or.inr ⟨hcond, Or.inr ⟨c, hsub hc⟩⟩

theorem PermissionMask.row_mono (hsub : p ⊆ p') : perms.row kind p ⊆ perms.row kind p' := by
  intro q hq
  rcases hq with hread | hwrite | ⟨hexec, hq⟩ | ⟨c, hc, hq, hon⟩
  · exact Or.inl hread
  · exact Or.inr (Or.inl hwrite)
  · exact Or.inr (Or.inr (Or.inl ⟨hexec.mono hsub, hq⟩))
  · exact Or.inr (Or.inr (Or.inr ⟨c, hc, hq, hsub hon⟩))

theorem spread_mono {row row' : Set Nat} (hsub : row ⊆ row') : spread who row ⊆ spread who row' := by
  rintro i ⟨c, hc, q, hq, rfl⟩
  exact ⟨c, hc, q, hsub hq, rfl⟩

theorem SymbolicMode.granted_mono (hsub : p ⊆ p') : s.granted kind p ⊆ s.granted kind p' :=
  Set.union_subset_union_left _ (spread_mono (PermissionMask.row_mono hsub))

/-! ### The bits above the rows -/

theorem WhoMask.mem_setidBits : i ∈ on who.setidBits → i = 11 ∨ i = 10 := by
  unfold WhoMask.setidBits
  rw [mem_on_orIf, mem_on_orIf, on_zero, mem_on_mask 0o4000#32 [11] (by decide),
    mem_on_mask 0o2000#32 [10] (by decide)]
  simp only [Set.mem_empty_iff_false, false_or, List.mem_singleton]
  rintro (⟨-, h⟩ | ⟨-, h⟩)
  · exact Or.inl h
  · exact Or.inr h

theorem WhoMask.mem_stickyBits (h : i ∈ on who.stickyBits) : i = 9 := by
  unfold WhoMask.stickyBits at h
  split at h
  · rw [mem_on_mask 0o1000#32 [9] (by decide)] at h
    exact List.mem_singleton.mp h
  · simp [on] at h

theorem PermissionMask.mem_specialClearBits : i ∈ on (perms.specialClearBits who) ↔
    perms.setid = true ∧ i ∈ on who.setidBits ∨ perms.sticky = true ∧ i ∈ on who.stickyBits := by
  unfold PermissionMask.specialClearBits
  rw [mem_on_orIf, mem_on_orIf, on_zero]
  simp only [Set.mem_empty_iff_false, false_or]

theorem PermissionMask.special_bounds (h : i ∈ on (perms.specialClearBits who)) :
    9 ≤ i ∧ i < 12 := by
  rcases mem_specialClearBits.mp h with ⟨-, hi⟩ | ⟨-, hi⟩
  · have := WhoMask.mem_setidBits hi
    omega
  · have := WhoMask.mem_stickyBits hi
    omega

/-! ### The code computes what is granted -/

theorem mem_on_classBits {user group other : BitVec 32} {row : Set Nat}
    (huser : ∀ i, i ∈ on user ↔ ∃ q ∈ row, i = 6 + q)
    (hgroup : ∀ i, i ∈ on group ↔ ∃ q ∈ row, i = 3 + q)
    (hother : ∀ i, i ∈ on other ↔ ∃ q ∈ row, i = 0 + q) :
    i ∈ on (classBits who user group other) ↔ i ∈ spread who row := by
  have hspread : i ∈ spread who row ↔ _ := ModeClass.exists_iff
  unfold classBits
  rw [mem_on_orIf, mem_on_orIf, mem_on_orIf, on_zero, huser, hgroup, hother, hspread]
  simp only [Set.mem_empty_iff_false, false_or, or_assoc]
  exact Iff.rfl

/-- One permission of each class. -/
theorem mem_on_classBits_single {user group other : BitVec 32} (q : Nat)
    (huser : (List.range 32).filter user.getLsbD = [6 + q])
    (hgroup : (List.range 32).filter group.getLsbD = [3 + q])
    (hother : (List.range 32).filter other.getLsbD = [0 + q]) :
    i ∈ on (classBits who user group other) ↔ i ∈ spread who {q} := by
  apply mem_on_classBits
  · intro j
    rw [mem_on_mask _ _ huser]
    simp
  · intro j
    rw [mem_on_mask _ _ hgroup]
    simp
  · intro j
    rw [mem_on_mask _ _ hother]
    simp

theorem mem_on_permissionBits : i ∈ on who.permissionBits ↔ i ∈ spread who {q | q < 3} := by
  have hrow : ∀ (base : Nat) (j : Nat), j ∈ [base, base + 1, base + 2] ↔
      ∃ q ∈ {q | q < 3}, j = base + q := by
    intro base j
    simp only [List.mem_cons, List.not_mem_nil, or_false]
    constructor
    · intro hj
      exact ⟨j - base, show j - base < 3 by omega, by omega⟩
    · rintro ⟨q, hq, rfl⟩
      have hq : q < 3 := hq
      omega
  have hbits : who.permissionBits = classBits who 0o700 0o070 0o007 := rfl
  rw [hbits]
  apply mem_on_classBits
  · intro j
    rw [mem_on_mask _ [6, 7, 8] (by decide)]
    exact hrow 6 j
  · intro j
    rw [mem_on_mask _ [3, 4, 5] (by decide)]
    exact hrow 3 j
  · intro j
    rw [mem_on_mask _ [0, 1, 2] (by decide)]
    exact hrow 0 j

theorem mem_on_seven : q ∈ on 0o7#32 ↔ q < 3 := by
  rw [mem_on_mask _ [0, 1, 2] (by decide)]
  simp only [List.mem_cons, List.not_mem_nil, or_false]
  omega

/-- The three bits that are copied, put at a row. -/
theorem mem_on_source (permissions : BitVec 32) (d : ModeClass) {base : Nat} (hbase : base ≤ 6) :
    i ∈ on (((permissions >>> d.shift) &&& 0o7#32) <<< base) ↔
      ∃ q ∈ d.row (on permissions), i = base + q := by
  rw [mem_on_shiftLeft, on_and, Set.mem_inter_iff, mem_on_ushiftRight, mem_on_seven]
  constructor
  · rintro ⟨-, hle, hon, hq⟩
    exact ⟨i - base, ⟨hq, hon⟩, by omega⟩
  · rintro ⟨q, ⟨hq, hon⟩, rfl⟩
    rw [Nat.add_sub_cancel_left]
    exact ⟨by omega, by omega, hon, hq⟩

theorem mem_on_copyClassBits (permissions : BitVec 32) (d : ModeClass) :
    i ∈ on (copyClassBits who permissions d.shift) ↔ i ∈ spread who (d.row (on permissions)) := by
  have hcopy : copyClassBits who permissions d.shift =
      classBits who (((permissions >>> d.shift) &&& 0o7#32) <<< 6)
        (((permissions >>> d.shift) &&& 0o7#32) <<< 3)
        (((permissions >>> d.shift) &&& 0o7#32) <<< 0) := by
    rw [BitVec.shiftLeft_zero]
    rfl
  rw [hcopy]
  exact mem_on_classBits (fun _ => mem_on_source permissions d (by decide))
    (fun _ => mem_on_source permissions d (by decide))
    (fun _ => mem_on_source permissions d (by decide))

/-- `permissions & 0o111 != 0`: some class has execute. -/
theorem exec_bits_iff (permissions : BitVec 32) :
    permissions &&& 0o111#32 ≠ 0#32 ↔ ∃ c : ModeClass, c.shift ∈ on permissions := by
  have hmask : ∀ i, i ∈ on 0o111#32 ↔ ∃ c : ModeClass, i = c.shift := by
    intro i
    rw [mem_on_mask _ [0, 3, 6] (by decide), ModeClass.exists_iff]
    simp only [List.mem_cons, List.not_mem_nil, or_false, ModeClass.shift]
    omega
  rw [ne_zero_iff, on_and]
  constructor
  · rintro ⟨i, hon, hi⟩
    obtain ⟨c, rfl⟩ := (hmask i).mp hi
    exact ⟨c, hon⟩
  · rintro ⟨c, hon⟩
    exact ⟨c.shift, hon, (hmask _).mpr ⟨c, rfl⟩⟩

/-- A row in parts. -/
theorem mem_spread_row : i ∈ spread who (perms.row kind p) ↔
    perms.read = true ∧ i ∈ spread who {2} ∨ perms.write = true ∧ i ∈ spread who {1} ∨
      perms.Execs kind p ∧ i ∈ spread who {0} ∨
      ∃ d, perms.copies d ∧ i ∈ spread who (ModeClass.row d p) := by
  constructor
  · rintro ⟨c, hc, q, ⟨hread, hq⟩ | ⟨hwrite, hq⟩ | ⟨hexec, hq⟩ | ⟨d, hd, hq⟩, hi⟩
    · exact Or.inl ⟨hread, c, hc, q, hq, hi⟩
    · exact Or.inr (Or.inl ⟨hwrite, c, hc, q, hq, hi⟩)
    · exact Or.inr (Or.inr (Or.inl ⟨hexec, c, hc, q, hq, hi⟩))
    · exact Or.inr (Or.inr (Or.inr ⟨d, hd, c, hc, q, hq, hi⟩))
  · rintro (⟨hread, c, hc, q, hq, hi⟩ | ⟨hwrite, c, hc, q, hq, hi⟩ | ⟨hexec, c, hc, q, hq, hi⟩ |
      ⟨d, hd, c, hc, q, hq, hi⟩)
    · exact ⟨c, hc, q, Or.inl ⟨hread, hq⟩, hi⟩
    · exact ⟨c, hc, q, Or.inr (Or.inl ⟨hwrite, hq⟩), hi⟩
    · exact ⟨c, hc, q, Or.inr (Or.inr (Or.inl ⟨hexec, hq⟩)), hi⟩
    · exact ⟨c, hc, q, Or.inr (Or.inr (Or.inr ⟨d, hd, hq⟩)), hi⟩

/-- The special bits stand before the copies in the code, behind them in the set. -/
theorem special_between {read write exec setid sticky user group other : Prop} :
    (((((((read ∨ write) ∨ exec) ∨ setid) ∨ sticky) ∨ user) ∨ group) ∨ other) ↔
      (read ∨ write ∨ exec ∨ user ∨ group ∨ other) ∨ setid ∨ sticky := by
  tauto

theorem on_toBits (s : SymbolicMode) (permissions : BitVec 32) (kind : ChmodFileKind) :
    on (s.perms.toBits s.who permissions kind) = s.granted kind (on permissions) := by
  have hexec : (s.perms.exec || (s.perms.conditionalExec &&
      (kind = .directory || permissions &&& 0o111#32 ≠ 0#32))) = true ↔
      s.perms.Execs kind (on permissions) := by
    unfold PermissionMask.Execs
    rw [← exec_bits_iff]
    simp only [Bool.or_eq_true, Bool.and_eq_true, decide_eq_true_eq]
  ext i
  have huser : i ∈ on (copyClassBits s.who permissions 6) ↔ _ :=
    mem_on_copyClassBits permissions .user
  have hgroup : i ∈ on (copyClassBits s.who permissions 3) ↔ _ :=
    mem_on_copyClassBits permissions .group
  have hother : i ∈ on (copyClassBits s.who permissions 0) ↔ _ :=
    mem_on_copyClassBits permissions .other
  unfold PermissionMask.toBits SymbolicMode.granted
  rw [Set.mem_union, mem_spread_row, PermissionMask.mem_specialClearBits, ModeClass.exists_iff]
  simp only [mem_on_orIf, on_zero, Set.mem_empty_iff_false, false_or, PermissionMask.copies]
  rw [mem_on_classBits_single 2 (by decide) (by decide) (by decide),
    mem_on_classBits_single 1 (by decide) (by decide) (by decide),
    mem_on_classBits_single 0 (by decide) (by decide) (by decide), hexec, huser, hgroup, hother]
  exact special_between

theorem on_clearBits (s : SymbolicMode) :
    on (s.who.permissionBits ||| s.perms.specialClearBits s.who) = s.region := by
  ext i
  unfold SymbolicMode.region
  rw [on_or, Set.mem_union, Set.mem_union, mem_on_permissionBits]

/-- The code of a symbolic rule is the operation on sets. -/
theorem on_apply (s : SymbolicMode) (permissions : BitVec 32) (kind : ChmodFileKind) :
    on (s.apply permissions kind) =
      match s.op with
      | .add => on permissions ⊔ s.granted kind (on permissions)
      | .remove => on permissions \ s.granted kind (on permissions)
      | .set => on permissions \ s.region ⊔ s.granted kind (on permissions) := by
  unfold SymbolicMode.apply
  rw [← on_toBits, ← on_clearBits]
  cases s.op with
  | add => exact on_or
  | remove => exact on_and_not
  | set => exact on_or.trans (congrArg (· ∪ _) on_and_not)

/-! ## What a symbolic rule touches -/

theorem spread_lt {row : Set Nat} (hrow : ∀ q ∈ row, q < 3) (h : i ∈ spread who row) : i < 9 := by
  obtain ⟨c, -, q, hq, rfl⟩ := h
  exact ModeClass.shift_add_lt (hrow q hq)

theorem mem_spread_at {row : Set Nat} (hrow : ∀ q ∈ row, q < 3) {c : ModeClass} (hq : q < 3) :
    c.shift + q ∈ spread who row ↔ who.has c ∧ q ∈ row := by
  constructor
  · rintro ⟨d, hd, r, hr, h⟩
    obtain ⟨rfl, rfl⟩ := ModeClass.shift_add_inj hq (hrow r hr) h
    exact ⟨hd, hr⟩
  · rintro ⟨hc, hq⟩
    exact ⟨c, hc, q, hq, rfl⟩

theorem row_notMem_special {c : ModeClass} (hq : q < 3) :
    c.shift + q ∉ on (perms.specialClearBits who) := by
  intro h
  have hlow := @ModeClass.shift_add_lt c q hq
  have hhigh := (PermissionMask.special_bounds h).1
  omega

theorem mem_granted_at {c : ModeClass} (hq : q < 3) :
    c.shift + q ∈ s.granted kind p ↔ s.who.has c ∧ q ∈ s.perms.row kind p := by
  unfold SymbolicMode.granted
  rw [Set.mem_union, or_iff_left (row_notMem_special hq)]
  exact mem_spread_at (fun _ => PermissionMask.lt_of_mem_row) hq

theorem mem_region_at {c : ModeClass} (hq : q < 3) : c.shift + q ∈ s.region ↔ s.who.has c := by
  have hrow : ∀ q ∈ {q | q < 3}, q < 3 := fun _ h => h
  unfold SymbolicMode.region
  rw [Set.mem_union, or_iff_left (row_notMem_special hq), mem_spread_at hrow hq]
  exact and_iff_left hq

theorem granted_lt (h : i ∈ s.granted kind p) : i < 12 := by
  rcases h with hrow | hspecial
  · exact (spread_lt (fun _ => PermissionMask.lt_of_mem_row) hrow).trans (by decide)
  · exact (PermissionMask.special_bounds hspecial).2

/-- No bit beyond the twelve is turned on. -/
theorem symbolic_apply_lt {permissions : BitVec 32} (h : on permissions ⊆ {i | i < 12}) :
    on (s.apply permissions kind) ⊆ {i | i < 12} := by
  rw [on_apply]
  cases s.op with
  | add => exact Set.union_subset h fun i hi => granted_lt hi
  | remove => exact Set.sdiff_subset.trans h
  | set => exact Set.union_subset (Set.sdiff_subset.trans h) fun i hi => granted_lt hi

/-- **Isolation.** The row of a class that is not meant stays. -/
theorem symbolic_apply_row {c : ModeClass} (hc : ¬ s.who.has c) (hq : q < 3)
    (permissions : BitVec 32) (kind : ChmodFileKind) :
    c.shift + q ∈ on (s.apply permissions kind) ↔ c.shift + q ∈ on permissions := by
  have hgranted : ∀ p, c.shift + q ∉ s.granted kind p := fun p h =>
    hc ((mem_granted_at hq).mp h).1
  have hregion : c.shift + q ∉ s.region := fun h => hc ((mem_region_at hq).mp h)
  rw [on_apply]
  cases s.op with
  | add => exact or_iff_left (hgranted _)
  | remove => exact and_iff_left (hgranted _)
  | set => exact (or_iff_left (hgranted _)).trans (and_iff_left hregion)

/-! ## The second time -/

/-- What was granted adds nothing to what is granted: a row that is copied from a class that
was meant is the granted one. -/
theorem row_settles (hsub : p' ⊆ p ∪ s.granted kind p) :
    s.perms.row kind p' ⊆ s.perms.row kind p := by
  rintro q (hread | hwrite | ⟨hexec, rfl⟩ | ⟨d, hd, hq, hon⟩)
  · exact Or.inl hread
  · exact Or.inr (Or.inl hwrite)
  · rcases hexec with hexec | ⟨hcond, hdir | ⟨c, hc⟩⟩
    · exact Or.inr (Or.inr (Or.inl ⟨Or.inl hexec, rfl⟩))
    · exact Or.inr (Or.inr (Or.inl ⟨Or.inr ⟨hcond, Or.inl hdir⟩, rfl⟩))
    · rcases hsub hc with hon | hgranted
      · exact Or.inr (Or.inr (Or.inl ⟨Or.inr ⟨hcond, Or.inr ⟨c, hon⟩⟩, rfl⟩))
      · -- the class has its execute bit from this rule
        exact ((mem_granted_at (by decide)).mp hgranted).2
  · rcases hsub hon with hon | hgranted
    · exact Or.inr (Or.inr (Or.inr ⟨d, hd, hq, hon⟩))
    · exact ((mem_granted_at hq).mp hgranted).2

theorem granted_settles (hsub : p' ⊆ p ∪ s.granted kind p) :
    s.granted kind p' ⊆ s.granted kind p :=
  Set.union_subset_union_left _ (spread_mono (row_settles hsub))

/-- An assignment grants the same again: whatever a row was computed from is still there, or
the granted row stands in its place. -/
theorem granted_assign : s.granted kind (p \ s.region ∪ s.granted kind p) = s.granted kind p := by
  apply Set.Subset.antisymm
  · exact granted_settles (Set.union_subset_union_left _ Set.sdiff_subset)
  apply Set.union_subset_union_left
  rintro i ⟨c, hc, q, hq, rfl⟩
  have hlt := PermissionMask.lt_of_mem_row hq
  refine ⟨c, hc, q, ?_, rfl⟩
  rcases hq with hread | hwrite | ⟨hexec, rfl⟩ | ⟨d, hd, -, hon⟩
  · exact Or.inl hread
  · exact Or.inr (Or.inl hwrite)
  · -- execute stays on in the class that it was granted to
    have hagain : c.shift + 0 ∈ s.granted kind p :=
      (mem_granted_at hlt).mpr ⟨hc, Or.inr (Or.inr (Or.inl ⟨hexec, rfl⟩))⟩
    refine Or.inr (Or.inr (Or.inl ⟨?_, rfl⟩))
    rcases hexec with hexec | ⟨hcond, -⟩
    · exact Or.inl hexec
    · exact Or.inr ⟨hcond, Or.inr ⟨c, Or.inr hagain⟩⟩
  · refine Or.inr (Or.inr (Or.inr ⟨d, hd, hlt, ?_⟩))
    by_cases hmeant : s.who.has d
    · -- the row that is copied was assigned itself
      exact Or.inr ((mem_granted_at hlt).mpr
        ⟨hmeant, Or.inr (Or.inr (Or.inr ⟨d, hd, hlt, hon⟩))⟩)
    · exact Or.inl ⟨hon, fun h => hmeant ((mem_region_at hlt).mp h)⟩

theorem symbolic_apply_twice (s : SymbolicMode) (permissions : BitVec 32) (kind : ChmodFileKind) :
    s.apply (s.apply permissions kind) kind = s.apply permissions kind := by
  apply on_injective
  have honce := on_apply s permissions kind
  have htwice := on_apply s (s.apply permissions kind) kind
  cases hop : s.op with
  | add =>
      rw [hop] at honce htwice
      rw [htwice, honce]
      exact add_twice (granted_settles subset_rfl)
  | remove =>
      rw [hop] at honce htwice
      rw [htwice, honce]
      exact remove_twice (SymbolicMode.granted_mono Set.sdiff_subset)
  | set =>
      rw [hop] at honce htwice
      rw [htwice, honce]
      exact assign_twice granted_assign

/-! ## Runs of rules -/

theorem on_permissions : on 0o7777#32 = {i | i < 12} := by
  ext i
  rw [mem_on_mask _ (List.range 12) (by decide), List.mem_range]
  exact Iff.rfl

theorem ChmodRule.step_lt {permissions : BitVec 32} (h : on permissions ⊆ on 0o7777#32)
    (rule : ChmodRule) : on (rule.step kind permissions) ⊆ on 0o7777#32 := by
  obtain ⟨target, action⟩ := rule
  unfold ChmodRule.step
  split
  · cases action with
    | numeric mode =>
        show on mode.mode ⊆ on 0o7777#32
        rw [← mode.masked, on_and]
        exact Set.inter_subset_right
    | symbolic s =>
        rw [on_permissions] at h ⊢
        exact symbolic_apply_lt h
  · exact h

theorem foldl_step_lt (kind : ChmodFileKind) : ∀ (rules : List ChmodRule)
    {permissions : BitVec 32}, on permissions ⊆ on 0o7777#32 →
      on (rules.foldl (ChmodRule.step kind) permissions) ⊆ on 0o7777#32
  | [], _, h => h
  | rule :: rules, _, h => foldl_step_lt kind rules (rule.step_lt h)

theorem on_masked (wireMode : BitVec 32) : on (wireMode &&& 0o7777#32) ⊆ on 0o7777#32 := by
  rw [on_and]
  exact Set.inter_subset_right

theorem apply_and (rules : ChmodRules) (wireMode : BitVec 32) (kind : ChmodFileKind) :
    rules.apply wireMode kind &&& 0o7777#32 =
      rules.rules.foldl (ChmodRule.step kind) (wireMode &&& 0o7777#32) :=
  replaced_and wireMode (foldl_step_lt kind rules.rules (on_masked wireMode))

/-- The type bits stay. -/
theorem apply_and_not (rules : ChmodRules) (wireMode : BitVec 32) (kind : ChmodFileKind) :
    rules.apply wireMode kind &&& ~~~0o7777#32 = wireMode &&& ~~~0o7777#32 :=
  replaced_and_not wireMode (foldl_step_lt kind rules.rules (on_masked wireMode))

/-- **A run of two lists is one after the other.** -/
theorem apply_append (first rest : List ChmodRule) (wireMode : BitVec 32)
    (kind : ChmodFileKind) : ChmodRules.apply ⟨first ++ rest⟩ wireMode kind =
      ChmodRules.apply ⟨rest⟩ (ChmodRules.apply ⟨first⟩ wireMode kind) kind := by
  have htype := apply_and_not ⟨first⟩ wireMode kind
  have hlow := apply_and ⟨first⟩ wireMode kind
  unfold ChmodRules.apply at htype hlow ⊢
  dsimp only at htype hlow ⊢
  rw [htype, hlow, List.foldl_append]

theorem step_twice (rule : ChmodRule) (permissions : BitVec 32) :
    rule.step kind (rule.step kind permissions) = rule.step kind permissions := by
  obtain ⟨target, action⟩ := rule
  unfold ChmodRule.step
  split
  · cases action with
    | numeric mode => rfl
    | symbolic s => exact symbolic_apply_twice s permissions kind
  · rfl

theorem apply_single_twice (rule : ChmodRule) (wireMode : BitVec 32) (kind : ChmodFileKind) :
    ChmodRules.apply ⟨[rule]⟩ (ChmodRules.apply ⟨[rule]⟩ wireMode kind) kind =
      ChmodRules.apply ⟨[rule]⟩ wireMode kind := by
  rw [← apply_append]
  unfold ChmodRules.apply
  exact congrArg ((wireMode &&& ~~~0o7777#32) ||| ·) (step_twice rule _)

theorem mem_on_rowMask {c : ModeClass} : i ∈ on c.mask ↔ ∃ q, q < 3 ∧ i = c.shift + q := by
  unfold ModeClass.mask
  rw [mem_on_shiftLeft, mem_on_seven]
  constructor
  · rintro ⟨-, hle, hq⟩
    exact ⟨i - c.shift, hq, by omega⟩
  · rintro ⟨q, hq, rfl⟩
    have hlt := @ModeClass.shift_add_lt c q hq
    exact ⟨by omega, by omega, by omega⟩

theorem apply_symbolic_row {c : ModeClass} (hc : ¬ s.who.has c) (target : ChmodTarget)
    (wireMode : BitVec 32) (kind : ChmodFileKind) :
    ChmodRules.apply ⟨[⟨target, .symbolic s⟩]⟩ wireMode kind &&& c.mask = wireMode &&& c.mask := by
  have hstep : ∀ permissions q, q < 3 →
      (c.shift + q ∈ on (ChmodRule.step kind permissions ⟨target, .symbolic s⟩) ↔
        c.shift + q ∈ on permissions) := by
    intro permissions q hq
    unfold ChmodRule.step
    split
    · exact symbolic_apply_row hc hq permissions kind
    · exact Iff.rfl
  have hlow := apply_and ⟨[⟨target, .symbolic s⟩]⟩ wireMode kind
  apply on_injective
  ext i
  rw [on_and, on_and, Set.mem_inter_iff, Set.mem_inter_iff]
  refine and_congr_left fun hi => ?_
  obtain ⟨q, hq, rfl⟩ := mem_on_rowMask.mp hi
  have hperm : c.shift + q ∈ on 0o7777#32 := by
    rw [on_permissions]
    exact (ModeClass.shift_add_lt hq).trans (by decide)
  have hcode := hstep (wireMode &&& 0o7777#32) q hq
  rw [List.foldl_cons, List.foldl_nil] at hlow
  rw [← hlow, on_and, on_and, Set.mem_inter_iff, Set.mem_inter_iff, and_iff_left hperm,
    and_iff_left hperm] at hcode
  exact hcode

/-! ## Whatever the error says

The whole text is passed down for the error messages only. -/

theorem note_full (full full' : Text) (mask : PermissionMask) (ch : Char) :
    (mask.note full ch).toOption = (mask.note full' ch).toOption := by
  unfold PermissionMask.note
  split <;> rfl

theorem parsePermissions_full (full full' : Text) : ∀ (permissions : Text) (mask : PermissionMask),
    (permissions.foldlM (PermissionMask.note full) mask).toOption =
      (permissions.foldlM (PermissionMask.note full') mask).toOption
  | [], _ => rfl
  | ch :: permissions, mask => by
      rw [List.foldlM_cons, List.foldlM_cons]
      exact except_toOption_bind (note_full full full' mask ch) fun next =>
        parsePermissions_full full full' permissions next

theorem parseOp_full (full full' : Text) (opChar : Char) :
    (parseOp full opChar).toOption = (parseOp full' opChar).toOption := by
  unfold parseOp
  split <;> rfl

theorem parseSymbolicRule_full (full full' part : Text) :
    (parseSymbolicRule full part).toOption = (parseSymbolicRule full' part).toOption := by
  unfold parseSymbolicRule
  dsimp only
  split
  · rfl
  · split
    · rfl
    · rename_i opChar permissions hrest
      refine except_toOption_bind (parseOp_full full full' opChar) fun op => ?_
      refine except_toOption_bind (parsePermissions_full full full' permissions {}) fun perms => ?_
      split <;> rfl

theorem parseRule_full (full full' rawPart : Text) :
    (parseRule full rawPart).toOption = (parseRule full' rawPart).toOption := by
  unfold parseRule parseNumericRule
  dsimp only
  split
  · rfl
  · split
    · split <;> rfl
    · exact parseSymbolicRule_full full full' _

/-- The rules of a text, or none. -/
def readRules (value : Text) : Option (List ChmodRule) :=
  ((value.splitOn ',').mapM (parseRule [])).toOption

theorem parse_eq_ok_iff {value : Text} {rules : ChmodRules} :
    ChmodRules.parse value = .ok rules ↔ readRules value = some rules.rules := by
  have hfull := except_toOption_mapM (parseRule_full value []) (value.splitOn ',')
  unfold readRules
  unfold ChmodRules.parse
  rw [← hfull]
  cases (value.splitOn ',').mapM (parseRule value) with
  | error e => exact iff_of_false (by rintro ⟨⟩) (by rintro ⟨⟩)
  | ok parsed =>
      constructor
      · rintro h
        rw [← Except.ok.inj h]
        rfl
      · rintro h
        obtain rfl := Option.some.inj h
        rfl

/-- **The rules of a text are those of its parts.** -/
theorem readRules_append (a b : Text) : readRules (a ++ ',' :: b) =
    (readRules a).bind fun first => (readRules b).map fun rest => first ++ rest := by
  unfold readRules
  rw [List.splitOn_append_cons_self, List.mapM_append]
  cases (a.splitOn ',').mapM (parseRule []) with
  | error e => rfl
  | ok first =>
      cases (b.splitOn ',').mapM (parseRule []) with
      | error e => rfl
      | ok rest => rfl

theorem readRules_single {a : Text} (h : ',' ∉ a) :
    readRules a = (parseRule [] a).toOption.map fun rule => [rule] := by
  unfold readRules
  rw [List.splitOn_eq_singleton h, List.mapM_cons]
  cases parseRule [] a with
  | error e => rfl
  | ok rule => rfl

/-! ## The who-list -/

def isWho (ch : Char) : Bool := ch = 'u' || ch = 'g' || ch = 'o' || ch = 'a'

/-- The letters in front of the operation. -/
def whoList (rawPart : Text) : Text := (splitTarget (trim rawPart)).2.takeWhile isWho

/-- No letters mean every class. -/
def Means (rawPart : Text) (c : ModeClass) : Prop :=
  whoList rawPart = [] ∨ c.letter ∈ whoList rawPart ∨ 'a' ∈ whoList rawPart

/-- What a letter turns on. -/
def whoBits (ch : Char) : BitVec 8 :=
  if ch = 'u' then WhoMask.user else if ch = 'g' then WhoMask.group
  else if ch = 'o' then WhoMask.other else WhoMask.allBits

theorem parseWhoLoop_eq : ∀ (text : Text) (who : BitVec 8), (parseWhoLoop who text).1 =
    (text.takeWhile isWho).foldl (fun bits ch => bits ||| whoBits ch) who
  | [], _ => rfl
  | ch :: rest, who => by
      unfold parseWhoLoop
      split
      · exact parseWhoLoop_eq rest _
      · exact parseWhoLoop_eq rest _
      · exact parseWhoLoop_eq rest _
      · exact parseWhoLoop_eq rest _
      · rename_i hu hg ho ha
        have hwho : isWho ch = false := by
          simp only [isWho, Bool.or_eq_false_iff, decide_eq_false_iff_not]
          exact ⟨⟨⟨hu, hg⟩, ho⟩, ha⟩
        rw [List.takeWhile_cons_of_neg (by simp [hwho]), List.foldl_nil]

theorem mem_on_foldl_whoBits : ∀ (letters : Text) (who : BitVec 8),
    i ∈ on (letters.foldl (fun bits ch => bits ||| whoBits ch) who) ↔
      i ∈ on who ∨ ∃ ch ∈ letters, i ∈ on (whoBits ch)
  | [], who => by simp
  | ch :: letters, who => by
      rw [List.foldl_cons, mem_on_foldl_whoBits letters, on_or, Set.mem_union, or_assoc]
      simp only [List.mem_cons, exists_eq_or_imp]

namespace ModeClass

def place : ModeClass → Nat
  | user => 0
  | group => 1
  | other => 2

theorem mem_on_bit (c : ModeClass) : i ∈ on c.bit ↔ i = c.place := by
  have hplaces : (List.range 8).filter c.bit.getLsbD = [c.place] := by
    cases c <;> decide
  rw [mem_on_mask _ _ hplaces, List.mem_singleton]

theorem place_mem_whoBits (c : ModeClass) {ch : Char} (h : isWho ch = true) :
    c.place ∈ on (whoBits ch) ↔ ch = c.letter ∨ ch = 'a' := by
  simp only [isWho, Bool.or_eq_true, decide_eq_true_eq] at h
  rw [mem_on]
  rcases h with ((rfl | rfl) | rfl) | rfl
  · cases c <;> decide
  · cases c <;> decide
  · cases c <;> decide
  · cases c <;> decide

end ModeClass

theorem WhoMask.has_iff (who : WhoMask) (c : ModeClass) :
    who.has c ↔ c.place ∈ on who.bits := by
  unfold WhoMask.has WhoMask.contains
  rw [decide_eq_true_eq]
  refine ne_zero_iff.trans ?_
  rw [on_and]
  constructor
  · rintro ⟨i, hi, hbit⟩
    rwa [← c.mem_on_bit.mp hbit]
  · intro h
    exact ⟨c.place, h, c.mem_on_bit.mpr rfl⟩

theorem parseWho_has (expression : Text) (c : ModeClass) : (parseWho expression).1.has c ↔
    expression.takeWhile isWho = [] ∨ c.letter ∈ expression.takeWhile isWho ∨
      'a' ∈ expression.takeWhile isWho := by
  have hloop := parseWhoLoop_eq expression 0
  have hletters : ∀ ch ∈ expression.takeWhile isWho, isWho ch = true := fun ch hmem =>
    List.mem_takeWhile_imp hmem
  have hmem : ∀ c : ModeClass, c.place ∈ on (parseWhoLoop 0 expression).1 ↔
      c.letter ∈ expression.takeWhile isWho ∨ 'a' ∈ expression.takeWhile isWho := by
    intro c
    rw [hloop, mem_on_foldl_whoBits, or_iff_right (by simp [on])]
    constructor
    · rintro ⟨ch, hmem, hplace⟩
      rcases (c.place_mem_whoBits (hletters ch hmem)).mp hplace with rfl | rfl
      · exact Or.inl hmem
      · exact Or.inr hmem
    · rintro (hmem | hmem)
      · exact ⟨c.letter, hmem, (c.place_mem_whoBits (hletters _ hmem)).mpr (Or.inl rfl)⟩
      · exact ⟨'a', hmem, (c.place_mem_whoBits (hletters _ hmem)).mpr (Or.inr rfl)⟩
  unfold parseWho
  dsimp only
  by_cases hnone : expression.takeWhile isWho = []
  · rw [hnone, List.foldl_nil] at hloop
    rw [if_pos hloop]
    refine iff_of_true ?_ (Or.inl hnone)
    cases c <;> rfl
  · rw [or_iff_right hnone, ← hmem, WhoMask.has_iff, if_neg]
    intro hzero
    -- every letter means some class
    obtain ⟨ch, rest, hfirst⟩ := List.exists_cons_of_ne_nil hnone
    have hch : ch ∈ expression.takeWhile isWho := by
      rw [hfirst]
      exact List.mem_cons_self
    have hclass : (∃ c : ModeClass, c.letter = ch) ∨ ch = 'a' := by
      have hwho := hletters ch hch
      simp only [isWho, Bool.or_eq_true, decide_eq_true_eq] at hwho
      rw [ModeClass.exists_iff]
      rcases hwho with ((rfl | rfl) | rfl) | rfl
      · exact Or.inl (Or.inl rfl)
      · exact Or.inl (Or.inr (Or.inl rfl))
      · exact Or.inl (Or.inr (Or.inr rfl))
      · exact Or.inr rfl
    have hsome : ∃ c : ModeClass, c.place ∈ on (parseWhoLoop 0 expression).1 := by
      rcases hclass with ⟨c, rfl⟩ | rfl
      · exact ⟨c, (hmem c).mpr (Or.inl hch)⟩
      · exact ⟨.user, (hmem .user).mpr (Or.inr hch)⟩
    obtain ⟨c, hc⟩ := hsome
    rw [hzero] at hc
    exact absurd hc (by simp [on])

/-- A rule with a who-list is symbolic and for its classes. -/
theorem parseRule_who {full rawPart : Text} {rule : ChmodRule}
    (h : parseRule full rawPart = .ok rule) : whoList rawPart = [] ∨
      ∃ s, rule.action = .symbolic s ∧ ∀ c, s.who.has c ↔ Means rawPart c := by
  unfold parseRule parseNumericRule at h
  dsimp only at h
  split at h
  · cases h
  · split at h
    · -- octal digits are no letters of a who-list
      rename_i hdigits
      left
      unfold whoList
      cases hexpr : (splitTarget (trim rawPart)).2 with
      | nil => rfl
      | cons ch rest =>
          rw [hexpr] at hdigits
          have hoctal := List.all_eq_true.mp hdigits.2.2 ch List.mem_cons_self
          refine List.takeWhile_cons_of_neg fun hwho => ?_
          simp only [isWho, Bool.or_eq_true, decide_eq_true_eq] at hwho
          rcases hwho with ((rfl | rfl) | rfl) | rfl <;> exact absurd hoctal (by decide)
    · right
      unfold parseSymbolicRule at h
      dsimp only at h
      split at h
      · cases h
      · split at h
        · cases h
        · obtain ⟨op, -, h⟩ := except_bind_ok h
          obtain ⟨perms, -, h⟩ := except_bind_ok h
          split at h
          · cases h
          · obtain rfl := Except.ok.inj h
            exact ⟨_, rfl, fun c => parseWho_has _ c⟩

/-! ## Rules compose -/

theorem parse_append_iff (a b : Text) : (∃ rules, ChmodRules.parse (a ++ ',' :: b) = .ok rules) ↔
    (∃ first, ChmodRules.parse a = .ok first) ∧ ∃ rest, ChmodRules.parse b = .ok rest := by
  have hread : ∀ value, (∃ rules, ChmodRules.parse value = .ok rules) ↔
      ∃ rules, readRules value = some rules := by
    intro value
    constructor
    · rintro ⟨rules, h⟩
      exact ⟨rules.rules, parse_eq_ok_iff.mp h⟩
    · rintro ⟨rules, h⟩
      exact ⟨⟨rules⟩, parse_eq_ok_iff.mpr h⟩
  rw [hread, hread, hread, readRules_append]
  cases readRules a with
  | none => simp
  | some first =>
      cases readRules b with
      | none => simp
      | some rest => simp

theorem rules_append {a b : Text} {first rest both : ChmodRules}
    (ha : ChmodRules.parse a = .ok first) (hb : ChmodRules.parse b = .ok rest)
    (h : ChmodRules.parse (a ++ ',' :: b) = .ok both) : both = ⟨first.rules ++ rest.rules⟩ := by
  have hrules := readRules_append a b
  rw [parse_eq_ok_iff.mp ha, parse_eq_ok_iff.mp hb, parse_eq_ok_iff.mp h] at hrules
  exact congrArg ChmodRules.mk (Option.some.inj hrules)

theorem rules_single {a : Text} {rules : ChmodRules} (hcomma : ',' ∉ a)
    (h : ChmodRules.parse a = .ok rules) :
    ∃ rule, rules = ⟨[rule]⟩ ∧ parseRule [] a = .ok rule := by
  have hrules := parse_eq_ok_iff.mp h
  rw [readRules_single hcomma] at hrules
  cases hrule : parseRule [] a with
  | error e =>
      rw [hrule] at hrules
      cases hrules
  | ok rule =>
      rw [hrule] at hrules
      exact ⟨rule, congrArg ChmodRules.mk (Option.some.inj hrules).symm, rfl⟩

/-- **Mode changes compose.** Two texts joined by a comma are read just if both are, and then
run one after the other. No rule changes a type bit. A rule by itself leaves the row of a
class that its who-list does not mean, and does nothing the second time. -/
theorem chmod_rules_compose (a b : Text) :
    ((∃ both, ChmodRules.parse (a ++ ',' :: b) = .ok both) ↔
      (∃ first, ChmodRules.parse a = .ok first) ∧ ∃ rest, ChmodRules.parse b = .ok rest) ∧
    (∀ first rest both, ChmodRules.parse a = .ok first → ChmodRules.parse b = .ok rest →
      ChmodRules.parse (a ++ ',' :: b) = .ok both → ∀ wireMode kind,
        both.apply wireMode kind = rest.apply (first.apply wireMode kind) kind) ∧
    ∀ rules, ChmodRules.parse a = .ok rules → ∀ wireMode kind,
      rules.apply wireMode kind &&& ~~~0o7777#32 = wireMode &&& ~~~0o7777#32 ∧
      (',' ∉ a → (∀ c, ¬ Means a c →
          rules.apply wireMode kind &&& c.mask = wireMode &&& c.mask) ∧
        rules.apply (rules.apply wireMode kind) kind = rules.apply wireMode kind) := by
  refine ⟨parse_append_iff a b, ?_, ?_⟩
  · intro first rest both ha hb hboth wireMode kind
    rw [rules_append ha hb hboth]
    exact apply_append first.rules rest.rules wireMode kind
  · intro rules hrules wireMode kind
    refine ⟨apply_and_not rules wireMode kind, fun hcomma => ?_⟩
    obtain ⟨rule, rfl, hrule⟩ := rules_single hcomma hrules
    refine ⟨fun c hc => ?_, apply_single_twice rule wireMode kind⟩
    -- a numeric rule has no who-list, so it means every class
    rcases parseRule_who hrule with hnone | ⟨s, hs, hmeans⟩
    · exact absurd (Or.inl hnone) hc
    · obtain ⟨target, action⟩ := rule
      obtain rfl : action = .symbolic s := hs
      exact apply_symbolic_row (fun h => hc ((hmeans c).mp h)) target wireMode kind

theorem chmod_rules_compose_copy :
    (∃ both, ChmodRules.parse ("g=uX".toList ++ ',' :: "o+st".toList) = .ok both) ∧
    ∀ rules, ChmodRules.parse "g=uX".toList = .ok rules → ∀ wireMode kind,
      rules.apply (rules.apply wireMode kind) kind = rules.apply wireMode kind :=
  ⟨(chmod_rules_compose "g=uX".toList "o+st".toList).1.mpr ⟨⟨_, rfl⟩, ⟨_, rfl⟩⟩,
    fun rules h wireMode kind =>
      (((chmod_rules_compose "g=uX".toList []).2.2 rules h wireMode kind).2 (by decide)).2⟩

end RsyncWin
