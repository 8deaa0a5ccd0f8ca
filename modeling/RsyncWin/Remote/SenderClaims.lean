import RsyncWin.Fs.Options
import RsyncWin.Remote.SenderOrder

/-!
# What a receiver believes of a sender (`rsync-cli/src/remote/security.rs`)

Unless the sender is trusted, a received file list is refused when it holds a
path that the rules hide or that was not asked for. The rules of both sides are
asked, and what was asked for is guessed from the operands that look like single
files. An honest list is refused when either goes wrong.
-/

namespace RsyncWin

open ByteString

inductive TransferDirection where
  | push | pull
deriving DecidableEq, Repr

structure RemoteShellOperand where
  path : Text
deriving DecidableEq, Repr

structure TransferPlan where
  trustSender : Bool := false
  oldArgs : Bool := false
  remoteDirection : Option TransferDirection
  remoteOperands : List RemoteShellOperand
  filterRules : RuleSet := {}
deriving DecidableEq, Repr

/-! ## The rules on a received path -/

def entryKindFromWire (fileType : WireFileType) : EntryKind :=
  if fileType = .directory then .directory else .file

/-- The loop over the components of a path; `current` are those already passed. -/
def componentsAreFiltered (rules : RuleSet) (side : RuleSide) (stops : RuleAction → Bool)
    (fileType : WireFileType) : Key → List Component → Bool
  | _, [] => false
  | current, .normal name :: rest =>
      let kind := if rest = [] then entryKindFromWire fileType else .directory
      stops (rules.decideForSide (Fs.filterPath (current ++ [name])) kind side) ||
        componentsAreFiltered rules side stops fileType (current ++ [name]) rest
  | _, _ :: _ => true

theorem componentsAreFiltered_normal (rules : RuleSet) (side : RuleSide)
    (stops : RuleAction → Bool) (fileType : WireFileType) (current : Key) (name : Bytes)
    (rest : List Component) :
    componentsAreFiltered rules side stops fileType current (.normal name :: rest) =
      (stops (rules.decideForSide (Fs.filterPath (current ++ [name]))
          (if rest = [] then entryKindFromWire fileType else .directory) side) ||
        componentsAreFiltered rules side stops fileType (current ++ [name]) rest) := rfl

def remoteSourcePathIsFiltered (rules : RuleSet) (relative : Bytes) (fileType : WireFileType) :
    Bool :=
  componentsAreFiltered rules .sender (fun action => action = .exclude || action = .hide)
    fileType [] (components relative)

def remoteReceiverPathIsFiltered (rules : RuleSet) (relative : Bytes)
    (fileType : WireFileType) : Bool :=
  componentsAreFiltered rules .receiver (fun action => action = .exclude || action = .protect)
    fileType [] (components relative)

/-! ## The operands that look like single files -/

/-- `replace('\\', "/")`. -/
def withSlashes (text : Text) : Text := text.map fun ch => if ch = '\\' then '/' else ch

def remoteSingleFileSourceBasename (path : Text) : Option Text :=
  if path.getLast? = some '/' ∨ path.getLast? = some '\\' then none
  else
    let basename := trim (((withSlashes path).splitOn '/').getLastD [])
    if basename = [] ∨ '.' ∉ basename then none else some basename

def remoteSingleFileSourceBasenames (plan : TransferPlan) : List Text :=
  if plan.remoteDirection ≠ some .pull then []
  else plan.remoteOperands.filterMap fun operand => remoteSingleFileSourceBasename operand.path

def remoteEntryMatchesSingleFileSources (relative : Bytes) (allowed : List Text) : Bool :=
  if allowed = [] then true
  else
    let relative := withSlashes (decodeLossy relative.length relative)
    allowed.any fun basename =>
      relative = basename || (basename ++ ['/']).isPrefixOf relative

/-! ## The check -/

def unrequestedPath (path : Bytes) : Error :=
  .other (s!"remote sender sent unrequested path `{fromUtf8Lossy path}`; " ++
    "use --trust-sender to accept remote file-list names")

def filteredPath (path : Bytes) : Error :=
  .other (s!"remote sender sent filtered path `{fromUtf8Lossy path}`; " ++
    "use --trust-sender to accept remote file-list names")

/-- The body of the loop over the entries. -/
def checkSenderClaim (plan : TransferPlan) (allowed : List Text) (entry : RsyncFileListEntry) :
    Except Error Unit :=
  if remoteEntryIsTopDir entry then .ok ()
  else if !remoteEntryMatchesSingleFileSources entry.path allowed then
    .error (unrequestedPath entry.path)
  else if remoteSourcePathIsFiltered plan.filterRules entry.path entry.fileType ||
      remoteReceiverPathIsFiltered plan.filterRules entry.path entry.fileType then
    .error (filteredPath entry.path)
  else .ok ()

def validateRemoteSenderClaims (plan : TransferPlan) (entries : List RsyncFileListEntry)
    (_filesFrom : Option (List Bytes)) : Except Error Unit :=
  if plan.trustSender then .ok ()
  else
    let allowedSingleFileSources :=
      if plan.oldArgs then [] else remoteSingleFileSourceBasenames plan
    entries.forM (checkSenderClaim plan allowedSingleFileSources)

/-! ## What is admitted -/

theorem forM_eq_ok {ε α : Type} {g : α → Except ε Unit} :
    ∀ {xs : List α}, xs.forM g = .ok () ↔ ∀ x ∈ xs, g x = .ok ()
  | [] => by simp [List.forM, pure, Except.pure]
  | x :: xs => by
      change (g x >>= fun _ => xs.forM g) = .ok () ↔ _
      cases hx : g x with
      | error e => simp [bind, Except.bind, hx]
      | ok u => simpa [bind, Except.bind, hx] using forM_eq_ok

/-- A failed check is an error: there is no third outcome. -/
theorem exists_error_iff {ε : Type} {x : Except ε Unit} : (∃ e, x = .error e) ↔ x ≠ .ok () := by
  cases x <;> simp

/-- Everything that is checked about one entry. -/
structure Admitted (plan : TransferPlan) (allowed : List Text) (entry : RsyncFileListEntry) :
    Prop where
  requested : remoteEntryMatchesSingleFileSources entry.path allowed = true
  visible : remoteSourcePathIsFiltered plan.filterRules entry.path entry.fileType = false
  unprotected : remoteReceiverPathIsFiltered plan.filterRules entry.path entry.fileType = false

theorem checkSenderClaim_eq_ok {plan : TransferPlan} {allowed : List Text}
    {entry : RsyncFileListEntry} :
    checkSenderClaim plan allowed entry = .ok () ↔
      (remoteEntryIsTopDir entry = false → Admitted plan allowed entry) := by
  unfold checkSenderClaim
  split
  case isTrue htop => simp [htop]
  case isFalse htop =>
    have hnot : remoteEntryIsTopDir entry = false := Bool.eq_false_iff.mpr htop
    constructor
    · intro hok _
      split at hok
      case isTrue => cases hok
      case isFalse hreq =>
        split at hok
        case isTrue => cases hok
        case isFalse hfil =>
          rw [Bool.not_eq_true, Bool.or_eq_false_iff] at hfil
          exact ⟨by simpa using hreq, hfil.1, hfil.2⟩
    · intro hadm
      obtain ⟨hreq, hvis, hun⟩ := hadm hnot
      rw [if_neg (by simp [hreq]), if_neg (by simp [hvis, hun])]

theorem validateRemoteSenderClaims_eq_ok {plan : TransferPlan} (htrust : plan.trustSender = false)
    (hold : plan.oldArgs = false) {entries : List RsyncFileListEntry}
    {filesFrom : Option (List Bytes)} :
    validateRemoteSenderClaims plan entries filesFrom = .ok () ↔
      ∀ entry ∈ entries, remoteEntryIsTopDir entry = false →
        Admitted plan (remoteSingleFileSourceBasenames plan) entry := by
  unfold validateRemoteSenderClaims
  rw [if_neg (by simp [htrust]), if_neg (by simp [hold]), forM_eq_ok]
  exact forall₂_congr fun _ _ => checkSenderClaim_eq_ok

/-! ## Operands in their own terms -/

/-- The last component of the operand, as it is compared. -/
def RemoteShellOperand.name (operand : RemoteShellOperand) : Text :=
  trim (((withSlashes operand.path).splitOn '/').getLastD [])

/-- The operand has no trailing separator and a dot in its last component. -/
structure RemoteShellOperand.Dotted (operand : RemoteShellOperand) : Prop where
  no_slash : operand.path.getLast? ≠ some '/'
  no_backslash : operand.path.getLast? ≠ some '\\'
  dot_mem : '.' ∈ operand.name

/-- The path is the name, or goes on below it. -/
def IsOrBelow (relative : Bytes) (name : Text) : Prop :=
  withSlashes (decodeLossy relative.length relative) = name ∨
    ∃ rest, withSlashes (decodeLossy relative.length relative) = name ++ '/' :: rest

theorem remoteSingleFileSourceBasename_eq_some {operand : RemoteShellOperand} {basename : Text} :
    remoteSingleFileSourceBasename operand.path = some basename ↔
      operand.Dotted ∧ operand.name = basename := by
  unfold remoteSingleFileSourceBasename
  constructor
  · intro h
    split at h
    case isTrue => cases h
    case isFalse hends =>
      rw [not_or] at hends
      change (if operand.name = [] ∨ '.' ∉ operand.name then none else some operand.name) = _ at h
      split at h
      case isTrue => cases h
      case isFalse hname =>
        rw [not_or, not_not] at hname
        exact ⟨⟨hends.1, hends.2, hname.2⟩, Option.some.inj h⟩
  · rintro ⟨⟨hslash, hback, hdot⟩, rfl⟩
    have hne : operand.name ≠ [] := List.ne_nil_of_mem hdot
    rw [if_neg (by simp [hslash, hback])]
    exact if_neg (not_or.mpr ⟨hne, not_not_intro hdot⟩)

theorem mem_remoteSingleFileSourceBasenames {plan : TransferPlan}
    (hpull : plan.remoteDirection = some .pull) {basename : Text} :
    basename ∈ remoteSingleFileSourceBasenames plan ↔
      ∃ operand ∈ plan.remoteOperands, operand.Dotted ∧ operand.name = basename := by
  unfold remoteSingleFileSourceBasenames
  rw [if_neg (by simp [hpull])]
  simp only [List.mem_filterMap, remoteSingleFileSourceBasename_eq_some]

theorem remoteEntryMatchesSingleFileSources_iff {relative : Bytes} {allowed : List Text} :
    remoteEntryMatchesSingleFileSources relative allowed = true ↔
      (allowed ≠ [] → ∃ basename ∈ allowed, IsOrBelow relative basename) := by
  unfold remoteEntryMatchesSingleFileSources IsOrBelow
  split
  case isTrue hnil => simp [hnil]
  case isFalse hne =>
    simp only [List.any_eq_true, Bool.or_eq_true, decide_eq_true_eq, ne_eq, hne,
      not_false_eq_true, forall_const, List.isPrefixOf_iff_prefix]
    refine exists_congr fun basename => and_congr_right fun _ => or_congr_right ?_
    constructor
    · rintro ⟨rest, hrest⟩
      exact ⟨rest, by rw [← hrest]; simp⟩
    · rintro ⟨rest, hrest⟩
      exact ⟨rest, by rw [hrest]; simp⟩

/-- Some operand is dotted only if the path is, or is below, what one of them names. -/
def Requested (plan : TransferPlan) (relative : Bytes) : Prop :=
  plan.remoteDirection = some .pull → (∃ operand ∈ plan.remoteOperands, operand.Dotted) →
    ∃ operand ∈ plan.remoteOperands, operand.Dotted ∧ IsOrBelow relative operand.name

theorem matchesSingleFileSources_iff_requested {plan : TransferPlan} {relative : Bytes} :
    remoteEntryMatchesSingleFileSources relative (remoteSingleFileSourceBasenames plan) = true ↔
      Requested plan relative := by
  rw [remoteEntryMatchesSingleFileSources_iff]
  by_cases hpull : plan.remoteDirection = some .pull
  · have hmem := @mem_remoteSingleFileSourceBasenames plan hpull
    constructor
    · rintro h - ⟨operand, hoperand, hdotted⟩
      have hin := hmem.mpr ⟨operand, hoperand, hdotted, rfl⟩
      obtain ⟨_, hbasename, hbelow⟩ := h (List.ne_nil_of_mem hin)
      obtain ⟨other, hother, hdot, rfl⟩ := hmem.mp hbasename
      exact ⟨other, hother, hdot, hbelow⟩
    · intro h hne
      obtain ⟨basename, hbasename⟩ := List.exists_mem_of_ne_nil _ hne
      obtain ⟨operand, hoperand, hdotted, -⟩ := hmem.mp hbasename
      obtain ⟨other, hother, hdot, hbelow⟩ := h hpull ⟨operand, hoperand, hdotted⟩
      exact ⟨other.name, hmem.mpr ⟨other, hother, hdot, rfl⟩, hbelow⟩
  · have hnil : remoteSingleFileSourceBasenames plan = [] := if_pos hpull
    simp [hnil, Requested, hpull]

/-! ## Honest lists -/

/-- The operand asks for the contents of a directory. -/
def RemoteShellOperand.OfContents (operand : RemoteShellOperand) : Prop :=
  operand.path.getLast? = some '/' ∨ operand.path = ['.']

/-- What a sender that keeps to the operands and to its own rules can send. -/
structure HonestEntry (plan : TransferPlan) (entry : RsyncFileListEntry) : Prop where
  visible : remoteSourcePathIsFiltered plan.filterRules entry.path entry.fileType = false
  asked : (∃ operand ∈ plan.remoteOperands, operand.OfContents) ∨
    ∃ operand ∈ plan.remoteOperands, operand.path.getLast? ≠ some '/' ∧
      (components entry.path).head? =
        some (.normal (utf8Encode ((operand.path.splitOn '/').getLastD [])))

def HonestList (plan : TransferPlan) (entries : List RsyncFileListEntry) : Prop :=
  ∀ entry ∈ entries, remoteEntryIsTopDir entry = false → HonestEntry plan entry

/-- An honest list is accepted and one with a hidden entry is refused. -/
def Separates (plan : TransferPlan) (entries : List RsyncFileListEntry)
    (filesFrom : Option (List Bytes)) : Prop :=
  (HonestList plan entries → validateRemoteSenderClaims plan entries filesFrom = .ok ()) ∧
  ((∃ entry ∈ entries, remoteEntryIsTopDir entry = false ∧
      remoteSourcePathIsFiltered plan.filterRules entry.path entry.fileType = true) →
    ∃ e, validateRemoteSenderClaims plan entries filesFrom = .error e)

theorem hidden_refused {plan : TransferPlan} (htrust : plan.trustSender = false)
    (hold : plan.oldArgs = false) {entries : List RsyncFileListEntry}
    (filesFrom : Option (List Bytes)) {entry : RsyncFileListEntry} (hmem : entry ∈ entries)
    (htop : remoteEntryIsTopDir entry = false)
    (hhidden : remoteSourcePathIsFiltered plan.filterRules entry.path entry.fileType = true) :
    ∃ e, validateRemoteSenderClaims plan entries filesFrom = .error e := by
  rw [exists_error_iff]
  intro hok
  have hvisible := ((validateRemoteSenderClaims_eq_ok htrust hold).mp hok entry hmem htop).visible
  rw [hhidden] at hvisible
  cases hvisible

/-- An honest list is refused exactly for an entry that a receiver-side rule
excludes or protects, or that no dotted operand names though there is one. -/
theorem validateRemoteSenderClaims_separates_iff {plan : TransferPlan}
    (htrust : plan.trustSender = false) (hold : plan.oldArgs = false)
    (entries : List RsyncFileListEntry) (filesFrom : Option (List Bytes)) :
    Separates plan entries filesFrom ↔
      (HonestList plan entries → ∀ entry ∈ entries, remoteEntryIsTopDir entry = false →
        remoteReceiverPathIsFiltered plan.filterRules entry.path entry.fileType = false ∧
        Requested plan entry.path) := by
  constructor
  · rintro ⟨haccepts, -⟩ hhonest entry hmem htop
    have hok := haccepts hhonest
    obtain ⟨hreq, -, hun⟩ := (validateRemoteSenderClaims_eq_ok htrust hold).mp hok entry hmem htop
    exact ⟨hun, matchesSingleFileSources_iff_requested.mp hreq⟩
  · intro h
    refine ⟨fun hhonest => ?_, ?_⟩
    · rw [validateRemoteSenderClaims_eq_ok htrust hold]
      intro entry hmem htop
      obtain ⟨hun, hreq⟩ := h hhonest entry hmem htop
      exact
        { requested := matchesSingleFileSources_iff_requested.mpr hreq
          visible := (hhonest entry hmem htop).visible
          unprotected := hun }
    · rintro ⟨entry, hmem, htop, hhidden⟩
      exact hidden_refused htrust hold filesFrom hmem htop hhidden

/-- One dotted operand, and the list an honest sender answers it with. -/
theorem separates_of_one_file :
    Separates
      { remoteDirection := some .pull, remoteOperands := [⟨"notes.txt".toList⟩] }
      [{ path := utf8Encode "notes.txt".toList, fileType := .file, len := 4, mtimeUnix := 0,
         mode := 0o100644 }] none := by
  refine (validateRemoteSenderClaims_separates_iff rfl rfl _ _).mpr ?_
  rintro - entry hmem -
  obtain rfl := List.mem_singleton.mp hmem
  exact ⟨by decide, matchesSingleFileSources_iff_requested.mp (by decide)⟩

def protectNotes : RuleSet :=
  ⟨[{ action := .protect
      pattern := (Pattern.parse "notes".toList).toOption
      senderSide := false
      receiverSide := true
      perishable := false }]⟩

/-- A directory beside a dotted file is refused, and so is a protected file that
the sender does not hide. -/
theorem honest_lists_refused :
    ¬ Separates
      { remoteDirection := some .pull
        remoteOperands := [⟨"docs".toList⟩, ⟨"notes.txt".toList⟩] }
      [{ path := utf8Encode "docs".toList, fileType := .directory, len := 0, mtimeUnix := 0,
         mode := 0o40755 }] none ∧
    ¬ Separates
      { remoteDirection := some .pull
        remoteOperands := [⟨"notes".toList⟩]
        filterRules := protectNotes }
      [{ path := utf8Encode "notes".toList, fileType := .file, len := 4, mtimeUnix := 0,
         mode := 0o100644 }] none := by
  constructor
  · rintro ⟨haccepts, -⟩
    have hok := haccepts (by
      intro entry hmem _
      obtain rfl := List.mem_singleton.mp hmem
      exact ⟨by decide, .inr ⟨⟨"docs".toList⟩, by simp, by decide, by decide⟩⟩)
    revert hok
    decide
  · rintro ⟨haccepts, -⟩
    have hok := haccepts (by
      intro entry hmem _
      obtain rfl := List.mem_singleton.mp hmem
      exact ⟨by decide, .inr ⟨⟨"notes".toList⟩, by simp, by decide, by decide⟩⟩)
    revert hok
    decide

end RsyncWin
