import RsyncWin.Daemon.ClientArgs

/-!
# What the daemon makes of a client's arguments

The daemon reads a row of arguments one by one, each by the first table that has
its name. Arguments of a client are read as the options they were made from, and
a field of the daemon's record is a view of it: along the row a view is a fold
over the few options that bear on it.
-/

namespace RsyncWin

/-! ## Trimming -/

theorem length_trimmed {start text : Text} (hne : start ≠ []) (h : start.isPrefixOf text = true) :
    (text.drop start.length).length < text.length := by
  have hstart := List.length_pos_iff.mpr hne
  have hle := (List.isPrefixOf_iff_prefix.mp h).length_le
  rw [List.length_drop]
  omega

theorem trimStartTimes_eq {start : Text} (hne : start ≠ []) : ∀ {n m : Nat} {text : Text},
    text.length ≤ n → text.length ≤ m →
    trimStartTimes start n text = trimStartTimes start m text
  | 0, 0, _, _, _ => rfl
  | 0, m + 1, text, hn, _ => by
      obtain rfl := List.length_eq_zero_iff.mp (Nat.le_zero.mp hn)
      rw [trimStartTimes, trimStartTimes, if_neg]
      cases start with
      | nil => exact absurd rfl hne
      | cons ch start => exact Bool.false_ne_true
  | n + 1, 0, text, _, hm => by
      obtain rfl := List.length_eq_zero_iff.mp (Nat.le_zero.mp hm)
      rw [trimStartTimes, trimStartTimes, if_neg]
      cases start with
      | nil => exact absurd rfl hne
      | cons ch start => exact Bool.false_ne_true
  | n + 1, m + 1, text, hn, hm => by
      rw [trimStartTimes, trimStartTimes]
      by_cases hprefix : start.isPrefixOf text = true
      · have hlt := length_trimmed hne hprefix
        rw [if_pos hprefix, if_pos hprefix]
        exact trimStartTimes_eq hne (by omega) (by omega)
      · rw [if_neg hprefix, if_neg hprefix]

/-- The start of an argument goes with those that follow it. -/
theorem trimStartMatches_append {start : Text} (hne : start ≠ []) (text : Text) :
    trimStartMatches start (start ++ text) = trimStartMatches start text := by
  unfold trimStartMatches
  obtain ⟨n, hn⟩ : ∃ n, (start ++ text).length = n + 1 :=
    Nat.exists_eq_succ_of_ne_zero (by simp [hne])
  have hlen := List.length_pos_iff.mpr hne
  rw [List.length_append] at hn
  rw [List.length_append, hn, trimStartTimes,
    if_pos (List.isPrefixOf_iff_prefix.mpr (List.prefix_append _ _)), List.drop_left]
  exact trimStartTimes_eq hne (by omega) le_rfl

theorem trimStartMatches_eq_self {start text : Text} (h : start.isPrefixOf text = false) :
    trimStartMatches start text = text := by
  unfold trimStartMatches
  cases text with
  | nil => rfl
  | cons ch text => rw [List.length_cons, trimStartTimes, if_neg (by rw [h]; exact Bool.false_ne_true)]

/-! ## One option -/

/-- Neither begins with the other. -/
def Apart (first second : Text) : Prop :=
  first.isPrefixOf second = false ∧ second.isPrefixOf first = false

instance (first second : Text) : Decidable (Apart first second) :=
  inferInstanceAs (Decidable (_ ∧ _))

theorem Apart.not_prefix {first second : Text} (h : Apart first second) (rest : Text) :
    first.isPrefixOf (second ++ rest) = false := by
  rw [Bool.eq_false_iff]
  intro hprefix
  rcases List.prefix_or_prefix_of_prefix (List.isPrefixOf_iff_prefix.mp hprefix)
    (List.prefix_append second rest) with hfirst | hsecond
  · exact Bool.false_ne_true (h.1.symm.trans (List.isPrefixOf_iff_prefix.mpr hfirst))
  · exact Bool.false_ne_true (h.2.symm.trans (List.isPrefixOf_iff_prefix.mpr hsecond))

namespace DaemonTransferArgs

variable {t t' : DaemonTransferArgs} {name : String} {value : Text}

/-- What an option of this name is to the daemon; names it does not know are nothing. -/
def effect (name : String) (value : Text) (t : DaemonTransferArgs) :
    Except Error DaemonTransferArgs :=
  match wordOptions.find? (·.1 = name) with
  | some option => .ok (option.2 t)
  | none =>
      match valueOptions.find? (·.1 = name) with
      | some option => option.2 t value
      | none => .ok t

def dashes : Text := ['-', '-']

theorem equals_notMem_wordOptions : ∀ option ∈ wordOptions, '=' ∉ option.1.toList := by decide

theorem equals_mem_valueOptions : ∀ option ∈ valueOptions, '=' ∈ option.1.toList := by decide

theorem dashes_wordOptions : ∀ option ∈ wordOptions,
    option.1.toList = ['-', 'z'] ∨ dashes.isPrefixOf option.1.toList = true := by decide

theorem dashes_valueOptions : ∀ option ∈ valueOptions,
    dashes.isPrefixOf option.1.toList = true := by decide

theorem applyShortFlags_dashes {arg : Text} (h : dashes.isPrefixOf arg = true) :
    t.applyShortFlags arg = t := by
  unfold applyShortFlags
  exact if_pos (.inr h)

theorem dash_of_dashes {arg : Text} (h : dashes.isPrefixOf arg = true) :
    ['-'].isPrefixOf arg = true :=
  List.isPrefixOf_iff_prefix.mpr ((by decide : ['-'] <+: dashes).trans
    (List.isPrefixOf_iff_prefix.mp h))

theorem applyOptionArg_word (hdashes : dashes.isPrefixOf name.toList = true)
    (hword : '=' ∉ name.toList) : t.applyOptionArg name.toList = effect name [] t := by
  have hvalues : valueOptions.find? (fun option => option.1.toList.isPrefixOf name.toList) = none := by
    rw [List.find?_eq_none]
    intro option hoption hprefix
    exact hword ((List.isPrefixOf_iff_prefix.mp hprefix).subset (equals_mem_valueOptions _ hoption))
  have hnames : valueOptions.find? (·.1 = name) = none := by
    rw [List.find?_eq_none]
    intro option hoption hname
    exact hword (of_decide_eq_true hname ▸ equals_mem_valueOptions _ hoption)
  unfold applyOptionArg effect
  cases hfound : wordOptions.find? (·.1 = name) <;>
    simp only [String.toList_inj, hfound, hvalues, hnames, if_pos (dash_of_dashes hdashes),
      applyShortFlags_dashes hdashes]

theorem applyOptionArg_value (hdashes : dashes.isPrefixOf name.toList = true)
    (hvalue : '=' ∈ name.toList)
    (hapart : ∀ option ∈ valueOptions, option.1 = name ∨ Apart option.1.toList name.toList) :
    t.applyOptionArg (name.toList ++ value) =
      effect name (trimStartMatches name.toList value) t := by
  have hwords : wordOptions.find? (fun option => option.1.toList = name.toList ++ value) = none := by
    rw [List.find?_eq_none]
    intro option hoption hname
    refine equals_notMem_wordOptions _ hoption ?_
    rw [of_decide_eq_true hname]
    exact List.mem_append_left _ hvalue
  have hnames : wordOptions.find? (·.1 = name) = none := by
    rw [List.find?_eq_none]
    intro option hoption hname
    exact equals_notMem_wordOptions _ hoption (of_decide_eq_true hname ▸ hvalue)
  have hvalues : valueOptions.find? (fun option => option.1.toList.isPrefixOf (name.toList ++ value)) =
      valueOptions.find? (·.1 = name) := by
    rw [← List.head?_filter, ← List.head?_filter, List.filter_congr fun option hoption => ?_]
    rcases hapart option hoption with hsame | hapart
    · rw [hsame, decide_eq_true rfl]
      exact List.isPrefixOf_iff_prefix.mpr (List.prefix_append _ _)
    · rw [hapart.not_prefix, eq_comm, decide_eq_false_iff_not]
      rintro rfl
      exact Bool.false_ne_true (hapart.1.symm.trans (List.isPrefixOf_iff_prefix.mpr List.prefix_rfl))
  have hne : name.toList ≠ [] := List.ne_nil_of_mem hvalue
  have hstart : dashes.isPrefixOf (name.toList ++ value) = true :=
    List.isPrefixOf_iff_prefix.mpr
      ((List.isPrefixOf_iff_prefix.mp hdashes).trans (List.prefix_append _ _))
  unfold applyOptionArg effect
  rw [hwords, hnames, hvalues]
  cases hfind : valueOptions.find? (·.1 = name) with
  | none => simp only [if_pos (dash_of_dashes hstart), applyShortFlags_dashes hstart]
  | some option =>
      have hsame := List.find?_some hfind
      rw [decide_eq_true_eq] at hsame
      dsimp only
      rw [hsame, trimStartMatches_append hne]

/-! ## Options of a client -/

end DaemonTransferArgs

open DaemonTransferArgs

namespace LongOption

variable {t t' : DaemonTransferArgs} {option : LongOption} {options : List LongOption}

def name : LongOption → String
  | .word _ name => name
  | .values start _ => start

/-- The daemon takes it for no other option. -/
def Plain : LongOption → Prop
  | .word _ name => dashes.isPrefixOf name.toList = true ∧ '=' ∉ name.toList
  | .values start _ => dashes.isPrefixOf start.toList = true ∧ '=' ∈ start.toList ∧
      ∀ option ∈ valueOptions, option.1 = start ∨ Apart option.1.toList start.toList

instance : (option : LongOption) → Decidable option.Plain
  | .word _ _ => inferInstanceAs (Decidable (_ ∧ _))
  | .values _ _ => inferInstanceAs (Decidable (_ ∧ _ ∧ ∀ _ ∈ _, _))

/-- What the daemon does with it. -/
def apply : LongOption → DaemonTransferArgs → Except Error DaemonTransferArgs
  | .word given name, t => if given then effect name [] t else .ok t
  | .values start given, t =>
      given.foldlM (fun t value => effect start (trimStartMatches start.toList value) t) t

theorem applyArgs_cons {arg : Text} (harg : arg ≠ ['.']) (args : List Text) :
    applyArgs t (arg :: args) = t.applyOptionArg arg >>= fun t => applyArgs t args := by
  rw [applyArgs, if_neg harg]

theorem ne_dot {arg : Text} (h : dashes.isPrefixOf arg = true) : arg ≠ ['.'] := by
  rintro rfl
  exact absurd h (by decide)

theorem applyArgs_args (h : option.Plain) (t : DaemonTransferArgs) (rest : List Text) :
    applyArgs t (option.args ++ rest) = option.apply t >>= fun t => applyArgs t rest := by
  cases option with
  | word given name =>
      obtain ⟨hdashes, hword⟩ := h
      cases given with
      | false => rfl
      | true =>
          change applyArgs t (name.toList :: rest) = _
          rw [applyArgs_cons (ne_dot hdashes), applyOptionArg_word hdashes hword]
          rfl
  | values start given =>
      obtain ⟨hdashes, hvalue, hapart⟩ := h
      induction given generalizing t with
      | nil => rfl
      | cons value given ih =>
          have hstart : dashes.isPrefixOf (start.toList ++ value) = true :=
            List.isPrefixOf_iff_prefix.mpr
              ((List.isPrefixOf_iff_prefix.mp hdashes).trans (List.prefix_append _ _))
          change applyArgs t ((start.toList ++ value) :: ((values start given).args ++ rest)) = _
          rw [applyArgs_cons (ne_dot hstart), applyOptionArg_value hdashes hvalue hapart, apply,
            List.foldlM_cons, bind_assoc]
          exact bind_congr fun t => ih t

theorem applyArgs_flatMap : ∀ {options : List LongOption}, (∀ option ∈ options, option.Plain) →
    ∀ (t : DaemonTransferArgs) (rest : List Text),
      applyArgs t (options.flatMap (·.args) ++ rest) =
        options.foldlM (fun t option => option.apply t) t >>= fun t => applyArgs t rest
  | [], _, _, _ => rfl
  | option :: options, h, t, rest => by
      rw [List.flatMap_cons, List.append_assoc, applyArgs_args (h option List.mem_cons_self),
        List.foldlM_cons, bind_assoc]
      exact bind_congr fun t =>
        applyArgs_flatMap (fun option hoption => h option (List.mem_cons_of_mem _ hoption)) t rest

end LongOption

/-! ## Views -/

/-- A view that only the named options change, each of them by `act`. -/
structure Viewed {β : Type} (view : DaemonTransferArgs → β) (names : List String)
    (act : String → Text → β → β) : Prop where
  word : ∀ option ∈ wordOptions, ∀ t value, view (option.2 t) = act option.1 value (view t)
  value : ∀ option ∈ valueOptions, ∀ t value t', option.2 t value = .ok t' →
    view t' = act option.1 value (view t)
  other : ∀ name, name ∉ names → ∀ value b, act name value b = b
  known : ∀ name ∈ names, name ∈ wordOptions.map (·.1) ∨ name ∈ valueOptions.map (·.1)

namespace LongOption

/-- What an option does to a view. -/
def act {β : Type} (act : String → Text → β → β) : LongOption → β → β
  | .word given name, b => if given then act name [] b else b
  | .values start given, b =>
      given.foldl (fun b value => act start (trimStartMatches start.toList value) b) b

end LongOption

namespace Viewed

variable {β : Type} {view : DaemonTransferArgs → β} {names : List String}
  {step : String → Text → β → β} {t t' : DaemonTransferArgs}

theorem effect (h : Viewed view names step) {name : String} {value : Text}
    (heffect : effect name value t = .ok t') : view t' = step name value (view t) := by
  unfold DaemonTransferArgs.effect at heffect
  cases hword : wordOptions.find? (·.1 = name) with
  | some option =>
      have hname := List.find?_some hword
      rw [decide_eq_true_eq] at hname
      rw [hword] at heffect
      rw [← Except.ok.inj heffect, ← hname]
      exact h.word option (List.mem_of_find?_eq_some hword) t value
  | none =>
      rw [hword] at heffect
      cases hvalue : valueOptions.find? (·.1 = name) with
      | some option =>
          have hname := List.find?_some hvalue
          rw [decide_eq_true_eq] at hname
          rw [hvalue] at heffect
          rw [← hname]
          exact h.value option (List.mem_of_find?_eq_some hvalue) t value t' heffect
      | none =>
          -- a name that is in neither table is none of the view's
          rw [hvalue] at heffect
          rw [← Except.ok.inj heffect, h.other name ?_]
          intro hname
          rcases h.known name hname with hmem | hmem
          · obtain ⟨option, hoption, rfl⟩ := List.mem_map.mp hmem
            exact absurd (decide_eq_true rfl) (List.find?_eq_none.mp hword option hoption)
          · obtain ⟨option, hoption, rfl⟩ := List.mem_map.mp hmem
            exact absurd (decide_eq_true rfl) (List.find?_eq_none.mp hvalue option hoption)

theorem apply (h : Viewed view names step) {option : LongOption} (happly : option.apply t = .ok t') :
    view t' = option.act step (view t) := by
  cases option with
  | word given name =>
      cases given with
      | false => rw [← Except.ok.inj happly]; rfl
      | true => exact h.effect happly
  | values start given =>
      induction given generalizing t with
      | nil =>
          rw [← Except.ok.inj happly]
          rfl
      | cons value given ih =>
          obtain ⟨t₁, hfirst, hrest⟩ := except_bind_ok happly
          rw [ih hrest, h.effect hfirst]
          rfl

theorem act_other (h : Viewed view names step) {option : LongOption} (hname : option.name ∉ names)
    (b : β) : option.act step b = b := by
  cases option with
  | word given name =>
      cases given with
      | false => rfl
      | true => exact h.other name hname [] b
  | values start given =>
      induction given generalizing b with
      | nil => rfl
      | cons value given ih =>
          exact (ih _ hname).trans (h.other start hname _ b)

/-- Behind a row of options the view is a fold over those that it names. -/
theorem foldlM (h : Viewed view names step) : ∀ {options : List LongOption}
    {t t' : DaemonTransferArgs}, options.foldlM (fun t option => option.apply t) t = .ok t' →
    view t' = (options.filter (·.name ∈ names)).foldl (fun b option => option.act step b) (view t)
  | [], _, _, hfold => by
      rw [← Except.ok.inj hfold]
      rfl
  | option :: options, t, t', hfold => by
      obtain ⟨t₁, hfirst, hrest⟩ := except_bind_ok hfold
      rw [foldlM h hrest, h.apply hfirst]
      by_cases hname : option.name ∈ names
      · rw [List.filter_cons, if_pos (decide_eq_true hname), List.foldl_cons]
      · rw [List.filter_cons, if_neg (by simpa using hname), h.act_other hname]

end Viewed

/-! ## All arguments of a client -/

namespace RemoteShellOptions

variable (options : RemoteShellOptions) {t : DaemonTransferArgs}

/-- Everything in front of the short options. -/
def asked : List LongOption :=
  options.serverArgs ++ options.deleteOptions ++ [options.recursionOption] ++ options.longOptions

def letters : Text :=
  List.replicate options.verbosity 'v' ++ (if options.dryRun then ['n'] else []) ++
    (if options.wholeFile then ['W'] else []) ++ (if options.preserveTimes then ['t'] else []) ++
    (if options.recursive then ['r'] else []) ++ ['e', '.'] ++
    (if options.incrementalRecursion then ['i'] else []) ++
    ['L', 's', 'f', 'x', 'C', 'I', 'v', 'u']

theorem shortArgs_eq : options.shortArgs = '-' :: options.letters := rfl

theorem plain_asked : ∀ option ∈ options.asked, option.Plain := by
  have h : (options.asked.all fun option => decide option.Plain) = true := rfl
  simpa using h

theorem protocol31Argv_eq (hremote : options.remoteOptions = []) (paths : List Text) :
    options.protocol31Argv paths = options.rsyncPath ::
      (options.asked.flatMap (·.args) ++ options.shortArgs :: ['.'] :: paths) := by
  simp [protocol31Argv, asked, hremote]

theorem notMem_letters : ∀ c ∈ ['-', 'c', 'z'], c ∉ options.letters := by
  simp [letters]

theorem mem_letters : ('r' ∈ options.letters ↔ options.recursive) ∧
    ('n' ∈ options.letters ↔ options.dryRun) ∧ ('W' ∈ options.letters ↔ options.wholeFile) ∧
    ('t' ∈ options.letters ↔ options.preserveTimes) := by
  simp [letters]

end RemoteShellOptions

namespace DaemonTransferArgs

theorem foldl_applyShortFlag : ∀ {letters : Text} (t : DaemonTransferArgs), 'c' ∉ letters →
    'z' ∉ letters → letters.foldl applyShortFlag t =
      { t with
        recursive := t.recursive || decide ('r' ∈ letters)
        dryRun := t.dryRun || decide ('n' ∈ letters)
        wholeFile := t.wholeFile || decide ('W' ∈ letters)
        preserveTimes := t.preserveTimes || decide ('t' ∈ letters) }
  | [], t, _, _ => by simp
  | letter :: letters, t, hc, hz => by
      rw [List.mem_cons, not_or] at hc hz
      rw [List.foldl_cons, foldl_applyShortFlag _ hc.2 hz.2]
      unfold applyShortFlag
      split_ifs with hr hn hW ht hc' hz'
      · simp [hr]
      · simp [hn]
      · simp [hW]
      · simp [ht]
      · exact absurd hc'.symm hc.1
      · exact absurd hz'.symm hz.1
      · simp [eq_comm, hr, hn, hW, ht]

/-! ## What each option changes -/

def chownUser (value : Text) : Text := ((splitOnce (· = ':') value).getD (value, [])).1

def chownGroup (value : Text) : Text := ((splitOnce (· = ':') value).getD (value, [])).2

def ownerBy (name : String) (value : Text) (owner : Bool) : Bool :=
  owner || decide (name = "--owner" ∨ name = "--usermap=" ∨
    name = "--chown=" ∧ chownUser value ≠ [])

def groupBy (name : String) (value : Text) (group : Bool) : Bool :=
  group || decide (name = "--group" ∨ name = "--groupmap=" ∨
    name = "--chown=" ∧ chownGroup value ≠ [])

def rulesBy (name : String) (value : Text) (rules : RuleSet) : RuleSet :=
  if name = "--include=" then pushValid rules (Rule.new .include value)
  else if name = "--exclude=" then pushValid rules (Rule.new .exclude value)
  else if name = "--filter=" then pushValid rules (Rule.parseFilter value)
  else rules

def chmodBy (name : String) (value : Text) (chmod : Option ChmodRules) : Option ChmodRules :=
  if name = "--chmod=" then (ChmodRules.parse value).toOption else chmod

def blockSizeBy (name : String) (value : Text) (blockSize : Nat) : Nat :=
  if name = "--block-size=" then (parsePositiveUsize value).toOption.getD 0 else blockSize

def modeBy (name : String) (value : Text) (mode : Option RsyncDeflatedTokenMode) :
    Option RsyncDeflatedTokenMode :=
  if name = "--compress-choice=" then RsyncDeflatedTokenMode.fromChoice (some value)
  else if name ∈ ["--compress", "-z", "--compress-level=", "--skip-compress="] then
    some (mode.getD .zlibx)
  else mode

variable {t t' : DaemonTransferArgs} {value : Text}

def updateModeBy (name : String) (_value : Text) (mode : Fs.UpdateMode) : Fs.UpdateMode :=
  if name = "--checksum" then .checksum
  else if name = "--size-only" then .sizeOnly
  else if name = "--ignore-times" then .ignoreTimes
  else mode

def writeModeBy (name : String) (_value : Text) (mode : FileWriteMode) : FileWriteMode :=
  if name = "--inplace" then .inPlace else mode

/-- A word changes its part and leaves the rest. -/
theorem wordOption_eq {option : String × (DaemonTransferArgs → DaemonTransferArgs)}
    (hoption : option ∈ wordOptions) (t : DaemonTransferArgs) (value : Text) :
    option.2 t = { t with
      recursive := t.recursive || decide (option.1 ∈ ["--recursive"])
      dryRun := t.dryRun || decide (option.1 ∈ ["--dry-run"])
      wholeFile := t.wholeFile || decide (option.1 ∈ ["--whole-file"])
      preserveTimes := t.preserveTimes || decide (option.1 ∈ ["--times"])
      updateMode := updateModeBy option.1 value t.updateMode
      appendVerify := t.appendVerify || decide (option.1 ∈ ["--append-verify"])
      writeMode := writeModeBy option.1 value t.writeMode
      blockSize := blockSizeBy option.1 value t.blockSize
      filterRules := rulesBy option.1 value t.filterRules
      chmodRules := chmodBy option.1 value t.chmodRules
      preserveExecutability := t.preserveExecutability || decide (option.1 ∈ ["--executability"])
      compression := if option.1 ∈ ["--compress", "-z"] then t.ensureCompression.compression
        else t.compression
      delete := t.delete || decide (option.1 ∈ ["--delete", "--delete-before", "--delete-during",
        "--delete-delay", "--delete-after"])
      flistOptions := { t.flistOptions with
        preserveOwner := ownerBy option.1 value t.flistOptions.preserveOwner
        preserveGroup := groupBy option.1 value t.flistOptions.preserveGroup
        numericIds := t.flistOptions.numericIds || decide (option.1 ∈ ["--numeric-ids"])
        acls := t.flistOptions.acls || decide (option.1 ∈ ["--acls"])
        xattrs := t.flistOptions.xattrs || decide (option.1 ∈ ["--xattrs", "--fake-super"])
        fakeSuper := t.flistOptions.fakeSuper || decide (option.1 ∈ ["--fake-super"])
        atimes := t.flistOptions.atimes || decide (option.1 ∈ ["--atimes"])
        crtimes := t.flistOptions.crtimes || decide (option.1 ∈ ["--crtimes"]) } } := by
  revert option
  simp [wordOptions, updateModeBy, writeModeBy, blockSizeBy, rulesBy, chmodBy, ownerBy, groupBy, flist,
    ensureCompression, compressing]

theorem pushRule_ok {context : String} {rule : Except ParseRuleError Rule}
    (h : t.pushRule context rule = .ok t') :
    t' = { t with filterRules := pushValid t.filterRules rule } := by
  cases rule with
  | error e => cases h
  | ok rule => exact (Except.ok.inj h).symm

theorem compressChoice_ok (h : t.compressChoice value = .ok t') :
    ∃ mode, RsyncDeflatedTokenMode.fromChoice (some value) = some mode ∧
      t' = t.compressing (defaultCompression mode) fun config => { config with mode := mode } := by
  unfold compressChoice at h
  unfold RsyncDeflatedTokenMode.fromChoice
  dsimp only [Option.map_some] at h ⊢
  split_ifs at h ⊢
  · exact ⟨.zlibx, rfl, (Except.ok.inj h).symm⟩
  · exact ⟨.zlib, rfl, (Except.ok.inj h).symm⟩

/-- An option with a value changes its part and leaves the rest. -/
theorem valueOption_ok {option : String × (DaemonTransferArgs → Text → Except Error DaemonTransferArgs)}
    (hoption : option ∈ valueOptions) (h : option.2 t value = .ok t') :
    ∃ compression, compression.map (·.mode) = modeBy option.1 value (t.compression.map (·.mode)) ∧
      t' = { t with
        filterRules := rulesBy option.1 value t.filterRules
        chmodRules := chmodBy option.1 value t.chmodRules
        blockSize := blockSizeBy option.1 value t.blockSize
        compression := compression
        flistOptions := { t.flistOptions with
          preserveOwner := ownerBy option.1 value t.flistOptions.preserveOwner
          preserveGroup := groupBy option.1 value t.flistOptions.preserveGroup } } := by
  simp only [valueOptions, List.mem_cons, List.not_mem_nil, or_false] at hoption
  rcases hoption with rfl | rfl | rfl | rfl | rfl | rfl | rfl | rfl | rfl | rfl | rfl
  · rw [pushRule_ok h]
    exact ⟨t.compression, by simp [modeBy], by
      simp [rulesBy, chmodBy, blockSizeBy, ownerBy, groupBy]⟩
  · rw [pushRule_ok h]
    exact ⟨t.compression, by simp [modeBy], by
      simp [rulesBy, chmodBy, blockSizeBy, ownerBy, groupBy]⟩
  · rw [pushRule_ok h]
    exact ⟨t.compression, by simp [modeBy], by
      simp [rulesBy, chmodBy, blockSizeBy, ownerBy, groupBy]⟩
  · dsimp only [chmod] at h
    cases hrules : ChmodRules.parse value with
    | error e =>
        rw [hrules] at h
        cases h
    | ok rules =>
        rw [hrules] at h
        rw [← Except.ok.inj h]
        exact ⟨t.compression, by simp [modeBy], by
          simp [rulesBy, chmodBy, blockSizeBy, ownerBy, groupBy, hrules, Except.toOption]⟩
  · rw [← Except.ok.inj h]
    exact ⟨t.compression, by simp [modeBy], by
      simp [rulesBy, chmodBy, blockSizeBy, ownerBy, groupBy, flist]⟩
  · rw [← Except.ok.inj h]
    exact ⟨t.compression, by simp [modeBy], by
      simp [rulesBy, chmodBy, blockSizeBy, ownerBy, groupBy, flist]⟩
  · rw [← Except.ok.inj h]
    exact ⟨t.compression, by simp [modeBy], by
      simp [rulesBy, chmodBy, blockSizeBy, ownerBy, groupBy, flist, chown, chownUser, chownGroup]⟩
  · obtain ⟨n, hn, h⟩ := except_bind_ok h
    rw [← Except.ok.inj h]
    exact ⟨t.compression, by simp [modeBy], by
      simp [rulesBy, chmodBy, blockSizeBy, ownerBy, groupBy, hn, Except.toOption]⟩
  · obtain ⟨mode, hmode, rfl⟩ := compressChoice_ok h
    refine ⟨_, ?_, by simp [rulesBy, chmodBy, blockSizeBy, ownerBy, groupBy, compressing]; rfl⟩
    simp [modeBy, hmode]
  · obtain ⟨n, hn, h⟩ := except_bind_ok h
    rw [← Except.ok.inj h]
    refine ⟨_, ?_, by simp [rulesBy, chmodBy, blockSizeBy, ownerBy, groupBy, compressing]; rfl⟩
    cases t.compression <;> rfl
  · rw [← Except.ok.inj h]
    refine ⟨_, ?_, by simp [rulesBy, chmodBy, blockSizeBy, ownerBy, groupBy, skipCompress, compressing]; rfl⟩
    cases t.compression <;> rfl

theorem names_apart : ∀ option ∈ valueOptions, option.1 ∉ wordOptions.map (·.1) := by decide

/-- A flag that only words set. -/
theorem viewed_switch {view : DaemonTransferArgs → Bool} {names : List String}
    (hword : ∀ option ∈ wordOptions, ∀ t,
      view (option.2 t) = (view t || decide (option.1 ∈ names)))
    (hvalue : ∀ (t : DaemonTransferArgs) rules chmod blockSize compression owner group,
      view { t with
        filterRules := rules
        chmodRules := chmod
        blockSize := blockSize
        compression := compression
        flistOptions := { t.flistOptions with preserveOwner := owner, preserveGroup := group } } =
      view t)
    (hknown : ∀ name ∈ names, name ∈ wordOptions.map (·.1)) :
    Viewed view names fun name _ b => b || decide (name ∈ names) where
  word := fun option hoption t _ => hword option hoption t
  value := by
    intro option hoption t value t' h
    obtain ⟨compression, -, rfl⟩ := valueOption_ok hoption h
    have hname : option.1 ∉ names := fun hmem => names_apart option hoption (hknown _ hmem)
    rw [hvalue, decide_eq_false hname, Bool.or_false]
  other := by
    intro name hname value b
    rw [decide_eq_false hname, Bool.or_false]
  known := fun name hname => .inl (hknown name hname)

theorem viewed_owner : Viewed (·.flistOptions.preserveOwner) ["--owner", "--usermap=", "--chown="]
    ownerBy where
  word := fun option hoption t value => by rw [wordOption_eq hoption t value]
  value := by
    intro option hoption t value t' h
    obtain ⟨compression, -, rfl⟩ := valueOption_ok hoption h
    rfl
  other := by
    intro name hname value b
    simp_all [ownerBy]
  known := by decide

theorem viewed_group : Viewed (·.flistOptions.preserveGroup) ["--group", "--groupmap=", "--chown="]
    groupBy where
  word := fun option hoption t value => by rw [wordOption_eq hoption t value]
  value := by
    intro option hoption t value t' h
    obtain ⟨compression, -, rfl⟩ := valueOption_ok hoption h
    rfl
  other := by
    intro name hname value b
    simp_all [groupBy]
  known := by decide

theorem viewed_updateMode : Viewed (·.updateMode) ["--checksum", "--size-only", "--ignore-times"]
    updateModeBy where
  word := fun option hoption t value => by rw [wordOption_eq hoption t value]
  value := by
    intro option hoption t value t' h
    have hname : ∀ option ∈ valueOptions, ∀ mode, updateModeBy option.1 value mode = mode := by
      simp [valueOptions, updateModeBy]
    obtain ⟨compression, -, rfl⟩ := valueOption_ok hoption h
    exact (hname option hoption _).symm
  other := by
    intro name hname value b
    simp_all [updateModeBy]
  known := by decide

theorem viewed_writeMode : Viewed (·.writeMode) ["--inplace"] writeModeBy where
  word := fun option hoption t value => by rw [wordOption_eq hoption t value]
  value := by
    intro option hoption t value t' h
    have hname : ∀ option ∈ valueOptions, ∀ mode, writeModeBy option.1 value mode = mode := by
      simp [valueOptions, writeModeBy]
    obtain ⟨compression, -, rfl⟩ := valueOption_ok hoption h
    exact (hname option hoption _).symm
  other := by
    intro name hname value b
    simp_all [writeModeBy]
  known := by decide

theorem viewed_blockSize : Viewed (·.blockSize) ["--block-size="] blockSizeBy where
  word := fun option hoption t value => by rw [wordOption_eq hoption t value]
  value := by
    intro option hoption t value t' h
    obtain ⟨compression, -, rfl⟩ := valueOption_ok hoption h
    rfl
  other := by
    intro name hname value b
    simp_all [blockSizeBy]
  known := by decide

theorem viewed_chmodRules : Viewed (·.chmodRules) ["--chmod="] chmodBy where
  word := fun option hoption t value => by rw [wordOption_eq hoption t value]
  value := by
    intro option hoption t value t' h
    obtain ⟨compression, -, rfl⟩ := valueOption_ok hoption h
    rfl
  other := by
    intro name hname value b
    simp_all [chmodBy]
  known := by decide

theorem viewed_filterRules : Viewed (·.filterRules) ["--include=", "--exclude=", "--filter="]
    rulesBy where
  word := fun option hoption t value => by rw [wordOption_eq hoption t value]
  value := by
    intro option hoption t value t' h
    obtain ⟨compression, -, rfl⟩ := valueOption_ok hoption h
    rfl
  other := by
    intro name hname value b
    simp_all [rulesBy]
  known := by decide

theorem viewed_mode : Viewed (fun t => t.compression.map (·.mode))
    ["--compress-choice=", "--compress", "-z", "--compress-level=", "--skip-compress="] modeBy where
  word := by
    intro option hoption t value
    have hensure : t.ensureCompression.compression.map (·.mode) =
        some ((t.compression.map (·.mode)).getD .zlibx) := by
      unfold ensureCompression compressing
      cases t.compression <;> rfl
    revert option
    simp [wordOptions, modeBy, flist, hensure]
  value := by
    intro option hoption t value t' h
    obtain ⟨compression, hmode, rfl⟩ := valueOption_ok hoption h
    exact hmode
  other := by
    intro name hname value b
    simp_all [modeBy]
  known := by decide

end DaemonTransferArgs

/-! ## What the daemon has read -/

namespace LongOption

def given : LongOption → Bool
  | .word given _ => given
  | .values _ given => !given.isEmpty

theorem act_switch {names : List String} : ∀ {option : LongOption}, option.name ∈ names → ∀ b,
    option.act (fun name _ b => b || decide (name ∈ names)) b = (b || option.given)
  | .word given name, hname, b => by
      cases given with
      | false => exact (Bool.or_false b).symm
      | true =>
          have hmem : decide (name ∈ names) = true := decide_eq_true hname
          exact congrArg (b || ·) hmem
  | .values start given, hname, b => by
      have hmem : decide (start ∈ names) = true := decide_eq_true hname
      unfold act
      dsimp only
      rw [hmem]
      induction given generalizing b with
      | nil => exact (Bool.or_false b).symm
      | cons value given ih => rw [List.foldl_cons, ih hname]; simp [LongOption.given]

theorem foldl_switch {names : List String} : ∀ {options : List LongOption},
    (∀ option ∈ options, option.name ∈ names) → ∀ b,
    options.foldl (fun b option => option.act (fun name _ b => b || decide (name ∈ names)) b) b =
      (b || options.any (·.given))
  | [], _, b => (Bool.or_false b).symm
  | option :: options, h, b => by
      rw [List.foldl_cons, act_switch (h option List.mem_cons_self),
        foldl_switch (fun option hoption => h option (List.mem_cons_of_mem _ hoption)),
        List.any_cons, Bool.or_assoc]

end LongOption

theorem Viewed.switch {view : DaemonTransferArgs → Bool} {names : List String}
    {options : List LongOption} {t t' : DaemonTransferArgs}
    (h : Viewed view names fun name _ b => b || decide (name ∈ names))
    (hfold : options.foldlM (fun t option => option.apply t) t = .ok t') :
    view t' = (view t || (options.filter (·.name ∈ names)).any (·.given)) := by
  rw [h.foldlM hfold, LongOption.foldl_switch]
  intro option hoption
  exact of_decide_eq_true (List.mem_filter.mp hoption).2

namespace RemoteShellOptions

variable {options : RemoteShellOptions} {s : Bool} {t : DaemonTransferArgs}

/-- The flags of the daemon behind the arguments of a client. -/
structure FlagsRead (options : RemoteShellOptions) (t : DaemonTransferArgs) : Prop where
  delete : t.delete = decide (options.deleteMode ≠ .none)
  appendVerify : t.appendVerify = options.appendVerify
  executability : t.preserveExecutability = options.executability
  numericIds : t.flistOptions.numericIds = options.numericIds
  acls : t.flistOptions.acls = options.acls
  xattrs : t.flistOptions.xattrs = (options.xattrs || options.fakeSuper)
  fakeSuper : t.flistOptions.fakeSuper = options.fakeSuper
  atimes : t.flistOptions.atimes = options.atimes
  crtimes : t.flistOptions.crtimes = options.crtimes
  notShort : t.recursive = false ∧ t.dryRun = false ∧ t.wholeFile = false ∧ t.preserveTimes = false

theorem flagsRead (h : options.asked.foldlM (fun t option => option.apply t) { sender := s } = .ok t) :
    FlagsRead options t where
  delete := by
    have hread := (@viewed_switch (·.delete) ["--delete", "--delete-before", "--delete-during",
      "--delete-delay", "--delete-after"] (fun _ hoption t => by rw [wordOption_eq hoption t []])
      (fun _ _ _ _ _ _ _ => rfl) (by decide)).switch h
    rw [hread]
    change (false || options.deleteOptions.any (·.given)) = _
    cases hmode : options.deleteMode <;> simp [deleteOptions, LongOption.given, hmode]
  appendVerify := by
    have hread := (@viewed_switch (·.appendVerify) ["--append-verify"]
      (fun _ hoption t => by rw [wordOption_eq hoption t []]) (fun _ _ _ _ _ _ _ => rfl)
      (by decide)).switch h
    exact hread.trans (Bool.or_false _)
  executability := by
    have hread := (@viewed_switch (·.preserveExecutability) ["--executability"]
      (fun _ hoption t => by rw [wordOption_eq hoption t []]) (fun _ _ _ _ _ _ _ => rfl)
      (by decide)).switch h
    exact hread.trans (Bool.or_false _)
  numericIds := by
    have hread := (@viewed_switch (·.flistOptions.numericIds) ["--numeric-ids"]
      (fun _ hoption t => by rw [wordOption_eq hoption t []]) (fun _ _ _ _ _ _ _ => rfl)
      (by decide)).switch h
    exact hread.trans (Bool.or_false _)
  acls := by
    have hread := (@viewed_switch (·.flistOptions.acls) ["--acls"]
      (fun _ hoption t => by rw [wordOption_eq hoption t []]) (fun _ _ _ _ _ _ _ => rfl)
      (by decide)).switch h
    exact hread.trans (Bool.or_false _)
  xattrs := by
    have hread := (@viewed_switch (·.flistOptions.xattrs) ["--xattrs", "--fake-super"]
      (fun _ hoption t => by rw [wordOption_eq hoption t []]) (fun _ _ _ _ _ _ _ => rfl)
      (by decide)).switch h
    exact hread.trans (congrArg (options.xattrs || ·) (Bool.or_false _))
  fakeSuper := by
    have hread := (@viewed_switch (·.flistOptions.fakeSuper) ["--fake-super"]
      (fun _ hoption t => by rw [wordOption_eq hoption t []]) (fun _ _ _ _ _ _ _ => rfl)
      (by decide)).switch h
    exact hread.trans (Bool.or_false _)
  atimes := by
    have hread := (@viewed_switch (·.flistOptions.atimes) ["--atimes"]
      (fun _ hoption t => by rw [wordOption_eq hoption t []]) (fun _ _ _ _ _ _ _ => rfl)
      (by decide)).switch h
    exact hread.trans (Bool.or_false _)
  crtimes := by
    have hread := (@viewed_switch (·.flistOptions.crtimes) ["--crtimes"]
      (fun _ hoption t => by rw [wordOption_eq hoption t []]) (fun _ _ _ _ _ _ _ => rfl)
      (by decide)).switch h
    exact hread.trans (Bool.or_false _)
  notShort := by
    have hrecursive := (@viewed_switch (·.recursive) ["--recursive"]
      (fun _ hoption t => by rw [wordOption_eq hoption t []]) (fun _ _ _ _ _ _ _ => rfl)
      (by decide)).switch h
    have hdryRun := (@viewed_switch (·.dryRun) ["--dry-run"]
      (fun _ hoption t => by rw [wordOption_eq hoption t []]) (fun _ _ _ _ _ _ _ => rfl)
      (by decide)).switch h
    have hwholeFile := (@viewed_switch (·.wholeFile) ["--whole-file"]
      (fun _ hoption t => by rw [wordOption_eq hoption t []]) (fun _ _ _ _ _ _ _ => rfl)
      (by decide)).switch h
    have htimes := (@viewed_switch (·.preserveTimes) ["--times"]
      (fun _ hoption t => by rw [wordOption_eq hoption t []]) (fun _ _ _ _ _ _ _ => rfl)
      (by decide)).switch h
    exact ⟨hrecursive, hdryRun, hwholeFile, htimes⟩

/-! ### Owner and group -/

theorem act_raised {step : String → Text → Bool → Bool} {name : String}
    (hstep : ∀ value b, step name value b = true) (given : Bool) (b : Bool) :
    (LongOption.word given name).act step b = (b || given) := by
  cases given with
  | false => exact (Bool.or_false b).symm
  | true => exact (hstep [] b).trans (Bool.or_true b).symm

theorem act_values {step : String → Text → Bool → Bool} {start : String} {p : Text → Bool}
    (hstep : ∀ value b, step start value b = (b || p value)) : ∀ (given : List Text) (b : Bool),
    (LongOption.values start given).act step b =
      (b || given.any fun value => p (trimStartMatches start.toList value))
  | [], b => (Bool.or_false b).symm
  | value :: given, b => by
      rw [List.any_cons, ← Bool.or_assoc, ← hstep, ← act_values hstep given]
      rfl

theorem ownerBy_owner (value : Text) (b : Bool) : ownerBy "--owner" value b = true := by
  simp [ownerBy]

theorem ownerBy_usermap (value : Text) (b : Bool) : ownerBy "--usermap=" value b = (b || true) := by
  simp [ownerBy]

theorem ownerBy_chown (value : Text) (b : Bool) :
    ownerBy "--chown=" value b = (b || decide (chownUser value ≠ [])) := by
  simp [ownerBy]

theorem groupBy_group (value : Text) (b : Bool) : groupBy "--group" value b = true := by
  simp [groupBy]

theorem groupBy_groupmap (value : Text) (b : Bool) :
    groupBy "--groupmap=" value b = (b || true) := by
  simp [groupBy]

theorem groupBy_chown (value : Text) (b : Bool) :
    groupBy "--chown=" value b = (b || decide (chownGroup value ≠ [])) := by
  simp [groupBy]

theorem owner_read (h : options.asked.foldlM (fun t option => option.apply t) { sender := s } = .ok t) :
    t.flistOptions.preserveOwner = (options.preserveOwner || !options.userMaps.isEmpty ||
      options.chown.toList.any fun value =>
        decide (chownUser (trimStartMatches "--chown=".toList value) ≠ [])) := by
  refine (viewed_owner.foldlM h).trans ?_
  change (LongOption.values "--chown=" options.chown.toList).act ownerBy
    ((LongOption.values "--usermap=" options.userMaps).act ownerBy
      ((LongOption.word options.preserveOwner "--owner").act ownerBy false)) = _
  rw [act_raised ownerBy_owner, act_values ownerBy_usermap, act_values ownerBy_chown, Bool.false_or]
  cases options.userMaps <;> rfl

theorem group_read (h : options.asked.foldlM (fun t option => option.apply t) { sender := s } = .ok t) :
    t.flistOptions.preserveGroup = (options.preserveGroup || !options.groupMaps.isEmpty ||
      options.chown.toList.any fun value =>
        decide (chownGroup (trimStartMatches "--chown=".toList value) ≠ [])) := by
  refine (viewed_group.foldlM h).trans ?_
  change (LongOption.values "--chown=" options.chown.toList).act groupBy
    ((LongOption.values "--groupmap=" options.groupMaps).act groupBy
      ((LongOption.word options.preserveGroup "--group").act groupBy false)) = _
  rw [act_raised groupBy_group, act_values groupBy_groupmap, act_values groupBy_chown, Bool.false_or]
  cases options.groupMaps <;> rfl

/-! ### Modes -/

theorem updateMode_read
    (h : options.asked.foldlM (fun t option => option.apply t) { sender := s } = .ok t) :
    t.updateMode = if options.ignoreTimes then .ignoreTimes else if options.sizeOnly then .sizeOnly
      else if options.checksum then .checksum else .quickCheck := by
  refine (viewed_updateMode.foldlM h).trans ?_
  change (LongOption.word options.ignoreTimes "--ignore-times").act updateModeBy
    ((LongOption.word options.sizeOnly "--size-only").act updateModeBy
      ((LongOption.word options.checksum "--checksum").act updateModeBy .quickCheck)) = _
  cases options.ignoreTimes <;> cases options.sizeOnly <;> cases options.checksum <;> rfl

theorem writeMode_read
    (h : options.asked.foldlM (fun t option => option.apply t) { sender := s } = .ok t) :
    t.writeMode = if options.inplace then .inPlace else .atomic :=
  viewed_writeMode.foldlM h

theorem act_compressing {start : String} (hstart : start ∈ ["--compress-level=", "--skip-compress="]) :
    ∀ (given : List Text) (mode : Option RsyncDeflatedTokenMode),
      (LongOption.values start given).act modeBy mode =
        if given = [] then mode else some (mode.getD .zlibx)
  | [], _ => rfl
  | value :: given, mode => by
      have hstep : modeBy start (trimStartMatches start.toList value) mode =
          some (mode.getD .zlibx) := by
        rcases List.mem_cons.mp hstart with rfl | hstart
        · rfl
        · rw [List.mem_singleton.mp hstart]
          rfl
      have hcons : (LongOption.values start (value :: given)).act modeBy mode =
          (LongOption.values start given).act modeBy (some (mode.getD .zlibx)) := by
        rw [← hstep]
        rfl
      rw [hcons, act_compressing hstart, if_neg (List.cons_ne_nil _ _)]
      split <;> rfl

theorem mode_read (h : options.asked.foldlM (fun t option => option.apply t) { sender := s } = .ok t) :
    t.compression.map (·.mode) =
      (LongOption.values "--skip-compress=" options.skipCompress).act modeBy
        ((LongOption.values "--compress-level=" (options.compressLevel.map (Nat.toDigits 10)).toList).act
          modeBy ((LongOption.values "--compress-choice=" options.compressChoice.toList).act modeBy
            ((LongOption.word options.compress "--compress").act modeBy none))) :=
  viewed_mode.foldlM h

/-! ### Values -/

/-- No option of a row that was read has failed. -/
theorem ok_of_mem : ∀ {row : List LongOption} {t t' : DaemonTransferArgs},
    row.foldlM (fun t option => option.apply t) t = .ok t' →
    ∀ option ∈ row, ∃ t₁ t₂, option.apply t₁ = .ok t₂
  | [], _, _, _, _, hmem => absurd hmem List.not_mem_nil
  | first :: row, t, t', h, option, hmem => by
      obtain ⟨t₁, hfirst, hrest⟩ := except_bind_ok h
      rcases List.mem_cons.mp hmem with rfl | hmem
      · exact ⟨t, t₁, hfirst⟩
      · exact ok_of_mem hrest option hmem

/-- The one value of an option was good. -/
theorem effect_of_value {start : String} {value : Option Text} {v : Text}
    (h : options.asked.foldlM (fun t option => option.apply t) { sender := s } = .ok t)
    (hmem : LongOption.values start value.toList ∈ options.asked) (hv : value = some v) :
    ∃ t₁ t₂, effect start (trimStartMatches start.toList v) t₁ = .ok t₂ := by
  obtain ⟨t₁, t₂, happly⟩ := ok_of_mem h _ hmem
  subst hv
  obtain ⟨t₃, heffect, -⟩ := except_bind_ok happly
  exact ⟨t₁, t₃, heffect⟩

theorem choice_read {v : Text}
    (h : options.asked.foldlM (fun t option => option.apply t) { sender := s } = .ok t)
    (hv : options.compressChoice = some v) :
    ∃ mode, RsyncDeflatedTokenMode.fromChoice
      (some (trimStartMatches "--compress-choice=".toList v)) = some mode := by
  have hmem : LongOption.values "--compress-choice=" options.compressChoice.toList ∈ options.asked := by
    simp [asked, longOptions]
  obtain ⟨t₁, t₂, heffect⟩ := effect_of_value h hmem hv
  obtain ⟨mode, hmode, -⟩ := compressChoice_ok heffect
  exact ⟨mode, hmode⟩

theorem trim_toDigits (n : Nat) :
    trimStartMatches "--block-size=".toList (Nat.toDigits 10 n) = Nat.toDigits 10 n := by
  refine trimStartMatches_eq_self ?_
  rw [Bool.eq_false_iff]
  intro hprefix
  obtain ⟨rest, hrest⟩ := List.isPrefixOf_iff_prefix.mp hprefix
  exact Numeral.head_toDigits_ne_minus n _ hrest.symm

theorem parsePositiveUsize_toDigits {n m : Nat} (h : parsePositiveUsize (Nat.toDigits 10 n) = .ok m) :
    m = n := by
  unfold parsePositiveUsize at h
  cases hparse : Numeral.parseUnsigned 10 usizeMax (Nat.toDigits 10 n) with
  | none =>
      rw [hparse] at h
      cases h
  | some k =>
      have hk : k = n := by
        obtain ⟨⟨digits, rfl | hplus, -, hdigits, hvalue⟩, -⟩ :=
          (Numeral.parseUnsigned_eq_some_iff (by decide)).mp hparse
        · rw [← hvalue, Nat.ofDigitChars_toDigits (by decide) (by decide)]
        · have hdigit := Numeral.isDigit_of_mem_toDigits (by decide) (by decide : 10 ≤ 10) n '+'
            (hplus ▸ List.mem_cons_self)
          exact absurd hdigit Numeral.not_isDigit_plus
      rw [hparse, hk] at h
      by_cases hpos : 0 < n
      · rw [Option.filter_some_pos (by simpa using hpos)] at h
        exact (Except.ok.inj h).symm
      · rw [Option.filter_some_neg (by simpa using hpos)] at h
        cases h

theorem blockSize_read
    (h : options.asked.foldlM (fun t option => option.apply t) { sender := s } = .ok t) :
    t.blockSize = options.blockSize.getD (32 * 1024) := by
  have hread := viewed_blockSize.foldlM h
  cases hsize : options.blockSize with
  | none =>
      refine hread.trans ?_
      change (LongOption.values "--block-size=" (options.blockSize.map _).toList).act blockSizeBy
        (32 * 1024) = _
      rw [hsize]
      rfl
  | some n =>
      have hmem : LongOption.values "--block-size=" (options.blockSize.map (Nat.toDigits 10)).toList ∈
          options.asked := by
        simp [asked, longOptions]
      obtain ⟨t₁, t₂, heffect⟩ := effect_of_value h hmem (by rw [hsize]; rfl)
      obtain ⟨m, hm, -⟩ := except_bind_ok heffect
      refine hread.trans ?_
      change (LongOption.values "--block-size=" (options.blockSize.map _).toList).act blockSizeBy
        (32 * 1024) = _
      rw [hsize]
      change (parsePositiveUsize (trimStartMatches _ _)).toOption.getD 0 = n
      rw [trim_toDigits] at hm ⊢
      obtain rfl := parsePositiveUsize_toDigits hm
      rw [hm]
      rfl

theorem chmod_read
    (h : options.asked.foldlM (fun t option => option.apply t) { sender := s } = .ok t) :
    t.chmodRules = options.chmod.bind fun value =>
      (ChmodRules.parse (trimStartMatches "--chmod=".toList value)).toOption := by
  refine (viewed_chmodRules.foldlM h).trans ?_
  change (LongOption.values "--chmod=" options.chmod.toList).act chmodBy none = _
  cases options.chmod <;> rfl

/-! ### Rules -/

/-- No value would be trimmed. -/
def PlainValues (start : String) (values : List Text) : Prop :=
  ∀ value ∈ values, start.toList.isPrefixOf value = false

theorem act_rules {start : String} {rule : Text → Except ParseRuleError Rule}
    (hstep : ∀ value rules, rulesBy start value rules = pushValid rules (rule value)) :
    ∀ {given : List Text} (rules : RuleSet), PlainValues start given →
      (LongOption.values start given).act rulesBy rules =
        given.foldl (fun rules value => pushValid rules (rule value)) rules
  | [], _, _ => rfl
  | value :: given, rules, hplain => by
      have hrest := @act_rules start rule hstep given (pushValid rules (rule value))
        fun value hvalue => hplain value (List.mem_cons_of_mem _ hvalue)
      rw [List.foldl_cons, ← hrest, ← hstep]
      change (LongOption.values start given).act rulesBy (rulesBy start (trimStartMatches _ value) rules) = _
      rw [trimStartMatches_eq_self (hplain value List.mem_cons_self)]

theorem rules_read
    (h : options.asked.foldlM (fun t option => option.apply t) { sender := s } = .ok t)
    (hincludes : PlainValues "--include=" options.includes)
    (hexcludes : PlainValues "--exclude=" options.excludes)
    (hfilters : PlainValues "--filter=" options.filters) :
    t.filterRules = options.filters.foldl (fun rules value => pushValid rules (Rule.parseFilter value))
      (options.excludes.foldl (fun rules value => pushValid rules (Rule.new .exclude value))
        (options.includes.foldl (fun rules value => pushValid rules (Rule.new .include value)) {})) := by
  refine (viewed_filterRules.foldlM h).trans ?_
  change (LongOption.values "--filter=" options.filters).act rulesBy
    ((LongOption.values "--exclude=" options.excludes).act rulesBy
      ((LongOption.values "--include=" options.includes).act rulesBy {})) = _
  rw [@act_rules "--include=" (Rule.new .include) (fun _ _ => rfl) _ _ hincludes,
    @act_rules "--exclude=" (Rule.new .exclude) (fun _ _ => rfl) _ _ hexcludes,
    @act_rules "--filter=" Rule.parseFilter (fun _ _ => rfl) _ _ hfilters]

/-! ### The whole row -/

theorem viewed_paths : Viewed (·.paths) [] fun _ _ paths => paths where
  word := fun option hoption t value => by rw [wordOption_eq hoption t value]
  value := by
    intro option hoption t value t' h
    obtain ⟨compression, -, rfl⟩ := valueOption_ok hoption h
    rfl
  other := fun _ _ _ _ => rfl
  known := fun _ hname => absurd hname List.not_mem_nil

theorem viewed_sender : Viewed (·.sender) [] fun _ _ sender => sender where
  word := fun option hoption t value => by rw [wordOption_eq hoption t value]
  value := by
    intro option hoption t value t' h
    obtain ⟨compression, -, rfl⟩ := valueOption_ok hoption h
    rfl
  other := fun _ _ _ _ => rfl
  known := fun _ hname => absurd hname List.not_mem_nil

theorem filter_nil (row : List LongOption) : row.filter (fun option => decide (option.name ∈ [])) = [] :=
  List.filter_eq_nil_iff.mpr fun option _ => by simp

theorem shortArgs_start : dashes.isPrefixOf options.shortArgs = false := by
  rw [shortArgs_eq, Bool.eq_false_iff]
  intro hprefix
  obtain ⟨rest, hrest⟩ := List.isPrefixOf_iff_prefix.mp hprefix
  refine options.notMem_letters '-' (by simp) ?_
  rw [← (List.cons.inj hrest).2]
  exact List.mem_cons_self

theorem applyOptionArg_shortArgs (t : DaemonTransferArgs) :
    t.applyOptionArg options.shortArgs = .ok (t.applyShortFlags options.shortArgs) := by
  have hwords : wordOptions.find? (fun option => option.1.toList = options.shortArgs) = none := by
    rw [List.find?_eq_none]
    intro option hoption hname
    rw [decide_eq_true_eq] at hname
    rcases dashes_wordOptions option hoption with hz | hdashes
    · have hz' : 'z' ∈ options.letters := by
        rw [hz, shortArgs_eq] at hname
        rw [← (List.cons.inj hname).2]
        exact List.mem_cons_self
      exact options.notMem_letters 'z' (by simp) hz'
    · rw [hname, shortArgs_start] at hdashes
      exact Bool.false_ne_true hdashes
  have hvalues : valueOptions.find? (fun option => option.1.toList.isPrefixOf options.shortArgs) =
      none := by
    rw [List.find?_eq_none]
    intro option hoption hprefix
    have hdashes := (List.isPrefixOf_iff_prefix.mp (dashes_valueOptions option hoption)).trans
      (List.isPrefixOf_iff_prefix.mp hprefix)
    exact Bool.false_ne_true (shortArgs_start.symm.trans (List.isPrefixOf_iff_prefix.mpr hdashes))
  unfold applyOptionArg
  rw [hwords, hvalues]
  rfl

theorem applyShortFlags_shortArgs (t : DaemonTransferArgs) :
    t.applyShortFlags options.shortArgs = { t with
      recursive := t.recursive || options.recursive
      dryRun := t.dryRun || options.dryRun
      wholeFile := t.wholeFile || options.wholeFile
      preserveTimes := t.preserveTimes || options.preserveTimes } := by
  have hletters : (options.shortArgs.dropWhile (· = '-')) = options.letters := by
    rw [shortArgs_eq, List.dropWhile_cons_of_pos (by simp)]
    refine List.dropWhile_eq_self_iff.mpr fun hpos => ?_
    have hne := options.notMem_letters '-' (by simp)
    simp only [decide_eq_true_eq]
    intro hdash
    exact hne (hdash ▸ List.getElem_mem hpos)
  obtain ⟨hr, hn, hW, ht⟩ := options.mem_letters
  have hflags : ¬ (['-'].isPrefixOf options.shortArgs = false ∨
      ['-', '-'].isPrefixOf options.shortArgs = true) := by
    rintro (hdash | hdashes)
    · exact Bool.false_ne_true hdash.symm
    · exact Bool.false_ne_true (shortArgs_start.symm.trans hdashes)
  unfold applyShortFlags
  rw [if_neg hflags, hletters, foldl_applyShortFlag t (options.notMem_letters 'c' (by simp))
      (options.notMem_letters 'z' (by simp))]
  simp only [hr, hn, hW, ht, Bool.decide_eq_true]

theorem name_of_mem_args {option : LongOption} {text : Text} (hplain : option.Plain)
    (htext : '=' ∉ text) (hmem : text ∈ option.args) :
    option.name.toList = text ∧ option.given = true := by
  cases option with
  | word given name =>
      cases given with
      | false => cases hmem
      | true => exact ⟨(List.mem_singleton.mp hmem).symm, rfl⟩
  | values start given =>
      obtain ⟨value, -, rfl⟩ := List.mem_map.mp hmem
      exact absurd (List.mem_append_left _ hplain.2.1) htext

theorem sender_mem (path : Text) :
    "--sender".toList ∈ options.asked.flatMap (·.args) ++ options.shortArgs :: ['.'] :: [path] ↔
      options.direction = .pull ∨ path = "--sender".toList := by
  have hshort : "--sender".toList ≠ options.shortArgs := by
    intro h
    have hstart : dashes.isPrefixOf options.shortArgs = false := shortArgs_start
    rw [← h] at hstart
    exact absurd hstart (by decide)
  have hdot : "--sender".toList ≠ ['.'] := by decide
  have hasked : "--sender".toList ∈ options.asked.flatMap (·.args) ↔ options.direction = .pull := by
    have hfilter : options.asked.filter (·.name = "--sender") =
        [.word (decide (options.direction = .pull)) "--sender"] := rfl
    constructor
    · intro hmem
      obtain ⟨option, hoption, hargs⟩ := List.mem_flatMap.mp hmem
      obtain ⟨hname, hgiven⟩ := name_of_mem_args (options.plain_asked option hoption) (by decide) hargs
      have hin : option ∈ options.asked.filter (·.name = "--sender") :=
        List.mem_filter.mpr ⟨hoption, decide_eq_true (String.toList_inj.mp hname)⟩
      rw [hfilter, List.mem_singleton] at hin
      rw [hin] at hgiven
      exact of_decide_eq_true hgiven
    · intro hpull
      refine List.mem_flatMap.mpr ⟨.word true "--sender", ?_, List.mem_singleton.mpr rfl⟩
      simp [asked, serverArgs, hpull]
  rw [List.mem_append, hasked, List.mem_cons, List.mem_cons, List.mem_singleton]
  simp only [hshort, hdot, false_or, eq_comm (a := path)]

theorem parse_argv (hremote : options.remoteOptions = []) {path : Text}
    (h : parse ((options.protocol31Argv [path]).drop 1) = .ok t) :
    t.sender = (decide (options.direction = .pull) || decide (path = "--sender".toList)) ∧
    ∃ t₁, options.asked.foldlM (fun t option => option.apply t) { sender := t.sender } = .ok t₁ ∧
      t = { t₁ with
        paths := [path]
        recursive := options.recursive
        dryRun := options.dryRun
        wholeFile := options.wholeFile
        preserveTimes := options.preserveTimes } := by
  rw [protocol31Argv_eq options hremote] at h
  change parse (options.asked.flatMap (·.args) ++ options.shortArgs :: ['.'] :: [path]) = .ok t at h
  unfold parse at h
  split at h
  · cases h
  · obtain ⟨t₂, happlied, hfinal⟩ := except_bind_ok h
    rw [LongOption.applyArgs_flatMap options.plain_asked] at happlied
    obtain ⟨t₁, hasked, hrest⟩ := except_bind_ok happlied
    have hpaths : t₁.paths = [] := by
      refine (viewed_paths.foldlM hasked).trans ?_
      rw [filter_nil]
      rfl
    have hsender : t₁.sender = decide ("--sender".toList ∈
        options.asked.flatMap (·.args) ++ options.shortArgs :: ['.'] :: [path]) := by
      refine (viewed_sender.foldlM hasked).trans ?_
      rw [filter_nil]
      rfl
    obtain ⟨hrecursive, hdryRun, hwholeFile, htimes⟩ := (flagsRead hasked).notShort
    have hshort : options.shortArgs ≠ ['.'] := by
      rw [shortArgs_eq]
      intro heq
      exact absurd (List.cons.inj heq).1 (by decide)
    rw [LongOption.applyArgs_cons hshort, applyOptionArg_shortArgs] at hrest
    change applyArgs (t₁.applyShortFlags options.shortArgs) (['.'] :: [path]) = .ok t₂ at hrest
    rw [applyArgs, if_pos rfl, applyShortFlags_shortArgs, hpaths, hrecursive, hdryRun, hwholeFile,
      htimes] at hrest
    rw [← Except.ok.inj hrest] at hfinal
    have ht : t = { t₁ with
        paths := [path]
        recursive := options.recursive
        dryRun := options.dryRun
        wholeFile := options.wholeFile
        preserveTimes := options.preserveTimes } :=
      (Except.ok.inj hfinal).symm.trans (if_neg (List.cons_ne_nil path []))
    have hsame : t.sender = t₁.sender := by rw [ht]
    rw [hsame, hsender]
    refine ⟨?_, t₁, hasked, ht⟩
    rw [← Bool.decide_or]
    exact decide_eq_decide.mpr (sender_mem path)

end RemoteShellOptions

end RsyncWin
