import RsyncWin.Fs.WalkEnds

/-!
# What a merge file decides

A merge file is read where the walk opens the directory it is in, and its rules
are handed down from there. If every dir-merge directive names one component,
what the merge file of a directory says is nothing to the rest of the tree.
-/

namespace RsyncWin.Fs

open ByteString

/-- No node is a symlink, nor has a target as one. -/
def LinkFreeTree (fs : MemoryFileSystem) : Prop :=
  ∀ key node, fs.get key = some node →
    node.metadata.fileType ≠ .symlink ∧ node.metadata.symlinkTarget = none

theorem LinkFreeTree.noFollow {fs : MemoryFileSystem} (h : LinkFreeTree fs)
    (symlinkMode : SymlinkMode) : NoFollow fs symlinkMode := by
  intro key node hnode
  obtain ⟨hsym, htarget⟩ := h key node hnode
  rw [if_neg hsym]
  exact htarget

theorem WellFormed.linkFreeTree {fs : MemoryFileSystem} (h : WellFormed fs)
    (hfree : MemoryFileSystem.SymlinkFree fs.content) : LinkFreeTree fs := by
  intro key node hnode
  have hsym : node.metadata.fileType ≠ .symlink :=
    (hfree.clear key).not_symlink (List.prefix_refl key) hnode
  exact ⟨hsym, h.targets key node hnode hsym⟩

/-- Every entry below another entry has its parent among the entries, a directory. -/
theorem parents_of_linkFree {fs : MemoryFileSystem} (hfree : LinkFreeTree fs) {stack : Nat}
    {root : PathBuf} {options : RelativeEntryOptions} {entries : Entries}
    (h : relativeEntries stack fs root options = .ok entries) {r : Key} {n : Bytes}
    {e : WalkEntry} (hr : r ≠ []) (he : entries[r ++ [n]]? = some e) :
    ∃ e', entries[r]? = some e' ∧ e'.metadata.fileType = .directory := by
  obtain ⟨key, bytes, hroot, -⟩ := directory_of_relativeEntries h
  obtain ⟨htree, -⟩ := treeEntries_relativeEntries (hfree.noFollow options.symlinkMode) hroot h
  exact htree.parent r n e hr he

/-! ## The directives -/

/-- A dir-merge directive of the rules, or of a merge file that another one names. -/
inductive MergeDirective (fs : MemoryFileSystem) (rules : RuleSet) : Rule → Prop
  | given {rule : Rule} : rule ∈ rules.rules → rule.action = .dirMerge →
      MergeDirective fs rules rule
  | merged {directive rule : Rule} {current : PathBuf} {bytes : Bytes} {parsed : List Rule} :
      MergeDirective fs rules directive →
      fs.readFile (current.join (patternPath directive.pattern)) = .ok bytes →
      Rule.parseFilterFile bytes false .exclude = .ok parsed →
      rule ∈ parsed → rule.action = .dirMerge → MergeDirective fs rules rule

/-- Every one of them names a single component. -/
def SingleMerges (fs : MemoryFileSystem) (rules : RuleSet) : Prop :=
  ∀ rule, MergeDirective fs rules rule → (patternPath rule.pattern).length = 1

/-- The rules that are active somewhere have no other directives. -/
def Directed (fs : MemoryFileSystem) (rules active : RuleSet) : Prop :=
  ∀ rule ∈ active.rules, rule.action = .dirMerge → MergeDirective fs rules rule

section Directives

variable {fs : MemoryFileSystem} {rules : RuleSet}

theorem directed_push {active : RuleSet} {rule : Rule} (h : Directed fs rules active)
    (hrule : rule.action = .dirMerge → MergeDirective fs rules rule) :
    Directed fs rules (active.push rule) := by
  intro other hmem haction
  unfold RuleSet.push at hmem
  split at hmem
  · cases hmem
  · rcases List.mem_append.mp hmem with hmem | hmem
    · exact h other hmem haction
    · obtain rfl := List.mem_singleton.mp hmem
      exact hrule haction

theorem directed_pushes {active : RuleSet} {parsed : List Rule} (h : Directed fs rules active)
    (hparsed : ∀ rule ∈ parsed, rule.action = .dirMerge → MergeDirective fs rules rule) :
    Directed fs rules (parsed.foldl RuleSet.push active) := by
  induction parsed generalizing active with
  | nil => exact h
  | cons rule parsed ih =>
      rw [List.forall_mem_cons] at hparsed
      exact ih (directed_push h hparsed.1) hparsed.2

theorem directed_mergeRules {current : PathBuf} {given : List Rule}
    (hgiven : ∀ rule ∈ given, rule.action = .dirMerge → MergeDirective fs rules rule)
    {merged merged' : RuleSet × Bool} (h : Directed fs rules merged.1)
    (hmerge : mergeRules fs current given merged = .ok merged') :
    Directed fs rules merged'.1 := by
  induction given generalizing merged with
  | nil =>
      cases hmerge
      exact h
  | cons rule given ih =>
      rw [List.forall_mem_cons] at hgiven
      rw [mergeRules] at hmerge
      by_cases haction : rule.action = .dirMerge
      · rw [if_neg (not_not_intro haction)] at hmerge
        split at hmerge
        · exact ih hgiven.2 h hmerge
        · cases hmerge
        · next bytes hread =>
            split at hmerge
            · cases hmerge
            · next parsed hparse =>
                refine ih hgiven.2 (directed_pushes h ?_) hmerge
                intro other hmem hother
                exact .merged (hgiven.1 haction) hread hparse hmem hother
      · rw [if_pos haction] at hmerge
        exact ih hgiven.2 h hmerge

/-- The rules of a directory are as those it was given. -/
theorem directed_load {current : PathBuf} {inherited directoryRules : Option RuleSet}
    (h : ∀ active, inherited = some active → Directed fs rules active)
    (hload : loadDirMergeRules fs current inherited = .ok directoryRules) :
    ∀ active, directoryRules.or inherited = some active → Directed fs rules active := by
  intro active hactive
  cases inherited with
  | none =>
      cases hload
      cases hactive
  | some given =>
      have hgiven := h given rfl
      simp only [loadDirMergeRules, bind, Except.bind] at hload
      cases hmerge : mergeRules fs current given.rules (given, false) with
      | error e =>
          simp only [hmerge] at hload
          cases hload
      | ok merged =>
          simp only [hmerge] at hload
          cases hload
          have hmerged := directed_mergeRules hgiven hgiven hmerge
          split at hactive
          · cases hactive
            exact hmerged
          · cases hactive
            exact hgiven

end Directives

/-! ## A walk stays below where it is -/

theorem collectListed_outside {fs : MemoryFileSystem} {root : PathBuf} {relativeRoot k : Key}
    {options : RelativeEntryOptions} {descend : PathBuf → Key → Entries → Except FsError Entries}
    (hk : ∀ n, ¬ relativeRoot ++ [n] <+: k)
    (hdescend : ∀ childRoot n before after,
      descend childRoot (relativeRoot ++ [n]) before = .ok after → after[k]? = before[k]?) :
    ∀ {listed : List WalkEntry} {before after : Entries},
      collectListed fs root relativeRoot options descend listed before = .ok after →
      after[k]? = before[k]? := by
  have hne : ∀ n, k ≠ relativeRoot ++ [n] := by
    rintro n rfl
    exact hk n (List.prefix_refl _)
  have hentry : ∀ {original : WalkEntry} {before after : Entries},
      collectEntry fs root relativeRoot options descend original before = .ok after →
      after[k]? = before[k]? := by
    intro original before after h
    unfold collectEntry at h
    split at h
    · cases h
    · dsimp only at h
      split at h
      · cases h
      · cases h
        rfl
      · cases h
        rw [getElem?_insert_entries, if_neg (hne _)]
      · rw [hdescend _ _ _ _ h, getElem?_insert_entries, if_neg (hne _)]
  intro listed
  induction listed with
  | nil =>
      intro before after h
      cases h
      rfl
  | cons original listed ih =>
      intro before after h
      rw [collectListed] at h
      cases hfirst : collectEntry fs root relativeRoot options descend original before with
      | error e => simp [hfirst, bind, Except.bind] at h
      | ok middle =>
          simp only [hfirst, bind, Except.bind] at h
          rw [ih h, hentry hfirst]

theorem collect_outside {fs : MemoryFileSystem} {root : PathBuf} {stack : Nat}
    {current : PathBuf} {relative k : Key} {options : RelativeEntryOptions}
    {before after : Entries} (hk : ∀ n, ¬ relative ++ [n] <+: k)
    (h : collectRelativeEntries fs root stack current relative options before = .ok after) :
    after[k]? = before[k]? := by
  induction stack generalizing current relative options before after with
  | zero => cases h
  | succ stack ih =>
      unfold collectRelativeEntries at h
      cases hload : loadDirMergeRules fs current options.filterRules with
      | error e => simp [hload, bind, Except.bind] at h
      | ok directoryRules =>
          cases hlist : fs.list current with
          | error e => simp [hload, hlist, bind, Except.bind] at h
          | ok listed =>
              simp only [hload, hlist, bind, Except.bind] at h
              refine collectListed_outside hk ?_ h
              intro childRoot n before after hdescend
              refine ih ?_ hdescend
              intro m hm
              exact hk n ((List.prefix_append _ [m]).trans hm)

/-! ## Another content -/

/-- The two file systems differ in one file. -/
structure ContentChanged (fs fs' : MemoryFileSystem) (key : Key) : Prop where
  others : ∀ k, k ≠ key → fs'.get k = fs.get k
  before : ∃ node, fs.get key = some node ∧ node.metadata.fileType = .file
  after : ∃ node, fs'.get key = some node ∧ node.metadata.fileType = .file

/-- Strictly below a directory. -/
def Beneath (directory key : Key) : Prop := ∃ n q, key = directory ++ n :: q

/-- The entries of walks at `key` are the same but below `directory`. -/
def SameElsewhere (key directory : Key) (entries entries' : Entries) : Prop :=
  ∀ r, ¬ Beneath directory (key ++ r) → entries'[r]? = entries[r]?

section Change

variable {fs fs' : MemoryFileSystem} {directory : Key} {n : Bytes}

theorem SameElsewhere.insert {key : Key} {entries entries' : Entries}
    (h : SameElsewhere key directory entries entries') (relative : Key) (e : WalkEntry) :
    SameElsewhere key directory (entries.insert relative e) (entries'.insert relative e) := by
  intro r hr
  rw [getElem?_insert_entries, getElem?_insert_entries]
  split
  · rfl
  · exact h r hr

theorem readFile_congr (hfree : LinkFreeTree fs) {path : PathBuf}
    (h : ∀ key, path.names = some key → fs'.get key = fs.get key) :
    fs'.readFile path = fs.readFile path := by
  unfold MemoryFileSystem.readFile
  cases hnames : path.names with
  | none => rw [MemoryFileSystem.normalizePortablePath_of_none hnames]; rfl
  | some key =>
      rw [MemoryFileSystem.normalizePortablePath_of_names hnames]
      show fs'.readFileAt _ key = fs.readFileAt _ key
      rw [MemoryFileSystem.readFileAt, MemoryFileSystem.readFileAt, h key hnames]
      cases hget : fs.get key with
      | none => rfl
      | some node =>
          have hsym := (hfree key node hget).1
          simp only [if_neg hsym]

/-- What can be read is what some node holds. -/
theorem node_of_readFile (hfree : LinkFreeTree fs) {path : PathBuf} {bytes : Bytes}
    (h : fs.readFile path = .ok bytes) : ∃ key node, fs.get key = some node ∧ node.bytes = bytes := by
  cases hnames : path.names with
  | none =>
      unfold MemoryFileSystem.readFile at h
      rw [MemoryFileSystem.normalizePortablePath_of_none hnames] at h
      cases h
  | some key =>
      have hsym : ∀ b, fs.content key ≠ some (.symlink, b) := by
        intro b hb
        obtain ⟨node, hget, hnode⟩ := MemoryFileSystem.get_of_content hb
        exact (hfree key node hget).1 (congrArg Prod.fst hnode)
      obtain ⟨node, hget, hnode⟩ := MemoryFileSystem.get_of_content
        (MemoryFileSystem.content_of_readFile hnames hsym h)
      exact ⟨key, node, hget, congrArg Prod.snd hnode⟩

/-- One component leads to the directory itself or to something directly in it. -/
theorem names_join_single {base pattern : PathBuf} {key k : Key} (hbase : base.names = some key)
    (hsingle : pattern.length = 1) (h : (base.join pattern).names = some k) :
    k = key ∨ ∃ name, k = key ++ [name] := by
  obtain ⟨c, rfl⟩ := List.length_eq_one_iff.mp hsingle
  have hnames : ∀ p, PathBuf.names [c] = some p → k = key ++ p := by
    intro p hp
    rw [names_join hbase hp] at h
    exact (Option.some.inj h).symm
  cases c with
  | curDir =>
      left
      rw [hnames [] rfl, List.append_nil]
  | normal name => exact .inr ⟨name, hnames [name] rfl⟩
  | rootDir => cases h
  | parentDir =>
      have hnone : (base.join [.parentDir]).names = none := by
        unfold PathBuf.join
        rw [if_neg (by simp)]
        split
        · rfl
        · rw [names_append, hbase]
          rfl
      rw [hnone] at h
      cases h

/-- Outside the directory, merge files say what they said. -/
theorem mergeRules_congr (hfree : LinkFreeTree fs)
    (hchange : ContentChanged fs fs' (directory ++ [n])) {current : PathBuf} {key : Key}
    (hcurrent : current.names = some key) (hkey : ¬ directory <+: key) {given : List Rule}
    (hsingle : ∀ rule ∈ given, rule.action = .dirMerge → (patternPath rule.pattern).length = 1)
    (merged : RuleSet × Bool) :
    mergeRules fs' current given merged = mergeRules fs current given merged := by
  induction given generalizing merged with
  | nil => rfl
  | cons rule given ih =>
      rw [List.forall_mem_cons] at hsingle
      rw [mergeRules, mergeRules]
      by_cases haction : rule.action = .dirMerge
      · have hread : fs'.readFile (current.join (patternPath rule.pattern)) =
            fs.readFile (current.join (patternPath rule.pattern)) := by
          refine readFile_congr hfree fun k hk => hchange.others k ?_
          rintro rfl
          rcases names_join_single hcurrent (hsingle.1 haction) hk with h | ⟨name, h⟩
          · exact hkey (h ▸ List.prefix_append directory [n])
          · obtain ⟨rfl, -⟩ := List.append_inj' h rfl
            exact hkey (List.prefix_refl _)
        rw [if_neg (not_not_intro haction), if_neg (not_not_intro haction), hread]
        split
        · exact ih hsingle.2 merged
        · rfl
        · split
          · rfl
          · exact ih hsingle.2 _
      · rw [if_pos haction, if_pos haction]
        exact ih hsingle.2 merged

theorem loadDirMergeRules_congr (hfree : LinkFreeTree fs)
    (hchange : ContentChanged fs fs' (directory ++ [n])) {current : PathBuf} {key : Key}
    (hcurrent : current.names = some key) (hkey : ¬ directory <+: key) {rules : RuleSet}
    (hsingle : SingleMerges fs rules) {inherited : Option RuleSet}
    (hdirected : ∀ active, inherited = some active → Directed fs rules active) :
    loadDirMergeRules fs' current inherited = loadDirMergeRules fs current inherited := by
  cases inherited with
  | none => rfl
  | some given =>
      have hgiven : ∀ rule ∈ given.rules, rule.action = .dirMerge →
          (patternPath rule.pattern).length = 1 :=
        fun rule hmem haction => hsingle rule (hdirected given rfl rule hmem haction)
      simp only [loadDirMergeRules, mergeRules_congr hfree hchange hcurrent hkey hgiven]

/-- A node that is no link is visited without looking at the file system. -/
theorem visitEntry_congr {root : PathBuf} {options : RelativeEntryOptions} {relative : Key}
    {original : WalkEntry} (hsym : original.metadata.fileType ≠ .symlink) :
    visitEntry fs' root options relative original = visitEntry fs root options relative original := by
  unfold visitEntry applySymlinkMode
  rw [if_pos hsym, if_pos hsym]
  simp only [bind, Except.bind, onSameFileSystem_eq]

/-- A node is gone down into under its own path. -/
theorem visitEntry_path {root : PathBuf} {options : RelativeEntryOptions} {relative key : Key}
    {node : MemoryNode} (hsym : node.metadata.fileType ≠ .symlink)
    (htarget : node.metadata.symlinkTarget = none) {entry : WalkEntry} {childRoot : PathBuf}
    (h : visitEntry fs root options relative (nodeEntry key node) =
      .ok (some (entry, some childRoot))) : childRoot = key.path := by
  obtain ⟨happly, hchild⟩ := visitEntry_child h
  have hentry : applySymlinkMode fs (nodeEntry key node) options.symlinkMode =
      .ok (some (nodeEntry key node)) := if_pos hsym
  obtain rfl : nodeEntry key node = entry :=
    Option.some.inj (Except.ok.inj (hentry.symm.trans happly))
  have hnone : followedDirectoryWalkPath (nodeEntry key node) options.symlinkMode = none := by
    unfold followedDirectoryWalkPath
    split
    · rfl
    · rw [show (nodeEntry key node).metadata.symlinkTarget = none from htarget]
  rw [hchild, hnone]
  rfl

/-- The listed entries of a directory, visited in both file systems. -/
theorem same_listed (hfree : LinkFreeTree fs) {root : PathBuf} {options : RelativeEntryOptions}
    {key relative : Key} {descend descend' : PathBuf → Key → Entries → Except FsError Entries}
    (hdescend : ∀ name before before' after after',
      SameElsewhere key directory before before' →
      descend (Key.path (key ++ relative ++ [name])) (relative ++ [name]) before = .ok after →
      descend' (Key.path (key ++ relative ++ [name])) (relative ++ [name]) before' = .ok after' →
      SameElsewhere key directory after after') :
    ∀ {listed : List WalkEntry}, (∀ original ∈ listed, ∃ name node,
        fs.get (key ++ relative ++ [name]) = some node ∧
          original = nodeEntry (key ++ relative ++ [name]) node) →
      ∀ {before before' after after' : Entries}, SameElsewhere key directory before before' →
      collectListed fs root relative options descend listed before = .ok after →
      collectListed fs' root relative options descend' listed before' = .ok after' →
      SameElsewhere key directory after after' := by
  intro listed
  induction listed with
  | nil =>
      intro _ before before' after after' hsame h h'
      cases h
      cases h'
      exact hsame
  | cons original listed ih =>
      intro hlisted before before' after after' hsame h h'
      rw [List.forall_mem_cons] at hlisted
      obtain ⟨⟨name, node, hnode, rfl⟩, hmore⟩ := hlisted
      obtain ⟨hsym, htarget⟩ := hfree _ node hnode
      rw [collectListed] at h h'
      cases hfirst : collectEntry fs root relative options descend
          (nodeEntry (key ++ relative ++ [name]) node) before with
      | error e =>
          simp only [hfirst, bind, Except.bind] at h
          cases h
      | ok middle =>
          cases hfirst' : collectEntry fs' root relative options descend'
              (nodeEntry (key ++ relative ++ [name]) node) before' with
          | error e =>
              simp only [hfirst', bind, Except.bind] at h'
              cases h'
          | ok middle' =>
              simp only [hfirst, bind, Except.bind] at h
              simp only [hfirst', bind, Except.bind] at h'
              refine ih hmore ?_ h h'
              -- the first entry alone
              unfold collectEntry at hfirst hfirst'
              rw [show (nodeEntry (key ++ relative ++ [name]) node).path.fileName = some name from
                fileName_key_concat (key ++ relative) name] at hfirst hfirst'
              dsimp only at hfirst hfirst'
              have hvisits : visitEntry fs' root options (relative ++ [name])
                  (nodeEntry (key ++ relative ++ [name]) node) =
                    visitEntry fs root options (relative ++ [name])
                      (nodeEntry (key ++ relative ++ [name]) node) := visitEntry_congr hsym
              rw [hvisits] at hfirst'
              cases hvisit : visitEntry fs root options (relative ++ [name])
                  (nodeEntry (key ++ relative ++ [name]) node) with
              | error e =>
                  simp only [hvisit] at hfirst
                  cases hfirst
              | ok visited =>
                  rcases visited with - | ⟨entry, - | childRoot⟩
                  · simp only [hvisit] at hfirst hfirst'
                    cases hfirst
                    cases hfirst'
                    exact hsame
                  · simp only [hvisit] at hfirst hfirst'
                    cases hfirst
                    cases hfirst'
                    exact hsame.insert _ _
                  · simp only [hvisit] at hfirst hfirst'
                    obtain rfl := visitEntry_path hsym htarget hvisit
                    exact hdescend name _ _ _ _ (hsame.insert _ _) hfirst hfirst'

/-- Induction on the stack: at and below the directory both walks stay below it,
elsewhere they open the same directories under the same rules. -/
theorem same_collect (hfree : LinkFreeTree fs)
    (hchange : ContentChanged fs fs' (directory ++ [n])) {rules : RuleSet}
    (hsingle : SingleMerges fs rules) {root : PathBuf} {key : Key} (stack : Nat) :
    ∀ {current : PathBuf} {relative : Key} {options : RelativeEntryOptions}
      {before before' after after' : Entries}, current.names = some (key ++ relative) →
      (∀ active, options.filterRules = some active → Directed fs rules active) →
      SameElsewhere key directory before before' →
      collectRelativeEntries fs root stack current relative options before = .ok after →
      collectRelativeEntries fs' root stack current relative options before' = .ok after' →
      SameElsewhere key directory after after' := by
  induction stack with
  | zero =>
      intro current relative options before before' after after' _ _ _ h
      cases h
  | succ stack ih =>
      intro current relative options before before' after after' hcurrent hdirected hsame h h'
      by_cases hbelow : directory <+: key ++ relative
      · obtain ⟨rest, hrest⟩ := hbelow
        intro r hr
        have hstay : ∀ name, ¬ relative ++ [name] <+: r := by
          rintro name ⟨q, rfl⟩
          apply hr
          cases rest with
          | nil =>
              rw [List.append_nil] at hrest
              exact ⟨name, q, by rw [hrest]; simp⟩
          | cons m rest =>
              refine ⟨m, rest ++ name :: q, ?_⟩
              have hsplit : directory ++ m :: (rest ++ name :: q) =
                  directory ++ m :: rest ++ name :: q := by simp
              rw [hsplit, hrest]
              simp
        rw [collect_outside hstay h, collect_outside hstay h']
        exact hsame r hr
      · unfold collectRelativeEntries at h h'
        rw [loadDirMergeRules_congr hfree hchange hcurrent hbelow hsingle hdirected] at h'
        have hhere : ∀ name, key ++ relative ++ [name] ≠ directory ++ [n] := by
          intro name heq
          obtain ⟨rfl, -⟩ := List.append_inj' heq rfl
          exact hbelow (List.prefix_refl _)
        have hself : key ++ relative ≠ directory ++ [n] :=
          fun heq => hbelow (heq ▸ List.prefix_append directory [n])
        rw [MemoryFileSystem.list_congr hcurrent (hchange.others _ hself)
          fun name => hchange.others _ (hhere name)] at h'
        cases hload : loadDirMergeRules fs current options.filterRules with
        | error e => simp [hload, bind, Except.bind] at h
        | ok directoryRules =>
            cases hlist : fs.list current with
            | error e => simp [hload, hlist, bind, Except.bind] at h
            | ok listed =>
                simp only [hload, hlist, bind, Except.bind] at h h'
                have hactive := directed_load hdirected hload
                refine same_listed hfree ?_ ?_ hsame h h'
                · intro name before before' after after' hsame h h'
                  refine ih ?_ hactive hsame h h'
                  rw [names_key, List.append_assoc]
                · intro original hmem
                  obtain ⟨key', -, hkey', -, rfl⟩ := MemoryFileSystem.list_eq_ok hlist
                  obtain rfl := Option.some.inj (hcurrent.symm.trans hkey')
                  obtain ⟨⟨name, node⟩, hchild, rfl⟩ := List.mem_map.mp hmem
                  exact ⟨name, node, MemoryFileSystem.mem_children.mp hchild, rfl⟩

/-- **A merge file decides about its own directory only.** -/
theorem same_relativeEntries (hfree : LinkFreeTree fs)
    (hchange : ContentChanged fs fs' (directory ++ [n])) {root : PathBuf} {key : Key}
    (hroot : root.names = some key) {options : RelativeEntryOptions}
    (hsingle : ∀ rules, options.filterRules = some rules → SingleMerges fs rules)
    {stack stack' : Nat} {entries entries' : Entries}
    (h : relativeEntries stack fs root options = .ok entries)
    (h' : relativeEntries stack' fs' root options = .ok entries') :
    SameElsewhere key directory entries entries' := by
  have hlift : ∀ {fs : MemoryFileSystem} {least : Nat} {entries : Entries},
      relativeEntries least fs root options = .ok entries → ∀ more, least ≤ more →
      collectRelativeEntries fs root more root [] options ∅ = .ok entries := by
    intro fs least entries hwalk more hle
    unfold relativeEntries at hwalk
    rw [collectRelativeEntries_eq_run] at hwalk ⊢
    rw [(sourceWalk fs root).run_mono recordEntry hle (by rw [hwalk]; exact fun he => by cases he),
      hwalk]
  have hwalk := hlift h (max stack stack') (le_max_left stack stack')
  have hwalk' := hlift h' (max stack stack') (le_max_right stack stack')
  have hempty : SameElsewhere key directory (∅ : Entries) ∅ := fun _ _ => rfl
  have hcurrent : root.names = some (key ++ []) := by rw [hroot, List.append_nil]
  cases hrules : options.filterRules with
  | none =>
      have hnone : SingleMerges fs {} := by
        intro rule hrule
        exfalso
        induction hrule with
        | given hmem => cases hmem
        | merged _ _ _ _ _ ih => exact ih
      refine same_collect hfree hchange hnone _ hcurrent ?_ hempty hwalk hwalk'
      intro active hactive
      rw [hrules] at hactive
      cases hactive
  | some rules =>
      refine same_collect hfree hchange (hsingle rules hrules) _ hcurrent ?_ hempty hwalk hwalk'
      intro active hactive
      obtain rfl := Option.some.inj (hrules.symm.trans hactive)
      exact fun rule hmem haction => .given hmem haction

end Change

end RsyncWin.Fs
