import RsyncWin.Fs.MergeLocality
import RsyncWin.Remote.SourceWalk

/-!
# Filtering is hereditary and local

The test of a path against the sender's rules stands in `sync.rs`, `receive.rs`
and `flist.rs`. Each asks about every ancestor before it asks about the path,
which is why a hidden directory hides what is below it.
-/

namespace RsyncWin

open ByteString

namespace Fs

/-- The loop of `sender_path_is_filtered` over the components of any path;
`current` are those already passed. -/
def senderComponentsAreFiltered (rules : RuleSet) (fileType : FileType) :
    Key → PathBuf → Bool
  | _, [] => false
  | current, .normal name :: rest =>
      let kind := if rest = [] then entryKind fileType else .directory
      let action := rules.decideForSide (filterPath (current ++ [name])) kind .sender
      if action = .exclude ∨ action = .hide then true
      else senderComponentsAreFiltered rules fileType (current ++ [name]) rest
  | _, _ :: _ => true

section Components

variable {rules : RuleSet} {fileType : FileType}

theorem senderComponentsAreFiltered_normal (current : Key) (name : Bytes) (rest : PathBuf) :
    senderComponentsAreFiltered rules fileType current (.normal name :: rest) =
      if rules.decideForSide (filterPath (current ++ [name]))
          (if rest = [] then entryKind fileType else .directory) .sender = .exclude ∨
        rules.decideForSide (filterPath (current ++ [name]))
          (if rest = [] then entryKind fileType else .directory) .sender = .hide then true
      else senderComponentsAreFiltered rules fileType (current ++ [name]) rest := rfl

/-- The rest of the checked paths, from the components already passed. -/
theorem senderComponentsAreFiltered_key (current relative : Key) :
    senderComponentsAreFiltered rules fileType current relative.path =
      (relative.inits.tail.map fun passed =>
        (current ++ passed, if passed = relative then entryKind fileType else .directory)).any
          fun (checked, kind) =>
            let action := rules.decideForSide (filterPath checked) kind .sender
            action = .exclude || action = .hide := by
  induction relative generalizing current with
  | nil => rfl
  | cons name relative ih =>
      rw [show Key.path (name :: relative) = .normal name :: Key.path relative from rfl,
        senderComponentsAreFiltered_normal, ih]
      cases relative with
      | nil => simp [Key.path]
      | cons next relative =>
          simp [Key.path, List.map_map, Function.comp_def]

/-- On the relative path of a walk it is the check that the walk makes. -/
theorem senderComponentsAreFiltered_path (relative : Key) :
    senderComponentsAreFiltered rules fileType [] relative.path =
      senderPathIsFiltered rules relative fileType := by
  rw [senderComponentsAreFiltered_key]
  rfl

/-- What is passed on the way to a directory is passed on the way to what is below. -/
theorem senderComponentsAreFiltered_append {current : Key} {path rest : PathBuf}
    (hrest : rest ≠ [])
    (h : senderComponentsAreFiltered rules .directory current path = true) :
    senderComponentsAreFiltered rules fileType current (path ++ rest) = true := by
  induction path generalizing current with
  | nil => cases h
  | cons c path ih =>
      cases c with
      | normal name =>
          rw [List.cons_append, senderComponentsAreFiltered_normal]
          rw [senderComponentsAreFiltered_normal] at h
          have hkind : (if path = [] then entryKind .directory else EntryKind.directory) =
              .directory := by
            split <;> rfl
          have hbelow : (if path ++ rest = [] then entryKind fileType else .directory) =
              EntryKind.directory := if_neg (by simp [hrest])
          rw [hbelow]
          rw [hkind] at h
          split
          · rfl
          · next haction =>
              rw [if_neg haction] at h
              exact ih h
      | rootDir => rfl
      | curDir => rfl
      | parentDir => rfl

/-- The copies over the wire's types run through the components in the same way. -/
theorem componentsAreFiltered_eq {wireType : WireFileType}
    (htype : fileType = .directory ↔ wireType = .directory) (current : Key) (path : PathBuf) :
    componentsAreFiltered rules .sender (fun action => action = .exclude || action = .hide)
      wireType current path = senderComponentsAreFiltered rules fileType current path := by
  have hkind : entryKindFromWire wireType = entryKind fileType := by
    unfold entryKindFromWire entryKind
    simp only [htype]
  induction path generalizing current with
  | nil => rfl
  | cons c path ih =>
      cases c with
      | normal name =>
          rw [componentsAreFiltered_normal, senderComponentsAreFiltered_normal, ih, hkind]
          by_cases haction : rules.decideForSide (filterPath (current ++ [name]))
              (if path = [] then entryKind fileType else .directory) .sender = .exclude ∨
            rules.decideForSide (filterPath (current ++ [name]))
              (if path = [] then entryKind fileType else .directory) .sender = .hide
          · rw [if_pos haction]
            rcases haction with h | h <;> simp only [h] <;> rfl
          · rw [if_neg haction]
            obtain ⟨hexclude, hhide⟩ := not_or.mp haction
            rw [decide_eq_false hexclude, decide_eq_false hhide]
            rfl
      | rootDir => rfl
      | curDir => rfl
      | parentDir => rfl

end Components

end Fs

open Fs

/-- **Filtering is hereditary and local.** The copies of `receive.rs` and of `flist.rs`
answer as the one of `sync.rs`, what is below a filtered directory is filtered, a
collected entry has its parent with it, and a merge file decides about its own
directory only. -/
theorem filtering_hereditary_local :
    (∀ (rules : RuleSet) (relative : Key) (fileType : FileType),
      senderPathIsFiltered rules relative fileType =
        senderComponentsAreFiltered rules fileType [] relative.path) ∧
    (∀ (rules : RuleSet) (relative : Bytes) (fileType : FileType) (wireType : WireFileType),
      (fileType = .directory ↔ wireType = .directory) →
      remoteSourcePathIsFiltered rules relative wireType =
          senderComponentsAreFiltered rules fileType [] (components relative) ∧
        LocalSource.remoteSourcePathIsFiltered rules (components relative) wireType =
          senderComponentsAreFiltered rules fileType [] (components relative)) ∧
    (∀ (rules : RuleSet) (directory rest : PathBuf) (fileType : FileType), rest ≠ [] →
      senderComponentsAreFiltered rules .directory [] directory = true →
      senderComponentsAreFiltered rules fileType [] (directory ++ rest) = true) ∧
    (∀ (fs : MemoryFileSystem) (stack : Nat) (root : PathBuf) (options : RelativeEntryOptions)
      (entries : Entries), LinkFreeTree fs → relativeEntries stack fs root options = .ok entries →
      ∀ (relative : Key) (name : Bytes) (entry : WalkEntry), relative ≠ [] →
        entries[relative ++ [name]]? = some entry →
        ∃ parent, entries[relative]? = some parent ∧
          parent.metadata.fileType = .directory) ∧
    ∀ (fs fs' : MemoryFileSystem) (key directory : Key) (mergeFile : Bytes) (stack stack' : Nat)
      (root : PathBuf) (options : RelativeEntryOptions) (entries entries' : Entries),
      LinkFreeTree fs → ContentChanged fs fs' (directory ++ [mergeFile]) →
      root.names = some key →
      (∀ rules, options.filterRules = some rules → SingleMerges fs rules) →
      relativeEntries stack fs root options = .ok entries →
      relativeEntries stack' fs' root options = .ok entries' →
      SameElsewhere key directory entries entries' := by
  refine ⟨?_, ?_, ?_, ?_, ?_⟩
  · intro rules relative fileType
    exact (senderComponentsAreFiltered_path relative).symm
  · intro rules relative fileType wireType htype
    exact ⟨componentsAreFiltered_eq htype [] _, componentsAreFiltered_eq htype [] _⟩
  · intro rules directory rest fileType hrest h
    exact senderComponentsAreFiltered_append hrest h
  · intro fs stack root options entries hfree h relative name entry hrelative hentry
    exact parents_of_linkFree hfree h hrelative hentry
  · intro fs fs' key directory mergeFile stack stack' root options entries entries'
      hfree hchange hroot hsingle h h'
    exact same_relativeEntries hfree hchange hroot hsingle h h'

/-- The merge file `m` of `s/a`, among other files. -/
def treeWithMerge (merge : Bytes) : MemoryFileSystem :=
  (withFiles [([[0x73], [0x61], [0x78]], []), ([[0x73], [0x61], [0x79]], []),
    ([[0x73], [0x62], [0x78]], [])]).insert [[0x73], [0x61], [0x6d]] (fileNode merge)

/-- `: m`. -/
def mergeEach : RuleSet :=
  ⟨[⟨.dirMerge, some ⟨['m'], ['m'], false, false, false, none⟩, true, true, false⟩]⟩

def mergeOptions : RelativeEntryOptions := ⟨some mergeEach, true, .preserve, false⟩

theorem linkFreeTree_treeWithMerge : LinkFreeTree (treeWithMerge [0x2d, 0x20, 0x78]) :=
  WellFormed.linkFreeTree (by decide +kernel) (by decide +kernel)

theorem ok_of_map {ε α β : Type} {r : Except ε α} {f : α → β} {b : β} (h : r.map f = .ok b) :
    ∃ a, r = .ok a ∧ f a = b := by
  cases r with
  | error e => cases h
  | ok a => exact ⟨a, rfl, Except.ok.inj h⟩

/-- No file of the tree has a directive. -/
theorem singleMerges_mergeEach :
    SingleMerges (treeWithMerge [0x2d, 0x20, 0x78]) mergeEach := by
  have hparsed : ((treeWithMerge [0x2d, 0x20, 0x78]).nodes.toList.all fun entry =>
      match Rule.parseFilterFile entry.2.bytes false .exclude with
      | .ok parsed => parsed.all fun rule => rule.action ≠ .dirMerge
      | .error _ => true) = true := by decide +kernel
  intro rule hrule
  cases hrule with
  | given hmem =>
      obtain rfl := List.mem_singleton.mp hmem
      decide +kernel
  | merged _ hread hparse hmem haction =>
      exfalso
      obtain ⟨key, node, hnode, rfl⟩ := node_of_readFile linkFreeTree_treeWithMerge hread
      have hrules := List.all_eq_true.mp hparsed (key, node)
        (Std.TreeMap.mem_toList_iff_getElem?_eq_some.mpr hnode)
      simp only [hparse] at hrules
      exact of_decide_eq_true (List.all_eq_true.mp hrules rule hmem) haction

/-- `- x` becomes `- y`: `s/a/x` is hidden no more, `s/b/x` stays. -/
theorem filtering_moved :
    ∃ entries entries',
      relativeEntries 8 (treeWithMerge [0x2d, 0x20, 0x78]) (Key.path [[0x73]]) mergeOptions =
        .ok entries ∧
      relativeEntries 8 (treeWithMerge [0x2d, 0x20, 0x79]) (Key.path [[0x73]]) mergeOptions =
        .ok entries' ∧
      (entries.contains [[0x61], [0x78]] = false ∧ entries'.contains [[0x61], [0x78]] = true) ∧
      SameElsewhere [[0x73]] [[0x73], [0x61]] entries entries' := by
  have hhidden : (relativeEntries 8 (treeWithMerge [0x2d, 0x20, 0x78]) (Key.path [[0x73]])
      mergeOptions).map (fun entries => entries.contains [[0x61], [0x78]]) = .ok false := by
    decide +kernel
  have hshown : (relativeEntries 8 (treeWithMerge [0x2d, 0x20, 0x79]) (Key.path [[0x73]])
      mergeOptions).map (fun entries => entries.contains [[0x61], [0x78]]) = .ok true := by
    decide +kernel
  obtain ⟨entries, hwalk, hx⟩ := ok_of_map hhidden
  obtain ⟨entries', hwalk', hx'⟩ := ok_of_map hshown
  have hchange : ContentChanged (treeWithMerge [0x2d, 0x20, 0x78])
      (treeWithMerge [0x2d, 0x20, 0x79]) ([[0x73], [0x61]] ++ [[0x6d]]) := by
    refine ⟨?_, ⟨fileNode [0x2d, 0x20, 0x78], ?_, rfl⟩, ⟨fileNode [0x2d, 0x20, 0x79], ?_, rfl⟩⟩
    · intro k hk
      change k ≠ [[0x73], [0x61], [0x6d]] at hk
      unfold treeWithMerge
      rw [MemoryFileSystem.get_insert, MemoryFileSystem.get_insert,
        Function.update_of_ne hk, Function.update_of_ne hk]
    · decide +kernel
    · decide +kernel
  refine ⟨_, _, hwalk, hwalk', ⟨hx, hx'⟩, ?_⟩
  refine filtering_hereditary_local.2.2.2.2 _ _ _ _ _ 8 8 _ mergeOptions _ _
    linkFreeTree_treeWithMerge hchange rfl ?_ hwalk hwalk'
  intro rules hrules
  obtain rfl := Option.some.inj hrules
  exact singleMerges_mergeEach

end RsyncWin
