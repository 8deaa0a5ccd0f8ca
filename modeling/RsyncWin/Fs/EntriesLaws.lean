import RsyncWin.Fs.Entries
import RsyncWin.Fs.MemoryLaws

/-!
# What a walk collects

A walk that follows no symlink collects nodes of the tree it starts at, under
their relative paths, and with an entry its parent. Without filter rules it
collects all of them.
-/

namespace RsyncWin.Fs

open ByteString

/-! ## One entry -/

/-- The nodes that a walk in this mode would follow are none. -/
def NoFollow (fs : MemoryFileSystem) (symlinkMode : SymlinkMode) : Prop :=
  ∀ key node, fs.get key = some node →
    if node.metadata.fileType = .symlink then
      symlinkMode ∈ [.skip, .preserve, .safeOnly, .munge]
    else node.metadata.symlinkTarget = none

/-- A walk that leaves nothing out. -/
structure KeepsAll (fs : MemoryFileSystem) (options : RelativeEntryOptions) : Prop where
  rules : ∀ rules, options.filterRules = some rules → rules.rules = []
  symlinks : ∀ key node, fs.get key = some node → node.metadata.fileType = .symlink →
    options.symlinkMode ∈ [.preserve, .munge]

/-- The entry of a node. -/
def nodeEntry (key : Key) (node : MemoryNode) : WalkEntry := ⟨key.path, node.metadata⟩

section Visit

variable {fs : MemoryFileSystem} {root : PathBuf} {options : RelativeEntryOptions} {relative : Key}
  {key : Key} {node : MemoryNode}

theorem applySymlinkMode_noFollow (hno : NoFollow fs options.symlinkMode)
    (hnode : fs.get key = some node) :
    applySymlinkMode fs (nodeEntry key node) options.symlinkMode = .ok none ∨
      applySymlinkMode fs (nodeEntry key node) options.symlinkMode =
        .ok (some (nodeEntry key node)) := by
  have hspec := hno key node hnode
  unfold applySymlinkMode
  by_cases hsym : node.metadata.fileType = .symlink
  · rw [if_pos hsym] at hspec
    rw [if_neg (not_not_intro (show (nodeEntry key node).metadata.fileType = _ from hsym))]
    simp only [List.mem_cons, List.not_mem_nil, or_false] at hspec
    rcases hspec with h | h | h | h <;> rw [h]
    · exact Or.inl rfl
    · exact Or.inr rfl
    · by_cases hfollow : (nodeEntry key node).metadata.symlinkTarget.any isUnsafeSymlinkTarget
      · exact Or.inl (by simp only [hfollow, if_true])
      · exact Or.inr (by simp only [hfollow, if_false, Bool.false_eq_true])
    · exact Or.inr rfl
  · rw [if_pos (show (nodeEntry key node).metadata.fileType ≠ _ from hsym)]
    exact Or.inr rfl

theorem followedDirectoryWalkPath_noFollow (hno : NoFollow fs options.symlinkMode)
    (hnode : fs.get key = some node) :
    followedDirectoryWalkPath (nodeEntry key node) options.symlinkMode = none := by
  have hspec := hno key node hnode
  unfold followedDirectoryWalkPath
  by_cases hdir : node.metadata.fileType = .directory
  · rw [hdir, if_neg (by decide)] at hspec
    rw [if_neg (not_not_intro (show (nodeEntry key node).metadata.fileType = _ from hdir))]
    simp only [nodeEntry, hspec]
  · rw [if_pos (show (nodeEntry key node).metadata.fileType ≠ _ from hdir)]

theorem onSameFileSystem_eq (path : PathBuf) :
    onSameFileSystem fs root options path = .ok true := by
  unfold onSameFileSystem
  split <;> rfl

/-- What a visit that follows nothing takes in is the node itself. -/
theorem visitEntry_noFollow (hno : NoFollow fs options.symlinkMode) (hnode : fs.get key = some node)
    {entry : WalkEntry} {child : Option PathBuf}
    (h : visitEntry fs root options relative (nodeEntry key node) = .ok (some (entry, child))) :
    entry = nodeEntry key node ∧
      child = if options.recursive && node.metadata.fileType = .directory then some key.path
        else none := by
  unfold visitEntry at h
  rcases applySymlinkMode_noFollow hno hnode with hmode | hmode
  · rw [hmode] at h
    cases h
  · rw [hmode] at h
    simp only [bind, Except.bind] at h
    rw [onSameFileSystem_eq] at h
    simp only [Bool.not_true, Bool.false_eq_true, if_false] at h
    rw [followedDirectoryWalkPath_noFollow hno hnode] at h
    split at h
    · cases h
    · split at h
      · rename_i hrec
        obtain ⟨rfl, rfl⟩ := Prod.mk.inj (Option.some.inj (Except.ok.inj h))
        exact ⟨rfl, (if_pos hrec).symm⟩
      · rename_i hrec
        obtain ⟨rfl, rfl⟩ := Prod.mk.inj (Option.some.inj (Except.ok.inj h))
        exact ⟨rfl, (if_neg hrec).symm⟩

theorem senderPathIsFiltered_nil {rules : RuleSet} (h : rules.rules = []) (fileType : FileType) :
    senderPathIsFiltered rules relative fileType = false := by
  unfold senderPathIsFiltered
  rw [List.any_eq_false]
  rintro ⟨current, kind⟩ -
  simp [RuleSet.decideForSide, h]

theorem visitEntry_keepsAll (hall : KeepsAll fs options) (hnode : fs.get key = some node) :
    visitEntry fs root options relative (nodeEntry key node) ≠ .ok none := by
  have hmode : applySymlinkMode fs (nodeEntry key node) options.symlinkMode =
      .ok (some (nodeEntry key node)) := by
    unfold applySymlinkMode
    by_cases hsym : node.metadata.fileType = .symlink
    · have hkeep := hall.symlinks key node hnode hsym
      rw [if_neg (not_not_intro (show (nodeEntry key node).metadata.fileType = _ from hsym))]
      simp only [List.mem_cons, List.not_mem_nil, or_false] at hkeep
      rcases hkeep with h | h <;> rw [h]
    · rw [if_pos (show (nodeEntry key node).metadata.fileType ≠ _ from hsym)]
  have hfilter : (options.filterRules.any fun rules =>
      senderPathIsFiltered rules relative (nodeEntry key node).metadata.fileType) = false := by
    cases hrules : options.filterRules with
    | none => rfl
    | some rules => exact senderPathIsFiltered_nil (hall.rules rules hrules) _
  unfold visitEntry
  rw [hmode]
  simp only [bind, Except.bind]
  rw [onSameFileSystem_eq]
  simp only [Bool.not_true, Bool.false_eq_true, if_false]
  rw [hfilter]
  simp only [Bool.false_eq_true, if_false]
  split
  · exact fun h => by cases h
  · exact fun h => by cases h

end Visit

/-! ## The walk below one directory -/

/-- The nodes of a file system form a tree. -/
def TreeShaped (fs : MemoryFileSystem) : Prop :=
  PathTree.Closed (fun c : Content => c.1 = .directory) fs.content

theorem TreeShaped.directory {fs : MemoryFileSystem} (h : TreeShaped fs) {key : Key} {n m : Bytes}
    {q : Key} {node below : MemoryNode} (hnode : fs.get (key ++ [n]) = some node)
    (hbelow : fs.get (key ++ n :: m :: q) = some below) : node.metadata.fileType = .directory := by
  have hb : fs.content ((key ++ [n]) ++ m :: q) = some below.content := by
    rw [List.append_assoc]
    exact MemoryFileSystem.content_of_get hbelow
  obtain ⟨c, hc, hdir⟩ := h.above hb (by simp)
  rw [MemoryFileSystem.content_of_get hnode] at hc
  rw [← Option.some.inj hc] at hdir
  exact hdir

/-- What holds of every file system that is a tree of files, directories, links
and special nodes. -/
structure WellFormed (fs : MemoryFileSystem) : Prop where
  tree : TreeShaped fs
  targets : ∀ key node, fs.get key = some node → node.metadata.fileType ≠ .symlink →
    node.metadata.symlinkTarget = none

/-- The same, node by node. -/
def wellFormedNode (fs : MemoryFileSystem) (key : Key) (node : MemoryNode) : Bool :=
  (key = [] || (fs.get key.dropLast).any fun parent => parent.metadata.fileType = .directory) &&
    (node.metadata.fileType = .symlink || node.metadata.symlinkTarget = none)

theorem wellFormed_iff {fs : MemoryFileSystem} :
    (fs.nodes.toList.all fun entry => wellFormedNode fs entry.1 entry.2) = true ↔
      WellFormed fs := by
  have hnode : (fs.nodes.toList.all fun entry => wellFormedNode fs entry.1 entry.2) = true ↔
      ∀ key node, fs.get key = some node → wellFormedNode fs key node = true := by
    rw [List.all_eq_true]
    constructor
    · intro h key node hget
      exact h (key, node) (Std.TreeMap.mem_toList_iff_getElem?_eq_some.mpr hget)
    · rintro h ⟨key, node⟩ hmem
      exact h key node (Std.TreeMap.mem_toList_iff_getElem?_eq_some.mp hmem)
  rw [hnode]
  constructor
  · intro h
    refine ⟨fun k n c hc => ?_, fun key node hget hsym => ?_⟩
    · obtain ⟨node, hget, -⟩ := MemoryFileSystem.get_of_content hc
      have hcheck := h _ node hget
      simp only [wellFormedNode, List.append_eq_nil_iff, List.cons_ne_self, and_false, decide_false,
        List.dropLast_concat, Bool.false_or, Bool.and_eq_true, Option.any_eq_true,
        decide_eq_true_eq] at hcheck
      obtain ⟨⟨parent, hparent, hdir⟩, -⟩ := hcheck
      exact ⟨parent.content, MemoryFileSystem.content_of_get hparent, hdir⟩
    · have hcheck := h key node hget
      simp only [wellFormedNode, Bool.and_eq_true, Bool.or_eq_true, decide_eq_true_eq] at hcheck
      exact hcheck.2.resolve_left hsym
  · intro h key node hget
    simp only [wellFormedNode, Bool.and_eq_true, Bool.or_eq_true, decide_eq_true_eq]
    refine ⟨?_, ?_⟩
    · cases key using List.reverseRecOn with
      | nil => exact Or.inl rfl
      | append_singleton k n =>
          obtain ⟨c, hc, hdir⟩ := h.tree k n _ (MemoryFileSystem.content_of_get hget)
          obtain ⟨parent, hparent, rfl⟩ := MemoryFileSystem.get_of_content hc
          rw [List.dropLast_concat, hparent]
          exact Or.inr (by simpa using show parent.metadata.fileType = .directory from hdir)
    · by_cases hsym : node.metadata.fileType = .symlink
      · exact Or.inl hsym
      · exact Or.inr (h.targets key node hget hsym)

instance (fs : MemoryFileSystem) : Decidable (WellFormed fs) :=
  decidable_of_iff _ wellFormed_iff

instance (fs : MemoryFileSystem) : Decidable (MemoryFileSystem.SymlinkFree fs.content) :=
  decidable_of_iff (∀ entry ∈ fs.nodes.toList, entry.2.metadata.fileType ≠ .symlink) <| by
    constructor
    · intro h key bytes hc
      obtain ⟨node, hget, hnode⟩ := MemoryFileSystem.get_of_content hc
      refine h (key, node) (Std.TreeMap.mem_toList_iff_getElem?_eq_some.mpr hget) ?_
      exact congrArg Prod.fst hnode
    · rintro h ⟨key, node⟩ hmem hsym
      refine h key node.bytes ?_
      rw [MemoryFileSystem.content_of_get (Std.TreeMap.mem_toList_iff_getElem?_eq_some.mp hmem),
        MemoryNode.content, hsym]

theorem WellFormed.noFollow {fs : MemoryFileSystem} (h : WellFormed fs) {symlinkMode : SymlinkMode}
    (hmode : symlinkMode ∈ [.skip, .preserve, .safeOnly, .munge]) : NoFollow fs symlinkMode := by
  intro key node hnode
  split
  · exact hmode
  · rename_i hsym
    exact h.targets key node hnode hsym

theorem WellFormed.noFollow_of_symlinkFree {fs : MemoryFileSystem} (h : WellFormed fs)
    (hfree : MemoryFileSystem.SymlinkFree fs.content) (symlinkMode : SymlinkMode) :
    NoFollow fs symlinkMode := by
  intro key node hnode
  have hsym : node.metadata.fileType ≠ .symlink :=
    (hfree.clear key).not_symlink (List.prefix_refl key) hnode
  rw [if_neg hsym]
  exact h.targets key node hnode hsym

/-- Nothing is collected below a path yet. -/
def Fresh (entries : Entries) (relative : Key) : Prop :=
  ∀ n q, entries[relative ++ n :: q]? = none

/-- What a walk adds under some names below `relative`: nodes below `key`, each
with its parent, and nothing elsewhere. A walk that leaves nothing out adds all
that it reaches. -/
structure Walked (fs : MemoryFileSystem) (options : RelativeEntryOptions) (key relative : Key)
    (names : Bytes → Prop) (before after : Entries) : Prop where
  outside : ∀ k, (∀ n, names n → ¬ relative ++ [n] <+: k) → after[k]? = before[k]?
  node : ∀ n q e, names n → after[relative ++ n :: q]? = some e →
    ∃ node, fs.get (key ++ n :: q) = some node ∧ e = nodeEntry (key ++ n :: q) node
  parent : ∀ n q m e, names n → after[relative ++ n :: (q ++ [m])]? = some e →
    ∃ e', after[relative ++ n :: q]? = some e' ∧ e'.metadata.fileType = .directory
  all : TreeShaped fs → KeepsAll fs options → ∀ n q node, names n →
    (options.recursive ∨ q = []) → fs.get (key ++ n :: q) = some node → (after[relative ++ n :: q]?).isSome

theorem getElem?_insert_entries (entries : Entries) (k x : Key) (e : WalkEntry) :
    (entries.insert k e)[x]? = if x = k then some e else entries[x]? := by
  rw [Std.TreeMap.getElem?_insert]
  by_cases hx : x = k
  · simp [hx]
  · rw [if_neg (by simpa using Ne.symm hx), if_neg hx]

theorem not_prefix_of_ne {relative : Key} {n m : Bytes} (h : n ≠ m) (q : Key) :
    ¬ relative ++ [m] <+: relative ++ n :: q := by
  intro hp
  rw [List.prefix_append_right_inj, List.cons_prefix_cons] at hp
  exact h hp.1.symm

section Walk

variable {fs : MemoryFileSystem} {root : PathBuf} {options : RelativeEntryOptions}
  {key relative : Key}

/-- The walk below every child does what it should. -/
def Descends (fs : MemoryFileSystem) (options : RelativeEntryOptions) (key relative : Key)
    (descend : PathBuf → Key → Entries → Except FsError Entries) : Prop :=
  ∀ n node before after, fs.get (key ++ [n]) = some node → Fresh before (relative ++ [n]) →
    descend (Key.path (key ++ [n])) (relative ++ [n]) before = .ok after →
    Walked fs options (key ++ [n]) (relative ++ [n]) (fun _ => True) before after

theorem walked_insert {n : Bytes} {node : MemoryNode}
    (hnode : fs.get (key ++ [n]) = some node) {before : Entries}
    (hfresh : ∀ q, before[relative ++ n :: q]? = none)
    (hstop : ¬ (options.recursive && node.metadata.fileType = .directory)) :
    Walked fs options key relative (· = n) before
      (before.insert (relative ++ [n]) (nodeEntry (key ++ [n]) node)) where
  outside k hk := by
    rw [getElem?_insert_entries, if_neg]
    rintro rfl
    exact hk n rfl (List.prefix_refl _)
  node := by
    rintro _ q e rfl he
    rw [getElem?_insert_entries] at he
    split at he
    · rename_i hq
      obtain rfl : q = [] := by simpa using hq
      exact ⟨node, hnode, (Option.some.inj he).symm⟩
    · rw [hfresh] at he
      cases he
  parent := by
    rintro _ q m e rfl he
    rw [getElem?_insert_entries, if_neg (by simp), hfresh] at he
    cases he
  all := by
    rintro htree - _ q below rfl hq hbelow
    rw [getElem?_insert_entries]
    cases q with
    | nil =>
        rw [if_pos rfl]
        rfl
    | cons m q =>
        have hrec : options.recursive = true := by simpa using hq
        have hdir := htree.directory hnode hbelow
        exact absurd (by simp [hrec, hdir]) hstop

/-- What was collected below a child, seen from its directory. -/
theorem walked_below {n : Bytes} {node : MemoryNode} (hnode : fs.get (key ++ [n]) = some node)
    (hdir : node.metadata.fileType = .directory) {before after : Entries}
    (hfresh : ∀ q, before[relative ++ n :: q]? = none)
    (h : Walked fs options (key ++ [n]) (relative ++ [n]) (fun _ => True)
      (before.insert (relative ++ [n]) (nodeEntry (key ++ [n]) node)) after) :
    Walked fs options key relative (· = n) before after := by
  have hself : after[relative ++ [n]]? = some (nodeEntry (key ++ [n]) node) := by
    rw [h.outside, getElem?_insert_entries, if_pos rfl]
    intro m _ hp
    have := hp.length_le
    simp at this
  constructor
  · intro k hk
    have hne : k ≠ relative ++ [n] := by
      rintro rfl
      exact hk n rfl (List.prefix_refl _)
    rw [h.outside, getElem?_insert_entries, if_neg hne]
    intro m _ hp
    exact hk n rfl ((List.prefix_append _ _).trans hp)
  · rintro _ q e rfl he
    cases q with
    | nil =>
        rw [hself] at he
        exact ⟨node, hnode, (Option.some.inj he).symm⟩
    | cons m q =>
        obtain ⟨below, hbelow, hentry⟩ := h.node m q e trivial (by simpa using he)
        exact ⟨below, by simpa using hbelow, by simpa using hentry⟩
  · rintro _ q m e rfl he
    cases q with
    | nil => exact ⟨_, hself, hdir⟩
    | cons l q =>
        obtain ⟨e', he', hdir'⟩ := h.parent l q m e trivial (by simpa using he)
        exact ⟨e', by simpa using he', hdir'⟩
  · rintro htree hall _ q below rfl hq hbelow
    cases q with
    | nil =>
        rw [hself]
        rfl
    | cons m q =>
        have hrec : options.recursive = true := by simpa using hq
        have := h.all htree hall m q below trivial (Or.inl hrec) (by simpa using hbelow)
        simpa using this

/-- One entry's share of the walk. -/
theorem walked_entry (hno : NoFollow fs options.symlinkMode)
    {descend : PathBuf → Key → Entries → Except FsError Entries}
    (hdescend : Descends fs options key relative descend)
    {n : Bytes} {node : MemoryNode} (hnode : fs.get (key ++ [n]) = some node)
    {before after : Entries} (hfresh : ∀ q, before[relative ++ n :: q]? = none)
    (h : collectEntry fs root relative options descend (nodeEntry (key ++ [n]) node) before =
      .ok after) :
    Walked fs options key relative (· = n) before after := by
  unfold collectEntry at h
  rw [show (nodeEntry (key ++ [n]) node).path.fileName = some n from fileName_key_concat key n] at h
  cases hvisit : visitEntry fs root options (relative ++ [n]) (nodeEntry (key ++ [n]) node) with
  | error e => simp [hvisit] at h
  | ok visited =>
      simp only [hvisit] at h
      cases visited with
      | none =>
          cases h
          refine ⟨fun k _ => rfl, ?_, ?_, fun _ hall => absurd hvisit (visitEntry_keepsAll hall hnode)⟩
          · rintro _ q e rfl he
            rw [hfresh] at he
            cases he
          · rintro _ q m e rfl he
            rw [hfresh] at he
            cases he
      | some visited =>
          obtain ⟨entry, child⟩ := visited
          obtain ⟨rfl, hchild⟩ := visitEntry_noFollow hno hnode hvisit
          by_cases hgo : options.recursive && node.metadata.fileType = .directory
          · rw [if_pos hgo] at hchild
            subst hchild
            rw [Bool.and_eq_true, decide_eq_true_eq] at hgo
            refine walked_below hnode hgo.2 hfresh (hdescend n node _ _ hnode ?_ h)
            intro m q
            rw [getElem?_insert_entries, if_neg (by simp), List.append_assoc]
            exact hfresh (m :: q)
          · rw [if_neg hgo] at hchild
            subst hchild
            cases h
            exact walked_insert hnode hfresh hgo

theorem walked_listed (hno : NoFollow fs options.symlinkMode)
    {descend : PathBuf → Key → Entries → Except FsError Entries}
    (hdescend : Descends fs options key relative descend) :
    ∀ {cs : List (Bytes × MemoryNode)} {before after : Entries},
      (∀ c ∈ cs, fs.get (key ++ [c.1]) = some c.2) → (cs.map Prod.fst).Nodup →
      (∀ n ∈ cs.map Prod.fst, ∀ q, before[relative ++ n :: q]? = none) →
      collectListed fs root relative options descend
        (cs.map fun c => nodeEntry (key ++ [c.1]) c.2) before = .ok after →
      Walked fs options key relative (· ∈ cs.map Prod.fst) before after
  | [], before, after, _, _, _, h => by
      cases h
      exact ⟨fun _ _ => rfl, by simp, by simp, by simp⟩
  | (n, node) :: cs, before, after, hcs, hnodup, hfresh, h => by
      rw [List.map_cons, collectListed] at h
      cases hentry : collectEntry fs root relative options descend (nodeEntry (key ++ [n]) node)
          before with
      | error e => simp [hentry, bind, Except.bind] at h
      | ok middle =>
          simp only [hentry, bind, Except.bind] at h
          rw [List.map_cons, List.nodup_cons] at hnodup
          have hfirst := walked_entry hno hdescend (hcs (n, node) (by simp))
            (hfresh n (by simp)) hentry
          have hmiddle : ∀ m ∈ cs.map Prod.fst, ∀ q, middle[relative ++ m :: q]? = none := by
            intro m hm q
            rw [hfirst.outside]
            · exact hfresh m (List.mem_cons_of_mem _ hm) q
            · rintro _ rfl
              exact not_prefix_of_ne (by rintro rfl; exact hnodup.1 hm) q
          have hrest := walked_listed hno hdescend (fun c hc => hcs c (by simp [hc]))
            hnodup.2 hmiddle h
          -- what the first entry brought stays: the others have other names
          have hkeep : ∀ q, after[relative ++ n :: q]? = middle[relative ++ n :: q]? := by
            intro q
            refine hrest.outside _ fun m hm => not_prefix_of_ne ?_ q
            rintro rfl
            exact hnodup.1 hm
          refine ⟨fun k hk => ?_, fun m q e hm he => ?_, fun m q l e hm he => ?_,
            fun htree hall m q below hm hq hbelow => ?_⟩
          · have hn : ∀ m, m = n → ¬ relative ++ [m] <+: k := by
              intro m hm
              exact hk m (by simp [hm])
            rw [hrest.outside k fun m hm => hk m (List.mem_cons_of_mem _ hm), hfirst.outside k hn]
          · rcases List.mem_cons.mp hm with rfl | hm
            · rw [hkeep] at he
              exact hfirst.node _ q e rfl he
            · exact hrest.node m q e hm he
          · rcases List.mem_cons.mp hm with rfl | hm
            · rw [hkeep] at he ⊢
              exact hfirst.parent _ q l e rfl he
            · exact hrest.parent m q l e hm he
          · rcases List.mem_cons.mp hm with rfl | hm
            · rw [hkeep]
              exact hfirst.all htree hall _ q below rfl hq hbelow
            · exact hrest.all htree hall m q below hm hq hbelow

/-- The names that have something below them are those of the children. -/
theorem Walked.of_children {before after : Entries} (hfresh : Fresh before relative)
    (h : Walked fs options key relative (· ∈ (fs.children key).map Prod.fst) before after) :
    Walked fs options key relative (fun _ => True) before after := by
  have hother : ∀ n q, n ∉ (fs.children key).map Prod.fst → after[relative ++ n :: q]? = none := by
    intro n q hn
    rw [h.outside, hfresh]
    intro m hm
    exact not_prefix_of_ne (by rintro rfl; exact hn hm) q
  refine ⟨fun k hk => h.outside k fun n _ => hk n trivial, fun n q e _ he => ?_,
    fun n q m e _ he => ?_, fun htree hall n q node _ hq hnode => ?_⟩
  · by_cases hn : n ∈ (fs.children key).map Prod.fst
    · exact h.node n q e hn he
    · rw [hother n q hn] at he
      cases he
  · by_cases hn : n ∈ (fs.children key).map Prod.fst
    · exact h.parent n q m e hn he
    · rw [hother n (q ++ [m]) hn] at he
      cases he
  · refine h.all htree hall n q node ?_ hq hnode
    have hchild : ∃ child, fs.get (key ++ [n]) = some child := by
      cases q with
      | nil => exact ⟨node, hnode⟩
      | cons m q =>
          have hb : fs.content ((key ++ [n]) ++ m :: q) = some node.content := by
            rw [List.append_assoc]
            exact MemoryFileSystem.content_of_get hnode
          obtain ⟨c, hc, -⟩ := htree.above hb (by simp)
          obtain ⟨child, hchild, -⟩ := MemoryFileSystem.get_of_content hc
          exact ⟨child, hchild⟩
    obtain ⟨child, hchild⟩ := hchild
    exact List.mem_map.mpr ⟨(n, child), MemoryFileSystem.mem_children.mpr hchild, rfl⟩

theorem loadDirMergeRules_nil {current : PathBuf}
    (h : ∀ rules, options.filterRules = some rules → rules.rules = []) :
    loadDirMergeRules fs current options.filterRules = .ok none := by
  cases hrules : options.filterRules with
  | none => rfl
  | some rules =>
      simp only [loadDirMergeRules, h rules hrules]
      rfl

theorem walked_collect :
    ∀ {stack : Nat} {current : PathBuf} {key relative : Key} {options : RelativeEntryOptions}
      {before after : Entries}, NoFollow fs options.symlinkMode → current.names = some key →
      Fresh before relative →
      collectRelativeEntries fs root stack current relative options before = .ok after →
      Walked fs options key relative (fun _ => True) before after := by
  intro stack
  induction stack with
  | zero =>
      intro current key relative options before after _ _ _ h
      cases h
  | succ stack ih =>
      intro current key relative options before after hno hcur hfresh h
      unfold collectRelativeEntries at h
      cases hload : loadDirMergeRules fs current options.filterRules with
      | error e => simp [hload, bind, Except.bind] at h
      | ok directoryRules =>
          cases hlist : fs.list current with
          | error e => simp [hload, hlist, bind, Except.bind] at h
          | ok listed =>
              simp only [hload, hlist, bind, Except.bind] at h
              obtain ⟨key', -, hcur', -, rfl⟩ := MemoryFileSystem.list_eq_ok hlist
              obtain rfl : key = key' := Option.some.inj (hcur.symm.trans hcur')
              -- the rules that are active below differ from the ones given only by merge files
              have hactive : NoFollow fs ({ options with
                  filterRules := directoryRules.or options.filterRules } :
                    RelativeEntryOptions).symlinkMode := hno
              have hwalk := walked_listed hactive
                (fun n node before after _ hfresh h => ih hactive (names_key _) hfresh h)
                (fun c hc => MemoryFileSystem.mem_children.mp hc)
                (MemoryFileSystem.nodup_children key) (fun n _ q => hfresh n q) h
              have hwalk := hwalk.of_children hfresh
              refine ⟨hwalk.outside, hwalk.node, hwalk.parent,
                fun htree hall => hwalk.all htree ⟨?_, hall.symlinks⟩⟩
              intro rules hrules
              rw [loadDirMergeRules_nil hall.rules] at hload
              rw [← Except.ok.inj hload] at hrules
              exact hall.rules rules hrules

end Walk

/-! ## All entries of a tree -/

/-- The entries are nodes below a root, each with its parent. -/
structure TreeEntries (fs : MemoryFileSystem) (key : Key) (entries : Entries) : Prop where
  ne_nil : ∀ (r : Key) e, entries[r]? = some e → r ≠ []
  node : ∀ (r : Key) e, entries[r]? = some e →
    ∃ node, fs.get (key ++ r) = some node ∧ e = nodeEntry (key ++ r) node
  parent : ∀ (r : Key) n e, r ≠ [] → entries[r ++ [n]]? = some e →
    ∃ e', entries[r]? = some e' ∧ e'.metadata.fileType = .directory

namespace TreeEntries

variable {fs : MemoryFileSystem} {key : Key} {entries : Entries}

/-- What is above an entry is a directory entry. -/
theorem above (h : TreeEntries fs key entries) {q rest : Key} {e : WalkEntry} (hq : q ≠ [])
    (hrest : rest ≠ []) (he : entries[q ++ rest]? = some e) :
    ∃ e', entries[q]? = some e' ∧ e'.metadata.fileType = .directory := by
  induction rest using List.reverseRecOn generalizing e with
  | nil => exact absurd rfl hrest
  | append_singleton rest n ih =>
      rw [← List.append_assoc] at he
      obtain ⟨e', he', hdir⟩ := h.parent _ n e (by simp [hq]) he
      by_cases hnil : rest = []
      · rw [hnil, List.append_nil] at he'
        exact ⟨e', he', hdir⟩
      · exact ih hnil he'

theorem above_of_prefix (h : TreeEntries fs key entries) {q r : Key} {e : WalkEntry} (hq : q ≠ [])
    (hqr : q <+: r) (hne : q ≠ r) (he : entries[r]? = some e) :
    ∃ e', entries[q]? = some e' ∧ e'.metadata.fileType = .directory := by
  obtain ⟨rest, rfl⟩ := hqr
  exact h.above hq (by rintro rfl; exact hne (List.append_nil q).symm) he

theorem path_eq (h : TreeEntries fs key entries) {r : Key} {e : WalkEntry}
    (he : entries[r]? = some e) : e.path = Key.path (key ++ r) := by
  obtain ⟨node, -, rfl⟩ := h.node r e he
  rfl

/-- The type of an entry is that of the node it was made of. -/
theorem content (h : TreeEntries fs key entries) {r : Key} {e : WalkEntry}
    (he : entries[r]? = some e) :
    ∃ bytes, fs.content (key ++ r) = some (e.metadata.fileType, bytes) := by
  obtain ⟨node, hnode, rfl⟩ := h.node r e he
  exact ⟨node.bytes, MemoryFileSystem.content_of_get hnode⟩

theorem filesFromMatches_parent {r : Key} {n : Bytes} {filesFrom : List PathBuf}
    (h : filesFromMatches (r ++ [n]) filesFrom) : filesFromMatches r filesFrom := by
  unfold filesFromMatches at h ⊢
  obtain ⟨selected, hmem, hmatch⟩ := List.any_eq_true.mp h
  refine List.any_eq_true.mpr ⟨selected, hmem, ?_⟩
  simp only [Bool.or_eq_true, decide_eq_true_eq, PathBuf.startsWith,
    List.isPrefixOf_iff_prefix] at hmatch ⊢
  have hup : Key.path r <+: Key.path (r ++ [n]) := by
    rw [Key.path_append]
    exact List.prefix_append _ _
  rcases hmatch with (heq | hbelow) | habove
  · exact Or.inr (heq ▸ hup)
  · rw [Key.path_append] at hbelow
    rcases List.prefix_concat_iff.mp hbelow with heq | hbelow
    · refine Or.inr ?_
      rw [heq]
      exact List.prefix_append _ _
    · exact Or.inl (Or.inr hbelow)
  · exact Or.inr (hup.trans habove)

theorem retain (h : TreeEntries fs key entries) (filesFrom : List PathBuf) :
    TreeEntries fs key (retainFilesFromEntries entries filesFrom) := by
  have hget : ∀ r, (retainFilesFromEntries entries filesFrom)[r]? =
      entries[r]?.filter fun _ => filesFromMatches r filesFrom := fun r =>
    Std.TreeMap.getElem?_filter'
  constructor
  · intro r e he
    rw [hget, Option.filter_eq_some_iff] at he
    exact h.ne_nil r e he.1
  · intro r e he
    rw [hget, Option.filter_eq_some_iff] at he
    exact h.node r e he.1
  · intro r n e hr he
    rw [hget, Option.filter_eq_some_iff] at he
    obtain ⟨e', he', hdir⟩ := h.parent r n e hr he.1
    refine ⟨e', ?_, hdir⟩
    rw [hget, he']
    exact Option.filter_some_pos (filesFromMatches_parent he.2)

end TreeEntries

theorem treeEntries_relativeEntries {fs : MemoryFileSystem} {stack : Nat} {root : PathBuf}
    {key : Key} {options : RelativeEntryOptions} {entries : Entries}
    (hno : NoFollow fs options.symlinkMode) (hroot : root.names = some key)
    (h : relativeEntries stack fs root options = .ok entries) :
    TreeEntries fs key entries ∧
      (TreeShaped fs → KeepsAll fs options → ∀ r node, r ≠ [] →
        (options.recursive ∨ r.length = 1) → fs.get (key ++ r) = some node → (entries[r]?).isSome) := by
  have hwalk := walked_collect hno hroot (fun _ _ => rfl) h
  refine ⟨⟨?_, ?_, ?_⟩, ?_⟩
  · rintro _ e he rfl
    rw [hwalk.outside [] (by simp)] at he
    cases he
  · intro r e he
    cases r with
    | nil =>
        rw [hwalk.outside [] (by simp)] at he
        cases he
    | cons n q => exact hwalk.node n q e trivial he
  · intro r m e hr he
    cases r with
    | nil => exact absurd rfl hr
    | cons n q => exact hwalk.parent n q m e trivial he
  · intro htree hall r node hr hlen hnode
    cases r with
    | nil => exact absurd rfl hr
    | cons n q =>
        refine hwalk.all htree hall n q node trivial ?_ hnode
        simpa using hlen

/-- Only a directory can be walked. -/
theorem directory_of_relativeEntries {fs : MemoryFileSystem} {stack : Nat} {root : PathBuf}
    {options : RelativeEntryOptions} {entries : Entries}
    (h : relativeEntries stack fs root options = .ok entries) :
    ∃ key bytes, root.names = some key ∧ fs.content key = some (.directory, bytes) := by
  unfold relativeEntries at h
  cases stack with
  | zero => cases h
  | succ stack =>
      unfold collectRelativeEntries at h
      cases hload : loadDirMergeRules fs root options.filterRules with
      | error e => simp [hload, bind, Except.bind] at h
      | ok directoryRules =>
          cases hlist : fs.list root with
          | error e => simp [hload, hlist, bind, Except.bind] at h
          | ok listed =>
              obtain ⟨key, bytes, hroot, hdir, -⟩ := MemoryFileSystem.list_eq_ok hlist
              exact ⟨key, bytes, hroot, hdir⟩

/-! ## What all collected entries have in common -/

/-- Visits that take in only what satisfies `P`, where `R` relates the directory
that is listed to the path it is listed for. -/
def Visits (fs : MemoryFileSystem) (root : PathBuf) (symlinkMode : SymlinkMode)
    (P : Key → WalkEntry → Prop) (R : PathBuf → Key → Prop) : Prop :=
  ∀ current relative listed original name options entry child, R current relative →
    options.symlinkMode = symlinkMode → fs.list current = .ok listed → original ∈ listed →
    original.path.fileName = some name →
    visitEntry fs root options (relative ++ [name]) original = .ok (some (entry, child)) →
    P (relative ++ [name]) entry ∧ ∀ c, child = some c → R c (relative ++ [name])

def Entries.All (P : Key → WalkEntry → Prop) (entries : Entries) : Prop :=
  ∀ (r : Key) e, entries[r]? = some e → P r e

theorem Entries.All.insert {P : Key → WalkEntry → Prop} {entries : Entries} (h : entries.All P)
    {r : Key} {e : WalkEntry} (he : P r e) : Entries.All P (entries.insert r e) := by
  intro k e' hk
  rw [getElem?_insert_entries] at hk
  split at hk
  · rename_i hkr
    cases hk
    exact hkr ▸ he
  · exact h k e' hk

theorem Entries.All.filter {P : Key → WalkEntry → Prop} {entries : Entries} (h : entries.All P)
    (filesFrom : List PathBuf) : Entries.All P (retainFilesFromEntries entries filesFrom) := by
  intro r e he
  change (entries.filter fun relative _ => filesFromMatches relative filesFrom)[r]? = some e at he
  rw [Std.TreeMap.getElem?_filter', Option.filter_eq_some_iff] at he
  exact h r e he.1

section All

variable {fs : MemoryFileSystem} {root : PathBuf} {symlinkMode : SymlinkMode}
  {P : Key → WalkEntry → Prop} {R : PathBuf → Key → Prop}

theorem all_collectListed (hvisits : Visits fs root symlinkMode P R) {current : PathBuf}
    {relative : Key} {options : RelativeEntryOptions} (hR : R current relative)
    (hmode : options.symlinkMode = symlinkMode) {all : List WalkEntry}
    (hlist : fs.list current = .ok all)
    {descend : PathBuf → Key → Entries → Except FsError Entries}
    (hdescend : ∀ current relative before after, R current relative → Entries.All P before →
      descend current relative before = .ok after → Entries.All P after) :
    ∀ {listed : List WalkEntry} {before after : Entries}, (∀ e ∈ listed, e ∈ all) →
      before.All P → collectListed fs root relative options descend listed before = .ok after →
      after.All P
  | [], before, after, _, hbefore, h => by
      cases h
      exact hbefore
  | original :: listed, before, after, hall, hbefore, h => by
      unfold collectListed at h
      cases hentry : collectEntry fs root relative options descend original before with
      | error e => simp [hentry, bind, Except.bind] at h
      | ok middle =>
          simp only [hentry, bind, Except.bind] at h
          have hmiddle : middle.All P := by
            unfold collectEntry at hentry
            split at hentry
            · cases hentry
            · rename_i name hname
              simp only at hentry
              split at hentry
              · cases hentry
              · cases hentry
                exact hbefore
              · rename_i hvisit
                cases hentry
                exact hbefore.insert (hvisits _ _ _ _ _ _ _ _ hR hmode hlist (hall _ (by simp))
                  hname hvisit).1
              · rename_i hvisit
                obtain ⟨hP, hchild⟩ := hvisits _ _ _ _ _ _ _ _ hR hmode hlist (hall _ (by simp))
                  hname hvisit
                exact hdescend _ _ _ _ (hchild _ rfl) (hbefore.insert hP) hentry
          exact all_collectListed hvisits hR hmode hlist hdescend
            (fun e he => hall e (List.mem_cons_of_mem _ he)) hmiddle h

theorem all_collect (hvisits : Visits fs root symlinkMode P R) :
    ∀ {stack : Nat} {current : PathBuf} {relative : Key} {options : RelativeEntryOptions}
      {before after : Entries}, R current relative → options.symlinkMode = symlinkMode →
      before.All P →
      collectRelativeEntries fs root stack current relative options before = .ok after → after.All P
  | 0, _, _, _, _, _, _, _, _, h => by cases h
  | stack + 1, current, relative, options, before, after, hR, hmode, hbefore, h => by
      unfold collectRelativeEntries at h
      cases hload : loadDirMergeRules fs current options.filterRules with
      | error e => simp [hload, bind, Except.bind] at h
      | ok directoryRules =>
          cases hlist : fs.list current with
          | error e => simp [hload, hlist, bind, Except.bind] at h
          | ok listed =>
              simp only [hload, hlist, bind, Except.bind] at h
              have hactive : ({ options with
                  filterRules := directoryRules.or options.filterRules } :
                    RelativeEntryOptions).symlinkMode = symlinkMode := hmode
              exact all_collectListed hvisits hR hactive hlist
                (fun _ _ _ _ hR hbefore h => all_collect hvisits hR hactive hbefore h)
                (fun _ he => he) hbefore h

theorem all_relativeEntries (hvisits : Visits fs root symlinkMode P R) (hR : R root [])
    {stack : Nat} {options : RelativeEntryOptions} (hmode : options.symlinkMode = symlinkMode)
    {entries : Entries} (h : relativeEntries stack fs root options = .ok entries) :
    entries.All P :=
  all_collect hvisits hR hmode (by simp [Entries.All]) h

end All

/-- An entry of a walk that follows nothing is what was listed. -/
theorem visitEntry_eq {fs : MemoryFileSystem} {root : PathBuf} {options : RelativeEntryOptions}
    {relative : Key} {original entry : WalkEntry} {child : Option PathBuf}
    (hmode : original.metadata.fileType = .symlink → options.symlinkMode ∈ [.skip, .preserve])
    (h : visitEntry fs root options relative original = .ok (some (entry, child))) :
    entry = original := by
  unfold visitEntry applySymlinkMode at h
  by_cases hsym : original.metadata.fileType = .symlink
  · have hmem := hmode hsym
    simp only [List.mem_cons, List.not_mem_nil, or_false] at hmem
    rw [if_neg (not_not_intro hsym)] at h
    rcases hmem with hmode | hmode
    · simp [hmode, bind, Except.bind, pure, Except.pure] at h
    · simp only [hmode, bind, Except.bind, onSameFileSystem_eq, Bool.not_true, Bool.false_eq_true,
        if_false, pure, Except.pure] at h
      split at h
      · cases h
      · split at h <;> cases h <;> rfl
  · simp only [ne_eq, hsym, not_false_eq_true, if_true, bind, Except.bind, onSameFileSystem_eq,
      Bool.not_true, Bool.false_eq_true, if_false, pure, Except.pure] at h
    split at h
    · cases h
    · split at h <;> cases h <;> rfl

/-- No entry is a symlink. -/
def LinkFree (entries : Entries) : Prop :=
  ∀ (r : Key) e, entries[r]? = some e → e.metadata.fileType ≠ .symlink

theorem child_of_preserve {fs : MemoryFileSystem} {root : PathBuf} {options : RelativeEntryOptions}
    {relative : Key} {original entry : WalkEntry} {child : PathBuf}
    (hmode : options.symlinkMode = .preserve)
    (h : visitEntry fs root options relative original = .ok (some (entry, some child))) :
    child = entry.path := by
  obtain rfl := visitEntry_eq (fun _ => by simp [hmode]) h
  have happly : applySymlinkMode fs entry .preserve = .ok (some entry) := by
    unfold applySymlinkMode
    split <;> rfl
  have hwalk : followedDirectoryWalkPath entry .preserve = none := by
    unfold followedDirectoryWalkPath
    split
    · rfl
    · cases entry.metadata.symlinkTarget <;> rfl
  unfold visitEntry at h
  rw [hmode, happly] at h
  simp only [bind, Except.bind, onSameFileSystem_eq, Bool.not_true, Bool.false_eq_true, if_false,
    hwalk, Option.getD_none, pure, Except.pure] at h
  split at h
  · cases h
  · split at h
    · cases h
      rfl
    · cases h

/-- What is listed is named after its directory and its node. -/
theorem listed_eq {fs : MemoryFileSystem} {current : PathBuf} {listed : List WalkEntry}
    {original : WalkEntry} {name : Bytes} (hlist : fs.list current = .ok listed)
    (horiginal : original ∈ listed) (hname : original.path.fileName = some name) :
    ∃ key node, current.names = some key ∧ fs.get (key ++ [name]) = some node ∧
      original = nodeEntry (key ++ [name]) node := by
  obtain ⟨key, _, hkey, -, rfl⟩ := MemoryFileSystem.list_eq_ok hlist
  obtain ⟨⟨n, node⟩, hchild, rfl⟩ := List.mem_map.mp horiginal
  rw [fileName_key_concat] at hname
  cases hname
  exact ⟨key, node, hkey, MemoryFileSystem.mem_children.mp hchild, rfl⟩

/-- Without symlinks a walk takes in none, whatever it does with them. -/
theorem visits_symlinkFree {fs : MemoryFileSystem}
    (hfree : MemoryFileSystem.SymlinkFree fs.content) (root : PathBuf) (symlinkMode : SymlinkMode) :
    Visits fs root symlinkMode (fun r e => r ≠ [] ∧ e.metadata.fileType ≠ .symlink)
      (fun _ _ => True) := by
  intro current relative listed original name options entry child _ _ hlist horiginal hname hvisit
  obtain ⟨key, node, -, hnode, rfl⟩ := listed_eq hlist horiginal hname
  have hsym : node.metadata.fileType ≠ .symlink :=
    (hfree.clear (key ++ [name])).not_symlink (List.prefix_refl _) hnode
  obtain rfl := visitEntry_eq (fun h => absurd h hsym) hvisit
  exact ⟨⟨by simp, hsym⟩, fun _ _ => trivial⟩

/-- A walk that keeps symlinks as they are lists every entry under its own path. -/
theorem visits_preserve (fs : MemoryFileSystem) (root : PathBuf) (key : Key) :
    Visits fs root .preserve (fun r e => r ≠ [] ∧ e.path = Key.path (key ++ r))
      (fun current relative => current.names = some (key ++ relative)) := by
  intro current relative listed original name options entry child hR hmode hlist horiginal hname hvisit
  obtain ⟨key', node, hkey', hnode, rfl⟩ := listed_eq hlist horiginal hname
  obtain rfl : key ++ relative = key' := Option.some.inj (hR.symm.trans hkey')
  obtain rfl := visitEntry_eq (fun _ => by simp [hmode]) hvisit
  refine ⟨⟨by simp, by rw [nodeEntry, List.append_assoc]⟩, ?_⟩
  rintro c rfl
  rw [child_of_preserve hmode hvisit, nodeEntry, names_key, List.append_assoc]

/-- A walk that skips symlinks takes none in. -/
theorem visits_skip (fs : MemoryFileSystem) (root : PathBuf) :
    Visits fs root .skip (fun _ e => e.metadata.fileType ≠ .symlink) (fun _ _ => True) := by
  intro current relative listed original name options entry child _ hmode _ _ _ hvisit
  refine ⟨fun hsym => ?_, fun _ _ => trivial⟩
  obtain rfl := visitEntry_eq (fun _ => by simp [hmode]) hvisit
  unfold visitEntry applySymlinkMode at hvisit
  simp [hmode, hsym, bind, Except.bind, pure, Except.pure] at hvisit

end RsyncWin.Fs
