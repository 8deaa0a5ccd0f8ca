import RsyncWin.Lib.Tree
import RsyncWin.Fs.Memory

/-!
# What the in-memory file system does to its tree

Each operation of `MemoryFileSystem` as a change of the tree of its nodes. A
write goes to the path that symlinks lead to; without symlinks on the way that
is the path itself.
-/

namespace RsyncWin.Fs

open ByteString

/-- What a node is and holds, without times and link counts. -/
abbrev Content := FileType × Bytes

def MemoryNode.content (node : MemoryNode) : Content := (node.metadata.fileType, node.bytes)

def dirContent : Content := (.directory, [])

namespace MemoryFileSystem

variable {fs : MemoryFileSystem}

/-! ## Nodes -/

theorem get_insert (key : Key) (node : MemoryNode) :
    (fs.insert key node).get = Function.update fs.get key (some node) := by
  funext x
  rw [Function.update_apply]
  show (fs.nodes.insert key node)[x]? = _
  rw [Std.TreeMap.getElem?_insert]
  by_cases hx : x = key
  · simp [hx]
  · rw [if_neg (by simpa using Ne.symm hx), if_neg hx]
    rfl

theorem get_erase (key : Key) : (fs.erase key).get = Function.update fs.get key none := by
  funext x
  rw [Function.update_apply]
  show (fs.nodes.erase key)[x]? = _
  rw [Std.TreeMap.getElem?_erase]
  by_cases hx : x = key
  · simp [hx]
  · rw [if_neg (by simpa using Ne.symm hx), if_neg hx]
    rfl

theorem get_foldl_insertIfNew (keys : List Key) (nodes : Std.TreeMap Key MemoryNode) (x : Key) :
    (keys.foldl (fun nodes k => nodes.insertIfNew k directoryNode) nodes)[x]? =
      if x ∈ keys then some (nodes[x]?.getD directoryNode) else nodes[x]? := by
  induction keys generalizing nodes with
  | nil => simp
  | cons key keys ih =>
      rw [List.foldl_cons, ih]
      have hstep : (nodes.insertIfNew key directoryNode)[x]? =
          if x = key then some (nodes[x]?.getD directoryNode) else nodes[x]? := by
        rw [Std.TreeMap.getElem?_insertIfNew]
        by_cases hx : x = key
        · subst hx
          cases hget : nodes[x]? with
          | none => simp [Std.TreeMap.mem_iff_isSome_getElem?, hget]
          | some node => simp [Std.TreeMap.mem_iff_isSome_getElem?, hget]
        · simp [Ne.symm hx, hx]
      rw [hstep]
      by_cases hx : x = key
      · simp [hx]
      · simp [hx]

theorem get_createDirs (key : Key) :
    (fs.createDirs key).get = PathTree.fill fs.get key directoryNode := by
  funext x
  unfold PathTree.fill
  rw [show (fs.createDirs key).get x = _ from get_foldl_insertIfNew key.inits fs.nodes x]
  simp only [List.mem_inits]
  rfl

theorem get_foldl_erase (keys : List Key) (fs : MemoryFileSystem) (x : Key) :
    (keys.foldl erase fs).get x = if x ∈ keys then none else fs.get x := by
  induction keys generalizing fs with
  | nil => simp
  | cons key keys ih =>
      rw [List.foldl_cons, ih, get_erase, Function.update_apply]
      by_cases hx : x = key
      · simp [hx]
      · simp [hx]

theorem mem_keys {x : Key} : x ∈ fs.nodes.keys ↔ (fs.get x).isSome := by
  rw [Std.TreeMap.mem_keys, Std.TreeMap.mem_iff_isSome_getElem?]
  rfl

theorem get_eraseBelow (key : Key) : (fs.eraseBelow key).get = PathTree.prune fs.get key := by
  funext x
  unfold eraseBelow PathTree.prune
  rw [get_foldl_erase]
  simp only [List.mem_filter, mem_keys, List.isPrefixOf_iff_prefix]
  by_cases hx : key <+: x
  · cases hget : fs.get x with
    | none => simp [hx]
    | some node => simp [hx]
  · simp [hx]

/-! ## Contents -/

def content (fs : MemoryFileSystem) : PathTree Bytes Content := PathTree.map MemoryNode.content fs.get

theorem content_of_get {key : Key} {node : MemoryNode} (h : fs.get key = some node) :
    fs.content key = some node.content := by
  unfold content PathTree.map
  rw [h]
  rfl

theorem content_eq_none {key : Key} : fs.content key = none ↔ fs.get key = none := by
  unfold content PathTree.map
  rw [Option.map_eq_none_iff]

theorem get_of_content {key : Key} {c : Content} (h : fs.content key = some c) :
    ∃ node, fs.get key = some node ∧ node.content = c :=
  Option.map_eq_some_iff.mp h

theorem content_insert (key : Key) (node : MemoryNode) :
    (fs.insert key node).content = Function.update fs.content key (some node.content) := by
  unfold content
  rw [get_insert, PathTree.map_update]
  rfl

theorem content_erase (key : Key) :
    (fs.erase key).content = Function.update fs.content key none := by
  unfold content
  rw [get_erase, PathTree.map_update]
  rfl

theorem content_createDirs (key : Key) :
    (fs.createDirs key).content = PathTree.fill fs.content key dirContent := by
  unfold content
  rw [get_createDirs, PathTree.map_fill]
  rfl

theorem content_eraseBelow (key : Key) :
    (fs.eraseBelow key).content = PathTree.prune fs.content key := by
  unfold content
  rw [get_eraseBelow, PathTree.map_prune]

/-- A change of metadata that leaves a node's type. -/
theorem content_insert_same {key : Key} {node node' : MemoryNode} (h : fs.get key = some node)
    (hc : node'.content = node.content) : (fs.insert key node').content = fs.content := by
  rw [content_insert, hc, ← content_of_get h, Function.update_eq_self]

/-! ## Where a write goes -/

/-- No symlink on the way to a path, nor at it. -/
def Clear (c : PathTree Bytes Content) (key : Key) : Prop :=
  ∀ q bytes, q <+: key → c q ≠ some (.symlink, bytes)

def SymlinkFree (c : PathTree Bytes Content) : Prop :=
  ∀ key bytes, c key ≠ some (.symlink, bytes)

theorem SymlinkFree.clear {c : PathTree Bytes Content} (h : SymlinkFree c) (key : Key) : Clear c key :=
  fun q bytes _ => h q bytes

theorem Clear.of_prefix {c : PathTree Bytes Content} {key q : Key} (h : Clear c key) (hq : q <+: key) :
    Clear c q :=
  fun r bytes hr => h r bytes (hr.trans hq)

theorem Clear.not_symlink {key q : Key} {node : MemoryNode} (h : Clear fs.content key)
    (hq : q <+: key) (hnode : fs.get q = some node) : node.metadata.fileType ≠ .symlink := by
  intro hsym
  refine h q node.bytes hq ?_
  rw [content_of_get hnode, MemoryNode.content, hsym]

theorem firstSymlink_eq_none {resolved rest : Key}
    (h : ∀ q node, q <+: rest → fs.get (resolved ++ q) = some node →
      node.metadata.fileType ≠ .symlink) :
    fs.firstSymlink resolved rest = none := by
  induction rest generalizing resolved with
  | nil => rfl
  | cons name rest ih =>
      have hrest : fs.firstSymlink (resolved ++ [name]) rest = none := by
        refine ih fun q node hq hnode => h (name :: q) node ?_ ?_
        · exact List.cons_prefix_cons.mpr ⟨rfl, hq⟩
        · rw [← hnode, List.append_assoc]
          rfl
      unfold firstSymlink
      cases hget : fs.get (resolved ++ [name]) with
      | none => exact hrest
      | some node =>
          have hnode := h [name] node (List.cons_prefix_cons.mpr ⟨rfl, List.nil_prefix⟩) hget
          simp only [if_neg hnode]
          exact hrest

theorem resolveMemoryPathPrefixAt_of_clear {key : Key} (h : Clear fs.content key) (limit : Nat) :
    fs.resolveMemoryPathPrefixAt limit key = .ok key := by
  have hnone : fs.firstSymlink [] key = none :=
    firstSymlink_eq_none fun q node hq hnode => h.not_symlink hq hnode
  unfold resolveMemoryPathPrefixAt
  rw [hnone]

theorem normalizePortablePath_of_names {path : PathBuf} {key : Key} (h : path.names = some key) :
    normalizePortablePath path = .ok key := by
  unfold normalizePortablePath
  rw [h]

theorem normalizePortablePath_of_none {path : PathBuf} (h : path.names = none) :
    normalizePortablePath path = .error (.invalidPortablePath path) := by
  unfold normalizePortablePath
  rw [h]

theorem resolveWritePath_of_clear {path : PathBuf} {key : Key} (hp : path.names = some key)
    (h : Clear fs.content key) : fs.resolveWritePath path = .ok key := by
  unfold resolveWritePath
  rw [normalizePortablePath_of_names hp]
  exact resolveMemoryPathPrefixAt_of_clear h 32

/-! ## Reading -/

theorem metadata_of_get {path : PathBuf} {key : Key} {node : MemoryNode}
    (hp : path.names = some key) (h : fs.get key = some node) :
    fs.metadata path = .ok node.metadata := by
  unfold metadata
  rw [normalizePortablePath_of_names hp]
  simp only [bind, Except.bind, h]
  rfl

theorem metadata_of_none {path : PathBuf} {key : Key} (hp : path.names = some key)
    (h : fs.get key = none) : fs.metadata path = .error (.notFound key.path) := by
  unfold metadata
  rw [normalizePortablePath_of_names hp]
  simp only [bind, Except.bind, h]
  rfl

theorem metadata_eq_ok {path : PathBuf} {metadata : PortableMetadata}
    (h : fs.metadata path = .ok metadata) :
    ∃ key node, path.names = some key ∧ fs.get key = some node ∧ node.metadata = metadata := by
  cases hp : path.names with
  | none => simp [MemoryFileSystem.metadata, normalizePortablePath, hp, bind, Except.bind] at h
  | some key =>
      cases hget : fs.get key with
      | none =>
          rw [metadata_of_none hp hget] at h
          cases h
      | some node =>
          rw [metadata_of_get hp hget] at h
          exact ⟨key, node, rfl, hget, Except.ok.inj h⟩

/-- The type that `metadata` reports is that of the content. -/
theorem content_of_metadata {path : PathBuf} {key : Key} {metadata : PortableMetadata}
    (hp : path.names = some key) (h : fs.metadata path = .ok metadata) :
    ∃ bytes, fs.content key = some (metadata.fileType, bytes) := by
  obtain ⟨key', node, hp', hnode, rfl⟩ := metadata_eq_ok h
  obtain rfl : key = key' := Option.some.inj (hp.symm.trans hp')
  exact ⟨node.bytes, content_of_get hnode⟩

theorem content_of_metadata_error {path : PathBuf} {key : Key} {e : FsError}
    (hp : path.names = some key) (h : fs.metadata path = .error e) : fs.content key = none := by
  rw [content_eq_none]
  cases hget : fs.get key with
  | none => rfl
  | some node =>
      rw [metadata_of_get hp hget] at h
      cases h

theorem existsAt_iff {path : PathBuf} {key : Key} (hp : path.names = some key) :
    fs.existsAt path = (fs.content key).isSome := by
  unfold existsAt
  cases hget : fs.get key with
  | none =>
      rw [metadata_of_none hp hget, content_eq_none.mpr hget]
      rfl
  | some node =>
      rw [metadata_of_get hp hget, content_of_get hget]
      rfl

theorem readFile_of_content {path : PathBuf} {key : Key} {bytes : Bytes}
    (hp : path.names = some key) (h : fs.content key = some (.file, bytes)) :
    fs.readFile path = .ok bytes := by
  obtain ⟨node, hnode, hc⟩ := get_of_content h
  obtain ⟨htype, hbytes⟩ := Prod.mk.inj hc
  unfold readFile
  rw [normalizePortablePath_of_names hp]
  simp only [bind, Except.bind, readFileAt, hnode, htype]
  simp [hbytes]

/-- Where no symlink is, what can be read is the file at the path. -/
theorem content_of_readFile {path : PathBuf} {key : Key} {bytes : Bytes}
    (hp : path.names = some key) (hsym : ∀ b, fs.content key ≠ some (.symlink, b))
    (h : fs.readFile path = .ok bytes) : fs.content key = some (.file, bytes) := by
  unfold readFile at h
  rw [normalizePortablePath_of_names hp] at h
  simp only [bind, Except.bind, readFileAt] at h
  cases hget : fs.get key with
  | none => simp [hget] at h
  | some node =>
      have hnot : node.metadata.fileType ≠ .symlink := by
        intro hsym'
        refine hsym node.bytes ?_
        rw [content_of_get hget, MemoryNode.content, hsym']
      simp only [hget, if_neg hnot] at h
      by_cases hfile : node.metadata.fileType = .file
      · rw [if_neg (not_not_intro hfile)] at h
        rw [content_of_get hget, MemoryNode.content, hfile, Except.ok.inj h]
      · rw [if_pos hfile] at h
        cases h

/-- The children of a directory, by their names. -/
def children (fs : MemoryFileSystem) (key : Key) : List (Bytes × MemoryNode) :=
  (fs.nodes.toList.filter fun entry => isChild key entry.1).map fun entry =>
    (entry.1.getLastD [], entry.2)

theorem isChild_iff {dir key : Key} : isChild dir key = true ↔ ∃ name, key = dir ++ [name] := by
  unfold isChild
  cases key using List.reverseRecOn with
  | nil => simp
  | append_singleton key name =>
      simp only [ne_eq, List.append_eq_nil_iff, List.cons_ne_self, and_false, not_false_eq_true,
        decide_true, Bool.true_and, List.dropLast_concat, Bool.and_eq_true, decide_eq_true_eq]
      constructor
      · rintro ⟨-, rfl⟩
        exact ⟨name, rfl⟩
      · rintro ⟨name', h⟩
        obtain ⟨rfl, -⟩ := List.append_inj' h rfl
        exact ⟨by simp, rfl⟩

theorem mem_children {key : Key} {name : Bytes} {node : MemoryNode} :
    (name, node) ∈ fs.children key ↔ fs.get (key ++ [name]) = some node := by
  unfold children
  simp only [List.mem_map, List.mem_filter, Prod.mk.injEq, Prod.exists, isChild_iff]
  constructor
  · rintro ⟨_, _, ⟨hmem, name', rfl⟩, hname, rfl⟩
    rw [List.getLastD_concat] at hname
    subst hname
    exact Std.TreeMap.mem_toList_iff_getElem?_eq_some.mp hmem
  · intro h
    refine ⟨key ++ [name], node, ⟨?_, name, rfl⟩, by simp, rfl⟩
    exact Std.TreeMap.mem_toList_iff_getElem?_eq_some.mpr h

theorem nodup_children (key : Key) : ((fs.children key).map Prod.fst).Nodup := by
  unfold children
  rw [List.map_map]
  have hkeys : ((fs.nodes.toList.filter fun entry => isChild key entry.1).map Prod.fst).Nodup := by
    refine List.Nodup.sublist ((List.filter_sublist ..).map Prod.fst) ?_
    rw [Std.TreeMap.map_fst_toList_eq_keys]
    exact Std.TreeMap.nodup_keys
  rw [List.Nodup, List.pairwise_map] at hkeys ⊢
  refine hkeys.imp_of_mem fun {a b} ha hb hne heq => hne ?_
  obtain ⟨n, hn⟩ := isChild_iff.mp (List.mem_filter.mp ha).2
  obtain ⟨m, hm⟩ := isChild_iff.mp (List.mem_filter.mp hb).2
  simp only [Function.comp, hn, hm, List.getLastD_concat] at heq
  rw [hn, hm, heq]

theorem list_eq_ok {path : PathBuf} {listed : List WalkEntry} (h : fs.list path = .ok listed) :
    ∃ key bytes, path.names = some key ∧ fs.content key = some (.directory, bytes) ∧
      listed = (fs.children key).map fun child =>
        ⟨Key.path (key ++ [child.1]), child.2.metadata⟩ := by
  unfold list at h
  cases hp : path.names with
  | none => simp [normalizePortablePath_of_none hp, bind, Except.bind] at h
  | some key =>
      rw [normalizePortablePath_of_names hp] at h
      simp only [bind, Except.bind] at h
      cases hmeta : fs.metadata key.path with
      | error e => simp [hmeta] at h
      | ok metadata =>
          rw [hmeta] at h
          by_cases hdir : metadata.fileType = .directory
          · obtain ⟨bytes, hbytes⟩ := content_of_metadata (names_key key) hmeta
            rw [hdir] at hbytes
            refine ⟨key, bytes, rfl, hbytes, ?_⟩
            simp only [hdir, ne_eq, not_true_eq_false, if_false] at h
            rw [← Except.ok.inj h, children, List.map_map]
            refine List.map_congr_left fun entry hentry => ?_
            obtain ⟨n, hn⟩ := isChild_iff.mp (List.mem_filter.mp hentry).2
            simp only [Function.comp, hn, List.getLastD_concat]
          · simp [hdir] at h

/-- A directory with the same node and the same children is listed the same. -/
theorem list_congr {fs' : MemoryFileSystem} {path : PathBuf} {key : Key}
    (hp : path.names = some key) (hhere : fs'.get key = fs.get key)
    (hchildren : ∀ name, fs'.get (key ++ [name]) = fs.get (key ++ [name])) :
    fs'.list path = fs.list path := by
  have hordered : ∀ fs : MemoryFileSystem,
      (fs.nodes.toList.filter fun entry => isChild key entry.1).Pairwise
        fun a b => compare a.1 b.1 = .lt := by
    intro fs
    refine List.Pairwise.filter _ ?_
    exact Std.TreeMap.ordered_keys_toList
  have hmem : ∀ entry, entry ∈ (fs'.nodes.toList.filter fun entry => isChild key entry.1) ↔
      entry ∈ (fs.nodes.toList.filter fun entry => isChild key entry.1) := by
    rintro ⟨x, node⟩
    simp only [List.mem_filter, Std.TreeMap.mem_toList_iff_getElem?_eq_some]
    refine and_congr_left fun hchild => ?_
    obtain ⟨name, rfl⟩ := isChild_iff.mp hchild
    have hget : fs'.nodes[key ++ [name]]? = fs.nodes[key ++ [name]]? := hchildren name
    rw [hget]
  have hsame : (fs'.nodes.toList.filter fun entry => isChild key entry.1) =
      (fs.nodes.toList.filter fun entry => isChild key entry.1) := by
    have hnodup : ∀ fs : MemoryFileSystem,
        (fs.nodes.toList.filter fun entry => isChild key entry.1).Nodup := by
      refine fun fs => (hordered fs).imp fun hlt heq => ?_
      rw [heq, Std.ReflOrd.compare_self] at hlt
      cases hlt
    have hperm := (List.perm_ext_iff_of_nodup (hnodup fs') (hnodup fs)).mpr hmem
    refine hperm.eq_of_pairwise (fun a b _ _ hab hba => ?_) (hordered fs') (hordered fs)
    rw [Std.OrientedOrd.eq_swap, hba] at hab
    cases hab
  have hmetadata : fs'.metadata key.path = fs.metadata key.path := by
    unfold metadata
    rw [normalizePortablePath_of_names (names_key key)]
    simp only [bind, Except.bind]
    rw [hhere]
  unfold list
  rw [normalizePortablePath_of_names hp]
  simp only [bind, Except.bind]
  rw [hmetadata, hsame]

/-- Files that are found equal have the same bytes. -/
theorem readFile_of_filesEqual {left right : PathBuf} (h : fs.filesEqual left right = .ok true) :
    ∃ bytes, fs.readFile left = .ok bytes ∧ fs.readFile right = .ok bytes := by
  unfold filesEqual at h
  simp only [bind, Except.bind] at h
  split at h
  · cases h
  · split at h
    · cases h
    · split at h
      · cases h
      · cases hleft : fs.readFile left with
        | error e =>
            rw [hleft] at h
            cases h
        | ok leftBytes =>
            cases hright : fs.readFile right with
            | error e =>
                rw [hleft, hright] at h
                cases h
            | ok rightBytes =>
                rw [hleft, hright] at h
                have hbytes : leftBytes = rightBytes := by simpa [pure, Except.pure] using h
                exact ⟨leftBytes, rfl, hbytes ▸ rfl⟩

/-! ## Changes -/

/-- From one content to another a path keeps what it has, up to a new directory. -/
def Stays (c c' : PathTree Bytes Content) (x : Key) : Prop :=
  c' x = c x ∨ (c x = none ∧ c' x = some dirContent)

theorem Stays.refl (c : PathTree Bytes Content) (x : Key) : Stays c c x := Or.inl rfl

theorem Stays.some {c c' : PathTree Bytes Content} {x : Key} {a : Content} (h : Stays c c' x)
    (hx : c x = some a) : c' x = some a := by
  rcases h with h | ⟨h, -⟩
  · rw [h, hx]
  · rw [hx] at h
    cases h

theorem stays_fill (c : PathTree Bytes Content) (key x : Key) :
    Stays c (c.fill key dirContent) x := by
  unfold Stays PathTree.fill
  split
  · cases hx : c x with
    | none => exact Or.inr ⟨rfl, rfl⟩
    | some a => exact Or.inl rfl
  · exact Or.inl rfl

theorem stays_place {c : PathTree Bytes Content} {key x : Key} {a : Content} (h : x ≠ key) :
    Stays c (c.place key a dirContent) x := by
  have := stays_fill c key.dropLast x
  unfold Stays at this ⊢
  rwa [PathTree.place_of_ne h]

theorem createDirAll_of_clear {path : PathBuf} {key : Key} (hp : path.names = some key)
    (h : Clear fs.content key) : fs.createDirAll path = (.ok (), fs.createDirs key) := by
  unfold createDirAll
  rw [resolveWritePath_of_clear hp h]

/-- With its parent there, a key's node is where `place` puts it. -/
theorem createParent_of_clear {key : Key} (h : Clear fs.content key.dropLast) :
    ∃ fs', fs.createParent key = (.ok (), fs') ∧ (∀ x, Stays fs.content fs'.content x) ∧
      ∀ x, x ≠ key → fs'.content x = PathTree.fill fs.content key.dropLast dirContent x := by
  cases key using List.reverseRecOn with
  | nil =>
      refine ⟨fs, rfl, .refl _, fun x hx => ?_⟩
      rw [PathTree.fill_of_not]
      simpa using hx
  | append_singleton key name =>
      refine ⟨fs.createDirs key, ?_, fun x => ?_, fun x _ => ?_⟩
      · unfold createParent
        rw [parent_key_concat]
        exact createDirAll_of_clear (names_key key) (by rwa [List.dropLast_concat] at h)
      · rw [content_createDirs]
        exact stays_fill _ _ _
      · rw [content_createDirs, List.dropLast_concat]

theorem content_insert_createParent {fs' : MemoryFileSystem} {key : Key} (node : MemoryNode)
    (h : ∀ x, x ≠ key → fs'.content x = PathTree.fill fs.content key.dropLast dirContent x) :
    (fs'.insert key node).content = PathTree.place fs.content key node.content dirContent := by
  funext x
  rw [content_insert]
  by_cases hx : x = key
  · rw [hx, Function.update_self, PathTree.place_self]
  · rw [Function.update_of_ne hx, PathTree.place_of_ne hx, h x hx]

theorem writeFileAtomic_of_clear {path : PathBuf} {key : Key} (hp : path.names = some key)
    (h : Clear fs.content key) (bytes : Bytes) :
    ∃ fs', fs.writeFileAtomic path bytes = (.ok (), fs') ∧
      fs'.content = PathTree.place fs.content key (.file, bytes) dirContent := by
  obtain ⟨fs', hparent, -, hget⟩ := createParent_of_clear (h.of_prefix (List.dropLast_prefix key))
  refine ⟨fs'.insert key (fileNode bytes), ?_, content_insert_createParent _ hget⟩
  unfold writeFileAtomic
  rw [resolveWritePath_of_clear hp h]
  simp only [hparent, Outcome.andThen]

theorem copyFile_of_clear {source path : PathBuf} {key : Key} (hp : path.names = some key)
    (h : Clear fs.content key) (mode : FileWriteMode) :
    (∃ e, fs.readFile source = .error e ∧ fs.copyFileWithOptions source path mode = (.error e, fs)) ∨
      ∃ bytes fs', fs.readFile source = .ok bytes ∧
        fs.copyFileWithOptions source path mode = (.ok (), fs') ∧
        fs'.content = PathTree.place fs.content key (.file, bytes) dirContent := by
  unfold copyFileWithOptions
  cases hread : fs.readFile source with
  | error e => exact Or.inl ⟨e, rfl, rfl⟩
  | ok bytes =>
      obtain ⟨fs', hwrite, hget⟩ := writeFileAtomic_of_clear hp h bytes
      refine Or.inr ⟨bytes, fs', rfl, ?_, hget⟩
      cases mode with
      | atomic => exact hwrite
      | inPlace => exact hwrite

theorem appendFileFrom_of_clear {path source : PathBuf} {key : Key} (hp : path.names = some key)
    (h : Clear fs.content key) (offset : Nat) :
    (∃ e, fs.appendFileFrom path source offset = (.error e, fs)) ∨
      ∃ bytes tail fs', fs.content key = some (.file, bytes) ∧ fs.readFile source = .ok tail ∧
        fs.appendFileFrom path source offset = (.ok (), fs') ∧
        fs'.content = Function.update fs.content key (some (.file, bytes ++ tail.drop offset)) := by
  unfold appendFileFrom
  cases fs.readFile source with
  | error e => exact Or.inl ⟨e, rfl⟩
  | ok bytes =>
      by_cases hlen : offset > bytes.length
      · exact Or.inl ⟨_, by simp only [if_pos hlen]; rfl⟩
      · simp only [if_neg hlen]
        unfold appendFile
        rw [resolveWritePath_of_clear hp h]
        cases hget : fs.get key with
        | none => exact Or.inl ⟨_, by simp only [hget]; rfl⟩
        | some node =>
            by_cases hfile : node.metadata.fileType = .file
            · refine Or.inr ⟨node.bytes, bytes, _, ?_, rfl, by simp [hget, hfile]; rfl, ?_⟩
              · rw [content_of_get hget, MemoryNode.content, hfile]
              · rw [content_insert]
                simp only [MemoryNode.content]
            · exact Or.inl ⟨_, by simp only [hget, ne_eq, hfile, not_false_eq_true, if_true]; rfl⟩

theorem renameFile_of_clear {source path : PathBuf} {skey key : Key}
    (hs : source.names = some skey) (hp : path.names = some key) (h : Clear fs.content key) :
    ∃ fs₁, (∀ x, Stays fs.content fs₁.content x) ∧
      (∀ x, x ≠ key → fs₁.content x = PathTree.fill fs.content key.dropLast dirContent x) ∧
      ((∃ e, fs.renameFile source path = (.error e, fs₁)) ∨
        ∃ c fs', fs₁.content skey = some c ∧ fs.renameFile source path = (.ok (), fs') ∧
          fs'.content = Function.update (Function.update fs₁.content skey none) key (some c)) := by
  obtain ⟨fs₁, hparent, hstays, hget⟩ :=
    createParent_of_clear (h.of_prefix (List.dropLast_prefix key))
  refine ⟨fs₁, hstays, hget, ?_⟩
  unfold renameFile
  rw [normalizePortablePath_of_names hs, resolveWritePath_of_clear hp h]
  simp only [hparent, Outcome.andThen]
  cases hnode : fs₁.get skey with
  | none => exact Or.inl ⟨_, rfl⟩
  | some node =>
      refine Or.inr ⟨node.content, _, content_of_get hnode, rfl, ?_⟩
      rw [content_insert, content_erase]

theorem createSymlink_of_clear {path target : PathBuf} {key : Key} (hp : path.names = some key)
    (h : Clear fs.content key.dropLast) :
    ∃ fs', fs.createSymlink path target = (.ok (), fs') ∧
      fs'.content = PathTree.place fs.content key (.symlink, []) dirContent := by
  obtain ⟨fs', hparent, -, hget⟩ := createParent_of_clear h
  refine ⟨_, ?_, content_insert_createParent
    { metadata := { fileType := .symlink, symlinkTarget := some target } } hget⟩
  unfold createSymlink
  rw [normalizePortablePath_of_names hp]
  simp only [hparent, Outcome.andThen]

theorem removeFile_cases {path : PathBuf} {key : Key} (hp : path.names = some key) :
    (∃ e, fs.removeFile path = (.error e, fs) ∧
        ∀ c, fs.content key = some c → c.1 = .directory) ∨
      ∃ c fs', fs.content key = some c ∧ c.1 ≠ .directory ∧ fs.removeFile path = (.ok (), fs') ∧
        fs'.content = Function.update fs.content key none := by
  unfold removeFile
  rw [normalizePortablePath_of_names hp]
  cases hget : fs.get key with
  | none =>
      refine Or.inl ⟨_, by simp only [hget]; rfl, ?_⟩
      simp [content_eq_none.mpr hget]
  | some node =>
      by_cases hdir : node.metadata.fileType = .directory
      · refine Or.inl ⟨_, by simp only [hget, if_pos hdir]; rfl, ?_⟩
        rw [content_of_get hget]
        rintro _ ⟨⟩
        exact hdir
      · refine Or.inr ⟨node.content, fs.erase key, content_of_get hget, hdir, ?_, content_erase key⟩
        simp only [hget, if_neg hdir]

theorem removeDirAll_cases {path : PathBuf} {key : Key} (hp : path.names = some key) :
    (∃ e, fs.removeDirAll path = (.error e, fs) ∧
        (key = [] ∨ ∀ x, key <+: x → fs.content x = none)) ∨
      ∃ fs', key ≠ [] ∧ fs.removeDirAll path = (.ok (), fs') ∧
        fs'.content = PathTree.prune fs.content key := by
  unfold removeDirAll
  rw [normalizePortablePath_of_names hp]
  by_cases hkey : key = []
  · exact Or.inl ⟨_, by simp only [if_pos hkey]; rfl, Or.inl hkey⟩
  · simp only [if_neg hkey]
    by_cases hany : fs.nodes.keys.any fun candidate => key.isPrefixOf candidate
    · exact Or.inr ⟨_, hkey, by rw [if_pos hany], content_eraseBelow key⟩
    · refine Or.inl ⟨_, by rw [if_neg hany], Or.inr fun x hx => content_eq_none.mpr ?_⟩
      cases hget : fs.get x with
      | none => rfl
      | some node =>
          refine absurd (List.any_eq_true.mpr ⟨x, mem_keys.mpr (by rw [hget]; rfl), ?_⟩) hany
          exact List.isPrefixOf_iff_prefix.mpr hx

/-- A removal that succeeds leaves nothing. -/
theorem content_of_removeFile {path : PathBuf} {key : Key} (hp : path.names = some key)
    (h : (fs.removeFile path).1 = .ok ()) : (fs.removeFile path).2.content key = none := by
  rcases removeFile_cases hp with ⟨e, hrun, -⟩ | ⟨c, fs', -, -, hrun, hc⟩
  · rw [hrun] at h
    cases h
  · rw [hrun, hc]
    exact Function.update_self ..

theorem content_of_removeDirAll {path : PathBuf} {key : Key} (hp : path.names = some key)
    (h : (fs.removeDirAll path).1 = .ok ()) : (fs.removeDirAll path).2.content key = none := by
  rcases removeDirAll_cases hp with ⟨e, hrun, -⟩ | ⟨fs', -, hrun, hc⟩
  · rw [hrun] at h
    cases h
  · rw [hrun, hc]
    exact PathTree.prune_of_prefix (List.prefix_refl key)

theorem content_setMtime (path : PathBuf) (modified : Int) :
    (fs.setMtime path modified).2.content = fs.content := by
  unfold setMtime
  cases hp : normalizePortablePath path with
  | error e => rfl
  | ok key =>
      cases hget : fs.get key with
      | none => simp only [hget]
      | some node =>
          simp only [hget]
          exact content_insert_same hget rfl

/-! ## Hard links -/

theorem content_refreshHardlinkCount (id : HardlinkId) :
    (fs.refreshHardlinkCount id).content = fs.content := by
  funext x
  unfold content PathTree.map refreshHardlinkCount get
  rw [Std.TreeMap.getElem?_map, Option.map_map]
  congr 1
  funext node
  simp only [Function.comp]
  split <;> rfl

/-- Linking under an identity changes no content, and needs a regular file. -/
theorem content_ensureHardlinkId {key : Key} {id : HardlinkId} {fs' : MemoryFileSystem}
    (h : fs.ensureHardlinkId key = .ok (id, fs')) :
    fs'.content = fs.content ∧ ∃ bytes, fs.content key = some (.file, bytes) := by
  unfold ensureHardlinkId at h
  cases hget : fs.get key with
  | none => simp [hget] at h
  | some node =>
      by_cases hfile : node.metadata.fileType = .file
      · have hkey : fs.content key = some (.file, node.bytes) := by
          rw [content_of_get hget, MemoryNode.content, hfile]
        cases hid : node.metadata.hardlinkId with
        | some id' =>
            simp only [hget, hfile, hid, ne_eq, not_true_eq_false, if_false] at h
            cases h
            exact ⟨rfl, node.bytes, hkey⟩
        | none =>
            simp only [hget, hfile, hid, ne_eq, not_true_eq_false, if_false] at h
            cases h
            refine ⟨?_, node.bytes, hkey⟩
            refine content_insert_same hget ?_
            rw [MemoryNode.content, MemoryNode.content, hfile]
      · simp [hget, hfile] at h

theorem createHardLink_of_clear {existing link : PathBuf} {ekey key : Key}
    (he : existing.names = some ekey) (hp : link.names = some key)
    (hclearE : Clear fs.content ekey) (hclear : Clear fs.content key) :
    (∃ e, fs.createHardLink existing link = (.error e, fs)) ∨
      ∃ bytes fs', fs.content ekey = some (.file, bytes) ∧
        fs.createHardLink existing link = (.ok (), fs') ∧
        fs'.content = PathTree.place fs.content key (.file, bytes) dirContent := by
  unfold createHardLink
  rw [resolveWritePath_of_clear he hclearE, resolveWritePath_of_clear hp hclear]
  cases hid : fs.ensureHardlinkId ekey with
  | error e => exact Or.inl ⟨e, by simp only [hid]⟩
  | ok idfs =>
      obtain ⟨id, fs₁⟩ := idfs
      obtain ⟨hcontent, bytes, hfile⟩ := content_ensureHardlinkId hid
      rw [← hcontent] at hfile
      obtain ⟨node, hnode, hnodec⟩ := get_of_content hfile
      obtain ⟨htype, rfl⟩ := Prod.mk.inj hnodec
      have hclear₁ : Clear fs₁.content key := by rwa [hcontent]
      obtain ⟨fs₂, hparent, -, hget⟩ :=
        createParent_of_clear (hclear₁.of_prefix (List.dropLast_prefix key))
      let linked : MemoryNode :=
        { node with
          metadata := { node.metadata with hardlinkId := some id, hardlinkCount := some 1 } }
      refine Or.inr ⟨node.bytes, (fs₂.insert key linked).refreshHardlinkCount id,
        by rw [← hcontent]; exact hfile, ?_, ?_⟩
      · simp only [hid, hnode, hparent, Outcome.andThen, linked]
      · rw [content_refreshHardlinkCount, content_insert_createParent _ hget, hcontent]
        simp only [MemoryNode.content, htype, linked]

/-! ## Paths that are not made of names -/

section Invalid

variable {path source : PathBuf}

theorem resolveWritePath_of_none (h : path.names = none) :
    fs.resolveWritePath path = .error (.invalidPortablePath path) := by
  unfold resolveWritePath
  rw [normalizePortablePath_of_none h]
  rfl

theorem createDirAll_of_none (h : path.names = none) : (fs.createDirAll path).2 = fs := by
  simp only [createDirAll, resolveWritePath_of_none h]

theorem removeFile_of_none (h : path.names = none) : (fs.removeFile path).2 = fs := by
  simp only [removeFile, normalizePortablePath_of_none h]

theorem removeDirAll_of_none (h : path.names = none) : (fs.removeDirAll path).2 = fs := by
  simp only [removeDirAll, normalizePortablePath_of_none h]

theorem copyFile_of_none (h : path.names = none) (mode : FileWriteMode) :
    (fs.copyFileWithOptions source path mode).2 = fs := by
  unfold copyFileWithOptions
  cases fs.readFile source with
  | error e => rfl
  | ok bytes =>
      cases mode <;> simp only [writeFileWithOptions, writeFileAtomic, resolveWritePath_of_none h]

theorem renameFile_of_none (h : source.names = none ∨ path.names = none) :
    (fs.renameFile source path).2 = fs := by
  unfold renameFile
  cases hs : source.names with
  | none => simp only [normalizePortablePath_of_none hs]
  | some key =>
      have hp : path.names = none := by simpa [hs] using h
      simp only [normalizePortablePath_of_names hs, resolveWritePath_of_none hp]

theorem appendFileFrom_of_none (h : path.names = none) (offset : Nat) :
    (fs.appendFileFrom path source offset).2 = fs := by
  unfold appendFileFrom
  cases fs.readFile source with
  | error e => rfl
  | ok bytes =>
      simp only
      split
      · rfl
      · simp only [appendFile, resolveWritePath_of_none h]

theorem createSymlink_of_none (h : path.names = none) (target : PathBuf) :
    (fs.createSymlink path target).2 = fs := by
  simp only [createSymlink, normalizePortablePath_of_none h]

theorem createHardLink_of_none (h : source.names = none ∨ path.names = none) :
    (fs.createHardLink source path).2 = fs := by
  unfold createHardLink
  cases hs : source.names with
  | none => simp only [resolveWritePath_of_none hs]
  | some key =>
      have hp : path.names = none := by simpa [hs] using h
      cases fs.resolveWritePath source with
      | error e => rfl
      | ok key => simp only [resolveWritePath_of_none hp]

end Invalid

end MemoryFileSystem

end RsyncWin.Fs
