import RsyncWin.Protocol.Flist
import RsyncWin.Lib.SortBy

/-!
# Collecting the local source (`rsync-cli/src/remote/flist.rs`)

The walk over a source that both the pushing client and the daemon's sender
index. `list` returns the entries of a directory sorted by name; the walk emits
an entry, then descends into it. A source with a symlink or a special file is
refused by the walk and has no list, so a tree holds files and directories only.
-/

namespace RsyncWin

open ByteString

/-- What the walk records of a file or directory besides its place. `mode` is
the result of `remote_wire_mode`, `checksum` that of `checksum_local_path`. -/
structure SourceMeta where
  len : Nat
  mtimeUnix : Int
  mode : Nat
  checksum : Bytes
  hardlinkGroup : Option RsyncHardLinkGroup
  metadata : RsyncFileListMetadata

/-- A directory listing, each directory with its own listing. -/
inductive Listing where
  | nil
  | file (name : Bytes) (info : SourceMeta) (rest : Listing)
  | directory (name : Bytes) (info : SourceMeta) (children rest : Listing)

def Listing.names : Listing → List Bytes
  | .nil => []
  | .file name _ rest => name :: rest.names
  | .directory name _ _ rest => name :: rest.names

/-- A name that is text. -/
structure TextName (name : Bytes) : Prop extends ValidName name where
  utf8 : (utf8Chars name).isSome = true

/-- A name as it comes from the file system: text, without separators. -/
structure SourceName (name : Bytes) : Prop extends ValidName name where
  utf8 : (utf8Chars name).isSome = true
  no_backslash : 0x5c ∉ name

theorem SourceName.text {name : Bytes} (h : SourceName name) : TextName name :=
  ⟨h.toValidName, h.utf8⟩

instance (name : Bytes) : Decidable (SourceName name) :=
  decidable_of_iff
    ((name ≠ [] ∧ slash ∉ name ∧ name ≠ [dot] ∧ name ≠ [dot, dot]) ∧
      (utf8Chars name).isSome = true ∧ 0x5c ∉ name)
    ⟨fun ⟨⟨h1, h2, h3, h4⟩, h5, h6⟩ => ⟨⟨h1, h2, h3, h4⟩, h5, h6⟩,
      fun h => ⟨⟨h.ne_nil, h.no_slash, h.ne_dot, h.ne_dotdot⟩, h.utf8, h.no_backslash⟩⟩

/-- Listings as `list` returns them: names in increasing order, at every level. -/
def Listing.Sorted : Listing → Prop
  | .nil => True
  | .file name _ rest =>
      SourceName name ∧ (∀ n ∈ rest.names, compare name n = .lt) ∧ rest.Sorted
  | .directory name _ children rest =>
      SourceName name ∧ (∀ n ∈ rest.names, compare name n = .lt) ∧ children.Sorted ∧ rest.Sorted

instance instDecidableSorted : ∀ l : Listing, Decidable l.Sorted
  | .nil => inferInstanceAs (Decidable True)
  | .file name _ rest =>
      let _ := instDecidableSorted rest
      inferInstanceAs (Decidable (SourceName name ∧ (∀ n ∈ rest.names, compare name n = .lt) ∧
        rest.Sorted))
  | .directory name _ children rest =>
      let _ := instDecidableSorted children
      let _ := instDecidableSorted rest
      inferInstanceAs (Decidable (SourceName name ∧ (∀ n ∈ rest.names, compare name n = .lt) ∧
        children.Sorted ∧ rest.Sorted))

structure RemoteSourceEntry where
  wire : RsyncFileListEntry
  localPath : Bytes

/-- `skipped` is what the filter rules and the files-from list say about a
relative path. -/
structure LocalSourceCollectOptions where
  recursive : Bool
  includeChecksums : Bool
  skipped : Bytes → WireFileType → Bool

def sourceEntry (options : LocalSourceCollectOptions) (relative localPath : Bytes)
    (fileType : WireFileType) (info : SourceMeta) : RemoteSourceEntry where
  wire :=
    { path := relative
      fileType
      len := if fileType = .file then info.len else 0
      mtimeUnix := info.mtimeUnix
      mode := info.mode
      checksum := if options.includeChecksums ∧ fileType = .file then some info.checksum else none
      hardlinkGroup := if fileType = .file then info.hardlinkGroup else none
      metadata := info.metadata }
  localPath

def collectLocalDirectorySourceEntries (options : LocalSourceCollectOptions)
    (current relativeRoot : Bytes) : Listing → List RemoteSourceEntry
  | .nil => []
  | .file name info rest =>
      let relative := pathJoin relativeRoot name
      (if options.skipped relative .file then []
        else [sourceEntry options relative (pathJoin current name) .file info]) ++
      collectLocalDirectorySourceEntries options current relativeRoot rest
  | .directory name info children rest =>
      let relative := pathJoin relativeRoot name
      (if options.skipped relative .directory then []
        else sourceEntry options relative (pathJoin current name) .directory info ::
          (if options.recursive then
            collectLocalDirectorySourceEntries options (pathJoin current name) relative children
          else [])) ++
      collectLocalDirectorySourceEntries options current relativeRoot rest

/-- One source operand. -/
inductive Source where
  | file (path name : Bytes) (info : SourceMeta)
  | directory (path : Bytes) (info : SourceMeta) (children : Listing)

/-- `RSYNC_DIRECTORY_MODE`. -/
def rsyncDirectoryMode : Nat := 0o040755

def topDirEntry (path : Bytes) (info : SourceMeta) : RemoteSourceEntry where
  wire :=
    { path := [dot], fileType := .directory, len := 0, mtimeUnix := info.mtimeUnix,
      mode := rsyncDirectoryMode, metadata := info.metadata }
  localPath := path

def collectSingleLocalSourceEntries (options : LocalSourceCollectOptions) :
    Source → List RemoteSourceEntry
  | .file path name info =>
      if options.skipped name .file then [] else [sourceEntry options name path .file info]
  | .directory path info children =>
      topDirEntry path info :: collectLocalDirectorySourceEntries options path [] children

/-- The list the daemon's sender indexes: the walk, sorted by wire path. -/
def collectLocalSourceEntries (options : LocalSourceCollectOptions) (source : Source) :
    List RemoteSourceEntry :=
  sortBy (fun left right => comparePath left.wire.path right.wire.path)
    (collectSingleLocalSourceEntries options source)

/-- The list the pushing client indexes: the walk, batch after batch. -/
def collectLocalPushSourceEntries (options : LocalSourceCollectOptions) (source : Source) :
    List RemoteSourceEntry :=
  collectSingleLocalSourceEntries options source

def Source.Sorted : Source → Prop
  | .file _ name _ => SourceName name
  | .directory _ _ children => children.Sorted

/-! ## The walk, by component names -/

/-- The names below `root` of what the walk emits, with their types. -/
def keptNames (options : LocalSourceCollectOptions) (root : List Bytes) :
    Listing → List (List Bytes × WireFileType)
  | .nil => []
  | .file name _ rest =>
      (if options.skipped (joinNames (root ++ [name])) .file then [] else [([name], .file)]) ++
      keptNames options root rest
  | .directory name _ children rest =>
      (if options.skipped (joinNames (root ++ [name])) .directory then []
        else ([name], .directory) ::
          (if options.recursive then
            (keptNames options (root ++ [name]) children).map fun p => (name :: p.1, p.2)
          else [])) ++
      keptNames options root rest

variable {options : LocalSourceCollectOptions}

theorem collect_eq_keptNames : ∀ {l : Listing} {root : List Bytes},
    l.Sorted → (∀ n ∈ root, ValidName n) →
    ∀ current, (collectLocalDirectorySourceEntries options current (joinNames root) l).map
        (fun e => (e.wire.path, e.wire.fileType)) =
      (keptNames options root l).map fun p => (joinNames (root ++ p.1), p.2)
  | .nil, _, _, _, _ => rfl
  | .file name info rest, root, hl, hroot, current => by
      obtain ⟨-, -, hrest⟩ := hl
      rw [collectLocalDirectorySourceEntries, keptNames, pathJoin_joinNames hroot]
      simp only [List.map_append, collect_eq_keptNames hrest hroot]
      by_cases hs : options.skipped (joinNames (root ++ [name])) .file = true
      · simp [hs]
      · simp [hs, sourceEntry]
  | .directory name info children rest, root, hl, hroot, current => by
      obtain ⟨hname, -, hch, hrest⟩ := hl
      have hroot' : ∀ n ∈ root ++ [name], ValidName n := by
        intro n hn
        rcases List.mem_append.mp hn with h | h
        · exact hroot n h
        · rw [List.mem_singleton.mp h]
          exact hname.toValidName
      rw [collectLocalDirectorySourceEntries, keptNames, pathJoin_joinNames hroot]
      simp only [List.map_append, collect_eq_keptNames hrest hroot]
      by_cases hs : options.skipped (joinNames (root ++ [name])) .directory = true
      · simp [hs]
      · by_cases hr : options.recursive = true
        · simp [hs, hr, sourceEntry, collect_eq_keptNames hch hroot']
        · simp [hs, hr, sourceEntry]

theorem mem_keptNames : ∀ {l : Listing} {root : List Bytes} {p : List Bytes × WireFileType},
    p ∈ keptNames options root l → ∃ n t, p.1 = n :: t ∧ n ∈ l.names
  | .nil, _, _, h => by simp [keptNames] at h
  | .file name info rest, root, p, h => by
      rw [keptNames, List.mem_append] at h
      rcases h with h | h
      · split at h
        · simp at h
        · rw [List.mem_singleton.mp h]
          exact ⟨name, [], rfl, by simp [Listing.names]⟩
      · obtain ⟨n, t, hp, hn⟩ := mem_keptNames h
        exact ⟨n, t, hp, by simp [Listing.names, hn]⟩
  | .directory name info children rest, root, p, h => by
      rw [keptNames, List.mem_append] at h
      rcases h with h | h
      · split at h
        · simp at h
        · rcases List.mem_cons.mp h with rfl | h
          · exact ⟨name, [], rfl, by simp [Listing.names]⟩
          · split at h
            · obtain ⟨q, -, rfl⟩ := List.mem_map.mp h
              exact ⟨name, q.1, rfl, by simp [Listing.names]⟩
            · simp at h
      · obtain ⟨n, t, hp, hn⟩ := mem_keptNames h
        exact ⟨n, t, hp, by simp [Listing.names, hn]⟩

theorem compare_cons_of_lt {α : Type} [Ord α] {a b : α} (h : compare a b = .lt) (as bs : List α) :
    compare (a :: as) (b :: bs) = .lt := by
  show List.compareLex compare _ _ = _
  rw [List.compareLex_cons_cons, h]
  rfl

theorem compare_cons_self {α : Type} [Ord α] [Std.ReflOrd α] (a : α) (as bs : List α) :
    compare (a :: as) (a :: bs) = compare as bs := by
  show List.compareLex compare _ _ = List.compareLex compare _ _
  rw [List.compareLex_cons_cons, Std.ReflOrd.compare_self]
  rfl

/-- The walk emits names in strictly increasing order. -/
theorem keptNames_increasing : ∀ {l : Listing} {root : List Bytes}, l.Sorted →
    (keptNames options root l).Pairwise fun p q => compare p.1 q.1 = .lt
  | .nil, _, _ => List.Pairwise.nil
  | .file name info rest, root, h => by
      obtain ⟨-, hlt, hrest⟩ := h
      rw [keptNames, List.pairwise_append]
      refine ⟨by split <;> simp, keptNames_increasing hrest, ?_⟩
      intro p hp q hq
      obtain ⟨n, t, hq1, hn⟩ := mem_keptNames hq
      split at hp
      · simp at hp
      · rw [List.mem_singleton.mp hp, hq1]
        exact compare_cons_of_lt (hlt n hn) _ _
  | .directory name info children rest, root, h => by
      obtain ⟨-, hlt, hch, hrest⟩ := h
      rw [keptNames, List.pairwise_append]
      refine ⟨?_, keptNames_increasing hrest, ?_⟩
      · split
        · exact List.Pairwise.nil
        · rw [List.pairwise_cons]
          split
          · refine ⟨?_, ?_⟩
            · intro q hq
              obtain ⟨r, hr, rfl⟩ := List.mem_map.mp hq
              obtain ⟨n, t, hr1, -⟩ := mem_keptNames hr
              rw [compare_cons_self, hr1]
              rfl
            · rw [List.pairwise_map]
              refine (keptNames_increasing hch).imp ?_
              intro p q hpq
              rw [compare_cons_self, hpq]
          · exact ⟨by simp, List.Pairwise.nil⟩
      · intro p hp q hq
        obtain ⟨n, t, hq1, hn⟩ := mem_keptNames hq
        have hhead : ∃ u, p.1 = name :: u := by
          split at hp
          · simp at hp
          · rcases List.mem_cons.mp hp with rfl | hp
            · exact ⟨[], rfl⟩
            · split at hp
              · obtain ⟨r, -, rfl⟩ := List.mem_map.mp hp
                exact ⟨r.1, rfl⟩
              · simp at hp
        obtain ⟨u, hu⟩ := hhead
        rw [hu, hq1]
        exact compare_cons_of_lt (hlt n hn) _ _

theorem keptNames_valid : ∀ {l : Listing} {root : List Bytes} {p : List Bytes × WireFileType},
    l.Sorted → p ∈ keptNames options root l → ∀ n ∈ p.1, SourceName n
  | .nil, _, _, _, h => by simp [keptNames] at h
  | .file name info rest, root, p, hl, h => by
      obtain ⟨hname, -, hrest⟩ := hl
      rw [keptNames, List.mem_append] at h
      rcases h with h | h
      · split at h
        · simp at h
        · rw [List.mem_singleton.mp h]
          simpa using hname
      · exact keptNames_valid hrest h
  | .directory name info children rest, root, p, hl, h => by
      obtain ⟨hname, -, hch, hrest⟩ := hl
      rw [keptNames, List.mem_append] at h
      rcases h with h | h
      · split at h
        · simp at h
        · rcases List.mem_cons.mp h with rfl | h
          · simpa using hname
          · split at h
            · obtain ⟨q, hq, rfl⟩ := List.mem_map.mp h
              have ih := keptNames_valid hch hq
              simpa [hname] using ih
            · simp at h
      · exact keptNames_valid hrest h

end RsyncWin
