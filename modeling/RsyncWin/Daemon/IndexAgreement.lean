import RsyncWin.Remote.SenderOrder

/-!
# File indices between a client and the daemon

Neither end sends the order of its list. In a pull the daemon indexes its walk
sorted by path and the client re-sorts what it decoded; in a push the client
indexes its walk and the daemon re-sorts. Both agree exactly on the trees whose
file names come before the directory names in every directory.
-/

namespace RsyncWin

open ByteString

variable {options : LocalSourceCollectOptions} {source : Source}

/-! ## The walk of a source -/

def sourceNames (options : LocalSourceCollectOptions) : Source → List (List Bytes × WireFileType)
  | .file _ name _ => if options.skipped name .file then [] else [([name], .file)]
  | .directory _ _ children => ([], .directory) :: keptNames options [] children

def Source.FilesFirst (options : LocalSourceCollectOptions) : Source → Prop
  | .file _ _ _ => True
  | .directory _ _ children => RsyncWin.FilesFirst options [] children

theorem walkedNames_sourceNames (h : source.Sorted) : WalkedNames (sourceNames options source) := by
  cases source with
  | file path name info =>
      have hname : SourceName name := h
      by_cases hs : options.skipped name .file = true
      · simp only [sourceNames, hs, if_true]
        exact ⟨by simp, List.Pairwise.nil, by simp⟩
      · simp only [sourceNames, hs]
        exact ⟨by simpa using hname, by simp, by simp⟩
  | directory path info children =>
      constructor
      · intro p hp
        rcases List.mem_cons.mp hp with rfl | hp
        · simp
        · exact keptNames_valid h hp
      · rw [sourceNames, List.pairwise_cons]
        refine ⟨?_, keptNames_increasing h⟩
        intro q hq
        obtain ⟨n, t, hq1, -⟩ := mem_keptNames hq
        rw [hq1]
        rfl
      · intro p hp hnil
        rcases List.mem_cons.mp hp with rfl | hp
        · rfl
        · obtain ⟨n, t, hp1, -⟩ := mem_keptNames hp
          simp [hp1] at hnil

theorem collectSingle_eq_sourceNames (h : source.Sorted) :
    (collectSingleLocalSourceEntries options source).map
        (fun e => (e.wire.path, e.wire.fileType)) =
      (sourceNames options source).map fun p => (wirePathOf p.1, p.2) := by
  cases source with
  | file path name info =>
      by_cases hs : options.skipped name .file = true
      · simp [collectSingleLocalSourceEntries, sourceNames, hs]
      · simp [collectSingleLocalSourceEntries, sourceNames, hs, sourceEntry, wirePathOf, joinNames]
  | directory path info children =>
      have hwalk : (collectLocalDirectorySourceEntries options path [] children).map
            (fun e => (e.wire.path, e.wire.fileType)) =
          (keptNames options [] children).map fun p => (joinNames ([] ++ p.1), p.2) :=
        @collect_eq_keptNames options children [] h (by simp) path
      have hnames : (keptNames options [] children).map (fun p => (joinNames ([] ++ p.1), p.2)) =
          (keptNames options [] children).map fun p => (wirePathOf p.1, p.2) := by
        refine List.map_congr_left fun p hp => ?_
        obtain ⟨n, t, hp1, -⟩ := mem_keptNames hp
        simp [wirePathOf, hp1]
      rw [collectSingleLocalSourceEntries, sourceNames, List.map_cons, List.map_cons]
      rw [hnames] at hwalk
      exact congrArg₂ List.cons rfl hwalk

theorem compare_normal (a b : Bytes) : compare (Component.normal a) (Component.normal b) = compare a b := by
  show (compare 3 3).then (compare a b) = compare a b
  rfl

theorem compare_map_normal : ∀ ps qs : List Bytes,
    compare (ps.map Component.normal) (qs.map Component.normal) = compare ps qs
  | [], [] => rfl
  | [], _ :: _ => rfl
  | _ :: _, [] => rfl
  | p :: ps, q :: qs => by
      have ih : List.compareLex compare (ps.map Component.normal) (qs.map Component.normal) =
          List.compareLex compare ps qs := compare_map_normal ps qs
      show List.compareLex compare _ _ = List.compareLex compare _ _
      rw [List.map_cons, List.map_cons, List.compareLex_cons_cons, List.compareLex_cons_cons,
        compare_normal, ih]

/-- Increasing names are increasing paths. -/
theorem comparePath_wirePathOf {ps qs : List Bytes} (hp : ∀ n ∈ ps, ValidName n)
    (hq : ∀ n ∈ qs, ValidName n) (h : compare ps qs = .lt) :
    comparePath (wirePathOf ps) (wirePathOf qs) = .lt := by
  have hq0 : qs ≠ [] := by
    rintro rfl
    cases ps <;> cases h
  unfold comparePath
  rw [components_wirePathOf hp, components_wirePathOf hq, if_neg hq0]
  by_cases hp0 : ps = []
  · obtain ⟨q, qs, rfl⟩ := List.exists_cons_of_ne_nil hq0
    rw [if_pos hp0]
    rfl
  · rw [if_neg hp0, compare_map_normal, h]

/-- The walk of a source is in path order, so sorting it by path changes
nothing. -/
theorem collectLocalSourceEntries_eq_walk (h : source.Sorted) :
    collectLocalSourceEntries options source = collectSingleLocalSourceEntries options source := by
  have hns : WalkedNames (sourceNames options source) := walkedNames_sourceNames h
  have hpaths : (collectSingleLocalSourceEntries options source).map (·.wire.path) =
      (sourceNames options source).map fun p => wirePathOf p.1 := by
    have heq := congrArg (List.map Prod.fst) (@collectSingle_eq_sourceNames options source h)
    rwa [List.map_map, List.map_map] at heq
  have hin : ((sourceNames options source).map fun p => wirePathOf p.1).Pairwise
      fun a b => (comparePath a b).isLE = true := by
    rw [List.pairwise_map]
    refine hns.increasing.imp_of_mem fun {p q} hp hq hlt => ?_
    rw [comparePath_wirePathOf (fun n hn => (hns.valid p hp n hn).toValidName)
      (fun n hn => (hns.valid q hq n hn).toValidName) hlt]
    rfl
  refine sortBy_of_inOrder ?_
  rw [← hpaths, List.pairwise_map] at hin
  exact hin

/-! ## Agreement -/

theorem pairwise_sourceNames_iff {isDirectory : List Bytes → Bool} (h : source.Sorted)
    (hdir : ∀ p ∈ sourceNames options source, p.1 ≠ [] →
      isDirectory p.1 = decide (p.2 = WireFileType.directory)) :
    (sourceNames options source).Pairwise (keyLE isDirectory []) ↔ source.FilesFirst options := by
  cases source with
  | file path name info =>
      simp only [sourceNames, Source.FilesFirst, iff_true]
      split <;> simp
  | directory path info children =>
      have hch : ∀ p ∈ keptNames options [] children,
          isDirectory ([] ++ p.1) = decide (p.2 = WireFileType.directory) := by
        intro p hp
        obtain ⟨n, t, hp1, -⟩ := mem_keptNames hp
        exact hdir p (by simp [sourceNames, hp]) (by simp [hp1])
      rw [sourceNames, List.pairwise_cons, Source.FilesFirst,
        ← pairwise_keyLE_iff_filesFirst h hch]
      refine and_iff_right fun q _ => ?_
      exact List.isLE_compareLex_nil_left

/-- Entries with the names and types of a walked source keep their order under
the sender sort exactly when its file names come first. -/
theorem sortRemoteEntries_source_iff {entries : List RsyncFileListEntry} (h : source.Sorted)
    (he : entries.map (fun e => (e.path, e.fileType)) =
      (sourceNames options source).map fun p => (wirePathOf p.1, p.2)) :
    (sortRemoteEntriesForSenderIndexes entries).map (·.path) = entries.map (·.path) ↔
      source.FilesFirst options := by
  have hns : WalkedNames (sourceNames options source) := walkedNames_sourceNames h
  rw [sortRemoteEntries_paths_iff hns he]
  exact pairwise_sourceNames_iff h fun p hp hne => isListedDirectory_walked hns he hp hne

/-- Two lists name the same path at every index. -/
def SameIndexPaths {α β : Type} (f : α → Bytes) (g : β → Bytes) (xs : List α) (ys : List β) :
    Prop :=
  ∀ i : Nat, (xs[i]?).map f = (ys[i]?).map g

theorem sameIndexPaths_iff {α β : Type} {f : α → Bytes} {g : β → Bytes} {xs : List α}
    {ys : List β} : SameIndexPaths f g xs ys ↔ xs.map f = ys.map g := by
  constructor
  · intro h
    apply List.ext_getElem?
    intro i
    simpa using h i
  · intro h i
    rw [← List.getElem?_map, h, List.getElem?_map]

/-! ## Names on the wire -/

theorem utf8_joinNames : ∀ {names : List Bytes}, (∀ n ∈ names, (utf8Chars n).isSome = true) →
    (utf8Chars (joinNames names)).isSome = true
  | [], _ => rfl
  | [n], h => by simpa [joinNames, List.intercalate] using h n
  | n :: m :: rest, h => by
      have hrest : (utf8Chars (joinNames (m :: rest))).isSome = true :=
        utf8_joinNames fun x hx => h x (List.mem_cons_of_mem _ hx)
      have hslash : (utf8Chars ([slash] ++ joinNames (m :: rest))).isSome = true :=
        utf8_append hrest (Nat.le_refl _) (by decide)
      have hjoin : joinNames (n :: m :: rest) = n ++ ([slash] ++ joinNames (m :: rest)) := by
        simp [joinNames, List.intercalate_cons_cons]
      rw [hjoin]
      exact utf8_append hslash (Nat.le_refl _) (h n List.mem_cons_self)

theorem not_mem_joinNames {b : UInt8} (hb : b ≠ slash) : ∀ {names : List Bytes},
    (∀ n ∈ names, b ∉ n) → b ∉ joinNames names
  | [], _ => by simp [joinNames]
  | [n], h => by simpa [joinNames, List.intercalate] using h
  | n :: m :: rest, h => by
      have hrest : b ∉ joinNames (m :: rest) :=
        not_mem_joinNames hb fun x hx => h x (List.mem_cons_of_mem _ hx)
      have hjoin : joinNames (n :: m :: rest) = n ++ ([slash] ++ joinNames (m :: rest)) := by
        simp [joinNames, List.intercalate_cons_cons]
      rw [hjoin, List.mem_append, List.mem_append, List.mem_singleton]
      rintro (hn | rfl | hr)
      · exact h n List.mem_cons_self hn
      · exact hb rfl
      · exact hrest hr

/-- The path of a walked entry is already in wire form. -/
theorem wirePathBytes_wirePathOf {names : List Bytes} (h : ∀ n ∈ names, SourceName n) :
    wirePathBytes (wirePathOf names) = wirePathOf names := by
  unfold wirePathOf
  split
  · decide
  · have hutf8 : (utf8Chars (joinNames names)).isSome = true :=
      utf8_joinNames fun n hn => (h n hn).utf8
    have hback : 0x5c ∉ joinNames names :=
      not_mem_joinNames (by decide) fun n hn => (h n hn).no_backslash
    unfold wirePathBytes
    rw [lossyBytes_of_utf8 hutf8]
    refine (List.map_congr_left fun b hb => ?_).trans (List.map_id _)
    have hne : b ≠ 0x5c := by
      rintro rfl
      exact hback hb
    rw [if_neg hne, id]

/-- The list of the end that decodes: the sent entries as they are received,
sorted for the sender's indices. -/
def decodedSenderEntries (flistOptions : RsyncFileListOptions) (sent : List RemoteSourceEntry) :
    List RsyncFileListEntry :=
  let wire := sent.map (·.wire)
  sortRemoteEntriesForSenderIndexes (wire.map (received flistOptions wire))

/-- What the decoding end makes of a walked source keeps its paths exactly when
the file names of the source come first. -/
theorem decodedSenderEntries_paths_iff {flistOptions : RsyncFileListOptions} (h : source.Sorted) :
    (decodedSenderEntries flistOptions (collectSingleLocalSourceEntries options source)).map
        (·.path) =
      (collectSingleLocalSourceEntries options source).map (·.wire.path) ↔
    source.FilesFirst options := by
  have hns : WalkedNames (sourceNames options source) := walkedNames_sourceNames h
  have hwalk := @collectSingle_eq_sourceNames options source h
  set sent := collectSingleLocalSourceEntries options source
  set wire := sent.map (·.wire)
  have hwire : wire.map (fun e => (e.path, e.fileType)) =
      (sourceNames options source).map fun p => (wirePathOf p.1, p.2) := by
    rw [← hwalk, List.map_map]
    rfl
  have hreceived : (wire.map (received flistOptions wire)).map (fun e => (e.path, e.fileType)) =
      (sourceNames options source).map fun p => (wirePathOf p.1, p.2) := by
    rw [← hwire, List.map_map]
    refine List.map_congr_left fun e he => ?_
    obtain ⟨p, hp, hpath, -⟩ := mem_walked hwire he
    show (wirePathBytes e.path, e.fileType) = (e.path, e.fileType)
    rw [hpath, wirePathBytes_wirePathOf (hns.valid p hp)]
  have hpaths : sent.map (·.wire.path) = (wire.map (received flistOptions wire)).map (·.path) := by
    have heq := congrArg (List.map Prod.fst) (hwalk.trans hreceived.symm)
    rwa [List.map_map, List.map_map (l := wire.map (received flistOptions wire))] at heq
  rw [hpaths]
  exact sortRemoteEntries_source_iff h hreceived

/-- In a pull, client and daemon have the same path at every index exactly when
every listed file name of the source comes before every listed directory name
beside it. -/
theorem pull_indices_agree_iff {flistOptions : RsyncFileListOptions} (h : source.Sorted) :
    SameIndexPaths (·.wire.path) (·.path) (collectLocalSourceEntries options source)
        (decodedSenderEntries flistOptions (collectLocalSourceEntries options source)) ↔
      source.FilesFirst options := by
  rw [sameIndexPaths_iff, collectLocalSourceEntries_eq_walk h, eq_comm]
  exact decodedSenderEntries_paths_iff h

def emptyFile : SourceMeta where
  len := 0
  mtimeUnix := 0
  mode := 0o100644
  checksum := []
  hardlinkGroup := none
  metadata := {}

def walkAll : LocalSourceCollectOptions where
  recursive := true
  includeChecksums := false
  skipped _ _ := false

/-- `m/b` and `m/c/x`. -/
def fileThenDirectory : Source :=
  .directory [0x6d] emptyFile
    (.file [0x62] emptyFile (.directory [0x63] emptyFile (.file [0x78] emptyFile .nil) .nil))

/-- `m/a/x` and `m/b`. -/
def directoryThenFile : Source :=
  .directory [0x6d] emptyFile
    (.directory [0x61] emptyFile (.file [0x78] emptyFile .nil) (.file [0x62] emptyFile .nil))

theorem fileThenDirectory_filesFirst : fileThenDirectory.FilesFirst walkAll := by
  unfold fileThenDirectory Source.FilesFirst
  decide

theorem pull_indices_agree_fileThenDirectory :
    SameIndexPaths (·.wire.path) (·.path) (collectLocalSourceEntries walkAll fileThenDirectory)
      (decodedSenderEntries {} (collectLocalSourceEntries walkAll fileThenDirectory)) :=
  (pull_indices_agree_iff (by unfold fileThenDirectory Source.Sorted; decide)).mpr fileThenDirectory_filesFirst

/-- The daemon has the directory `a` at index 1, the client the file `b`. -/
theorem pull_indices_differ :
    directoryThenFile.Sorted ∧
    ¬ SameIndexPaths (·.wire.path) (·.path) (collectLocalSourceEntries walkAll directoryThenFile)
      (decodedSenderEntries {} (collectLocalSourceEntries walkAll directoryThenFile)) := by
  refine ⟨by unfold directoryThenFile Source.Sorted; decide, fun h => ?_⟩
  have h1 := h 1
  revert h1
  decide

/-- In a push, the daemon has the client's path at every index exactly on the
same sources. -/
theorem push_indices_agree_iff {flistOptions : RsyncFileListOptions} (h : source.Sorted) :
    SameIndexPaths (·.wire.path) (·.path) (collectLocalPushSourceEntries options source)
        (decodedSenderEntries flistOptions (collectLocalPushSourceEntries options source)) ↔
      source.FilesFirst options := by
  rw [sameIndexPaths_iff, collectLocalPushSourceEntries, eq_comm]
  exact decodedSenderEntries_paths_iff h

theorem push_indices_agree_fileThenDirectory :
    SameIndexPaths (·.wire.path) (·.path) (collectLocalPushSourceEntries walkAll fileThenDirectory)
      (decodedSenderEntries {} (collectLocalPushSourceEntries walkAll fileThenDirectory)) :=
  (push_indices_agree_iff (by unfold fileThenDirectory Source.Sorted; decide)).mpr fileThenDirectory_filesFirst

/-- The client has the directory `a` at index 1, the daemon the file `b`. -/
theorem push_indices_differ :
    directoryThenFile.Sorted ∧
    ¬ SameIndexPaths (·.wire.path) (·.path)
      (collectLocalPushSourceEntries walkAll directoryThenFile)
      (decodedSenderEntries {} (collectLocalPushSourceEntries walkAll directoryThenFile)) := by
  refine ⟨by unfold directoryThenFile Source.Sorted; decide, fun h => ?_⟩
  have h1 := h 1
  revert h1
  decide

end RsyncWin
