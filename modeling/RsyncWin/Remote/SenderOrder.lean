import RsyncWin.Remote.SourceEntries
import RsyncWin.Protocol.FlistCodec

/-!
# The order of a sender's file indices (`rsync-cli/src/remote/receive.rs`)

`sort_remote_entries_for_sender_indexes` puts, at every level, what is not a
directory before what is. The walk and the sort by path go by names alone.
On a walked tree the two orders are the same exactly when in every directory
all file names come before all directory names (`FilesFirst`).
-/

namespace RsyncWin

open ByteString

/-! ## The comparison -/

def remoteEntryIsTopDir (entry : RsyncFileListEntry) : Bool :=
  entry.fileType = .directory && components entry.path = [.curDir]

def normalName : Component → Option Bytes
  | .normal name => some (lossyBytes name)
  | _ => none

def normalPathComponents (path : Bytes) : List Bytes :=
  (components path).filterMap normalName

/-- The loop over the shared components; `pre` are those already passed. -/
def compareComponents (isDirectory : List Bytes → Bool) :
    List Bytes → List Bytes → List Bytes → Ordering
  | pre, l :: ls, r :: rs =>
      if l = r then compareComponents isDirectory (pre ++ [l]) ls rs
      else
        match isDirectory (pre ++ [l]), isDirectory (pre ++ [r]) with
        | false, true => .lt
        | true, false => .gt
        | _, _ => compare l r
  | _, [], rs => compare 0 rs.length
  | _, ls, [] => compare ls.length 0

/-- `directories.contains(&path_from_components(prefix))`. -/
def isListedDirectory (directories : List Bytes) (names : List Bytes) : Bool :=
  directories.any fun d => components d = components (joinNames names)

def remoteSenderEntryCmp (left right : RsyncFileListEntry) (directories : List Bytes) : Ordering :=
  if components left.path = components right.path then .eq
  else if remoteEntryIsTopDir left then .lt
  else if remoteEntryIsTopDir right then .gt
  else compareComponents (isListedDirectory directories) []
    (normalPathComponents left.path) (normalPathComponents right.path)

def directoryPaths (entries : List RsyncFileListEntry) : List Bytes :=
  (entries.filter fun e => e.fileType = .directory).map (·.path)

def sortRemoteEntriesForSenderIndexes (entries : List RsyncFileListEntry) :
    List RsyncFileListEntry :=
  sortBy (fun left right => remoteSenderEntryCmp left right (directoryPaths entries)) entries

/-! ## The comparison as a lexicographic order -/

/-- A name with what it is: files before directories, then by name. -/
def compareSibling : Bool × Bytes → Bool × Bytes → Ordering :=
  compareLex (compareOn Prod.fst) (compareOn Prod.snd)

def siblingKeys (isDirectory : List Bytes → Bool) : List Bytes → List Bytes → List (Bool × Bytes)
  | _, [] => []
  | pre, n :: ns => (isDirectory (pre ++ [n]), n) :: siblingKeys isDirectory (pre ++ [n]) ns

instance : Std.TransCmp compareSibling :=
  inferInstanceAs (Std.TransCmp (compareLex (compareOn Prod.fst) (compareOn Prod.snd)))

theorem compareSibling_eq (a b : Bool × Bytes) :
    compareSibling a b = (compare a.1 b.1).then (compare a.2 b.2) := rfl

theorem compareComponents_eq_keys (isDirectory : List Bytes → Bool) :
    ∀ (ls rs pre : List Bytes), compareComponents isDirectory pre ls rs =
      List.compareLex compareSibling (siblingKeys isDirectory pre ls)
        (siblingKeys isDirectory pre rs)
  | [], [], _ => rfl
  | [], r :: rs, _ => rfl
  | l :: ls, [], _ => rfl
  | l :: ls, r :: rs, pre => by
      rw [compareComponents, siblingKeys, siblingKeys, List.compareLex_cons_cons, compareSibling_eq]
      by_cases h : l = r
      · subst h
        rw [if_pos rfl, compareComponents_eq_keys isDirectory ls rs (pre ++ [l])]
        simp [Std.ReflOrd.compare_self]
      · rw [if_neg h]
        have hne : compare l r ≠ .eq := fun heq => h (Std.LawfulEqOrd.eq_of_compare heq)
        cases isDirectory (pre ++ [l]) <;> cases isDirectory (pre ++ [r]) <;>
          cases hc : compare l r <;> simp_all <;> rfl

/-! ## When the two orders agree -/

/-- The files of one listing that the walk emits. -/
def keptFiles (options : LocalSourceCollectOptions) (root : List Bytes) : Listing → List Bytes
  | .nil => []
  | .file name _ rest =>
      (if options.skipped (joinNames (root ++ [name])) .file then [] else [name]) ++
      keptFiles options root rest
  | .directory _ _ _ rest => keptFiles options root rest

def keptDirectories (options : LocalSourceCollectOptions) (root : List Bytes) :
    Listing → List Bytes
  | .nil => []
  | .file _ _ rest => keptDirectories options root rest
  | .directory name _ _ rest =>
      (if options.skipped (joinNames (root ++ [name])) .directory then [] else [name]) ++
      keptDirectories options root rest

/-- In one listing, every emitted file name precedes every emitted directory
name. -/
def LevelFilesFirst (options : LocalSourceCollectOptions) (root : List Bytes) (l : Listing) :
    Prop :=
  ∀ f ∈ keptFiles options root l, ∀ d ∈ keptDirectories options root l, compare f d = .lt

def BelowFilesFirst (options : LocalSourceCollectOptions) (root : List Bytes) : Listing → Prop
  | .nil => True
  | .file _ _ rest => BelowFilesFirst options root rest
  | .directory name _ children rest =>
      (options.skipped (joinNames (root ++ [name])) .directory = false → options.recursive = true →
        LevelFilesFirst options (root ++ [name]) children ∧
        BelowFilesFirst options (root ++ [name]) children) ∧
      BelowFilesFirst options root rest

instance instDecidableLevelFilesFirst (options : LocalSourceCollectOptions) (root : List Bytes)
    (l : Listing) : Decidable (LevelFilesFirst options root l) :=
  inferInstanceAs (Decidable (∀ f ∈ keptFiles options root l,
    ∀ d ∈ keptDirectories options root l, compare f d = .lt))

instance instDecidableBelowFilesFirst (options : LocalSourceCollectOptions) :
    ∀ (root : List Bytes) (l : Listing), Decidable (BelowFilesFirst options root l)
  | _, .nil => inferInstanceAs (Decidable True)
  | root, .file _ _ rest => instDecidableBelowFilesFirst options root rest
  | root, .directory name _ children rest =>
      let _ := instDecidableBelowFilesFirst options (root ++ [name]) children
      let _ := instDecidableBelowFilesFirst options root rest
      inferInstanceAs (Decidable (
        (options.skipped (joinNames (root ++ [name])) .directory = false →
          options.recursive = true → LevelFilesFirst options (root ++ [name]) children ∧
          BelowFilesFirst options (root ++ [name]) children) ∧
        BelowFilesFirst options root rest))

/-- In every directory the walk enters, the file names come first. -/
def FilesFirst (options : LocalSourceCollectOptions) (root : List Bytes) (l : Listing) : Prop :=
  LevelFilesFirst options root l ∧ BelowFilesFirst options root l

instance (options : LocalSourceCollectOptions) (root : List Bytes) (l : Listing) :
    Decidable (FilesFirst options root l) :=
  inferInstanceAs (Decidable (LevelFilesFirst options root l ∧ BelowFilesFirst options root l))

variable {options : LocalSourceCollectOptions}

theorem keptFiles_subset : ∀ {l : Listing} {root : List Bytes} {n : Bytes},
    n ∈ keptFiles options root l → n ∈ l.names
  | .nil, _, _, h => by simp [keptFiles] at h
  | .file name info rest, root, n, h => by
      rw [keptFiles, List.mem_append] at h
      rcases h with h | h
      · split at h
        · simp at h
        · simp [Listing.names, List.mem_singleton.mp h]
      · simp [Listing.names, keptFiles_subset h]
  | .directory name info children rest, root, n, h => by
      simp [Listing.names, keptFiles_subset (l := rest) h]

theorem keptDirectories_subset : ∀ {l : Listing} {root : List Bytes} {n : Bytes},
    n ∈ keptDirectories options root l → n ∈ l.names
  | .nil, _, _, h => by simp [keptDirectories] at h
  | .file name info rest, root, n, h => by
      simp [Listing.names, keptDirectories_subset (l := rest) h]
  | .directory name info children rest, root, n, h => by
      rw [keptDirectories, List.mem_append] at h
      rcases h with h | h
      · split at h
        · simp at h
        · simp [Listing.names, List.mem_singleton.mp h]
      · simp [Listing.names, keptDirectories_subset h]

/-- What the walk emits of one listing starts with one of its emitted names,
and says what that name is. -/
theorem mem_keptNames_iff_head : ∀ {l : Listing} {root : List Bytes},
    (∀ f, f ∈ keptFiles options root l ↔ ([f], .file) ∈ keptNames options root l) ∧
    ∀ p ∈ keptNames options root l,
      (∃ f ∈ keptFiles options root l, p = ([f], .file)) ∨
      ∃ d t, p.1 = d :: t ∧ ([d], .directory) ∈ keptNames options root l
  | .nil, root => by simp [keptFiles, keptNames]
  | .file name info rest, root => by
      obtain ⟨ih1, ih2⟩ := @mem_keptNames_iff_head rest root
      rw [keptFiles, keptNames]
      by_cases hs : options.skipped (joinNames (root ++ [name])) .file = true
      · simp only [hs, if_true, List.nil_append]
        exact ⟨ih1, ih2⟩
      · simp only [hs]
        refine ⟨fun f => by simp [ih1], ?_⟩
        intro p hp
        rcases List.mem_append.mp hp with hp | hp
        · exact Or.inl ⟨name, by simp, by simpa using hp⟩
        · rcases ih2 p hp with ⟨f, hf, rfl⟩ | ⟨d, t, hd, hmem⟩
          · exact Or.inl ⟨f, by simp [hf], rfl⟩
          · exact Or.inr ⟨d, t, hd, by simp [hmem]⟩
  | .directory name info children rest, root => by
      obtain ⟨ih1, ih2⟩ := @mem_keptNames_iff_head rest root
      rw [keptFiles, keptNames]
      by_cases hs : options.skipped (joinNames (root ++ [name])) .directory = true
      · simp only [hs, if_true, List.nil_append]
        exact ⟨ih1, ih2⟩
      · simp only [hs]
        refine ⟨?_, ?_⟩
        · intro f
          by_cases hr : options.recursive = true
          · simp only [hr, if_true, Bool.false_eq_true, if_false, List.cons_append, List.mem_cons,
              Prod.mk.injEq, reduceCtorEq, and_false, false_or, List.mem_append, List.mem_map, ih1]
            constructor
            · exact Or.inr
            · rintro (⟨q, hq, hqf, -⟩ | h)
              · obtain ⟨n, t, hq1, -⟩ := mem_keptNames hq
                simp [hq1] at hqf
              · exact h
          · simp [hr, ih1]
        · intro p hp
          rcases List.mem_append.mp hp with hp | hp
          · right
            have hdir : ([name], WireFileType.directory) ∈ keptNames options root
                (.directory name info children rest) := by simp [keptNames, hs]
            rw [keptNames] at hdir
            simp only [hs] at hdir
            rcases List.mem_cons.mp hp with rfl | hp
            · exact ⟨name, [], rfl, hdir⟩
            · split at hp
              · obtain ⟨q, -, rfl⟩ := List.mem_map.mp hp
                exact ⟨name, q.1, rfl, hdir⟩
              · simp at hp
          · rcases ih2 p hp with ⟨f, hf, rfl⟩ | ⟨d, t, hd, hmem⟩
            · exact Or.inl ⟨f, hf, rfl⟩
            · exact Or.inr ⟨d, t, hd, by simp [hmem]⟩

/-- The order the keys put on names below `root`. -/
def keyLE (isDirectory : List Bytes → Bool) (root : List Bytes)
    (p q : List Bytes × WireFileType) : Prop :=
  (List.compareLex compareSibling (siblingKeys isDirectory root p.1)
    (siblingKeys isDirectory root q.1)).isLE

theorem keyLE_cons_self {isDirectory : List Bytes → Bool} {root : List Bytes} (n : Bytes)
    (p q : List Bytes × WireFileType) :
    keyLE isDirectory root (n :: p.1, p.2) (n :: q.1, q.2) ↔
      keyLE isDirectory (root ++ [n]) p q := by
  have hself : compareSibling (isDirectory (root ++ [n]), n) (isDirectory (root ++ [n]), n) = .eq := by
    simp [compareSibling_eq, Std.ReflOrd.compare_self]
  simp [keyLE, siblingKeys, List.compareLex_cons_cons, hself]

/-- Of two different names in one directory, the smaller stands before the
greater unless it is a directory and the other is not. -/
theorem keyLE_of_lt {isDirectory : List Bytes → Bool} {root : List Bytes} {n m : Bytes}
    (h : compare n m = .lt) (t u : List Bytes) (a b : WireFileType) :
    keyLE isDirectory root (n :: t, a) (m :: u, b) ↔
      (isDirectory (root ++ [n]) = true → isDirectory (root ++ [m]) = true) := by
  simp only [keyLE, siblingKeys, List.compareLex_cons_cons, compareSibling_eq, h]
  cases isDirectory (root ++ [n]) <;> cases isDirectory (root ++ [m]) <;> simp <;> rfl

theorem not_lt_of_lt {n m : Bytes} (h : compare n m = .lt) : compare m n ≠ .lt := by
  intro h'
  have hgt : compare n m = .gt := Std.OrientedCmp.gt_iff_lt.mpr h'
  rw [h] at hgt
  cases hgt

/-- A directory in front of the rest of a listing: there must be no file left. -/
theorem levelFilesFirst_directory {root : List Bytes} {name : Bytes} {info : SourceMeta}
    {children rest : Listing}
    (hs : options.skipped (joinNames (root ++ [name])) .directory = false)
    (hlt : ∀ n ∈ rest.names, compare name n = .lt) :
    LevelFilesFirst options root (.directory name info children rest) ↔
      keptFiles options root rest = [] := by
  simp only [LevelFilesFirst, keptFiles, keptDirectories, hs, Bool.false_eq_true, if_false]
  constructor
  · intro h
    apply List.eq_nil_iff_forall_not_mem.mpr
    intro f hf
    exact not_lt_of_lt (hlt f (keptFiles_subset hf)) (h f hf name (by simp))
  · intro h f hf
    simp [h] at hf

theorem filesFirst_directory {root : List Bytes} {name : Bytes} {info : SourceMeta}
    {children rest : Listing}
    (hs : options.skipped (joinNames (root ++ [name])) .directory = false)
    (hlt : ∀ n ∈ rest.names, compare name n = .lt) :
    FilesFirst options root (.directory name info children rest) ↔
      (options.recursive = true → FilesFirst options (root ++ [name]) children) ∧
        FilesFirst options root rest ∧ keptFiles options root rest = [] := by
  have hlevel : LevelFilesFirst options root (.directory name info children rest) ↔
      keptFiles options root rest = [] := levelFilesFirst_directory hs hlt
  constructor
  · rintro ⟨hl, hchildren, hbelow⟩
    have hnil := hlevel.mp hl
    refine ⟨hchildren hs, ⟨?_, hbelow⟩, hnil⟩
    intro f hf
    simp [hnil] at hf
  · rintro ⟨hchildren, ⟨-, hbelow⟩, hnil⟩
    exact ⟨hlevel.mpr hnil, fun _ => hchildren, hbelow⟩

/-- A file in front changes nothing: its name precedes all the others. -/
theorem filesFirst_file {root : List Bytes} {name : Bytes} {info : SourceMeta} {rest : Listing}
    (hlt : ∀ n ∈ rest.names, compare name n = .lt) :
    FilesFirst options root (.file name info rest) ↔ FilesFirst options root rest := by
  simp only [FilesFirst, LevelFilesFirst, BelowFilesFirst, keptFiles, keptDirectories]
  refine and_congr_left fun _ => ?_
  constructor
  · intro h f hf
    exact h f (by simp [hf])
  · intro h f hf d hd
    rcases List.mem_append.mp hf with hf | hf
    · split at hf
      · simp at hf
      · rw [List.mem_singleton.mp hf]
        exact hlt d (keptDirectories_subset hd)
    · exact h f hf d hd

/-- Across the entries of a directory and what follows it: in order exactly
when no file follows. -/
theorem keyLE_across_iff {isDirectory : List Bytes → Bool} {root : List Bytes} {name : Bytes}
    {rest : Listing} {group : List (List Bytes × WireFileType)}
    (hlt : ∀ n ∈ rest.names, compare name n = .lt)
    (hname : isDirectory (root ++ [name]) = true)
    (hself : ([name], .directory) ∈ group) (hgroup : ∀ p ∈ group, ∃ t, p.1 = name :: t)
    (hdir : ∀ p ∈ keptNames options root rest,
      isDirectory (root ++ p.1) = decide (p.2 = WireFileType.directory)) :
    (∀ p ∈ group, ∀ q ∈ keptNames options root rest, keyLE isDirectory root p q) ↔
      keptFiles options root rest = [] := by
  obtain ⟨hfiles, hheads⟩ := @mem_keptNames_iff_head options rest root
  constructor
  · intro h
    apply List.eq_nil_iff_forall_not_mem.mpr
    intro f hf
    have hmem := (hfiles f).mp hf
    have hle := h _ hself _ hmem
    rw [keyLE_of_lt (hlt f (keptFiles_subset hf))] at hle
    have hfile := hdir _ hmem
    rw [hle hname] at hfile
    simp at hfile
  · intro hnil p hp q hq
    obtain ⟨t, ht⟩ := hgroup p hp
    rcases hheads q hq with ⟨f, hf, -⟩ | ⟨d, u, hd, hdmem⟩
    · simp [hnil] at hf
    · obtain ⟨n, v, hq1, hn⟩ := mem_keptNames hq
      obtain ⟨rfl, rfl⟩ : d = n ∧ u = v := by
        rw [hd] at hq1
        simpa using hq1
      have hdd := hdir _ hdmem
      obtain ⟨p1, p2⟩ := p
      obtain ⟨q1, q2⟩ := q
      simp only at ht hd
      subst ht hd
      rw [keyLE_of_lt (hlt d hn)]
      intro _
      simpa using hdd

/-- The entries of one directory: itself, then what is below it. -/
def directoryGroup (options : LocalSourceCollectOptions) (root : List Bytes) (name : Bytes)
    (children : Listing) : List (List Bytes × WireFileType) :=
  ([name], .directory) ::
    (if options.recursive then
      (keptNames options (root ++ [name]) children).map fun p => (name :: p.1, p.2)
    else [])

/-- A tree walked in name order is in sender order exactly when its file names
come first. -/
theorem pairwise_keyLE_iff_filesFirst {isDirectory : List Bytes → Bool} :
    ∀ {l : Listing} {root : List Bytes}, l.Sorted →
      (∀ p ∈ keptNames options root l,
        isDirectory (root ++ p.1) = decide (p.2 = WireFileType.directory)) →
      ((keptNames options root l).Pairwise (keyLE isDirectory root) ↔ FilesFirst options root l)
  | .nil, root, _, _ => by
      simp [keptNames, FilesFirst, LevelFilesFirst, BelowFilesFirst, keptFiles]
  | .file name info rest, root, h, hdir => by
      obtain ⟨-, hlt, hrest⟩ := h
      have ih := pairwise_keyLE_iff_filesFirst hrest fun p hp => hdir p (by simp [keptNames, hp])
      rw [filesFirst_file hlt, ← ih, keptNames]
      by_cases hs : options.skipped (joinNames (root ++ [name])) .file = true
      · simp [hs]
      · have hfile := hdir ([name], .file) (by simp [keptNames, hs])
        simp only [hs, Bool.false_eq_true, if_false, List.singleton_append, List.pairwise_cons]
        refine and_iff_right ?_
        rintro ⟨q1, q2⟩ hq
        obtain ⟨n, t, hq1, hn⟩ := mem_keptNames hq
        simp only at hq1
        subst hq1
        rw [keyLE_of_lt (hlt n hn), hfile]
        simp
  | .directory name info children rest, root, h, hdir => by
      obtain ⟨-, hlt, hch, hrest⟩ := h
      have ih := pairwise_keyLE_iff_filesFirst hrest fun p hp => hdir p (by simp [keptNames, hp])
      rw [keptNames]
      by_cases hs : options.skipped (joinNames (root ++ [name])) .directory = true
      · simpa [hs, FilesFirst, LevelFilesFirst, BelowFilesFirst, keptFiles, keptDirectories] using ih
      · have hs' : options.skipped (joinNames (root ++ [name])) .directory = false := by simpa using hs
        have hname : isDirectory (root ++ [name]) = true := by
          simpa using hdir ([name], .directory) (by simp [keptNames, hs])
        have hgroup : ∀ p ∈ directoryGroup options root name children, ∃ t, p.1 = name :: t := by
          intro p hp
          rcases List.mem_cons.mp hp with rfl | hp
          · exact ⟨[], rfl⟩
          · split at hp
            · obtain ⟨q, -, rfl⟩ := List.mem_map.mp hp
              exact ⟨q.1, rfl⟩
            · simp at hp
        have hrestDir : ∀ p ∈ keptNames options root rest,
            isDirectory (root ++ p.1) = decide (p.2 = WireFileType.directory) :=
          fun p hp => hdir p (by simp [keptNames, hp])
        have hacross : (∀ p ∈ directoryGroup options root name children,
              ∀ q ∈ keptNames options root rest, keyLE isDirectory root p q) ↔
            keptFiles options root rest = [] :=
          keyLE_across_iff hlt hname List.mem_cons_self hgroup hrestDir
        have hinside : (directoryGroup options root name children).Pairwise
              (keyLE isDirectory root) ↔
            (options.recursive = true → FilesFirst options (root ++ [name]) children) := by
          by_cases hr : options.recursive = true
          · have hchDir : ∀ p ∈ keptNames options (root ++ [name]) children,
                isDirectory (root ++ [name] ++ p.1) = decide (p.2 = WireFileType.directory) := by
              intro p hp
              have hp' := hdir (name :: p.1, p.2) (by simp [keptNames, hs, hr, hp])
              rwa [List.append_cons] at hp'
            have ihc := pairwise_keyLE_iff_filesFirst hch hchDir
            simp only [directoryGroup, hr, if_true, List.pairwise_cons, List.pairwise_map,
              keyLE_cons_self, ihc, forall_const, and_iff_right_iff_imp]
            rintro - q hq
            obtain ⟨r, hr', rfl⟩ := List.mem_map.mp hq
            obtain ⟨n, t, hr1, -⟩ := mem_keptNames hr'
            rw [hr1]
            exact (keyLE_cons_self name ([], .directory) (n :: t, r.2)).mpr rfl
          · simp [directoryGroup, hr]
        have hsplit : (directoryGroup options root name children ++
              keptNames options root rest).Pairwise (keyLE isDirectory root) ↔
            (options.recursive = true → FilesFirst options (root ++ [name]) children) ∧
              FilesFirst options root rest ∧ keptFiles options root rest = [] := by
          rw [List.pairwise_append, hinside, ih, hacross]
        simp only [hs, Bool.false_eq_true, if_false]
        exact hsplit.trans (filesFirst_directory hs' hlt).symm

/-! ## Walked lists -/

/-- The path of an entry with the given names; the top directory has none. -/
def wirePathOf (names : List Bytes) : Bytes := if names = [] then [dot] else joinNames names

/-- Names and types as a walk emits them: the top directory at most first, then
in increasing order. -/
structure WalkedNames (ns : List (List Bytes × WireFileType)) : Prop where
  valid : ∀ p ∈ ns, ∀ n ∈ p.1, SourceName n
  increasing : ns.Pairwise fun p q => compare p.1 q.1 = .lt
  top : ∀ p ∈ ns, p.1 = [] → p.2 = .directory

theorem components_wirePathOf {names : List Bytes} (h : ∀ n ∈ names, ValidName n) :
    components (wirePathOf names) = if names = [] then [.curDir] else names.map .normal := by
  unfold wirePathOf
  by_cases hne : names = []
  · simp only [hne, if_true]
    decide
  · rw [if_neg hne, if_neg hne, components_joinNames hne h]

theorem normalPathComponents_wirePathOf {names : List Bytes} (h : ∀ n ∈ names, TextName n) :
    normalPathComponents (wirePathOf names) = names := by
  unfold normalPathComponents
  rw [components_wirePathOf fun n hn => (h n hn).toValidName]
  by_cases hne : names = []
  · simp [hne, normalName]
  · rw [if_neg hne, List.filterMap_map]
    refine (List.filterMap_congr (g := some) fun n hn => ?_).trans List.filterMap_some
    simp only [Function.comp, normalName, lossyBytes_of_utf8 (h n hn).utf8]

theorem components_wirePathOf_inj {ps qs : List Bytes} (hp : ∀ n ∈ ps, TextName n)
    (hq : ∀ n ∈ qs, TextName n)
    (h : components (wirePathOf ps) = components (wirePathOf qs)) : ps = qs := by
  rw [← normalPathComponents_wirePathOf hp, ← normalPathComponents_wirePathOf hq,
    normalPathComponents, normalPathComponents, h]

/-- The key by which the sender order goes. -/
def senderKey (directories : List Bytes) (path : Bytes) : List (Bool × Bytes) :=
  siblingKeys (isListedDirectory directories) [] (normalPathComponents path)

/-- On entries with text for names the comparison is the lexicographic one. -/
theorem remoteSenderEntryCmp_eq_key {left right : RsyncFileListEntry} {ls rs : List Bytes}
    (directories : List Bytes)
    (hl : left.path = wirePathOf ls) (hr : right.path = wirePathOf rs)
    (hls : ∀ n ∈ ls, TextName n) (hrs : ∀ n ∈ rs, TextName n) :
    remoteSenderEntryCmp left right directories =
      List.compareLex compareSibling (senderKey directories left.path)
        (senderKey directories right.path) := by
  have hcl := components_wirePathOf fun n hn => (hls n hn).toValidName
  have hcr := components_wirePathOf fun n hn => (hrs n hn).toValidName
  unfold remoteSenderEntryCmp senderKey
  rw [hl, hr, normalPathComponents_wirePathOf hls, normalPathComponents_wirePathOf hrs]
  by_cases heq : components (wirePathOf ls) = components (wirePathOf rs)
  · obtain rfl := components_wirePathOf_inj hls hrs heq
    have hself : List.compareLex compareSibling
        (siblingKeys (isListedDirectory directories) [] ls)
        (siblingKeys (isListedDirectory directories) [] ls) = .eq := Std.ReflCmp.compare_self
    rw [if_pos heq, hself]
  · rw [if_neg heq, ← compareComponents_eq_keys]
    unfold remoteEntryIsTopDir
    rw [hl, hr, hcl, hcr]
    -- a top directory has no names, and so comes first in either way of comparing
    by_cases hl0 : ls = []
    · have hr0 : rs ≠ [] := by
        rintro rfl
        exact heq (by rw [hl0])
      obtain ⟨r, rs, rfl⟩ := List.exists_cons_of_ne_nil hr0
      have hempty : ∀ isDirectory, compareComponents isDirectory [] [] (r :: rs) = .lt :=
        fun _ => rfl
      simp [hl0, hempty]
    · obtain ⟨l, ls, rfl⟩ := List.exists_cons_of_ne_nil hl0
      by_cases hr0 : rs = []
      · have hempty : ∀ isDirectory, compareComponents isDirectory [] (l :: ls) [] = .gt :=
          fun _ => rfl
        simp [hr0, hempty]
      · obtain ⟨r, rs, rfl⟩ := List.exists_cons_of_ne_nil hr0
        simp

section Walked

variable {ns : List (List Bytes × WireFileType)} {entries : List RsyncFileListEntry}

theorem WalkedNames.eq_of_names_eq (h : WalkedNames ns) {p q : List Bytes × WireFileType}
    (hp : p ∈ ns) (hq : q ∈ ns) (heq : p.1 = q.1) : p = q := by
  have hnodup : (ns.map Prod.fst).Nodup := by
    rw [List.Nodup, List.pairwise_map]
    refine h.increasing.imp fun {a b} hlt hab => ?_
    rw [hab, Std.ReflOrd.compare_self] at hlt
    cases hlt
  exact List.inj_on_of_nodup_map hnodup hp hq heq

theorem mem_walked (he : entries.map (fun e => (e.path, e.fileType)) =
      ns.map fun p => (wirePathOf p.1, p.2))
    {e : RsyncFileListEntry} (hmem : e ∈ entries) :
    ∃ p ∈ ns, e.path = wirePathOf p.1 ∧ e.fileType = p.2 := by
  have h : (e.path, e.fileType) ∈ ns.map fun p => (wirePathOf p.1, p.2) := by
    rw [← he]
    exact List.mem_map_of_mem hmem
  obtain ⟨p, hp, heq⟩ := List.mem_map.mp h
  obtain ⟨h1, h2⟩ := Prod.mk.injEq _ _ _ _ ▸ heq
  exact ⟨p, hp, h1.symm, h2.symm⟩

theorem mem_walked_names (he : entries.map (fun e => (e.path, e.fileType)) =
      ns.map fun p => (wirePathOf p.1, p.2))
    {p : List Bytes × WireFileType} (hmem : p ∈ ns) :
    ∃ e ∈ entries, e.path = wirePathOf p.1 ∧ e.fileType = p.2 := by
  have h : (wirePathOf p.1, p.2) ∈ entries.map fun e => (e.path, e.fileType) := by
    rw [he]
    exact List.mem_map_of_mem hmem
  obtain ⟨e, hp, heq⟩ := List.mem_map.mp h
  obtain ⟨h1, h2⟩ := Prod.mk.injEq _ _ _ _ ▸ heq
  exact ⟨e, hp, h1, h2⟩

/-- Among walked entries, the set of directories says what each entry is. -/
theorem isListedDirectory_walked (hns : WalkedNames ns)
    (he : entries.map (fun e => (e.path, e.fileType)) = ns.map fun p => (wirePathOf p.1, p.2))
    {p : List Bytes × WireFileType} (hp : p ∈ ns) (hne : p.1 ≠ []) :
    isListedDirectory (directoryPaths entries) p.1 = decide (p.2 = WireFileType.directory) := by
  have hpath : joinNames p.1 = wirePathOf p.1 := by rw [wirePathOf, if_neg hne]
  rw [Bool.eq_iff_iff, decide_eq_true_iff, isListedDirectory, List.any_eq_true]
  constructor
  · rintro ⟨d, hd, hcomp⟩
    obtain ⟨e, hmem, rfl⟩ := List.mem_map.mp hd
    obtain ⟨hmem, hdir⟩ := List.mem_filter.mp hmem
    obtain ⟨q, hq, hqpath, hqtype⟩ := mem_walked he hmem
    have hcomp := of_decide_eq_true hcomp
    rw [hqpath, hpath] at hcomp
    have hnames := components_wirePathOf_inj (fun n hn => (hns.valid q hq n hn).text)
      (fun n hn => (hns.valid p hp n hn).text) hcomp
    rw [← hns.eq_of_names_eq hq hp hnames, ← hqtype]
    exact of_decide_eq_true hdir
  · intro hdir
    obtain ⟨e, hmem, hepath, hetype⟩ := mem_walked_names he hp
    refine ⟨e.path, ?_, ?_⟩
    · refine List.mem_map_of_mem (List.mem_filter.mpr ⟨hmem, ?_⟩)
      simp [hetype, hdir]
    · rw [hepath, hpath]
      simp

/-- The sender order leaves a walked list as it is exactly when its names are in
key order. -/
theorem sortRemoteEntries_paths_iff (hns : WalkedNames ns)
    (he : entries.map (fun e => (e.path, e.fileType)) = ns.map fun p => (wirePathOf p.1, p.2)) :
    (sortRemoteEntriesForSenderIndexes entries).map (·.path) = entries.map (·.path) ↔
      ns.Pairwise (keyLE (isListedDirectory (directoryPaths entries)) []) := by
  have hagree : ∀ a ∈ entries, ∀ b ∈ entries,
      remoteSenderEntryCmp a b (directoryPaths entries) =
        List.compareLex compareSibling (senderKey (directoryPaths entries) a.path)
          (senderKey (directoryPaths entries) b.path) := by
    intro a ha b hb
    obtain ⟨p, hp, hpath, -⟩ := mem_walked he ha
    obtain ⟨q, hq, hqpath, -⟩ := mem_walked he hb
    exact remoteSenderEntryCmp_eq_key _ hpath hqpath (fun n hn => (hns.valid p hp n hn).text)
      fun n hn => (hns.valid q hq n hn).text
  have hkeys : entries.map (fun e => senderKey (directoryPaths entries) e.path) =
      ns.map fun p => siblingKeys (isListedDirectory (directoryPaths entries)) [] p.1 := by
    have hpaths : entries.map (·.path) = ns.map fun p => wirePathOf p.1 := by
      have h := congrArg (List.map Prod.fst) he
      rwa [List.map_map, List.map_map] at h
    have h := congrArg (List.map (senderKey (directoryPaths entries))) hpaths
    rw [List.map_map, List.map_map] at h
    refine h.trans (List.map_congr_left fun p hp => ?_)
    have hnames := normalPathComponents_wirePathOf fun n hn => (hns.valid p hp n hn).text
    simp only [Function.comp, senderKey, hnames]
  have horder : InOrder (List.compareLex compareSibling)
        (entries.map fun e => senderKey (directoryPaths entries) e.path) ↔
      ns.Pairwise (keyLE (isListedDirectory (directoryPaths entries)) []) := by
    rw [hkeys]
    exact List.pairwise_map
  rw [← horder]
  constructor
  · intro heq
    rw [← map_sortBy_eq_iff hagree]
    have h := congrArg (List.map (senderKey (directoryPaths entries))) heq
    rwa [List.map_map, List.map_map] at h
  · intro hin
    rw [sortRemoteEntriesForSenderIndexes, sortBy_eq_self_of_key hagree hin]

end Walked

end RsyncWin
