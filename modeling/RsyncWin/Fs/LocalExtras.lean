import RsyncWin.Remote.SenderOrder
import RsyncWin.Fs.RunRules

/-!
# Deletions of a receiver (`delete_local_extras`, `rsync-cli/src/remote/receive.rs`)

A receiver deletes at its destination what the sender did not list. The tree of
nodes here is the local file system as seen from the destination: the node at a
key is what is at `dest` joined with it.

A directory goes with everything in it. What was listed or is protected is safe
exactly if no directory above it is neither.
-/

namespace RsyncWin.Fs

open ByteString MemoryFileSystem

/-! ## The walk -/

/-- The walk below one entry: there is one below a directory. -/
def walkBelow (descend : Key → Except FsError (List (Key × FileType))) (entry : Key × FileType) :
    Except FsError (List (Key × FileType)) :=
  if entry.2 = .directory then descend entry.1 else .ok []

/-- `walk_tree` on the entries of one directory. -/
def walkListed (descend : Key → Except FsError (List (Key × FileType))) :
    List (Key × FileType) → Except FsError (List (Key × FileType))
  | [] => .ok []
  | entry :: listed => do
      let below ← walkBelow descend entry
      let rest ← walkListed descend listed
      pure (entry :: below ++ rest)

def walkTreeInner (fs : MemoryFileSystem) : Nat → Key → Except FsError (List (Key × FileType))
  | 0, _ => .error .stackOverflow
  | stack + 1, root => do
      let metadata ← fs.metadata root.path
      if metadata.fileType ≠ .directory then throw (.notDirectory root.path)
      else walkListed (walkTreeInner fs stack) ((fs.children root).map fun child =>
        (root ++ [child.1], child.2.metadata.fileType))

def walkTree (stack : Nat) (fs : MemoryFileSystem) : Except FsError (List (Key × FileType)) := do
  let entries ← walkTreeInner fs stack []
  pure (sortBy (fun left right => compare left.1 right.1) entries)

/-! ## The deletions -/

/-- What a receiver works with: its options, and the paths to keep. -/
structure LocalExtras where
  dest : PathBuf
  keep : List PathBuf
  filterRules : RuleSet
  filesFrom : Option (List PathBuf)
  dryRun : Bool

/-- The paths that were listed, without the top directory. -/
def keptPaths (entries : List RsyncFileListEntry) : List PathBuf :=
  (entries.filter fun entry => !remoteEntryIsTopDir entry).map fun entry => components entry.path

namespace LocalExtras

variable (extras : LocalExtras)

def isProtected (relative : Key) (fileType : FileType) : Bool :=
  extras.filesFrom.any (fun filesFrom => !filesFromMatches relative filesFrom) ||
    deleteIsProtected extras.filterRules relative fileType false

def deleteExtra (path : PathBuf) (relative : Key) (fileType : FileType) : SyncProg Unit :=
  if fileType = .directory then do
    report (.deleteDir path)
    if extras.dryRun then pure () else act (.removeDirAll relative.path)
  else do
    report (.deleteFile path)
    if extras.dryRun then pure () else act (.removeFile relative.path)

def deleteExtras : List (Key × FileType) → SyncProg Unit
  | [] => pure ()
  | (relative, fileType) :: existing => do
      let path := extras.dest.join relative.path
      if extras.isProtected relative fileType then report (.protectDelete path)
      else if relative.path ∈ extras.keep then pure ()
      else extras.deleteExtra path relative fileType
      deleteExtras existing

end LocalExtras

def deleteLocalExtras (stack : Nat) (dest : PathBuf) (entries : List RsyncFileListEntry)
    (filterRules : RuleSet) (filesFrom : Option (List PathBuf)) (dryRun : Bool) :
    SyncProg Unit := do
  let fs ← look
  if !fs.existsAt [] then pure ()
  else do
    let existing ← Prog.ofExcept (walkTree stack fs)
    let extras : LocalExtras := ⟨dest, keptPaths entries, filterRules, filesFrom, dryRun⟩
    extras.deleteExtras (sortBy IncrementalReceiverState.deleteOrder existing)

/-! ## What the walk finds -/

section Walk

variable {fs : MemoryFileSystem} {root : Key}

/-- The entries of a walk below `root`: each node once. -/
structure WalkedTree (fs : MemoryFileSystem) (below : Key → Prop) (entries : List (Key × FileType)) :
    Prop where
  mem : ∀ q t, (q, t) ∈ entries ↔ below q ∧ ∃ b, fs.content q = some (t, b)
  nodup : (entries.map Prod.fst).Nodup

/-- Nothing of what is below one entry is below another. -/
theorem walkedTree_listed {descend : Key → Except FsError (List (Key × FileType))} :
    ∀ {listed : List (Bytes × MemoryNode)},
      (∀ child ∈ listed, fs.get (root ++ [child.1]) = some child.2) →
      (listed.map Prod.fst).Nodup →
      (∀ child ∈ listed, child.2.metadata.fileType = .directory →
        ∃ entries, descend (root ++ [child.1]) = .ok entries ∧
          WalkedTree fs (fun q => ∃ m rest, q = root ++ child.1 :: m :: rest) entries) →
      (∀ child ∈ listed, child.2.metadata.fileType ≠ .directory →
        ∀ m rest, fs.content (root ++ child.1 :: m :: rest) = none) →
      ∃ entries, walkListed descend (listed.map fun child =>
          (root ++ [child.1], child.2.metadata.fileType)) = .ok entries ∧
        WalkedTree fs (fun q => ∃ child ∈ listed, ∃ rest, q = root ++ child.1 :: rest) entries
  | [], _, _, _, _ => ⟨[], rfl, by simp, by simp⟩
  | child :: listed, hnode, hnames, hdescend, hleaf => by
      obtain ⟨rest, hrest, hwalked⟩ := walkedTree_listed
        (fun c hc => hnode c (List.mem_cons_of_mem _ hc)) (List.nodup_cons.mp hnames).2
        (fun c hc => hdescend c (List.mem_cons_of_mem _ hc))
        (fun c hc => hleaf c (List.mem_cons_of_mem _ hc))
      have hchild := content_of_get (hnode child List.mem_cons_self)
      -- what is below the first entry, if anything can be
      obtain ⟨below, hbelow, hmem⟩ : ∃ below,
          walkBelow descend (root ++ [child.1], child.2.metadata.fileType) = .ok below ∧
          WalkedTree fs (fun q => ∃ m tail, q = root ++ child.1 :: m :: tail) below := by
        by_cases hdir : child.2.metadata.fileType = .directory
        · obtain ⟨entries, hentries, hspec⟩ := hdescend child List.mem_cons_self hdir
          exact ⟨entries, by rw [walkBelow, if_pos hdir, hentries], hspec⟩
        · refine ⟨[], by rw [walkBelow, if_neg hdir], fun q t => ?_, by simp⟩
          constructor
          · simp
          · rintro ⟨⟨m, tail, rfl⟩, b, hb⟩
            rw [hleaf child List.mem_cons_self hdir m tail] at hb
            cases hb
      refine ⟨(root ++ [child.1], child.2.metadata.fileType) :: below ++ rest, ?_, fun q t => ?_, ?_⟩
      · simp only [List.map_cons, walkListed, hbelow, hrest, bind, Except.bind, pure, Except.pure]
      · rw [List.cons_append, List.mem_cons, List.mem_append, hmem.mem, hwalked.mem]
        constructor
        · rintro (heq | ⟨⟨m, tail, rfl⟩, hb⟩ | ⟨⟨c, hc, tail, rfl⟩, hb⟩)
          · obtain ⟨rfl, rfl⟩ := Prod.mk.inj heq
            exact ⟨⟨child, List.mem_cons_self, [], rfl⟩, child.2.bytes, hchild⟩
          · exact ⟨⟨child, List.mem_cons_self, m :: tail, rfl⟩, hb⟩
          · exact ⟨⟨c, List.mem_cons_of_mem _ hc, tail, rfl⟩, hb⟩
        · rintro ⟨⟨c, hc, tail, rfl⟩, b, hb⟩
          rcases List.mem_cons.mp hc with rfl | hc
          · cases tail with
            | nil =>
                rw [hchild] at hb
                cases hb
                exact Or.inl rfl
            | cons m tail => exact Or.inr (Or.inl ⟨⟨m, tail, rfl⟩, b, hb⟩)
          · exact Or.inr (Or.inr ⟨⟨c, hc, tail, rfl⟩, b, hb⟩)
      · rw [List.cons_append, List.map_cons, List.map_append, List.nodup_cons, List.nodup_append]
        have hothers : ∀ q ∈ rest.map Prod.fst, ∃ c ∈ listed, ∃ tail, q = root ++ c.1 :: tail := by
          intro q hq
          obtain ⟨e, he, rfl⟩ := List.mem_map.mp hq
          exact ((hwalked.mem e.1 e.2).mp he).1
        have hbelows : ∀ q ∈ below.map Prod.fst, ∃ m tail, q = root ++ child.1 :: m :: tail := by
          intro q hq
          obtain ⟨e, he, rfl⟩ := List.mem_map.mp hq
          exact ((hmem.mem e.1 e.2).mp he).1
        have hfirst : ∀ c ∈ listed, ∀ tail tail' : Key,
            root ++ child.1 :: tail ≠ root ++ c.1 :: tail' := by
          intro c hc tail tail' heq
          have hname := (List.cons.inj (List.append_cancel_left heq)).1
          exact (List.nodup_cons.mp hnames).1 (hname ▸ List.mem_map.mpr ⟨c, hc, rfl⟩)
        refine ⟨fun hin => ?_, hmem.nodup, hwalked.nodup, fun q hq q' hq' heq => ?_⟩
        · rcases List.mem_append.mp hin with hin | hin
          · obtain ⟨m, tail, heq⟩ := hbelows _ hin
            have := (List.cons.inj (List.append_cancel_left heq)).2
            cases this
          · obtain ⟨c, hc, tail, heq⟩ := hothers _ hin
            exact hfirst c hc [] tail heq
        · obtain ⟨m, tail, rfl⟩ := hbelows q hq
          obtain ⟨c, hc, tail', rfl⟩ := hothers q' hq'
          exact hfirst c hc _ _ heq

/-- A walk of a directory finds all that is below it, if the stack is deep enough. -/
theorem walkedTree_inner (htree : TreeShaped fs) :
    ∀ {stack : Nat} {root : Key}, (∃ b, fs.content root = some (.directory, b)) →
      (∀ rest, (fs.content (root ++ rest)).isSome → rest.length < stack) →
      ∃ entries, walkTreeInner fs stack root = .ok entries ∧
        WalkedTree fs (fun q => ∃ n rest, q = root ++ n :: rest) entries
  | 0, root, ⟨b, hroot⟩, hdeep => by
      have := hdeep [] (by rw [List.append_nil, hroot]; rfl)
      cases this
  | stack + 1, root, ⟨b, hroot⟩, hdeep => by
      obtain ⟨node, hget, hnode⟩ := get_of_content hroot
      have hdir : node.metadata.fileType = .directory := congrArg Prod.fst hnode
      have hchildren : ∀ child ∈ fs.children root, fs.get (root ++ [child.1]) = some child.2 :=
        fun child hchild => mem_children.mp hchild
      have hdescend : ∀ child ∈ fs.children root, child.2.metadata.fileType = .directory →
          ∃ entries, walkTreeInner fs stack (root ++ [child.1]) = .ok entries ∧
            WalkedTree fs (fun q => ∃ m rest, q = root ++ child.1 :: m :: rest) entries := by
        intro child hchild htype
        have hfound := content_of_get (hchildren child hchild)
        have hbelow : ∀ rest, (fs.content ((root ++ [child.1]) ++ rest)).isSome →
            rest.length < stack := by
          intro rest hrest
          have := hdeep (child.1 :: rest) (by rwa [List.append_assoc] at hrest)
          simpa using this
        obtain ⟨entries, hentries, hspec⟩ := walkedTree_inner htree
          ⟨child.2.bytes, by rw [hfound, MemoryNode.content, htype]⟩ hbelow
        refine ⟨entries, hentries, fun q t => ?_, hspec.nodup⟩
        rw [hspec.mem]
        simp only [List.append_assoc, List.singleton_append]
      have hleaf : ∀ child ∈ fs.children root, child.2.metadata.fileType ≠ .directory →
          ∀ m rest, fs.content (root ++ child.1 :: m :: rest) = none := by
        intro child hchild htype m rest
        have hfound := content_of_get (hchildren child hchild)
        have hnone : fs.content ((root ++ [child.1]) ++ m :: rest) = none := by
          refine htree.eq_none (by simp) fun p hp hpdir => ?_
          rw [hfound] at hp
          cases hp
          exact htype hpdir
        rwa [List.append_assoc] at hnone
      obtain ⟨entries, hentries, hwalked⟩ :=
        walkedTree_listed hchildren (nodup_children root) hdescend hleaf
      refine ⟨entries, ?_, fun q t => ?_, hwalked.nodup⟩
      · rw [walkTreeInner, metadata_of_get (names_key root) hget]
        simp only [bind, Except.bind, hdir, ne_eq, not_true_eq_false, if_false]
        exact hentries
      · rw [hwalked.mem]
        constructor
        · rintro ⟨⟨child, _, rest, rfl⟩, hb⟩
          exact ⟨⟨child.1, rest, rfl⟩, hb⟩
        · rintro ⟨⟨n, rest, rfl⟩, b, hb⟩
          refine ⟨?_, b, hb⟩
          -- the first name on the way is that of a child
          obtain ⟨c, hc⟩ : ∃ c, fs.content (root ++ [n]) = some c := by
            cases rest with
            | nil => exact ⟨_, hb⟩
            | cons m rest =>
                have hb' : fs.content ((root ++ [n]) ++ m :: rest) = some (t, b) := by
                  rw [List.append_assoc]
                  exact hb
                exact (htree.above hb' (by simp)).imp fun _ h => h.1
          obtain ⟨child, hchild, -⟩ := get_of_content hc
          exact ⟨(n, child), mem_children.mpr hchild, rest, rfl⟩

end Walk

/-! ## What a run does -/

namespace LocalExtras

variable {extras : LocalExtras} {w : World}

/-- Neither protected nor listed. -/
def Extra (extras : LocalExtras) (relative : Key) (fileType : FileType) : Prop :=
  extras.isProtected relative fileType = false ∧ relative.path ∉ extras.keep

instance (relative : Key) (fileType : FileType) : Decidable (extras.Extra relative fileType) :=
  inferInstanceAs (Decidable (_ ∧ _))

/-- What is reported of one entry. -/
def actions (extras : LocalExtras) (entry : Key × FileType) : List SyncAction :=
  let path := extras.dest.join entry.1.path
  if extras.isProtected entry.1 entry.2 then [.protectDelete path]
  else if entry.1.path ∈ extras.keep then []
  else if entry.2 = .directory then [.deleteDir path]
  else [.deleteFile path]

/-- What a deletion of `entries` takes. -/
def Taken (extras : LocalExtras) (entries : List (Key × FileType)) (x : Key) : Prop :=
  ∃ e ∈ entries, extras.Extra e.1 e.2 ∧ (e.1 = x ∨ e.2 = .directory ∧ e.1 <+: x)

theorem run_report (action : SyncAction) (k : Unit → SyncProg Unit) :
    (report action >>= k).run syncHandler w =
      (k ()).run syncHandler { w with report := w.report ++ [action] } := rfl

theorem run_act {change : FsAct} {fs' : MemoryFileSystem} (h : change.run w.fs = (.ok (), fs')) :
    (act change).run syncHandler w = .ret () { w with fs := fs' } := by
  show (Prog.ofExcept (S := SyncSig) (change.run w.fs).1).run syncHandler
    { w with fs := (change.run w.fs).2 } = _
  rw [h]
  rfl

/-- A dry run reports and changes nothing. -/
theorem run_dry (hdry : extras.dryRun = true) : ∀ (existing : List (Key × FileType)) (w : World),
    (extras.deleteExtras existing).run syncHandler w =
      .ret () { w with report := w.report ++ existing.flatMap extras.actions }
  | [], w => by simp [deleteExtras]
  | (relative, fileType) :: existing, w => by
      have ih := run_dry hdry existing
      unfold deleteExtras
      rw [List.flatMap_cons, actions]
      simp only
      split
      · rw [run_report, ih]
        simp
      · split
        · show (extras.deleteExtras existing).run syncHandler w = _
          rw [ih]
          simp
        · unfold deleteExtra
          simp only [hdry, if_true]
          split
          · show (report _ >>= fun _ => extras.deleteExtras existing).run syncHandler w = _
            rw [run_report, ih]
            simp
          · show (report _ >>= fun _ => extras.deleteExtras existing).run syncHandler w = _
            rw [run_report, ih]
            simp

/-- An entry that is still there is deleted, a directory with what is in it. -/
theorem run_deleteExtra (hdry : extras.dryRun = false) (path : PathBuf) {relative : Key}
    {fileType : FileType} (hne : relative ≠ [])
    (hthere : ∃ b, w.fs.content relative = some (fileType, b)) :
    ∃ fs', (extras.deleteExtra path relative fileType).run syncHandler w = .ret () ⟨fs', w.report ++
        [if fileType = .directory then .deleteDir path else .deleteFile path]⟩ ∧
      (∀ x, relative = x ∨ fileType = .directory ∧ relative <+: x → fs'.content x = none) ∧
      ∀ x, ¬ (relative = x ∨ fileType = .directory ∧ relative <+: x) →
        fs'.content x = w.fs.content x := by
  obtain ⟨b, hb⟩ := hthere
  by_cases hdir : fileType = .directory
  · rcases @removeDirAll_cases w.fs _ _ (names_key relative) with ⟨err, -, hnone⟩ | ⟨fs', -, hok, hc⟩
    · have hgone := hnone.resolve_left hne relative (List.prefix_refl relative)
      rw [hb] at hgone
      cases hgone
    · refine ⟨fs', ?_, fun x hx => ?_, fun x hx => ?_⟩
      · unfold deleteExtra
        rw [if_pos hdir, if_pos hdir, run_report]
        simp only [hdry, Bool.false_eq_true, if_false]
        exact run_act hok
      · rw [hc]
        refine PathTree.prune_of_prefix ?_
        rcases hx with rfl | ⟨-, hpre⟩
        · exact List.prefix_refl _
        · exact hpre
      · rw [hc]
        exact PathTree.prune_of_not fun hpre => hx (Or.inr ⟨hdir, hpre⟩)
  · rcases @removeFile_cases w.fs _ _ (names_key relative) with ⟨err, -, hnone⟩ |
      ⟨c, fs', -, -, hok, hc⟩
    · exact absurd (hnone _ hb) hdir
    · refine ⟨fs', ?_, fun x hx => ?_, fun x hx => ?_⟩
      · unfold deleteExtra
        rw [if_neg hdir, if_neg hdir, run_report]
        simp only [hdry, Bool.false_eq_true, if_false]
        exact run_act hok
      · rw [hc]
        rcases hx with rfl | ⟨h, -⟩
        · exact Function.update_self ..
        · exact absurd h hdir
      · rw [hc]
        exact Function.update_of_ne (fun h => hx (Or.inl h.symm)) _ _

/-- A run over entries that are all there, none below an earlier one, deletes the extra ones. -/
theorem run_delete (hdry : extras.dryRun = false) :
    ∀ {existing : List (Key × FileType)} {w : World}, (∀ e ∈ existing, e.1 ≠ []) →
      (∀ e ∈ existing, ∃ b, w.fs.content e.1 = some (e.2, b)) →
      (existing.Pairwise fun a b => ¬ a.1 <+: b.1) →
      ∃ fs', (extras.deleteExtras existing).run syncHandler w =
          .ret () ⟨fs', w.report ++ existing.flatMap extras.actions⟩ ∧
        (∀ x, extras.Taken existing x → fs'.content x = none) ∧
        ∀ x, ¬ extras.Taken existing x → fs'.content x = w.fs.content x
  | [], w, _, _, _ => by
      refine ⟨w.fs, by simp [deleteExtras], fun x hx => ?_, fun x _ => rfl⟩
      obtain ⟨e, he, -⟩ := hx
      cases he
  | (relative, fileType) :: existing, w, hne, hthere, horder => by
      obtain ⟨hfirst, hrest⟩ := List.pairwise_cons.mp horder
      have hne' : ∀ e ∈ existing, e.1 ≠ [] := fun e he => hne e (List.mem_cons_of_mem _ he)
      by_cases hextra : extras.Extra relative fileType
      · obtain ⟨fs₁, hrun₁, hgone₁, hkept₁⟩ := run_deleteExtra hdry
          (extras.dest.join relative.path) (hne _ List.mem_cons_self) (hthere _ List.mem_cons_self)
        -- what comes later is not below what has gone
        have hthere₁ : ∀ e ∈ existing, ∃ b, fs₁.content e.1 = some (e.2, b) := by
          intro e he
          rw [hkept₁]
          · exact hthere e (List.mem_cons_of_mem _ he)
          · rintro (heq | ⟨-, hpre⟩)
            · exact hfirst e he (heq ▸ List.prefix_refl _)
            · exact hfirst e he hpre
        obtain ⟨fs', hrun, hgone, hkept⟩ := run_delete (w := ⟨fs₁, _⟩) hdry hne' hthere₁ hrest
        refine ⟨fs', ?_, fun x hx => ?_, fun x hx => ?_⟩
        · unfold deleteExtras
          rw [List.flatMap_cons, actions]
          simp only [hextra.1, hextra.2, Bool.false_eq_true, if_false]
          rw [Prog.run_bind, hrun₁]
          simp only
          rw [hrun]
          simp only [List.append_assoc]
          split <;> rfl
        · by_cases hlater : extras.Taken existing x
          · exact hgone x hlater
          · obtain ⟨e, he, hE, hbelow⟩ := hx
            rcases List.mem_cons.mp he with rfl | he
            · rw [hkept x hlater, hgone₁ x hbelow]
            · exact absurd ⟨e, he, hE, hbelow⟩ hlater
        · rw [hkept, hkept₁]
          · exact fun hbelow => hx ⟨_, List.mem_cons_self, hextra, hbelow⟩
          · rintro ⟨e, he, hE, hbelow⟩
            exact hx ⟨e, List.mem_cons_of_mem _ he, hE, hbelow⟩
      · have hthere' : ∀ e ∈ existing, ∃ b, w.fs.content e.1 = some (e.2, b) :=
          fun e he => hthere e (List.mem_cons_of_mem _ he)
        have htaken : ∀ x, extras.Taken ((relative, fileType) :: existing) x ↔
            extras.Taken existing x := by
          intro x
          constructor
          · rintro ⟨e, he, hE, hbelow⟩
            rcases List.mem_cons.mp he with rfl | he
            · exact absurd hE hextra
            · exact ⟨e, he, hE, hbelow⟩
          · rintro ⟨e, he, hrest⟩
            exact ⟨e, List.mem_cons_of_mem _ he, hrest⟩
        unfold deleteExtras
        rw [List.flatMap_cons, actions]
        simp only [htaken]
        split
        · obtain ⟨fs', hrun, hspec⟩ := run_delete (w := { w with report := w.report ++
            [.protectDelete (extras.dest.join relative.path)] }) hdry hne' hthere' hrest
          refine ⟨fs', ?_, hspec⟩
          rw [run_report, hrun]
          simp
        · rename_i hprot
          split
          · obtain ⟨fs', hrun, hspec⟩ := run_delete (w := w) hdry hne' hthere' hrest
            refine ⟨fs', ?_, hspec⟩
            rw [List.nil_append, ← hrun]
          · rename_i hkeep
            exact absurd ⟨by simpa using hprot, hkeep⟩ hextra

/-- What is below a directory that goes is itself to go. -/
def Spared (extras : LocalExtras) (fs : MemoryFileSystem) : Prop :=
  ∀ q b, q ≠ [] → fs.content q = some (.directory, b) → extras.Extra q .directory →
    ∀ r c, q <+: r → q ≠ r → fs.content r = some c → extras.Extra r c.1

instance (fs : MemoryFileSystem) : Decidable (extras.Spared fs) :=
  decidable_of_iff (∀ q ∈ fs.nodes.keys, q ≠ [] → (fs.content q).any (·.1 = .directory) →
      extras.Extra q .directory → ∀ r ∈ fs.nodes.keys, q <+: r → q ≠ r →
        (fs.content r).all fun c => extras.Extra r c.1) <| by
    have hkey : ∀ (r : Key) c, fs.content r = some c → r ∈ fs.nodes.keys := by
      intro r c hc
      obtain ⟨node, hget, -⟩ := get_of_content hc
      exact mem_keys.mpr (by rw [hget]; rfl)
    constructor
    · intro h q b hq hb hextra r c hpre hne hc
      have hall := h q (hkey q _ hb) hq (by rw [hb]; rfl) hextra r (hkey r c hc) hpre hne
      rw [hc] at hall
      simpa using hall
    · intro h q _ hq hdir hextra r _ hpre hne
      cases hb : fs.content q with
      | none =>
          rw [hb] at hdir
          cases hdir
      | some a =>
          obtain ⟨t, b⟩ := a
          rw [hb] at hdir
          obtain rfl : t = .directory := by simpa using hdir
          cases hc : fs.content r with
          | none => rfl
          | some c => simpa using h q b hq hb hextra r c hpre hne hc

/-- A deletion of all nodes takes nothing but extra ones exactly if the others are spared. -/
theorem spared_iff {fs : MemoryFileSystem} {existing : List (Key × FileType)}
    (hexisting : WalkedTree fs (fun q => ∃ n rest, q = n :: rest) existing) :
    extras.Spared fs ↔
      ∀ r c, fs.content r = some c → ¬ extras.Extra r c.1 → ¬ extras.Taken existing r := by
  constructor
  · rintro h r c hc hkept ⟨⟨q, t⟩, he, hextra, hbelow⟩
    obtain ⟨⟨n, rest, hq⟩, b, hb⟩ := (hexisting.mem q t).mp he
    by_cases hqr : q = r
    · subst hqr
      rw [hb] at hc
      cases hc
      exact hkept hextra
    · obtain ⟨hdir, hpre⟩ := hbelow.resolve_left hqr
      simp only at hdir hpre hextra
      subst hdir
      exact hkept (h q b (by rw [hq]; simp) hb hextra r c hpre hqr hc)
  · intro h q b hq hb hextra r c hpre _ hc
    by_contra hkept
    obtain ⟨n, rest, rfl⟩ := List.exists_cons_of_ne_nil hq
    refine h r c hc hkept ⟨(n :: rest, .directory), (hexisting.mem _ _).mpr ?_, hextra, ?_⟩
    · exact ⟨⟨n, rest, rfl⟩, b, hb⟩
    · exact Or.inr ⟨rfl, hpre⟩

end LocalExtras

/-! ## The whole -/

section Whole

variable {fs : MemoryFileSystem} {stack : Nat} {dest : PathBuf}
  {entries : List RsyncFileListEntry} {filterRules : RuleSet} {filesFrom : Option (List PathBuf)}

/-- Without a directory there is nothing to delete. -/
theorem run_deleteLocalExtras_nothing (hroot : ∀ b, fs.content [] ≠ some (.directory, b))
    (dryRun : Bool) (actions : List SyncAction) :
    ((deleteLocalExtras stack dest entries filterRules filesFrom dryRun).run syncHandler
      ⟨fs, actions⟩).state = ⟨fs, actions⟩ := by
  show ((if !fs.existsAt [] then pure () else _ : SyncProg Unit).run syncHandler
    ⟨fs, actions⟩).state = _
  have hexists : fs.existsAt [] = (fs.content []).isSome := existsAt_iff rfl
  cases hc : fs.content [] with
  | none =>
      rw [hexists, hc]
      rfl
  | some c =>
      rw [hexists, hc]
      have hwalk : ∃ e, walkTree stack fs = .error e := by
        cases stack with
        | zero => exact ⟨_, rfl⟩
        | succ stack =>
            obtain ⟨node, hget, rfl⟩ := get_of_content hc
            have hdir : node.metadata.fileType ≠ .directory := by
              intro h
              refine hroot node.bytes ?_
              rw [hc, MemoryNode.content, h]
            refine ⟨.notDirectory [], ?_⟩
            have hmeta : fs.metadata [] = .ok node.metadata := metadata_of_get rfl hget
            simp only [walkTree, walkTreeInner, Key.path_nil, hmeta, bind, Except.bind, ne_eq, hdir,
              not_false_eq_true, if_true]
            rfl
      obtain ⟨e, he⟩ := hwalk
      simp only [Option.isSome_some, Bool.not_true, Bool.false_eq_true, if_false, he]
      rfl

/-- The entries in the order of their deletion: nothing is below an earlier one. -/
theorem run_deleteLocalExtras (htree : TreeShaped fs)
    (hstack : ∀ key, (fs.content key).isSome → key.length < stack)
    (hroot : ∃ b, fs.content [] = some (.directory, b)) (dest : PathBuf)
    (entries : List RsyncFileListEntry) (filterRules : RuleSet)
    (filesFrom : Option (List PathBuf)) :
    ∃ existing, WalkedTree fs (fun q => ∃ n rest, q = n :: rest) existing ∧
      (existing.Pairwise fun a b => ¬ a.1 <+: b.1) ∧ ∀ dryRun actions,
        (deleteLocalExtras stack dest entries filterRules filesFrom dryRun).run syncHandler
            ⟨fs, actions⟩ =
          ((⟨dest, keptPaths entries, filterRules, filesFrom, dryRun⟩ : LocalExtras).deleteExtras
            existing).run syncHandler ⟨fs, actions⟩ := by
  obtain ⟨found, hfound, hwalked⟩ := walkedTree_inner htree hroot fun rest hrest => hstack rest hrest
  refine ⟨sortBy IncrementalReceiverState.deleteOrder
    (sortBy (fun left right => compare left.1 right.1) found), ?_, ?_, fun dryRun actions => ?_⟩
  · have hperm := (sortBy_perm IncrementalReceiverState.deleteOrder
      (sortBy (fun left right => compare left.1 right.1) found)).trans (sortBy_perm _ found)
    refine ⟨fun q t => ?_, ?_⟩
    · rw [hperm.mem_iff, hwalked.mem]
      simp only [List.nil_append]
    · exact (hperm.map Prod.fst).nodup_iff.mpr hwalked.nodup
  · have hperm := (sortBy_perm IncrementalReceiverState.deleteOrder
      (sortBy (fun left right => compare left.1 right.1) found)).trans (sortBy_perm _ found)
    have hnodup := (hperm.map Prod.fst).nodup_iff.mpr hwalked.nodup
    rw [List.Nodup, List.pairwise_map] at hnodup
    refine (hnodup.and (inOrder_sortBy IncrementalReceiverState.deleteOrder _)).imp ?_
    rintro a b ⟨hne, hle⟩ hpre
    exact hne (hpre.eq_of_length_le (IncrementalReceiverState.length_le_of_deleteOrder hle))
  · show (if !fs.existsAt [] then pure () else _ : SyncProg Unit).run syncHandler
      ⟨fs, actions⟩ = _
    obtain ⟨b, hb⟩ := hroot
    have hexists : fs.existsAt [] = (fs.content []).isSome := existsAt_iff rfl
    rw [hb] at hexists
    have hwalk : walkTree stack fs = .ok (sortBy (fun left right => compare left.1 right.1) found) := by
      simp [walkTree, hfound, bind, Except.bind, pure, Except.pure]
    rw [hexists, hwalk]
    rfl

end Whole

/-- A receiver keeps what was listed and what is protected, and a dry run foretells it,
exactly if what is below a directory that goes is itself to go. -/
theorem deleteLocalExtras_keeps_iff {fs : MemoryFileSystem} {stack : Nat} (htree : TreeShaped fs)
    (hstack : ∀ key, (fs.content key).isSome → key.length < stack) (dest : PathBuf)
    (entries : List RsyncFileListEntry) (filterRules : RuleSet)
    (filesFrom : Option (List PathBuf)) (actions : List SyncAction) :
    (let extras : LocalExtras := ⟨dest, keptPaths entries, filterRules, filesFrom, false⟩
     let real := (deleteLocalExtras stack dest entries filterRules filesFrom false).run syncHandler
       ⟨fs, actions⟩
     let dry := (deleteLocalExtras stack dest entries filterRules filesFrom true).run syncHandler
       ⟨fs, actions⟩
     ((∀ (r : Key) c, fs.content r = some c →
        (extras.isProtected r c.1 = true ∨ r.path ∈ extras.keep) →
        real.state.fs.content r = some c) ∧
      dry.state.fs = fs ∧ dry.state.report = real.state.report) ↔ extras.Spared fs) := by
  intro extras real dry
  have hkept : ∀ (r : Key) t, ¬ extras.Extra r t ↔ extras.isProtected r t = true ∨ r.path ∈ extras.keep := by
    intro r t
    unfold LocalExtras.Extra
    rw [not_and_or, not_not, Bool.not_eq_false]
  by_cases hroot : ∃ b, fs.content [] = some (.directory, b)
  · obtain ⟨existing, hexisting, horder, hruns⟩ :=
      run_deleteLocalExtras htree hstack hroot dest entries filterRules filesFrom
    have hthere : ∀ e ∈ existing, ∃ b, fs.content e.1 = some (e.2, b) :=
      fun e he => ((hexisting.mem e.1 e.2).mp he).2
    have hne : ∀ e ∈ existing, e.1 ≠ [] := by
      intro e he
      obtain ⟨⟨n, rest, hq⟩, -⟩ := (hexisting.mem e.1 e.2).mp he
      rw [hq]
      simp
    obtain ⟨fs', hreal, hgone, hstays⟩ := LocalExtras.run_delete (w := ⟨fs, actions⟩)
      (show extras.dryRun = false from rfl) hne hthere horder
    have hreal' : real = .ret () ⟨fs', actions ++ existing.flatMap extras.actions⟩ :=
      (hruns false actions).trans hreal
    have hdry : dry = .ret () ⟨fs, actions ++ existing.flatMap extras.actions⟩ := by
      have hrun := LocalExtras.run_dry
        (show ({ extras with dryRun := true } : LocalExtras).dryRun = true from rfl) existing
        ⟨fs, actions⟩
      exact (hruns true actions).trans hrun
    rw [hreal', hdry, LocalExtras.spared_iff hexisting]
    constructor
    · rintro ⟨h, -⟩ r c hc hr htaken
      have hsame : fs'.content r = some c := h r c hc ((hkept r c.1).mp hr)
      rw [hgone r htaken] at hsame
      cases hsame
    · intro h
      refine ⟨fun r c hc hr => ?_, rfl, rfl⟩
      show fs'.content r = some c
      rw [hstays r (h r c hc ((hkept r c.1).mpr hr))]
      exact hc
  · have hnone : ∀ b, fs.content [] ≠ some (.directory, b) := fun b hb => hroot ⟨b, hb⟩
    have hreal : real.state = ⟨fs, actions⟩ := run_deleteLocalExtras_nothing hnone false actions
    have hdry : dry.state = ⟨fs, actions⟩ := run_deleteLocalExtras_nothing hnone true actions
    rw [hreal, hdry]
    constructor
    · -- nothing is below what is no directory
      intro _ q b hq hb
      obtain ⟨n, rest, rfl⟩ := List.exists_cons_of_ne_nil hq
      obtain ⟨⟨t, b'⟩, hc, rfl⟩ := htree.above (k := []) hb hq
      exact absurd hc (hnone b')
    · intro _
      exact ⟨fun r c hc _ => hc, rfl, rfl⟩

/-- `q/p` was listed with its directory, and `g` was not. -/
theorem deleteLocalExtras_keeps_listed :
    (let fs := withFiles [([[0x71], [0x70]], [1]), ([[0x67]], [2])]
     let entries : List RsyncFileListEntry :=
       [⟨[0x71], .directory, 0, 0, 0, none, none, {}⟩, ⟨[0x71, 0x2f, 0x70], .file, 1, 0, 0, none, none, {}⟩]
     let real := (deleteLocalExtras 8 (Key.path [[0x64]]) entries {} none false).run syncHandler
       ⟨fs, []⟩
     let dry := (deleteLocalExtras 8 (Key.path [[0x64]]) entries {} none true).run syncHandler
       ⟨fs, []⟩
     real.state.fs.content [[0x71], [0x70]] = some (.file, [1]) ∧ dry.state.fs = fs ∧
      dry.state.report = real.state.report) := by
  intro fs entries real dry
  have hwf : WellFormed fs := by decide +kernel
  have hshallow : ∀ key ∈ fs.nodes.keys, key.length < 8 := by decide +kernel
  have hstack : ∀ key, (fs.content key).isSome → key.length < 8 := by
    intro key hkey
    obtain ⟨c, hc⟩ := Option.isSome_iff_exists.mp hkey
    obtain ⟨node, hget, -⟩ := get_of_content hc
    exact hshallow key (mem_keys.mpr (by rw [hget]; rfl))
  have hkeeps := (deleteLocalExtras_keeps_iff hwf.tree hstack (Key.path [[0x64]]) entries {} none
    []).mpr (by decide +kernel)
  exact ⟨hkeeps.1 [[0x71], [0x70]] (.file, [1]) (by decide +kernel) (by decide +kernel), hkeeps.2⟩

/-- The directory `q` goes with `q/p`, which was listed without it in the first run and is
protected in the second. -/
theorem deleteLocalExtras_takes_kept :
    (let fs := withFiles [([[0x71], [0x70]], [1])]
     let entries : List RsyncFileListEntry :=
       [⟨[0x71, 0x2f, 0x70], .file, 1, 0, 0, none, none, {}⟩]
     let real := (deleteLocalExtras 8 (Key.path [[0x64]]) entries {} none false).run syncHandler
       ⟨fs, []⟩
     Key.path [[0x71], [0x70]] ∈ keptPaths entries ∧
      fs.content [[0x71], [0x70]] = some (.file, [1]) ∧ real.returned = some () ∧
      real.state.fs.content [[0x71], [0x70]] = none) ∧
    (let fs := withFiles [([[0x71], [0x70]], [1])]
     let rules : RuleSet := ⟨(Rule.new .protect ['p']).toOption.toList⟩
     let real := (deleteLocalExtras 8 (Key.path [[0x64]]) [] rules none false).run syncHandler
       ⟨fs, []⟩
     deleteIsProtected rules [[0x71], [0x70]] .file false = true ∧
      fs.content [[0x71], [0x70]] = some (.file, [1]) ∧ real.returned = some () ∧
      real.state.fs.content [[0x71], [0x70]] = none) := by
  decide +kernel

end RsyncWin.Fs
