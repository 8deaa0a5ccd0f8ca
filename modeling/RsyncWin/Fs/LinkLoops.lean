import RsyncWin.Lib.Walks
import RsyncWin.Fs.EntriesLaws
import Mathlib.Data.Set.Finite.Basic
import Mathlib.Data.Finset.Lattice.Fold
import Mathlib.Tactic.WLOG

/-!
# Where the walk over a tree ends (`collect_relative_entries`, `rsync-fs/src/sync.rs`)

A walk that goes down into its own entries gets deeper in a tree that is finite.
A followed directory link takes it anywhere, and no list of visited directories
stops it: the walk ends unless it passes one such link again and again, or
reads a merge file whose links lead in a circle.
-/

namespace RsyncWin.Fs

open ByteString

/-! ## Links that lead in a circle -/

namespace MemoryFileSystem

variable {fs : MemoryFileSystem}

/-- The node at `key` is a link, and leads to `target`. -/
def LinksTo (fs : MemoryFileSystem) (key target : Key) : Prop :=
  ∃ node, fs.get key = some node ∧ node.metadata.fileType = .symlink ∧
    resolveMemorySymlinkTarget key node.metadata = .ok target

/-- Links that lead to links without end. -/
def EndlessLinks (fs : MemoryFileSystem) (key : Key) : Prop :=
  ∃ links : Nat → Key, links 0 = key ∧ ∀ n, fs.LinksTo (links n) (links (n + 1))

theorem normalizeMemoryResolvedPath_ne (whole : PathBuf) (out : Key) (path : PathBuf) :
    normalizeMemoryResolvedPath whole out path ≠ .error .stackOverflow := by
  induction path generalizing out with
  | nil => exact fun h => by cases h
  | cons c path ih =>
      cases c with
      | rootDir => exact fun h => by cases h
      | curDir => exact ih out
      | normal name => exact ih (out ++ [name])
      | parentDir =>
          unfold normalizeMemoryResolvedPath
          split
          · exact fun h => by cases h
          · exact ih out.dropLast

theorem resolveMemorySymlinkTarget_ne (link : Key) (metadata : PortableMetadata) :
    resolveMemorySymlinkTarget link metadata ≠ .error .stackOverflow := by
  unfold resolveMemorySymlinkTarget
  split
  · exact fun h => by cases h
  · exact normalizeMemoryResolvedPath_ne _ _ _

theorem normalizePortablePath_ne (path : PathBuf) :
    normalizePortablePath path ≠ .error .stackOverflow := by
  unfold normalizePortablePath
  split <;> exact fun h => by cases h

theorem metadata_ne (path : PathBuf) : fs.metadata path ≠ .error .stackOverflow := by
  cases hkey : path.names with
  | none =>
      simp [metadata, normalizePortablePath_of_none hkey, bind, Except.bind]
  | some key =>
      cases hget : fs.get key with
      | none =>
          rw [metadata_of_none hkey hget]
          exact fun h => by cases h
      | some node =>
          rw [metadata_of_get hkey hget]
          exact fun h => by cases h

theorem metadataFollow_ne (path : PathBuf) : fs.metadataFollow path ≠ .error .stackOverflow := by
  unfold metadataFollow
  cases hkey : normalizePortablePath path with
  | error e =>
      rintro h
      obtain rfl : e = .stackOverflow := Except.error.inj h
      exact normalizePortablePath_ne path hkey
  | ok key =>
      simp only [bind, Except.bind]
      split
      · exact fun h => by cases h
      · split
        · exact fun h => by cases h
        · split
          next e he =>
            rintro h
            obtain rfl : e = .stackOverflow := Except.error.inj h
            exact resolveMemorySymlinkTarget_ne _ _ he
          next => exact metadata_ne _

theorem list_ne (path : PathBuf) : fs.list path ≠ .error .stackOverflow := by
  unfold list
  cases hkey : normalizePortablePath path with
  | error e =>
      rintro h
      obtain rfl : e = .stackOverflow := Except.error.inj h
      exact normalizePortablePath_ne path hkey
  | ok key =>
      simp only [bind, Except.bind]
      split
      next e he =>
        rintro h
        obtain rfl : e = .stackOverflow := Except.error.inj h
        exact metadata_ne key.path he
      next => split <;> exact fun h => by cases h

theorem readFileAt_of_linksTo {key target : Key} (h : fs.LinksTo key target) (fuel : Nat) :
    fs.readFileAt (fuel + 1) key = fs.readFileAt fuel target := by
  obtain ⟨node, hget, hlink, htarget⟩ := h
  rw [readFileAt, hget]
  simp only [hlink, if_true, htarget]
  rfl

theorem linksTo_of_overflow {key : Key} {fuel : Nat}
    (h : fs.readFileAt (fuel + 1) key = .error .stackOverflow) :
    ∃ target, fs.LinksTo key target ∧ fs.readFileAt fuel target = .error .stackOverflow := by
  rw [readFileAt] at h
  cases hget : fs.get key with
  | none => simp [hget] at h
  | some node =>
      simp only [hget] at h
      by_cases hlink : node.metadata.fileType = .symlink
      · rw [if_pos hlink] at h
        cases htarget : resolveMemorySymlinkTarget key node.metadata with
        | error e =>
            rw [htarget] at h
            obtain rfl : e = .stackOverflow := Except.error.inj h
            exact absurd htarget (resolveMemorySymlinkTarget_ne _ _)
        | ok target =>
            rw [htarget] at h
            exact ⟨target, ⟨node, hget, hlink, htarget⟩, h⟩
      · rw [if_neg hlink] at h
        split at h <;> cases h

/-- Reading follows `fuel` links and finds one more. -/
theorem links_of_overflow {key : Key} {fuel : Nat}
    (h : fs.readFileAt fuel key = .error .stackOverflow) :
    ∃ links : Nat → Key, links 0 = key ∧ ∀ n < fuel, fs.LinksTo (links n) (links (n + 1)) := by
  induction fuel generalizing key with
  | zero => exact ⟨fun _ => key, rfl, fun n hn => absurd hn (Nat.not_lt_zero n)⟩
  | succ fuel ih =>
      obtain ⟨target, hfirst, htarget⟩ := linksTo_of_overflow h
      obtain ⟨links, hzero, hlinks⟩ := ih htarget
      refine ⟨fun n => n.casesOn key fun n => links n, rfl, ?_⟩
      intro n hn
      cases n with
      | zero =>
          show fs.LinksTo key (links 0)
          rw [hzero]
          exact hfirst
      | succ n => exact hlinks n (Nat.lt_of_succ_lt_succ hn)

/-- Of more links than there are nodes, one comes twice. -/
theorem endlessLinks_of_long {links : Nat → Key}
    (hlinks : ∀ n < fs.nodes.size + 1, fs.LinksTo (links n) (links (n + 1))) :
    fs.EndlessLinks (links 0) := by
  have hmem : ∀ n ∈ Finset.range (fs.nodes.size + 1), links n ∈ fs.nodes.keys.toFinset := by
    intro n hn
    obtain ⟨node, hget, -⟩ := hlinks n (Finset.mem_range.mp hn)
    rw [List.mem_toFinset, mem_keys, hget]
    rfl
  have hcard : fs.nodes.keys.toFinset.card < (Finset.range (fs.nodes.size + 1)).card := by
    have hkeys := List.toFinset_card_le fs.nodes.keys
    rw [Std.TreeMap.length_keys] at hkeys
    rw [Finset.card_range]
    omega
  obtain ⟨i, hi, j, hj, hne, heq⟩ :=
    Finset.exists_ne_map_eq_of_card_lt_of_maps_to hcard hmem
  rw [Finset.mem_range] at hi hj
  wlog hij : i < j generalizing i j
  · exact this j hj i hi hne.symm heq.symm (by omega)
  -- the links before the second visit lead to one another
  refine exists_path_of (P := fun key => ∃ n < j, links n = key) ?_ ⟨0, by omega, rfl⟩
  rintro _ ⟨n, hn, rfl⟩
  have hnext := hlinks n (by omega)
  by_cases hlast : n + 1 = j
  · refine ⟨links i, ?_, i, hij, rfl⟩
    rw [heq, ← hlast]
    exact hnext
  · exact ⟨links (n + 1), hnext, n + 1, by omega, rfl⟩

theorem readFileAt_of_endlessLinks {key : Key} (h : fs.EndlessLinks key) (fuel : Nat) :
    fs.readFileAt fuel key = .error .stackOverflow := by
  obtain ⟨links, rfl, hlinks⟩ := h
  suffices h : ∀ n, fs.readFileAt fuel (links n) = .error .stackOverflow from h 0
  induction fuel with
  | zero => exact fun _ => rfl
  | succ fuel ih =>
      intro n
      rw [readFileAt_of_linksTo (hlinks n)]
      exact ih (n + 1)

theorem readFile_overflow_iff {path : PathBuf} :
    fs.readFile path = .error .stackOverflow ↔
      ∃ key, normalizePortablePath path = .ok key ∧ fs.EndlessLinks key := by
  unfold readFile
  cases hkey : normalizePortablePath path with
  | error e =>
      constructor
      · intro h
        obtain rfl : e = .stackOverflow := Except.error.inj h
        exact absurd hkey (normalizePortablePath_ne path)
      · rintro ⟨key, h, -⟩
        cases h
  | ok key =>
      constructor
      · intro h
        obtain ⟨links, rfl, hlinks⟩ := links_of_overflow h
        exact ⟨_, rfl, endlessLinks_of_long hlinks⟩
      · rintro ⟨key', h, hendless⟩
        obtain rfl := Except.ok.inj h
        exact readFileAt_of_endlessLinks hendless _

end MemoryFileSystem

/-! ## A path down a finite tree -/

/-- An endless path through listed entries passes one of those that it does not
simply go down into again and again. -/
theorem exists_followed_again {fs : MemoryFileSystem} {dir : Nat → PathBuf}
    {seen : Nat → WalkEntry} {Follows : Nat → Prop}
    (hlisted : ∀ n, ∃ listed, fs.list (dir n) = .ok listed ∧ seen n ∈ listed)
    (hdown : ∀ n, ¬ Follows n → dir (n + 1) = (seen n).path) :
    ∃ link : Key, ∀ n, ∃ m, n ≤ m ∧ Follows m ∧ (seen m).path = link.path := by
  have hkeys : ∀ n, ∃ key name node, (dir n).names = some key ∧
      fs.get (key ++ [name]) = some node ∧ seen n = nodeEntry (key ++ [name]) node := by
    intro n
    obtain ⟨listed, hlist, hmem⟩ := hlisted n
    obtain ⟨key, -, hkey, -, rfl⟩ := MemoryFileSystem.list_eq_ok hlist
    obtain ⟨⟨name, node⟩, hchild, hseen⟩ := List.mem_map.mp hmem
    exact ⟨key, name, node, hkey, MemoryFileSystem.mem_children.mp hchild, hseen.symm⟩
  choose key name node hkey hnode hseen using hkeys
  have hstored : ∀ n, key n ++ [name n] ∈ fs.nodes.keys.toFinset := by
    intro n
    rw [List.mem_toFinset, MemoryFileSystem.mem_keys, hnode n]
    rfl
  have hdeeper : ∀ n, ¬ Follows n → key (n + 1) = key n ++ [name n] := by
    intro n hn
    have hdir := hkey (n + 1)
    rw [hdown n hn, hseen n, nodeEntry, names_key] at hdir
    exact (Option.some.inj hdir).symm
  -- keys that only get longer are all different, and there are finitely many
  have hagain : ∀ n, ∃ m, n ≤ m ∧ Follows m := by
    intro n
    by_contra hnone
    push Not at hnone
    have hlength : ∀ k, (key (n + k)).length = (key n).length + k := by
      intro k
      induction k with
      | zero => rfl
      | succ k ih =>
          rw [← Nat.add_assoc, hdeeper _ (hnone _ (Nat.le_add_right n k)), List.length_append, ih]
          rfl
    refine Set.not_injOn_infinite_finite_image (f := fun k => key (n + k) ++ [name (n + k)])
      Set.infinite_univ ?_ ?_
    · refine Set.Finite.subset (Finset.finite_toSet fs.nodes.keys.toFinset) ?_
      rintro _ ⟨k, -, rfl⟩
      exact hstored (n + k)
    · intro k _ l _ hkl
      have hlen := congrArg List.length hkl
      simp only [List.length_append, hlength, List.length_singleton] at hlen
      omega
  by_contra hnone
  push Not at hnone
  choose last hlast using hnone
  obtain ⟨m, hm, hfollows⟩ := hagain (fs.nodes.keys.toFinset.sup last)
  refine hlast (key m ++ [name m]) m ?_ hfollows (by rw [hseen m, nodeEntry])
  exact (Finset.le_sup (hstored m)).trans hm

/-! ## Merge files that cannot be read -/

/-- The merge rules of a directory run into a merge file behind endless links,
after merge files that are read. -/
def MergesEndlessly (fs : MemoryFileSystem) (current : PathBuf) (inherited : RuleSet) : Prop :=
  ∃ before rule after merged key, inherited.rules = before ++ rule :: after ∧
    rule.action = .dirMerge ∧ mergeRules fs current before (inherited, false) = .ok merged ∧
    normalizePortablePath (current.join (patternPath rule.pattern)) = .ok key ∧
    fs.EndlessLinks key

theorem mergeRules_append {fs : MemoryFileSystem} {current : PathBuf} (before after : List Rule)
    (merged : RuleSet × Bool) :
    mergeRules fs current (before ++ after) merged =
      (mergeRules fs current before merged).bind (mergeRules fs current after) := by
  induction before generalizing merged with
  | nil => rfl
  | cons rule before ih =>
      rw [List.cons_append, mergeRules, mergeRules]
      split
      · exact ih merged
      · split
        · exact ih merged
        · rfl
        · split
          · rfl
          · exact ih _

theorem mergeRules_overflow {fs : MemoryFileSystem} {current : PathBuf} {rules : List Rule}
    {merged : RuleSet × Bool} (h : mergeRules fs current rules merged = .error .stackOverflow) :
    ∃ before rule after merged', rules = before ++ rule :: after ∧ rule.action = .dirMerge ∧
      mergeRules fs current before merged = .ok merged' ∧
      fs.readFile (current.join (patternPath rule.pattern)) = .error .stackOverflow := by
  induction rules generalizing merged with
  | nil => cases h
  | cons rule rules ih =>
      have hfirst : ∀ merged', mergeRules fs current [rule] merged = .ok merged' →
          mergeRules fs current rules merged' = .error .stackOverflow →
          ∃ before rule' after merged', rule :: rules = before ++ rule' :: after ∧
            rule'.action = .dirMerge ∧ mergeRules fs current before merged = .ok merged' ∧
            fs.readFile (current.join (patternPath rule'.pattern)) = .error .stackOverflow := by
        intro merged' hrule hrules
        obtain ⟨before, rule', after, merged'', rfl, haction, hbefore, hread⟩ := ih hrules
        refine ⟨rule :: before, rule', after, merged'', rfl, haction, ?_, hread⟩
        rw [show rule :: before = [rule] ++ before from rfl, mergeRules_append, hrule]
        exact hbefore
      have hsplit := h
      rw [show rule :: rules = [rule] ++ rules from rfl, mergeRules_append] at hsplit
      cases hrule : mergeRules fs current [rule] merged with
      | ok merged' =>
          rw [hrule] at hsplit
          exact hfirst merged' hrule hsplit
      | error e =>
          rw [hrule] at hsplit
          obtain rfl : e = .stackOverflow := Except.error.inj hsplit
          rw [mergeRules] at hrule
          by_cases haction : rule.action = .dirMerge
          · refine ⟨[], rule, rules, merged, rfl, haction, rfl, ?_⟩
            rw [if_neg (not_not_intro haction)] at hrule
            cases hread : fs.readFile (current.join (patternPath rule.pattern)) with
            | ok bytes =>
                simp only [hread] at hrule
                split at hrule <;> cases hrule
            | error e =>
                simp only [hread] at hrule
                cases e <;> cases hrule
                rfl
          · rw [if_pos haction] at hrule
            cases hrule

theorem loadDirMergeRules_overflow_iff {fs : MemoryFileSystem} {current : PathBuf}
    {inherited : Option RuleSet} :
    loadDirMergeRules fs current inherited = .error .stackOverflow ↔
      ∃ rules, inherited = some rules ∧ MergesEndlessly fs current rules := by
  cases inherited with
  | none =>
      constructor
      · exact fun h => by cases h
      · rintro ⟨rules, h, -⟩
        cases h
  | some rules =>
      have hload : loadDirMergeRules fs current (some rules) = .error .stackOverflow ↔
          mergeRules fs current rules.rules (rules, false) = .error .stackOverflow := by
        simp only [loadDirMergeRules, bind, Except.bind]
        cases mergeRules fs current rules.rules (rules, false) with
        | error e =>
            constructor
            · intro h
              rw [Except.error.inj h]
            · intro h
              rw [Except.error.inj h]
        | ok merged =>
            constructor
            · intro h
              cases h
            · intro h
              cases h
      rw [hload]
      constructor
      · intro h
        obtain ⟨before, rule, after, merged, hrules, haction, hbefore, hread⟩ :=
          mergeRules_overflow h
        obtain ⟨key, hkey, hlinks⟩ := MemoryFileSystem.readFile_overflow_iff.mp hread
        exact ⟨rules, rfl, before, rule, after, merged, key, hrules, haction, hbefore, hkey, hlinks⟩
      · rintro ⟨rules', hsome, before, rule, after, merged, key, hrules, haction, hbefore, hkey,
          hlinks⟩
        obtain rfl := Option.some.inj hsome
        have hread := MemoryFileSystem.readFile_overflow_iff.mpr ⟨key, hkey, hlinks⟩
        rw [hrules, mergeRules_append, hbefore]
        show mergeRules fs current (rule :: after) merged = _
        rw [mergeRules, if_neg (not_not_intro haction), hread]

end RsyncWin.Fs
