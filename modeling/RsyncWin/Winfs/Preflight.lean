import Mathlib.Data.List.Infix
import RsyncWin.Winfs.Path

/-!
# The destination preflight (`rsync-winfs/src/path.rs`)

Two listed paths that fold to one key are refused. The directories above them
have to be created too, and only those that are listed themselves are compared.
NFC and lower-casing are parameters.
-/

namespace RsyncWin

open ByteString

section Preflight

variable (nfc : List Char → List Char) (toLowercase : Char → List Char)

def componentsKey (parts : List Component) : List Char :=
  ['/'].intercalate (parts.filterMap fun component =>
    match component with
    | .normal name => some ((nfc (decodeLossy name.length name)).flatMap toLowercase)
    | _ => none)

def collisionKey (path : Bytes) : List Char := componentsKey nfc toLowercase (components path)

/-- The loop of `preflight_destination_paths`, from the paths seen before. -/
def preflightFrom (seen : List (List Char × Bytes)) : List Bytes → Except WindowsPathError Unit
  | [] => .ok ()
  | path :: paths => do
      validatePortableRelativePath path
      let key := collisionKey nfc toLowercase path
      match seen.lookup key with
      | some first => .error (.collision first path)
      | none => preflightFrom ((key, path) :: seen) paths

def preflightDestinationPaths (paths : List Bytes) : Except WindowsPathError Unit :=
  preflightFrom nfc toLowercase [] paths

/-! ## What is compared -/

theorem lookup_eq_none_iff_not_mem {seen : List (List Char × Bytes)} {key : List Char} :
    seen.lookup key = none ↔ key ∉ seen.map (·.1) := by
  rw [List.lookup_eq_none_iff, List.mem_map]
  constructor
  · rintro h ⟨entry, hentry, rfl⟩
    exact bne_iff_ne.mp (h entry hentry) rfl
  · intro h entry hentry
    exact bne_iff_ne.mpr fun heq => h ⟨entry, hentry, heq.symm⟩

theorem preflightFrom_ok_iff {paths : List Bytes} : ∀ {seen : List (List Char × Bytes)},
    preflightFrom nfc toLowercase seen paths = .ok () ↔
      (∀ path ∈ paths, validatePortableRelativePath path = .ok ()) ∧
      (∀ path ∈ paths, collisionKey nfc toLowercase path ∉ seen.map (·.1)) ∧
      (paths.map (collisionKey nfc toLowercase)).Nodup := by
  induction paths with
  | nil => simp [preflightFrom]
  | cons path paths ih =>
      intro seen
      rw [preflightFrom, List.forall_mem_cons, List.forall_mem_cons, List.map_cons,
        List.nodup_cons, ← lookup_eq_none_iff_not_mem]
      cases hvalid : validatePortableRelativePath path with
      | error e => exact iff_of_false (by rintro ⟨⟩) (by rintro ⟨⟨⟨⟩, -⟩, -⟩)
      | ok u =>
          dsimp only [bind, Except.bind]
          cases hseen : seen.lookup (collisionKey nfc toLowercase path) with
          | some first => exact iff_of_false (by rintro ⟨⟩) (by rintro ⟨-, ⟨⟨⟩, -⟩, -⟩)
          | none =>
              dsimp only
              rw [ih, List.map_cons]
              simp only [List.mem_cons, not_or]
              constructor
              · rintro ⟨hpaths, hkeys, hnodup⟩
                refine ⟨⟨trivial, hpaths⟩, ⟨trivial, fun p hp => (hkeys p hp).2⟩, ?_, hnodup⟩
                intro hmem
                obtain ⟨p, hp, heq⟩ := List.mem_map.mp hmem
                exact (hkeys p hp).1 heq
              · rintro ⟨⟨-, hpaths⟩, ⟨-, hkeys⟩, hfirst, hnodup⟩
                refine ⟨hpaths, fun p hp => ⟨fun heq => ?_, hkeys p hp⟩, hnodup⟩
                exact hfirst (heq ▸ List.mem_map_of_mem hp)

/-- What gets through is portable and has pairwise different keys. -/
theorem preflightDestinationPaths_ok_iff {paths : List Bytes} :
    preflightDestinationPaths nfc toLowercase paths = .ok () ↔
      (∀ path ∈ paths, validatePortableRelativePath path = .ok ()) ∧
      (paths.map (collisionKey nfc toLowercase)).Nodup := by
  unfold preflightDestinationPaths
  rw [preflightFrom_ok_iff]
  simp

/-! ## What is needed -/

/-- A path with the directories above it, each as its components. -/
def neededFor (path : Bytes) : List (List Component) := (components path).inits.tail

def neededPaths (paths : List Bytes) : List (List Component) := paths.flatMap neededFor

/-- The directories that have to be created and are not in the list. -/
def unlistedDirectories (paths : List Bytes) : List (List Component) :=
  (neededPaths paths).filter fun dir => !(paths.map components).contains dir

theorem mem_unlistedDirectories {paths : List Bytes} {dir : List Component} :
    dir ∈ unlistedDirectories paths ↔ dir ∈ neededPaths paths ∧ dir ∉ paths.map components := by
  unfold unlistedDirectories
  rw [List.mem_filter, Bool.not_eq_true', ← Bool.not_eq_true, List.contains_iff_mem]

/-- No two names that are needed fall together where case and normal form do not count. -/
def NoClash (needed : List (List Component)) : Prop :=
  ∀ a ∈ needed, ∀ b ∈ needed, componentsKey nfc toLowercase a = componentsKey nfc toLowercase b →
    a = b

/-- **Which clashes the preflight finds.** What it lets through is free of clashes exactly where
the list is refused, for a path that is not portable or for two paths with one key, or no directory
that is needed and not listed has the key of another path that is needed. -/
theorem preflight_finds_clashes_iff (paths : List Bytes) :
    (preflightDestinationPaths nfc toLowercase paths = .ok () →
      NoClash nfc toLowercase (neededPaths paths)) ↔
    (∃ path ∈ paths, validatePortableRelativePath path ≠ .ok ()) ∨
    ¬ (paths.map (collisionKey nfc toLowercase)).Nodup ∨
    ∀ dir ∈ unlistedDirectories paths, ∀ other ∈ neededPaths paths,
      componentsKey nfc toLowercase dir = componentsKey nfc toLowercase other → dir = other := by
  rw [preflightDestinationPaths_ok_iff]
  constructor
  · intro hfinds
    by_cases hvalid : ∀ path ∈ paths, validatePortableRelativePath path = .ok ()
    · by_cases hnodup : (paths.map (collisionKey nfc toLowercase)).Nodup
      · refine Or.inr (Or.inr fun dir hdir other hother => ?_)
        exact hfinds ⟨hvalid, hnodup⟩ dir (mem_unlistedDirectories.mp hdir).1 other hother
      · exact Or.inr (Or.inl hnodup)
    · push Not at hvalid
      exact Or.inl hvalid
  · rintro hwhen ⟨hvalid, hnodup⟩ a ha b hb hkey
    have hunlisted : ∀ dir ∈ unlistedDirectories paths, ∀ other ∈ neededPaths paths,
        componentsKey nfc toLowercase dir = componentsKey nfc toLowercase other → dir = other := by
      rcases hwhen with ⟨path, hpath, hinvalid⟩ | hdup | hunlisted
      · exact absurd (hvalid path hpath) hinvalid
      · exact absurd hnodup hdup
      · exact hunlisted
    by_cases hlista : a ∈ paths.map components
    · by_cases hlistb : b ∈ paths.map components
      · -- two listed paths have two keys
        obtain ⟨p, hp, rfl⟩ := List.mem_map.mp hlista
        obtain ⟨q, hq, rfl⟩ := List.mem_map.mp hlistb
        rw [List.inj_on_of_nodup_map hnodup hp hq hkey]
      · have hmem : b ∈ unlistedDirectories paths := mem_unlistedDirectories.mpr ⟨hb, hlistb⟩
        exact (hunlisted b hmem a ha hkey.symm).symm
    · have hmem : a ∈ unlistedDirectories paths := mem_unlistedDirectories.mpr ⟨ha, hlista⟩
      exact hunlisted a hmem b hb hkey

end Preflight

/-- `A/x` and `a/y` get through, and the directories `A` and `a` fall together. -/
theorem preflight_misses_directories :
    preflightDestinationPaths id (fun c => [c.toLower]) [[0x41, 0x2f, 0x78], [0x61, 0x2f, 0x79]] =
      .ok () ∧
    ¬ NoClash id (fun c => [c.toLower])
      (neededPaths [[0x41, 0x2f, 0x78], [0x61, 0x2f, 0x79]]) := by
  refine ⟨by decide, fun h => ?_⟩
  have heq := h [.normal [0x41]] (by decide) [.normal [0x61]] (by decide) (by decide)
  cases heq

end RsyncWin
