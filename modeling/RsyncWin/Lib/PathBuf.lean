import RsyncWin.Lib.Path

/-!
# Paths as lists of components

What `std::path` does with a path, it does with its components: two paths are
equal, ordered, joined and compared component by component. A path is that list
here. A `Key` is a path of names only, which is what a file system files its
nodes under.
-/

namespace ByteString

abbrev PathBuf := List Component

abbrev Key := List Bytes

/-- The path of a key. -/
def Key.path (key : Key) : PathBuf := key.map .normal

namespace PathBuf

/-- `join`: an absolute path replaces the base, a `.` inside does not count. -/
def join (base path : PathBuf) : PathBuf :=
  if path.head? = some .rootDir then path
  else if base = [] then path
  else base ++ path.filter (· ≠ .curDir)

def isAbsolute (path : PathBuf) : Bool := path.head? = some .rootDir

def startsWith (path base : PathBuf) : Bool := base.isPrefixOf path

def parent (path : PathBuf) : Option PathBuf :=
  match path.getLast? with
  | none => none
  | some .rootDir => none
  | some _ => some path.dropLast

def fileName (path : PathBuf) : Option Bytes :=
  match path.getLast? with
  | some (.normal name) => some name
  | _ => none

def withFileName (path : PathBuf) (name : Bytes) : PathBuf :=
  let base := if (fileName path).isSome then path.dropLast else path
  join base (components name)

/-- The names of a path that has only names and `.` components. -/
def names : PathBuf → Option Key
  | [] => some []
  | .curDir :: rest => names rest
  | .normal name :: rest => (names rest).map (name :: ·)
  | .parentDir :: _ => none
  | .rootDir :: _ => none

end PathBuf

open PathBuf

@[simp] theorem Key.path_nil : Key.path [] = [] := rfl

@[simp] theorem Key.path_append (left right : Key) :
    Key.path (left ++ right) = left.path ++ right.path :=
  List.map_append

theorem Key.path_inj {left right : Key} (h : left.path = right.path) : left = right :=
  List.map_injective_iff.mpr (fun _ _ h => Component.normal.inj h) h

theorem names_append (left right : PathBuf) :
    names (left ++ right) = (names left).bind fun l => (names right).map (l ++ ·) := by
  induction left with
  | nil => simp [names]
  | cons c rest ih =>
      cases c with
      | rootDir => rfl
      | parentDir => rfl
      | curDir => exact ih
      | normal name =>
          simp only [List.cons_append, names, ih]
          cases names rest with
          | none => rfl
          | some l => cases names right <;> rfl

@[simp] theorem names_key (key : Key) : names key.path = some key := by
  induction key with
  | nil => rfl
  | cons name rest ih =>
      show (names (Key.path rest)).map (name :: ·) = _
      rw [ih]
      rfl

theorem names_filter (path : PathBuf) : names (path.filter (· ≠ .curDir)) = names path := by
  induction path with
  | nil => rfl
  | cons c rest ih =>
      cases c with
      | rootDir => rfl
      | parentDir => rfl
      | curDir => exact ih
      | normal name =>
          rw [List.filter_cons_of_pos (by simp), names, ih]
          rfl

/-- Joining names to a path of names. -/
theorem names_join {base path : PathBuf} {b p : Key} (hb : names base = some b)
    (hp : names path = some p) : names (join base path) = some (b ++ p) := by
  have hroot : path.head? ≠ some .rootDir := by
    intro h
    cases path with
    | nil => cases h
    | cons c rest =>
        rw [List.head?_cons, Option.some.injEq] at h
        subst h
        cases hp
  unfold join
  rw [if_neg hroot]
  by_cases hbase : base = []
  · subst hbase
    obtain rfl : [] = b := Option.some.inj hb
    rw [if_pos rfl, hp, List.nil_append]
  · rw [if_neg hbase, names_append, names_filter, hb, hp]
    rfl

theorem names_join_key {base : PathBuf} {b : Key} (hb : names base = some b) (key : Key) :
    names (join base key.path) = some (b ++ key) :=
  names_join hb (names_key key)

theorem parent_key_concat (key : Key) (name : Bytes) :
    parent (Key.path (key ++ [name])) = some key.path := by
  simp [parent, Key.path]

theorem fileName_key_concat (key : Key) (name : Bytes) :
    fileName (Key.path (key ++ [name])) = some name := by
  simp [fileName, Key.path]

theorem names_append_eq_some {left right : PathBuf} {key : Key}
    (h : names (left ++ right) = some key) :
    ∃ l r, names left = some l ∧ names right = some r ∧ key = l ++ r := by
  rw [names_append] at h
  obtain ⟨l, hl, h⟩ := Option.bind_eq_some_iff.mp h
  obtain ⟨r, hr, rfl⟩ := Option.map_eq_some_iff.mp h
  exact ⟨l, r, hl, hr, rfl⟩

/-- A joined path of names goes on where its base ends. -/
theorem names_join_eq_some {base path : PathBuf} {key : Key}
    (h : names (join base path) = some key) : ∃ b, names base = some b ∧ b <+: key := by
  unfold join at h
  split at h
  · rename_i hroot
    cases path with
    | nil => cases hroot
    | cons c rest =>
        rw [List.head?_cons, Option.some.injEq] at hroot
        subst hroot
        cases h
  · split at h
    · rename_i hbase
      exact ⟨[], by rw [hbase]; rfl, List.nil_prefix⟩
    · obtain ⟨b, p, hb, -, rfl⟩ := names_append_eq_some h
      exact ⟨b, hb, List.prefix_append b p⟩

/-- Joining names is appending them. -/
theorem join_key (base : PathBuf) (key : Key) : join base key.path = base ++ key.path := by
  have hroot : (Key.path key).head? ≠ some .rootDir := by
    cases key with
    | nil => simp [Key.path]
    | cons name rest => simp [Key.path]
  have hfilter : (Key.path key).filter (· ≠ .curDir) = key.path := by
    rw [List.filter_eq_self]
    intro c hc
    obtain ⟨name, -, rfl⟩ := List.mem_map.mp hc
    simp
  unfold join
  rw [if_neg hroot]
  split
  · rename_i hbase
    rw [hbase, List.nil_append]
  · rw [hfilter]

/-! ## Paths below a key -/

/-- A path that, if it is made of names, leads below `base`. -/
def Below (base : Key) (path : PathBuf) : Prop := ∀ key, names path = some key → base <+: key

section Below

variable {base : Key} {path : PathBuf}

theorem below_of_names {key : Key} (hkey : names path = some key) (h : base <+: key) :
    Below base path := by
  intro key' hkey'
  obtain rfl : key = key' := Option.some.inj (hkey.symm.trans hkey')
  exact h

theorem below_of_absolute (h : isAbsolute path = true) : Below base path := by
  intro key hkey
  cases path with
  | nil => simp [isAbsolute] at h
  | cons c rest =>
      simp only [isAbsolute, List.head?_cons, Option.some.injEq, decide_eq_true_eq] at h
      subst h
      cases hkey

theorem Below.append (h : Below base path) (rest : PathBuf) : Below base (path ++ rest) := by
  intro key hkey
  obtain ⟨l, r, hl, -, rfl⟩ := names_append_eq_some hkey
  exact (h l hl).trans (List.prefix_append l r)

theorem Below.join (h : Below base path) (rest : PathBuf) : Below base (join path rest) := by
  intro key hkey
  obtain ⟨b, hb, hpre⟩ := names_join_eq_some hkey
  exact (h b hb).trans hpre

theorem Below.withFileName {name : Bytes} (h : Below base path) (newName : Bytes) :
    Below base (withFileName (path ++ [.normal name]) newName) := by
  have hname : fileName (path ++ [Component.normal name]) = some name := by simp [fileName]
  unfold PathBuf.withFileName
  simp only [hname, Option.isSome_some, if_true, List.dropLast_concat]
  exact h.join _

end Below

end ByteString
