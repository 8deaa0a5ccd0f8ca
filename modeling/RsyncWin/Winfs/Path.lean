import RsyncWin.Protocol.Flist

/-!
# Portable destination paths (`rsync-winfs/src/path.rs`)

The check that stands between a file list and the destination. It is written
apart from the check of the file-list readers and cuts the path differently:
by the components the file system sees, not by the slashes of the text.
-/

namespace RsyncWin

open ByteString

inductive WindowsPathError where
  | notPortable (path : Bytes)
  | emptyComponent
  | invalidCharacter (component : List Char) (character : Char)
  | reservedName (component : List Char)
  | trailingSpaceOrDot (component : List Char)
  | collision (first second : Bytes)
deriving DecidableEq, Repr

def isInvalidWindowsCharacter (character : Char) : Bool :=
  ['<', '>', ':', '"', '/', '\\', '|', '?', '*'].contains character

/-- Word for word the test of the file-list readers. -/
def isReservedName (component : List Char) : Bool := isReservedWindowsName component

def validatePortableComponent (component : Bytes) : Except WindowsPathError Unit :=
  let component := decodeLossy component.length component
  if component = [] then .error .emptyComponent
  else
    match component.find? fun character =>
        isInvalidWindowsCharacter character || isControl character with
    | some character => .error (.invalidCharacter component character)
    | none =>
        if component.getLast? = some ' ' ∨ component.getLast? = some '.' then
          .error (.trailingSpaceOrDot component)
        else if isReservedName component then .error (.reservedName component)
        else .ok ()

def validateComponents (path : Bytes) : List Component → Except WindowsPathError Unit
  | [] => .ok ()
  | .normal name :: rest =>
      match validatePortableComponent name with
      | .error e => .error e
      | .ok () => validateComponents path rest
  | _ :: _ => .error (.notPortable path)

def validatePortableRelativePath (path : Bytes) : Except WindowsPathError Unit :=
  if path = [] then .error (.notPortable path) else validateComponents path (components path)

/-! ## What both checks are for -/

/-- A name that is the same file name everywhere: decoded, `chars`. -/
structure PortableName (chars : List Char) : Prop where
  ne_nil : chars ≠ []
  ne_dot : chars ≠ ['.']
  ne_dotdot : chars ≠ ['.', '.']
  no_backslash : '\\' ∉ chars
  no_control : ∀ ch ∈ chars, isControl ch = false
  no_forbidden : ∀ ch ∈ chars, ch ∉ ['<', '>', ':', '"', '/', '|', '?', '*']
  no_trailing : chars.getLast? ≠ some ' ' ∧ chars.getLast? ≠ some '.'
  not_reserved : isReservedWindowsName chars = false

/-- A path below wherever it is put. -/
def PortablePath (path : Bytes) : Prop :=
  ∀ part ∈ path.splitOn slash, ∃ chars, utf8Chars part = some chars ∧ PortableName chars

theorem PortableName.validName {part : Bytes} {chars : List Char}
    (h : PortableName chars) (hpart : utf8Chars part = some chars) (hslash : slash ∉ part) :
    ValidName part where
  ne_nil := by
    rintro rfl
    exact h.ne_nil (by simpa [utf8Chars, decodeStrict] using hpart.symm)
  no_slash := hslash
  ne_dot := by
    rintro rfl
    exact h.ne_dot (Option.some.inj (hpart.symm.trans rfl))
  ne_dotdot := by
    rintro rfl
    exact h.ne_dotdot (Option.some.inj (hpart.symm.trans rfl))

theorem PortablePath.validNames {path : Bytes} (h : PortablePath path) :
    ∀ part ∈ path.splitOn slash, ValidName part := by
  intro part hpart
  obtain ⟨chars, hchars, hname⟩ := h part hpart
  exact hname.validName hchars (mem_splitOn hpart).1

theorem joinNames_splitOn (path : Bytes) : joinNames (path.splitOn slash) = path :=
  List.intercalate_splitOn slash

theorem PortablePath.components_eq {path : Bytes} (h : PortablePath path) :
    components path = (path.splitOn slash).map .normal := by
  have hjoin := components_joinNames (List.splitOn_ne_nil slash path) h.validNames
  rwa [joinNames_splitOn] at hjoin

theorem validatePortableComponent_ok {part : Bytes} {chars : List Char}
    (hpart : utf8Chars part = some chars) (h : PortableName chars) :
    validatePortableComponent part = .ok () := by
  have hchars : decodeLossy part.length part = chars := decodeLossy_of_decodeStrict hpart
  have hfind : chars.find? (fun character =>
      isInvalidWindowsCharacter character || isControl character) = none := by
    rw [List.find?_eq_none]
    intro ch hch
    have hforbidden := h.no_forbidden ch hch
    have hback : ch ≠ '\\' := fun heq => h.no_backslash (heq ▸ hch)
    have hcontrol := h.no_control ch hch
    simp only [List.mem_cons, List.not_mem_nil, or_false, not_or] at hforbidden
    simp [isInvalidWindowsCharacter, hcontrol, hback, hforbidden]
  unfold validatePortableComponent isReservedName
  simp only [hchars, hfind, if_neg h.ne_nil, h.not_reserved]
  rw [if_neg (not_or.mpr h.no_trailing), if_neg (by simp)]

theorem validateComponents_ok (path : Bytes) : ∀ {parts : List Bytes},
    (∀ part ∈ parts, validatePortableComponent part = .ok ()) →
      validateComponents path (parts.map .normal) = .ok ()
  | [], _ => rfl
  | part :: parts, h => by
      rw [List.map_cons, validateComponents, h part List.mem_cons_self]
      exact validateComponents_ok path fun p hp => h p (List.mem_cons_of_mem part hp)

/-- The two checks agree on what the readers let through. -/
theorem PortablePath.validate {path : Bytes} (h : PortablePath path) :
    validatePortableRelativePath path = .ok () := by
  have hne : path ≠ [] := by
    rintro rfl
    obtain ⟨chars, hchars, hname⟩ := h [] (by rw [List.splitOn_nil]; exact List.mem_singleton.mpr rfl)
    exact hname.ne_nil (by simpa [utf8Chars, decodeStrict] using hchars.symm)
  unfold validatePortableRelativePath
  rw [if_neg hne, h.components_eq]
  refine validateComponents_ok path fun part hpart => ?_
  obtain ⟨chars, hchars, hname⟩ := h part hpart
  exact validatePortableComponent_ok hchars hname

/-- Joined to any root, a portable path only adds names to it. -/
theorem PortablePath.components_pathJoin {path : Bytes} (h : PortablePath path) (root : Bytes) :
    components (pathJoin root path) = components root ++ (path.splitOn slash).map .normal := by
  unfold pathJoin
  by_cases hroot : root = []
  · rw [if_pos hroot, h.components_eq, hroot]
    rfl
  · have hbody : (path.splitOn slash).filterMap namedComponent =
        (path.splitOn slash).map .normal := by
      rw [← List.filterMap_eq_map']
      apply List.filterMap_congr
      intro part hpart
      have hv := h.validNames part hpart
      simp [namedComponent, hv.ne_nil, hv.ne_dot, hv.ne_dotdot]
    have hsplit : (root ++ [slash] ++ path).splitOn slash =
        root.splitOn slash ++ path.splitOn slash := by
      rw [List.append_assoc]
      exact List.splitOn_append_cons_self root path
    have hfirst : (root ++ [slash] ++ path).head? = root.head? := by
      rw [List.append_assoc, List.head?_append_of_ne_nil _ hroot]
    have hpart : (root.splitOn slash ++ path.splitOn slash).head? = (root.splitOn slash).head? :=
      List.head?_append_of_ne_nil _ (List.splitOn_ne_nil slash root)
    rw [if_neg hroot]
    unfold components
    simp only [hsplit, List.filterMap_append, hbody, hfirst, hpart]
    by_cases h1 : root.head? = some slash
    · rw [if_pos h1, if_pos h1, List.cons_append]
    · rw [if_neg h1, if_neg h1]
      by_cases h2 : (root.splitOn slash).head? = some [dot]
      · rw [if_pos h2, if_pos h2, List.cons_append]
      · rw [if_neg h2, if_neg h2]

end RsyncWin
