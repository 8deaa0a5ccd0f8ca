import RsyncWin.Lib.Path
import RsyncWin.Protocol.Exchange

/-!
# The local side of a transfer (`transfer/fs_ops.rs`, `rsync-fs/src/walk.rs`)

What a session does besides talking to its peer: it reads and writes files and
looks at the clock. A `Machine` is the file system together with everything the
environment decides: which operations fail and how far a failing write gets,
how many bytes a read returns, what the clock says. Properties that hold for
every machine hold for every such environment.

Two spellings of one path are one file, so files are kept by path components.
An error of an operation is the bare I/O error; the context strings the source
wraps around it are left out.
-/

namespace RsyncWin

open ByteString Codec Duplex

abbrev LocalPath := List Component

/-- `root.join(path)`: an absolute path replaces the root, `.` adds nothing. -/
def LocalPath.join (root : LocalPath) (path : Bytes) : LocalPath :=
  let parts := components path
  if parts.head? = some .rootDir then parts else root ++ parts.filter (· ≠ .curDir)

def LocalPath.parent (path : LocalPath) : LocalPath := path.dropLast

def LocalPath.fileName (path : LocalPath) : Option Bytes :=
  match path.getLast? with
  | some (.normal name) => some name
  | _ => none

/-- An open file: the bytes not read yet, and how many bytes beyond the first
the next reads return at most. -/
structure FileReader where
  rest : Bytes
  cuts : List Nat
deriving DecidableEq

/-- `read(&mut buf)` with a buffer of `n` bytes. -/
def FileReader.read (r : FileReader) (n : Nat) : Bytes × FileReader :=
  let len := match r.cuts with
    | [] => n
    | cut :: _ => min n (cut + 1)
  (r.rest.take len, ⟨r.rest.drop len, r.cuts.tail⟩)

inductive FileWriteMode where
  | atomic
  | inPlace
deriving DecidableEq, Repr

/-- What a session records for its observer. -/
inductive Event where
  | readIndex (index : Int)
  | wroteIndex (index : Int)
deriving DecidableEq, Repr

inductive LocalOp where
  | now
  | createDirAll (path : LocalPath)
  | create (path : LocalPath)
  | append (path : LocalPath) (bytes : Bytes)
  | syncAll (path : LocalPath)
  | openFile (path : LocalPath)
  | readAt (path : LocalPath) (offset len : Nat)
  | fileLen (path : LocalPath)
  | removeFile (path : LocalPath)
  | copyFile (source dest : LocalPath) (mode : FileWriteMode)
  | appendFileFrom (path source : LocalPath) (offset : Nat)
  | filePrefixMatches (path pre : LocalPath)
  | setMtime (path : LocalPath) (time : Int)
  | note (event : Event)
deriving DecidableEq

/-- `fileLen` is `metadata` as the callers use it: the length of a regular file,
`none` for anything else. -/
abbrev LocalRes : LocalOp → Type
  | .now => Nat
  | .openFile _ => FileReader
  | .readAt _ _ _ => Bytes
  | .fileLen _ => Option Nat
  | .filePrefixMatches _ _ => Bool
  | .createDirAll _ => Unit
  | .create _ => Unit
  | .append _ _ => Unit
  | .syncAll _ => Unit
  | .removeFile _ => Unit
  | .copyFile _ _ _ => Unit
  | .appendFileFrom _ _ _ => Unit
  | .setMtime _ _ => Unit
  | .note _ => Unit

abbrev localSig : Sig := ⟨LocalOp, fun o => Except Error (LocalRes o)⟩

abbrev Session (α : Type) := Party Error localSig α

/-- An operation followed by `?`. -/
def perform (o : LocalOp) : Session (LocalRes o) :=
  loc (L := localSig) o >>= fun r => Prog.ofExcept r

/-! ## Machines -/

structure Machine where
  files : LocalPath → Option Bytes
  /-- Where no file can be put: a directory, a missing right. -/
  refuses : LocalPath → Bool := fun _ => false
  /-- For each operation to come, whether it fails and after how many bytes. -/
  faults : List (Option Nat) := []
  clock : List Nat := []
  cuts : List Nat := []
  log : List Event := []

def Machine.put (m : Machine) (path : LocalPath) (content : Option Bytes) : Machine :=
  { m with files := fun p => if p = path then content else m.files p }

def notFound : Error := .io .notFound "entity not found"
def refused : Error := .io .other "access is denied"
def deviceFault : Error := .io .other "device fault"
def shortFile : Error := .io .unexpectedEof "failed to fill whole buffer"

/-- What an operation does when the environment lets it. -/
def Machine.serve (m : Machine) : (o : LocalOp) → Except Error (LocalRes o) × Machine
  | .now => (.ok (m.clock.headD 0), { m with clock := m.clock.tail })
  | .createDirAll _ => (.ok (), m)
  | .create path =>
      if m.refuses path then (.error refused, m) else (.ok (), m.put path (some []))
  | .append path bytes =>
      match m.files path with
      | some content => (.ok (), m.put path (some (content ++ bytes)))
      | none => (.error notFound, m)
  | .syncAll _ => (.ok (), m)
  | .openFile path =>
      match m.files path with
      | some content => (.ok ⟨content, m.cuts⟩, m)
      | none => (.error notFound, m)
  | .readAt path offset len =>
      match m.files path with
      | some content =>
          if offset + len ≤ content.length then (.ok ((content.drop offset).take len), m)
          else (.error shortFile, m)
      | none => (.error notFound, m)
  | .fileLen path => (.ok ((m.files path).map (·.length)), m)
  | .removeFile path =>
      match m.files path with
      | some _ => (.ok (), m.put path none)
      | none => (.error notFound, m)
  | .copyFile source dest _ =>
      match m.files source with
      | some content =>
          if m.refuses dest then (.error refused, m) else (.ok (), m.put dest (some content))
      | none => (.error notFound, m)
  | .appendFileFrom path source offset =>
      match m.files source with
      | some content =>
          if m.refuses path then (.error refused, m)
          else (.ok (), m.put path (some ((m.files path).getD [] ++ content.drop offset)))
      | none => (.error notFound, m)
  | .filePrefixMatches path pre =>
      match m.files path, m.files pre with
      | some content, some start => (.ok (decide (start <+: content)), m)
      | _, _ => (.error notFound, m)
  | .setMtime path _ =>
      match m.files path with
      | some _ => (.ok (), m)
      | none => (.error notFound, m)
  | .note event => (.ok (), { m with log := m.log ++ [event] })

/-- What is left behind by an operation that fails after `done` bytes. -/
def Machine.spoil (m : Machine) (done : Nat) : LocalOp → Machine
  | .append path bytes =>
      match m.files path with
      | some content => m.put path (some (content ++ bytes.take done))
      | none => m
  | .copyFile source dest .inPlace =>
      match m.files source with
      | some content => m.put dest (some (content.take done))
      | none => m
  | .appendFileFrom path source offset =>
      match m.files source with
      | some content =>
          m.put path (some ((m.files path).getD [] ++ (content.drop offset).take done))
      | none => m
  | _ => m

def LocalOp.canFail : LocalOp → Bool
  | .now => false
  | .note _ => false
  | _ => true

def machine : Handler localSig Machine := fun (o : LocalOp) m =>
  if o.canFail then
    match m.faults with
    | some done :: faults => some (.error deviceFault, { m with faults }.spoil done o)
    | none :: faults => some ({ m with faults }.serve o)
    | [] => some (m.serve o)
  else some (m.serve o)

theorem machine_of_calm {o : LocalOp} {m : Machine} (h : m.faults = []) :
    machine o m = some (m.serve o) := by
  unfold machine
  rw [h]
  split <;> rfl

@[simp] theorem Machine.put_files (m : Machine) (path : LocalPath) (content : Option Bytes)
    (p : LocalPath) : (m.put path content).files p = if p = path then content else m.files p := rfl

@[simp] theorem Machine.put_put (m : Machine) (path : LocalPath) (x y : Option Bytes) :
    (m.put path x).put path y = m.put path y := by
  unfold put
  congr 1
  funext p
  by_cases h : p = path <;> simp [h]

@[simp] theorem Machine.put_faults (m : Machine) (path : LocalPath) (content : Option Bytes) :
    (m.put path content).faults = m.faults := rfl

/-- The file an operation may change. -/
def LocalOp.writes : LocalOp → Option LocalPath
  | .create path => some path
  | .append path _ => some path
  | .removeFile path => some path
  | .copyFile _ dest _ => some dest
  | .appendFileFrom path _ _ => some path
  | _ => none

theorem Machine.serve_frame (m : Machine) {o : LocalOp} {p : LocalPath} (h : o.writes ≠ some p) :
    (m.serve o).2.files p = m.files p := by
  have hput : ∀ {path : LocalPath} (content : Option Bytes), path ≠ p →
      (m.put path content).files p = m.files p := by
    intro path content hne
    simp [Ne.symm hne]
  cases o <;> simp only [LocalOp.writes, ne_eq, Option.some.injEq] at h <;> unfold serve <;>
    dsimp only <;> repeat' split
  all_goals first
    | rfl
    | exact hput _ h

theorem Machine.spoil_frame (m : Machine) {done : Nat} {o : LocalOp} {p : LocalPath}
    (h : o.writes ≠ some p) : (m.spoil done o).files p = m.files p := by
  have hput : ∀ {path : LocalPath} (content : Option Bytes), path ≠ p →
      (m.put path content).files p = m.files p := by
    intro path content hne
    simp [Ne.symm hne]
  unfold spoil
  split <;> (try split) <;> simp only [LocalOp.writes, ne_eq, Option.some.injEq] at h
  all_goals first
    | rfl
    | exact hput _ h

/-- What the environment makes of an operation: it is served, or it fails. -/
theorem machine_cases {o : LocalOp} {m m' : Machine} {r : Except Error (LocalRes o)}
    (h : machine o m = some (r, m')) :
    (∃ faults, { m with faults }.serve o = (r, m')) ∨
      ∃ faults done, r = .error deviceFault ∧ m' = { m with faults }.spoil done o := by
  unfold machine at h
  split at h
  · split at h
    · obtain ⟨rfl, rfl⟩ := Prod.mk.inj (Option.some.inj h)
      exact Or.inr ⟨_, _, rfl, rfl⟩
    · exact Or.inl ⟨_, Option.some.inj h⟩
    · exact Or.inl ⟨m.faults, Option.some.inj h⟩
  · exact Or.inl ⟨m.faults, Option.some.inj h⟩

/-- An operation changes no file but the one it writes. -/
theorem machine_frame {o : LocalOp} {m m' : Machine} {r : Except Error (LocalRes o)}
    {p : LocalPath} (h : machine o m = some (r, m')) (hp : o.writes ≠ some p) :
    m'.files p = m.files p := by
  rcases machine_cases h with ⟨faults, hs⟩ | ⟨faults, done, -, rfl⟩
  · have hframe := Machine.serve_frame { m with faults } hp
    rw [hs] at hframe
    exact hframe
  · exact Machine.spoil_frame { m with faults } hp

theorem machine_create {path : LocalPath} {m m' : Machine} {r : Except Error Unit}
    (h : machine (.create path) m = some (r, m')) :
    m'.files path = some [] ∨ ((∀ a, r ≠ .ok a) ∧ m'.files path = m.files path) := by
  rcases machine_cases h with ⟨faults, hs⟩ | ⟨faults, done, rfl, rfl⟩
  · unfold Machine.serve at hs
    dsimp only at hs
    split at hs
    · obtain ⟨rfl, rfl⟩ := Prod.mk.inj hs
      exact Or.inr ⟨by simp, rfl⟩
    · obtain ⟨rfl, rfl⟩ := Prod.mk.inj hs
      exact Or.inl (by simp)
  · exact Or.inr ⟨by simp, rfl⟩

/-- A write appends its bytes, or some of them when it fails. -/
theorem machine_append {path : LocalPath} {bytes content : Bytes} {m m' : Machine}
    {r : Except Error Unit} (hfile : m.files path = some content)
    (h : machine (.append path bytes) m = some (r, m')) :
    ∃ done, done <+: bytes ∧ m'.files path = some (content ++ done) ∧
      ∀ a, r = .ok a → done = bytes := by
  rcases machine_cases h with ⟨faults, hs⟩ | ⟨faults, k, rfl, rfl⟩
  · unfold Machine.serve at hs
    dsimp only at hs
    rw [hfile] at hs
    obtain ⟨rfl, rfl⟩ := Prod.mk.inj hs
    exact ⟨bytes, List.prefix_rfl, by simp, fun _ _ => rfl⟩
  · refine ⟨bytes.take k, List.take_prefix _ _, ?_, by simp⟩
    unfold Machine.spoil
    dsimp only
    rw [hfile]
    simp

theorem machine_openFile {path : LocalPath} {m m' : Machine} {file : FileReader}
    (h : machine (.openFile path) m = some (.ok file, m')) : m.files path = some file.rest := by
  rcases machine_cases h with ⟨faults, hs⟩ | ⟨faults, k, hr, -⟩
  · unfold Machine.serve at hs
    dsimp only at hs
    split at hs
    · rename_i content hcontent
      rw [hcontent]
      obtain ⟨hok, -⟩ := Prod.mk.inj hs
      rw [← Except.ok.inj hok]
    · cases (Prod.mk.inj hs).1
  · cases hr

theorem machine_readAt {path : LocalPath} {offset len : Nat} {m m' : Machine} {bytes : Bytes}
    (h : machine (.readAt path offset len) m = some (.ok bytes, m')) : bytes.length = len := by
  rcases machine_cases h with ⟨faults, hs⟩ | ⟨faults, k, hr, -⟩
  · unfold Machine.serve at hs
    dsimp only at hs
    split at hs
    · split at hs
      · rename_i content _ hfits
        obtain ⟨hok, -⟩ := Prod.mk.inj hs
        rw [← Except.ok.inj hok, List.length_take, List.length_drop]
        omega
      · cases (Prod.mk.inj hs).1
    · cases (Prod.mk.inj hs).1
  · cases hr

theorem exchange_perform {o : LocalOp} {m m' : Machine} {r : LocalRes o}
    (hcalm : m.faults = []) (h : m.serve o = (.ok r, m')) :
    Exchange machine (perform o) m [] [] r m' := by
  have hloc : machine o m = some (.ok r, m') := by rw [machine_of_calm hcalm, h]
  exact (exchange_loc (L := localSig) hloc).bind_ret rfl

/-! ## Readers of a file -/

@[simp] theorem FileReader.read_fst_append (r : FileReader) (n : Nat) :
    (r.read n).1 ++ (r.read n).2.rest = r.rest := by
  simp [read]

theorem FileReader.read_eq_nil {r : FileReader} {n : Nat} (hn : 0 < n) :
    (r.read n).1 = [] ↔ r.rest = [] := by
  unfold read
  cases hcuts : r.cuts with
  | nil => simp; omega
  | cons cut cuts => simp; omega

theorem FileReader.read_length_le (r : FileReader) (n : Nat) : (r.read n).1.length ≤ n := by
  unfold read
  cases hcuts : r.cuts with
  | nil => simp
  | cons cut cuts => simp

/-- A read finds the end of the file, or it takes at least one byte off the front. -/
theorem FileReader.read_cases (r : FileReader) {n : Nat} (hn : 0 < n) :
    (∃ r', r.read n = ([], r') ∧ r.rest = [] ∧ r'.rest = []) ∨
    ∃ chunk r', r.read n = (chunk, r') ∧ chunk ≠ [] ∧ chunk ++ r'.rest = r.rest ∧
      0 < chunk.length ∧ chunk.length ≤ n ∧ chunk.length + r'.rest.length = r.rest.length := by
  have hsplit := r.read_fst_append n
  have hnil := @FileReader.read_eq_nil r n hn
  have hle := r.read_length_le n
  generalize r.read n = read at hsplit hnil hle ⊢
  obtain ⟨chunk, r'⟩ := read
  dsimp only at hsplit hnil hle ⊢
  by_cases hchunk : chunk = []
  · have hrest := hnil.mp hchunk
    rw [hchunk, hrest] at hsplit
    exact Or.inl ⟨r', by rw [hchunk], hrest, hsplit⟩
  · have hlen := congrArg List.length hsplit
    rw [List.length_append] at hlen
    exact Or.inr ⟨chunk, r', rfl, hchunk, hsplit, List.length_pos_iff.mpr hchunk, hle, hlen⟩

end RsyncWin
