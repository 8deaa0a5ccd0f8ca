import RsyncWin.Protocol.Flist27
import RsyncWin.Winfs.Path

/-!
# What the file-list readers let through

All three readers, on any bytes. A reader of this module runs out of bytes,
refuses, or returns a list that fits its limits and whose paths stay below
wherever they are put; it never indexes out of range. A path may be assembled
from a prefix of the one before, so the check is of the whole path: what
`wire_path_from_bytes` accepts is portable (`wirePathFromBytes_ok`), whatever
the bytes came from.
-/

namespace RsyncWin

open ByteString Codec

/-! ## Readers that never panic -/

def NoPanic (e : Error) : Prop := ∀ message, e ≠ .panic message

def Quiet {α : Type} (r : Reader α) : Prop := ∀ left, Yields NoPanic r (fun _ _ => True) left

section Quiet

variable {α β : Type}

theorem noPanic_io (kind : ErrorKind) (message : String) : NoPanic (.io kind message) :=
  fun _ h => by cases h

theorem noPanic_fileList (e : FileListError) : NoPanic (.fileList e) :=
  fun _ h => by cases h

theorem quiet_ret (a : α) : Quiet (.ret a) := fun _ => trivial

theorem quiet_io (kind : ErrorKind) (message : String) :
    Quiet (.fail (.io kind message) : Reader α) := fun _ => noPanic_io kind message

theorem quiet_fileList (e : FileListError) : Quiet (.fail (.fileList e) : Reader α) :=
  fun _ => noPanic_fileList e

theorem quiet_readExact (n : Nat) : Quiet (readExact n : Reader Bytes) :=
  fun _ => yields_readExact fun _ _ _ => trivial

theorem Quiet.bind {p : Reader α} {k : α → Reader β} (hp : Quiet p) (hk : ∀ a, Quiet (k a)) :
    Quiet (p >>= k) :=
  fun left => ((hp left).mono fun a l _ _ => hk a l).bind

theorem quiet_ite {c : Prop} [Decidable c] {p q : Reader α} (hp : Quiet p) (hq : Quiet q) :
    Quiet (if c then p else q) := by
  split
  · exact hp
  · exact hq

theorem quiet_readTimes {r : Reader α} (h : Quiet r) : ∀ n, Quiet (readTimes r n)
  | 0 => quiet_ret []
  | n + 1 => h.bind fun a => (quiet_readTimes h n).bind fun as => quiet_ret (a :: as)

theorem quiet_readU8 : Quiet readU8 := (quiet_readExact 1).bind fun _ => quiet_ret _

theorem quiet_readI32Le : Quiet readI32Le := (quiet_readExact 4).bind fun _ => quiet_ret _

theorem quiet_readU32Le : Quiet readU32Le := (quiet_readExact 4).bind fun _ => quiet_ret _

theorem quiet_readI64Le : Quiet readI64Le := (quiet_readExact 8).bind fun _ => quiet_ret _

/-- A number takes at least one byte. -/
theorem yields_readVarint_lt (left : Nat) :
    Yields NoPanic readVarint (fun _ l => l < left) left := by
  have hfirst : Yields NoPanic readU8 (fun _ l => l < left) left := by
    refine (yields_readExact fun bs _ hle => ?_).bind
    exact Nat.sub_lt hle Nat.one_pos
  refine (hfirst.mono fun first l _ hl => ?_).bind
  have hrest := quiet_ite (c := varintExtraBytes first > 4)
    (quiet_io .invalidData "rsync varint exceeds u32 width")
    (quiet_ite (c := varintExtraBytes first = 0) (quiet_ret first.toNat)
      ((quiet_readExact (varintExtraBytes first)).bind fun bytes =>
        quiet_ret (leNat ((bytes ++ [first &&& (bitU8 (8 - varintExtraBytes first) - 1)]).take 4))))
  exact (hrest l).mono fun _ l' hle _ => Nat.lt_of_le_of_lt hle hl

theorem quiet_readVarint : Quiet readVarint :=
  fun left => (yields_readVarint_lt left).mono fun _ _ _ _ => trivial

theorem quiet_readVarlong (minBytes : Nat) : Quiet (readVarlong minBytes) := by
  refine quiet_ite (quiet_io _ _) ?_
  refine (quiet_readExact _).bind fun pref => ?_
  refine quiet_ite (quiet_io _ _) (quiet_ite (quiet_ret _) ?_)
  exact (quiet_readExact _).bind fun _ => quiet_ret _

end Quiet

/-! ## Fields -/

theorem quiet_repeated {α : Type} (last : Option α) (field : String) :
    Quiet (repeated last field) := by
  cases last with
  | some value => exact quiet_ret value
  | none => exact quiet_io _ _

theorem quiet_fileTypeFromMode (mode : Nat) :
    Quiet (Prog.ofExcept (fileTypeFromMode mode) : Reader WireFileType) := by
  unfold fileTypeFromMode
  split
  · exact quiet_ret _
  · split
    · exact quiet_ret _
    · split
      · exact quiet_ret _
      · exact quiet_fileList _

theorem quiet_readNameBytes : Quiet readNameBytes :=
  quiet_readU8.bind fun _ => quiet_readExact _

theorem quiet_readIgnoredName : Quiet readIgnoredName :=
  quiet_readNameBytes.bind fun _ => quiet_ret ()

theorem quiet_readName : Quiet readName := by
  refine quiet_readNameBytes.bind fun bytes => ?_
  cases Str.fromUtf8 bytes with
  | some name => exact quiet_ret name
  | none => exact quiet_fileList _

theorem quiet_readTime (message : String) : Quiet (readTime message) :=
  (quiet_readVarlong 4).bind fun _ => quiet_ite (quiet_io _ _) (quiet_ret _)

theorem quiet_readMtime (st : FlistReadState) (flags : Nat) : Quiet (readMtime st flags) :=
  quiet_ite (quiet_repeated _ _) (quiet_readTime _)

theorem quiet_readMtimeNsec (flags : Nat) : Quiet (readMtimeNsec flags) :=
  quiet_ite (quiet_readVarint.bind fun _ => quiet_ret ()) (quiet_ret ())

theorem quiet_readMode (st : FlistReadState) (flags : Nat) : Quiet (readMode st flags) :=
  quiet_ite (quiet_repeated _ _) (quiet_readI32Le.bind fun _ => quiet_ret _)

theorem quiet_readCrtime (options : RsyncFileListOptions) (flags : Nat) (mtime : Int) :
    Quiet (readCrtime options flags mtime) :=
  quiet_ite (quiet_ite (quiet_ret _) ((quiet_readTime _).bind fun _ => quiet_ret _)) (quiet_ret _)

theorem quiet_readAtime (options : RsyncFileListOptions) (st : FlistReadState) (flags : Nat)
    (fileType : WireFileType) : Quiet (readAtime options st flags fileType) :=
  quiet_ite
    (quiet_ite ((quiet_repeated _ _).bind fun _ => quiet_ret _)
      ((quiet_readTime _).bind fun _ => quiet_ret _))
    (quiet_ret _)

theorem quiet_readId (preserve : Bool) (flags same follows : Nat) (lastId : Option Nat)
    (lastName : Option Str) : Quiet (readId preserve flags same follows lastId lastName) := by
  refine quiet_ite (quiet_ite (quiet_ret _) ?_) (quiet_ite ?_ (quiet_ret _))
  · refine quiet_readVarint.bind fun id => quiet_ite ?_ (quiet_ret _)
    exact quiet_readName.bind fun _ => quiet_ret _
  · refine quiet_readVarint.bind fun id => quiet_ite ?_ (quiet_ret _)
    exact quiet_readIgnoredName.bind fun _ => quiet_ret _

theorem quiet_readFileChecksum (options : RsyncFileListOptions) (fileType : WireFileType) :
    Quiet (readFileChecksum options fileType) :=
  quiet_ite ((quiet_readExact 16).bind fun _ => quiet_ret _) (quiet_ret _)

theorem quiet_readEmptyAclPayload : Quiet readEmptyAclPayload := by
  refine quiet_readVarint.bind fun ndx => quiet_ite (quiet_io _ _) ?_
  exact quiet_readU8.bind fun flags => quiet_ite (quiet_io _ _) (quiet_ret _)

theorem quiet_readXattrName (nameLen : Nat) : Quiet (readXattrName nameLen) := by
  refine quiet_ite (quiet_fileList _) ((quiet_readExact _).bind fun nameBytes => ?_)
  refine quiet_ite (quiet_fileList _) ?_
  cases Str.fromUtf8 nameBytes.dropLast with
  | some name => exact quiet_ret name
  | none => exact quiet_fileList _

theorem quiet_readXattr : Quiet readXattr := by
  refine quiet_readVarint.bind fun nameLen => quiet_readVarint.bind fun valueLen => ?_
  exact (quiet_readXattrName nameLen).bind fun _ => (quiet_readExact _).bind fun _ => quiet_ret _

theorem quiet_readXattrPayload : Quiet readXattrPayload := by
  refine quiet_readVarint.bind fun ndx => quiet_ite (quiet_io _ _) ?_
  exact quiet_readVarint.bind fun count => quiet_readTimes quiet_readXattr count

theorem quiet_readRsync31MetadataPayloads (fileType : WireFileType)
    (options : RsyncFileListOptions) : Quiet (readRsync31MetadataPayloads fileType options) := by
  have hacl : Quiet (readAclPayload fileType options) :=
    quiet_ite
      (quiet_readEmptyAclPayload.bind fun _ => quiet_ite quiet_readEmptyAclPayload (quiet_ret ()))
      (quiet_ret ())
  exact hacl.bind fun _ => quiet_ite quiet_readXattrPayload (quiet_ret _)

theorem quiet_readFlistEnd : Quiet readFlistEnd :=
  quiet_readVarint.bind fun _ => quiet_ite (quiet_io _ _) (quiet_ret ())

/-! ## Paths -/

theorem validWireComponent_portable {component : List Char}
    (h : validWireComponent component = true) (hback : '\\' ∉ component)
    (hslash : '/' ∉ component) : PortableName component := by
  simp only [validWireComponent, Bool.and_eq_true, Bool.not_eq_true', Bool.or_eq_false_iff,
    decide_eq_false_iff_not, List.any_eq_false, Bool.or_eq_true, not_or, Bool.not_eq_true] at h
  obtain ⟨⟨⟨⟨⟨hnil, hdot⟩, hdotdot⟩, hspace, hend⟩, hchars⟩, hreserved⟩ := h
  refine ⟨hnil, hdot, hdotdot, hback, fun ch hch => (hchars ch hch).1, ?_, ⟨hspace, hend⟩,
    hreserved⟩
  intro ch hch hmem
  have hnot := (hchars ch hch).2
  have hne : ch ≠ '/' := fun heq => hslash (heq ▸ hch)
  simp only [List.mem_cons, List.not_mem_nil, or_false] at hmem
  simp at hnot
  tauto

theorem portablePath_of_chars {path : Str}
    (h : (path.chars.splitOn '/').all validWireComponent = true) (hback : '\\' ∉ path.chars) :
    PortablePath path.bytes := by
  have hparts := utf8Chars_splitOn (Nat.le_refl _) (Option.some_get path.valid).symm
  intro part hpart
  have hmem : utf8Chars part ∈ (path.chars.splitOn '/').map some := by
    rw [Str.chars, ← hparts]
    exact List.mem_map_of_mem hpart
  obtain ⟨component, hcomponent, hdecode⟩ := List.mem_map.mp hmem
  obtain ⟨hslash, hsub⟩ := mem_splitOn hcomponent
  refine ⟨component, hdecode.symm, ?_⟩
  exact validWireComponent_portable (List.all_eq_true.mp h component hcomponent)
    (fun hb => hback (hsub hb)) hslash

theorem validateWirePath_cases (path : Str) :
    (validateWirePath path = .ok () ∧
      (path.bytes = [dot] ∨ (path.chars.splitOn '/').all validWireComponent = true)) ∨
      validateWirePath path = .error (.fileList (.unsafePath path.bytes)) := by
  unfold validateWirePath
  split
  · rename_i hdot
    exact Or.inl ⟨rfl, Or.inl hdot⟩
  · split
    · exact Or.inr rfl
    · split
      · rename_i hall
        exact Or.inl ⟨rfl, Or.inr hall⟩
      · exact Or.inr rfl

/-- What the readers make of the bytes of a path: a refusal that is no panic, or
the bytes themselves. -/
theorem wirePathFromBytes_cases (pathBytes : Bytes) :
    (wirePathFromBytes pathBytes = .ok pathBytes ∧
      (pathBytes = [dot] ∨ PortablePath pathBytes)) ∨
      ∃ e, wirePathFromBytes pathBytes = .error (.fileList e) := by
  unfold wirePathFromBytes
  cases hstr : Str.fromUtf8 pathBytes with
  | none => exact Or.inr ⟨_, rfl⟩
  | some path =>
      have hbytes : path.bytes = pathBytes := by
        unfold Str.fromUtf8 at hstr
        split at hstr
        · rw [← Option.some.inj hstr]
        · cases hstr
      dsimp only
      split
      · exact Or.inr ⟨_, rfl⟩
      · rename_i hback
        rcases validateWirePath_cases path with ⟨hok, hdot | hall⟩ | herr
        · rw [hok]
          exact Or.inl ⟨rfl, Or.inl (hbytes ▸ hdot)⟩
        · rw [hok]
          exact Or.inl ⟨rfl, Or.inr (hbytes ▸ portablePath_of_chars hall hback)⟩
        · rw [herr]
          exact Or.inr ⟨_, rfl⟩

/-- A path that is short enough, portable, and stays below any destination. -/
structure SafePath (maxPathLen : Nat) (path : Bytes) : Prop where
  short : path.length ≤ maxPathLen
  shape : path = [dot] ∨ PortablePath path
  accepted : path ≠ [dot] → validatePortableRelativePath path = .ok ()
  contained : path ≠ [dot] → ∀ dest, ∃ names, names ≠ [] ∧
    components (pathJoin dest path) = components dest ++ names.map .normal

theorem yields_wirePath {maxPathLen : Nat} {pathBytes : Bytes} {left : Nat}
    (hlen : pathBytes.length ≤ maxPathLen) :
    Yields NoPanic (Prog.ofExcept (wirePathFromBytes pathBytes) : Reader Bytes)
      (fun path _ => SafePath maxPathLen path) left := by
  rcases wirePathFromBytes_cases pathBytes with ⟨hok, hshape⟩ | ⟨e, herr⟩
  · rw [hok]
    refine ⟨hlen, hshape, fun hne => ?_, fun hne dest => ?_⟩
    · exact (hshape.resolve_left hne).validate
    · exact ⟨pathBytes.splitOn slash, List.splitOn_ne_nil slash pathBytes,
        (hshape.resolve_left hne).components_pathJoin dest⟩
  · rw [herr]
    exact noPanic_fileList e

/-- The slice is in range and the path within its limit. -/
theorem yields_readPathRest {maxPathLen inherited suffixLen left : Nat} {lastPath : Bytes}
    (hle : inherited ≤ lastPath.length) :
    Yields NoPanic (readPathRest maxPathLen lastPath inherited suffixLen)
      (fun pathBytes _ => pathBytes.length ≤ maxPathLen) left := by
  unfold readPathRest sliceTo
  rw [if_pos hle]
  dsimp only
  split
  · exact noPanic_io _ _
  · rename_i htotal
    refine (yields_readExact fun rest hrest _ => ?_).bind
    show (lastPath.take inherited ++ rest).length ≤ maxPathLen
    rw [List.length_append, List.length_take_of_le hle]
    omega

/-- The checked length of an inherited prefix is one of the last path. -/
theorem yields_inherited {p : Reader Nat} (hp : Quiet p) (lastPath : Bytes) (left : Nat) :
    Yields NoPanic
      (p >>= fun inherited =>
        if inherited > lastPath.length then
          throw (.io .invalidData "file list inherited name prefix exceeds previous path")
        else pure inherited)
      (fun inherited _ => inherited ≤ lastPath.length) left := by
  refine ((hp left).mono fun inherited l _ _ => ?_).bind
  split
  · exact noPanic_io _ _
  · exact Nat.le_of_not_lt ‹_›

theorem quiet_readByteLen : Quiet (do
    let byte ← readU8
    pure byte.toNat) :=
  quiet_readU8.bind fun _ => quiet_ret _

theorem yields_readPathBytes (maxPathLen : Nat) (lastPath : Bytes) (flags left : Nat) :
    Yields NoPanic (readPathBytes maxPathLen lastPath flags)
      (fun pathBytes _ => pathBytes.length ≤ maxPathLen) left := by
  have hlen : Quiet (readInheritedLen flags) := quiet_ite quiet_readByteLen (quiet_ret 0)
  have hsuffix : Quiet (readSuffixLen flags) := quiet_ite quiet_readVarint quiet_readByteLen
  refine ((yields_inherited hlen lastPath left).mono fun inherited l _ hle => ?_).bind
  refine ((hsuffix l).mono fun suffixLen l' _ _ => ?_).bind
  exact yields_readPathRest hle

/-! ## Lists -/

/-- The group of an entry read after `earlier`: its own index, or what the entry
it refers to stands for, whose other fields it then has. -/
def LinkedIn (earlier : List RsyncFileListEntry) (e : RsyncFileListEntry) : Prop :=
  ∀ group, e.hardlinkGroup = some group →
    group = ⟨0, earlier.length⟩ ∨
      ∃ (j : Nat) (first : RsyncFileListEntry), earlier[j]? = some first ∧
        group = first.hardlinkGroup.getD ⟨0, j⟩ ∧ e.fileType = first.fileType ∧
        e.len = first.len ∧ e.mtimeUnix = first.mtimeUnix ∧ e.mode = first.mode ∧
        e.checksum = first.checksum

structure SafeList (maxEntries maxPathLen : Nat) (entries : List RsyncFileListEntry) : Prop where
  count : entries.length ≤ maxEntries
  paths : ∀ e ∈ entries, SafePath maxPathLen e.path
  links : ∀ (i : Nat) (e : RsyncFileListEntry), entries[i]? = some e → LinkedIn (entries.take i) e

theorem safeList_nil (maxEntries maxPathLen : Nat) : SafeList maxEntries maxPathLen [] where
  count := Nat.zero_le _
  paths := by simp
  links := by simp

theorem SafeList.concat {maxEntries maxPathLen room : Nat} {entries : List RsyncFileListEntry}
    {e : RsyncFileListEntry} (h : SafeList maxEntries maxPathLen entries)
    (hroom : entries.length + (room + 1) = maxEntries) (hpath : SafePath maxPathLen e.path)
    (hlink : LinkedIn entries e) : SafeList maxEntries maxPathLen (entries ++ [e]) where
  count := by
    rw [List.length_append, List.length_singleton]
    omega
  paths := by
    intro f hf
    rcases List.mem_append.mp hf with hf | hf
    · exact h.paths f hf
    · rw [List.mem_singleton.mp hf]
      exact hpath
  links := by
    intro i f hf
    rcases Nat.lt_trichotomy i entries.length with hlt | rfl | hgt
    · rw [List.getElem?_append_left hlt] at hf
      rw [List.take_append_of_le_length (Nat.le_of_lt hlt)]
      exact h.links i f hf
    · rw [List.getElem?_concat_length] at hf
      rw [List.take_left, ← Option.some.inj hf]
      exact hlink
    · rw [List.getElem?_eq_none (by simp; omega)] at hf
      cases hf

theorem yields_readFields (options : RsyncFileListOptions) (st : FlistReadState)
    (flags index left : Nat) :
    Yields NoPanic (readFields options st flags index)
      (fun fields _ => ∀ group, fields.hardlinkGroup = some group → group = ⟨0, index⟩) left := by
  refine ((quiet_readVarlong 3 left).mono fun len _ _ _ => ?_).bind
  refine ((quiet_readMtime st flags _).mono fun mtime _ _ _ => ?_).bind
  refine ((quiet_readMtimeNsec flags _).mono fun _ _ _ _ => ?_).bind
  refine ((quiet_readMode st flags _).mono fun mode _ _ _ => ?_).bind
  refine ((quiet_readCrtime options flags mtime _).mono fun crtime _ _ _ => ?_).bind
  refine ((quiet_fileTypeFromMode mode _).mono fun fileType _ _ _ => ?_).bind
  refine ((quiet_readAtime options st flags fileType _).mono fun atime _ _ _ => ?_).bind
  refine ((quiet_readId _ _ _ _ _ _ _).mono fun user _ _ _ => ?_).bind
  refine ((quiet_readId _ _ _ _ _ _ _).mono fun group _ _ _ => ?_).bind
  refine ((quiet_readFileChecksum options fileType _).mono fun checksum _ _ _ => ?_).bind
  intro g hg
  dsimp only at hg
  split at hg
  · exact (Option.some.inj hg).symm
  · cases hg

/-- A back reference is answered from an entry that is there. -/
theorem yields_readReference (entries : List RsyncFileListEntry) (left : Nat) :
    Yields NoPanic (readReference entries)
      (fun fields _ => ∃ (j : Nat) (first : RsyncFileListEntry), entries[j]? = some first ∧
        fields = ⟨first.fileType, first.len, first.mtimeUnix, first.mode, first.checksum,
          some (first.hardlinkGroup.getD ⟨0, j⟩), first.metadata⟩) left := by
  refine ((quiet_readVarint left).mono fun firstIndex _ _ _ => ?_).bind
  split
  · exact noPanic_io _ _
  · rename_i hlt
    have hget : entries[firstIndex]? = some entries[firstIndex] :=
      List.getElem?_eq_getElem (Nat.lt_of_not_ge hlt)
    rw [hget]
    exact ⟨firstIndex, _, hget, rfl⟩

theorem yields_readEntry (options : RsyncFileListOptions) (maxPathLen : Nat)
    (entries : List RsyncFileListEntry) (st : FlistReadState) (flags left : Nat) :
    Yields NoPanic (readEntry options maxPathLen entries st flags)
      (fun r _ => SafePath maxPathLen r.1.path ∧ LinkedIn entries r.1) left := by
  refine ((yields_readPathBytes maxPathLen st.lastPath flags left).mono
    fun pathBytes _ _ hlen => ?_).bind
  refine ((yields_wirePath hlen).mono fun path _ _ hpath => ?_).bind
  unfold readBody
  split
  · refine ((yields_readReference entries _).mono fun fields _ _ hfields => ?_).bind
    refine ((quiet_readRsync31MetadataPayloads _ options _).mono fun xattrs _ _ _ => ?_).bind
    obtain ⟨j, first, hget, rfl⟩ := hfields
    refine ⟨hpath, fun group hgroup => Or.inr ⟨j, first, hget, ?_, rfl, rfl, rfl, rfl, rfl⟩⟩
    exact (Option.some.inj hgroup).symm
  · refine ((yields_readFields options st flags entries.length _).mono
      fun fields _ _ hfields => ?_).bind
    refine ((quiet_readRsync31MetadataPayloads _ options _).mono fun xattrs _ _ _ => ?_).bind
    exact ⟨hpath, fun group hgroup => Or.inl (hfields group hgroup)⟩

theorem yields_readEntries (options : RsyncFileListOptions) (maxEntries maxPathLen : Nat) :
    ∀ (room : Nat) {entries : List RsyncFileListEntry} (st : FlistReadState) (left : Nat),
      SafeList maxEntries maxPathLen entries → entries.length + room = maxEntries →
        Yields NoPanic (readEntries options maxEntries maxPathLen room entries st)
          (fun entries _ => SafeList maxEntries maxPathLen entries) left := by
  intro room
  induction room with
  | zero =>
      intro entries st left hsafe _
      unfold readEntries
      refine ((quiet_readVarint left).mono fun flags _ _ _ => ?_).bind
      split
      · exact ((quiet_readFlistEnd _).mono fun _ _ _ _ => hsafe).bind
      · exact noPanic_io _ _
  | succ room ih =>
      intro entries st left hsafe hroom
      unfold readEntries
      refine ((quiet_readVarint left).mono fun flags _ _ _ => ?_).bind
      split
      · exact ((quiet_readFlistEnd _).mono fun _ _ _ _ => hsafe).bind
      · refine ((yields_readEntry options maxPathLen entries st flags _).mono
          fun r _ _ hr => ?_).bind
        refine ih _ _ (hsafe.concat hroom hr.1 hr.2) ?_
        rw [List.length_append, List.length_singleton]
        omega

/-- The id list ends within the bytes there are, whatever they are. -/
theorem yields_readIdListTerminator : ∀ {fuel left : Nat}, left < fuel →
    Yields NoPanic (readIdListTerminator fuel) (fun _ _ => True) left
  | fuel + 1, left, h => by
      unfold readIdListTerminator
      refine ((yields_readVarint_lt left).mono fun id l _ hl => ?_).bind
      split
      · exact quiet_readIgnoredName l
      · refine ((quiet_readIgnoredName l).mono fun _ l' hle _ => ?_).bind
        exact yields_readIdListTerminator (by omega)

theorem yields_readIdList {fuel left : Nat} (options : RsyncFileListOptions) (preserve : Bool)
    (h : left < fuel) :
    Yields NoPanic (readIdList fuel options preserve) (fun _ _ => True) left := by
  unfold readIdList
  split
  · exact yields_readIdListTerminator h
  · trivial

theorem yields_readRsync31 {fuel left : Nat} (maxEntries maxPathLen : Nat)
    (options : RsyncFileListOptions) (h : left < fuel) :
    Yields NoPanic (readRsync31FileListWithMetadata fuel maxEntries maxPathLen options)
      (fun entries _ => SafeList maxEntries maxPathLen entries) left := by
  refine ((yields_readEntries options maxEntries maxPathLen maxEntries {} left
    (safeList_nil _ _) (Nat.zero_add _)).mono fun entries l hl hsafe => ?_).bind
  refine ((yields_readIdList options _ (Nat.lt_of_le_of_lt hl h)).mono fun _ l' hl' _ => ?_).bind
  exact ((yields_readIdList options _ (by omega)).mono fun _ _ _ _ => hsafe).bind

theorem yields_readEntry27 (expectChecksums : Bool) (maxPathLen : Nat) (st : Flist27ReadState)
    (status left : Nat) :
    Yields NoPanic (readEntry27 expectChecksums maxPathLen st status)
      (fun r _ => SafePath maxPathLen r.1.path ∧ r.1.hardlinkGroup = none) left := by
  have hlen : Quiet (readInheritedLen27 status) := quiet_ite quiet_readByteLen (quiet_ret 0)
  have hsuffix : Quiet (readSuffixLen27 status) :=
    quiet_ite (quiet_readI32Le.bind fun _ => quiet_ite (quiet_io _ _) (quiet_ret _))
      quiet_readByteLen
  have hlong : Quiet readRsyncLong :=
    quiet_readI32Le.bind fun _ => quiet_ite (quiet_ret _) (quiet_ite (quiet_io _ _)
      (quiet_readI64Le.bind fun _ => quiet_ite (quiet_io _ _) (quiet_ret _)))
  have hmtime : Quiet (readMtime27 st status) := quiet_ite (quiet_repeated _ _) quiet_readI32Le
  have hmode : Quiet (readMode27 st status) :=
    quiet_ite (quiet_repeated _ _) (quiet_readI32Le.bind fun _ => quiet_ret _)
  refine ((yields_inherited hlen st.lastPath left).mono fun inherited _ _ hle => ?_).bind
  refine ((hsuffix _).mono fun suffixLen _ _ _ => ?_).bind
  refine ((yields_readPathRest hle).mono fun pathBytes _ _ hpath => ?_).bind
  refine ((hlong _).mono fun len _ _ _ => ?_).bind
  refine ((hmtime _).mono fun mtime _ _ _ => ?_).bind
  refine ((hmode _).mono fun mode _ _ _ => ?_).bind
  refine ((yields_wirePath hpath).mono fun path _ _ hsafe => ?_).bind
  refine ((quiet_fileTypeFromMode mode _).mono fun fileType _ _ _ => ?_).bind
  exact ((quiet_readFileChecksum _ fileType _).mono fun checksum _ _ _ => ⟨hsafe, rfl⟩).bind

theorem yields_readEntries27 (expectChecksums : Bool) (maxEntries maxPathLen : Nat) :
    ∀ (room : Nat) {entries : List RsyncFileListEntry} (st : Flist27ReadState) (left : Nat),
      SafeList maxEntries maxPathLen entries → entries.length + room = maxEntries →
        Yields NoPanic (readEntries27 expectChecksums maxEntries maxPathLen room entries st)
          (fun entries _ => SafeList maxEntries maxPathLen entries) left := by
  intro room
  induction room with
  | zero =>
      intro entries st left hsafe _
      unfold readEntries27
      refine ((quiet_readU8 left).mono fun status _ _ _ => ?_).bind
      split
      · exact hsafe
      · exact noPanic_io _ _
  | succ room ih =>
      intro entries st left hsafe hroom
      unfold readEntries27
      refine ((quiet_readU8 left).mono fun status _ _ _ => ?_).bind
      split
      · exact hsafe
      · refine ((yields_readEntry27 expectChecksums maxPathLen st _ _).mono
          fun r _ _ hr => ?_).bind
        refine ih _ _ (hsafe.concat hroom hr.1 ?_) ?_
        · intro group hgroup
          rw [hr.2] at hgroup
          cases hgroup
        · rw [List.length_append, List.length_singleton]
          omega

theorem yields_readTimes {α : Type} {r : Reader α} {P : α → Prop}
    (h : ∀ left, Yields NoPanic r (fun a _ => P a) left) : ∀ n left,
      Yields NoPanic (readTimes r n) (fun as _ => as.length = n ∧ ∀ a ∈ as, P a) left
  | 0, _ => ⟨rfl, by simp⟩
  | n + 1, left => by
      refine ((h left).mono fun a l _ ha => ?_).bind
      refine ((yields_readTimes h n l).mono fun as _ _ has => ?_).bind
      refine ⟨by rw [List.length_cons, has.1], ?_⟩
      intro b hb
      rcases List.mem_cons.mp hb with rfl | hb
      · exact ha
      · exact has.2 b hb

theorem yields_readInternalEntry (maxPathLen left : Nat) :
    Yields NoPanic (readInternalEntry maxPathLen) (fun e _ => SafePath maxPathLen e.path) left := by
  have hbytes : Yields NoPanic (readBytesWithU32Len maxPathLen)
      (fun bs _ => bs.length ≤ maxPathLen) left := by
    refine ((quiet_readU32Le left).mono fun len _ _ _ => ?_).bind
    split
    · exact noPanic_io _ _
    · rename_i hle
      refine yields_readExact fun bs hbs _ => ?_
      omega
  have htype : ∀ byte, Quiet (Prog.ofExcept (WireFileType.fromByte byte) : Reader WireFileType) := by
    intro byte
    unfold WireFileType.fromByte
    split
    · exact quiet_ret _
    · split
      · exact quiet_ret _
      · split
        · exact quiet_ret _
        · exact quiet_fileList _
  refine (hbytes.mono fun pathBytes _ _ hlen => ?_).bind
  refine ((yields_wirePath hlen).mono fun path _ _ hpath => ?_).bind
  refine ((quiet_readU8 _).mono fun byte _ _ _ => ?_).bind
  refine ((htype byte _).mono fun fileType _ _ _ => ?_).bind
  refine ((quiet_readI64Le _).mono fun len _ _ _ => ?_).bind
  split
  · exact noPanic_io _ _
  · exact ((quiet_readI64Le _).mono fun mtime _ _ _ => hpath).bind

theorem yields_readInternalFileList (maxEntries maxPathLen left : Nat) :
    Yields NoPanic (readInternalFileList maxEntries maxPathLen)
      (fun entries _ => entries.length ≤ maxEntries ∧ ∀ e ∈ entries, SafePath maxPathLen e.path)
      left := by
  refine ((quiet_readU32Le left).mono fun count l _ _ => ?_).bind
  split
  · exact noPanic_io _ _
  · rename_i hle
    refine (yields_readTimes (yields_readInternalEntry maxPathLen) count l).mono
      fun entries _ _ h => ⟨?_, h.2⟩
    omega

/-- How a reader ends on the bytes `inp`: they run out (an `UnexpectedEof` of the
source), it refuses them, or it returns what satisfies `P`. It does not panic. -/
def Settles {α : Type} (r : Reader α) (inp : Bytes) (P : α → Prop) : Prop :=
  (∃ rest, r.run buffer inp = .wait rest) ∨
    (∃ e rest, r.run buffer inp = .fail e rest ∧ NoPanic e) ∨
    ∃ a rest, r.run buffer inp = .ret a rest ∧ P a

/-- **Only contained paths.** On every byte string each of the three readers
refuses or returns a list within its limits, every path of which is `.` or a
portable path that the destination's own check accepts and that stays below
any directory it is joined to; every hard-link reference is to an earlier
entry. -/
theorem file_lists_contained (inp : Bytes) (maxEntries maxPathLen : Nat) :
    Settles (readInternalFileList maxEntries maxPathLen) inp (fun entries =>
        entries.length ≤ maxEntries ∧ ∀ e ∈ entries, SafePath maxPathLen e.path) ∧
      (∀ expectChecksums,
        Settles (readRsync27FileListWithOptions maxEntries maxPathLen expectChecksums) inp
          (SafeList maxEntries maxPathLen)) ∧
      ∀ fuel options, inp.length < fuel →
        Settles (readRsync31FileListWithMetadata fuel maxEntries maxPathLen options) inp
          (SafeList maxEntries maxPathLen) := by
  refine ⟨(yields_readInternalFileList maxEntries maxPathLen inp.length).run, ?_, ?_⟩
  · intro expectChecksums
    exact (yields_readEntries27 expectChecksums maxEntries maxPathLen maxEntries {} inp.length
      (safeList_nil _ _) (Nat.zero_add _)).run
  · intro fuel options hfuel
    exact (yields_readRsync31 maxEntries maxPathLen options hfuel).run

/-- Two files, `a` and, by a prefix of one byte, `a/b`. -/
def inheritedList : Bytes :=
  [0x18, 0x01, 0x61, 0, 0, 0, 0, 0, 0, 0, 0xa4, 0x81, 0, 0,
    0x80, 0xba, 0x01, 0x02, 0x2f, 0x62, 0, 0, 0, 0, 0]

theorem file_lists_contained_inherited :
    inheritedList.length < 26 ∧
      Settles (readRsync31FileListWithMetadata 26 2 3 {}) inheritedList (SafeList 2 3) :=
  ⟨by decide, (file_lists_contained inheritedList 2 3).2.2 26 {} (by decide)⟩

example : (match (readRsync31FileListWithMetadata 26 2 3 {}).run buffer inheritedList with
    | .ret entries rest => some (entries.map (·.path), rest)
    | _ => none) = some ([[0x61], [0x61, 0x2f, 0x62]], []) := by decide

end RsyncWin
