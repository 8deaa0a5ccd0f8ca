import RsyncWin.Protocol.Flist
import RsyncWin.Protocol.IoCodec
import Mathlib.Data.Nat.Bitwise

/-!
# The protocol-31 file list: what comes back

Writer and reader each remember the last entry and leave out what repeats. The
two memories need not agree: an alias of a hard-linked file is remembered with
its own fields by the writer and with those of the first file by the reader.
`readBack` is the list the reader ends up with, computed from both memories;
every list of sendable entries, in any batches, is read back as that
(`roundTrips_readBack`). What `readBack` is for lists of a given kind is the
subject of the modules that follow.
-/

namespace RsyncWin

open ByteString Codec

/-! ## Flags -/

theorem hasFlag_eq_testBit (flags i : Nat) : hasFlag flags (2 ^ i) = flags.testBit i := by
  unfold hasFlag
  rw [Nat.and_two_pow]
  cases flags.testBit i <;> simp

theorem testBit_flagIf (cond : Bool) (i j : Nat) :
    (flagIf cond (2 ^ i)).testBit j = (cond && decide (i = j)) := by
  cases cond with
  | false => simp [flagIf]
  | true => simp [flagIf, Nat.testBit_two_pow]

namespace Rsync31FileListWriter

variable (w : Rsync31FileListWriter) (entry : RsyncFileListEntry)

/-- Every flag of the word, read back. -/
structure FlagsOf (flags : Nat) : Prop where
  ne_zero : flags ≠ 0
  le_max : flags ≤ i32Max
  hlinked : hasFlag flags xmit31Hlinked = (groupOf entry).isSome
  hlinkFirst : hasFlag flags xmit31HlinkFirst =
    ((groupOf entry).isSome && (w.hardlinkReference entry).isNone)
  sameMode : hasFlag flags xmit31SameMode = decide (w.lastMode = some entry.mode)
  sameTime : hasFlag flags xmit31SameTime = decide (w.lastMtime = some entry.mtimeUnix)
  modNsec : hasFlag flags xmit31ModNsec = true
  sameUid : hasFlag flags xmit31SameUid = w.sameUid entry
  userName : hasFlag flags xmit31UserNameFollows =
    (!w.sameUid entry && !w.options.numericIds && entry.metadata.userName.isSome)
  sameGid : hasFlag flags xmit31SameGid = w.sameGid entry
  groupName : hasFlag flags xmit31GroupNameFollows =
    (!w.sameGid entry && !w.options.numericIds && entry.metadata.groupName.isSome)
  sameAtime : hasFlag flags xmit31SameAtime = (w.options.atimes &&
    decide (entry.fileType ≠ .directory) && decide (w.lastAtime = some (atimeOf entry)))
  crtimeEqMtime : hasFlag flags xmit31CrtimeEqMtime =
    (w.options.crtimes && decide (crtimeOf entry = entry.mtimeUnix))
  sameName : hasFlag flags xmit31SameName = decide (w.inheritedLen entry > 0)
  longName : hasFlag flags xmit31LongName = decide ((w.suffix entry).length > 255)

theorem flagIf_lt (cond : Bool) {i : Nat} (h : i < 18) : flagIf cond (2 ^ i) < 2 ^ 18 := by
  cases cond with
  | false => simp [flagIf]
  | true => simpa [flagIf] using Nat.pow_lt_pow_right (by norm_num) h

theorem testBit_setFlags_modNsec : (w.setFlags entry).testBit 13 = true := by
  simp only [-Nat.reducePow, setFlags, xmit31ModNsec, Nat.testBit_or, Nat.testBit_two_pow_self,
    Bool.or_true, Bool.true_or]

/-- The flag word is never 0, so it is never taken for the end of the list. -/
theorem setFlags_ne_zero : w.setFlags entry ≠ 0 := by
  intro h
  have hbit := w.testBit_setFlags_modNsec entry
  rw [h, Nat.zero_testBit] at hbit
  exact absurd hbit (by decide)

theorem setFlags_lt : w.setFlags entry < 2 ^ 18 := by
  unfold setFlags
  repeat' apply Nat.or_lt_two_pow
  all_goals first | exact flagIf_lt _ (by decide) | decide

theorem flagsOf_entryFlags : FlagsOf w entry (w.entryFlags entry) := by
  rw [entryFlags, if_neg (w.setFlags_ne_zero entry)]
  constructor
  · exact w.setFlags_ne_zero entry
  · have h := w.setFlags_lt entry
    unfold i32Max
    omega
  all_goals
    simp only [-Nat.reducePow, setFlags, xmit31TopDir, xmit31SameMode, xmit31SameUid,
      xmit31SameGid, xmit31SameName, xmit31LongName, xmit31SameTime, xmit31Hlinked,
      xmit31UserNameFollows, xmit31GroupNameFollows, xmit31HlinkFirst, xmit31ModNsec,
      xmit31SameAtime, xmit31CrtimeEqMtime, hasFlag_eq_testBit, Nat.testBit_or, testBit_flagIf,
      Nat.testBit_two_pow]
    simp

end Rsync31FileListWriter

/-! ## Entries a list may hold -/

/-- The wire form of the path passes the receiver's own check. -/
def WirePath (path : Bytes) : Prop :=
  ∃ p : Str, p.bytes = wirePathBytes path ∧ validateWirePath p = .ok ()

def TimeInRange (t : Int) : Prop := 0 ≤ t ∧ t < 2 ^ 56

structure WireXattr (x : RsyncXattrPayload) : Prop where
  name_ne : x.name.bytes ≠ []
  name_nul : 0 ∉ x.name.bytes
  name_len : x.name.bytes.length < i32Max
  value_len : x.value.length ≤ maxInlineXattrValue

/-- What an entry has to satisfy to be sent. -/
structure WireEntry (options : RsyncFileListOptions) (e : RsyncFileListEntry) : Prop where
  path : WirePath e.path
  path_len : (wirePathBytes e.path).length ≤ i32Max
  len : e.len < 2 ^ 56
  mtime : TimeInRange e.mtimeUnix
  mode : e.mode < 2 ^ 32
  fileType : fileTypeFromMode e.mode = .ok e.fileType
  checksum : options.includeChecksums = true → e.fileType = .file →
    ∃ c : Bytes, e.checksum = some c ∧ c.length = 16
  uid : ∀ id, e.metadata.uid = some id → id ≤ i32Max
  gid : ∀ id, e.metadata.gid = some id → id ≤ i32Max
  userName : e.metadata.userName = none
  groupName : e.metadata.groupName = none
  atime : ∀ t, e.metadata.atimeUnix = some t → TimeInRange t
  crtime : ∀ t, e.metadata.crtimeUnix = some t → TimeInRange t
  xattrs_len : e.metadata.xattrs.length ≤ i32Max
  xattrs : ∀ x ∈ e.metadata.xattrs, WireXattr x

/-- As `WireEntry`, with names that fit their length byte. -/
structure Sendable (options : RsyncFileListOptions) (e : RsyncFileListEntry) : Prop where
  path : WirePath e.path
  path_len : (wirePathBytes e.path).length ≤ i32Max
  len : e.len < 2 ^ 56
  mtime : TimeInRange e.mtimeUnix
  mode : e.mode < 2 ^ 32
  fileType : fileTypeFromMode e.mode = .ok e.fileType
  checksum : options.includeChecksums = true → e.fileType = .file →
    ∃ c : Bytes, e.checksum = some c ∧ c.length = 16
  uid : ∀ id, e.metadata.uid = some id → id ≤ i32Max
  gid : ∀ id, e.metadata.gid = some id → id ≤ i32Max
  userName : ∀ name, e.metadata.userName = some name → name.bytes.length ≤ 255
  groupName : ∀ name, e.metadata.groupName = some name → name.bytes.length ≤ 255
  atime : ∀ t, e.metadata.atimeUnix = some t → TimeInRange t
  crtime : ∀ t, e.metadata.crtimeUnix = some t → TimeInRange t
  xattrs_len : e.metadata.xattrs.length ≤ i32Max
  xattrs : ∀ x ∈ e.metadata.xattrs, WireXattr x

theorem WireEntry.sendable {options : RsyncFileListOptions} {e : RsyncFileListEntry}
    (h : WireEntry options e) : Sendable options e :=
  { h with
    userName := by simp [h.userName]
    groupName := by simp [h.groupName] }

/-! ## Paths -/

theorem commonPrefix_spec : ∀ (k : Nat) (l r : Bytes),
    let n := (((l.zip r).take k).takeWhile fun p => decide (p.1 = p.2)).length
    n ≤ k ∧ n ≤ l.length ∧ l.take n = r.take n
  | 0, l, r => by simp
  | k + 1, [], r => by simp
  | k + 1, a :: l, [] => by simp
  | k + 1, a :: l, b :: r => by
      obtain ⟨hk, hl, htake⟩ := commonPrefix_spec k l r
      by_cases hab : a = b
      · subst hab
        simp only [List.zip_cons_cons, List.take_succ_cons, List.takeWhile_cons, decide_true,
          if_true, List.length_cons]
        exact ⟨by omega, by omega, by rw [htake]⟩
      · simp [hab]

theorem commonPrefixLen_le (l r : Bytes) : commonPrefixLen l r ≤ 255 :=
  (commonPrefix_spec 255 l r).1

theorem commonPrefixLen_le_left (l r : Bytes) : commonPrefixLen l r ≤ l.length :=
  (commonPrefix_spec 255 l r).2.1

theorem take_commonPrefixLen_append (l r : Bytes) :
    l.take (commonPrefixLen l r) ++ r.drop (commonPrefixLen l r) = r := by
  have h : l.take (commonPrefixLen l r) = r.take (commonPrefixLen l r) :=
    (commonPrefix_spec 255 l r).2.2
  rw [h, List.take_append_drop]

theorem toNat_ofNat_le {n : Nat} (h : n ≤ 255) : (UInt8.ofNat n).toNat = n := by
  rw [UInt8.toNat_ofNat']
  omega

/-- The receiver accepts the wire form: it has no backslash left. -/
theorem wirePathFromBytes_wirePathBytes {path : Bytes} (h : WirePath path) :
    wirePathFromBytes (wirePathBytes path) = .ok (wirePathBytes path) := by
  obtain ⟨p, hbytes, hvalid⟩ := h
  have hback : '\\' ∉ p.chars := by
    intro hmem
    have hb := Str.mem_bytes_of_mem_chars (by decide) (by decide) hmem
    rw [hbytes, wirePathBytes, List.mem_map] at hb
    obtain ⟨b, -, hb⟩ := hb
    split at hb
    · exact absurd hb (by decide)
    · rename_i hne
      exact hne hb
  unfold wirePathFromBytes
  rw [← hbytes]
  simp only [Str.fromUtf8_bytes, if_neg hback, hvalid]

section Fields

variable {w : Rsync31FileListWriter} {e : RsyncFileListEntry} {flags : Nat}

open Rsync31FileListWriter

theorem roundTrips_inherited (hf : FlagsOf w e flags) :
    RoundTrips (writeInherited flags (w.inheritedLen e)) ()
      (readInherited w.lastPath flags) (w.inheritedLen e) := by
  have h255 : w.inheritedLen e ≤ 255 := commonPrefixLen_le _ _
  have hle : ¬ w.inheritedLen e > w.lastPath.length := by
    have h := commonPrefixLen_le_left w.lastPath (wirePathBytes e.path)
    exact Nat.not_lt.mpr h
  have hlen : RoundTrips (writeInherited flags (w.inheritedLen e)) ()
      (readInheritedLen flags) (w.inheritedLen e) := by
    unfold writeInherited readInheritedLen
    rw [hf.sameName]
    by_cases hpos : w.inheritedLen e > 0
    · simp only [hpos, decide_true, if_true]
      refine (roundTrips_u8 _).bind_read ?_
      rw [toNat_ofNat_le h255]
      rfl
    · have h0 : w.inheritedLen e = 0 := by omega
      simp only [h0, gt_iff_lt, lt_irrefl, decide_false]
      exact roundTrips_ret () 0
  refine hlen.bind_read ?_
  rw [if_neg hle]
  rfl

theorem roundTrips_suffixLen (hf : FlagsOf w e flags)
    (hlen : (wirePathBytes e.path).length ≤ i32Max) :
    RoundTrips (writeSuffixLen flags (w.suffix e)) () (readSuffixLen flags)
      (w.suffix e).length := by
  have hmax : (w.suffix e).length ≤ i32Max := by
    unfold suffix
    rw [List.length_drop]
    omega
  unfold writeSuffixLen readSuffixLen
  rw [hf.longName]
  by_cases hlong : (w.suffix e).length > 255
  · have hlt : ¬ (w.suffix e).length ≥ 2 ^ 32 := by
      unfold i32Max at hmax
      omega
    simp only [hlong, decide_true, if_true, if_neg hlt]
    exact roundTrips_varint hmax
  · simp only [hlong, decide_false]
    refine (roundTrips_u8 _).bind_read ?_
    rw [toNat_ofNat_le (by omega)]
    rfl

theorem roundTrips_path {maxPathLen : Nat} (hf : FlagsOf w e flags)
    (hlen : (wirePathBytes e.path).length ≤ i32Max)
    (hmax : (wirePathBytes e.path).length ≤ maxPathLen) :
    RoundTrips (writePath flags (w.inheritedLen e) (w.suffix e)) ()
      (readPathBytes maxPathLen w.lastPath flags) (wirePathBytes e.path) := by
  have happ : w.lastPath.take (w.inheritedLen e) ++ w.suffix e = wirePathBytes e.path :=
    take_commonPrefixLen_append _ _
  have hle : w.inheritedLen e ≤ w.lastPath.length := commonPrefixLen_le_left _ _
  have htotal : ¬ w.inheritedLen e + (w.suffix e).length > maxPathLen := by
    have h := congrArg List.length happ
    rw [List.length_append, List.length_take_of_le hle] at h
    omega
  refine (roundTrips_inherited hf).bind ((roundTrips_suffixLen hf hlen).bind ?_)
  unfold readPathRest sliceTo
  simp only [if_neg htotal, if_pos hle, Prog.pure_eq, Prog.ret_bind]
  refine (roundTrips_writeAll (decodes_readExact rfl)).bind_read ?_
  rw [happ]

/-! ## Times, modes and ids -/

/-- What is read for a value that the writer leaves out when it repeats its own
last one: then the reader's last one. -/
def recalled {α : Type} [DecidableEq α] (lastWritten lastRead : Option α) (value : α) : α :=
  if lastWritten = some value then lastRead.getD value else value

theorem recalled_self {α : Type} [DecidableEq α] (last : Option α) (value : α) :
    recalled last last value = value := by
  unfold recalled
  by_cases h : last = some value
  · rw [if_pos h, h, Option.getD_some]
  · rw [if_neg h]

/-- The name read beside an id. -/
def recalledName (lastWritten : Option Nat) (lastName : Option Str) (numeric : Bool) (id : Nat)
    (name : Option Str) : Option Str :=
  if lastWritten = some id then lastName else if numeric then none else name

/-- The reader has a value wherever the writer may refer to one, and the modes
are of one type. -/
structure Remembers (w : Rsync31FileListWriter) (st : FlistReadState) : Prop where
  path : w.lastPath = st.lastPath
  mode : ∀ m, w.lastMode = some m →
    ∃ m', st.lastMode = some m' ∧ fileTypeFromMode m' = fileTypeFromMode m
  mtime : w.lastMtime.isSome → st.lastMtime.isSome
  uid : w.lastUid.isSome → st.lastUid.isSome
  gid : w.lastGid.isSome → st.lastGid.isSome
  atime : w.lastAtime.isSome → st.lastAtime.isSome

theorem roundTrips_time {t : Int} (h : TimeInRange t) (wmsg rmsg : String) :
    RoundTrips (nonnegativeTime t wmsg >>= fun n => writeVarlong n 4) () (readTime rmsg) t := by
  obtain ⟨n, rfl⟩ : ∃ n : Nat, t = n := ⟨t.toNat, by have h0 := h.1; omega⟩
  have hn : n < 2 ^ 56 := by
    have h1 := h.2
    omega
  have hmax : ¬ n > i64Max := by
    unfold i64Max
    omega
  have hpos : (0 : Int) ≤ n := Int.natCast_nonneg n
  have hw : (nonnegativeTime (n : Int) wmsg : Writer Nat) = .ret n := by
    rw [nonnegativeTime, if_pos hpos, Int.toNat_natCast]
    rfl
  rw [hw, Prog.ret_bind]
  refine (roundTrips_varlong (by norm_num) (by norm_num) hn).bind_read ?_
  rw [if_neg hmax]
  rfl

theorem atimeOf_inRange {options : RsyncFileListOptions} (he : Sendable options e) :
    TimeInRange (atimeOf e) := by
  unfold atimeOf
  cases h : e.metadata.atimeUnix with
  | none => exact he.mtime
  | some t => exact he.atime t h

theorem crtimeOf_inRange {options : RsyncFileListOptions} (he : Sendable options e) :
    TimeInRange (crtimeOf e) := by
  unfold crtimeOf
  cases h : e.metadata.crtimeUnix with
  | none => exact he.mtime
  | some t => exact he.crtime t h

theorem uidOf_le {options : RsyncFileListOptions} (he : Sendable options e) :
    uidOf e ≤ i32Max := by
  unfold uidOf
  cases h : e.metadata.uid with
  | none => exact Nat.zero_le _
  | some id => exact he.uid id h

theorem gidOf_le {options : RsyncFileListOptions} (he : Sendable options e) :
    gidOf e ≤ i32Max := by
  unfold gidOf
  cases h : e.metadata.gid with
  | none => exact Nat.zero_le _
  | some id => exact he.gid id h

variable {st : FlistReadState} {options : RsyncFileListOptions}

theorem roundTrips_mtime (hf : FlagsOf w e flags) (hs : Remembers w st)
    (he : Sendable options e) :
    RoundTrips (writeMtime flags e) () (readMtime st flags)
      (recalled w.lastMtime st.lastMtime e.mtimeUnix) := by
  unfold writeMtime readMtime recalled
  rw [hf.sameTime]
  by_cases h : w.lastMtime = some e.mtimeUnix
  · obtain ⟨t, ht⟩ := Option.isSome_iff_exists.mp (hs.mtime (by simp [h]))
    simp only [h, ht, decide_true, if_true]
    exact roundTrips_ret () _
  · simp only [h, decide_false]
    exact roundTrips_time he.mtime _ _

theorem roundTrips_mtimeNsec (hf : FlagsOf w e flags) :
    RoundTrips (writeMtimeNsec flags) () (readMtimeNsec flags) () := by
  unfold writeMtimeNsec readMtimeNsec
  rw [hf.modNsec]
  exact (roundTrips_varint (Nat.zero_le _)).bind_read rfl

/-- A mode goes on the wire as an `i32`. -/
theorem roundTrips_signedMode {mode : Nat} (h : mode < 2 ^ 32) :
    RoundTrips (writeI32Le (toSigned 32 mode)) ()
      (readI32Le >>= fun mode => pure (ofSigned 32 mode)) mode := by
  refine (roundTrips_i32Le (v := toSigned 32 mode) ?_ ?_).bind_read ?_
  · unfold toSigned
    split <;> omega
  · unfold toSigned
    split <;> omega
  · rw [ofSigned_toSigned h]
    rfl

theorem roundTrips_mode (hf : FlagsOf w e flags) (hs : Remembers w st)
    (he : Sendable options e) :
    RoundTrips (writeMode flags e) () (readMode st flags)
      (recalled w.lastMode st.lastMode e.mode) := by
  unfold writeMode readMode recalled
  rw [hf.sameMode]
  by_cases h : w.lastMode = some e.mode
  · obtain ⟨m, hm, -⟩ := hs.mode _ h
    simp only [h, hm, decide_true, if_true]
    exact roundTrips_ret () _
  · simp only [h, decide_false]
    exact roundTrips_signedMode he.mode

/-- A remembered mode is of the type the writer remembers. -/
theorem fileType_recalled (hs : Remembers w st) (he : Sendable options e) :
    fileTypeFromMode (recalled w.lastMode st.lastMode e.mode) = .ok e.fileType := by
  unfold recalled
  by_cases h : w.lastMode = some e.mode
  · obtain ⟨m, hm, htype⟩ := hs.mode _ h
    rw [if_pos h, hm, Option.getD_some, htype, he.fileType]
  · rw [if_neg h, he.fileType]

theorem roundTrips_crtime (hf : FlagsOf w e flags) (ho : w.options = options)
    (he : Sendable options e) (mtime : Int) :
    RoundTrips (writeCrtime options flags e) () (readCrtime options flags mtime)
      (if options.crtimes then
        some (if crtimeOf e = e.mtimeUnix then mtime else crtimeOf e) else none) := by
  unfold writeCrtime readCrtime
  rw [hf.crtimeEqMtime, ho]
  by_cases hc : options.crtimes = true
  · by_cases heq : crtimeOf e = e.mtimeUnix
    · simp only [hc, heq, decide_true, Bool.and_self, not_true_eq_false, and_false, if_false,
        if_true]
      exact roundTrips_ret () _
    · simp only [hc, heq, decide_false, Bool.and_false, Bool.false_eq_true, not_false_eq_true,
        and_self, if_true, if_false]
      exact (roundTrips_time (crtimeOf_inRange he) _ _).bind_read rfl
  · simp only [hc]
    exact roundTrips_ret () _

theorem roundTrips_atime (hf : FlagsOf w e flags) (hs : Remembers w st)
    (ho : w.options = options) (he : Sendable options e) :
    RoundTrips (writeAtime options flags e) () (readAtime options st flags e.fileType)
      (if options.atimes ∧ e.fileType ≠ .directory then
        some (recalled w.lastAtime st.lastAtime (atimeOf e)) else none) := by
  unfold writeAtime readAtime recalled
  rw [hf.sameAtime, ho]
  by_cases ha : options.atimes = true ∧ e.fileType ≠ .directory
  · obtain ⟨ha, hdir⟩ := ha
    by_cases heq : w.lastAtime = some (atimeOf e)
    · obtain ⟨t, ht⟩ := Option.isSome_iff_exists.mp (hs.atime (by simp [heq]))
      simp only [ha, hdir, heq, ht, ne_eq, not_false_eq_true, decide_true, Bool.and_self,
        not_true_eq_false, and_false, and_self, if_false, if_true]
      exact roundTrips_ret () _
    · simp only [ha, hdir, heq, ne_eq, not_false_eq_true, decide_true, decide_false,
        Bool.and_false, Bool.false_eq_true, and_self, if_true, if_false]
      exact (roundTrips_time (atimeOf_inRange he) _ _).bind_read rfl
  · rw [if_neg ha, if_neg ha, if_neg (fun h => ha ⟨h.1, h.2.1⟩)]
    exact roundTrips_ret () _

theorem roundTrips_name {name : Str} (h : name.bytes.length ≤ 255) :
    RoundTrips (writeName name.bytes) () readName name := by
  have hbytes : RoundTrips (writeName name.bytes) () readNameBytes name.bytes := by
    unfold writeName readNameBytes
    rw [if_neg (by omega)]
    refine (roundTrips_u8 _).bind ?_
    rw [toNat_ofNat_le h]
    exact roundTrips_writeAll (decodes_readExact rfl)
  refine hbytes.bind_read ?_
  rw [Str.fromUtf8_bytes]
  rfl

/-- An id and its name, both elided when the id repeats the last one. -/
theorem roundTrips_id {preserve numeric : Bool} {same follows id : Nat} {lastWritten : Option Nat}
    {lastId : Option Nat} {lastName name : Option Str}
    (hsame : hasFlag flags same = (!preserve || decide (lastWritten = some id)))
    (hfollows : hasFlag flags follows =
      (!(!preserve || decide (lastWritten = some id)) && !numeric && name.isSome))
    (hid : id ≤ i32Max) (hname : ∀ n, name = some n → n.bytes.length ≤ 255)
    (hs : lastWritten.isSome → lastId.isSome) :
    RoundTrips (writeId preserve flags same follows id name) ()
      (readId preserve flags same follows lastId lastName)
      (if preserve then
        (some (recalled lastWritten lastId id), recalledName lastWritten lastName numeric id name)
      else (none, none)) := by
  unfold writeId readId recalled recalledName
  rw [hsame, hfollows]
  cases preserve with
  | false => exact roundTrips_ret () _
  | true =>
      by_cases heq : lastWritten = some id
      · obtain ⟨i, rfl⟩ := Option.isSome_iff_exists.mp (hs (by simp [heq]))
        simp only [heq, decide_true, Bool.or_true, not_true_eq_false, and_false, if_false, if_true]
        exact roundTrips_ret () _
      · simp only [heq, decide_false, Bool.not_true, Bool.or_false, Bool.false_eq_true,
          not_false_eq_true, and_self, if_true, if_false, Bool.not_false, Bool.true_and]
        refine (roundTrips_varint hid).bind ?_
        cases numeric with
        | true => exact roundTrips_ret () _
        | false =>
            cases name with
            | none => exact roundTrips_ret () _
            | some name =>
                simp only [Bool.not_false, Option.isSome_some, Bool.and_self, if_true,
                  Option.elim_some]
                exact (roundTrips_name (hname name rfl)).bind_read rfl

theorem roundTrips_checksum (he : options.includeChecksums = true → e.fileType = .file →
      ∃ c : Bytes, e.checksum = some c ∧ c.length = 16) :
    RoundTrips (writeChecksum options e) () (readFileChecksum options e.fileType)
      (if options.includeChecksums ∧ e.fileType = .file then e.checksum else none) := by
  unfold writeChecksum readFileChecksum
  by_cases hc : options.includeChecksums = true ∧ e.fileType = .file
  · obtain ⟨c, hsome, hlen⟩ := he hc.1 hc.2
    simp only [if_pos hc, hsome]
    exact (roundTrips_writeAll (decodes_readExact hlen)).bind_read rfl
  · rw [if_neg hc, if_neg hc, if_neg hc]
    exact roundTrips_ret () _

/-! ## Payloads -/

theorem roundTrips_emptyAcl : RoundTrips writeEmptyAcl () readEmptyAclPayload () :=
  (roundTrips_varint (Nat.zero_le _)).bind ((roundTrips_u8 0).bind_read rfl)

theorem roundTrips_aclPayload :
    RoundTrips (writeAclPayload e options) () (readAclPayload e.fileType options) () := by
  unfold writeAclPayload readAclPayload
  by_cases hacl : options.acls = true ∧ e.fileType ≠ .symlink
  · rw [if_pos hacl, if_pos hacl]
    refine roundTrips_emptyAcl.bind ?_
    unfold readDirectoryAcl
    by_cases hdir : e.fileType = .directory
    · rw [if_pos hdir, if_pos hdir]
      exact roundTrips_emptyAcl
    · rw [if_neg hdir, if_neg hdir]
      exact roundTrips_ret () ()
  · rw [if_neg hacl, if_neg hacl]
    exact roundTrips_ret () ()

theorem roundTrips_xattrName (name : Str) :
    RoundTrips (writeXattrName name) () (readXattrName (name.bytes.length + 1)) name := by
  have hlast : ¬ ((name.bytes ++ [0]).getLast? ≠ some 0) := by simp
  have hread : Decodes (readXattrName (name.bytes.length + 1)) (name.bytes ++ [0]) name := by
    unfold readXattrName
    rw [if_neg (by omega)]
    refine (decodes_readExact (by simp)).bind_ret ?_
    simp only [if_neg hlast, List.dropLast_concat, Str.fromUtf8_bytes]
    rfl
  exact ⟨[name.bytes, [0]], (writes_writeAll _).bind (writes_writeAll _), by simpa using hread⟩

theorem roundTrips_xattr {x : RsyncXattrPayload} (hx : WireXattr x) :
    RoundTrips (writeXattr x) () readXattr x := by
  have hmax : i32Max = 2147483647 := rfl
  have hvmax : maxInlineXattrValue = 32 := rfl
  have hname := hx.name_len
  have hval := hx.value_len
  have hn : (x.name.bytes.length + 1) % 2 ^ 32 = x.name.bytes.length + 1 :=
    Nat.mod_eq_of_lt (by omega)
  have hv : x.value.length % 2 ^ 32 = x.value.length := Nat.mod_eq_of_lt (by omega)
  have hguard : ¬ (x.name.bytes = [] ∨ 0 ∈ x.name.bytes) := by
    rintro (h | h)
    · exact hx.name_ne h
    · exact hx.name_nul h
  unfold writeXattr readXattr
  rw [if_neg hguard, if_neg (Nat.not_lt.mpr hval), hn, hv]
  refine (roundTrips_varint (by omega)).bind ((roundTrips_varint (by omega)).bind ?_)
  refine (roundTrips_xattrName x.name).bind ?_
  exact (roundTrips_writeAll (decodes_readExact rfl)).bind_read rfl

theorem roundTrips_payloads (hfake : options.fakeSuper = true → options.xattrs = true)
    (he : Sendable options e) :
    RoundTrips (writeRsync31MetadataPayloads e options) ()
      (readRsync31MetadataPayloads e.fileType options)
      (if options.xattrs then e.metadata.xattrs else []) := by
  refine roundTrips_aclPayload.bind ?_
  by_cases hx : options.xattrs = true
  · have hlen : e.metadata.xattrs.length % 2 ^ 32 = e.metadata.xattrs.length := by
      have h := he.xattrs_len
      have hmax : i32Max = 2147483647 := rfl
      exact Nat.mod_eq_of_lt (by omega)
    have hall : RoundTrips (e.metadata.xattrs.forM writeXattr) ()
        (readTimes readXattr e.metadata.xattrs.length) e.metadata.xattrs := by
      have h := roundTrips_forM (f := writeXattr) (r := readXattr) (x := id)
        fun x hmem => roundTrips_xattr (he.xattrs x hmem)
      simpa using h
    simp only [hx, if_true, true_or]
    refine (roundTrips_varint (Nat.zero_le _)).bind ?_
    rw [hlen]
    exact (roundTrips_varint he.xattrs_len).bind hall
  · have hf : ¬ (options.xattrs = true ∨ options.fakeSuper = true) := by
      rintro (h | h)
      · exact hx h
      · exact hx (hfake h)
    rw [if_neg hx, if_neg hf, if_neg hx]
    exact roundTrips_ret () []

/-! ## One entry -/

section ReadBack

variable (options : RsyncFileListOptions) (w : Rsync31FileListWriter) (st : FlistReadState)

/-- The fields read for an entry that is not a back reference, under the number
`group` of its hard-link group. -/
def readBackFields (group : Option RsyncHardLinkGroup) (e : RsyncFileListEntry) : FlistFields where
  fileType := e.fileType
  len := e.len
  mtime := recalled w.lastMtime st.lastMtime e.mtimeUnix
  mode := recalled w.lastMode st.lastMode e.mode
  checksum := if options.includeChecksums ∧ e.fileType = .file then e.checksum else none
  hardlinkGroup := group
  metadata :=
    { uid := if options.preserveOwner then some (recalled w.lastUid st.lastUid (uidOf e)) else none
      gid := if options.preserveGroup then some (recalled w.lastGid st.lastGid (gidOf e)) else none
      userName := if options.preserveOwner then
        recalledName w.lastUid st.lastUserName options.numericIds (uidOf e) e.metadata.userName
        else none
      groupName := if options.preserveGroup then
        recalledName w.lastGid st.lastGroupName options.numericIds (gidOf e) e.metadata.groupName
        else none
      atimeUnix := if options.atimes ∧ e.fileType ≠ .directory then
        some (recalled w.lastAtime st.lastAtime (atimeOf e)) else none
      crtimeUnix := if options.crtimes then
        some (if crtimeOf e = e.mtimeUnix then recalled w.lastMtime st.lastMtime e.mtimeUnix
          else crtimeOf e) else none }

/-- The fields read for a back reference to the entry stored under `index`. -/
def copiedFields (index : Nat) (first : RsyncFileListEntry) : FlistFields :=
  ⟨first.fileType, first.len, first.mtimeUnix, first.mode, first.checksum,
    some (first.hardlinkGroup.getD ⟨0, index⟩), first.metadata⟩

def readBackBody (stored : List RsyncFileListEntry) (e : RsyncFileListEntry) : FlistFields :=
  match (w.hardlinkReference e).bind fun i => stored[i]?.map (copiedFields i) with
  | some fields => fields
  | none =>
      readBackFields options w st (if (groupOf e).isSome then some ⟨0, stored.length⟩ else none) e

/-- The entry that is stored. -/
def readBackEntry (stored : List RsyncFileListEntry) (e : RsyncFileListEntry) :
    RsyncFileListEntry :=
  let fields := readBackBody options w st stored e
  { path := wirePathBytes e.path
    fileType := fields.fileType
    len := fields.len
    mtimeUnix := fields.mtime
    mode := fields.mode
    checksum := fields.checksum
    hardlinkGroup := fields.hardlinkGroup
    metadata := { fields.metadata with
      xattrs := if options.xattrs then e.metadata.xattrs else [] } }

end ReadBack

/-- The reading of a list, from both memories on. -/
def readBackFrom (options : RsyncFileListOptions) : Rsync31FileListWriter → FlistReadState →
    List RsyncFileListEntry → List RsyncFileListEntry → List RsyncFileListEntry
  | _, _, stored, [] => stored
  | w, st, stored, e :: rest =>
      let entry := readBackEntry options w st stored e
      readBackFrom options (w.recordEntryState e) (st.after options (wirePathBytes e.path) entry)
        (stored ++ [entry]) rest

def readBack (options : RsyncFileListOptions) (entries : List RsyncFileListEntry) :
    List RsyncFileListEntry :=
  readBackFrom options (Rsync31FileListWriter.new options) {} [] entries

theorem roundTrips_fields (hf : FlagsOf w e flags) (hs : Remembers w st)
    (ho : w.options = options) (he : Sendable options e) (index : Nat) :
    RoundTrips (writeFields options flags e) () (readFields options st flags index)
      (readBackFields options w st (if (groupOf e).isSome then some ⟨0, index⟩ else none) e) := by
  have huid : hasFlag flags xmit31SameUid =
      (!options.preserveOwner || decide (w.lastUid = some (uidOf e))) := by
    rw [hf.sameUid, sameUid, ho]
  have hgid : hasFlag flags xmit31SameGid =
      (!options.preserveGroup || decide (w.lastGid = some (gidOf e))) := by
    rw [hf.sameGid, sameGid, ho]
  have huname : hasFlag flags xmit31UserNameFollows =
      (!(!options.preserveOwner || decide (w.lastUid = some (uidOf e))) && !options.numericIds &&
        e.metadata.userName.isSome) := by
    rw [hf.userName, sameUid, ho]
  have hgname : hasFlag flags xmit31GroupNameFollows =
      (!(!options.preserveGroup || decide (w.lastGid = some (gidOf e))) && !options.numericIds &&
        e.metadata.groupName.isSome) := by
    rw [hf.groupName, sameGid, ho]
  have htype : (Prog.ofExcept (fileTypeFromMode (recalled w.lastMode st.lastMode e.mode)) :
      Reader WireFileType) = .ret e.fileType := by
    rw [fileType_recalled hs he]
    rfl
  unfold writeFields readFields
  refine (roundTrips_varlong (by norm_num) (by norm_num) he.len).bind ?_
  refine (roundTrips_mtime hf hs he).bind ?_
  refine (roundTrips_mtimeNsec hf).bind ?_
  refine (roundTrips_mode hf hs he).bind ?_
  refine (roundTrips_crtime hf ho he _).bind ?_
  rw [htype, Prog.ret_bind]
  refine (roundTrips_atime hf hs ho he).bind ?_
  refine (roundTrips_id huid huname (uidOf_le he) he.userName hs.uid).bind ?_
  refine (roundTrips_id hgid hgname (gidOf_le he) he.groupName hs.gid).bind ?_
  refine (roundTrips_checksum he.checksum).bind_read ?_
  rw [hf.hlinked]
  unfold readBackFields
  cases options.preserveOwner <;> cases options.preserveGroup <;> rfl

/-- A back reference yields what the group's first entry was stored with. -/
theorem roundTrips_reference {firstIndex : Nat} {stored : List RsyncFileListEntry}
    {first : RsyncFileListEntry} (hget : stored[firstIndex]? = some first)
    (hle : firstIndex ≤ i32Max) :
    RoundTrips (writeReference firstIndex) () (readReference stored)
      (copiedFields firstIndex first) := by
  have hlt : ¬ firstIndex ≥ 2 ^ 32 := by
    unfold i32Max at hle
    omega
  unfold writeReference readReference
  rw [if_neg hlt]
  refine (roundTrips_varint hle).bind_read ?_
  have hin : ¬ firstIndex ≥ stored.length := by
    have h := (List.getElem?_eq_some_iff.mp hget).1
    omega
  simp only [if_neg hin, hget]
  rfl

end Fields

/-! ## The list -/

/-- What an entry is stored as is of its type and has the fields of the options. -/
structure StoredFor (options : RsyncFileListOptions) (e s : RsyncFileListEntry) : Prop where
  fileType : s.fileType = e.fileType
  mode : fileTypeFromMode s.mode = .ok e.fileType
  atime : options.atimes = true → e.fileType ≠ .directory → s.metadata.atimeUnix.isSome
  uid : options.preserveOwner = true → s.metadata.uid.isSome
  gid : options.preserveGroup = true → s.metadata.gid.isSome

/-- The invariant of the list: `done` has been written, and read as `stored`. -/
structure Along (options : RsyncFileListOptions) (done : List RsyncFileListEntry)
    (w : Rsync31FileListWriter) (st : FlistReadState) (stored : List RsyncFileListEntry) :
    Prop where
  options_eq : w.options = options
  not_finished : w.finished = false
  remembers : Remembers w st
  next : w.nextIndex = done.length
  groups : ∀ g, List.lookup g w.hardlinkGroups =
    done.findIdx? fun e => decide (Rsync31FileListWriter.groupOf e = some g)
  stored_for : List.Forall₂ (StoredFor options) done stored

section Loop

open Rsync31FileListWriter

variable {options : RsyncFileListOptions} {done rest stored : List RsyncFileListEntry}
  {w : Rsync31FileListWriter} {st : FlistReadState} {e : RsyncFileListEntry}

theorem groupOf_eq_some {e : RsyncFileListEntry} {g : RsyncHardLinkGroup} :
    groupOf e = some g ↔ e.fileType = .file ∧ e.hardlinkGroup = some g := by
  unfold groupOf
  by_cases h : e.fileType = .file
  · simp [h]
  · simp [h]

theorem Along.new (options : RsyncFileListOptions) :
    Along options [] (Rsync31FileListWriter.new options) {} [] where
  options_eq := rfl
  not_finished := rfl
  remembers := by constructor <;> simp [Rsync31FileListWriter.new]
  next := rfl
  groups := fun _ => rfl
  stored_for := .nil

theorem lookup_recordGroup (hnext : w.nextIndex = done.length)
    (hgroups : ∀ g, List.lookup g w.hardlinkGroups =
      done.findIdx? fun e => decide (groupOf e = some g)) (g : RsyncHardLinkGroup) :
    List.lookup g (w.recordGroup e) =
      (done ++ [e]).findIdx? fun e => decide (groupOf e = some g) := by
  have hg := hgroups g
  rw [List.findIdx?_append, ← hg]
  unfold recordGroup
  cases hge : groupOf e with
  | none => simp [hge]
  | some g' =>
      by_cases heq : g' = g
      · subst heq
        cases hl : List.lookup g' w.hardlinkGroups with
        | none => simp [hl, hge, hnext]
        | some i => simp [hl]
      · have hne : (g == g') = false := by simp [Ne.symm heq]
        cases hl : List.lookup g' w.hardlinkGroups with
        | none => simp [hl, hge, heq, List.lookup_cons, hne]
        | some i => simp [hl, hge, heq]

/-- A back reference: the entry it points to is there and is a file, as is the
entry itself. -/
theorem Along.reference (h : Along options done w st stored) {i : Nat}
    (href : w.hardlinkReference e = some i) :
    ∃ g f first, groupOf e = some g ∧
      done.findIdx? (fun e => decide (groupOf e = some g)) = some i ∧ done[i]? = some f ∧
      groupOf f = some g ∧ stored[i]? = some first ∧ StoredFor options f first := by
  obtain ⟨g, hge, hlook⟩ := Option.bind_eq_some_iff.mp href
  have hfind : done.findIdx? (fun e => decide (groupOf e = some g)) = some i := by
    rw [← h.groups g, hlook]
  obtain ⟨hi, hgf, -⟩ := List.findIdx?_eq_some_iff_getElem.mp hfind
  have hlen := h.stored_for.length_eq
  have hs : i < stored.length := by omega
  refine ⟨g, done[i], stored[i], hge, hfind, List.getElem?_eq_getElem hi,
    of_decide_eq_true hgf, List.getElem?_eq_getElem hs, ?_⟩
  exact (List.forall₂_iff_get.mp h.stored_for).2 i hi hs

/-- What is read for an entry, one case for each way it is written. -/
theorem Along.readBackBody_cases (h : Along options done w st stored) (e : RsyncFileListEntry) :
    (∃ i f first, w.hardlinkReference e = some i ∧ done[i]? = some f ∧
      stored[i]? = some first ∧ e.fileType = .file ∧ f.fileType = .file ∧
      StoredFor options f first ∧ readBackBody options w st stored e = copiedFields i first) ∨
    (w.hardlinkReference e = none ∧ readBackBody options w st stored e =
      readBackFields options w st
        (if (groupOf e).isSome then some ⟨0, stored.length⟩ else none) e) := by
  unfold readBackBody
  cases href : w.hardlinkReference e with
  | none => exact Or.inr ⟨rfl, rfl⟩
  | some i =>
      obtain ⟨g, f, first, hge, -, hf, hgf, hfirst, hstored⟩ := h.reference href
      refine Or.inl ⟨i, f, first, rfl, hf, hfirst, (groupOf_eq_some.mp hge).1,
        (groupOf_eq_some.mp hgf).1, hstored, ?_⟩
      simp [hfirst]

theorem Along.storedFor (h : Along options done w st stored) (he : Sendable options e) :
    StoredFor options e (readBackEntry options w st stored e) := by
  rcases h.readBackBody_cases e with
    ⟨i, f, first, -, -, -, hefile, hffile, hstored, hbody⟩ | ⟨-, hbody⟩
  · have hsame : e.fileType = f.fileType := hefile.trans hffile.symm
    constructor
    · rw [readBackEntry, hbody, hsame]
      exact hstored.fileType
    · rw [readBackEntry, hbody, hsame]
      exact hstored.mode
    · rw [readBackEntry, hbody, hsame]
      exact hstored.atime
    · rw [readBackEntry, hbody]
      exact hstored.uid
    · rw [readBackEntry, hbody]
      exact hstored.gid
  · constructor
    · rw [readBackEntry, hbody]
      rfl
    · rw [readBackEntry, hbody]
      exact fileType_recalled h.remembers he
    · intro ha hdir
      simp [readBackEntry, hbody, readBackFields, ha, hdir]
    · intro ho
      simp [readBackEntry, hbody, readBackFields, ho]
    · intro hg
      simp [readBackEntry, hbody, readBackFields, hg]

theorem Along.after (h : Along options done w st stored) (he : Sendable options e) :
    Along options (done ++ [e]) (w.recordEntryState e)
      (st.after options (wirePathBytes e.path) (readBackEntry options w st stored e))
      (stored ++ [readBackEntry options w st stored e]) := by
  have hstored := h.storedFor he
  have ho := h.options_eq
  refine ⟨ho, h.not_finished, ⟨rfl, ?_, ?_, ?_, ?_, ?_⟩, ?_, lookup_recordGroup h.next h.groups, ?_⟩
  · intro m hm
    obtain rfl : e.mode = m := Option.some.inj hm
    exact ⟨_, rfl, hstored.mode.trans he.fileType.symm⟩
  · intro _
    rfl
  · intro hw
    simp only [recordEntryState, FlistReadState.after, ho] at hw ⊢
    cases hp : options.preserveOwner with
    | true => simpa using hstored.uid hp
    | false =>
        simp only [hp, Bool.false_eq_true, if_false] at hw ⊢
        exact h.remembers.uid hw
  · intro hw
    simp only [recordEntryState, FlistReadState.after, ho] at hw ⊢
    cases hp : options.preserveGroup with
    | true => simpa using hstored.gid hp
    | false =>
        simp only [hp, Bool.false_eq_true, if_false] at hw ⊢
        exact h.remembers.gid hw
  · intro hw
    simp only [recordEntryState, FlistReadState.after, ho, hstored.fileType] at hw ⊢
    by_cases ha : options.atimes = true ∧ e.fileType ≠ .directory
    · rw [if_pos ha]
      exact hstored.atime ha.1 ha.2
    · rw [if_neg ha] at hw ⊢
      exact h.remembers.atime hw
  · simp [recordEntryState, h.next]
  · exact List.rel_append h.stored_for (.cons hstored .nil)

theorem roundTrips_body (h : Along options done w st stored) (hcount : done.length ≤ i32Max)
    (he : Sendable options e) {flags : Nat} (hf : FlagsOf w e flags) :
    RoundTrips (w.writeBody flags e) () (readBody options stored st flags)
      (readBackBody options w st stored e) := by
  have hlen := h.stored_for.length_eq
  rcases h.readBackBody_cases e with
    ⟨i, f, first, href, hget, hfirst, -, -, -, hbody⟩ | ⟨href, hbody⟩
  · obtain ⟨g, -, -, hge, -⟩ := h.reference href
    have hi : i < done.length := (List.getElem?_eq_some_iff.mp hget).1
    rw [hbody]
    unfold writeBody readBody
    rw [hf.hlinked, hf.hlinkFirst, href, hge]
    simp only [Option.isSome_some, Option.isNone_some, Bool.and_false, Bool.false_eq_true,
      not_false_eq_true, and_self, if_true]
    exact roundTrips_reference hfirst (by omega)
  · have hfields := roundTrips_fields hf h.remembers h.options_eq he stored.length
    rw [hbody]
    unfold writeBody readBody
    rw [hf.hlinked, hf.hlinkFirst, href, h.options_eq]
    cases hge : groupOf e with
    | none =>
        rw [hge] at hfields
        simpa using hfields
    | some g =>
        rw [hge] at hfields
        simpa using hfields

/-- One entry, behind the flag word that both sides then know. -/
theorem roundTrips_flagged {maxPathLen : Nat} (h : Along options done w st stored)
    (hcount : done.length ≤ i32Max) (hfake : options.fakeSuper = true → options.xattrs = true)
    (he : Sendable options e) (hmax : (wirePathBytes e.path).length ≤ maxPathLen) :
    RoundTrips (w.writeFlagged (w.entryFlags e) e) (w.recordEntryState e)
      (readEntry options maxPathLen stored st (w.entryFlags e))
      (readBackEntry options w st stored e,
        st.after options (wirePathBytes e.path) (readBackEntry options w st stored e)) := by
  have hf := w.flagsOf_entryFlags e
  have hbody := roundTrips_body h hcount he hf
  have hpath := roundTrips_path hf he.path_len hmax
  rw [h.remembers.path] at hpath
  have hwire : (Prog.ofExcept (wirePathFromBytes (wirePathBytes e.path)) : Reader Bytes) =
      .ret (wirePathBytes e.path) := by
    rw [wirePathFromBytes_wirePathBytes he.path]
    rfl
  have htype : (readBackBody options w st stored e).fileType = e.fileType :=
    (h.storedFor he).fileType
  unfold writeFlagged readEntry
  refine hpath.bind ?_
  rw [hwire, Prog.ret_bind]
  refine hbody.bind ?_
  rw [h.options_eq]
  have hpayloads := roundTrips_payloads hfake he
  rw [← htype] at hpayloads
  exact hpayloads.bind (roundTrips_ret _ _)

section Run

variable {γ β : Type} {maxEntries maxPathLen : Nat} {f : Rsync31FileListWriter → Writer γ} {c : γ}
  {k : List RsyncFileListEntry → Reader β} {out : β}

/-- The reader's turn of the loop for one entry; `f` and `k` are what the two
sides do afterwards. -/
theorem roundTrips_readEntries_step {room : Nat} (h : Along options done w st stored)
    (hcount : done.length ≤ i32Max) (hfake : options.fakeSuper = true → options.xattrs = true)
    (he : Sendable options e) (hmax : (wirePathBytes e.path).length ≤ maxPathLen)
    (hnext : RoundTrips (f (w.recordEntryState e)) c
      (readEntries options maxEntries maxPathLen room
        (stored ++ [readBackEntry options w st stored e])
        (st.after options (wirePathBytes e.path) (readBackEntry options w st stored e)) >>= k)
      out) :
    RoundTrips (w.writeEntry e >>= f) c
      (readEntries options maxEntries maxPathLen (room + 1) stored st >>= k) out := by
  have hf := w.flagsOf_entryFlags e
  unfold writeEntry readEntries
  rw [Prog.bind_assoc, Prog.bind_assoc]
  refine (roundTrips_varint hf.le_max).bind ?_
  rw [if_neg hf.ne_zero, Prog.bind_assoc]
  exact (roundTrips_flagged h hcount hfake he hmax).bind hnext

/-- The whole run over the entries that are left. -/
theorem roundTrips_readEntries (hfake : options.fakeSuper = true → options.xattrs = true) :
    ∀ {rest done stored : List RsyncFileListEntry} {w : Rsync31FileListWriter}
      {st : FlistReadState} {room : Nat}, Along options done w st stored →
      done.length + rest.length ≤ i32Max →
      (∀ e ∈ rest, Sendable options e ∧ (wirePathBytes e.path).length ≤ maxPathLen) →
      (∀ w' st' stored', Along options (done ++ rest) w' st' stored' →
        readBackFrom options w st stored rest = stored' →
        (∀ later, readBackFrom options w st stored (rest ++ later) =
          readBackFrom options w' st' stored' later) →
        RoundTrips (f w') c (readEntries options maxEntries maxPathLen room stored' st' >>= k) out) →
      RoundTrips (rest.foldlM writeEntry w >>= f) c
        (readEntries options maxEntries maxPathLen (room + rest.length) stored st >>= k) out
  | [], done, stored, w, st, room, h, _, _, hend => by
      have hend := hend w st stored (by simpa using h) rfl (fun _ => rfl)
      simpa using hend
  | e :: rest, done, stored, w, st, room, h, hcount, hall, hend => by
      obtain ⟨he, hlen⟩ := hall e (by simp)
      rw [List.length_cons] at hcount
      rw [List.foldlM_cons, Prog.bind_assoc]
      refine roundTrips_readEntries_step h (by omega) hfake he hlen ?_
      refine roundTrips_readEntries hfake (h.after he)
        (by rw [List.length_append, List.length_singleton]; omega)
        (fun x hx => hall x (by simp [hx])) ?_
      intro w' st' stored' halong hback hlater
      rw [List.append_assoc, List.singleton_append] at halong
      exact hend w' st' stored' halong hback hlater

/-- How the entries are cut into batches does not matter. -/
theorem roundTrips_readBatches (hfake : options.fakeSuper = true → options.xattrs = true) :
    ∀ {batches : List (List RsyncFileListEntry)} {done stored : List RsyncFileListEntry}
      {w : Rsync31FileListWriter} {st : FlistReadState} {room : Nat},
      Along options done w st stored → done.length + batches.flatten.length ≤ i32Max →
      (∀ e ∈ batches.flatten,
        Sendable options e ∧ (wirePathBytes e.path).length ≤ maxPathLen) →
      (∀ w' st', w'.options = options → w'.finished = false → RoundTrips (f w') c
        (readEntries options maxEntries maxPathLen room
          (readBackFrom options w st stored batches.flatten) st' >>= k) out) →
      RoundTrips (batches.foldlM writeBatch w >>= f) c
        (readEntries options maxEntries maxPathLen (room + batches.flatten.length) stored st
          >>= k) out
  | [], done, stored, w, st, room, h, _, _, hend => by
      have hend := hend w st h.options_eq h.not_finished
      simpa [readBackFrom] using hend
  | batch :: batches, done, stored, w, st, room, h, hcount, hall, hend => by
      have hbatch : w.writeBatch batch = batch.foldlM writeEntry w := by
        simp [writeBatch, h.not_finished]
      rw [List.flatten_cons, List.length_append] at hcount
      have hroom : room + (batch :: batches).flatten.length =
          room + batches.flatten.length + batch.length := by
        rw [List.flatten_cons, List.length_append]
        omega
      rw [List.foldlM_cons, Prog.bind_assoc, hbatch, hroom]
      refine roundTrips_readEntries hfake h (by omega) (fun e he => hall e (by simp [he])) ?_
      intro w' st' stored' halong _ hlater
      refine roundTrips_readBatches hfake halong (by rw [List.length_append]; omega)
        (fun e he => hall e (by rw [List.flatten_cons]; exact List.mem_append_right _ he)) ?_
      intro w'' st'' ho hfin
      rw [← hlater, ← List.flatten_cons]
      exact hend w'' st'' ho hfin

end Run

end Loop

theorem roundTrips_idList {fuel : Nat} (hfuel : 1 ≤ fuel) (options : RsyncFileListOptions)
    (preserve : Bool) :
    RoundTrips (Rsync31FileListWriter.writeIdList options preserve) ()
      (readIdList fuel options preserve) () := by
  obtain ⟨k, rfl⟩ : ∃ k, fuel = k + 1 := ⟨fuel - 1, by omega⟩
  have hname : RoundTrips (writeName rootName) () readIgnoredName () := by
    have hread : RoundTrips (writeName rootName) () readNameBytes rootName :=
      (roundTrips_u8 _).bind (roundTrips_writeAll (decodes_readExact rfl))
    exact hread.bind_read rfl
  unfold Rsync31FileListWriter.writeIdList readIdList
  by_cases h : ¬ options.numericIds = true ∧ (preserve = true ∨ options.acls = true)
  · rw [if_pos h, if_pos h]
    exact (roundTrips_varint (Nat.zero_le _)).bind hname
  · rw [if_neg h, if_neg h]
    exact roundTrips_ret () ()

theorem roundTrips_finish {options : RsyncFileListOptions} {w : Rsync31FileListWriter}
    {maxEntries maxPathLen fuel room : Nat} {out : List RsyncFileListEntry} {st : FlistReadState}
    (hfuel : 1 ≤ fuel) (ho : w.options = options) (hfin : w.finished = false) :
    RoundTrips (w.finish >>= fun _ => pure ()) ()
      (readEntries options maxEntries maxPathLen room out st >>= fun entries => do
        readIdList fuel options options.preserveOwner
        readIdList fuel options options.preserveGroup
        pure entries) out := by
  have hend : RoundTrips (writeVarint 0) () readFlistEnd () :=
    (roundTrips_varint (Nat.zero_le _)).bind_read rfl
  unfold Rsync31FileListWriter.finish readEntries
  rw [hfin, ho]
  simp only [Bool.false_eq_true, if_false, Prog.bind_assoc]
  refine (roundTrips_varint (Nat.zero_le _)).bind ?_
  rw [if_pos rfl, Prog.bind_assoc]
  refine hend.bind ?_
  refine (roundTrips_idList hfuel options _).bind ?_
  exact (roundTrips_idList hfuel options _).bind (roundTrips_ret () out)

/-- Sendable entries in any batches are read back as `readBack`, and the bytes
are consumed exactly. -/
theorem roundTrips_readBack {options : RsyncFileListOptions}
    {batches : List (List RsyncFileListEntry)} {maxEntries maxPathLen fuel : Nat}
    (hfake : options.fakeSuper = true → options.xattrs = true)
    (hentries : ∀ e ∈ batches.flatten, Sendable options e)
    (hcount : batches.flatten.length ≤ i32Max)
    (hmaxEntries : batches.flatten.length ≤ maxEntries)
    (hmaxPath : ∀ e ∈ batches.flatten, (wirePathBytes e.path).length ≤ maxPathLen)
    (hfuel : 1 ≤ fuel) :
    RoundTrips (writeRsync31FileListBatches options batches) ()
      (readRsync31FileListWithMetadata fuel maxEntries maxPathLen options)
      (readBack options batches.flatten) := by
  obtain ⟨room, rfl⟩ : ∃ room, maxEntries = room + batches.flatten.length :=
    ⟨maxEntries - batches.flatten.length, by omega⟩
  refine roundTrips_readBatches hfake (Along.new options) (by simpa using hcount)
    (fun e he => ⟨hentries e he, hmaxPath e he⟩) ?_
  intro w st ho hfin
  exact roundTrips_finish hfuel ho hfin

end RsyncWin
