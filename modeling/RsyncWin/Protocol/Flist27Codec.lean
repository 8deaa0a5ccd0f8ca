import RsyncWin.Protocol.Flist27
import RsyncWin.Protocol.FlistCodec

/-!
# The protocol-27 file list: decode after encode

Writer and reader both remember the mode and the time of the entry before, and
here the two memories never differ (`InStep27`). A time that does not fit the
wire stops the writer at its first occurrence, so a repetition of it is never
reached.
-/

namespace RsyncWin

open ByteString Codec

/-! ## Lengths -/

theorem decodes_readI64Le {v : Int} (hlo : -9223372036854775808 ≤ v)
    (hhi : v ≤ 9223372036854775807) :
    Decodes readI64Le (leBytes 8 (ofSigned 64 v)) v := by
  refine (decodes_readExact (leBytes_length 8 _)).bind_ret ?_
  have hlt : ofSigned 64 v < 256 ^ 8 := ofSigned_lt 64 v
  have hv := toSigned_ofSigned (w := 64) (v := v) (by norm_num) (by norm_num; omega)
    (by norm_num; omega)
  rw [leNat_leBytes, Nat.mod_eq_of_lt hlt, hv]
  rfl

theorem roundTrips_rsyncLong {n : Nat} (h : n ≤ i64Max) :
    RoundTrips (writeRsyncLong n) () readRsyncLong n := by
  unfold writeRsyncLong readRsyncLong
  by_cases hsmall : n ≤ i32Max
  · rw [if_pos hsmall]
    unfold i32Max at hsmall
    refine (roundTrips_i32Le (by omega) (by omega)).bind_read ?_
    rw [if_pos (Int.natCast_nonneg n)]
    rfl
  · rw [if_neg hsmall, if_neg (Nat.not_lt.mpr h)]
    unfold i64Max at h
    refine (roundTrips_i32Le (by omega) (by omega)).bind ?_
    rw [if_neg (by decide), if_neg (by decide)]
    refine (roundTrips_writeAll (decodes_readI64Le (v := n) (by omega) (by omega))).bind_read ?_
    rw [if_neg (by omega)]
    rfl

/-! ## Entries -/

def InI32 (v : Int) : Prop := -2147483648 ≤ v ∧ v ≤ 2147483647

/-- What an entry has to satisfy to be sent. -/
structure Wire27Entry (includeChecksums : Bool) (e : RsyncFileListEntry) : Prop where
  path : WirePath e.path
  path_len : (wirePathBytes e.path).length ≤ i32Max
  len : e.len ≤ i64Max
  mtime : InI32 e.mtimeUnix
  mode : e.mode < 2 ^ 32
  fileType : fileTypeFromMode e.mode = .ok e.fileType
  checksum : includeChecksums = true → e.fileType = .file →
    ∃ c : Bytes, e.checksum = some c ∧ c.length = 16

/-- What the reader makes of it. -/
def received27 (includeChecksums : Bool) (e : RsyncFileListEntry) : RsyncFileListEntry :=
  { path := wirePathBytes e.path
    fileType := e.fileType
    len := e.len
    mtimeUnix := e.mtimeUnix
    mode := e.mode
    checksum := if includeChecksums ∧ e.fileType = .file then e.checksum else none }

structure InStep27 (includeChecksums : Bool) (w : Rsync27FileListWriter) (st : Flist27ReadState) :
    Prop where
  includes : w.includeChecksums = includeChecksums
  not_finished : w.finished = false
  mode : w.lastMode = st.lastMode
  mtime : w.lastMtime = st.lastMtime

namespace Rsync27FileListWriter

/-- Every flag of the status byte, read back. -/
structure StatusOf (w : Rsync27FileListWriter) (e : RsyncFileListEntry) (status : Nat) : Prop where
  ne_zero : status ≠ 0
  lt : status < 256
  sameName : hasFlag status xmitSameName = false
  longName : hasFlag status xmitLongName = true
  sameMode : hasFlag status xmitSameMode = decide (w.lastMode = some e.mode)
  sameTime : hasFlag status xmitSameTime = decide (w.lastMtime = some e.mtimeUnix)

theorem status_bits : ∀ sameMode sameTime topDir : Bool,
    let status := xmitLongName ||| flagIf sameMode xmitSameMode ||| flagIf sameTime xmitSameTime |||
      flagIf topDir xmitTopDir
    status ≠ 0 ∧ status < 256 ∧ hasFlag status xmitSameName = false ∧
      hasFlag status xmitLongName = true ∧ hasFlag status xmitSameMode = sameMode ∧
      hasFlag status xmitSameTime = sameTime := by
  decide

theorem statusOf_status (w : Rsync27FileListWriter) (e : RsyncFileListEntry) :
    StatusOf w e (w.status e) := by
  obtain ⟨h1, h2, h3, h4, h5, h6⟩ := status_bits (decide (w.lastMode = some e.mode))
    (decide (w.lastMtime = some e.mtimeUnix))
    (decide (e.fileType = .directory) && decide (components e.path = [.curDir]))
  exact ⟨h1, h2, h3, h4, h5, h6⟩

variable {includeChecksums : Bool} {w : Rsync27FileListWriter} {st : Flist27ReadState}
  {e : RsyncFileListEntry} {status : Nat}

theorem roundTrips_pathLen (hs : StatusOf w e status) {path : Bytes} (h : path.length ≤ i32Max) :
    RoundTrips (writePathLen status path) () (readSuffixLen27 status) path.length := by
  unfold writePathLen readSuffixLen27
  rw [hs.longName, if_pos rfl, if_pos rfl, if_neg (Nat.not_lt.mpr h)]
  unfold i32Max at h
  refine (roundTrips_i32Le (by omega) (by omega)).bind_read ?_
  rw [if_neg (by omega)]
  rfl

theorem roundTrips_mtime27 (hs : StatusOf w e status) (h : InStep27 includeChecksums w st)
    (hmtime : InI32 e.mtimeUnix) :
    RoundTrips (writeMtime status e) () (readMtime27 st status) e.mtimeUnix := by
  unfold writeMtime readMtime27
  rw [hs.sameTime, ← h.mtime]
  by_cases hsame : w.lastMtime = some e.mtimeUnix
  · simp only [hsame, decide_true, if_true]
    exact roundTrips_ret () _
  · simp only [hsame, decide_false, checkedI32_of_le hmtime.1 hmtime.2]
    exact roundTrips_i32Le hmtime.1 hmtime.2

theorem roundTrips_mode27 (hs : StatusOf w e status) (h : InStep27 includeChecksums w st)
    (hmode : e.mode < 2 ^ 32) :
    RoundTrips (writeMode status e) () (readMode27 st status) e.mode := by
  unfold writeMode readMode27
  rw [hs.sameMode, ← h.mode]
  by_cases hsame : w.lastMode = some e.mode
  · simp only [hsame, decide_true, if_true]
    exact roundTrips_ret () _
  · simp only [hsame, decide_false]
    exact roundTrips_signedMode hmode

/-- What both sides remember after an entry. -/
def after (w : Rsync27FileListWriter) (e : RsyncFileListEntry) : Rsync27FileListWriter :=
  { w with lastMode := some e.mode, lastMtime := some e.mtimeUnix }

def readAfter (e : RsyncFileListEntry) : Flist27ReadState :=
  ⟨wirePathBytes e.path, some e.mode, some e.mtimeUnix⟩

theorem inStep27_after (h : InStep27 includeChecksums w st) :
    InStep27 includeChecksums (w.after e) (readAfter e) :=
  ⟨h.includes, h.not_finished, rfl, rfl⟩

theorem roundTrips_path27 {maxPathLen : Nat} {lastPath path : Bytes}
    (hmax : path.length ≤ maxPathLen) :
    RoundTrips (writeAll path) () (readPathRest maxPathLen lastPath 0 path.length) path := by
  unfold readPathRest sliceTo
  rw [if_pos (Nat.zero_le _), if_neg (by omega)]
  exact (roundTrips_writeAll (decodes_readExact rfl)).bind_read rfl

section Run

variable {γ β : Type} {maxEntries maxPathLen : Nat} {f : Rsync27FileListWriter → Writer γ} {c : γ}
  {k : List RsyncFileListEntry → Reader β} {out : β}

/-- The reader's turn of the loop for one entry; `f` and `k` are what the two
sides do afterwards. -/
theorem roundTrips_readEntries27_step {room : Nat} {stored : List RsyncFileListEntry}
    (h : InStep27 includeChecksums w st) (he : Wire27Entry includeChecksums e)
    (hmax : (wirePathBytes e.path).length ≤ maxPathLen)
    (hnext : RoundTrips (f (w.after e)) c
      (readEntries27 includeChecksums maxEntries maxPathLen room
        (stored ++ [received27 includeChecksums e]) (readAfter e) >>= k) out) :
    RoundTrips (w.writeEntry e >>= f) c
      (readEntries27 includeChecksums maxEntries maxPathLen (room + 1) stored st >>= k) out := by
  have hs := w.statusOf_status e
  have hbyte : (UInt8.ofNat (w.status e)).toNat = w.status e := toNat_ofNat_le (by have := hs.lt; omega)
  have hzero : UInt8.ofNat (w.status e) ≠ 0 := by
    intro heq
    rw [heq] at hbyte
    exact hs.ne_zero hbyte.symm
  have hinherited : readInherited27 st.lastPath (w.status e) = .ret 0 := by
    unfold readInherited27 readInheritedLen27
    rw [hs.sameName]
    rfl
  have hwire : (Prog.ofExcept (wirePathFromBytes (wirePathBytes e.path)) : Reader Bytes) =
      .ret (wirePathBytes e.path) := by
    rw [wirePathFromBytes_wirePathBytes he.path]
    rfl
  have htype : (Prog.ofExcept (fileTypeFromMode e.mode) : Reader WireFileType) =
      .ret e.fileType := by
    rw [he.fileType]
    rfl
  unfold writeEntry readEntries27
  simp only [Prog.bind_assoc]
  refine (roundTrips_u8 _).bind ?_
  rw [if_neg hzero, hbyte]
  unfold readEntry27
  simp only [Prog.bind_assoc]
  rw [hinherited, Prog.ret_bind]
  refine (roundTrips_pathLen hs he.path_len).bind ?_
  refine (roundTrips_path27 hmax).bind ?_
  refine (roundTrips_rsyncLong he.len).bind ?_
  refine (roundTrips_mtime27 hs h he.mtime).bind ?_
  refine (roundTrips_mode27 hs h he.mode).bind ?_
  rw [hwire, Prog.ret_bind, htype, Prog.ret_bind]
  have hchecksum : RoundTrips (writeChecksum w.includeChecksums e) ()
      (readFileChecksum { includeChecksums } e.fileType)
      (received27 includeChecksums e).checksum := by
    rw [h.includes]
    exact roundTrips_checksum he.checksum
  exact hchecksum.bind hnext

/-- The whole run over the entries that are left. -/
theorem roundTrips_readEntries27 :
    ∀ {rest stored : List RsyncFileListEntry} {w : Rsync27FileListWriter} {st : Flist27ReadState}
      {room : Nat}, InStep27 includeChecksums w st →
      (∀ e ∈ rest, Wire27Entry includeChecksums e ∧ (wirePathBytes e.path).length ≤ maxPathLen) →
      (∀ w' st', InStep27 includeChecksums w' st' →
        RoundTrips (f w') c
          (readEntries27 includeChecksums maxEntries maxPathLen room
            (stored ++ rest.map (received27 includeChecksums)) st' >>= k) out) →
      RoundTrips (rest.foldlM writeEntry w >>= f) c
        (readEntries27 includeChecksums maxEntries maxPathLen (room + rest.length) stored st
          >>= k) out
  | [], stored, w, st, room, h, _, hend => by
      have hend := hend w st h
      simpa using hend
  | e :: rest, stored, w, st, room, h, hall, hend => by
      obtain ⟨he, hlen⟩ := hall e (by simp)
      rw [List.foldlM_cons, Prog.bind_assoc]
      refine roundTrips_readEntries27_step h he hlen ?_
      refine roundTrips_readEntries27 (inStep27_after h) (fun x hx => hall x (by simp [hx])) ?_
      intro w' st' h'
      have hend := hend w' st' h'
      rwa [List.map_cons, ← List.singleton_append, ← List.append_assoc] at hend

/-- How the entries are cut into batches does not matter. -/
theorem roundTrips_readBatches27 :
    ∀ {batches : List (List RsyncFileListEntry)} {stored : List RsyncFileListEntry}
      {w : Rsync27FileListWriter} {st : Flist27ReadState} {room : Nat},
      InStep27 includeChecksums w st →
      (∀ e ∈ batches.flatten,
        Wire27Entry includeChecksums e ∧ (wirePathBytes e.path).length ≤ maxPathLen) →
      (∀ w' st', InStep27 includeChecksums w' st' →
        RoundTrips (f w') c
          (readEntries27 includeChecksums maxEntries maxPathLen room
            (stored ++ batches.flatten.map (received27 includeChecksums)) st' >>= k) out) →
      RoundTrips (batches.foldlM writeBatch w >>= f) c
        (readEntries27 includeChecksums maxEntries maxPathLen (room + batches.flatten.length)
          stored st >>= k) out
  | [], stored, w, st, room, h, _, hend => by
      have hend := hend w st h
      simpa using hend
  | batch :: batches, stored, w, st, room, h, hall, hend => by
      have hbatch : w.writeBatch batch = batch.foldlM writeEntry w := by
        simp [writeBatch, h.not_finished]
      have hroom : room + (batch :: batches).flatten.length =
          room + batches.flatten.length + batch.length := by
        rw [List.flatten_cons, List.length_append]
        omega
      rw [List.foldlM_cons, Prog.bind_assoc, hbatch, hroom]
      refine roundTrips_readEntries27 h (fun e he => hall e (by simp [he])) ?_
      intro w' st' h'
      refine roundTrips_readBatches27 h'
        (fun e he => hall e (by rw [List.flatten_cons]; exact List.mem_append_right _ he)) ?_
      intro w'' st'' h''
      have hend := hend w'' st'' h''
      rwa [List.flatten_cons, List.map_append, ← List.append_assoc] at hend

end Run

end Rsync27FileListWriter

theorem roundTrips_rsync27FileList {includeChecksums : Bool}
    {batches : List (List RsyncFileListEntry)} {maxEntries maxPathLen : Nat}
    (hentries : ∀ e ∈ batches.flatten, Wire27Entry includeChecksums e)
    (hmaxEntries : batches.flatten.length ≤ maxEntries)
    (hmaxPath : ∀ e ∈ batches.flatten, (wirePathBytes e.path).length ≤ maxPathLen) :
    RoundTrips (writeRsync27FileListBatches includeChecksums batches) ()
      (readRsync27FileListWithOptions maxEntries maxPathLen includeChecksums)
      (batches.flatten.map (received27 includeChecksums)) := by
  obtain ⟨room, rfl⟩ : ∃ room, maxEntries = room + batches.flatten.length :=
    ⟨maxEntries - batches.flatten.length, by omega⟩
  have hnew : InStep27 includeChecksums (Rsync27FileListWriter.new includeChecksums) {} :=
    ⟨rfl, rfl, rfl, rfl⟩
  unfold writeRsync27FileListBatches readRsync27FileListWithOptions
  rw [← Prog.bind_ret (readEntries27 includeChecksums _ maxPathLen _ [] {})]
  refine Rsync27FileListWriter.roundTrips_readBatches27 hnew
    (fun e he => ⟨hentries e he, hmaxPath e he⟩) ?_
  intro w st h
  unfold Rsync27FileListWriter.finish readEntries27
  rw [h.not_finished, List.nil_append]
  simp only [Bool.false_eq_true, if_false, Prog.bind_assoc]
  refine (roundTrips_u8 0).bind ?_
  rw [if_pos rfl]
  exact roundTrips_ret () _

/-! ## Times that do not fit -/

namespace Rsync27FileListWriter

/-- The last time a writer remembers went over the wire once. -/
def Timely (w : Rsync27FileListWriter) : Prop := ∀ t, w.lastMtime = some t → InI32 t

theorem inI32_of_checkedI32 {v r : Int} (h : checkedI32 v = some r) : InI32 v := by
  unfold checkedI32 at h
  split at h
  · assumption
  · cases h

/-- An entry that is written at all has a time that fits. -/
theorem writeEntry_returns {w w' : Rsync27FileListWriter} {e : RsyncFileListEntry}
    {acc acc' : List Bytes} (hw : w.Timely) (h : (w.writeEntry e).run calls acc = .ret w' acc') :
    InI32 e.mtimeUnix ∧ w'.Timely := by
  unfold writeEntry at h
  dsimp only at h
  obtain ⟨_, _, -, h⟩ := Prog.run_bind_eq_ret.mp h
  obtain ⟨_, _, -, h⟩ := Prog.run_bind_eq_ret.mp h
  obtain ⟨_, _, -, h⟩ := Prog.run_bind_eq_ret.mp h
  obtain ⟨_, _, -, h⟩ := Prog.run_bind_eq_ret.mp h
  obtain ⟨_, _, hmtime, h⟩ := Prog.run_bind_eq_ret.mp h
  obtain ⟨_, _, -, h⟩ := Prog.run_bind_eq_ret.mp h
  obtain ⟨_, _, -, h⟩ := Prog.run_bind_eq_ret.mp h
  have hfits : InI32 e.mtimeUnix := by
    unfold writeMtime at hmtime
    rw [(w.statusOf_status e).sameTime] at hmtime
    by_cases hsame : w.lastMtime = some e.mtimeUnix
    · exact hw _ hsame
    · cases hc : checkedI32 e.mtimeUnix with
      | none => simp [hsame, hc] at hmtime
      | some t => exact inI32_of_checkedI32 hc
  refine ⟨hfits, ?_⟩
  obtain ⟨rfl, -⟩ : w.after e = w' ∧ _ = acc' := by simpa [after] using h
  intro t ht
  rw [← Option.some.inj ht]
  exact hfits

theorem writeEntries_return : ∀ {entries : List RsyncFileListEntry}
    {w w' : Rsync27FileListWriter} {acc acc' : List Bytes}, w.Timely →
    (entries.foldlM writeEntry w).run calls acc = .ret w' acc' →
      (∀ e ∈ entries, InI32 e.mtimeUnix) ∧ w'.Timely
  | [], w, w', acc, acc', hw, h => by
      obtain ⟨rfl, -⟩ : w = w' ∧ acc = acc' := by simpa using h
      exact ⟨by simp, hw⟩
  | e :: entries, w, w', acc, acc', hw, h => by
      rw [List.foldlM_cons] at h
      obtain ⟨w1, acc1, hentry, hrest⟩ := Prog.run_bind_eq_ret.mp h
      obtain ⟨he, hw1⟩ := writeEntry_returns hw hentry
      obtain ⟨hall, hw'⟩ := writeEntries_return hw1 hrest
      exact ⟨by simpa using ⟨he, hall⟩, hw'⟩

theorem writeBatches_return : ∀ {batches : List (List RsyncFileListEntry)}
    {w w' : Rsync27FileListWriter} {acc acc' : List Bytes}, w.Timely →
    (batches.foldlM writeBatch w).run calls acc = .ret w' acc' →
      ∀ e ∈ batches.flatten, InI32 e.mtimeUnix
  | [], _, _, _, _, _, _ => by simp
  | batch :: batches, w, w', acc, acc', hw, h => by
      rw [List.foldlM_cons] at h
      obtain ⟨w1, acc1, hbatch, hrest⟩ := Prog.run_bind_eq_ret.mp h
      unfold writeBatch at hbatch
      split at hbatch
      · simp at hbatch
      · obtain ⟨hall, hw1⟩ := writeEntries_return hw hbatch
        have hlater := writeBatches_return hw1 hrest
        intro e he
        rw [List.flatten_cons] at he
        rcases List.mem_append.mp he with he | he
        · exact hall e he
        · exact hlater e he

end Rsync27FileListWriter

/-- A list with a time outside `i32` is not written, whether or not the entry
before has the same time. -/
theorem writeRsync27_fails {includeChecksums : Bool} {batches : List (List RsyncFileListEntry)}
    {e : RsyncFileListEntry} (he : e ∈ batches.flatten) (hmtime : ¬ InI32 e.mtimeUnix)
    (acc : List Bytes) :
    ∃ err acc', (writeRsync27FileListBatches includeChecksums batches).run calls acc =
      .fail err acc' := by
  cases h : (writeRsync27FileListBatches includeChecksums batches).run calls acc with
  | wait acc' => exact absurd h (run_calls_ne_wait _ _ _)
  | fail err acc' => exact ⟨err, acc', rfl⟩
  | ret u acc' =>
      obtain ⟨w, acc1, hbatches, -⟩ := Prog.run_bind_eq_ret.mp h
      have hnew : (Rsync27FileListWriter.new includeChecksums).Timely := fun t ht => by cases ht
      exact absurd (Rsync27FileListWriter.writeBatches_return hnew hbatches e he) hmtime

/-- A path that the reader accepts as it stands is its own wire form. -/
theorem wirePathBytes_of_accepted {path : Bytes} (h : wirePathFromBytes path = .ok path) :
    wirePathBytes path = path := by
  unfold wirePathFromBytes Str.fromUtf8 at h
  split at h
  · cases h
  · rename_i str hstr
    split at hstr
    · rename_i hvalid
      obtain rfl : ⟨path, hvalid⟩ = str := Option.some.inj hstr
      split at h
      · cases h
      · rename_i hback
        have hno : ∀ b ∈ path, b ≠ 0x5c := by
          rintro b hb rfl
          exact hback (mem_utf8Chars_of_mem (by decide) (Nat.le_refl _)
            (Option.some_get hvalid).symm hb)
        unfold wirePathBytes
        rw [lossyBytes_of_utf8 hvalid]
        refine (List.map_congr_left fun b hb => ?_).trans (List.map_id path)
        rw [if_neg (hno b hb)]
        rfl
    · cases hstr

/-- **Decode after encode, protocol 27.** Sendable entries, written in any
batches and finished, are read back one by one as `received27`, and the bytes
are consumed exactly; a path that the reader accepts as it stands comes back
the same. A time outside `i32` anywhere in the list makes the writer fail. -/
theorem readRsync27FileList_of_write {includeChecksums : Bool}
    {batches : List (List RsyncFileListEntry)} :
    (∀ {maxEntries maxPathLen : Nat},
      (∀ e ∈ batches.flatten, Wire27Entry includeChecksums e) →
      batches.flatten.length ≤ maxEntries →
      (∀ e ∈ batches.flatten, (wirePathBytes e.path).length ≤ maxPathLen) →
      RoundTrips (writeRsync27FileListBatches includeChecksums batches) ()
        (readRsync27FileListWithOptions maxEntries maxPathLen includeChecksums)
        (batches.flatten.map (received27 includeChecksums))) ∧
      (∀ e, wirePathFromBytes e.path = .ok e.path →
        (received27 includeChecksums e).path = e.path) ∧
      ∀ e ∈ batches.flatten, ¬ InI32 e.mtimeUnix → ∀ acc, ∃ err acc',
        (writeRsync27FileListBatches includeChecksums batches).run calls acc = .fail err acc' :=
  ⟨roundTrips_rsync27FileList, fun _ hpath => wirePathBytes_of_accepted hpath,
    fun _ he hmtime acc => writeRsync27_fails he hmtime acc⟩

theorem wire27Entry_checksummedDirectory : Wire27Entry true checksummedDirectory where
  path := wirePath_of_utf8 (by decide) (by rfl)
  path_len := by decide
  len := by simp [checksummedDirectory]
  mtime := by simp [checksummedDirectory, InI32]
  mode := by simp [checksummedDirectory]
  fileType := rfl
  checksum := by simp [checksummedDirectory]

theorem wire27Entry_sampleFile : Wire27Entry false (sampleFile [0x61] none) where
  path := wirePath_of_utf8 (by decide) (by rfl)
  path_len := by decide
  len := by simp [sampleFile, i64Max]
  mtime := by simp [sampleFile, InI32]
  mode := by simp [sampleFile]
  fileType := rfl
  checksum := by simp

/-- A file, written twice in two batches, comes back twice; with a time of
`2^31` the same list is refused. -/
theorem readRsync27FileList_file_twice :
    RoundTrips (writeRsync27FileListBatches false [[sampleFile [0x61] none],
        [sampleFile [0x61] none]]) ()
      (readRsync27FileListWithOptions 2 1 false)
      [sampleFile [0x61] none, sampleFile [0x61] none] ∧
    ∃ err acc', (writeRsync27FileListBatches false
      [[{ sampleFile [0x61] none with mtimeUnix := 2147483648 }]]).run calls [] = .fail err acc' := by
  refine ⟨readRsync27FileList_of_write.1 ?_ (by decide) (by decide), ?_⟩
  · simp [wire27Entry_sampleFile]
  · exact readRsync27FileList_of_write.2.2 { sampleFile [0x61] none with mtimeUnix := 2147483648 }
      (by simp) (by simp [InI32]) []

/-- A directory that carries a checksum satisfies every condition and comes back
without it. -/
theorem readRsync27FileList_drops_checksum :
    Wire27Entry true checksummedDirectory ∧
      wirePathFromBytes checksummedDirectory.path = .ok checksummedDirectory.path ∧
      RoundTrips (writeRsync27FileListBatches true [[checksummedDirectory]]) ()
        (readRsync27FileListWithOptions 1 1 true) [{ checksummedDirectory with checksum := none }] ∧
      checksummedDirectory.checksum ≠ none := by
  refine ⟨wire27Entry_checksummedDirectory, rfl, ?_, by simp [checksummedDirectory]⟩
  refine roundTrips_rsync27FileList ?_ (by decide) (by decide)
  simp [wire27Entry_checksummedDirectory]

end RsyncWin
