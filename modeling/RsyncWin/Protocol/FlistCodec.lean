import RsyncWin.Protocol.FlistFields

/-!
# The protocol-31 file list: decode after encode

Where the files of a hard-link group agree, the writer and the reader stay in
step: after every entry they hold the same last values, and the writer's table
of hard-link groups names the indices under which the reader has stored the
first file of each group (`InStep`). Then every entry comes back as it was sent,
up to what the options leave out.
-/

namespace RsyncWin

open ByteString Codec

open Rsync31FileListWriter in
/-- The fields the receiver stores for an entry, under the number `group` of
its hard-link group. -/
def receivedFields (options : RsyncFileListOptions) (group : Option RsyncHardLinkGroup)
    (e : RsyncFileListEntry) : FlistFields where
  fileType := e.fileType
  len := e.len
  mtime := e.mtimeUnix
  mode := e.mode
  checksum := if options.includeChecksums ∧ e.fileType = .file then e.checksum else none
  hardlinkGroup := group
  metadata :=
    { uid := if options.preserveOwner then some (uidOf e) else none
      gid := if options.preserveGroup then some (gidOf e) else none
      atimeUnix :=
        if options.atimes ∧ e.fileType ≠ .directory then some (atimeOf e) else none
      crtimeUnix := if options.crtimes then some (crtimeOf e) else none }

/-! ## Hard-link groups -/

/-- Where the first file of a group stands in the list. -/
def firstIndex (entries : List RsyncFileListEntry) (group : RsyncHardLinkGroup) : Nat :=
  entries.findIdx fun e => decide (Rsync31FileListWriter.groupOf e = some group)

/-- The entry the receiver ends up with: the wire form of the path, absent
fields where the options leave them out, defaults where the sender had nothing,
and the group numbered by the index of its first file. -/
def received (options : RsyncFileListOptions) (entries : List RsyncFileListEntry)
    (e : RsyncFileListEntry) : RsyncFileListEntry :=
  let group := (Rsync31FileListWriter.groupOf e).map fun g => ⟨0, firstIndex entries g⟩
  let fields := receivedFields options group e
  { path := wirePathBytes e.path
    fileType := fields.fileType
    len := fields.len
    mtimeUnix := fields.mtime
    mode := fields.mode
    checksum := fields.checksum
    hardlinkGroup := fields.hardlinkGroup
    metadata := { fields.metadata with
      xattrs := if options.xattrs then e.metadata.xattrs else [] } }

/-- Files of one hard-link group are one file: they agree on everything a back
reference copies. -/
def GroupsAgree (entries : List RsyncFileListEntry) : Prop :=
  ∀ e ∈ entries, ∀ f ∈ entries, e.fileType = .file → f.fileType = .file →
    e.hardlinkGroup.isSome → e.hardlinkGroup = f.hardlinkGroup →
      e.mode = f.mode ∧ e.mtimeUnix = f.mtimeUnix ∧ e.len = f.len ∧ e.checksum = f.checksum ∧
      e.metadata.uid = f.metadata.uid ∧ e.metadata.gid = f.metadata.gid ∧
      e.metadata.atimeUnix = f.metadata.atimeUnix ∧ e.metadata.crtimeUnix = f.metadata.crtimeUnix

/-- What a back reference copies is what the referring entry would have sent. -/
theorem GroupsAgree.receivedFields_eq {entries : List RsyncFileListEntry}
    (h : GroupsAgree entries) {e f : RsyncFileListEntry} {g : RsyncHardLinkGroup}
    (hf : f ∈ entries) (he : e ∈ entries)
    (hgf : Rsync31FileListWriter.groupOf f = some g)
    (hge : Rsync31FileListWriter.groupOf e = some g)
    (options : RsyncFileListOptions) (group : Option RsyncHardLinkGroup) :
    receivedFields options group f = receivedFields options group e := by
  obtain ⟨hft, hfg⟩ := groupOf_eq_some.mp hgf
  obtain ⟨het, heg⟩ := groupOf_eq_some.mp hge
  obtain ⟨hmode, hmtime, hlen, hsum, huid, hgid, hatime, hcrtime⟩ :=
    h f hf e he hft het (by simp [hfg]) (by rw [hfg, heg])
  simp only [receivedFields, Rsync31FileListWriter.uidOf, Rsync31FileListWriter.gidOf,
    Rsync31FileListWriter.atimeOf, Rsync31FileListWriter.crtimeOf, hft, het, hmode, hmtime, hlen,
    hsum, huid, hgid, hatime, hcrtime]

/-- The last values both ends hold are the same. -/
structure SameLast (w : Rsync31FileListWriter) (st : FlistReadState) : Prop where
  path : w.lastPath = st.lastPath
  mode : w.lastMode = st.lastMode
  mtime : w.lastMtime = st.lastMtime
  uid : w.lastUid = st.lastUid
  gid : w.lastGid = st.lastGid
  userName : st.lastUserName = none
  groupName : st.lastGroupName = none
  atime : w.lastAtime = st.lastAtime

/-- The invariant of the list: `done` has been written and read. -/
structure InStep (options : RsyncFileListOptions) (done : List RsyncFileListEntry)
    (w : Rsync31FileListWriter) (st : FlistReadState) : Prop where
  options_eq : w.options = options
  not_finished : w.finished = false
  last : SameLast w st
  next : w.nextIndex = done.length
  groups : ∀ g, List.lookup g w.hardlinkGroups =
    done.findIdx? fun e => decide (Rsync31FileListWriter.groupOf e = some g)

section Loop

open Rsync31FileListWriter

variable {options : RsyncFileListOptions} {all done rest : List RsyncFileListEntry}
  {w : Rsync31FileListWriter} {st : FlistReadState} {e : RsyncFileListEntry}

theorem InStep.new (options : RsyncFileListOptions) :
    InStep options [] (Rsync31FileListWriter.new options) {} where
  options_eq := rfl
  not_finished := rfl
  last := ⟨rfl, rfl, rfl, rfl, rfl, rfl, rfl, rfl⟩
  next := rfl
  groups := fun _ => rfl

theorem InStep.after (h : InStep options done w st) (all : List RsyncFileListEntry) :
    InStep options (done ++ [e]) (w.recordEntryState e)
      (st.after options (wirePathBytes e.path) (received options all e)) where
  options_eq := h.options_eq
  not_finished := h.not_finished
  last := by
    have hl := h.last
    have ho := h.options_eq
    constructor
    · rfl
    · rfl
    · rfl
    · simp only [recordEntryState, FlistReadState.after, received, receivedFields, ho, hl.uid]
      split <;> simp_all
    · simp only [recordEntryState, FlistReadState.after, received, receivedFields, ho, hl.gid]
      split <;> simp_all
    · simp [FlistReadState.after, received, receivedFields, hl.userName]
    · simp [FlistReadState.after, received, receivedFields, hl.groupName]
    · simp only [recordEntryState, FlistReadState.after, received, receivedFields, ho, hl.atime]
      split <;> simp_all
  next := by simp [recordEntryState, h.next]
  groups := lookup_recordGroup h.next h.groups

/-- The place of a group's first file does not change as the list grows. -/
theorem firstIndex_of_findIdx? {g : RsyncHardLinkGroup} {i : Nat}
    (h : done.findIdx? (fun e => decide (groupOf e = some g)) = some i) :
    firstIndex (done ++ rest) g = i := by
  have happ : (done ++ rest).findIdx? (fun e => decide (groupOf e = some g)) = some i := by
    rw [List.findIdx?_append, h]
    rfl
  exact (List.findIdx?_eq_some_iff_findIdx_eq.mp happ).2

/-- One entry of a list in step. -/
theorem InStep.readBackEntry_eq (h : InStep options done w st) (hall : all = done ++ e :: rest)
    (hagree : GroupsAgree all) (he : WireEntry options e) :
    readBackEntry options w st (done.map (received options all)) e = received options all e := by
  have hl := h.last
  cases href : w.hardlinkReference e with
  | none =>
      have hcrtime : (if crtimeOf e = e.mtimeUnix then e.mtimeUnix else crtimeOf e) =
          crtimeOf e := by
        split
        · exact Eq.symm ‹_›
        · rfl
      have hbody : readBackBody options w st (done.map (received options all)) e =
          receivedFields options (if (groupOf e).isSome then some ⟨0, done.length⟩ else none) e := by
        simp [readBackBody, href, readBackFields, receivedFields, recalledName, hl.mode, hl.mtime,
          hl.uid, hl.gid, hl.atime, hl.userName, hl.groupName, he.userName, he.groupName,
          recalled_self, hcrtime]
      have hgroup : (if (groupOf e).isSome then some (⟨0, done.length⟩ : RsyncHardLinkGroup)
          else none) = (groupOf e).map fun g => ⟨0, firstIndex all g⟩ := by
        cases hge : groupOf e with
        | none => rfl
        | some g =>
            have hlook : List.lookup g w.hardlinkGroups = none := by
              simpa [hardlinkReference, hge] using href
            have hfind : (done ++ [e]).findIdx? (fun e => decide (groupOf e = some g)) =
                some done.length := by
              rw [List.findIdx?_append, ← h.groups g, hlook]
              simp [hge]
            have hfirst : firstIndex all g = done.length := by
              rw [hall, List.append_cons]
              exact firstIndex_of_findIdx? hfind
            simp [hfirst]
      rw [readBackEntry, hbody, hgroup]
      rfl
  | some i =>
      obtain ⟨g, hge, hlook⟩ := Option.bind_eq_some_iff.mp href
      have hfind : done.findIdx? (fun e => decide (groupOf e = some g)) = some i := by
        rw [← h.groups g, hlook]
      have hfirst : firstIndex all g = i := by
        rw [hall]
        exact firstIndex_of_findIdx? hfind
      obtain ⟨hi, hgf, -⟩ := List.findIdx?_eq_some_iff_getElem.mp hfind
      have hgf : groupOf done[i] = some g := of_decide_eq_true hgf
      have hget : (done.map (received options all))[i]? = some (received options all done[i]) := by
        rw [List.getElem?_map, List.getElem?_eq_getElem hi]
        rfl
      have hsame := hagree.receivedFields_eq (f := done[i]) (e := e)
        (by rw [hall]; exact List.mem_append_left _ (List.getElem_mem hi))
        (by rw [hall]; simp) hgf hge options
      have hbody : readBackBody options w st (done.map (received options all)) e =
          copiedFields i (received options all done[i]) := by
        simp only [readBackBody, href, Option.bind_some, hget, Option.map_some]
      rw [readBackEntry, hbody]
      simp only [received, copiedFields, hge, hgf, hsame, Option.map_some]
      rfl

/-- The whole run over the entries that are left. -/
theorem InStep.readBackFrom_eq (hagree : GroupsAgree all)
    (hentries : ∀ e ∈ all, WireEntry options e) :
    ∀ {rest done : List RsyncFileListEntry} {w : Rsync31FileListWriter} {st : FlistReadState},
      InStep options done w st → all = done ++ rest →
      readBackFrom options w st (done.map (received options all)) rest =
        all.map (received options all)
  | [], done, w, st, _, hall => by
      rw [hall, List.append_nil]
      rfl
  | e :: rest, done, w, st, h, hall => by
      have he := hentries e (by simp [hall])
      have hall' : all = (done ++ [e]) ++ rest := by simp [hall]
      have hnext := InStep.readBackFrom_eq hagree hentries (h.after all) hall'
      rw [List.map_append, List.map_singleton] at hnext
      rw [readBackFrom, h.readBackEntry_eq hall hagree he]
      exact hnext

theorem readBack_eq_received (hagree : GroupsAgree all)
    (hentries : ∀ e ∈ all, WireEntry options e) :
    readBack options all = all.map (received options all) :=
  (InStep.new options).readBackFrom_eq hagree hentries rfl

end Loop

/-! ## The list -/

theorem groupOf_firstIndex {entries : List RsyncFileListEntry} {g : RsyncHardLinkGroup}
    (h : firstIndex entries g < entries.length) :
    Rsync31FileListWriter.groupOf (entries.get ⟨firstIndex entries g, h⟩) = some g :=
  of_decide_eq_true (List.findIdx_getElem (w := h))

/-- Groups are numbered apart: the numbering is by the place of a member. -/
theorem firstIndex_inj {entries : List RsyncFileListEntry} {e : RsyncFileListEntry}
    {g h : RsyncHardLinkGroup} (he : e ∈ entries)
    (hg : Rsync31FileListWriter.groupOf e = some g)
    (heq : firstIndex entries g = firstIndex entries h) : g = h := by
  have hlt : firstIndex entries g < entries.length :=
    List.findIdx_lt_length_of_exists ⟨e, he, by simpa using hg⟩
  have hgm := groupOf_firstIndex hlt
  have hhm := groupOf_firstIndex (g := h) (heq ▸ hlt)
  simp only [heq] at hgm
  rw [hgm] at hhm
  exact Option.some.inj hhm

section List

variable {options : RsyncFileListOptions} {batches : List (List RsyncFileListEntry)}
  {maxEntries maxPathLen fuel : Nat}

/-- The bytes of a list of sendable entries are read back as `received`. -/
theorem roundTrips_rsync31FileList
    (hfake : options.fakeSuper = true → options.xattrs = true)
    (hentries : ∀ e ∈ batches.flatten, WireEntry options e)
    (hagree : GroupsAgree batches.flatten) (hcount : batches.flatten.length ≤ i32Max)
    (hmaxEntries : batches.flatten.length ≤ maxEntries)
    (hmaxPath : ∀ e ∈ batches.flatten, (wirePathBytes e.path).length ≤ maxPathLen)
    (hfuel : 1 ≤ fuel) :
    RoundTrips (writeRsync31FileListBatches options batches) ()
      (readRsync31FileListWithMetadata fuel maxEntries maxPathLen options)
      (batches.flatten.map (received options batches.flatten)) := by
  rw [← readBack_eq_received hagree hentries]
  exact roundTrips_readBack hfake (fun e he => (hentries e he).sendable) hcount hmaxEntries hmaxPath
    hfuel

/-- Two files share a group on the receiver exactly when they do on the sender. -/
theorem received_group_eq_iff {entries : List RsyncFileListEntry} {e f : RsyncFileListEntry}
    (he : e ∈ entries) (het : e.fileType = .file) (hft : f.fileType = .file) :
    (received options entries e).hardlinkGroup = (received options entries f).hardlinkGroup ↔
      e.hardlinkGroup = f.hardlinkGroup := by
  have hge : Rsync31FileListWriter.groupOf e = e.hardlinkGroup := if_pos het
  have hgf : Rsync31FileListWriter.groupOf f = f.hardlinkGroup := if_pos hft
  simp only [received, receivedFields, hge, hgf]
  cases heg : e.hardlinkGroup with
  | none => cases hfg : f.hardlinkGroup <;> simp
  | some g =>
      cases hfg : f.hardlinkGroup with
      | none => simp
      | some h =>
          simp only [Option.map_some, Option.some.injEq, RsyncHardLinkGroup.mk.injEq, true_and]
          constructor
          · intro heq
            exact firstIndex_inj he (hge.trans heg) heq
          · rintro rfl
            rfl

/-- **Decode after encode.** A list of sendable entries, written in any batches
and finished, is read back entry by entry as `received`; the bytes are consumed
exactly. The hard-link groups of the result partition the files as the groups
of the sender do. -/
theorem readRsync31FileList_of_write
    (hfake : options.fakeSuper = true → options.xattrs = true)
    (hentries : ∀ e ∈ batches.flatten, WireEntry options e)
    (hagree : GroupsAgree batches.flatten) (hcount : batches.flatten.length ≤ i32Max)
    (hmaxEntries : batches.flatten.length ≤ maxEntries)
    (hmaxPath : ∀ e ∈ batches.flatten, (wirePathBytes e.path).length ≤ maxPathLen)
    (hfuel : 1 ≤ fuel) :
    RoundTrips (writeRsync31FileListBatches options batches) ()
        (readRsync31FileListWithMetadata fuel maxEntries maxPathLen options)
        (batches.flatten.map (received options batches.flatten)) ∧
      ∀ e ∈ batches.flatten, ∀ f ∈ batches.flatten, e.fileType = .file → f.fileType = .file →
        ((received options batches.flatten e).hardlinkGroup =
            (received options batches.flatten f).hardlinkGroup ↔
          e.hardlinkGroup = f.hardlinkGroup) := by
  refine ⟨roundTrips_rsync31FileList hfake hentries hagree hcount hmaxEntries hmaxPath hfuel, ?_⟩
  intro e he f _ het hft
  exact received_group_eq_iff he het hft

end List

/-- A regular file of two bytes. -/
def sampleFile (path : Bytes) (group : Option RsyncHardLinkGroup) : RsyncFileListEntry :=
  { path, fileType := .file, len := 2, mtimeUnix := 7, mode := 0o100644, hardlinkGroup := group }

theorem wireEntry_sampleFile {path : Bytes} (h : WirePath path)
    (hlen : (wirePathBytes path).length ≤ i32Max) (group : Option RsyncHardLinkGroup) :
    WireEntry {} (sampleFile path group) where
  path := h
  path_len := hlen
  len := by simp [sampleFile]
  mtime := by simp [sampleFile, TimeInRange]
  mode := by simp [sampleFile]
  fileType := if_pos (show modeType 0o100644 = 0o100000 by decide)
  checksum := by simp
  uid := by simp [sampleFile]
  gid := by simp [sampleFile]
  userName := rfl
  groupName := rfl
  atime := by simp [sampleFile]
  crtime := by simp [sampleFile]
  xattrs_len := Nat.zero_le _
  xattrs := by simp [sampleFile]

theorem wirePath_of_utf8 {path : Bytes} (h : (utf8Chars (wirePathBytes path)).isSome = true)
    (hv : validateWirePath ⟨wirePathBytes path, h⟩ = .ok ()) : WirePath path :=
  ⟨⟨wirePathBytes path, h⟩, rfl, hv⟩

/-- Two hard-linked files in two batches: the second comes back under the
number of the first. -/
theorem readRsync31FileList_linked_pair :
    RoundTrips
      (writeRsync31FileListBatches {}
        [[sampleFile [0x61] (some ⟨5, 9⟩)], [sampleFile [0x62] (some ⟨5, 9⟩)]]) ()
      (readRsync31FileListWithMetadata 1 2 1 {})
      [sampleFile [0x61] (some ⟨0, 0⟩), sampleFile [0x62] (some ⟨0, 0⟩)] := by
  have ha : WireEntry {} (sampleFile [0x61] (some ⟨5, 9⟩)) :=
    wireEntry_sampleFile (wirePath_of_utf8 (by decide) (by rfl)) (by decide) _
  have hb : WireEntry {} (sampleFile [0x62] (some ⟨5, 9⟩)) :=
    wireEntry_sampleFile (wirePath_of_utf8 (by decide) (by rfl)) (by decide) _
  refine (readRsync31FileList_of_write (by simp) ?_ ?_ (by decide) (by decide) (by decide)
    (by decide)).1
  · simp [ha, hb]
  · intro e he f hf
    rcases List.mem_pair.mp he with rfl | rfl <;> rcases List.mem_pair.mp hf with rfl | rfl <;>
      simp [sampleFile]

/-! ## Where the list does not come back as it was -/

/-- A directory that carries a checksum. -/
def checksummedDirectory : RsyncFileListEntry :=
  { path := [0x64], fileType := .directory, len := 0, mtimeUnix := 7, mode := 0o040755,
    checksum := some (List.replicate 16 1) }

def sampleXattr : RsyncXattrPayload := ⟨⟨[0x6e], by decide⟩, []⟩

/-- A file with the given xattrs. -/
def xattrFile (xattrs : List RsyncXattrPayload) : RsyncFileListEntry :=
  { sampleFile [0x61] none with metadata := { xattrs } }

theorem wireEntry_checksummedDirectory :
    WireEntry { includeChecksums := true } checksummedDirectory where
  path := wirePath_of_utf8 (by decide) (by rfl)
  path_len := by decide
  len := by simp [checksummedDirectory]
  mtime := by simp [checksummedDirectory, TimeInRange]
  mode := by simp [checksummedDirectory]
  fileType :=
    (if_neg (show ¬ modeType 0o040755 = 0o100000 by decide)).trans
      (if_pos (show modeType 0o040755 = 0o040000 by decide))
  checksum := by simp [checksummedDirectory]
  uid := by simp [checksummedDirectory]
  gid := by simp [checksummedDirectory]
  userName := rfl
  groupName := rfl
  atime := by simp [checksummedDirectory]
  crtime := by simp [checksummedDirectory]
  xattrs_len := Nat.zero_le _
  xattrs := by simp [checksummedDirectory]

/-- A count the varint writer refuses stops the list. -/
theorem run_writeXattrPayload_fail {xattrs : List RsyncXattrPayload}
    (hlo : i32Max < xattrs.length) (hhi : xattrs.length < 2 ^ 32) (acc : List Bytes) :
    ∃ acc', (writeXattrPayload xattrs).run calls acc = .fail varintOverflow acc' := by
  obtain ⟨cs, hw, -⟩ := roundTrips_varint (n := 0) (Nat.zero_le _)
  refine ⟨acc ++ cs, ?_⟩
  unfold writeXattrPayload
  rw [Prog.run_bind_ret (hw acc), Nat.mod_eq_of_lt hhi]
  refine Prog.run_bind_fail ?_ _
  rw [writeVarint, if_pos hlo]
  rfl

theorem not_writes_xattrFile {xattrs : List RsyncXattrPayload}
    (hlo : i32Max < xattrs.length) (hhi : xattrs.length < 2 ^ 32) (cs : List Bytes) :
    ¬ Writes (writeRsync31FileListBatches { xattrs := true } [[xattrFile xattrs]]) cs () := by
  have hsample : WireEntry {} (sampleFile [0x61] none) :=
    wireEntry_sampleFile (wirePath_of_utf8 (by decide) (by rfl)) (by decide) _
  have hplain : WireEntry { xattrs := true } (sampleFile [0x61] none) :=
    { hsample with checksum := by simp }
  have hf := (Rsync31FileListWriter.new { xattrs := true }).flagsOf_entryFlags
    (sampleFile [0x61] none)
  obtain ⟨c₁, hflags, -⟩ := roundTrips_varint hf.le_max
  obtain ⟨c₂, hpath, -⟩ := roundTrips_path hf hplain.path_len (le_refl _)
  obtain ⟨c₃, hfields, -⟩ := roundTrips_fields hf (Along.new { xattrs := true }).remembers rfl
    hplain.sendable 0
  obtain ⟨acc', hfail⟩ := run_writeXattrPayload_fail hlo hhi ([] ++ c₁ ++ c₂ ++ c₃)
  -- up to the xattrs the entry is the plain file
  have hentry : ((Rsync31FileListWriter.new { xattrs := true }).writeEntry (xattrFile xattrs)).run
      calls [] = .fail varintOverflow acc' := by
    refine (Prog.run_bind_ret (hflags []) _).trans ?_
    refine (Prog.run_bind_ret (hpath _) _).trans ?_
    refine (Prog.run_bind_ret (hfields _) _).trans ?_
    exact Prog.run_bind_fail hfail _
  have hrun : (writeRsync31FileListBatches { xattrs := true } [[xattrFile xattrs]]).run calls [] =
      .fail varintOverflow acc' :=
    Prog.run_bind_fail (Prog.run_bind_fail (Prog.run_bind_fail hentry _) _) _
  intro hw
  rw [hw []] at hrun
  cases hrun

/-- Entries that pass every check and do not come back as they were: the
checksum of a directory is not sent, a backslash is sent as a slash, and a
count beyond the varint range is refused. -/
theorem readRsync31FileList_not_identity :
    (WireEntry { includeChecksums := true } checksummedDirectory ∧
      RoundTrips (writeRsync31FileListBatches { includeChecksums := true }
          [[checksummedDirectory]]) ()
        (readRsync31FileListWithMetadata 1 1 1 { includeChecksums := true })
        [{ checksummedDirectory with checksum := none }] ∧
      checksummedDirectory.checksum ≠ none) ∧
    ((∃ p : Str, p.bytes = [0x61, 0x5c, 0x62] ∧ validateWirePath p = .ok ()) ∧
      WireEntry {} (sampleFile [0x61, 0x5c, 0x62] none) ∧
      RoundTrips (writeRsync31FileListBatches {} [[sampleFile [0x61, 0x5c, 0x62] none]]) ()
        (readRsync31FileListWithMetadata 1 1 3 {}) [sampleFile [0x61, 0x2f, 0x62] none]) ∧
    ((∀ x ∈ List.replicate (i32Max + 1) sampleXattr, WireXattr x) ∧
      ∀ cs, ¬ Writes (writeRsync31FileListBatches { xattrs := true }
        [[xattrFile (List.replicate (i32Max + 1) sampleXattr)]]) cs ()) := by
  have hback : WireEntry {} (sampleFile [0x61, 0x5c, 0x62] none) :=
    wireEntry_sampleFile (wirePath_of_utf8 (by decide) (by rfl)) (by decide) _
  refine ⟨⟨wireEntry_checksummedDirectory, ?_, by simp [checksummedDirectory]⟩,
    ⟨⟨⟨[0x61, 0x5c, 0x62], by decide⟩, rfl, by rfl⟩, hback, ?_⟩, ?_, ?_⟩
  · refine roundTrips_rsync31FileList (by simp) ?_ ?_ (by decide) (by decide) (by decide)
      (by decide)
    · simp [wireEntry_checksummedDirectory]
    · intro e he f hf
      simp_all [checksummedDirectory]
  · refine roundTrips_rsync31FileList (by simp) ?_ ?_ (by decide) (by decide) (by decide)
      (by decide)
    · simp [hback]
    · intro e he f hf
      simp_all [sampleFile]
  · intro x hx
    obtain rfl := List.eq_of_mem_replicate hx
    exact ⟨by decide, by decide, by decide, by decide⟩
  · refine not_writes_xattrFile ?_ ?_
    · rw [List.length_replicate]
      exact Nat.lt_succ_self _
    · rw [List.length_replicate]
      decide

end RsyncWin
