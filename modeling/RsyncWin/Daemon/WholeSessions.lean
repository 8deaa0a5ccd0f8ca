import RsyncWin.Daemon.Serve
import RsyncWin.Daemon.IndexAgreement
import RsyncWin.Remote.Push
import RsyncWin.Remote.Sessions

/-!
# Whole sessions with the daemon

The client's whole program against the daemon's, from the first marker behind the
setup to the last: the list goes over, is checked, sorted and filtered, the files
that are needed are asked for by index, and they arrive. What the daemon is told
by its surroundings is the same for the same question; the files of both sides
are on the two machines.

A list that keeps its order on the receiving side (`Listed.inOrder`) is one whose
indices mean the same on both sides.
-/

namespace RsyncWin

open ByteString Codec Duplex

/-! ## The daemon in its surroundings -/

/-- The daemon's program once its questions are answered: what is left is its talk
with the client and its work on files. -/
def answered (replies : (o : DaemonOp) → DaemonRet o) : (o : DaemonOp) → Session (DaemonRet o)
  | .transfer o => .call o .ret
  | o => .ret (replies o)

def DaemonSession.facing {α : Type} (replies : (o : DaemonOp) → DaemonRet o)
    (p : DaemonSession α) : Session α :=
  p.interp (answered replies)

section Facing

variable {α β : Type} (replies : (o : DaemonOp) → DaemonRet o)

@[simp] theorem facing_ret (a : α) :
    DaemonSession.facing replies (.ret a : DaemonSession α) = .ret a := rfl

@[simp] theorem facing_ofExcept (r : Except Error α) :
    DaemonSession.facing replies (Prog.ofExcept r : DaemonSession α) = Prog.ofExcept r := by
  cases r <;> rfl

@[simp] theorem facing_bind (p : DaemonSession α) (k : α → DaemonSession β) :
    DaemonSession.facing replies (p >>= k) =
      DaemonSession.facing replies p >>= fun a => DaemonSession.facing replies (k a) :=
  Prog.interp_bind _ p k

theorem facing_destination (dest : LocalPath) (k : DestinationFinds → DaemonSession α) :
    DaemonSession.facing replies (.call (.destination dest) k) =
      DaemonSession.facing replies (k (replies (.destination dest))) := rfl

/-- A stretch on the stream and the files stays what it is. -/
@[simp] theorem facing_transferring (p : Session α) :
    DaemonSession.facing replies (transferring p) = p := by
  induction p with
  | ret a => rfl
  | fail e => rfl
  | call o k ih => exact congrArg (Prog.call o) (funext ih)

end Facing

section Setup

variable (platform : Platform) (fuels : Fuels) (module : DaemonServerModule)
  (transfer : DaemonTransferArgs)

/-- The sending daemon behind its setup. -/
def sendBehindSetup : DaemonSession Unit := do
  let initial ← transferring (onMux readI32Le)
  if initial ≠ 0 then
    throw (.other s!"daemon receiver sent unexpected initial protocol 31 marker {initial}")
  else do
    let sources ← Prog.ofExcept (transfer.modulePaths module)
    let entries ← collectDaemonSourceEntries transfer sources
    transferring (toMux (writeRsync31FileListBatches transfer.protocol31FlistOptions
      [entries.map (·.wire)]))
    transferring (serveDaemonSenderRequestsProtocol31 platform.flate platform.hashes entries
      transfer.dryRun transfer.compression fuels.answers)

/-- The receiving daemon behind its setup. -/
def receiveBehindSetup : DaemonSession Unit := do
  let paths ← Prog.ofExcept (transfer.modulePaths module)
  match paths with
  | [] => throw (.other "daemon push requires a module destination path")
  | path :: _ => do
      let settings := transfer.settings (components path)
      transferring (awaitDeleteMarker transfer)
      let entries ← transferring (readListOnMux settings fuels)
      let entries := sortRemoteEntriesForSenderIndexes entries
      Prog.ofExcept (validateRemoteFileListPaths platform entries)
      receiveListed platform fuels transfer (components path) entries

/-- The setup is written before the stream is multiplexed. -/
theorem serveDaemon_setup :
    serveDaemonSenderProtocol31 platform fuels module transfer = (do
      transferring sendProtocol31Setup
      sendBehindSetup platform fuels module transfer) ∧
    serveDaemonReceiverProtocol31 platform fuels module transfer = (do
      transferring sendProtocol31Setup
      receiveBehindSetup platform fuels module transfer) := ⟨rfl, rfl⟩

end Setup

/-! ## A list on its way -/

/-- A list that can be sent, what is received of it, and that it keeps its order there. -/
structure Listed (options : RsyncFileListOptions) (sources : List RemoteSourceEntry)
    (listed : List RsyncFileListEntry) : Prop where
  fake : options.fakeSuper = true → options.xattrs = true
  entries : ∀ source ∈ sources, WireEntry options source.wire
  groups : GroupsAgree (sources.map (·.wire))
  few : sources.length ≤ defaultMaxFileListEntries
  short : ∀ source ∈ sources, (wirePathBytes source.wire.path).length ≤ defaultMaxFileListPathLen
  comes : listed = (sources.map (·.wire)).map (received options (sources.map (·.wire)))
  inOrder : sortRemoteEntriesForSenderIndexes listed = listed

namespace Listed

variable {options : RsyncFileListOptions} {sources : List RemoteSourceEntry}
  {listed : List RsyncFileListEntry}

theorem roundTrips (h : Listed options sources listed) {batches : List (List RsyncFileListEntry)}
    (hbatches : batches.flatten = sources.map (·.wire)) {fuel : Nat} (hfuel : 1 ≤ fuel) :
    RoundTrips (writeRsync31FileListBatches options batches) ()
      (readRsync31FileListWithMetadata fuel defaultMaxFileListEntries defaultMaxFileListPathLen
        options) listed := by
  have hlen : batches.flatten.length = sources.length := by rw [hbatches, List.length_map]
  have hfew := h.few
  have hbound : defaultMaxFileListEntries ≤ i32Max := by decide
  rw [h.comes, ← hbatches]
  refine roundTrips_rsync31FileList h.fake ?_ ?_ (by omega) (by omega) ?_ hfuel
  · rw [hbatches]
    exact List.forall_mem_map.mpr h.entries
  · rw [hbatches]
    exact h.groups
  · rw [hbatches]
    exact List.forall_mem_map.mpr h.short

/-- Place by place the same file. -/
theorem sameFiles (h : Listed options sources listed) : List.Forall₂ SameFile listed sources := by
  rw [h.comes, List.map_map, List.forall₂_map_left_iff]
  exact List.forall₂_same.mpr fun source _ => ⟨rfl, rfl⟩

theorem length_le (h : Listed options sources listed) : listed.length ≤ i32Max := by
  rw [h.comes, List.length_map, List.length_map]
  exact h.few.trans (by decide)

/-- What stands at an index, on both sides. -/
theorem at_index (h : Listed options sources listed) {i : Nat} {source : RemoteSourceEntry}
    (hsource : sources[i]? = some source) :
    listed[i]? = some (received options (sources.map (·.wire)) source.wire) := by
  rw [h.comes, List.getElem?_map, List.getElem?_map, hsource]
  rfl

/-- What has been delivered by index is there by name. -/
theorem arrives (h : Listed options sources listed) {request : RemoteSenderFileRequest}
    (hentries : request.entries = listed) {processId : Nat} {sender : SenderSide}
    (hsources : sender.entries = sources) {m m' w : Machine}
    (hdelivered : Delivered request processId sender w request.allWanted m m')
    (hdry : request.dryRun = false) {i : Nat} (hi : i ∈ request.selectedIndexes)
    {source : RemoteSourceEntry} (hsource : sources[i]? = some source)
    (hfile : source.wire.fileType = .file) :
    m'.files (request.dest.join (wirePathBytes source.wire.path)) = w.files source.path := by
  have hentry := h.at_index hsource
  refine hdelivered.arrived hdry (received options (sources.map (·.wire)) source.wire, i) ?_ source
    (by rw [hsources]; exact hsource)
  unfold RemoteSenderFileRequest.allWanted RemoteSenderFileRequest.wanted
  rw [List.mem_filter, List.mem_zipIdx_iff_getElem?, hentries]
  refine ⟨hentry, ?_⟩
  exact Bool.and_eq_true_iff.mpr ⟨decide_eq_true hfile, List.contains_iff_mem.mpr hi⟩

end Listed

theorem eq_of_perm_of_map_eq {α β : Type} {f : α → β} {xs ys : List α} (hperm : xs.Perm ys)
    (hmap : xs.map f = ys.map f) (hnodup : (ys.map f).Nodup) : xs = ys := by
  apply List.ext_getElem hperm.length_eq
  intro i hi hj
  have hsame : f xs[i] = f ys[i] := by
    have hget := congrArg (·[i]?) hmap
    simpa [hi, hj] using hget
  exact List.inj_on_of_nodup_map hnodup (hperm.subset (List.getElem_mem hi)) (List.getElem_mem hj)
    hsame

/-- The walk over one source keeps its order where file names come first. -/
theorem inOrder_of_filesFirst {options : LocalSourceCollectOptions} {source : Source}
    {flistOptions : RsyncFileListOptions} (h : source.Sorted) (hfirst : source.FilesFirst options) :
    let wire := (collectLocalSourceEntries options source).map (·.wire)
    sortRemoteEntriesForSenderIndexes (wire.map (received flistOptions wire)) =
      wire.map (received flistOptions wire) := by
  intro wire
  have hns : WalkedNames (sourceNames options source) := walkedNames_sourceNames h
  have hpaths : wire.map (·.path) = (sourceNames options source).map fun p => wirePathOf p.1 := by
    have hwalk := congrArg (List.map Prod.fst) (@collectSingle_eq_sourceNames options source h)
    rw [List.map_map, List.map_map, ← collectLocalSourceEntries_eq_walk h] at hwalk
    exact List.map_map.trans hwalk
  have hplain : (wire.map (received flistOptions wire)).map (·.path) =
      (sourceNames options source).map fun p => wirePathOf p.1 := by
    calc (wire.map (received flistOptions wire)).map (·.path)
      _ = wire.map (wirePathBytes ∘ (·.path)) := List.map_map
      _ = (wire.map (·.path)).map wirePathBytes := List.map_map.symm
      _ = ((sourceNames options source).map fun p => wirePathOf p.1).map wirePathBytes := by
          rw [hpaths]
      _ = (sourceNames options source).map fun p => wirePathOf p.1 := by
          rw [List.map_map]
          exact List.map_congr_left fun p hp => wirePathBytes_wirePathOf (hns.valid p hp)
  have hsorted : (sortRemoteEntriesForSenderIndexes (wire.map (received flistOptions wire))).map
      (·.path) = (sourceNames options source).map fun p => wirePathOf p.1 := by
    have hkept := (@decodedSenderEntries_paths_iff options source flistOptions h).mpr hfirst
    rw [← collectLocalSourceEntries_eq_walk h] at hkept
    exact (hkept.trans List.map_map.symm).trans hpaths
  refine eq_of_perm_of_map_eq (sortBy_perm _ _) (hsorted.trans hplain.symm) ?_
  rw [hplain]
  refine List.pairwise_map.mpr (hns.increasing.imp_of_mem ?_)
  intro p q hp hq hlt heq
  have hnames := components_wirePathOf_inj (fun n hn => (hns.valid p hp n hn).text)
    (fun n hn => (hns.valid q hq n hn).text) (congrArg components heq)
  have hself : compare q.1 q.1 = .eq := Std.ReflOrd.compare_self
  rw [hnames, hself] at hlt
  cases hlt

/-! ## Preparing -/

section Prepare

variable {platform : Platform} {s : PullSettings} {finds : DestinationFinds} {m : Machine}

theorem exchange_createDirUnlessDry (hcalm : m.faults = []) (path : LocalPath) :
    Exchange machine (createDirUnlessDry s path) m [] [] (.createDir path) m := by
  unfold createDirUnlessDry
  split
  · exact exchange_ret _ m
  · have hmake : Exchange machine (perform (.createDirAll path)) m [] [] () m :=
      exchange_perform hcalm rfl
    exact hmake.bind_ret rfl

theorem exchange_createDestination (hcalm : m.faults = []) :
    ∃ actions, Exchange machine (createDestination s finds) m [] [] actions m := by
  unfold createDestination
  split
  · exact ⟨[], exchange_ret _ m⟩
  · exact ⟨[.createDir s.dest], (exchange_createDirUnlessDry hcalm s.dest).bind_ret rfl⟩

theorem exchange_createListedDirectories (hcalm : m.faults = []) :
    ∀ entries : List RsyncFileListEntry,
      ∃ actions, Exchange machine (createListedDirectories s entries) m [] [] actions m
  | [] => ⟨[], exchange_ret _ m⟩
  | entry :: entries => by
      obtain ⟨actions, hrest⟩ := exchange_createListedDirectories hcalm entries
      unfold createListedDirectories
      split
      · exact ⟨actions, hrest⟩
      · exact ⟨_, (exchange_createDirUnlessDry hcalm _).before (hrest.bind_ret rfl)⟩

theorem preflight_ok_iff {paths : List Bytes} :
    windowsDestinationPathPreflight platform paths = .ok () ↔
      preflightDestinationPaths platform.nfc platform.toLowercase paths = .ok () := by
  unfold windowsDestinationPathPreflight
  cases preflightDestinationPaths platform.nfc platform.toLowercase paths with
  | ok u =>
      cases u
      exact ⟨fun _ => rfl, fun _ => rfl⟩
  | error e => exact ⟨(fun h => nomatch h), (fun h => nomatch h)⟩

/-- A part of a list passes where the list does. -/
theorem preflight_selected {entries : List RsyncFileListEntry} (indexes : List Nat)
    (h : validateRemoteFileListPaths platform entries = .ok ()) :
    windowsDestinationPathPreflight platform
      (destinationRelatives (selectedRemoteEntries entries indexes)) = .ok () := by
  have hsub : (destinationRelatives (selectedRemoteEntries entries indexes)).Sublist
      (destinationRelatives entries) := by
    unfold destinationRelatives selectedRemoteEntries
    refine List.Sublist.map _ (List.Sublist.filter _ ?_)
    have hzip : (entries.zipIdx.map (·.1)) = entries := by simp
    conv_rhs => rw [← hzip]
    exact List.Sublist.map _ List.filter_sublist
  have hwhole := (preflightDestinationPaths_ok_iff _ _).mp (preflight_ok_iff.mp h)
  refine preflight_ok_iff.mpr ((preflightDestinationPaths_ok_iff _ _).mpr ⟨?_, ?_⟩)
  · intro path hpath
    exact hwhole.1 path (hsub.subset hpath)
  · exact hwhole.2.sublist (hsub.map _)

theorem validate_of_acceptList {entries accepted : List RsyncFileListEntry}
    (h : acceptList platform s entries = .ok accepted) :
    validateRemoteFileListPaths platform accepted = .ok () := by
  unfold acceptList at h
  obtain ⟨_, -, h⟩ := except_bind_ok h
  obtain ⟨_, hpaths, h⟩ := except_bind_ok h
  obtain ⟨_, -, h⟩ := except_bind_ok h
  obtain rfl := Except.ok.inj h
  exact hpaths

/-- The indices that the destination asks for. -/
def PullSettings.Selects (s : PullSettings) (finds : DestinationFinds)
    (listed : List RsyncFileListEntry) (indexes : List Nat) : Prop :=
  selectedRemoteTransferIndexes (finds.view 0) s.dest
    (selectedRemoteEntryIndexes listed s.plan.filterRules s.filesFrom) s.updateMode listed.zipIdx =
      .ok indexes

/-- The directories are made, and the indices are what the destination asks for. -/
theorem exchange_prepareTransfer (hcalm : m.faults = []) {entries : List RsyncFileListEntry}
    {indexes : List Nat} (hpaths : validateRemoteFileListPaths platform entries = .ok ())
    (hselects : s.Selects finds entries indexes) :
    ∃ actions, Exchange machine (prepareTransfer platform s finds entries) m [] []
      (actions, indexes) m := by
  obtain ⟨created, hcreated⟩ := @exchange_createDestination s finds m hcalm
  obtain ⟨made, hmade⟩ := @exchange_createListedDirectories s m hcalm (selectedRemoteEntries entries
    (selectedRemoteEntryIndexes entries s.plan.filterRules s.filesFrom))
  refine ⟨created ++ made, ?_⟩
  have hpreflight := preflight_selected
    (selectedRemoteEntryIndexes entries s.plan.filterRules s.filesFrom) hpaths
  unfold PullSettings.Selects at hselects
  unfold prepareTransfer
  simp only [hpreflight, hselects, Prog.ofExcept_ok, Prog.ret_bind]
  exact hcreated.before (hmade.bind_ret rfl)

end Prepare

/-! ## One file to look at -/

/-- The file of `aabSource`, which a module without a directory serves. -/
def aabModule : DaemonServerModule where
  name := ['m']

def aabMeta : SourceMeta where
  len := 3
  mtimeUnix := 0
  mode := 0o100644
  checksum := []
  hardlinkGroup := none
  metadata := {}

def aabTransfer : DaemonTransferArgs where
  sender := true
  paths := [['f']]
  preserveTimes := true

def aabPlatform : Platform where
  nfc chars := chars
  toLowercase c := [c.toLower]
  entryOverhead := 0
  processId := 7
  flate := storedFlate
  hashes := md4Hashes

def nothingThere : DestinationFinds where
  destExists := true
  view _ := { metadata := fun _ => none, checksumLocalPath := fun _ => .error notFound }

def aabReplies : (o : DaemonOp) → DaemonRet o
  | .readLine _ => .ok none
  | .readArgs _ => .ok []
  | .writeLine _ => .ok ()
  | .now => (0 : Nat)
  | .readSecrets _ => .error notFound
  | .source _ _ _ => .ok (.file aabMeta)
  | .destination _ => nothingThere
  | .deleteLocalExtras _ _ _ _ => .ok []
  | .transfer (.recv _) => .error notFound
  | .transfer (.send _) => ()
  | .transfer (.loc _) => .error notFound

def aabSettings : PullSettings where
  plan := { trustSender := true, remoteDirection := none, remoteOperands := [] }
  dest := []
  preserveTimes := true
  blockSize := 1
  checksum := .plainMd4
  finalChecksum := .plainMd4

theorem wireEntry_aab : WireEntry {} aabEntry where
  path := wirePath_of_utf8 (by decide) rfl
  path_len := by decide
  len := by decide
  mtime := by simp [aabEntry, TimeInRange]
  mode := by decide
  fileType := if_pos (show modeType 0o100644 = 0o100000 by decide)
  checksum := by simp
  uid := by simp [aabEntry]
  gid := by simp [aabEntry]
  userName := rfl
  groupName := rfl
  atime := by simp [aabEntry]
  crtime := by simp [aabEntry]
  xattrs_len := Nat.zero_le _
  xattrs := by simp [aabEntry]

theorem listed_aab : Listed {} [aabSource] [aabEntry] where
  fake := by simp
  entries := by
    intro source hsource
    obtain rfl := List.mem_singleton.mp hsource
    exact wireEntry_aab
  groups := by
    intro e he f hf
    simp_all [aabSource, aabEntry]
  few := by decide
  short := by decide
  comes := by decide
  inOrder := rfl

/-! ## Pull -/

/-- The client and the daemon have settled one and the same transfer: whole list,
whole files, no compression, no limits. -/
structure PullSettings.Agrees (s : PullSettings) (transfer : DaemonTransferArgs) : Prop where
  form : s.fileListOptions = transfer.protocol31FlistOptions
  dryRun : transfer.dryRun = s.dryRun
  checksum : s.checksum = .plainMd4
  finalChecksum : s.finalChecksum = .plainMd4
  blockSize : 0 < s.blockSize
  blockSize_le : s.blockSize ≤ i32Max
  noAppend : s.appendVerify = false
  plain : s.compression = none
  plainThere : transfer.compression = none
  unlimited : s.maxAlloc = none
  unhurried : s.stopDeadline = none

theorem PullSettings.Agrees.sameTransfer {platform : Platform} {s : PullSettings}
    {transfer : DaemonTransferArgs} (h : s.Agrees transfer) (listed : List RsyncFileListEntry)
    (sources : List RemoteSourceEntry) (indexes : List Nat) :
    SameTransfer (s.request listed indexes) (s.receiveContext platform listed)
      (daemonSender sources transfer.dryRun none) where
  dest := rfl
  entries := rfl
  offset := rfl
  ctxOffset := rfl
  dryRun := rfl
  senderDryRun hdry := h.dryRun.symm.trans hdry
  checksum := h.checksum.symm
  finalChecksum := h.finalChecksum
  blockSize := h.blockSize
  blockSize_le := h.blockSize_le
  noAppend := rfl
  noAppendHere := h.noAppend
  plain := rfl
  plainHere := h.plain
  unlimited := rfl
  unlimitedHere := h.unlimited
  unlimitedRequest := h.unlimited
  unhurried := rfl
  unhurriedHere := h.unhurried
  unhurriedRequest := h.unhurried

/-- What the two machines have to hold for the files behind some indices of a list. -/
structure Ready (hashes : Hashes) (request : RemoteSenderFileRequest) (ctx : RemoteReceiveContext)
    (sources : List RemoteSourceEntry) (m w : Machine) : Prop where
  calm : m.faults = []
  senderCalm : w.faults = []
  apart : request.Apart ctx.processId (request.wanted request.entries 0)
  files : ∀ i entry source, request.entries[i]? = some entry → sources[i]? = some source →
    request.wants entry i = true → ∃ content, Transferable hashes request ctx m w entry source content

section Pull

variable {platform : Platform} {s : PullSettings} {finds : DestinationFinds} {fuels served : Fuels}
  {module : DaemonServerModule} {transfer : DaemonTransferArgs}
  {replies : (o : DaemonOp) → DaemonRet o} {paths : List Bytes} {sources : List RemoteSourceEntry}
  {indexes : List Nat} {m w : Machine}

/-- The sending daemon, once it has walked its sources. -/
theorem facing_sendBehindSetup (hpaths : transfer.modulePaths module = .ok paths)
    (hwalk : (collectDaemonSourceEntries transfer paths).facing replies = .ret sources) :
    (sendBehindSetup platform served module transfer).facing replies = (do
      let initial ← onMux readI32Le
      if initial ≠ 0 then
        throw (.other s!"daemon receiver sent unexpected initial protocol 31 marker {initial}")
      else do
        toMux (writeRsync31FileListBatches transfer.protocol31FlistOptions
          [sources.map (·.wire)])
        serveDaemonSenderRequestsProtocol31 platform.flate platform.hashes sources
          transfer.dryRun transfer.compression served.answers) := by
  unfold sendBehindSetup
  rw [hpaths]
  simp only [facing_bind, facing_transferring]
  refine congrArg (_ >>= ·) (funext fun initial => ?_)
  split
  · rfl
  · simp only [Prog.ofExcept_ok, Prog.ret_bind, facing_bind, facing_transferring, hwalk]

end Pull

/-! ## Push -/

/-- The same of a push to a daemon. -/
structure PushSettings.Agrees (s : PushSettings) (transfer : DaemonTransferArgs) : Prop where
  form : transfer.protocol31FlistOptions = s.fileListOptions
  dryRun : transfer.dryRun = s.dryRun
  daemonOperand : s.daemonOperand = true
  nothingDeleted : s.delete = false
  nothingDeletedThere : transfer.delete = false
  checksum : s.checksum = .ok .plainMd4
  blockSize : 0 < transfer.blockSize
  blockSize_le : transfer.blockSize ≤ i32Max
  noAppend : s.appendVerify = false
  noAppendThere : transfer.appendVerify = false
  plain : s.compression = .ok none
  plainThere : transfer.compression = none
  unlimited : s.maxAlloc = none
  unhurried : s.stopDeadline = none

/-- The client as a sender. -/
def PushSettings.sender (s : PushSettings) (sources : List RemoteSourceEntry) : SenderSide :=
  clientSender sources s.dryRun s.appendVerify .plainMd4
    { compression := none, maxAlloc := s.maxAlloc, stopDeadline := s.stopDeadline }

theorem PushSettings.Agrees.sameTransfer {platform : Platform} {s : PushSettings}
    {transfer : DaemonTransferArgs} (h : s.Agrees transfer) (dest : LocalPath)
    (listed : List RsyncFileListEntry) (sources : List RemoteSourceEntry) (indexes : List Nat) :
    SameTransfer ((transfer.settings dest).request listed indexes)
      ((transfer.settings dest).receiveContext platform listed) (s.sender sources) where
  dest := rfl
  entries := rfl
  offset := rfl
  ctxOffset := rfl
  dryRun := rfl
  senderDryRun hdry := h.dryRun.trans hdry
  checksum := rfl
  finalChecksum := rfl
  blockSize := h.blockSize
  blockSize_le := h.blockSize_le
  noAppend := h.noAppend
  noAppendHere := h.noAppendThere
  plain := rfl
  plainHere := by
    show transfer.compression.map (·.mode) = none
    rw [h.plainThere]
    rfl
  unlimited := h.unlimited
  unlimitedHere := rfl
  unlimitedRequest := rfl
  unhurried := h.unhurried
  unhurriedHere := rfl
  unhurriedRequest := rfl

section Push

variable {platform : Platform} {s : PushSettings} {fuels : Fuels} {sendFuel : Nat}
  {module : DaemonServerModule} {transfer : DaemonTransferArgs}
  {replies : (o : DaemonOp) → DaemonRet o} {path : Bytes} {paths : List Bytes}
  {walked : WalkedSources} {listed : List RsyncFileListEntry} {indexes : List Nat} {m w : Machine}

/-- The receiving daemon, once it has looked at its destination. -/
theorem facing_receiveListed (hdelete : transfer.delete = false) (dest : LocalPath)
    (entries : List RsyncFileListEntry) :
    (receiveListed platform fuels transfer dest entries).facing replies = (do
      let settings := transfer.settings dest
      let (_actions, transferIndexes) ← prepareTransfer platform settings
        (replies (.destination dest)) entries
      let _received ← receivePushedFiles platform.flate platform.hashes
        (settings.request entries transferIndexes) (settings.receiveContext platform entries)
        fuels.chunks fuels.answers
      pure ()) := by
  unfold receiveListed prepareTransfer deleteExtras
  simp only [facing_bind, facing_transferring, facing_ofExcept, facing_destination, if_pos hdelete,
    Prog.bind_assoc, Prog.pure_eq, Prog.ret_bind, facing_ret]
  rfl

theorem facing_receiveBehindSetup (hpaths : transfer.modulePaths module = .ok (path :: paths))
    (hdelete : transfer.delete = false) :
    (receiveBehindSetup platform fuels module transfer).facing replies = (do
      let entries ← readListOnMux (transfer.settings (components path)) fuels
      Prog.ofExcept (validateRemoteFileListPaths platform
        (sortRemoteEntriesForSenderIndexes entries))
      (receiveListed platform fuels transfer (components path)
        (sortRemoteEntriesForSenderIndexes entries)).facing replies) := by
  unfold receiveBehindSetup awaitDeleteMarker
  rw [hpaths, if_pos hdelete]
  simp only [Prog.ofExcept_ok, Prog.ret_bind, facing_bind, facing_transferring, facing_ofExcept]
  rfl

/-- The client's program where nothing is deleted, compressed or sorted again. -/
theorem push_plain (h : s.Agrees transfer) :
    executeRemotePushProtocol31WithHandshake platform s sendFuel walked = (do
      let entries ← sendFileList platform s walked
      serveRemoteReceiverRequestsProtocol31 platform.flate platform.hashes entries s.dryRun
        s.appendVerify .plainMd4
        { compression := none, maxAlloc := s.maxAlloc, stopDeadline := s.stopDeadline }
        sendFuel) := by
  unfold executeRemotePushProtocol31WithHandshake writeDeleteMarker PushSettings.served
  rw [if_neg (by simp [h.nothingDeleted]), h.plain, h.checksum]
  simp only [if_pos h.daemonOperand, Prog.ofExcept_ok, Prog.pure_eq, Prog.ret_bind]

def aabReceive : DaemonTransferArgs where
  paths := [['.']]
  preserveTimes := true
  blockSize := 1

def aabPush : PushSettings where
  daemonOperand := true
  checksum := .ok .plainMd4

end Push

end RsyncWin
