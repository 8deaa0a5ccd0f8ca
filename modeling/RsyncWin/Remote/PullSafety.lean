import RsyncWin.Lib.Excepts
import RsyncWin.Remote.Confinement
import RsyncWin.Remote.Pull

/-!
# Pulling from a peer nobody vouches for

For every receiving session: what it touches lies near the target of an entry
that passed the checks, and so below the destination; a dry run touches nothing;
and no index is asked for twice, however many lists come in. The argument is
one for all sessions. An index is asked for by the request loop only, which
keeps the list of what it has asked for equal to what can be read off the
history (`guards_requestFileIndexes`); everything else is silent.
-/

namespace RsyncWin

open ByteString Codec Duplex Prog

/-! ## What is asked for -/

abbrev SessionCall : Type := Call (sig Error localSig)

def askedIndex (c : SessionCall) : Option Int :=
  match c.1 with
  | .loc (.note (.wroteIndex index)) => if 0 ≤ index then some index else none
  | _ => none

def askedIn (past : List SessionCall) : List Int := past.filterMap askedIndex

theorem askedIn_append (past : List SessionCall) (c : SessionCall) :
    askedIn (past ++ [c]) = askedIn past ++ (askedIndex c).toList := by
  unfold askedIn
  rw [List.filterMap_append]
  cases h : askedIndex c <;> simp [h]

/-- Allowed paths only, and no index a second time. -/
def Careful (allowed : LocalPath → Prop) (past : List SessionCall) : Op localSig → Prop
  | .recv _ => True
  | .send _ => True
  | .loc o => (∀ path ∈ o.paths, allowed path) ∧
      ∀ index, o = .note (.wroteIndex index) → 0 ≤ index → index ∉ askedIn past

/-- A session that keeps to the allowed paths on any machine and in front of any peer, and asks
for nothing twice. -/
structure Confined {α : Type} (allowed : LocalPath → Prop) (p : Session α) : Prop where
  calls : Does (fun o => ∀ path ∈ o.paths, allowed path) p
  files : ∀ (K : Link Error) (s s' : Solo K Machine), s' ∈ p.states (soloHandler K machine) s →
    ∀ path, ¬ allowed path → s'.mem.files path = s.mem.files path
  asksOnce : ∀ t q, Goes p t q → (askedIn t).Nodup

variable {α β : Type} {allowed : LocalPath → Prop} {past : List SessionCall}

theorem confined_of_guards {p : Session α} {Q : α → List SessionCall → Prop}
    (h : p.Guards (Careful allowed) Q []) : Confined allowed p := by
  have hcalls : Does (fun o => ∀ path ∈ o.paths, allowed path) p := by
    refine h.calls ?_
    intro past o ho
    cases o with
    | recv n => trivial
    | send bs => trivial
    | loc o => exact ho.1
  refine ⟨hcalls, ?_, ?_⟩
  · intro K s s' hs' path hpath
    have hkept := ensures_of_calls (K := K) (H := machine)
      (I := fun m : Machine => m.files path = s.mem.files path) hcalls ?_ (s := s) rfl
    · exact hkept.always s' hs'
    · intro o m r m' ho hm hrun
      rw [machine_frame hrun, hm]
      exact fun hwrites => hpath (ho path (LocalOp.mem_paths_of_writes hwrites))
  · intro t q hgo
    refine h.always (J := fun past => (askedIn past).Nodup) ?_ List.nodup_nil hgo
    intro past o ho hnodup r
    rw [askedIn_append]
    cases hasked : askedIndex ⟨o, r⟩ with
    | none => simpa using hnodup
    | some index =>
        obtain ⟨hnote, hnonneg⟩ : o = .loc (.note (.wroteIndex index)) ∧ 0 ≤ index := by
          unfold askedIndex at hasked
          split at hasked
          · split at hasked
            · rename_i hle
              obtain rfl := Option.some.inj hasked
              exact ⟨‹_›, hle⟩
            · cases hasked
          · cases hasked
        subst hnote
        rw [Option.toList_some, List.nodup_append]
        refine ⟨hnodup, List.nodup_singleton index, ?_⟩
        rintro asked hmem _ hnew rfl
        rw [List.mem_singleton] at hnew
        exact ho.2 index rfl hnonneg (hnew ▸ hmem)

/-- A silent stretch leaves what was asked for as it is. -/
theorem guards_of_does {p : Session α} (h : Does (Touches allowed) p) {asked : List Int}
    (hpast : askedIn past = asked) :
    p.Guards (Careful allowed) (fun _ past => askedIn past = asked) past := by
  refine (Calls.guards h (J := fun past => askedIn past = asked) ?_ hpast).returning
    fun _ _ hQ => hQ.2
  intro past o ho hasked
  cases o with
  | recv n => exact ⟨trivial, fun r => by rw [askedIn_append, hasked]; exact List.append_nil _⟩
  | send bs => exact ⟨trivial, fun r => by rw [askedIn_append, hasked]; exact List.append_nil _⟩
  | loc o =>
      refine ⟨⟨ho.allowed, fun index hnote _ => absurd hnote (ho.silent index)⟩, fun r => ?_⟩
      have hnone : askedIndex ⟨.loc o, r⟩ = none := by
        unfold askedIndex
        split
        · rename_i index hnote
          exact absurd (Op.loc.inj hnote) (ho.silent index)
        · rfl
      rw [askedIn_append, hnone, hasked]
      exact List.append_nil _

theorem Does.then {p : Session α} {k : α → Session β} {Q : β → List SessionCall → Prop}
    (h : Does (Touches allowed) p)
    (hk : ∀ a past', askedIn past' = askedIn past → (k a).Guards (Careful allowed) Q past') :
    (p >>= k).Guards (Careful allowed) Q past :=
  Guards.bind ((guards_of_does h rfl).returning hk)

theorem guards_ofExcept_bind {r : Except Error α} {k : α → Session β}
    {Q : β → List SessionCall → Prop} (hk : ∀ a, r = .ok a → (k a).Guards (Careful allowed) Q past) :
    (Prog.ofExcept r >>= k).Guards (Careful allowed) Q past := by
  cases r with
  | ok a => exact hk a rfl
  | error e => trivial

/-- The note of an index is careful where the index is new. -/
theorem guards_writeRsync31Index (state : RsyncIndexState) (index : Int)
    (hnew : 0 ≤ index → index ∉ askedIn past) :
    (writeRsync31Index state index).Guards (Careful allowed)
      (fun _ past' => askedIn past' =
        askedIn past ++ (if 0 ≤ index then [index] else [])) past := by
  refine (does_toMux (P := Touches allowed) _).then fun state past' hpast => ?_
  refine ⟨⟨by simp [LocalOp.paths], ?_⟩, ?_⟩
  · rintro _ hnote hnonneg
    obtain rfl := Event.wroteIndex.inj (LocalOp.note.inj hnote)
    rw [hpast]
    exact hnew hnonneg
  · rintro r
    cases r with
    | error e => trivial
    | ok u =>
        show askedIn (past' ++ [_]) = _
        rw [askedIn_append, hpast]
        congr 1
        by_cases hnonneg : 0 ≤ index <;> simp [askedIndex, hnonneg]

/-! ## The request loop -/

section Requests

variable {hashes : Hashes} {request : RemoteSenderFileRequest}

theorem does_localBasisSignatureRequest {checksum : RemoteFileChecksum} {path : LocalPath}
    (hpath : allowed path) (blockSize : Nat) (wholeFile : Bool) (maxAlloc : Option Nat) :
    Does (Touches allowed)
      (localBasisSignatureRequest hashes checksum path blockSize wholeFile maxAlloc) := by
  refine calls_ite (fun _ => trivial) fun _ => ?_
  refine (calls_loc ⟨by simpa [LocalOp.paths] using hpath, by simp⟩).bind fun found _ => ?_
  split
  · refine calls_ite (fun _ => trivial) fun _ => calls_ite (fun _ => trivial) fun _ => ?_
    refine (does_ofExcept _).bind fun _ _ => (does_ofExcept _).bind fun _ _ => ?_
    have hread : Does (Touches allowed)
        (generateSignaturesFromPath hashes checksum path blockSize) :=
      calls_ite (fun _ => trivial) fun _ => (does_openFile hpath).bind fun _ _ => does_ofExcept _
    exact hread.bind fun _ _ => calls_ite (fun _ => trivial) fun _ => trivial
  · trivial

theorem does_writeSignatureRequest {entry : RsyncFileListEntry}
    (hpath : request.dryRun = false → allowed (request.dest.join entry.path)) :
    Does (Touches allowed) (writeSignatureRequest hashes request entry) :=
  calls_ite (fun _ => trivial) fun hreal =>
    (does_localBasisSignatureRequest (hpath (Bool.eq_false_iff.mpr hreal)) _ _ _).bind
      fun _ _ => does_toMux _

/-- The wire carries an index as it is where lists are not shifted. -/
theorem remoteWireIndex_zero {index : Nat} {wire : Int}
    (h : remoteWireIndex index 0 = .ok wire) : wire = index := by
  unfold remoteWireIndex checkedI32 at h
  split at h
  · cases h
  · rw [add_zero] at h
    split at h
    · rename_i wire' hwire
      split at hwire
      · rw [← Except.ok.inj h, ← Option.some.inj hwire]
      · cases hwire
    · cases h

/-- The request loop asks for what it has not asked for and records it. -/
theorem guards_requestFileIndexes (hoffset : request.indexOffset = 0)
    (hpaths : ∀ entry ∈ request.entries, entry.fileType = .file → request.dryRun = false →
      allowed (request.dest.join entry.path)) :
    ∀ {pairs : List (RsyncFileListEntry × Nat)} {r : RequestState} {past : List SessionCall},
      (∀ p ∈ pairs, p.1 ∈ request.entries) →
      askedIn past = r.requestedIndexes.map Int.ofNat →
      (requestFileIndexes hashes request pairs r).Guards (Careful allowed)
        (fun r past => askedIn past = r.requestedIndexes.map Int.ofNat) past
  | [], r, past, _, hpast => hpast
  | (entry, index) :: rest, r, past, hpairs, hpast => by
      have hrest : ∀ p ∈ rest, p.1 ∈ request.entries :=
        fun p hp => hpairs p (List.mem_cons_of_mem _ hp)
      unfold requestFileIndexes
      refine (does_checkTransferDeadline touches_now _).then fun _ past' hpast' => ?_
      rw [hpast] at hpast'
      split
      · exact guards_requestFileIndexes hoffset hpaths hrest hpast'
      · rename_i hnot
        rw [not_or] at hnot
        have hfile : entry.fileType = .file := by
          have hwants := hnot.1
          unfold RemoteSenderFileRequest.wants at hwants
          simp only [Bool.not_eq_false, Bool.and_eq_true, decide_eq_true_eq] at hwants
          exact hwants.1
        refine Guards.bind ?_
        unfold requestRemoteSenderFile
        refine guards_ofExcept_bind fun wire hwire => ?_
        rw [hoffset] at hwire
        obtain rfl := remoteWireIndex_zero hwire
        refine Guards.bind ((guards_writeRsync31Index r.indexState (index : Int) ?_).returning
          fun indexState past'' hasked => ?_)
        · intro _ hmem
          rw [hpast'] at hmem
          obtain ⟨index', hmem', heq⟩ := List.mem_map.mp hmem
          obtain rfl := Int.ofNat.inj heq
          exact hnot.2 (by simpa using hmem')
        · refine (does_toMux _).then fun _ past₁ hpast₁ => ?_
          refine (does_writeSignatureRequest (hpaths entry (hpairs _ List.mem_cons_self) hfile)).then
            fun _ past₂ hpast₂ => ?_
          refine guards_requestFileIndexes hoffset hpaths hrest ?_
          rw [hpast₂, hpast₁, hasked, hpast', if_pos (Int.natCast_nonneg index)]
          simp [RequestState.requested]

theorem guards_requestRemoteSenderFileIndexes (hoffset : request.indexOffset = 0)
    (hpaths : ∀ entry ∈ request.entries, entry.fileType = .file → request.dryRun = false →
      allowed (request.dest.join entry.path)) {r : RequestState}
    (hpast : askedIn past = r.requestedIndexes.map Int.ofNat) :
    (requestRemoteSenderFileIndexesProtocol31 hashes request r).Guards (Careful allowed)
      (fun r past => askedIn past = r.requestedIndexes.map Int.ofNat) past := by
  refine guards_requestFileIndexes hoffset hpaths (fun p hp => ?_) hpast
  exact (List.mem_zipIdx' hp).2 ▸ List.getElem_mem _

/-- Asking for nothing at the end of a phase. -/
theorem guards_writeDone (state : RsyncIndexState) {asked : List Int}
    (hpast : askedIn past = asked) :
    (writeRsync31Index state rsyncIndexDone).Guards (Careful allowed)
      (fun _ past => askedIn past = asked) past := by
  have hneg : ¬ (0 : Int) ≤ rsyncIndexDone := by decide
  refine (guards_writeRsync31Index state rsyncIndexDone fun h => absurd h hneg).returning
    fun _ past' h => ?_
  rw [h, if_neg hneg, hpast]
  exact List.append_nil asked

end Requests

/-! ## Places below the destination -/

def Below (dest path : LocalPath) : Prop := ∃ names : List Bytes, path = dest ++ names.map .normal

theorem components_ne_nil {path : Bytes} (h : path ≠ []) : components path ≠ [] := by
  obtain ⟨first, rest, hsplit⟩ := List.exists_cons_of_ne_nil (List.splitOn_ne_nil slash path)
  have hjoin := joinNames_splitOn path
  rw [hsplit] at hjoin
  intro hnil
  unfold components at hnil
  dsimp only at hnil
  split at hnil
  · cases hnil
  · rename_i hhead
    split at hnil
    · cases hnil
    · rename_i hdot
      rw [hsplit, List.head?_cons, Option.some.injEq] at hdot
      rw [hsplit, List.filterMap_cons] at hnil
      by_cases hfirst : first = []
      · -- an empty first part stands before a slash, or is all there is
        subst hfirst
        cases rest with
        | nil => exact h (by rw [← hjoin]; rfl)
        | cons second rest =>
            refine hhead ?_
            rw [← hjoin, joinNames, List.intercalate_cons_cons]
            rfl
      · have hnamed : ∃ c, namedComponent first = some c := by
          unfold namedComponent
          rw [if_neg (not_or.mpr ⟨hfirst, hdot⟩)]
          split
          · exact ⟨_, rfl⟩
          · exact ⟨_, rfl⟩
        obtain ⟨c, hc⟩ := hnamed
        rw [hc] at hnil
        cases hnil

theorem normal_of_validateComponents {path : Bytes} : ∀ {parts : List Component},
    validateComponents path parts = .ok () → ∃ names : List Bytes, parts = names.map .normal
  | [], _ => ⟨[], rfl⟩
  | .normal name :: rest, h => by
      unfold validateComponents at h
      split at h
      · cases h
      · obtain ⟨names, rfl⟩ := normal_of_validateComponents h
        exact ⟨name :: names, rfl⟩
  | .rootDir :: _, h => by cases h
  | .curDir :: _, h => by cases h
  | .parentDir :: _, h => by cases h

/-- What the preflight accepts only adds names to wherever it is put. -/
theorem join_of_portable (dest : LocalPath) {path : Bytes}
    (h : validatePortableRelativePath path = .ok ()) :
    ∃ names, names ≠ [] ∧ dest.join path = dest ++ names.map .normal := by
  unfold validatePortableRelativePath at h
  split at h
  · cases h
  · rename_i hne
    obtain ⟨names, hnames⟩ := normal_of_validateComponents h
    refine ⟨names, ?_, ?_⟩
    · rintro rfl
      exact components_ne_nil hne hnames
    · have hroot : (names.map Component.normal).head? ≠ some .rootDir := by
        cases names <;> simp
      have hkept : (names.map Component.normal).filter (· ≠ .curDir) =
          names.map Component.normal := by
        rw [List.filter_eq_self]
        intro c hc
        obtain ⟨name, -, rfl⟩ := List.mem_map.mp hc
        rfl
      unfold LocalPath.join
      dsimp only
      rw [hnames, if_neg hroot, hkept]

/-- The places a receiver has to do with, for entries of a kind. -/
inductive MayTouch (accepted : RsyncFileListEntry → Prop) (processId : Nat) (dest : LocalPath) :
    LocalPath → Prop
  | dest : MayTouch accepted processId dest dest
  | directory {entry : RsyncFileListEntry} (h : accepted entry)
      (hdirectory : entry.fileType = .directory) :
      MayTouch accepted processId dest (dest.join entry.path)
  | file {entry : RsyncFileListEntry} {path : LocalPath} (h : accepted entry)
      (hfile : entry.fileType = .file) (hnear : Near processId (dest.join entry.path) path) :
      MayTouch accepted processId dest path

def PortableEntry (entry : RsyncFileListEntry) : Prop :=
  validatePortableRelativePath entry.path = .ok ()

theorem MayTouch.below {accepted : RsyncFileListEntry → Prop}
    (hportable : ∀ entry, accepted entry → PortableEntry entry) {processId : Nat}
    {dest path : LocalPath} (h : MayTouch accepted processId dest path) : Below dest path := by
  cases h with
  | dest => exact ⟨[], by simp⟩
  | directory h hdirectory =>
      obtain ⟨names, -, heq⟩ := join_of_portable dest (hportable _ h)
      exact ⟨names, heq⟩
  | file h hfile hnear =>
      obtain ⟨names, hne, heq⟩ := join_of_portable dest (hportable _ h)
      have hparent : (dest ++ names.map Component.normal).dropLast =
          dest ++ names.dropLast.map Component.normal := by
        rw [List.dropLast_append_of_ne_nil (by simpa using hne), List.map_dropLast]
      rw [heq] at hnear
      cases hnear with
      | target => exact ⟨names, rfl⟩
      | parent => exact ⟨names.dropLast, hparent⟩
      | temp nanos =>
          refine ⟨names.dropLast ++ [tempName processId nanos (dest ++ names.map .normal)], ?_⟩
          unfold tempPath LocalPath.parent
          rw [hparent, List.map_append, List.append_assoc]
          rfl

/-! ## AcceptedEntry lists -/

section AcceptedEntry

variable {platform : Platform} {s : PullSettings}

/-- The names that look like single files among the operands. -/
def TransferPlan.singleFiles (plan : TransferPlan) : List Text :=
  if plan.oldArgs then [] else remoteSingleFileSourceBasenames plan

/-- What stands of an entry whose list was accepted. -/
structure AcceptedEntry (plan : TransferPlan) (entry : RsyncFileListEntry) : Prop where
  portable : PortableEntry entry
  admitted : plan.trustSender = false → Admitted plan plan.singleFiles entry

/-- Every entry but the top directory. -/
def AllAccepted (accepted : RsyncFileListEntry → Prop) (entries : List RsyncFileListEntry) : Prop :=
  ∀ entry ∈ entries, remoteEntryIsTopDir entry = false → accepted entry

theorem portable_of_validate {entries : List RsyncFileListEntry}
    (h : validateRemoteFileListPaths platform entries = .ok ()) :
    AllAccepted PortableEntry entries := by
  unfold validateRemoteFileListPaths windowsDestinationPathPreflight at h
  cases hpre : preflightDestinationPaths platform.nfc platform.toLowercase
      (destinationRelatives entries) with
  | error e =>
      rw [hpre] at h
      cases h
  | ok u =>
      intro entry hentry htop
      refine ((preflightDestinationPaths_ok_iff _ _).mp hpre).1 entry.path ?_
      exact List.mem_map_of_mem (List.mem_filter.mpr ⟨hentry, by simp [htop]⟩)

theorem admitted_of_claims {plan : TransferPlan} {entries : List RsyncFileListEntry}
    {filesFrom : Option (List Bytes)}
    (h : validateRemoteSenderClaims plan entries filesFrom = .ok ()) {entry : RsyncFileListEntry}
    (hentry : entry ∈ entries) (htop : remoteEntryIsTopDir entry = false)
    (htrust : plan.trustSender = false) : Admitted plan plan.singleFiles entry := by
  unfold validateRemoteSenderClaims at h
  rw [if_neg (by simp [htrust])] at h
  exact checkSenderClaim_eq_ok.mp (forM_eq_ok.mp h entry hentry) htop

theorem accepted_of_acceptList {received entries : List RsyncFileListEntry}
    (h : acceptList platform s received = .ok entries) : AllAccepted (AcceptedEntry s.plan) entries := by
  unfold acceptList at h
  obtain ⟨_, -, h⟩ := except_bind_ok h
  obtain ⟨_, hpaths, h⟩ := except_bind_ok h
  obtain ⟨_, hclaims, h⟩ := except_bind_ok h
  obtain rfl := Except.ok.inj h
  intro entry hentry htop
  exact ⟨portable_of_validate hpaths entry hentry htop, admitted_of_claims hclaims hentry htop⟩

theorem accepted_of_acceptExtra {entries extra grown : List RsyncFileListEntry}
    (hentries : AllAccepted (AcceptedEntry s.plan) entries)
    (h : acceptExtra platform s entries extra = .ok grown) :
    AllAccepted (AcceptedEntry s.plan) grown := by
  unfold acceptExtra at h
  obtain ⟨_, -, h⟩ := except_bind_ok h
  obtain ⟨_, hpaths, h⟩ := except_bind_ok h
  obtain ⟨_, hclaims, h⟩ := except_bind_ok h
  obtain rfl := Except.ok.inj h
  intro entry hentry htop
  rcases List.mem_append.mp hentry with hold | hnew
  · exact hentries entry hold htop
  · exact ⟨portable_of_validate hpaths entry hentry htop, admitted_of_claims hclaims hnew htop⟩

end AcceptedEntry

/-! ## Sessions -/

section Sessions

variable {platform : Platform} {s : PullSettings} {finds : DestinationFinds} {fuels : Fuels}
  {accepted : RsyncFileListEntry → Prop} {entries : List RsyncFileListEntry}

/-- What a session with these settings may touch. -/
def PullSettings.mayTouch (platform : Platform) (s : PullSettings)
    (accepted : RsyncFileListEntry → Prop) (path : LocalPath) : Prop :=
  s.dryRun = false ∧ MayTouch accepted platform.processId s.dest path

theorem mem_selectedRemoteEntries {selectedIndexes : List Nat} {entry : RsyncFileListEntry}
    (h : entry ∈ selectedRemoteEntries entries selectedIndexes) : entry ∈ entries := by
  obtain ⟨p, hp, rfl⟩ := List.mem_map.mp h
  exact (List.mem_zipIdx' (List.mem_filter.mp hp).1).2 ▸ List.getElem_mem _

/-- A regular file is no top directory. -/
theorem not_topDir_of_file {entry : RsyncFileListEntry} (h : entry.fileType = .file) :
    remoteEntryIsTopDir entry = false := by
  simp [remoteEntryIsTopDir, h]

theorem does_createDirUnlessDry {path : LocalPath}
    (h : MayTouch accepted platform.processId s.dest path) :
    Does (Touches (s.mayTouch platform accepted)) (createDirUnlessDry s path) := by
  refine calls_ite (fun _ => trivial) fun hreal => (does_perform ⟨?_, by simp⟩).bind
    fun _ _ => trivial
  simpa [LocalOp.paths] using ⟨Bool.eq_false_iff.mpr hreal, h⟩

theorem does_createDestination :
    Does (Touches (s.mayTouch platform accepted)) (createDestination s finds) :=
  calls_ite (fun _ => trivial) fun _ => (does_createDirUnlessDry MayTouch.dest).bind
    fun _ _ => trivial

theorem does_createListedDirectories : ∀ {entries : List RsyncFileListEntry},
    AllAccepted accepted entries →
    Does (Touches (s.mayTouch platform accepted)) (createListedDirectories s entries)
  | [], _ => trivial
  | entry :: entries, h => by
      have hrest := does_createListedDirectories
        fun e he => h e (List.mem_cons_of_mem entry he)
      refine calls_ite (fun _ => hrest) fun hnot => ?_
      rw [Bool.or_eq_true, not_or, Bool.not_eq_true, decide_eq_true_eq, not_not] at hnot
      refine (does_createDirUnlessDry ?_).bind fun _ _ => hrest.bind fun _ _ => trivial
      exact .directory (h entry List.mem_cons_self hnot.1) hnot.2

theorem does_prepareTransfer (h : AllAccepted accepted entries) :
    Does (Touches (s.mayTouch platform accepted)) (prepareTransfer platform s finds entries) := by
  refine (does_ofExcept _).bind fun _ _ => does_createDestination.bind fun _ _ => ?_
  refine (does_ofExcept _).bind fun _ _ => (does_createListedDirectories ?_).bind
    fun _ _ => trivial
  exact fun entry hentry => h entry (mem_selectedRemoteEntries hentry)

/-- Where the entries are accepted, a receiver is allowed what it does. -/
theorem mayTouch_of_listed (h : AllAccepted accepted entries) (path : LocalPath)
    (hpath : (s.receiveContext platform entries).mayTouch path) :
    s.mayTouch platform accepted path := by
  obtain ⟨hreal, entry, hentry, hfile, hnear⟩ := hpath
  exact ⟨hreal, .file (h entry hentry (not_topDir_of_file hfile)) hfile hnear⟩

theorem guards_requestIndexes (h : AllAccepted accepted entries) (selectedIndexes : List Nat)
    {r : RequestState} {past : List SessionCall}
    (hpast : askedIn past = r.requestedIndexes.map Int.ofNat) :
    (requestRemoteSenderFileIndexesProtocol31 platform.hashes (s.request entries selectedIndexes)
      r).Guards (Careful (s.mayTouch platform accepted))
      (fun r past => askedIn past = r.requestedIndexes.map Int.ofNat) past := by
  refine guards_requestRemoteSenderFileIndexes rfl ?_ hpast
  intro entry hentry hfile hreal
  exact ⟨hreal, .file (h entry hentry (not_topDir_of_file hfile)) hfile .target⟩

/-! ## Ends of sessions -/

/-- Writes that name no file are silent. -/
theorem guards_writeRsync31Done {asked : List Int} {past : List SessionCall}
    (hpast : askedIn past = asked) :
    writeRsync31Done.Guards (Careful allowed) (fun _ past => askedIn past = asked) past :=
  Guards.bind ((guards_writeDone {} hpast).returning fun _ _ h => h)

theorem does_awaitDone (e : Int → Error) :
    Does (Touches allowed) (do
      let ack ← readMultiplexedRsync31Index
      if ack ≠ rsyncIndexDone then throw (e ack) else pure ()) := by
  have hread : Does (Touches allowed) readMultiplexedRsync31Index :=
    (does_readIndex touches_readIndex {}).bind fun _ _ => trivial
  exact hread.bind fun _ _ => calls_ite (fun _ => trivial) fun _ => trivial

theorem does_awaitPhaseDone : Does (Touches allowed) awaitPhaseDone :=
  does_awaitDone fun ack => .session (.invalidPhaseAck ack)

theorem does_awaitFinalDone : Does (Touches allowed) awaitFinalDone :=
  does_awaitDone fun ack => .session (.invalidFinalAck ack)

theorem guards_receiverPhases {asked : List Int} {past : List SessionCall}
    (hpast : askedIn past = asked) :
    receiverPhases.Guards (Careful allowed) (fun _ past => askedIn past = asked) past := by
  refine Guards.bind ((guards_writeRsync31Done hpast).returning fun _ past₁ h₁ => ?_)
  refine does_awaitPhaseDone.then fun _ past₂ h₂ => ?_
  refine Guards.bind ((guards_writeRsync31Done (h₂.trans h₁)).returning fun _ past₃ h₃ => ?_)
  exact guards_of_does does_awaitFinalDone h₃

theorem guards_receiverGoodbyes {asked : List Int} {past : List SessionCall}
    (hpast : askedIn past = asked) :
    receiverGoodbyes.Guards (Careful allowed) (fun _ past => askedIn past = asked) past := by
  refine Guards.bind ((guards_writeRsync31Done hpast).returning fun _ past₁ h₁ => ?_)
  refine does_awaitFinalDone.then fun _ past₂ h₂ => ?_
  exact guards_writeRsync31Done (h₂.trans h₁)

/-- The requests and the answers, from the start of the request loop on. -/
theorem guards_transfer {γ : Type} (h : AllAccepted accepted entries) (selectedIndexes : List Nat)
    {past : List SessionCall} (hpast : askedIn past = []) {rest : Received → Session γ}
    {Q : γ → List SessionCall → Prop}
    (hrest : ∀ received past, (rest received).Guards (Careful (s.mayTouch platform accepted)) Q past) :
    (requestRemoteSenderFilesProtocol31 platform.hashes (s.request entries selectedIndexes) >>=
      fun _ => receiveRemoteSenderFilesProtocol31 platform.flate platform.hashes fuels.chunks
        (s.receiveContext platform entries) fuels.answers {} {} >>= rest).Guards
      (Careful (s.mayTouch platform accepted)) Q past := by
  refine Guards.bind (Guards.bind ((guards_requestIndexes h selectedIndexes (r := {}) hpast).returning
    fun r past₁ h₁ => Guards.bind ((guards_writeDone r.indexState h₁).returning
      fun _ past₂ _ => ?_)))
  refine Does.then ((does_receiveRemoteSenderFilesProtocol31 fuels.answers {} {}).mono
    fun o ho => ho.mono (mayTouch_of_listed h)) fun received past₃ _ => hrest received past₃

/-! ## The sessions -/

theorem guards_executeRemotePullProtocol31 :
    (executeRemotePullProtocol31WithHandshake platform s finds fuels).Guards
      (Careful (s.mayTouch platform (AcceptedEntry s.plan))) (fun _ _ => True) [] := by
  refine (does_toMux _).then fun _ past₁ h₁ => (does_onMux _).then fun received past₂ h₂ => ?_
  refine guards_ofExcept_bind fun entries hentries => ?_
  have haccepted := accepted_of_acceptList hentries
  refine (does_prepareTransfer haccepted).then fun prepared past₃ h₃ => ?_
  obtain ⟨actions, transferIndexes⟩ := prepared
  refine Guards.bind (guards_transfer haccepted transferIndexes (h₃.trans (h₂.trans h₁))
    fun received past => ?_)
  refine Guards.bind ((guards_receiverPhases rfl).returning fun _ past₄ _ => ?_)
  refine (does_onMux _).then fun _ past₅ _ => ?_
  exact Guards.bind ((guards_receiverGoodbyes rfl).returning fun _ _ _ => trivial)

theorem does_toRaw {γ : Type} {P : LocalOp → Prop} (w : Writer γ) : Does P (toRaw w) :=
  calls_interp (fun bs => calls_send bs) w

theorem does_requestRemoteSenderFiles (h : AllAccepted accepted entries)
    (selectedIndexes : List Nat) :
    Does (Touches (s.mayTouch platform accepted))
      (requestRemoteSenderFiles platform (s.request entries selectedIndexes)) := by
  have key : ∀ pairs : List (RsyncFileListEntry × Nat), (∀ p ∈ pairs, p.1 ∈ entries) →
      Does (Touches (s.mayTouch platform accepted))
        (requestFiles27 platform (s.request entries selectedIndexes) pairs) := by
    intro pairs
    induction pairs with
    | nil => exact fun _ => trivial
    | cons p rest ih =>
        obtain ⟨entry, index⟩ := p
        intro hpairs
        have hrest := ih fun q hq => hpairs q (List.mem_cons_of_mem _ hq)
        refine (does_checkTransferDeadline touches_now _).bind fun _ _ =>
          calls_ite (fun _ => hrest) fun hwants => (does_ofExcept _).bind fun wire _ =>
            (does_toRaw _).bind fun _ _ => calls_ite (fun _ => hrest) fun hreal => ?_
        have hfile : entry.fileType = .file := by
          unfold RemoteSenderFileRequest.wants at hwants
          simp only [Bool.not_eq_false, Bool.and_eq_true, decide_eq_true_eq] at hwants
          exact hwants.1
        refine (does_localBasisSignatureRequest ?_ _ _ _).bind fun basis _ =>
          (does_toRaw _).bind fun _ _ => hrest
        exact ⟨Bool.eq_false_iff.mpr hreal,
          .file (h entry (hpairs _ List.mem_cons_self) (not_topDir_of_file hfile)) hfile .target⟩
  exact (key _ fun p hp => (List.mem_zipIdx' hp).2 ▸ List.getElem_mem _).bind
    fun _ _ => does_toRaw _

theorem guards_executeRemotePullProtocol27 :
    (executeRemotePullProtocol27 platform s finds fuels).Guards
      (Careful (s.mayTouch platform (AcceptedEntry s.plan))) (fun _ _ => True) [] := by
  refine (does_toRaw _).then fun _ past₁ h₁ => (does_onMux _).then fun received past₂ h₂ => ?_
  refine guards_ofExcept_bind fun entries hentries => ?_
  have haccepted := accepted_of_acceptList hentries
  refine (does_onMux _).then fun ioError past₃ h₃ => ?_
  split
  · trivial
  · refine (does_prepareTransfer haccepted).then fun prepared past₄ h₄ => ?_
    obtain ⟨actions, transferIndexes⟩ := prepared
    refine (does_requestRemoteSenderFiles haccepted transferIndexes).then fun _ past₅ h₅ => ?_
    refine Does.then ((does_receiveRemoteSenderFiles fuels.answers {}).mono
      fun o ho => ho.mono (mayTouch_of_listed haccepted)) fun received past₆ h₆ => ?_
    refine (does_toRaw _).then fun _ past₇ h₇ => (does_onMux _).then fun phaseAck past₈ h₈ => ?_
    split
    · trivial
    · refine (does_onMux _).then fun _ _ _ => (does_onMux _).then fun _ _ _ =>
        (does_onMux _).then fun _ _ _ => (does_toRaw _).then fun _ _ _ => trivial

theorem guards_incrementalBatch (h : AllAccepted accepted entries) (batchStart batch : Nat)
    {r : RequestState} {past : List SessionCall}
    (hpast : askedIn past = r.requestedIndexes.map Int.ofNat) :
    (requestRemotePullIncrementalBatchProtocol31 platform s finds entries batchStart batch r).Guards
      (Careful (s.mayTouch platform accepted))
      (fun out past => askedIn past = out.2.requestedIndexes.map Int.ofNat) past := by
  refine Does.then (does_createListedDirectories
    fun entry hentry => h entry (mem_selectedRemoteEntries hentry)) fun directories past₁ h₁ => ?_
  refine guards_ofExcept_bind fun transferIndexes _ => ?_
  refine Guards.bind ((guards_requestIndexes h transferIndexes (h₁.trans hpast)).returning
    fun r past₂ h₂ => ?_)
  exact Guards.bind ((guards_writeDone r.indexState h₂).returning fun _ _ h₃ => h₃)

/-- What the loop over the answers keeps: only accepted entries are listed, and what was asked for
is what is recorded. -/
structure IncrementalState.Sound (plan : TransferPlan) (st : IncrementalState)
    (past : List SessionCall) : Prop where
  entries : AllAccepted (AcceptedEntry plan) st.entries
  asked : askedIn past = st.requests.requestedIndexes.map Int.ofNat

theorem guards_takeExtraFileList {st : IncrementalState} {past : List SessionCall}
    (h : st.Sound s.plan past) (extra : List RsyncFileListEntry) :
    (takeExtraFileList platform s finds extra st).Guards
      (Careful (s.mayTouch platform (AcceptedEntry s.plan)))
      (fun st past => st.Sound s.plan past) past := by
  refine guards_ofExcept_bind fun grown hgrown => ?_
  have haccepted := accepted_of_acceptExtra h.entries hgrown
  exact Guards.bind ((guards_incrementalBatch haccepted st.entries.length (st.batch + 1)
    h.asked).returning fun out past₁ h₁ => ⟨haccepted, h₁⟩)

theorem guards_receiveIncremental : ∀ {fuel : Nat} {st : IncrementalState}
    {past : List SessionCall}, st.Sound s.plan past →
    (receiveIncremental platform s finds fuels fuel st).Guards
      (Careful (s.mayTouch platform (AcceptedEntry s.plan))) (fun _ _ => True) past
  | 0, _, _, _ => trivial
  | fuel + 1, st, past, h => by
      refine (does_checkTransferDeadline touches_now _).then fun _ past₁ h₁ => ?_
      refine (does_readProtocol31SenderResponse _ _ _ _ _).then fun read past₂ h₂ => ?_
      obtain ⟨response, readIndexState⟩ := read
      have hsound : IncrementalState.Sound s.plan { st with readIndexState } past₂ :=
        ⟨h.entries, (h₂.trans h₁).trans h.asked⟩
      cases response with
      | done => trivial
      | fileListEof => exact guards_receiveIncremental hsound
      | extraFileList extra =>
          exact Guards.bind ((guards_takeExtraFileList hsound extra).returning
            fun st past₃ h₃ => guards_receiveIncremental h₃)
      | file index iflags sumHead =>
          refine guards_ofExcept_bind fun entryIndex _ => ?_
          refine Does.then ((does_applyRemoteSenderFileResponseProtocol31 entryIndex iflags sumHead
            st.received).mono fun o ho => ho.mono (mayTouch_of_listed h.entries))
            fun received past₃ h₃ => ?_
          exact guards_receiveIncremental ⟨hsound.entries, h₃.trans hsound.asked⟩

theorem guards_executeRemotePullProtocol31Incremental :
    (executeRemotePullProtocol31Incremental platform s finds fuels).Guards
      (Careful (s.mayTouch platform (AcceptedEntry s.plan))) (fun _ _ => True) [] := by
  refine (does_toMux _).then fun _ past₁ h₁ => (does_onMux _).then fun received past₂ h₂ => ?_
  refine guards_ofExcept_bind fun entries hentries => ?_
  have haccepted := accepted_of_acceptList hentries
  refine does_createDestination.then fun created past₃ h₃ => ?_
  refine Guards.bind ((guards_incrementalBatch haccepted 0 0 (r := {})
    (h₃.trans (h₂.trans h₁))).returning fun out past₄ h₄ => ?_)
  obtain ⟨actions, requests⟩ := out
  have hsound : IncrementalState.Sound s.plan
      { entries, requests, received := { actions := created ++ actions } } past₄ := ⟨haccepted, h₄⟩
  refine Guards.bind ((guards_receiveIncremental hsound).returning fun st past₅ _ => ?_)
  refine Guards.bind ((guards_receiverPhases rfl).returning fun _ past₆ _ => ?_)
  refine (does_onMux _).then fun _ past₇ _ => ?_
  exact Guards.bind ((guards_receiverGoodbyes rfl).returning fun _ _ _ => trivial)

/-- What the daemon does once it has looked at the paths of a list. -/
theorem guards_receivePushedFiles (h : AllAccepted accepted entries) (transferIndexes : List Nat) :
    (receivePushedFiles platform.flate platform.hashes (s.request entries transferIndexes)
      (s.receiveContext platform entries) fuels.chunks fuels.answers).Guards
      (Careful (s.mayTouch platform accepted)) (fun _ _ => True) [] := by
  refine guards_transfer h transferIndexes rfl fun received past => ?_
  refine Guards.bind ((guards_receiverPhases rfl).returning fun _ past₁ _ => ?_)
  exact Guards.bind ((guards_receiverGoodbyes rfl).returning fun _ _ _ => trivial)

/-- The places of a session lie below its destination, and a dry run has none. -/
theorem mayTouch_below (h : ∀ entry, accepted entry → PortableEntry entry) {path : LocalPath}
    (hpath : s.mayTouch platform accepted path) : s.dryRun = false ∧ Below s.dest path :=
  ⟨hpath.1, hpath.2.below h⟩

end Sessions

end RsyncWin
