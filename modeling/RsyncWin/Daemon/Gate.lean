import RsyncWin.Daemon.Serve
import RsyncWin.Remote.ServeSafety

/-!
# What a client gets at

No client is trusted: lines, arguments and stream are whatever the surroundings
reply. A connection looks at files, reads or changes them only behind a complete
opening: a known module, a login where the module asks for one, arguments that
parse, and a direction the module allows. Then it stays below the directory of
the module. The calls of an opening are spelled out in `LetIn`, and a step lemma
follows the program through each of them.
-/

namespace RsyncWin

open ByteString Codec Duplex Prog

/-! ## What an operation is given -/

inductive Access where
  | look
  | read
  | change
deriving DecidableEq

def LocalOp.access : LocalOp → Access
  | .now => .look
  | .note _ => .look
  | .openFile _ => .read
  | .readAt _ _ _ => .read
  | .fileLen _ => .read
  | .filePrefixMatches _ _ => .read
  | _ => .change

/-- The secrets file has a rule of its own and is no place here. -/
def DaemonOp.places : DaemonOp → List LocalPath
  | .source path _ _ => [components path]
  | .destination path => [path]
  | .deleteLocalExtras dest _ _ _ => [dest]
  | .transfer (.loc o) => o.paths
  | _ => []

def DaemonOp.access : DaemonOp → Access
  | .deleteLocalExtras _ _ _ dryRun => if dryRun then .look else .change
  | .transfer (.loc o) => o.access
  | _ => .look

abbrev DaemonCall : Type := Call daemonSig

/-! ## Openings -/

section Openings

variable (platform : Platform) (config : DaemonServerConfig) (client : Option Text)

/-- Greeting and request. -/
def requestCalls (greeting request : Str) : List DaemonCall :=
  [⟨.writeLine daemonGreeting, .ok ()⟩, ⟨.readLine 1024, .ok (some greeting)⟩,
    ⟨.readLine 8192, .ok (some request)⟩]

/-- A request for a module, of a client that speaks `protocol`. -/
structure AsksFor (greeting request : Str) (protocol : Nat) (checksum : DaemonAuthChecksum)
    (module : DaemonServerModule) : Prop where
  protocol : parseClientGreetingProtocol greeting.chars = .ok protocol
  checksum : daemonAuthChecksumFromClientGreeting greeting.chars = .ok checksum
  module : config.find request.chars = some module

/-- The challenge and the line that came back. -/
def challengeCalls (module : DaemonServerModule) (nanos : Nat) (response : Str) : List DaemonCall :=
  [⟨.now, nanos⟩,
    ⟨.writeLine (authReqdLine (daemonAuthChallenge platform.processId nanos module.name client)),
      .ok ()⟩,
    ⟨.readLine 8192, .ok (some response)⟩]

/-- A response of a user the module knows. -/
structure Answered (module : DaemonServerModule) (response : Str) (user answer : Text) : Prop where
  split : splitOnce (· = ' ') response.chars = some (user, answer)
  named : trim user ≠ []
  noNul : '\x00' ∉ trim user
  authorised : trim user ∈ module.authUsers

/-- The password of the user in the secrets file fits the challenge. -/
structure Proved (module : DaemonServerModule) (checksum : DaemonAuthChecksum) (nanos : Nat)
    (user answer password : Text) (secrets : Str) : Prop where
  secret : ∃ entries, parseDaemonSecrets module.name secrets.chars = .ok entries ∧
    entries.find? (fun entry => entry.1 = trim user) = some (trim user, password)
  digest : utf8Encode answer = Base64.encode (checksum.digest platform.hashes.md4.digest
    platform.hashes.md5.digest (utf8Encode password ++
      utf8Encode (daemonAuthChallenge platform.processId nanos module.name client)))

/-- The calls of a login that ends well. -/
inductive LoggedIn (module : DaemonServerModule) (checksum : DaemonAuthChecksum) :
    List DaemonCall → Prop
  | free (h : module.authUsers = []) : LoggedIn module checksum [⟨.writeLine okLine, .ok ()⟩]
  | password {nanos : Nat} {response secrets : Str} {file user answer password : Text}
      (hanswered : Answered module response user answer) (hfile : module.secretsFile = some file)
      (hproved : Proved platform client module checksum nanos user answer password secrets) :
      LoggedIn module checksum (challengeCalls platform client module nanos response ++
        [⟨.readSecrets file, .ok secrets⟩, ⟨.writeLine okLine, .ok ()⟩])

/-- The calls up to arguments that may be served. -/
inductive Opening (module : DaemonServerModule) (transfer : DaemonTransferArgs) :
    List DaemonCall → Prop
  | intro {greeting request : Str} {protocol : Nat} {checksum : DaemonAuthChecksum}
      {login : List DaemonCall} {args : List Str}
      (hrequested : AsksFor config greeting request protocol checksum module)
      (hlist : request.chars ≠ "#list".toList)
      (hlogin : LoggedIn platform client module checksum login)
      (hargs : DaemonTransferArgs.parse (args.map Str.chars) = .ok transfer)
      (hmodern : 31 ≤ protocol) (hsender : transfer.sender = true → module.writeOnly = false)
      (hreceiver : transfer.sender = false → module.readOnly = false) :
      Opening module transfer
        (requestCalls greeting request ++ login ++ [⟨.readArgs protocol, .ok args⟩])

/-- A client that was let in, whatever followed. -/
def LetIn (module : DaemonServerModule) (transfer : DaemonTransferArgs) (past : List DaemonCall) :
    Prop :=
  ∃ opening rest, past = opening ++ rest ∧ Opening platform config client module transfer opening

/-- What a transfer may do. -/
structure Granted (module : DaemonServerModule) (transfer : DaemonTransferArgs) (o : DaemonOp) :
    Prop where
  below : ∀ path ∈ o.places, Below (components module.root) path
  sender : transfer.sender = true → o.access ≠ .change
  dryRun : transfer.dryRun = true → o.access = .look
  noSecrets : ∀ file, o ≠ .readSecrets file

/-- What may be called behind `past`. -/
structure Permitted (past : List DaemonCall) (o : DaemonOp) : Prop where
  files : o.places ≠ [] → ∃ module transfer,
    LetIn platform config client module transfer past ∧ Granted module transfer o
  secrets : ∀ file, o = .readSecrets file →
    ∃ greeting request protocol checksum module nanos response user answer,
      AsksFor config greeting request protocol checksum module ∧
      Answered module response user answer ∧ module.secretsFile = some file ∧
      past = requestCalls greeting request ++ challengeCalls platform client module nanos response

end Openings

/-! ## Paths -/

theorem Below.trans {root dest path : LocalPath} (h : Below root dest) (h' : Below dest path) :
    Below root path := by
  obtain ⟨names, rfl⟩ := h
  obtain ⟨names', rfl⟩ := h'
  exact ⟨names ++ names', by simp⟩

theorem Below.refl (path : LocalPath) : Below path path := ⟨[], by simp⟩

theorem below_pathJoin {names : List Bytes} (h : ∀ n ∈ names, ValidName n) (hne : names ≠ [])
    (root : Bytes) : Below (components root) (components (pathJoin root (joinNames names))) :=
  ⟨names, components_pathJoin_joinNames hne h root⟩

theorem mem_of_cleanNames : ∀ {parts : List Component} {names : List Bytes},
    cleanNames parts = some names → ∀ n ∈ names, .normal n ∈ parts
  | [], _, h, n, hn => by
      obtain rfl := Option.some.inj h
      cases hn
  | .normal name :: rest, names, h, n, hn => by
      unfold cleanNames at h
      obtain ⟨names', hrest, rfl⟩ := Option.map_eq_some_iff.mp h
      rcases List.mem_cons.mp hn with rfl | hn
      · exact List.mem_cons_self
      · exact List.mem_cons_of_mem _ (mem_of_cleanNames hrest n hn)
  | .curDir :: rest, names, h, n, hn => by
      unfold cleanNames at h
      exact List.mem_cons_of_mem _ (mem_of_cleanNames h n hn)
  | .parentDir :: _, _, h, _, _ => by cases h
  | .rootDir :: _, _, h, _, _ => by cases h

/-- Where an argument is accepted, it is a place of the module. -/
theorem below_modulePath {module : DaemonServerModule} {arg : Text} {path : Bytes}
    (h : modulePath module arg = .ok path) :
    Below (components module.root) (components path) := by
  unfold modulePath at h
  dsimp only at h
  split at h
  · obtain rfl := Except.ok.inj h
    exact Below.refl _
  · split at h
    · cases h
    · obtain rfl := Except.ok.inj h
      exact Below.refl _
    · rename_i clean hnotnil hclean
      obtain rfl := Except.ok.inj h
      refine below_pathJoin (fun n hn => ?_) ?_ _
      · exact validName_of_mem_components (mem_of_cleanNames hclean n hn)
      · rintro rfl
        exact hnotnil rfl

theorem below_modulePaths {module : DaemonServerModule} : ∀ {args : List Text} {paths : List Bytes},
    args.mapM (modulePath module) = .ok paths →
    ∀ path ∈ paths, Below (components module.root) (components path)
  | [], paths, h, path, hpath => by
      rw [List.mapM_nil] at h
      obtain rfl := Except.ok.inj h
      cases hpath
  | arg :: args, paths, h, path, hpath => by
      rw [List.mapM_cons] at h
      obtain ⟨first, hfirst, h⟩ := except_bind_ok h
      obtain ⟨others, hothers, h⟩ := except_bind_ok h
      obtain rfl := Except.ok.inj h
      rcases List.mem_cons.mp hpath with rfl | hpath
      · exact below_modulePath hfirst
      · exact below_modulePaths hothers path hpath

/-! ## Stretches of a transfer -/

section Stretches

variable {module : DaemonServerModule} {transfer : DaemonTransferArgs} {α : Type}

abbrev Grants (module : DaemonServerModule) (transfer : DaemonTransferArgs) (p : DaemonSession α) :
    Prop :=
  p.Calls (Granted module transfer) fun _ => True

theorem granted_recv (n : Nat) : Granted module transfer (.transfer (.recv n)) :=
  ⟨by simp [DaemonOp.places], by simp [DaemonOp.access], by simp [DaemonOp.access], by simp⟩

theorem granted_send (bs : Bytes) : Granted module transfer (.transfer (.send bs)) :=
  ⟨by simp [DaemonOp.places], by simp [DaemonOp.access], by simp [DaemonOp.access], by simp⟩

theorem grants_transferring {p : Session α} {P : LocalOp → Prop} (h : Does P p)
    (hP : ∀ o, P o → Granted module transfer (.transfer (.loc o))) :
    Grants module transfer (transferring p) := by
  refine Calls.interp (fun o ho => ⟨?_, fun _ => trivial⟩) h
  cases o with
  | recv n => exact granted_recv n
  | send bs => exact granted_send bs
  | loc o => exact hP o ho

/-- Talk needs no permission. -/
theorem grants_talk {p : Session α} (h : ∀ P, Does P p) : Grants module transfer (transferring p) :=
  grants_transferring (h fun o => Granted module transfer (.transfer (.loc o))) fun _ ho => ho

theorem grants_setup : Grants module transfer (transferring sendProtocol31Setup) :=
  grants_talk fun _ => (does_toRaw _).bind fun _ _ => does_toRaw _

theorem grants_ofExcept (r : Except Error α) :
    Grants module transfer (Prog.ofExcept r : DaemonSession α) :=
  calls_ofExcept fun _ _ => trivial

/-! ## Giving -/

theorem below_entry {name : Bytes} (h : ValidName name) (current : Bytes) :
    Below (components current) (components (pathJoin current name)) := by
  have hjoin : joinNames [name] = name := by simp [joinNames, List.intercalate]
  have hbelow := @below_pathJoin [name] (by simpa using h) (List.cons_ne_nil _ _) current
  rwa [hjoin] at hbelow

/-- What the walk over a directory lists lies in it. -/
theorem below_collected {options : LocalSourceCollectOptions} : ∀ {l : Listing}
    {current relative : Bytes}, l.Named →
    ∀ e ∈ collectLocalDirectorySourceEntries options current relative l,
      Below (components current) e.path
  | .nil, _, _, _, e, he => by cases he
  | .file name info rest, current, relative, h, e, he => by
      unfold collectLocalDirectorySourceEntries at he
      rcases List.mem_append.mp he with hown | hrest
      · split at hown
        · cases hown
        · rw [List.mem_singleton.mp hown]
          exact below_entry h.1 current
      · exact below_collected h.2 e hrest
  | .directory name info children rest, current, relative, h, e, he => by
      obtain ⟨hname, hchildren, hothers⟩ := h
      unfold collectLocalDirectorySourceEntries at he
      rcases List.mem_append.mp he with hown | hrest
      · split at hown
        · cases hown
        · rcases List.mem_cons.mp hown with rfl | hinner
          · exact below_entry hname current
          · split at hinner
            · exact (below_entry hname current).trans (below_collected hchildren e hinner)
            · cases hinner
      · exact below_collected hothers e hrest

theorem below_batchSourceEntries {options : LocalSourceCollectOptions} {path name : Bytes} :
    ∀ {found : FoundSource}, ∀ e ∈ batchSourceEntries options path name found,
      Below (components path) e.path
  | .file info, e, he => by
      dsimp only [batchSourceEntries] at he
      split at he
      · cases he
      · rw [List.mem_singleton.mp he]
        exact Below.refl _
  | .directory info children named, e, he => by
      dsimp only [batchSourceEntries] at he
      split at he
      · cases he
      · rcases List.mem_cons.mp he with rfl | hinner
        · exact Below.refl _
        · split at hinner
          · exact below_collected named e hinner
          · cases hinner

theorem below_singleSourceEntries {options : LocalSourceCollectOptions} {path : Bytes} :
    ∀ {found : FoundSource} {entries : List RemoteSourceEntry},
      singleSourceEntries options path found = .ok entries →
      ∀ e ∈ entries, Below (components path) e.path
  | .file info, entries, h, e, he => by
      dsimp only [singleSourceEntries] at h
      split at h
      · cases h
      · obtain rfl := Except.ok.inj h
        dsimp only [collectSingleLocalSourceEntries] at he
        split at he
        · cases he
        · rw [List.mem_singleton.mp he]
          exact Below.refl _
  | .directory info children named, entries, h, e, he => by
      obtain rfl := Except.ok.inj h
      rcases List.mem_cons.mp he with rfl | hinner
      · exact Below.refl _
      · exact below_collected named e hinner

theorem granted_source {path : Bytes} (h : Below (components module.root) (components path)) :
    Granted module transfer (.source path transfer.preserveExecutability transfer.chmodRules) :=
  ⟨by simpa [DaemonOp.places] using h, by simp [DaemonOp.access], by simp [DaemonOp.access], by simp⟩

theorem grants_findSource {path : Bytes} (h : Below (components module.root) (components path)) :
    Grants module transfer (findSource transfer path) :=
  ⟨granted_source h, fun _ => calls_ofExcept fun _ _ => trivial⟩

/-- Entries that lie in the module. -/
def AllBelow (module : DaemonServerModule) (entries : List RemoteSourceEntry) : Prop :=
  ∀ e ∈ entries, Below (components module.root) e.path

theorem calls_collectBatch : ∀ {sources : List Bytes},
    (∀ path ∈ sources, Below (components module.root) (components path)) →
    (collectBatchLocalSourceEntries transfer sources).Calls (Granted module transfer)
      (AllBelow module)
  | [], _ => fun e he => by cases he
  | path :: paths, h => by
      unfold collectBatchLocalSourceEntries
      split
      · trivial
      · have hpath := h path List.mem_cons_self
        refine (grants_findSource hpath).bind fun found _ => ?_
        refine (calls_collectBatch fun p hp => h p (List.mem_cons_of_mem _ hp)).bind
          fun entries hentries => ?_
        intro e he
        rcases List.mem_append.mp he with hown | hrest
        · exact hpath.trans (below_batchSourceEntries e hown)
        · exact hentries e hrest

theorem calls_collectDaemonSourceEntries {sources : List Bytes}
    (h : ∀ path ∈ sources, Below (components module.root) (components path)) :
    (collectDaemonSourceEntries transfer sources).Calls (Granted module transfer)
      (AllBelow module) := by
  have hsorted : ∀ entries : List RemoteSourceEntry, AllBelow module entries →
      AllBelow module
        (sortBy (fun left right => comparePath left.wire.path right.wire.path) entries) := by
    intro entries hentries e he
    exact hentries e ((sortBy_perm _ entries).mem_iff.mp he)
  unfold collectDaemonSourceEntries
  refine Calls.bind (Q := AllBelow module) ?_ hsorted
  split
  · rename_i path
    have hpath := h path List.mem_cons_self
    refine (grants_findSource hpath).bind fun found _ => calls_ofExcept fun entries hentries => ?_
    exact fun e he => hpath.trans (below_singleSourceEntries hentries e he)
  · exact calls_collectBatch h

theorem granted_reads {entries : List RemoteSourceEntry} (h : AllBelow module entries)
    {o : LocalOp}
    (ho : Reads (daemonSender entries transfer.dryRun transfer.compression).mayOpen o ∨
      ∃ event, o = .note event) : Granted module transfer (.transfer (.loc o)) := by
  rcases ho with hreads | ⟨event, rfl⟩
  · cases hreads with
    | now =>
        exact ⟨by simp [DaemonOp.places, LocalOp.paths], by simp [DaemonOp.access, LocalOp.access],
          fun _ => rfl, by simp⟩
    | openFile hopen =>
        obtain ⟨hreal, entry, hentry, -, rfl⟩ := hopen
        refine ⟨?_, by simp [DaemonOp.access, LocalOp.access], fun hdry => ?_, by simp⟩
        · simpa [DaemonOp.places, LocalOp.paths] using h entry hentry
        · exact absurd (hdry.symm.trans hreal) (by decide)
  · exact ⟨by simp [DaemonOp.places, LocalOp.paths], by simp [DaemonOp.access, LocalOp.access],
      fun _ => rfl, by simp⟩

variable {platform : Platform} {fuels : Fuels}

theorem grants_serveDaemonSenderProtocol31 :
    Grants module transfer (serveDaemonSenderProtocol31 platform fuels module transfer) := by
  refine grants_setup.bind fun _ _ => (grants_talk fun _ => does_onMux _).bind fun initial _ => ?_
  refine calls_ite (fun _ => trivial) fun _ => ?_
  refine (calls_ofExcept (Q := fun paths => transfer.modulePaths module = .ok paths)
    fun _ h => h).bind fun sources hsources => ?_
  refine (calls_collectDaemonSourceEntries (below_modulePaths hsources)).bind
    fun entries hentries => ?_
  refine (grants_talk fun _ => does_toMux _).bind fun _ _ => ?_
  exact grants_transferring (serves_of_guards (guards_serveDaemonSenderRequests _ _ _)).calls
    fun _ ho => granted_reads hentries ho

/-! ## Taking -/

/-- The places of the entries a client listed. -/
abbrev TouchesListed (platform : Platform) (transfer : DaemonTransferArgs) (dest : LocalPath)
    (o : LocalOp) : Prop :=
  ∀ path ∈ o.paths, (transfer.settings dest).mayTouch platform PortableEntry path

theorem granted_touches (hreceiver : transfer.sender = false) {dest : LocalPath}
    (hdest : Below (components module.root) dest) {o : LocalOp}
    (ho : TouchesListed platform transfer dest o) :
    Granted module transfer (.transfer (.loc o)) := by
  have hallowed : ∀ path ∈ o.paths, transfer.dryRun = false ∧ Below dest path :=
    fun path hpath => mayTouch_below (fun _ h => h) (ho path hpath)
  refine ⟨fun path hpath => hdest.trans (hallowed path hpath).2, fun hsender => ?_,
    fun hdry => ?_, by simp⟩
  · rw [hreceiver] at hsender
    cases hsender
  · have hnone : o.paths = [] := by
      rw [List.eq_nil_iff_forall_not_mem]
      intro path hpath
      rw [(hallowed path hpath).1] at hdry
      cases hdry
    cases o with
    | now => rfl
    | note event => rfl
    | _ => simp [LocalOp.paths] at hnone

theorem grants_touches {α : Type} (hreceiver : transfer.sender = false) {dest : LocalPath}
    (hdest : Below (components module.root) dest) {p : Session α}
    (h : Does (TouchesListed platform transfer dest) p) :
    Grants module transfer (transferring p) :=
  grants_transferring h fun _ ho => granted_touches hreceiver hdest ho

theorem granted_destination {dest : LocalPath} (h : Below (components module.root) dest) :
    Granted module transfer (.destination dest) :=
  ⟨by simpa [DaemonOp.places] using h, by simp [DaemonOp.access], by simp [DaemonOp.access], by simp⟩

theorem grants_deleteExtras (hreceiver : transfer.sender = false) {dest : LocalPath}
    (hdest : Below (components module.root) dest) (selected : List RsyncFileListEntry) :
    Grants module transfer (deleteExtras transfer dest selected) := by
  refine calls_ite (fun _ => trivial) fun _ => ⟨⟨?_, ?_, ?_, by simp⟩, fun r => ?_⟩
  · simpa [DaemonOp.places] using hdest
  · rw [hreceiver]
    intro h
    cases h
  · intro hdry
    simp [DaemonOp.access, hdry]
  · cases r <;> trivial

theorem grants_receiveListed (hreceiver : transfer.sender = false) {dest : LocalPath}
    (hdest : Below (components module.root) dest) {entries : List RsyncFileListEntry}
    (h : AllAccepted PortableEntry entries) :
    Grants module transfer (receiveListed platform fuels transfer dest entries) := by
  have hsilent : ∀ {α : Type} {p : Session α},
      Does (Touches ((transfer.settings dest).mayTouch platform PortableEntry)) p →
      Grants module transfer (transferring p) :=
    fun hdoes => grants_touches hreceiver hdest (hdoes.mono fun _ ho => ho.allowed)
  refine (grants_ofExcept _).bind fun _ _ => ⟨granted_destination hdest, fun finds => ?_⟩
  refine (hsilent does_createDestination).bind fun _ _ => ?_
  refine (grants_ofExcept _).bind fun transferIndexes _ => ?_
  refine (grants_deleteExtras hreceiver hdest _).bind fun _ _ => ?_
  refine (hsilent (does_createListedDirectories
    fun entry hentry => h entry (mem_selectedRemoteEntries hentry))).bind fun _ _ => ?_
  have hpushed : Does (TouchesListed platform transfer dest)
      (receivePushedFiles platform.flate platform.hashes
        ((transfer.settings dest).request entries transferIndexes)
        ((transfer.settings dest).receiveContext platform entries) fuels.chunks fuels.answers) :=
    (confined_of_guards (guards_receivePushedFiles h transferIndexes)).calls
  exact (grants_touches hreceiver hdest hpushed).bind fun _ _ => trivial

theorem grants_serveDaemonReceiverProtocol31 (hreceiver : transfer.sender = false) :
    Grants module transfer (serveDaemonReceiverProtocol31 platform fuels module transfer) := by
  refine grants_setup.bind fun _ _ => ?_
  refine (calls_ofExcept (Q := fun paths => transfer.modulePaths module = .ok paths)
    fun _ h => h).bind fun paths hpaths => ?_
  have hbelow := below_modulePaths hpaths
  cases paths with
  | nil => trivial
  | cons path paths =>
      have hmarker : ∀ P, Does P (awaitDeleteMarker transfer) := fun P =>
        calls_ite (fun _ => trivial) fun _ => (does_onMux _).bind fun marker _ =>
          calls_ite (fun _ => trivial) fun _ => trivial
      refine (grants_talk hmarker).bind fun _ _ => ?_
      refine (grants_talk fun _ => does_onMux _).bind fun received _ => ?_
      refine (calls_ofExcept (Q := fun _ => validateRemoteFileListPaths platform
        (sortRemoteEntriesForSenderIndexes received) = .ok ()) fun _ h => h).bind fun _ hvalid => ?_
      exact grants_receiveListed hreceiver (hbelow path List.mem_cons_self)
        (portable_of_validate hvalid)

end Stretches

/-! ## Openings, call by call -/

section Gate

variable {platform : Platform} {fuels : Fuels} {noMotd : Bool} {config : DaemonServerConfig}
  {client : Option Text} {module : DaemonServerModule} {transfer : DaemonTransferArgs}
  {protocol nanos : Nat} {checksum : DaemonAuthChecksum} {past : List DaemonCall}
  {greeting request response : Str}

theorem permitted_talk {o : DaemonOp} (hplaces : o.places = []) (hsecrets : ∀ file, o ≠ .readSecrets file) :
    Permitted platform config client past o :=
  ⟨fun hne => absurd hplaces hne, fun file hfile => absurd hfile (hsecrets file)⟩

theorem guards_sayLine (line : Text) :
    (sayLine line).Guards (Permitted platform config client)
      (fun _ past' => past' = past ++ [⟨.writeLine line, .ok ()⟩]) past := by
  refine ⟨permitted_talk rfl (by simp), fun r => ?_⟩
  cases r with
  | ok u => exact rfl
  | error e => trivial

theorem guards_expectLine (maxLen : Nat) (closed : String) :
    (expectLine maxLen closed).Guards (Permitted platform config client)
      (fun line past' => past' = past ++ [⟨.readLine maxLen, .ok (some line)⟩]) past := by
  refine ⟨permitted_talk rfl (by simp), fun r => ?_⟩
  match r with
  | .ok (some line) => exact rfl
  | .ok none => trivial
  | .error e => trivial

theorem LetIn.later (h : LetIn platform config client module transfer past) (c : DaemonCall) :
    LetIn platform config client module transfer (past ++ [c]) := by
  obtain ⟨opening, rest, rfl, hopening⟩ := h
  exact ⟨opening, rest ++ [c], by rw [List.append_assoc], hopening⟩

/-- Whoever is let in stays let in. -/
theorem guards_of_grants {α : Type} {p : DaemonSession α} (h : Grants module transfer p)
    (hpast : LetIn platform config client module transfer past) :
    p.Guards (Permitted platform config client) (fun _ _ => True) past := by
  refine (Calls.guards h (J := LetIn platform config client module transfer) ?_ hpast).returning
    fun _ _ _ => trivial
  intro past o ho hin
  refine ⟨⟨fun _ => ⟨module, transfer, hin, ho⟩, fun file hfile => ?_⟩, fun r => hin.later _⟩
  exact absurd hfile (ho.noSecrets file)

/-- A response matches if it is the digest of password and challenge. -/
theorem daemonAuthResponseMatches_eq (md4 md5 : Bytes → Bytes) (password challenge : Str)
    (response : Str) :
    daemonAuthResponseMatches md4 md5 password challenge checksum response =
      .ok (decide (response.bytes =
        Base64.encode (checksum.digest md4 md5 (password.bytes ++ challenge.bytes)))) := by
  have hresponse : daemonAuthResponse md4 md5 password challenge checksum =
      .ok (Base64.encode (checksum.digest md4 md5 (password.bytes ++ challenge.bytes))) := by
    cases checksum <;> exact base64NoPad_eq _
  unfold daemonAuthResponseMatches
  rw [hresponse]
  show Except.ok (constantTimeEq _ response.bytes) = _
  rw [constantTimeEq_eq, decide_eq_decide.mpr eq_comm]

/-- An answer fits if it is the digest of a password of the user. -/
theorem answerFits_iff {user answer challenge : Text} {entries : List (Text × Text)} :
    answerFits platform checksum challenge user answer entries = .ok true ↔
      ∃ password, entries.find? (fun entry => entry.1 = user) = some (user, password) ∧
        utf8Encode answer = Base64.encode (checksum.digest platform.hashes.md4.digest
          platform.hashes.md5.digest (utf8Encode password ++ utf8Encode challenge)) := by
  unfold answerFits
  cases hfound : entries.find? (fun entry => entry.1 = user) with
  | none => simp
  | some entry =>
      obtain ⟨name, password⟩ := entry
      have hname := List.find?_some hfound
      simp only [decide_eq_true_eq] at hname
      subst hname
      dsimp only
      rw [daemonAuthResponseMatches_eq, Except.ok.injEq, decide_eq_true_eq]
      constructor
      · intro h
        exact ⟨password, rfl, h⟩
      · rintro ⟨_, heq, h⟩
        rw [Option.some.injEq, Prod.mk.injEq] at heq
        obtain rfl := heq.2
        exact h

/-- Only the secrets of a user the module knows are looked for, and only a fitting answer is
valid. -/
theorem guards_daemonAuthResponseIsValid
    (hasks : AsksFor config greeting request protocol checksum module)
    (hpast : past = requestCalls greeting request ++
      challengeCalls platform client module nanos response) :
    (daemonAuthResponseIsValid platform module response.chars
      (daemonAuthChallenge platform.processId nanos module.name client) checksum).Guards
      (Permitted platform config client)
      (fun valid past' => valid = true → ∃ user answer file password secrets,
        Answered module response user answer ∧ module.secretsFile = some file ∧
        Proved platform client module checksum nanos user answer password secrets ∧
        past' = past ++ [⟨.readSecrets file, .ok secrets⟩]) past := by
  unfold daemonAuthResponseIsValid
  split
  · intro hvalid
    cases hvalid
  · rename_i user answer hsplit
    split
    · intro hvalid
      cases hvalid
    · rename_i hknown
      rw [not_or, not_or, Bool.not_eq_false] at hknown
      have hanswered : Answered module response user answer :=
        ⟨hsplit, hknown.1, fun h => hknown.2.1 (List.contains_iff_mem.mpr h),
          List.contains_iff_mem.mp hknown.2.2⟩
      unfold readDaemonSecrets
      cases hfile : module.secretsFile with
      | none => trivial
      | some file =>
          refine ⟨⟨fun hne => absurd rfl hne, ?_⟩, fun r => ?_⟩
          · intro file' heq
            obtain rfl := DaemonOp.readSecrets.inj heq
            exact ⟨greeting, request, protocol, checksum, module, nanos, response, user, answer,
              hasks, hanswered, hfile, hpast⟩
          · cases r with
            | error e => trivial
            | ok secrets =>
                refine Guards.bind (guards_ofExcept fun entries hentries => ?_)
                refine guards_ofExcept fun valid hfits hvalid => ?_
                rw [hvalid] at hfits
                obtain ⟨password, hfound, hdigest⟩ := answerFits_iff.mp hfits
                exact ⟨user, answer, file, password, secrets, hanswered, rfl,
                  ⟨⟨entries, hentries, hfound⟩, hdigest⟩, rfl⟩

theorem guards_logIn (hasks : AsksFor config greeting request protocol checksum module)
    (hpast : past = requestCalls greeting request) :
    (logIn platform client module checksum).Guards (Permitted platform config client)
      (fun _ past' => ∃ login, past' = past ++ login ∧
        LoggedIn platform client module checksum login) past := by
  unfold logIn
  split
  · rename_i hfree
    exact (guards_sayLine okLine).returning fun _ _ h => ⟨_, h, .free hfree⟩
  · refine ⟨permitted_talk rfl (by simp), fun nanos => ?_⟩
    refine Guards.bind ((guards_sayLine _).returning fun _ past₁ h₁ => ?_)
    refine Guards.bind ((guards_expectLine 8192 _).returning fun response past₂ h₂ => ?_)
    have hchallenge : past₂ = requestCalls greeting request ++
        challengeCalls platform client module nanos response := by
      rw [h₂, h₁, hpast, List.append_assoc, List.append_assoc]
      rfl
    refine Guards.bind ((guards_daemonAuthResponseIsValid hasks hchallenge).returning
      fun valid past₃ h₃ => ?_)
    cases valid with
    | false => exact Guards.bind ((guards_sayLine _).returning fun _ _ _ => trivial)
    | true =>
        obtain ⟨user, answer, file, password, secrets, hanswered, hfile, hproved, h₃⟩ := h₃ rfl
        refine (guards_sayLine okLine).returning fun _ past₄ h₄ => ?_
        refine ⟨_, ?_, .password hanswered hfile hproved⟩
        rw [h₄, h₃, hchallenge, hpast, List.append_assoc, List.append_assoc]
        rfl

/-- Behind a login, a transfer that may be served is granted what it does. -/
theorem guards_serveModule (hasks : AsksFor config greeting request protocol checksum module)
    (hlist : request.chars ≠ "#list".toList) (hpast : past = requestCalls greeting request) :
    (serveModule platform fuels client module protocol checksum).Guards
      (Permitted platform config client) (fun _ _ => True) past := by
  refine Guards.bind ((guards_logIn hasks hpast).returning fun _ past₁ h₁ => ?_)
  obtain ⟨login, h₁, hlogin⟩ := h₁
  refine ⟨permitted_talk rfl (by simp), fun r => ?_⟩
  cases r with
  | error e => trivial
  | ok args =>
      refine Guards.bind (guards_ofExcept fun transfer hargs => ?_)
      have hsay : ∀ (line : Text) past', (sayLine line).Guards (Permitted platform config client)
          (fun _ _ => True) past' :=
        fun line past' => (guards_sayLine line).returning fun _ _ _ => trivial
      have hin : ¬ protocol < 31 → (transfer.sender = true → module.writeOnly = false) →
          (transfer.sender = false → module.readOnly = false) →
          LetIn platform config client module transfer
            (past₁ ++ [⟨.readArgs protocol, .ok args⟩]) := by
        intro hmodern hsender hreceiver
        refine ⟨_, [], (List.append_nil _).symm, ?_⟩
        rw [h₁, hpast]
        exact .intro hasks hlist hlogin hargs (not_lt.mp hmodern) hsender hreceiver
      unfold serveTransfer
      split
      · exact hsay _ _
      · rename_i hmodern
        cases hsender : transfer.sender with
        | true =>
            by_cases hwrite : module.writeOnly = true
            · simp only [hwrite, Bool.not_true, Bool.false_and, Bool.and_self, if_true, if_false,
                Bool.false_eq_true]
              exact hsay _ _
            · simp only [hwrite, Bool.not_true, Bool.false_and, Bool.true_and, if_true, if_false,
                Bool.false_eq_true]
              exact guards_of_grants grants_serveDaemonSenderProtocol31
                (hin hmodern (fun _ => by simpa using hwrite) (fun h => by rw [hsender] at h; cases h))
        | false =>
            by_cases hread : module.readOnly = true
            · simp only [hread, Bool.not_false, Bool.and_self, if_true]
              exact hsay _ _
            · simp only [hread, Bool.not_false, Bool.true_and, Bool.false_and, if_false,
                Bool.false_eq_true]
              exact guards_of_grants (grants_serveDaemonReceiverProtocol31 hsender)
                (hin hmodern (fun h => by rw [hsender] at h; cases h) (fun _ => by simpa using hread))

theorem guards_writeModuleList : (writeModuleList noMotd config).Guards
    (Permitted platform config client) (fun _ _ => True) past := by
  have hsay : ∀ line, (sayLine line).Calls (fun o : DaemonOp => ∃ line, o = .writeLine line) fun _ => True :=
    fun line => ⟨⟨line, rfl⟩, fun r => calls_ofExcept fun _ _ => trivial⟩
  have hcalls : (writeModuleList noMotd config).Calls (fun o : DaemonOp => ∃ line, o = .writeLine line)
      fun _ => True := by
    have hmodules : ∀ modules : List DaemonServerModule,
        (modules.forM fun module => sayLine (moduleLine module)).Calls
          (fun o : DaemonOp => ∃ line, o = .writeLine line) fun _ => True :=
      fun modules => calls_forM fun module _ => hsay (moduleLine module)
    cases noMotd with
    | true => exact (hmodules _).bind fun _ _ => hsay _
    | false => exact (hsay _).bind fun _ _ => (hmodules _).bind fun _ _ => hsay _
  refine (Calls.guards hcalls (J := fun _ => True) ?_ trivial).returning fun _ _ _ => trivial
  rintro past _ ⟨line, rfl⟩ _
  exact ⟨permitted_talk rfl (by simp), fun _ => trivial⟩

theorem guards_handleClient :
    (handleClient platform fuels noMotd config client).Guards (Permitted platform config client)
      (fun _ _ => True) [] := by
  have hsay : ∀ (line : Text) past', (sayLine line).Guards (Permitted platform config client)
      (fun _ _ => True) past' :=
    fun line past' => (guards_sayLine line).returning fun _ _ _ => trivial
  refine Guards.bind ((guards_sayLine daemonGreeting).returning fun _ past₁ h₁ => ?_)
  refine Guards.bind ((guards_expectLine 1024 _).returning fun greeting past₂ h₂ => ?_)
  split
  · trivial
  · refine Guards.bind (guards_ofExcept fun protocol hprotocol => ?_)
    refine Guards.bind (guards_ofExcept fun checksum hchecksum => ?_)
    refine Guards.bind ((guards_expectLine 8192 _).returning fun request past₃ h₃ => ?_)
    unfold answerClient
    split
    · exact guards_writeModuleList
    · rename_i hlist
      cases hmodule : config.find request.chars with
      | none => exact hsay _ _
      | some module =>
          refine guards_serveModule ⟨hprotocol, hchecksum, hmodule⟩ hlist ?_
          rw [h₃, h₂, h₁]
          rfl

/-! ## And back -/

theorem goes_sayLine (line : Text) : Goes (sayLine line) [⟨.writeLine line, .ok ()⟩] (.ret ()) :=
  .call _ (.here _)

theorem goes_expectLine (maxLen : Nat) (closed : String) (line : Str) :
    Goes (expectLine maxLen closed) [⟨.readLine maxLen, .ok (some line)⟩] (.ret line) :=
  .call _ (.here _)

theorem goes_daemonAuthResponseIsValid {user answer password file : Text} {secrets : Str}
    (hanswered : Answered module response user answer) (hfile : module.secretsFile = some file)
    (hproved : Proved platform client module checksum nanos user answer password secrets) :
    Goes (daemonAuthResponseIsValid platform module response.chars
      (daemonAuthChallenge platform.processId nanos module.name client) checksum)
      [⟨.readSecrets file, .ok secrets⟩] (.ret true) := by
  have hknown : ¬ (trim user = [] ∨ (trim user).contains '\x00' = true ∨
      module.authUsers.contains (trim user) = false) := by
    rw [not_or, not_or, Bool.not_eq_false]
    exact ⟨hanswered.named, fun h => hanswered.noNul (List.contains_iff_mem.mp h),
      List.contains_iff_mem.mpr hanswered.authorised⟩
  obtain ⟨entries, hentries, hfound⟩ := hproved.secret
  have hfits : answerFits platform checksum
      (daemonAuthChallenge platform.processId nanos module.name client) (trim user) answer entries =
        .ok true := answerFits_iff.mpr ⟨password, hfound, hproved.digest⟩
  unfold daemonAuthResponseIsValid readDaemonSecrets
  rw [hanswered.split, hfile]
  dsimp only
  rw [if_neg hknown]
  refine Goes.call (S := daemonSig) (o := .readSecrets file) (.ok secrets) ?_
  have hvalid : (Prog.ofExcept (parseDaemonSecrets module.name secrets.chars) >>= fun entries =>
      Prog.ofExcept (answerFits platform checksum
        (daemonAuthChallenge platform.processId nanos module.name client) (trim user) answer
        entries) : DaemonSession Bool) = .ret true := by
    rw [hentries, Prog.ofExcept_ok, Prog.ret_bind, hfits]
    rfl
  exact hvalid ▸ .here _

theorem goes_logIn {login : List DaemonCall}
    (h : LoggedIn platform client module checksum login) :
    Goes (logIn platform client module checksum) login (.ret ()) := by
  cases h with
  | free hfree =>
      unfold logIn
      rw [if_pos hfree]
      exact goes_sayLine okLine
  | password hanswered hfile hproved =>
      have husers : module.authUsers ≠ [] := List.ne_nil_of_mem hanswered.authorised
      unfold logIn authenticateDaemonClient
      rw [if_neg husers]
      refine .call _ ((goes_sayLine _).then ((goes_expectLine 8192 _ _).then
        ((goes_daemonAuthResponseIsValid hanswered hfile hproved).then ?_)))
      exact goes_sayLine okLine

/-- What is served to a client that was let in. -/
def servedTo (platform : Platform) (fuels : Fuels) (module : DaemonServerModule)
    (transfer : DaemonTransferArgs) : DaemonSession Unit :=
  if transfer.sender then serveDaemonSenderProtocol31 platform fuels module transfer
  else serveDaemonReceiverProtocol31 platform fuels module transfer

theorem serveTransfer_eq (hmodern : 31 ≤ protocol)
    (hsender : transfer.sender = true → module.writeOnly = false)
    (hreceiver : transfer.sender = false → module.readOnly = false) :
    serveTransfer platform fuels module protocol transfer =
      servedTo platform fuels module transfer := by
  unfold serveTransfer servedTo
  rw [if_neg (not_lt.mpr hmodern)]
  cases hdirection : transfer.sender with
  | true => simp [hsender hdirection]
  | false => simp [hreceiver hdirection]

theorem isPrefixOf_of_greetingFields {line : Text} {fields : List Text}
    (h : greetingFields line = .ok fields) : greetingStart.isPrefixOf line = true := by
  unfold greetingFields stripPrefix at h
  by_cases hstart : greetingStart.isPrefixOf line = true
  · exact hstart
  · rw [if_neg hstart] at h
    cases h

theorem goes_handleClient {opening : List DaemonCall}
    (h : Opening platform config client module transfer opening) :
    Goes (handleClient platform fuels noMotd config client) opening
      (servedTo platform fuels module transfer) := by
  cases h with
  | @intro greeting request protocol checksum login args hasks hlist hlogin hargs hmodern hsender
      hreceiver =>
    have hstart : ¬ greetingStart.isPrefixOf greeting.chars = false := by
      obtain ⟨fields, hfields, -⟩ := except_bind_ok hasks.protocol
      rw [isPrefixOf_of_greetingFields hfields]
      decide
    have hserve : Goes (serveModule platform fuels client module protocol checksum)
        (login ++ [⟨.readArgs protocol, .ok args⟩]) (servedTo platform fuels module transfer) := by
      refine (goes_logIn hlogin).then
        (Goes.call (S := daemonSig) (o := .readArgs protocol) (.ok args) ?_)
      dsimp only
      rw [hargs, ← serveTransfer_eq hmodern hsender hreceiver]
      exact .here _
    unfold handleClient requestCalls
    refine (goes_sayLine daemonGreeting).then ((goes_expectLine 1024 _ greeting).then ?_)
    rw [if_neg hstart, hasks.protocol, hasks.checksum, Prog.ofExcept_ok, Prog.ofExcept_ok,
      Prog.ret_bind, Prog.ret_bind]
    refine (goes_expectLine 8192 _ request).then ?_
    unfold answerClient
    rw [if_neg hlist, hasks.module]
    exact hserve

/-- A connection that calls only what is permitted, and serves every client that may be let in. -/
structure Gated (platform : Platform) (fuels : Fuels) (config : DaemonServerConfig)
    (client : Option Text) (p : DaemonSession Unit) : Prop where
  permitted : ∀ t o k, Goes p t (.call o k) → Permitted platform config client t o
  serves : ∀ module transfer opening,
    Opening platform config client module transfer opening →
    Goes p opening (servedTo platform fuels module transfer)

end Gate

end RsyncWin
