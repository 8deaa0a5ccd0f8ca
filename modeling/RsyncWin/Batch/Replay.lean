import RsyncWin.Batch.RoundTrip

/-!
# Replaying a batch file (`rsync-cli/src/batch.rs`)

Nothing is known about the file that is read. A path of its index is taken
apart and put together again from its names, so that what is written lies
below the destination. The one thing that is not checked is a time: one that
is stored with more than 63 bits stops the reader.
-/

namespace RsyncWin

open ByteString Codec

/-! ## What replaying calls -/

inductive ReplayOp where
  | writeFileDirect (target bytes : Bytes)
  | createDirAll (target : Bytes)
  | setMtime (target : Bytes) (modified : SystemTime)

def ReplayOp.target : ReplayOp → Bytes
  | writeFileDirect target _ => target
  | createDirAll target => target
  | setMtime target _ => target

/-- The file system answers each call, or says what went wrong. -/
abbrev ReplaySig : Sig := ⟨ReplayOp, fun _ => Except String Unit⟩

/-- `push` on a path: what is absolute replaces it. -/
def pushPath (base path : Bytes) : Bytes :=
  if path.head? = some slash then path
  else if base = [] ∨ base.getLast? = some slash then base ++ path
  else base ++ [slash] ++ path

def unsafeBatchPath (relative : Bytes) : Error :=
  .other s!"unsafe batch path: {fromUtf8Lossy relative}"

/-- The loop of `safe_batch_target`. -/
def safeComponents (relative : Bytes) : List Component → Bytes → Except Error Bytes
  | [], safe => .ok safe
  | .normal name :: rest, safe => safeComponents relative rest (pushPath safe name)
  | .curDir :: rest, safe => safeComponents relative rest safe
  | _ :: _, _ => .error (unsafeBatchPath relative)

def safeBatchTarget (dest relative : Bytes) (allowRoot : Bool) : Except Error Bytes := do
  let safe ← safeComponents relative (components relative) []
  if safe = [] then
    if allowRoot then .ok dest else .error (unsafeBatchPath relative)
  else .ok (pushPath dest safe)

def replayFailed (target : Bytes) (e : String) : Error :=
  .other s!"batch replay failed for {fromUtf8Lossy target}: {e}"

/-- A call whose error ends the replay. -/
def replayCall (op : ReplayOp) : Prog ReplaySig Error Unit := do
  let reply ← Prog.op (S := ReplaySig) op
  Prog.ofExcept (reply.mapError (replayFailed op.target))

section Replay

variable (md4 : Hasher)

def replayData (reader : BatchReader) (target : Bytes) (record : BatchRecord) :
    Prog ReplaySig Error Unit :=
  match record.kind with
  | .file => do
      let fileData ← Prog.ofExcept (reader.fileData md4 record)
      replayCall (.writeFileDirect target fileData)
  | .directory => replayCall (.createDirAll target)

/-- The turn of one record. A time that cannot be set is passed over. -/
def replayRecord (reader : BatchReader) (dest : Bytes) (dryRun : Bool) (record : BatchRecord) :
    Prog ReplaySig Error Unit := do
  let target ← Prog.ofExcept (safeBatchTarget dest record.relative (record.kind = .directory))
  if dryRun then pure ()
  else do
    replayData md4 reader target record
    match record.modified with
    | some mtime => do
        let _ ← Prog.op (S := ReplaySig) (.setMtime target mtime)
        pure ()
    | none => pure ()

def replayRecords (reader : BatchReader) (dest : Bytes) (dryRun : Bool) :
    List BatchRecord → Prog ReplaySig Error Unit
  | [] => pure ()
  | record :: records => do
      replayRecord md4 reader dest dryRun record
      replayRecords reader dest dryRun records

def replayBatch (file dest : Bytes) (dryRunOverride : Option Bool) :
    Prog ReplaySig Error Unit := do
  let reader ← Prog.ofExcept (BatchReader.openFile file)
  let dryRun := dryRunOverride.getD reader.dryRun
  replayRecords md4 reader dest dryRun reader.recordList

end Replay

/-! ## Where it writes -/

/-- The names of a path whose other components do not count. -/
def namesOf : List Component → List Bytes
  | [] => []
  | .normal name :: rest => name :: namesOf rest
  | _ :: rest => namesOf rest

theorem getLast?_joinNames {names : List Bytes} (h : ∀ n ∈ names, ValidName n) :
    (joinNames names).getLast? ≠ some slash := by
  rcases List.eq_nil_or_concat names with rfl | ⟨front, last, rfl⟩
  · simp [joinNames, List.intercalate]
  · rw [List.concat_eq_append] at h ⊢
    have hlast := h last (by simp)
    have hend : last.getLast? ≠ some slash := fun h => hlast.no_slash (List.mem_of_getLast? h)
    by_cases hfront : front = []
    · subst hfront
      simpa [joinNames, List.intercalate] using hend
    · rw [joinNames_concat last hfront, List.getLast?_append_of_ne_nil _ hlast.ne_nil]
      exact hend

theorem pushPath_joinNames {names : List Bytes} {name : Bytes}
    (h : ∀ n ∈ names, ValidName n) (hname : ValidName name) :
    pushPath (joinNames names) name = joinNames (names ++ [name]) := by
  have hhead : name.head? ≠ some slash := fun h => hname.no_slash (List.mem_of_head? h)
  unfold pushPath
  rw [if_neg hhead]
  by_cases hne : names = []
  · subst hne
    simp [joinNames, List.intercalate]
  · have hjoin := joinNames_ne_nil hne h
    rw [if_neg (by simp [hjoin, getLast?_joinNames h]), joinNames_concat name hne]

theorem safeComponents_ok {relative : Bytes} : ∀ {parts : List Component} {names : List Bytes}
    {safe : Bytes}, (∀ name, .normal name ∈ parts → ValidName name) →
    (∀ name ∈ names, ValidName name) →
    safeComponents relative parts (joinNames names) = .ok safe →
      safe = joinNames (names ++ namesOf parts)
  | [], names, safe, _, _, h => by
      rw [← Except.ok.inj h]
      simp [namesOf]
  | .normal name :: rest, names, safe, hparts, hnames, h => by
      have hname := hparts name (by simp)
      rw [safeComponents, pushPath_joinNames hnames hname] at h
      have hnames' : ∀ n ∈ names ++ [name], ValidName n := by
        intro n hn
        rcases List.mem_append.mp hn with hn | hn
        · exact hnames n hn
        · rwa [List.mem_singleton.mp hn]
      have hrest := safeComponents_ok (fun n hn => hparts n (List.mem_cons_of_mem _ hn)) hnames' h
      rw [hrest, List.append_assoc]
      rfl
  | .curDir :: rest, names, safe, hparts, hnames, h => by
      rw [safeComponents] at h
      have hrest := safeComponents_ok (fun n hn => hparts n (List.mem_cons_of_mem _ hn)) hnames h
      exact hrest
  | .rootDir :: rest, names, safe, _, _, h => by cases h
  | .parentDir :: rest, names, safe, _, _, h => by cases h

/-- Where a record may be written: under the destination, and at the destination
itself when it is a directory. -/
def SafeTarget (dest : Bytes) (record : BatchRecord) (target : Bytes) : Prop :=
  ∃ names, (∀ name ∈ names, ValidName name) ∧ names = namesOf (components record.relative) ∧
    ((names ≠ [] ∧ target = pushPath dest (joinNames names)) ∨
      (names = [] ∧ record.kind = .directory ∧ target = dest))

theorem mem_namesOf {name : Bytes} : ∀ {parts : List Component},
    name ∈ namesOf parts → .normal name ∈ parts
  | .normal n :: rest, h => by
      rcases List.mem_cons.mp h with rfl | h
      · exact List.mem_cons_self
      · exact List.mem_cons_of_mem _ (mem_namesOf h)
  | .curDir :: rest, h => List.mem_cons_of_mem _ (@mem_namesOf _ rest h)
  | .rootDir :: rest, h => List.mem_cons_of_mem _ (@mem_namesOf _ rest h)
  | .parentDir :: rest, h => List.mem_cons_of_mem _ (@mem_namesOf _ rest h)

theorem safeBatchTarget_ok {dest target : Bytes} {record : BatchRecord}
    (h : safeBatchTarget dest record.relative (record.kind = .directory) = .ok target) :
    SafeTarget dest record target := by
  have hvalid : ∀ name, .normal name ∈ components record.relative → ValidName name :=
    fun _ => validName_of_mem_components
  have hnames : ∀ name ∈ namesOf (components record.relative), ValidName name :=
    fun name hname => hvalid name (mem_namesOf hname)
  unfold safeBatchTarget at h
  obtain ⟨safe, hsafe, h⟩ := except_bind_ok h
  have hjoin := @safeComponents_ok _ _ [] _ hvalid (by simp) hsafe
  rw [List.nil_append] at hjoin
  refine ⟨namesOf (components record.relative), hnames, rfl, ?_⟩
  split at h
  · rename_i hempty
    split at h
    · rename_i hroot
      have hnone : namesOf (components record.relative) = [] := by
        by_contra hne
        exact joinNames_ne_nil hne hnames (hjoin.symm.trans hempty)
      exact Or.inr ⟨hnone, of_decide_eq_true hroot, (Except.ok.inj h).symm⟩
    · cases h
  · rename_i hsome
    refine Or.inl ⟨?_, ?_⟩
    · intro hnone
      rw [hjoin, hnone] at hsome
      exact hsome rfl
    · rw [← hjoin]
      exact (Except.ok.inj h).symm

section Safety

variable {md4 : Hasher} {reader : BatchReader} {dest : Bytes} {dryRun : Bool}

theorem replayCall_only {P : ReplayOp → Prop} {op : ReplayOp} (h : P op) :
    (replayCall op).Only P := by
  refine ⟨h, fun reply => ?_⟩
  exact @Prog.only_ofExcept ReplaySig _ _ P (Except.mapError (replayFailed op.target) reply)

theorem replayData_only {P : ReplayOp → Prop} {target : Bytes} (record : BatchRecord)
    (h : ∀ op : ReplayOp, op.target = target → P op) :
    (replayData md4 reader target record).Only P := by
  unfold replayData
  cases record.kind with
  | file =>
      refine (Prog.only_ofExcept _ _).bind fun fileData => ?_
      exact replayCall_only (h (.writeFileDirect target fileData) rfl)
  | directory => exact replayCall_only (h (.createDirAll target) rfl)

/-- The turn of a record fails or writes at its own place. -/
theorem replayRecord_only (record : BatchRecord) :
    (replayRecord md4 reader dest dryRun record).Only
      fun op : ReplayOp => SafeTarget dest record op.target := by
  unfold replayRecord
  cases htarget : safeBatchTarget dest record.relative (record.kind = .directory) with
  | error e => trivial
  | ok target =>
      have hsafe := safeBatchTarget_ok htarget
      rw [Prog.ofExcept_ok, Prog.ret_bind]
      cases dryRun with
      | true => trivial
      | false =>
          refine (replayData_only record ?_).bind fun _ => ?_
          · rintro op rfl
            exact hsafe
          · cases record.modified with
            | some mtime => exact ⟨hsafe, fun _ => trivial⟩
            | none => trivial

theorem replayRecords_only : ∀ records : List BatchRecord,
    (replayRecords md4 reader dest dryRun records).Only
      fun op : ReplayOp => ∃ record ∈ records, SafeTarget dest record op.target
  | [] => trivial
  | record :: records => by
      refine Prog.Only.bind ((replayRecord_only record).mono fun op h => ?_) fun _ => ?_
      · exact ⟨record, List.mem_cons_self, h⟩
      · refine (replayRecords_only records).mono fun op h => ?_
        obtain ⟨r, hr, h⟩ := h
        exact ⟨r, List.mem_cons_of_mem record hr, h⟩

end Safety

/-! ## Times that do not fit -/

/-- An index record up to its time. -/
def StoredHead (secs : Nat) (head : Bytes) : Prop :=
  ∃ (path : Bytes) (kind : BatchRecordKind) (len dataOffset : Nat),
    (utf8Chars path).isSome = true ∧ path.length ≤ u16Max ∧
      len < 2 ^ 64 ∧ dataOffset < 2 ^ 64 ∧ secs < 2 ^ 64 ∧
      head = leBytes 2 path.length ++ (path ++ ([kind.toByte] ++ (leBytes 8 len ++
        (leBytes 8 dataOffset ++ leBytes 8 secs))))

/-- Of the next `count` records one has a time of 2^63 seconds or more, and those before
it are whole. -/
inductive TimeOverflow : Nat → Bytes → Prop
  | here {count secs : Nat} {head rest : Bytes} :
      StoredHead secs head → 2 ^ 63 ≤ secs → TimeOverflow (count + 1) (head ++ rest)
  | later {count secs : Nat} {head checksum rest : Bytes} :
      StoredHead secs head → secs < 2 ^ 63 → checksum.length = 16 → TimeOverflow count rest →
        TimeOverflow (count + 1) (head ++ (checksum ++ rest))

/-- A file with a header and a manifest. -/
def HeaderOf (file : Bytes) : Prop :=
  ∃ (dryRun : UInt8) (pad text rest : Bytes) (chars : Text) (manifest : BatchManifest),
    pad.length = batchHeaderLen - 12 - 4 - 1 ∧ text.length ≤ u32Max ∧
      utf8Chars text = some chars ∧ parseManifest chars = .ok manifest ∧
      file = batchMagic ++ (leBytes 4 batchVersion ++ ([dryRun] ++ (pad ++ (manifestMarker ++
        (leBytes 4 text.length ++ (text ++ rest))))))

/-- A file that is in order up to an index record whose time does not fit. -/
def TimeOverflows (file : Bytes) : Prop :=
  HeaderOf file ∧ ∃ (offset count : Nat) (front rest : Bytes),
    offset ≤ maxFileLen ∧ count ≤ u32Max ∧
      file = front ++ (leBytes 8 offset ++ endMarker) ∧
      file.drop offset = indexMarker ++ (leBytes 4 count ++ rest) ∧ TimeOverflow count rest

/-- The time of a record as the reader makes it. -/
def storedTime (secs : Nat) : Except Error (Option SystemTime) :=
  if secs > 0 then (epochPlus secs).map some else .ok none

def timePanic : Error := .panic "overflow when adding duration to instant"

theorem storedTime_of_lt {secs : Nat} (h : secs < 2 ^ 63) : ∃ t, storedTime secs = .ok t := by
  unfold storedTime
  split
  · rw [epochPlus, dif_pos h]
    exact ⟨_, rfl⟩
  · exact ⟨none, rfl⟩

theorem storedTime_of_ge {secs : Nat} (h : 2 ^ 63 ≤ secs) : storedTime secs = .error timePanic := by
  unfold storedTime
  rw [if_pos (by omega), epochPlus, dif_neg (by omega)]
  rfl

/-! ### A file of that kind stops the reader -/

theorem run_decodes {α β : Type} {p : Reader α} {k : α → Reader β} {bytes : Bytes} {a : α}
    (h : Decodes p bytes a) (rest : Bytes) :
    (p >>= k).run buffer (bytes ++ rest) = (k a).run buffer rest :=
  Prog.run_bind_ret (h rest) k

theorem run_readRecord {secs : Nat} {head : Bytes} (h : StoredHead secs head) :
    ∃ record : Option SystemTime → Bytes → Bytes × BatchRecord, ∀ rest,
      readRecord.run buffer (head ++ rest) = (do
        let modified ← Prog.ofExcept (storedTime secs)
        let checksum ← readExact 16
        pure (record modified checksum) : Reader (Bytes × BatchRecord)).run buffer rest := by
  obtain ⟨path, kind, len, dataOffset, hutf8, hpath, hlen, hoffset, hsecs, rfl⟩ := h
  have hstr : Str.fromUtf8 path = some ⟨path, hutf8⟩ := dif_pos hutf8
  unfold u16Max at hpath
  refine ⟨fun modified checksum => (path, ⟨kind, [], len, modified, dataOffset, checksum⟩),
    fun rest => ?_⟩
  simp only [List.append_assoc]
  unfold readRecord
  rw [readU16Le, run_decodes (decodes_leBytes (by omega)), run_decodes (decodes_readExact rfl),
    hstr]
  dsimp only
  rw [run_decodes (decodes_readU8 _), fromByte_toByte, Prog.ofExcept_ok, Prog.ret_bind]
  rw [readU64Le, run_decodes (decodes_leBytes (by omega)), run_decodes (decodes_leBytes (by omega)),
    run_decodes (decodes_leBytes (by omega))]
  rfl

theorem run_readRecords {count : Nat} {bytes : Bytes} (h : TimeOverflow count bytes) :
    ∀ map, ∃ rest, (readRecords count map).run buffer bytes = .fail timePanic rest := by
  induction h with
  | @here count secs head rest hhead hsecs =>
      intro map
      obtain ⟨record, hrun⟩ := run_readRecord hhead
      refine ⟨rest, ?_⟩
      rw [readRecords]
      refine Prog.run_bind_fail ?_ _
      rw [hrun, storedTime_of_ge hsecs]
      rfl
  | @later count secs head checksum rest hhead hsecs hsum _ ih =>
      intro map
      obtain ⟨record, hrun⟩ := run_readRecord hhead
      obtain ⟨t, ht⟩ := storedTime_of_lt hsecs
      obtain ⟨left, hleft⟩ := ih (SortedMap.insert comparePaths (record t checksum).1
        (record t checksum).2 map)
      refine ⟨left, ?_⟩
      rw [readRecords, @Prog.run_bind_ret _ _ _ _ _ _ _ _ rest (record t checksum)]
      · exact hleft
      · rw [hrun, ht, Prog.ofExcept_ok, Prog.ret_bind, run_decodes (decodes_readExact hsum)]
        rfl

theorem run_readHeader {file : Bytes} (h : HeaderOf file) :
    ∃ header, readFrom file 0 readHeader = .ok header := by
  obtain ⟨dryRun, pad, text, rest, chars, manifest, hpad, hlen, hchars, hparse, rfl⟩ := h
  unfold u32Max at hlen
  refine ⟨((dryRun ≠ 0, manifest), rest), ?_⟩
  unfold readFrom readHeader
  rw [List.drop_zero, run_decodes (decodes_expectBytes batchMagic _), readU32Le,
    run_decodes (decodes_leBytes (by decide)), if_neg (by simp)]
  rw [run_decodes (decodes_readU8 dryRun), run_decodes (decodes_readExact hpad)]
  unfold readManifestBlock
  rw [Prog.bind_assoc, run_decodes (decodes_expectBytes manifestMarker _), readU32Le,
    Prog.bind_assoc, run_decodes (decodes_leBytes (by omega)), Prog.bind_assoc,
    run_decodes (decodes_readExact rfl), hchars]
  dsimp only
  rw [hparse, Prog.ofExcept_ok]
  rfl

theorem openFile_overflow {file : Bytes} (h : TimeOverflows file) :
    BatchReader.openFile file = .error timePanic := by
  obtain ⟨hheader, offset, count, front, index, hoffset, hcount, hfile, hindex, hover⟩ := h
  obtain ⟨header, hheader⟩ := run_readHeader hheader
  have hmarker : endMarker.length = 4 := rfl
  have hlong : ¬ file.length < 12 := by
    rw [hfile]
    simp only [List.length_append, leBytes_length]
    omega
  have hend : readFrom file (file.length - 4)
      (expectBytes endMarker "batch file corrupted: missing END1 trailer") = .ok ((), []) := by
    refine readFrom_decodes (decodes_expectBytes endMarker _) ?_
    rw [hfile, ← List.append_assoc, List.append_nil]
    exact drop_trailer rfl
  have hplace : readFrom file (file.length - 12) readU64Le = .ok (offset, endMarker) := by
    unfold maxFileLen at hoffset
    refine readFrom_decodes (decodes_leBytes (by omega)) ?_
    rw [hfile]
    exact drop_trailer (by rw [List.length_append, leBytes_length]; rfl)
  have hread : readFrom file offset readBatchIndex = .error timePanic := by
    obtain ⟨left, hleft⟩ := run_readRecords hover []
    unfold u32Max at hcount
    unfold readFrom readBatchIndex
    rw [hindex, run_decodes (decodes_expectBytes indexMarker _), readU32Le,
      run_decodes (decodes_leBytes (by omega)), hleft]
  have hseek : seekTo offset = .ok () := if_neg (by omega)
  unfold BatchReader.openFile
  simp only [hheader, if_neg hlong, hend, hplace, hseek, hread, bind, Except.bind]

/-! ### And no other file does -/

section Parses

variable {α : Type} {E : Error → Prop} {inp : Bytes}

theorem parses_leBytes {width : Nat} {Q : Nat → Bytes → Prop}
    (h : ∀ n rest, n < 256 ^ width → inp = leBytes width n ++ rest → Q n rest) :
    Parses E (readExact width >>= fun bytes => pure (leNat bytes) : Reader Nat) Q inp := by
  refine (parses_readExact fun bytes rest hlen heq => ?_).bind
  refine parses_ret (h (leNat bytes) rest ?_ ?_)
  · rw [← hlen]
    exact leNat_lt bytes
  · rw [← hlen, leBytes_leNat]
    exact heq

theorem parses_readU8 {Q : UInt8 → Bytes → Prop} (h : ∀ b rest, inp = [b] ++ rest → Q b rest) :
    Parses E readU8 Q inp := by
  refine (parses_readExact fun bytes rest hlen heq => ?_).bind
  obtain ⟨b, rfl⟩ := List.length_eq_one_iff.mp hlen
  exact parses_ret (h b rest heq)

theorem parses_expectBytes {expected : Bytes} {message : String} {Q : Unit → Bytes → Prop}
    (herr : E (.other message)) (h : ∀ rest, inp = expected ++ rest → Q () rest) :
    Parses E (expectBytes expected message) Q inp := by
  refine (parses_readExact fun bytes rest _ heq => ?_).bind
  split
  · exact parses_throw herr
  · rename_i hsame
    refine parses_ret (h rest ?_)
    rw [← of_not_not hsame]
    exact heq

theorem readFrom_error {p : Reader α} {Q : α → Bytes → Prop} {file : Bytes} {offset : Nat}
    {e : Error} (h : Parses E p Q (file.drop offset)) (hread : readFrom file offset p = .error e) :
    E e ∨ e = unexpectedEof := by
  unfold Parses at h
  unfold readFrom at hread
  cases hp : p.run buffer (file.drop offset) with
  | ret a rest =>
      rw [hp] at hread
      cases hread
  | fail e' rest =>
      rw [hp] at h hread
      exact Or.inl (Except.error.inj hread ▸ h)
  | wait rest =>
      rw [hp] at hread
      exact Or.inr (Except.error.inj hread).symm

theorem readFrom_ok {p : Reader α} {Q : α → Bytes → Prop} {file rest : Bytes} {offset : Nat}
    {a : α} (h : Parses E p Q (file.drop offset))
    (hread : readFrom file offset p = .ok (a, rest)) : Q a rest := by
  unfold Parses at h
  unfold readFrom at hread
  cases hp : p.run buffer (file.drop offset) with
  | ret a' rest' =>
      rw [hp] at h hread
      obtain ⟨rfl, rfl⟩ := Prod.mk.inj (Except.ok.inj hread)
      exact h
  | fail e' rest =>
      rw [hp] at hread
      cases hread
  | wait rest =>
      rw [hp] at hread
      cases hread

theorem unescapeManifestValue_error {value : Text} {e : Error}
    (h : unescapeManifestValue value = .error e) : e = invalidEscape := by
  induction value using unescapeManifestValue.induct with
  | case1 => cases h
  | case2 =>
      rw [unescapeManifestValue] at h
      exact (Except.error.inj h).symm
  | case3 escaped rest e' he ih =>
      rw [unescapeManifestValue, he] at h
      exact ih (he.trans h)
  | case4 escaped rest out hout ih =>
      rw [unescapeManifestValue, hout] at h
      cases h
  | case5 ch rest hne hne' e' he ih =>
      rw [unescapeManifestValue, he] at h
      exact ih (he.trans h)
      all_goals assumption
  | case6 ch rest hne hne' out hout ih =>
      rw [unescapeManifestValue, hout] at h
      · cases h
      all_goals assumption

theorem parseLines_error : ∀ {lines : List Text} {manifest : BatchManifest} {e : Error},
    parseLines manifest lines = .error e → e = invalidEscape
  | [], manifest, e, h => by cases h
  | line :: lines, manifest, e, h => by
      rw [parseLines] at h
      split at h
      · exact parseLines_error h
      · split at h
        · rename_i he
          rw [← Except.error.inj h]
          exact unescapeManifestValue_error he
        · exact parseLines_error h

theorem toByte_of_fromByte {byte : UInt8} {kind : BatchRecordKind}
    (h : BatchRecordKind.fromByte byte = .ok kind) : kind.toByte = byte := by
  unfold BatchRecordKind.fromByte at h
  split at h
  · rename_i hfile
    rw [← Except.ok.inj h, hfile]
    rfl
  · split at h
    · rename_i hdirectory
      rw [← Except.ok.inj h, hdirectory]
      rfl
    · cases h

/-- Nothing before the index stops the reader. -/
def Fails (e : Error) : Prop := ∀ m, e ≠ .panic m

theorem fails_other (message : String) : Fails (.other message) := fun _ h => by cases h

theorem parses_readHeader {file : Bytes} :
    Parses Fails readHeader (fun _ _ => HeaderOf file) file := by
  refine (parses_expectBytes (fails_other _) fun rest₁ h₁ => ?_).bind
  refine (parses_leBytes fun version rest₂ _ h₂ => ?_).bind
  split
  · exact parses_throw (fails_other _)
  · rename_i hversion
    refine (parses_readU8 fun dryRun rest₃ h₃ => ?_).bind
    refine (parses_readExact fun pad rest₄ hpad h₄ => ?_).bind
    refine Parses.bind ?_
    refine (parses_expectBytes (fails_other _) fun rest₅ h₅ => ?_).bind
    refine (parses_leBytes fun len rest₆ hlen h₆ => ?_).bind
    refine (parses_readExact fun text rest₇ htext h₇ => ?_).bind
    split
    · exact parses_throw (fails_other _)
    · rename_i chars hchars
      refine parses_ofExcept (fun e he => ?_) fun manifest hparse => ?_
      · rw [parseLines_error he]
        exact fails_other _
      · refine ⟨dryRun, pad, text, rest₇, chars, manifest, hpad, ?_, hchars, hparse, ?_⟩
        · unfold u32Max
          omega
        · rw [h₁, h₂, h₃, h₄, h₅, h₆, h₇, of_not_not hversion, htext]

theorem parses_readRecord {E : Error → Prop} {inp : Bytes} {Q : Bytes × BatchRecord → Bytes → Prop}
    (hother : ∀ message, E (.other message))
    (hpanic : ∀ secs head rest, StoredHead secs head → 2 ^ 63 ≤ secs → inp = head ++ rest →
      E timePanic)
    (hok : ∀ secs head checksum rest, StoredHead secs head → secs < 2 ^ 63 →
      checksum.length = 16 → inp = head ++ (checksum ++ rest) → ∀ record, Q record rest) :
    Parses E readRecord Q inp := by
  refine (parses_leBytes fun relLen rest₁ hrelLen h₁ => ?_).bind
  refine (parses_readExact fun path rest₂ hpath h₂ => ?_).bind
  split
  · exact parses_throw (hother _)
  · rename_i relative hstr
    have hutf8 : (utf8Chars path).isSome = true := by
      unfold Str.fromUtf8 at hstr
      split at hstr
      · assumption
      · cases hstr
    refine (parses_readU8 fun kindByte rest₃ h₃ => ?_).bind
    refine (parses_ofExcept (fun e he => ?_) fun kind hkind => ?_).bind
    · unfold BatchRecordKind.fromByte at he
      split at he
      · cases he
      · split at he
        · cases he
        · rw [← Except.error.inj he]
          exact hother _
    have hbyte := toByte_of_fromByte hkind
    refine (parses_leBytes fun len rest₄ hlen h₄ => ?_).bind
    refine (parses_leBytes fun dataOffset rest₅ hoffset h₅ => ?_).bind
    refine (parses_leBytes fun secs rest₆ hsecs h₆ => ?_).bind
    have hhead : StoredHead secs (leBytes 2 path.length ++ (path ++ ([kind.toByte] ++
        (leBytes 8 len ++ (leBytes 8 dataOffset ++ leBytes 8 secs))))) := by
      refine ⟨path, kind, len, dataOffset, hutf8, ?_, by omega, by omega, by omega, rfl⟩
      unfold u16Max
      omega
    have hinp : inp = (leBytes 2 path.length ++ (path ++ ([kind.toByte] ++ (leBytes 8 len ++
        (leBytes 8 dataOffset ++ leBytes 8 secs))))) ++ rest₆ := by
      rw [h₁, h₂, h₃, h₄, h₅, h₆, hpath, hbyte]
      simp only [List.append_assoc]
    by_cases hlt : secs < 2 ^ 63
    · obtain ⟨t, ht⟩ := storedTime_of_lt hlt
      unfold storedTime at ht
      rw [ht, Prog.ofExcept_ok, Prog.ret_bind]
      refine (parses_readExact fun checksum rest₇ hsum h₇ => ?_).bind
      rw [h₇] at hinp
      exact parses_ret (hok secs _ checksum rest₇ hhead hlt hsum hinp _)
    · have hge : 2 ^ 63 ≤ secs := by omega
      have htime := storedTime_of_ge hge
      unfold storedTime at htime
      rw [htime]
      exact parses_throw (hpanic secs _ rest₆ hhead hge hinp)

/-- The index stops the reader at a time that does not fit, and nowhere else. -/
theorem parses_readRecords : ∀ {count : Nat} {map : List (Bytes × BatchRecord)} {inp : Bytes},
    Parses (fun e => ∀ m, e = .panic m → TimeOverflow count inp) (readRecords count map)
      (fun _ _ => True) inp
  | 0, map, inp => parses_ret trivial
  | count + 1, map, inp => by
      refine (parses_readRecord (fun message m h => by cases h) ?_ ?_).bind
      · intro secs head rest hhead hge hinp m _
        rw [hinp]
        exact .here hhead hge
      · intro secs head checksum rest hhead hlt hsum hinp record
        have hrest := @parses_readRecords count
          (SortedMap.insert comparePaths record.1 record.2 map) rest
        refine hrest.mono fun e he m hm => ?_
        rw [hinp]
        exact .later hhead hlt hsum (he m hm)

theorem parses_readBatchIndex {inp : Bytes} :
    Parses (fun e => ∀ m, e = .panic m → ∃ count rest, count ≤ u32Max ∧
      inp = indexMarker ++ (leBytes 4 count ++ rest) ∧ TimeOverflow count rest) readBatchIndex
      (fun _ _ => True) inp := by
  refine (parses_expectBytes (fun m h => by cases h) fun rest₁ h₁ => ?_).bind
  refine (parses_leBytes fun count rest₂ hcount h₂ => ?_).bind
  refine (@parses_readRecords count _ _).mono fun e he m hm => ?_
  refine ⟨count, rest₂, ?_, ?_, he m hm⟩
  · unfold u32Max
    omega
  · rw [h₁, h₂]

end Parses

/-- The last bytes of a file, once they have been read. -/
theorem trailer_eq {file : Bytes} {offset : Nat} {rest₁ rest₂ : Bytes} (hlen : 12 ≤ file.length)
    (hplace : file.drop (file.length - 12) = leBytes 8 offset ++ rest₁)
    (hend : file.drop (file.length - 4) = endMarker ++ rest₂) :
    file = file.take (file.length - 12) ++ (leBytes 8 offset ++ endMarker) := by
  have hlen₂ := congrArg List.length hend
  rw [List.length_drop, List.length_append] at hlen₂
  have hmarker : endMarker.length = 4 := rfl
  have hrest₂ : rest₂ = [] := List.length_eq_zero_iff.mp (by omega)
  have hdrop : file.drop (file.length - 4) = (file.drop (file.length - 12)).drop 8 := by
    rw [List.drop_drop]
    congr 1
    omega
  have hrest₁ : rest₁ = endMarker := by
    rw [hend, hplace, hrest₂, List.append_nil,
      List.drop_left' (leBytes_length 8 offset)] at hdrop
    exact hdrop.symm
  rw [← hrest₁, ← hplace, List.take_append_drop]

theorem not_panic {α : Type} {p : Reader α} {Q : α → Bytes → Prop} {file : Bytes} {offset : Nat}
    {m : String} (h : Parses Fails p Q (file.drop offset)) :
    readFrom file offset p ≠ .error (.panic m) := by
  intro hread
  rcases readFrom_error h hread with hfails | heof
  · exact hfails m rfl
  · cases heof

theorem openFile_panic {file : Bytes} {m : String}
    (h : BatchReader.openFile file = .error (.panic m)) : TimeOverflows file := by
  unfold BatchReader.openFile at h
  rcases except_bind_error h with h | ⟨⟨⟨dryRun, manifest⟩, rest⟩, hheader, h⟩
  · exact absurd h (not_panic parses_readHeader)
  dsimp only at h
  by_cases hlong : file.length < 12
  · rw [if_pos hlong] at h
    cases h
  rw [if_neg hlong] at h
  have hmarker : Parses Fails (expectBytes endMarker
      "batch file corrupted: missing END1 trailer")
      (fun _ rest => file.drop (file.length - 4) = endMarker ++ rest)
      (file.drop (file.length - 4)) :=
    parses_expectBytes (fails_other _) fun _ heq => heq
  have hoffset : Parses Fails readU64Le
      (fun n rest => file.drop (file.length - 12) = leBytes 8 n ++ rest)
      (file.drop (file.length - 12)) :=
    parses_leBytes fun _ _ _ heq => heq
  rcases except_bind_error h with h | ⟨⟨_, rest₂⟩, hend, h⟩
  · exact absurd h (not_panic hmarker)
  rcases except_bind_error h with h | ⟨⟨offset, rest₁⟩, hplace, h⟩
  · exact absurd h (not_panic hoffset)
  rcases except_bind_error h with h | ⟨_, hseek, h⟩
  · unfold seekTo at h
    split at h
    · cases h
    · cases h
  rcases except_bind_error h with h | ⟨⟨records, _⟩, _, h⟩
  · rcases readFrom_error parses_readBatchIndex h with hindex | heof
    · obtain ⟨count, index, hcount, heq, hover⟩ := hindex m rfl
      have hplaced := readFrom_ok hoffset hplace
      have hended := readFrom_ok hmarker hend
      have hfile := trailer_eq (Nat.le_of_not_lt hlong) hplaced hended
      refine ⟨readFrom_ok parses_readHeader hheader, offset, count, _, index, ?_, hcount, hfile,
        heq, hover⟩
      unfold seekTo at hseek
      split at hseek
      · cases hseek
      · omega
    · cases heof
  · cases h

/-! ## Any file at all -/

/-- What reading and replaying `file` may do: the reader ends with a value or an error,
every record fails or writes at its own place, and nothing else is written. -/
structure ReplaysSafely (md4 : Hasher) (file : Bytes) : Prop where
  opens : ∀ m, BatchReader.openFile file ≠ .error (.panic m)
  record : ∀ reader, BatchReader.openFile file = .ok reader →
    ∀ record ∈ reader.recordList, ∀ dest dryRun,
      (replayRecord md4 reader dest dryRun record).Only
        fun op : ReplayOp => SafeTarget dest record op.target
  whole : ∀ dest dryRunOverride, (replayBatch md4 file dest dryRunOverride).Only
    fun op : ReplayOp => ∃ reader, BatchReader.openFile file = .ok reader ∧
      ∃ record ∈ reader.recordList, SafeTarget dest record op.target

theorem replayBatch_only (md4 : Hasher) (file dest : Bytes) (dryRunOverride : Option Bool) :
    (replayBatch md4 file dest dryRunOverride).Only fun op : ReplayOp =>
      ∃ reader, BatchReader.openFile file = .ok reader ∧
        ∃ record ∈ reader.recordList, SafeTarget dest record op.target := by
  unfold replayBatch
  cases hopen : BatchReader.openFile file with
  | error e => trivial
  | ok reader =>
      rw [Prog.ofExcept_ok, Prog.ret_bind]
      refine (replayRecords_only reader.recordList).mono fun op h => ?_
      exact ⟨reader, rfl, h⟩

/-- Reading and replaying is safe unless the index holds a time of 2^63 seconds or more
and is in order up to there. -/
theorem replay_safe_iff (md4 : Hasher) (file : Bytes) :
    ReplaysSafely md4 file ↔ ¬ TimeOverflows file := by
  constructor
  · intro hsafe hover
    exact hsafe.opens _ (openFile_overflow hover)
  · intro hfits
    refine ⟨fun m hpanic => hfits (openFile_panic hpanic), ?_, replayBatch_only md4 file⟩
    intro reader _ record _ dest dryRun
    exact replayRecord_only record

/-- One directory, of a time with the highest bit set. -/
def farFuture : Bytes :=
  headerBytes ⟨[], [], ['t']⟩ ++ (indexMarker ++ (leBytes 4 1 ++ (leBytes 2 1 ++ ([0x64] ++
    ([2] ++ (leBytes 8 0 ++ (leBytes 8 0 ++ (leBytes 8 (2 ^ 63) ++ (List.replicate 16 0 ++
      (leBytes 8 (headerBytes ⟨[], [], ['t']⟩).length ++ endMarker))))))))))

set_option maxRecDepth 4000 in
theorem farFuture_panics : BatchReader.openFile farFuture = .error timePanic ∧
    ¬ ReplaysSafely ⟨Md4.digest, Md4.digest_length⟩ farFuture := by
  have hpanic : BatchReader.openFile farFuture = .error timePanic := rfl
  exact ⟨hpanic, fun hsafe => hsafe.opens _ hpanic⟩

end RsyncWin
