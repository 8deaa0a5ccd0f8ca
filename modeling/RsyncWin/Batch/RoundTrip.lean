import RsyncWin.Batch.File
import RsyncWin.Lib.Md4
import RsyncWin.Protocol.IoCodec

/-!
# Batch files replay what was recorded

While the file grows, what lies at the offset of a record stays there (`Filed`).
The index is decoded record by record; whatever the contents look like, it is
found by the offset behind it.
-/

namespace RsyncWin

open ByteString Codec

/-! ## What is written -/

/-- `bytes` were put at the end of the file, and nothing else changed. -/
structure Wrote (w : BatchWriter) (bytes : Bytes) (w' : BatchWriter) : Prop where
  file : w'.file = w.file ++ bytes
  records : w'.records = w.records
  dryRun : w'.dryRun = w.dryRun
  fits : w'.file.length ≤ maxFileLen

namespace BatchWriter

variable {w w' : BatchWriter} {bytes : Bytes}

theorem write_ok (h : w.write bytes = .ok w') : Wrote w bytes w' := by
  unfold write at h
  split at h
  · cases h
  · rename_i hfits
    rw [← Except.ok.inj h]
    refine ⟨rfl, rfl, rfl, ?_⟩
    rw [List.length_append]
    omega

end BatchWriter

theorem Wrote.append {w w₁ w₂ : BatchWriter} {bytes bytes' : Bytes} (h : Wrote w bytes w₁)
    (h' : Wrote w₁ bytes' w₂) : Wrote w (bytes ++ bytes') w₂ := by
  refine ⟨?_, h'.records.trans h.records, h'.dryRun.trans h.dryRun, h'.fits⟩
  rw [h'.file, h.file, List.append_assoc]

def manifestBytes (manifest : BatchManifest) : Bytes :=
  manifestMarker ++ (leBytes 4 (utf8Encode (renderManifest manifest)).length ++
    utf8Encode (renderManifest manifest))

def headerBytes (manifest : BatchManifest) : Bytes :=
  batchMagic ++ (leBytes 4 batchVersion ++ ([0] ++
    (List.replicate (batchHeaderLen - 12 - 4 - 1) 0 ++ manifestBytes manifest)))

def recordBytes (record : BatchRecord) : Bytes :=
  leBytes 2 (lossyBytes record.relative).length ++ (lossyBytes record.relative ++
    ([record.kind.toByte] ++ (leBytes 8 record.len ++ (leBytes 8 record.dataOffset ++
      (leBytes 8 (mtimeSecs record.modified) ++ record.checksum)))))

def indexBytes (records : List BatchRecord) : Bytes :=
  indexMarker ++ (leBytes 4 records.length ++ records.flatMap recordBytes)

namespace BatchWriter

variable {w w' : BatchWriter}

theorem createWithManifest_ok {manifest : BatchManifest}
    (h : createWithManifest false manifest = .ok w) :
    Wrote ⟨[], [], false⟩ (headerBytes manifest) w ∧
      (utf8Encode (renderManifest manifest)).length ≤ u32Max := by
  unfold createWithManifest at h
  obtain ⟨w₁, hmagic, h⟩ := except_bind_ok h
  obtain ⟨w₂, hversion, h⟩ := except_bind_ok h
  obtain ⟨w₃, hdry, h⟩ := except_bind_ok h
  obtain ⟨w₄, hpad, h⟩ := except_bind_ok h
  unfold writeManifestBlock at h
  dsimp only at h
  split at h
  · cases h
  · rename_i hlen
    obtain ⟨w₅, hmarker, h⟩ := except_bind_ok h
    obtain ⟨w₆, hcount, htext⟩ := except_bind_ok h
    have hmanifest := (write_ok hmarker).append ((write_ok hcount).append (write_ok htext))
    exact ⟨(write_ok hmagic).append ((write_ok hversion).append
      ((write_ok hdry).append ((write_ok hpad).append hmanifest))), by omega⟩

theorem writeRecord_ok {record : BatchRecord} (h : w.writeRecord record = .ok w') :
    Wrote w (recordBytes record) w' ∧ (lossyBytes record.relative).length ≤ u16Max := by
  unfold writeRecord at h
  dsimp only at h
  split at h
  · cases h
  · rename_i hlen
    obtain ⟨w₁, h1, h⟩ := except_bind_ok h
    obtain ⟨w₂, h2, h⟩ := except_bind_ok h
    obtain ⟨w₃, h3, h⟩ := except_bind_ok h
    obtain ⟨w₄, h4, h⟩ := except_bind_ok h
    obtain ⟨w₅, h5, h⟩ := except_bind_ok h
    obtain ⟨w₆, h6, h7⟩ := except_bind_ok h
    exact ⟨(write_ok h1).append ((write_ok h2).append ((write_ok h3).append
      ((write_ok h4).append ((write_ok h5).append ((write_ok h6).append (write_ok h7)))))),
      by omega⟩

theorem writeRecords_ok : ∀ {records : List BatchRecord} {w w' : BatchWriter},
    w.file.length ≤ maxFileLen → records.foldlM writeRecord w = .ok w' →
      Wrote w (records.flatMap recordBytes) w' ∧
        ∀ record ∈ records, (lossyBytes record.relative).length ≤ u16Max
  | [], w, w', hfits, h => by
      rw [List.foldlM_nil] at h
      rw [← Except.ok.inj h]
      exact ⟨⟨by simp, rfl, rfl, hfits⟩, by simp⟩
  | record :: records, w, w', _, h => by
      rw [List.foldlM_cons] at h
      obtain ⟨w₁, hrecord, h⟩ := except_bind_ok h
      obtain ⟨hwrote, hlen⟩ := writeRecord_ok hrecord
      obtain ⟨hwrote', hlen'⟩ := writeRecords_ok hwrote.fits h
      rw [List.flatMap_cons]
      refine ⟨hwrote.append hwrote', fun r hr => ?_⟩
      rcases List.mem_cons.mp hr with rfl | hr
      · exact hlen
      · exact hlen' r hr

/-- What a finished file looks like. -/
structure Finished (w : BatchWriter) (records : List BatchRecord) (file : Bytes) : Prop where
  same : records = w.records
  layout : file = w.file ++ (indexBytes records ++ (leBytes 8 w.file.length ++ endMarker))
  fits : file.length ≤ maxFileLen
  count : records.length ≤ u32Max
  paths : ∀ record ∈ records, (lossyBytes record.relative).length ≤ u16Max

theorem finish_ok {records : List BatchRecord} {file : Bytes}
    (h : w.finish = .ok (records, file)) : Finished w records file := by
  unfold finish at h
  obtain ⟨w₁, hmarker, h⟩ := except_bind_ok h
  split at h
  · cases h
  · rename_i hcount
    obtain ⟨w₂, hlen, h⟩ := except_bind_ok h
    obtain ⟨w₃, hrecords, h⟩ := except_bind_ok h
    obtain ⟨w₄, hoffset, h⟩ := except_bind_ok h
    obtain ⟨w₅, hend, h⟩ := except_bind_ok h
    obtain ⟨rfl, rfl⟩ := Prod.mk.inj (Except.ok.inj h)
    have hw₁ := write_ok hmarker
    have hw₂ := write_ok hlen
    obtain ⟨hw₃, hpaths⟩ := writeRecords_ok hw₂.fits hrecords
    have hw₄ := write_ok hoffset
    have hw₅ := write_ok hend
    have hall := ((hw₁.append hw₂).append hw₃).append (hw₄.append hw₅)
    have hrecords₂ : w₂.records = w.records := hw₂.records.trans hw₁.records
    refine ⟨hall.records, ?_, hall.fits, ?_, ?_⟩
    · rw [hall.file, hall.records, hw₁.records, hrecords₂]
      simp [indexBytes]
    · rw [hall.records, ← hw₁.records]
      omega
    · rw [hall.records, ← hrecords₂]
      exact hpaths

end BatchWriter

/-! ## What is read -/

section Read

variable {α : Type} {p : Reader α} {bytes rest : Bytes} {a : α}

theorem readFrom_decodes (h : Decodes p bytes a) {file : Bytes} {offset : Nat}
    (hfile : file.drop offset = bytes ++ rest) : readFrom file offset p = .ok (a, rest) := by
  unfold readFrom
  rw [hfile, h rest]

theorem decodes_expectBytes (expected : Bytes) (message : String) :
    Decodes (expectBytes expected message) expected () := by
  have h : Decodes (expectBytes expected message) (expected ++ []) () := by
    refine (decodes_readExact rfl).bind ?_
    rw [if_neg (by simp)]
    exact decodes_ret ()
  rwa [List.append_nil] at h

theorem decodes_leBytes {width n : Nat} (h : n < 256 ^ width) :
    Decodes (readExact width >>= fun bytes => pure (leNat bytes) : Reader Nat)
      (leBytes width n) n := by
  refine (decodes_readExact (leBytes_length width n)).bind_ret ?_
  rw [leNat_leBytes, Nat.mod_eq_of_lt h]
  rfl

theorem decodes_readManifestBlock {manifest : BatchManifest} (htoken : manifest.tokenStream ≠ [])
    (hlen : (utf8Encode (renderManifest manifest)).length ≤ u32Max) :
    Decodes readManifestBlock (manifestBytes manifest) manifest := by
  unfold readManifestBlock manifestBytes
  refine (decodes_expectBytes _ _).bind ((decodes_leBytes ?_).bind ?_)
  · unfold u32Max at hlen
    omega
  · refine (decodes_readExact rfl).bind_ret ?_
    rw [utf8Chars_utf8Encode]
    simp only
    rw [parse_render htoken]
    rfl

theorem decodes_readHeader {manifest : BatchManifest} (htoken : manifest.tokenStream ≠ [])
    (hlen : (utf8Encode (renderManifest manifest)).length ≤ u32Max) :
    Decodes readHeader (headerBytes manifest) (false, manifest) := by
  unfold readHeader headerBytes
  refine (decodes_expectBytes _ _).bind ((decodes_leBytes (by decide)).bind ?_)
  rw [if_neg (by simp)]
  refine (decodes_readU8 0).bind ((decodes_readExact List.length_replicate).bind ?_)
  exact (decodes_readManifestBlock htoken hlen).bind_ret rfl

/-- A time as it is read back: whole seconds, and what is then not after the epoch
is none. -/
def wholeSeconds (modified : Option SystemTime) : Option SystemTime :=
  match modified with
  | some t => if 0 < t.secs then some ⟨t.secs, 0, t.lower, t.upper, by decide⟩ else none
  | none => none

theorem mtimeSecs_lt (modified : Option SystemTime) : mtimeSecs modified < 2 ^ 63 := by
  unfold mtimeSecs
  split
  · rename_i t
    have := t.upper
    split
    · omega
    · omega
  · omega

theorem modified_mtimeSecs (modified : Option SystemTime) :
    (if mtimeSecs modified > 0 then (epochPlus (mtimeSecs modified)).map some else .ok none) =
      .ok (wholeSeconds modified) := by
  have hlt := mtimeSecs_lt modified
  unfold mtimeSecs at hlt ⊢
  cases modified with
  | none => rfl
  | some t =>
      simp only [wholeSeconds] at hlt ⊢
      by_cases hpos : 0 < t.secs
      · rw [if_pos (by omega : 0 ≤ t.secs)] at hlt ⊢
        have hsecs : (t.secs.toNat : Int) = t.secs := Int.toNat_of_nonneg (by omega)
        rw [if_pos (by omega : t.secs.toNat > 0), if_pos hpos, epochPlus, dif_pos hlt]
        simp only [Except.map, hsecs]
      · rw [if_neg hpos]
        have hzero : (if 0 ≤ t.secs then t.secs.toNat else 0) = 0 := by
          split
          · omega
          · rfl
        rw [hzero]
        rfl

/-- What the writer must have made sure of for a record to be readable. -/
structure Readable (record : BatchRecord) : Prop where
  utf8 : (utf8Chars record.relative).isSome = true
  path : record.relative.length ≤ u16Max
  len : record.len < 2 ^ 63
  offset : record.dataOffset < 2 ^ 63
  checksum : record.checksum.length = 16

theorem fromByte_toByte (kind : BatchRecordKind) :
    BatchRecordKind.fromByte kind.toByte = .ok kind := by
  cases kind <;> rfl

theorem decodes_readRecord {record : BatchRecord} (h : Readable record) :
    Decodes readRecord (recordBytes record) (record.relative,
      { record with relative := [], modified := wholeSeconds record.modified }) := by
  have hstr : Str.fromUtf8 record.relative = some ⟨record.relative, h.utf8⟩ := dif_pos h.utf8
  have hpath := h.path
  have hlen := h.len
  have hoffset := h.offset
  have hmtime := mtimeSecs_lt record.modified
  unfold u16Max at hpath
  unfold readRecord recordBytes
  rw [lossyBytes_of_utf8 h.utf8]
  refine (decodes_leBytes (by omega)).bind ((decodes_readExact rfl).bind ?_)
  rw [hstr]
  refine (decodes_readU8 _).bind ?_
  rw [fromByte_toByte, Prog.ofExcept_ok, Prog.ret_bind]
  refine (decodes_leBytes (by omega)).bind ((decodes_leBytes (by omega)).bind ?_)
  refine (decodes_leBytes (by omega)).bind ?_
  rw [modified_mtimeSecs, Prog.ofExcept_ok, Prog.ret_bind]
  exact (decodes_readExact h.checksum).bind_ret rfl

/-- The entry of a record before its path is put into it. -/
def indexEntry (record : BatchRecord) : BatchRecord :=
  { record with relative := [], modified := wholeSeconds record.modified }

theorem decodes_readRecords : ∀ {records : List BatchRecord} {map : List (Bytes × BatchRecord)},
    (∀ record ∈ records, Readable record) →
    Decodes (readRecords records.length map) (records.flatMap recordBytes)
      (records.foldl (fun map record =>
        SortedMap.insert comparePaths record.relative (indexEntry record) map) map)
  | [], map, _ => decodes_ret map
  | record :: records, map, h => by
      rw [List.flatMap_cons]
      exact (decodes_readRecord (h record (by simp))).bind
        (decodes_readRecords fun r hr => h r (List.mem_cons_of_mem record hr))

/-- The index as `readBatchIndex` puts it together. -/
def indexMap (records : List BatchRecord) : List (Bytes × BatchRecord) :=
  records.foldl (fun map record =>
    SortedMap.insert comparePaths record.relative (indexEntry record) map) []

theorem decodes_readBatchIndex {records : List BatchRecord} (hcount : records.length ≤ u32Max)
    (h : ∀ record ∈ records, Readable record) :
    Decodes readBatchIndex (indexBytes records) (indexMap records) := by
  unfold readBatchIndex indexBytes
  unfold u32Max at hcount
  exact (decodes_expectBytes _ _).bind ((decodes_leBytes (by omega)).bind (decodes_readRecords h))

end Read

/-! ## One record for each call -/

instance : Std.LawfulEqCmp compareComponent where
  compare_self {a} := by simp [compareComponent, compareLex, compareOn]
  eq_of_compare {a b} h := by
    have hthen : (compare (componentRank a) (componentRank b)).then
        (compare (componentName a) (componentName b)) = .eq := h
    rw [Ordering.then_eq_eq] at hthen
    have hrank := Std.LawfulEqOrd.eq_of_compare hthen.1
    have hname := Std.LawfulEqOrd.eq_of_compare hthen.2
    cases a <;> cases b <;> simp_all [componentRank, componentName]

theorem components_of_comparePaths {a b : Bytes} (h : comparePaths a b = .eq) :
    components a = components b :=
  Std.LawfulEqCmp.eq_of_compare h

def BatchRecord.readBack (record : BatchRecord) : BatchRecord :=
  { record with modified := wholeSeconds record.modified }

/-- The records of the index, whatever the order of the map. -/
theorem fixRecords_perm {records : List BatchRecord}
    (hdistinct : records.Pairwise fun a b => components a.relative ≠ components b.relative) :
    ((fixRecords (indexMap records)).map Prod.snd).Perm (records.map BatchRecord.readBack) := by
  have hindex := @SortedMap.foldl_insert_perm _ _ comparePaths _ BatchRecord.relative indexEntry
    records [] (by simp) (hdistinct.imp fun hne heq => hne (components_of_comparePaths heq).symm)
  rw [List.nil_append] at hindex
  unfold indexMap
  generalize records.foldl _ [] = map at hindex ⊢
  have hkeys : map.Pairwise fun a b => components a.1 ≠ components b.1 := by
    refine hindex.symm.pairwise ?_ fun h => Ne.symm h
    exact List.pairwise_map.mpr hdistinct
  have hfixed := @SortedMap.foldl_insert_perm _ _ comparePaths _
    (fun entry : Bytes × BatchRecord => entry.1)
    (fun entry => { entry.2 with relative := entry.1 }) map []
    (by simp) (hkeys.imp fun hne heq => hne (components_of_comparePaths heq).symm)
  rw [List.nil_append] at hfixed
  refine (hfixed.map Prod.snd).trans ?_
  rw [List.map_map]
  refine (hindex.map _).trans ?_
  rw [List.map_map]
  exact List.Perm.refl _

/-! ## The calls of a run -/

inductive BatchCall where
  | file (relative source : Bytes) (len : Nat) (modified : Option SystemTime)
  | directory (relative : Bytes) (modified : Option SystemTime)

namespace BatchCall

def relative : BatchCall → Bytes
  | file relative _ _ _ => relative
  | directory relative _ => relative

def modified : BatchCall → Option SystemTime
  | file _ _ _ modified => modified
  | directory _ modified => modified

end BatchCall

section Calls

variable (md4 : Hasher) (readFile : Bytes → Except Error Bytes)

def BatchCall.append (w : BatchWriter) : BatchCall → Except Error (BatchRecord × BatchWriter)
  | .file relative source len modified => w.appendFile md4 readFile relative source len modified
  | .directory relative modified => .ok (w.appendDirectory relative modified)

/-- The calls one after the other, with the records they return. -/
def appendAll (w : BatchWriter) : List BatchCall → Except Error (List BatchRecord × BatchWriter)
  | [] => .ok ([], w)
  | call :: calls => do
      let (record, w) ← call.append md4 readFile w
      let (records, w) ← appendAll w calls
      .ok (record :: records, w)

/-- The bytes that lie in `file` where `record` says. -/
def BatchRecord.dataIn (record : BatchRecord) (file : Bytes) : Bytes :=
  (file.drop record.dataOffset).take record.len

/-- `record` is what `call` gave, and what it was made from lies in `file`. -/
structure Filed (file : Bytes) (call : BatchCall) (record : BatchRecord) : Prop where
  relative : record.relative = call.relative
  modified : record.modified = call.modified
  within : record.dataOffset + record.len ≤ file.length
  checksum : record.checksum.length = 16
  data : match call with
    | .file _ source len _ => record.kind = .file ∧ record.len = len ∧
        ∃ bytes, readFile source = .ok bytes ∧ record.checksum = md4.digest bytes ∧
          record.dataIn file = bytes
    | .directory _ _ => record.kind = .directory ∧ record.len = 0

variable {md4 readFile} {w w' : BatchWriter} {call : BatchCall} {record : BatchRecord}

/-- What is in the file stays there while it grows. -/
theorem Filed.grow {file : Bytes} (h : Filed md4 readFile file call record) (more : Bytes) :
    Filed md4 readFile (file ++ more) call record := by
  have hdata : record.dataIn (file ++ more) = record.dataIn file := by
    have hwithin := h.within
    unfold BatchRecord.dataIn
    rw [List.drop_append_of_le_length (by omega)]
    refine List.take_append_of_le_length ?_
    rw [List.length_drop]
    omega
  refine ⟨h.relative, h.modified, ?_, h.checksum, ?_⟩
  · rw [List.length_append]
    exact Nat.le_add_right_of_le h.within
  · rw [hdata]
    exact h.data

variable (md4 readFile) in
/-- One call adds its record and what it read. -/
structure Appended (w : BatchWriter) (call : BatchCall) (record : BatchRecord)
    (w' : BatchWriter) : Prop where
  grown : ∃ more, w'.file = w.file ++ more
  added : w'.records = w.records ++ [record]
  dryRun : w'.dryRun = w.dryRun
  fits : w'.file.length ≤ maxFileLen
  filed : Filed md4 readFile w'.file call record

theorem append_ok (hdry : w.dryRun = false) (hfits : w.file.length ≤ maxFileLen)
    (h : call.append md4 readFile w = .ok (record, w')) :
    Appended md4 readFile w call record w' := by
  cases call with
  | file relative source len modified =>
      have h : w.appendFile md4 readFile relative source len modified = .ok (record, w') := h
      unfold BatchWriter.appendFile at h
      obtain ⟨bytes, hread, h⟩ := except_bind_ok h
      split at h
      · cases h
      · rename_i hlen
        dsimp only at h
        rw [hdry, if_neg (by simp)] at h
        obtain ⟨w₁, hwrite, h⟩ := except_bind_ok h
        obtain ⟨hrecord, hw'⟩ := Prod.mk.inj (Except.ok.inj h)
        have hwrote := BatchWriter.write_ok hwrite
        have hlen : bytes.length = len := of_not_not hlen
        subst hrecord hw' hlen
        refine ⟨⟨bytes, hwrote.file⟩, by rw [hwrote.records], hwrote.dryRun, hwrote.fits,
          rfl, rfl, ?_, md4.digest_length bytes, rfl, rfl, bytes, hread, rfl, ?_⟩
        · simp [hwrote.file]
        · simp [BatchRecord.dataIn, hwrote.file]
  | directory relative modified =>
      have h : w.appendDirectory relative modified = (record, w') := Except.ok.inj h
      obtain ⟨hrecord, hw'⟩ := Prod.mk.inj h
      subst hrecord hw'
      refine ⟨⟨[], by simp⟩, rfl, rfl, hfits, rfl, rfl, ?_, by simp, rfl, rfl⟩
      simp

variable (md4 readFile) in
/-- All calls: a record for each, in their order. -/
structure AppendedAll (w : BatchWriter) (calls : List BatchCall) (records : List BatchRecord)
    (w' : BatchWriter) : Prop where
  grown : ∃ more, w'.file = w.file ++ more
  added : w'.records = w.records ++ records
  fits : w'.file.length ≤ maxFileLen
  filed : List.Forall₂ (Filed md4 readFile w'.file) calls records

theorem appendAll_ok : ∀ {calls : List BatchCall} {w w' : BatchWriter}
    {records : List BatchRecord}, w.dryRun = false → w.file.length ≤ maxFileLen →
    appendAll md4 readFile w calls = .ok (records, w') →
      AppendedAll md4 readFile w calls records w'
  | [], w, w', records, _, hfits, h => by
      obtain ⟨rfl, rfl⟩ := Prod.mk.inj (Except.ok.inj h)
      exact ⟨⟨[], by simp⟩, by simp, hfits, List.Forall₂.nil⟩
  | call :: calls, w, w', records, hdry, hfits, h => by
      obtain ⟨⟨record, w₁⟩, hcall, h⟩ := except_bind_ok h
      obtain ⟨⟨rest, w₂⟩, hcalls, h⟩ := except_bind_ok h
      obtain ⟨rfl, rfl⟩ := Prod.mk.inj (Except.ok.inj h)
      have hone := append_ok hdry hfits hcall
      have hall := appendAll_ok (hone.dryRun.trans hdry) hone.fits hcalls
      obtain ⟨more, hmore⟩ := hone.grown
      obtain ⟨more', hmore'⟩ := hall.grown
      refine ⟨⟨more ++ more', ?_⟩, ?_, hall.fits, List.Forall₂.cons ?_ hall.filed⟩
      · rw [hmore', hmore, List.append_assoc]
      · rw [hall.added, hone.added, List.append_assoc]
        rfl
      · rw [hmore']
        exact hone.filed.grow more'

end Calls

/-! ## The file as a whole -/

theorem drop_trailer {front tail : Bytes} {n : Nat} (h : tail.length = n) :
    (front ++ tail).drop ((front ++ tail).length - n) = tail := by
  have hlen : (front ++ tail).length - n = front.length := by
    rw [List.length_append, h]
    exact Nat.add_sub_cancel _ _
  rw [hlen, List.drop_left]

theorem openFile_ok {manifest : BatchManifest} (htoken : manifest.tokenStream ≠ [])
    (hlen : (utf8Encode (renderManifest manifest)).length ≤ u32Max) {w : BatchWriter}
    {more : Bytes} (hw : w.file = headerBytes manifest ++ more) {records : List BatchRecord}
    {file : Bytes} (hfile : w.Finished records file)
    (hreadable : ∀ record ∈ records, Readable record) :
    BatchReader.openFile file =
      .ok ⟨fixRecords (indexMap records), file, false, manifest⟩ := by
  obtain ⟨_, hlayout, hfits, hcount, _⟩ := hfile
  have hoffset : w.file.length ≤ maxFileLen := by
    rw [hlayout, List.length_append] at hfits
    omega
  have hheader : readFrom file 0 readHeader = .ok ((false, manifest), more ++
      (indexBytes records ++ (leBytes 8 w.file.length ++ endMarker))) := by
    refine readFrom_decodes (decodes_readHeader htoken hlen) ?_
    rw [List.drop_zero, hlayout, hw, List.append_assoc]
  have hlong : ¬ file.length < 12 := by
    rw [hlayout]
    simp only [List.length_append, leBytes_length]
    have hmarker : endMarker.length = 4 := rfl
    omega
  have hend : readFrom file (file.length - 4)
      (expectBytes endMarker "batch file corrupted: missing END1 trailer") = .ok ((), []) := by
    refine readFrom_decodes (decodes_expectBytes endMarker _) ?_
    rw [hlayout, ← List.append_assoc, ← List.append_assoc, List.append_nil]
    exact drop_trailer rfl
  have hplace : readFrom file (file.length - 12) readU64Le =
      .ok (w.file.length, endMarker) := by
    unfold maxFileLen at hoffset
    refine readFrom_decodes (decodes_leBytes (by omega)) ?_
    rw [hlayout, ← List.append_assoc]
    exact drop_trailer (by rw [List.length_append, leBytes_length]; rfl)
  have hindex : readFrom file w.file.length readBatchIndex =
      .ok (indexMap records, leBytes 8 w.file.length ++ endMarker) := by
    refine readFrom_decodes (decodes_readBatchIndex hcount hreadable) ?_
    rw [hlayout, List.drop_left]
  have hseek : seekTo w.file.length = .ok () := if_neg (by omega)
  unfold BatchReader.openFile
  simp only [hheader, if_neg hlong, hend, hplace, hseek, hindex, bind, Except.bind]

/-- The contents of a file record, as they lie in the file. -/
theorem fileData_ok {md4 : Hasher} {reader : BatchReader} {record : BatchRecord}
    (hkind : record.kind = .file)
    (hwithin : record.dataOffset + record.len ≤ reader.file.length)
    (hfits : reader.file.length ≤ maxFileLen)
    (hsum : record.checksum = md4.digest (record.dataIn reader.file)) :
    reader.fileData md4 record = .ok (record.dataIn reader.file) := by
  have hseek : seekTo record.dataOffset = .ok () := if_neg (by omega)
  have hread : readFrom reader.file record.dataOffset (readExact record.len) =
      .ok (record.dataIn reader.file, (reader.file.drop record.dataOffset).drop record.len) := by
    refine readFrom_decodes (decodes_readExact ?_) (List.take_append_drop _ _).symm
    unfold BatchRecord.dataIn
    rw [List.length_take, List.length_drop]
    omega
  unfold BatchReader.fileData
  rw [if_neg (by simp [hkind]), if_neg (by omega)]
  simp only [hseek, hread, bind, Except.bind]
  rw [if_neg (by simp [hsum])]

section Replays

variable {md4 : Hasher} {readFile : Bytes → Except Error Bytes}

theorem Filed.readable {file : Bytes} {call : BatchCall} {record : BatchRecord}
    (h : Filed md4 readFile file call record) (hfits : file.length ≤ maxFileLen)
    (hutf8 : (utf8Chars call.relative).isSome = true)
    (hpath : (lossyBytes record.relative).length ≤ u16Max) : Readable record := by
  have hwithin := h.within
  rw [← h.relative] at hutf8
  rw [lossyBytes_of_utf8 hutf8] at hpath
  unfold maxFileLen at hfits
  exact ⟨hutf8, hpath, by omega, by omega, h.checksum⟩

/-- How a call comes back: its record with the time cut, and for a file what was read. -/
structure ReplaysCall (md4 : Hasher) (readFile : Bytes → Except Error Bytes)
    (reader : BatchReader) (call : BatchCall) (record : BatchRecord) : Prop where
  relative : record.relative = call.relative
  modified : record.modified = call.modified
  listed : record.readBack ∈ reader.recordList
  data : match call with
    | .file _ source len _ => record.kind = .file ∧ record.len = len ∧
        ∃ bytes, readFile source = .ok bytes ∧ reader.fileData md4 record.readBack = .ok bytes
    | .directory _ _ => record.kind = .directory ∧ record.len = 0

theorem Filed.replays {reader : BatchReader} {call : BatchCall} {record : BatchRecord}
    (h : Filed md4 readFile reader.file call record) (hfits : reader.file.length ≤ maxFileLen)
    (hlisted : record.readBack ∈ reader.recordList) :
    ReplaysCall md4 readFile reader call record := by
  refine ⟨h.relative, h.modified, hlisted, ?_⟩
  cases call with
  | directory relative modified => exact h.data
  | file relative source len modified =>
      obtain ⟨hkind, hlen, bytes, hread, hsum, hdata⟩ := h.data
      refine ⟨hkind, hlen, bytes, hread, ?_⟩
      have hback : record.readBack.dataIn reader.file = bytes := hdata
      have hsum' : record.readBack.checksum = md4.digest (record.readBack.dataIn reader.file) := by
        rw [hback]
        exact hsum
      have hfile := @fileData_ok md4 reader record.readBack hkind h.within hfits hsum'
      rwa [hback] at hfile

/-- Calls that succeed on a new batch file, and its end: it opens with the same manifest
and a record for each call, and the contents of every file come back. -/
theorem batch_replays (manifest : BatchManifest) (htoken : manifest.tokenStream ≠ [])
    (calls : List BatchCall) (hutf8 : ∀ call ∈ calls, (utf8Chars call.relative).isSome = true)
    (hdistinct : calls.Pairwise fun a b => components a.relative ≠ components b.relative)
    (w w' : BatchWriter) (hcreate : BatchWriter.createWithManifest false manifest = .ok w)
    (returned : List BatchRecord) (hcalls : appendAll md4 readFile w calls = .ok (returned, w'))
    (records : List BatchRecord) (file : Bytes) (hfinish : w'.finish = .ok (records, file)) :
    ∃ reader, BatchReader.openFile file = .ok reader ∧ reader.manifest = manifest ∧
      reader.recordList.Perm (returned.map BatchRecord.readBack) ∧
      List.Forall₂ (ReplaysCall md4 readFile reader) calls returned := by
  obtain ⟨hheader, hlen⟩ := BatchWriter.createWithManifest_ok hcreate
  have hall := appendAll_ok hheader.dryRun hheader.fits hcalls
  have hend := BatchWriter.finish_ok hfinish
  obtain ⟨more, hmore⟩ := hall.grown
  have hrecords : records = returned := by
    rw [hend.same, hall.added, hheader.records]
    rfl
  subst hrecords
  have hw' : w'.file = headerBytes manifest ++ more := by
    rw [hmore, hheader.file]
    rfl
  have hfiled : List.Forall₂ (Filed md4 readFile file) calls records := by
    refine hall.filed.imp fun call record hcall => ?_
    rw [hend.layout]
    exact hcall.grow _
  have hreadable : ∀ record ∈ records, Readable record := by
    intro record hrecord
    obtain ⟨i, hi, rfl⟩ := List.getElem_of_mem hrecord
    have hcall : i < calls.length := by rwa [hfiled.length_eq]
    have hfiles := hfiled.get hcall hi
    exact hfiles.readable hend.fits (hutf8 _ (List.get_mem calls ⟨i, hcall⟩))
      (hend.paths _ hrecord)
  have hpaths : calls.map BatchCall.relative = records.map BatchRecord.relative := by
    refine List.forall₂_eq_eq_eq ▸ ?_
    rw [List.forall₂_map_left_iff, List.forall₂_map_right_iff]
    exact hfiled.imp fun call record hfiles => hfiles.relative.symm
  have hrecords : records.Pairwise fun a b => components a.relative ≠ components b.relative := by
    have hmap : (calls.map BatchCall.relative).Pairwise fun a b => components a ≠ components b :=
      List.pairwise_map.mpr hdistinct
    rw [hpaths] at hmap
    exact (List.pairwise_map (R := fun a b => components a ≠ components b)).mp hmap
  have hperm := fixRecords_perm hrecords
  refine ⟨_, openFile_ok htoken hlen hw' hend hreadable, rfl, hperm, ?_⟩
  refine List.forall₂_iff_zip.mpr ⟨hfiled.length_eq, fun hmem => ?_⟩
  refine (List.forall₂_zip hfiled hmem).replays hend.fits (hperm.mem_iff.mpr ?_)
  exact List.mem_map_of_mem (List.of_mem_zip hmem).2

set_option maxRecDepth 4000 in
/-- A file that holds what the index starts with, and a directory. -/
theorem batch_replays_marker : ∃ (file : Bytes) (reader : BatchReader),
    BatchReader.openFile file = .ok reader ∧
      ∃ record ∈ reader.recordList,
        reader.fileData ⟨Md4.digest, Md4.digest_length⟩ record = .ok indexMarker := by
  obtain ⟨reader, hopen, -, -, hcalls⟩ := @batch_replays ⟨Md4.digest, Md4.digest_length⟩
    (fun _ => .ok indexMarker) ⟨[['-', 'a']], [], ['t']⟩ (by decide)
    [.file [0x61] [0x2f, 0x61] 4 none, .directory [0x62] none] (by decide)
    (by decide) _ _ rfl _ rfl _ _ rfl
  obtain ⟨hfile, -⟩ := List.forall₂_cons.mp hcalls
  obtain ⟨-, -, bytes, hread, hdata⟩ := hfile.data
  obtain rfl := Except.ok.inj hread
  exact ⟨_, reader, hopen, _, hfile.listed, hdata⟩

end Replays

end RsyncWin
