import RsyncWin.Remote.SenderOrder
import RsyncWin.Protocol.FlistSafety

/-!
# The sender order is canonical

On paths that pass the check of the wire the comparison goes by what each name on the
way is and is called, and a path has no other way of being written. So the order is
strict, and the indices do not depend on the order in which the entries came.
-/

namespace RsyncWin

open ByteString

/-- The same sort, of entries with the files they come from. -/
def sortRemoteSourceEntriesForSenderIndexes (entries : List RemoteSourceEntry) :
    List RemoteSourceEntry :=
  let directories := directoryPaths (entries.map (·.wire))
  sortBy (fun left right => remoteSenderEntryCmp left.wire right.wire directories) entries

/-! ## Names of valid paths -/

/-- A path that the wire admits. -/
def ValidWirePath (path : Bytes) : Prop :=
  ∃ p : Str, p.bytes = path ∧ validateWirePath p = .ok ()

theorem textName_of_component {part : Bytes} {component : List Char}
    (hdecode : utf8Chars part = some component) (hvalid : validWireComponent component = true)
    (hslash : slash ∉ part) : TextName part := by
  have hnot : component ≠ [] ∧ component ≠ ['.'] ∧ component ≠ ['.', '.'] := by
    unfold validWireComponent at hvalid
    simp only [Bool.and_eq_true, Bool.not_eq_true', Bool.or_eq_false_iff, decide_eq_false_iff_not]
      at hvalid
    exact ⟨hvalid.1.1.1.1.1, hvalid.1.1.1.1.2, hvalid.1.1.1.2⟩
  have hne : ∀ {bytes : Bytes} {chars : List Char}, utf8Chars bytes = some chars →
      component ≠ chars → part ≠ bytes := by
    rintro bytes chars hchars hcomponent rfl
    exact hcomponent (Option.some.inj (hdecode.symm.trans hchars))
  refine ⟨⟨hne (by decide) hnot.1, hslash, hne (by decide) hnot.2.1, hne (by decide) hnot.2.2⟩, ?_⟩
  rw [hdecode]
  rfl

/-- A valid path is the top directory or a sequence of names. -/
theorem ValidWirePath.names {path : Bytes} (h : ValidWirePath path) :
    ∃ ns, path = wirePathOf ns ∧ ∀ n ∈ ns, TextName n := by
  obtain ⟨p, rfl, hv⟩ := h
  rcases validateWirePath_cases p with ⟨-, hdot | hall⟩ | herr
  · exact ⟨[], hdot, by simp⟩
  · have hparts := utf8Chars_splitOn (Nat.le_refl _) (Option.some_get p.valid).symm
    have hne : p.bytes.splitOn slash ≠ [] := List.splitOn_ne_nil slash p.bytes
    refine ⟨p.bytes.splitOn slash, ?_, fun n hn => ?_⟩
    · rw [wirePathOf, if_neg hne, joinNames, List.intercalate_splitOn]
    · have hmem : utf8Chars n ∈ (p.chars.splitOn '/').map some := by
        rw [Str.chars, ← hparts]
        exact List.mem_map_of_mem hn
      obtain ⟨component, hcomponent, hdecode⟩ := List.mem_map.mp hmem
      exact textName_of_component hdecode.symm (List.all_eq_true.mp hall component hcomponent)
        (mem_splitOn hn).1
  · rw [hv] at herr
    cases herr

/-! ## The keys of a list -/

instance : Std.LawfulEqCmp compareSibling where
  eq_of_compare {a b} h := by
    rw [compareSibling_eq, Ordering.then_eq_eq] at h
    exact Prod.ext (Std.LawfulEqOrd.eq_of_compare h.1) (Std.LawfulEqOrd.eq_of_compare h.2)

theorem map_snd_siblingKeys (isDirectory : List Bytes → Bool) :
    ∀ (ns pre : List Bytes), (siblingKeys isDirectory pre ns).map Prod.snd = ns
  | [], _ => rfl
  | n :: ns, pre => by
      rw [siblingKeys, List.map_cons, map_snd_siblingKeys isDirectory ns]

theorem siblingKeys_append (isDirectory : List Bytes → Bool) :
    ∀ (ns rest pre : List Bytes), siblingKeys isDirectory pre (ns ++ rest) =
      siblingKeys isDirectory pre ns ++ siblingKeys isDirectory (pre ++ ns) rest
  | [], rest, pre => by simp [siblingKeys]
  | n :: ns, rest, pre => by
      simp [siblingKeys, siblingKeys_append isDirectory ns rest]

theorem senderKey_inj {directories : List Bytes} {path path' : Bytes} (h : ValidWirePath path)
    (h' : ValidWirePath path') (heq : senderKey directories path = senderKey directories path') :
    components path = components path' := by
  obtain ⟨ns, rfl, hns⟩ := h.names
  obtain ⟨ns', rfl, hns'⟩ := h'.names
  have hnames := congrArg (List.map Prod.snd) heq
  unfold senderKey at hnames
  rw [map_snd_siblingKeys, map_snd_siblingKeys, normalPathComponents_wirePathOf hns,
    normalPathComponents_wirePathOf hns'] at hnames
  rw [hnames]

/-- A path with more names after the same ones has the greater key. -/
theorem compareLex_lt_of_append {cmp : Bool × Bytes → Bool × Bytes → Ordering} [Std.ReflCmp cmp] :
    ∀ (keys : List (Bool × Bytes)) {rest : List (Bool × Bytes)}, rest ≠ [] →
      List.compareLex cmp keys (keys ++ rest) = .lt
  | [], [], h => absurd rfl h
  | [], k :: rest, _ => rfl
  | k :: keys, rest, h => by
      have hself : cmp k k = .eq := Std.ReflCmp.compare_self
      rw [List.cons_append, List.compareLex_cons_cons, hself, compareLex_lt_of_append keys h]
      rfl

section Canonical

variable {entries entries' : List RsyncFileListEntry}

/-- Which directories are listed does not depend on the order of the list. -/
theorem isListedDirectory_perm (h : entries'.Perm entries) :
    isListedDirectory (directoryPaths entries') = isListedDirectory (directoryPaths entries) := by
  funext names
  unfold isListedDirectory directoryPaths
  exact ((h.filter _).map _).any_eq

theorem remoteSenderEntryCmp_perm (h : entries'.Perm entries) (left right : RsyncFileListEntry) :
    remoteSenderEntryCmp left right (directoryPaths entries') =
      remoteSenderEntryCmp left right (directoryPaths entries) := by
  unfold remoteSenderEntryCmp
  rw [isListedDirectory_perm h]

theorem remoteSenderEntryCmp_valid (hvalid : ∀ e ∈ entries, ValidWirePath e.path)
    (directories : List Bytes) :
    ∀ left ∈ entries, ∀ right ∈ entries, remoteSenderEntryCmp left right directories =
      List.compareLex compareSibling (senderKey directories left.path)
        (senderKey directories right.path) := by
  intro left hleft right hright
  obtain ⟨ls, hl, hls⟩ := (hvalid left hleft).names
  obtain ⟨rs, hr, hrs⟩ := (hvalid right hright).names
  exact remoteSenderEntryCmp_eq_key directories hl hr hls hrs

theorem senderOrder_strict (hvalid : ∀ e ∈ entries, ValidWirePath e.path)
    (hdistinct : entries.Pairwise fun a b => components a.path ≠ components b.path) :
    StrictOrderOn (fun left right => remoteSenderEntryCmp left right (directoryPaths entries))
      entries := by
  refine StrictOrderOn.of_key (remoteSenderEntryCmp_valid hvalid _) fun a ha b hb heq => ?_
  have hcomponents := senderKey_inj (hvalid a ha) (hvalid b hb) heq
  have hsymm : Std.Symm fun a b : RsyncFileListEntry => components a.path ≠ components b.path :=
    ⟨fun _ _ h => Ne.symm h⟩
  by_contra hne
  exact hdistinct.forall ha hb hne hcomponents

theorem sortRemoteEntries_inOrder (hvalid : ∀ e ∈ entries, ValidWirePath e.path) :
    InOrder (fun left right => remoteSenderEntryCmp left right (directoryPaths entries))
      (sortRemoteEntriesForSenderIndexes entries) :=
  inOrder_sortBy_of_key (remoteSenderEntryCmp_valid hvalid _)

/-- What is in the sender order, in whatever order it came, is the sorted list. -/
theorem eq_sortRemoteEntries (hvalid : ∀ e ∈ entries, ValidWirePath e.path)
    (hdistinct : entries.Pairwise fun a b => components a.path ≠ components b.path)
    (hperm : entries'.Perm entries)
    (horder : InOrder (fun left right => remoteSenderEntryCmp left right (directoryPaths entries))
      entries') : entries' = sortRemoteEntriesForSenderIndexes entries := by
  have hsorted : (sortRemoteEntriesForSenderIndexes entries).Perm entries := sortBy_perm _ _
  have hstrict : StrictOrderOn
      (fun left right => remoteSenderEntryCmp left right (directoryPaths entries))
      (sortRemoteEntriesForSenderIndexes entries) :=
    (senderOrder_strict hvalid hdistinct).of_perm hsorted
  exact hstrict.sorted_unique (hperm.trans hsorted.symm) (sortRemoteEntries_inOrder hvalid) horder

/-- The sort puts the top directory first. -/
theorem sortRemoteEntries_head (hvalid : ∀ e ∈ entries, ValidWirePath e.path)
    (hdistinct : entries.Pairwise fun a b => components a.path ≠ components b.path)
    {e : RsyncFileListEntry} (he : e ∈ entries) (htop : components e.path = [.curDir]) :
    (sortRemoteEntriesForSenderIndexes entries).head? = some e := by
  have hperm : (sortRemoteEntriesForSenderIndexes entries).Perm entries := sortBy_perm _ _
  have hmem : e ∈ sortRemoteEntriesForSenderIndexes entries := hperm.mem_iff.mpr he
  have horder := sortRemoteEntries_inOrder hvalid
  cases hsorted : sortRemoteEntriesForSenderIndexes entries with
  | nil =>
      rw [hsorted] at hmem
      cases hmem
  | cons first rest =>
      rw [hsorted] at hmem horder hperm
      rcases List.mem_cons.mp hmem with rfl | hmem
      · rfl
      · have hfirst : first ∈ entries := hperm.mem_iff.mp (by simp)
        have hle : (remoteSenderEntryCmp first e (directoryPaths entries)).isLE :=
          (List.pairwise_cons.mp horder).1 e hmem
        -- the top directory has the least key of all
        rw [remoteSenderEntryCmp_valid hvalid _ first hfirst e he] at hle
        have hkey : senderKey (directoryPaths entries) e.path = [] := by
          unfold senderKey normalPathComponents
          rw [htop]
          rfl
        rw [hkey] at hle
        cases hkeys : senderKey (directoryPaths entries) first.path with
        | nil =>
            have heq := senderKey_inj (hvalid first hfirst) (hvalid e he) (hkeys.trans hkey.symm)
            have hnodup := hperm.symm.pairwise hdistinct fun h => Ne.symm h
            exact absurd heq ((List.pairwise_cons.mp hnodup).1 e hmem)
        | cons k keys =>
            rw [hkeys, List.compareLex_cons_nil] at hle
            cases hle

/-- An entry stands before all that is below it. -/
theorem remoteSenderEntryCmp_below (hvalid : ∀ e ∈ entries, ValidWirePath e.path)
    (directories : List Bytes) {d e : RsyncFileListEntry} (hd : d ∈ entries) (he : e ∈ entries)
    {rest : List Bytes} (hrest : rest ≠ [])
    (hbelow : normalPathComponents e.path = normalPathComponents d.path ++ rest) :
    remoteSenderEntryCmp d e directories = .lt := by
  rw [remoteSenderEntryCmp_valid hvalid directories d hd e he]
  unfold senderKey
  rw [hbelow, siblingKeys_append]
  refine compareLex_lt_of_append _ fun hnil => hrest ?_
  rw [← map_snd_siblingKeys (isListedDirectory directories) rest, hnil]
  rfl

theorem sortRemoteSourceEntries_wire (hvalid : ∀ e ∈ entries, ValidWirePath e.path)
    (hdistinct : entries.Pairwise fun a b => components a.path ≠ components b.path)
    {sources : List RemoteSourceEntry} (hperm : (sources.map (·.wire)).Perm entries) :
    (sortRemoteSourceEntriesForSenderIndexes sources).map (·.wire) =
      sortRemoteEntriesForSenderIndexes entries := by
  have hsorted : (sortRemoteSourceEntriesForSenderIndexes sources).map (·.wire) =
      sortRemoteEntriesForSenderIndexes (sources.map (·.wire)) := by
    exact List.map_insertionSort _ _ _ sources fun _ _ _ _ => Iff.rfl
  rw [hsorted]
  refine eq_sortRemoteEntries hvalid hdistinct ((sortBy_perm _ _).trans hperm) ?_
  have horder := @sortRemoteEntries_inOrder (sources.map (·.wire))
    fun e he => hvalid e (hperm.mem_iff.mp he)
  refine horder.imp fun {a b} hab => ?_
  show (remoteSenderEntryCmp a b (directoryPaths entries)).isLE = true
  rw [← remoteSenderEntryCmp_perm hperm]
  exact hab

/-- The sender order of a list with valid and distinct paths is strict, and sorting by it
does not depend on the order of the list. -/
theorem sender_order_canonical (hvalid : ∀ e ∈ entries, ValidWirePath e.path)
    (hdistinct : entries.Pairwise fun a b => components a.path ≠ components b.path) :
    StrictOrderOn (fun left right => remoteSenderEntryCmp left right (directoryPaths entries))
        entries ∧
      (sortRemoteEntriesForSenderIndexes entries).Perm entries ∧
      (∀ entries', entries'.Perm entries →
        sortRemoteEntriesForSenderIndexes entries' = sortRemoteEntriesForSenderIndexes entries) ∧
      (∀ e ∈ entries, components e.path = [.curDir] →
        (sortRemoteEntriesForSenderIndexes entries).head? = some e) ∧
      (∀ d ∈ entries, ∀ e ∈ entries, ∀ rest, rest ≠ [] →
        normalPathComponents e.path = normalPathComponents d.path ++ rest →
        [d, e].Sublist (sortRemoteEntriesForSenderIndexes entries)) ∧
      ∀ sources : List RemoteSourceEntry, (sources.map (·.wire)).Perm entries →
        (sortRemoteSourceEntriesForSenderIndexes sources).map (·.wire) =
          sortRemoteEntriesForSenderIndexes entries := by
  have hstrict := senderOrder_strict hvalid hdistinct
  have hperm : (sortRemoteEntriesForSenderIndexes entries).Perm entries := sortBy_perm _ _
  refine ⟨hstrict, hperm, fun entries' hentries => ?_,
    fun e he htop => sortRemoteEntries_head hvalid hdistinct he htop, ?_,
    fun sources hsources => sortRemoteSourceEntries_wire hvalid hdistinct hsources⟩
  · refine eq_sortRemoteEntries hvalid hdistinct ((sortBy_perm _ _).trans hentries) ?_
    refine (sortRemoteEntries_inOrder fun e he => hvalid e (hentries.mem_iff.mp he)).imp ?_
    intro a b hab
    show (remoteSenderEntryCmp a b (directoryPaths entries)).isLE = true
    rw [← remoteSenderEntryCmp_perm hentries]
    exact hab
  · intro d hd e he rest hrest hbelow
    have hlt := remoteSenderEntryCmp_below hvalid (directoryPaths entries) hd he hrest hbelow
    exact (hstrict.of_perm hperm).sublist_of_lt (sortRemoteEntries_inOrder hvalid)
      (hperm.mem_iff.mpr hd) (hperm.mem_iff.mpr he) hlt

end Canonical

/-- `a/x`, `b`, the directory `a` and the top directory, in this order. -/
def jumbledEntries : List RsyncFileListEntry :=
  [⟨[0x61, slash, 0x78], .file, 0, 0, 0, none, none, {}⟩, ⟨[0x62], .file, 0, 0, 0, none, none, {}⟩,
    ⟨[0x61], .directory, 0, 0, 0, none, none, {}⟩, ⟨[dot], .directory, 0, 0, 0, none, none, {}⟩]

theorem jumbledEntries_valid : ∀ e ∈ jumbledEntries, ValidWirePath e.path := by
  intro e he
  simp only [jumbledEntries, List.mem_cons, List.not_mem_nil, or_false] at he
  rcases he with rfl | rfl | rfl | rfl
  · exact ⟨⟨[0x61, slash, 0x78], by decide⟩, rfl, by decide⟩
  · exact ⟨⟨[0x62], by decide⟩, rfl, by decide⟩
  · exact ⟨⟨[0x61], by decide⟩, rfl, by decide⟩
  · exact ⟨⟨[dot], by decide⟩, rfl, by decide⟩

theorem sender_order_canonical_jumbled :
    (sortRemoteEntriesForSenderIndexes jumbledEntries).head?.map (·.path) = some [dot] := by
  have h := sender_order_canonical jumbledEntries_valid (by decide)
  exact congrArg (Option.map (·.path)) (h.2.2.2.1 jumbledEntries[3] (by decide) (by decide))

end RsyncWin
