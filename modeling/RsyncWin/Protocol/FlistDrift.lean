import RsyncWin.Protocol.FlistCodec

/-!
# The protocol-31 file list: where the two memories part

A back reference is remembered by the writer with the fields of the alias and by
the reader with those of the group's first file; a name is remembered by the
reader for longer than the id it came with. An entry that relies on such a
memory comes back changed. Both conditions below are exact.
-/

namespace RsyncWin

open ByteString Codec Rsync31FileListWriter

/-- Every element, against what stands before it. -/
def EachAfter {α : Type} (P : List α → α → Prop) (l : List α) : Prop :=
  ∀ done x rest, l = done ++ x :: rest → P done x

theorem eachAfter_nil {α : Type} {P : List α → α → Prop} : EachAfter P [] := by
  intro done x rest hsplit
  simp at hsplit

theorem eachAfter_snoc {α : Type} {P : List α → α → Prop} {l : List α} {a : α} :
    EachAfter P (l ++ [a]) ↔ EachAfter P l ∧ P l a := by
  constructor
  · intro h
    refine ⟨?_, h l a [] rfl⟩
    rintro done x rest rfl
    exact h done x (rest ++ [a]) (by simp)
  · rintro ⟨hall, hlast⟩ done x rest hsplit
    rcases List.eq_nil_or_concat rest with rfl | ⟨rest', y, rfl⟩
    · obtain ⟨rfl, hx⟩ := List.append_inj' hsplit rfl
      obtain rfl : a = x := by simpa using hx
      exact hlast
    · have hsplit' : l ++ [a] = (done ++ x :: rest') ++ [y] := by simpa using hsplit
      obtain ⟨rfl, -⟩ := List.append_inj' hsplit' rfl
      exact hall done x rest' rfl

/-! ## Both memories after some entries -/

/-- The two memories after `done`, and what was stored. -/
inductive Reached (options : RsyncFileListOptions) : List RsyncFileListEntry →
    Rsync31FileListWriter → FlistReadState → List RsyncFileListEntry → Prop where
  | nil : Reached options [] (Rsync31FileListWriter.new options) {} []
  | snoc {done : List RsyncFileListEntry} {w : Rsync31FileListWriter} {st : FlistReadState}
      {stored : List RsyncFileListEntry} (e : RsyncFileListEntry) :
      Reached options done w st stored → Reached options (done ++ [e]) (w.recordEntryState e)
        (st.after options (wirePathBytes e.path) (readBackEntry options w st stored e))
        (stored ++ [readBackEntry options w st stored e])

section Reached

variable {options : RsyncFileListOptions} {done stored : List RsyncFileListEntry}
  {w : Rsync31FileListWriter} {st : FlistReadState}

theorem exists_reached (options : RsyncFileListOptions) (done : List RsyncFileListEntry) :
    ∃ w st stored, Reached options done w st stored := by
  induction done using List.reverseRecOn with
  | nil => exact ⟨_, _, _, .nil⟩
  | append_singleton done e ih =>
      obtain ⟨w, st, stored, h⟩ := ih
      exact ⟨_, _, _, .snoc e h⟩

theorem Reached.readBack_eq (h : Reached options done w st stored) :
    ∀ rest, readBack options (done ++ rest) = readBackFrom options w st stored rest := by
  induction h with
  | nil => intro rest; rfl
  | snoc e _ ih =>
      intro rest
      rw [List.append_assoc, List.singleton_append, ih]
      rfl

theorem Reached.stored_eq (h : Reached options done w st stored) : readBack options done = stored := by
  have hback := h.readBack_eq []
  rw [List.append_nil] at hback
  exact hback

theorem Reached.along (h : Reached options done w st stored)
    (hall : ∀ e ∈ done, Sendable options e) : Along options done w st stored := by
  induction h with
  | nil => exact Along.new options
  | snoc e _ ih => exact (ih fun x hx => hall x (by simp [hx])).after (hall e (by simp))

theorem Reached.length_eq (h : Reached options done w st stored) : stored.length = done.length := by
  induction h with
  | nil => rfl
  | snoc e _ ih => simp [ih]

theorem Reached.options_eq (h : Reached options done w st stored) : w.options = options := by
  induction h with
  | nil => rfl
  | snoc e _ ih => exact ih

/-- Access times are not sent for directories, which leave the memory of them
alone. -/
def timed (entries : List RsyncFileListEntry) : List RsyncFileListEntry :=
  entries.filter fun e => e.fileType ≠ .directory

/-- What the writer remembers. -/
theorem Reached.written (h : Reached options done w st stored) :
    w.lastMode = done.getLast?.map (·.mode) ∧ w.lastMtime = done.getLast?.map (·.mtimeUnix) ∧
      (options.preserveOwner = true → w.lastUid = done.getLast?.map uidOf) ∧
      (options.preserveGroup = true → w.lastGid = done.getLast?.map gidOf) ∧
      (options.atimes = true → w.lastAtime = (timed done).getLast?.map atimeOf) := by
  induction h with
  | nil => simp [Rsync31FileListWriter.new, timed]
  | @snoc done w st stored e h ih =>
      have ho := h.options_eq
      refine ⟨by simp [recordEntryState], by simp [recordEntryState], ?_, ?_, ?_⟩
      · intro hp
        simp [recordEntryState, ho, hp]
      · intro hp
        simp [recordEntryState, ho, hp]
      · intro hp
        by_cases hdir : e.fileType = .directory
        · simpa [recordEntryState, ho, hp, hdir, timed] using ih.2.2.2.2 hp
        · simp [recordEntryState, ho, hp, hdir, timed]

/-- What the reader remembers. -/
theorem Reached.read (h : Reached options done w st stored) :
    st.lastMode = stored.getLast?.map (·.mode) ∧ st.lastMtime = stored.getLast?.map (·.mtimeUnix) ∧
      (options.preserveOwner = true → st.lastUid = stored.getLast?.bind (·.metadata.uid)) ∧
      (options.preserveGroup = true → st.lastGid = stored.getLast?.bind (·.metadata.gid)) ∧
      (options.atimes = true →
        st.lastAtime = (timed stored).getLast?.bind (·.metadata.atimeUnix)) := by
  induction h with
  | nil => simp [timed]
  | @snoc done w st stored e h ih =>
      refine ⟨by simp [FlistReadState.after], by simp [FlistReadState.after], ?_, ?_, ?_⟩
      · intro hp
        simp [FlistReadState.after, hp]
      · intro hp
        simp [FlistReadState.after, hp]
      · intro hp
        by_cases hdir : (readBackEntry options w st stored e).fileType = .directory
        · simpa [FlistReadState.after, hp, hdir, timed] using ih.2.2.2.2 hp
        · simp [FlistReadState.after, hp, hdir, timed]

end Reached

/-! ## Aliases -/

/-- An entry that is sent as a back reference: a file of its group was before. -/
def LaterMember (done : List RsyncFileListEntry) (e : RsyncFileListEntry) : Prop :=
  ∃ f ∈ done, groupOf f = groupOf e ∧ (groupOf e).isSome

/-- The entry whose fields `e` comes back with: the first of its group. -/
def leader (entries : List RsyncFileListEntry) (e : RsyncFileListEntry) : RsyncFileListEntry :=
  ((groupOf e).bind fun g => entries.find? fun f => decide (groupOf f = some g)).getD e

/-- `s` has the mode, times and ids of `e`, as far as they are sent. -/
structure Kept (options : RsyncFileListOptions) (e s : RsyncFileListEntry) : Prop where
  mode : s.mode = e.mode
  mtime : s.mtimeUnix = e.mtimeUnix
  uid : options.preserveOwner = true → s.metadata.uid = some (uidOf e)
  gid : options.preserveGroup = true → s.metadata.gid = some (gidOf e)
  atime : options.atimes = true → e.fileType ≠ .directory →
    s.metadata.atimeUnix = some (atimeOf e)

/-- `e` repeats nothing of the entry before it that the first of that entry's
group does not have too. -/
structure Steady (options : RsyncFileListOptions) (done : List RsyncFileListEntry)
    (e : RsyncFileListEntry) : Prop where
  mode : ∀ p, done.getLast? = some p → p.mode = e.mode → (leader done p).mode = e.mode
  mtime : ∀ p, done.getLast? = some p → p.mtimeUnix = e.mtimeUnix →
    (leader done p).mtimeUnix = e.mtimeUnix
  uid : options.preserveOwner = true → ∀ p, done.getLast? = some p → uidOf p = uidOf e →
    uidOf (leader done p) = uidOf e
  gid : options.preserveGroup = true → ∀ p, done.getLast? = some p → gidOf p = gidOf e →
    gidOf (leader done p) = gidOf e
  atime : options.atimes = true → e.fileType ≠ .directory → ∀ p, (timed done).getLast? = some p →
    atimeOf p = atimeOf e → atimeOf (leader done p) = atimeOf e

section Aliases

variable {options : RsyncFileListOptions} {done rest stored : List RsyncFileListEntry}
  {w : Rsync31FileListWriter} {st : FlistReadState} {e : RsyncFileListEntry}

theorem leader_append (h : LaterMember done e ∨ groupOf e = none) (more : List RsyncFileListEntry) :
    leader (done ++ more) e = leader done e := by
  unfold leader
  rcases h with ⟨f, hf, hgroup, hsome⟩ | hnone
  · obtain ⟨g, hg⟩ := Option.isSome_iff_exists.mp hsome
    rw [hg] at hgroup
    have hfound : (done.find? fun f => decide (groupOf f = some g)).isSome := by
      rw [List.find?_isSome]
      exact ⟨f, hf, by simpa using hgroup⟩
    obtain ⟨x, hx⟩ := Option.isSome_iff_exists.mp hfound
    simp only [hg, Option.bind_some, List.find?_append, hx, Option.some_or]
  · simp [hnone]

theorem mem_laterMember (h : e ∈ done) : LaterMember done e ∨ groupOf e = none := by
  cases hg : groupOf e with
  | none => exact Or.inr rfl
  | some g => exact Or.inl ⟨e, h, rfl, by simp [hg]⟩

theorem leader_of_not_later (h : ¬ LaterMember done e) : leader (done ++ [e]) e = e := by
  unfold leader
  cases hg : groupOf e with
  | none => rfl
  | some g =>
      have hnone : (done.find? fun f => decide (groupOf f = some g)) = none := by
        rw [List.find?_eq_none]
        intro f hf hgf
        exact h ⟨f, hf, by rw [hg]; exact of_decide_eq_true hgf, by simp [hg]⟩
      simp [List.find?_append, hnone, hg]

theorem Along.hardlinkReference_none (h : Along options done w st stored)
    (hlater : ¬ LaterMember done e) : w.hardlinkReference e = none := by
  cases href : w.hardlinkReference e with
  | none => rfl
  | some i =>
      obtain ⟨g, f, first, hge, -, hf, hgf, -⟩ := h.reference href
      exact absurd ⟨f, List.mem_of_getElem? hf, by rw [hgf, hge], by simp [hge]⟩ hlater

theorem forall₂_getLast? {α β : Type} {R : α → β → Prop} {l : List α} {m : List β}
    (h : List.Forall₂ R l m) {a : α} (ha : l.getLast? = some a) :
    ∃ b, m.getLast? = some b ∧ R a b := by
  have hrev := List.rel_reverse h
  rw [List.getLast?_eq_head?_reverse] at ha ⊢
  generalize l.reverse = l' at hrev ha
  generalize m.reverse = m' at hrev ⊢
  cases hrev with
  | nil => cases ha
  | cons hab _ =>
      obtain rfl := Option.some.inj ha
      exact ⟨_, rfl, hab⟩

/-- What was stored has the fields of the leaders. -/
def Led (options : RsyncFileListOptions) (done stored : List RsyncFileListEntry) : Prop :=
  List.Forall₂ (fun e s => s.fileType = e.fileType ∧ (leader done e).fileType = e.fileType ∧
    Kept options (leader done e) s) done stored

theorem recalled_eq_iff {α : Type} [DecidableEq α] {last : Option RsyncFileListEntry}
    {written led : RsyncFileListEntry → α} {v : α} :
    recalled (last.map written) (last.map led) v = v ↔
      ∀ p, last = some p → written p = v → led p = v := by
  unfold recalled
  cases last with
  | none => simp
  | some p =>
      simp only [Option.map_some, Option.some.injEq, Option.getD_some, forall_eq']
      split
      · rename_i heq
        simp [heq]
      · rename_i hne
        simp [hne]

/-- A memory of the reader in terms of the leaders. -/
theorem bind_getLast?_of_forall₂ {α : Type} {l m : List RsyncFileListEntry}
    {R : RsyncFileListEntry → RsyncFileListEntry → Prop} (h : List.Forall₂ R l m)
    {f : RsyncFileListEntry → Option α} {g : RsyncFileListEntry → α}
    (hfg : ∀ e s, R e s → l.getLast? = some e → f s = some (g e)) :
    m.getLast?.bind f = l.getLast?.map g := by
  cases hl : l.getLast? with
  | none =>
      obtain rfl := List.getLast?_eq_none_iff.mp hl
      cases h with
      | nil => rfl
  | some e =>
      obtain ⟨s, hs, hes⟩ := forall₂_getLast? h hl
      simp [hs, hfg e s hes hl]

theorem Led.timed (h : Led options done stored) :
    List.Forall₂ (fun e s => s.fileType = e.fileType ∧ (leader done e).fileType = e.fileType ∧
      Kept options (leader done e) s) (timed done) (timed stored) := by
  refine List.rel_filter ?_ h
  rintro e s ⟨htype, -⟩
  simp [htype]

theorem Led.read (h : Led options done stored) (hr : Reached options done w st stored) :
    st.lastMode = done.getLast?.map (fun p => (leader done p).mode) ∧
      st.lastMtime = done.getLast?.map (fun p => (leader done p).mtimeUnix) ∧
      (options.preserveOwner = true →
        st.lastUid = done.getLast?.map fun p => uidOf (leader done p)) ∧
      (options.preserveGroup = true →
        st.lastGid = done.getLast?.map fun p => gidOf (leader done p)) ∧
      (options.atimes = true →
        st.lastAtime = (RsyncWin.timed done).getLast?.map fun p => atimeOf (leader done p)) := by
  obtain ⟨hmode, hmtime, huid, hgid, hatime⟩ := hr.read
  refine ⟨?_, ?_, ?_, ?_, ?_⟩
  · rw [hmode, Option.map_eq_bind]
    exact bind_getLast?_of_forall₂ h fun e s hes _ => by simp [hes.2.2.mode]
  · rw [hmtime, Option.map_eq_bind]
    exact bind_getLast?_of_forall₂ h fun e s hes _ => by simp [hes.2.2.mtime]
  · intro hp
    rw [huid hp]
    exact bind_getLast?_of_forall₂ h fun e s hes _ => hes.2.2.uid hp
  · intro hp
    rw [hgid hp]
    exact bind_getLast?_of_forall₂ h fun e s hes _ => hes.2.2.gid hp
  · intro hp
    rw [hatime hp]
    refine bind_getLast?_of_forall₂ h.timed fun e s hes he => hes.2.2.atime hp ?_
    have hmem := List.mem_of_getLast? he
    rw [hes.2.1]
    simpa [RsyncWin.timed] using (List.mem_filter.mp hmem).2

/-- An entry that is not an alias comes back as it was exactly when it does not
lean on what an alias left behind. -/
theorem kept_iff_steady (hr : Reached options done w st stored)
    (ha : Along options done w st stored) (hled : Led options done stored)
    (hlater : ¬ LaterMember done e) :
    Kept options e (readBackEntry options w st stored e) ↔ Steady options done e := by
  obtain ⟨wmode, wmtime, wuid, wgid, watime⟩ := hr.written
  obtain ⟨rmode, rmtime, ruid, rgid, ratime⟩ := hled.read hr
  have hbody : readBackBody options w st stored e = readBackFields options w st
      (if (groupOf e).isSome then some ⟨0, stored.length⟩ else none) e := by
    simp [readBackBody, ha.hardlinkReference_none hlater]
  have hmode : (readBackEntry options w st stored e).mode = e.mode ↔
      ∀ p, done.getLast? = some p → p.mode = e.mode → (leader done p).mode = e.mode := by
    rw [← recalled_eq_iff, ← wmode, ← rmode, readBackEntry, hbody]
    rfl
  have hmtime : (readBackEntry options w st stored e).mtimeUnix = e.mtimeUnix ↔
      ∀ p, done.getLast? = some p → p.mtimeUnix = e.mtimeUnix →
        (leader done p).mtimeUnix = e.mtimeUnix := by
    rw [← recalled_eq_iff, ← wmtime, ← rmtime, readBackEntry, hbody]
    rfl
  have huid : options.preserveOwner = true →
      ((readBackEntry options w st stored e).metadata.uid = some (uidOf e) ↔
        ∀ p, done.getLast? = some p → uidOf p = uidOf e → uidOf (leader done p) = uidOf e) := by
    intro hp
    rw [← recalled_eq_iff, ← wuid hp, ← ruid hp, readBackEntry, hbody]
    simp [readBackFields, hp]
  have hgid : options.preserveGroup = true →
      ((readBackEntry options w st stored e).metadata.gid = some (gidOf e) ↔
        ∀ p, done.getLast? = some p → gidOf p = gidOf e → gidOf (leader done p) = gidOf e) := by
    intro hp
    rw [← recalled_eq_iff, ← wgid hp, ← rgid hp, readBackEntry, hbody]
    simp [readBackFields, hp]
  have hatime : options.atimes = true → e.fileType ≠ .directory →
      ((readBackEntry options w st stored e).metadata.atimeUnix = some (atimeOf e) ↔
        ∀ p, (RsyncWin.timed done).getLast? = some p → atimeOf p = atimeOf e →
          atimeOf (leader done p) = atimeOf e) := by
    intro hp hdir
    rw [← recalled_eq_iff, ← watime hp, ← ratime hp, readBackEntry, hbody]
    simp [readBackFields, hp, hdir]
  constructor
  · intro hk
    exact ⟨hmode.mp hk.mode, hmtime.mp hk.mtime, fun hp => (huid hp).mp (hk.uid hp),
      fun hp => (hgid hp).mp (hk.gid hp), fun hp hd => (hatime hp hd).mp (hk.atime hp hd)⟩
  · intro hs
    exact ⟨hmode.mpr hs.mode, hmtime.mpr hs.mtime, fun hp => (huid hp).mpr (hs.uid hp),
      fun hp => (hgid hp).mpr (hs.gid hp), fun hp hd => (hatime hp hd).mpr (hs.atime hp hd)⟩

theorem leader_of_later (h : LaterMember done e) {g : RsyncHardLinkGroup}
    {f : RsyncFileListEntry} (hge : groupOf e = some g) (hgf : groupOf f = some g) :
    leader done e = leader done f := by
  obtain ⟨x, hx, hgroup, -⟩ := h
  have hfound : (done.find? fun f => decide (groupOf f = some g)).isSome := by
    rw [List.find?_isSome]
    exact ⟨x, hx, by simpa [hge] using hgroup⟩
  obtain ⟨y, hy⟩ := Option.isSome_iff_exists.mp hfound
  simp [leader, hge, hgf, hy]

/-- An alias has the fields of its leader, whatever it was sent with. -/
theorem Led.alias (hled : Led options done stored) (ha : Along options done w st stored)
    (hlater : LaterMember done e) :
    (leader done e).fileType = e.fileType ∧
      Kept options (leader done e) (readBackEntry options w st stored e) := by
  obtain ⟨x, hx, hgroup, hsome⟩ := hlater
  obtain ⟨g, hge⟩ := Option.isSome_iff_exists.mp hsome
  rcases ha.readBackBody_cases e with
    ⟨i, f, first, href, hf, hfirst, hefile, hffile, -, hbody⟩ | ⟨href, -⟩
  · obtain ⟨g', f', _, hge', -, hf', hgf, -⟩ := ha.reference href
    obtain rfl := Option.some.inj (hf'.symm.trans hf)
    have hlead : leader done e = leader done f' := leader_of_later ⟨x, hx, hgroup, hsome⟩ hge' hgf
    have hi := (List.getElem?_eq_some_iff.mp hf).1
    have hi' := (List.getElem?_eq_some_iff.mp hfirst).1
    have hget := (List.forall₂_iff_get.mp hled).2 i hi hi'
    have h1 : done.get ⟨i, hi⟩ = f' := (List.getElem?_eq_some_iff.mp hf).2
    have h2 : stored.get ⟨i, hi'⟩ = first := (List.getElem?_eq_some_iff.mp hfirst).2
    rw [h1, h2] at hget
    obtain ⟨-, htype, hkept⟩ := hget
    rw [hlead, readBackEntry, hbody]
    exact ⟨by rw [htype, hffile, hefile], hkept.mode, hkept.mtime, hkept.uid, hkept.gid,
      hkept.atime⟩
  · obtain ⟨i, hi⟩ : ∃ i, w.hardlinkReference e = some i := by
      have hfind : (done.findIdx? fun f => decide (groupOf f = some g)).isSome := by
        rw [List.findIdx?_isSome, List.any_eq_true]
        exact ⟨x, hx, by simpa [hge] using hgroup⟩
      obtain ⟨i, hi⟩ := Option.isSome_iff_exists.mp hfind
      exact ⟨i, by simp [hardlinkReference, hge, ha.groups g, hi]⟩
    rw [href] at hi
    cases hi

theorem Led.snoc (hled : Led options done stored) (ha : Along options done w st stored)
    (he : Sendable options e)
    (hkept : ¬ LaterMember done e → Kept options e (readBackEntry options w st stored e)) :
    Led options (done ++ [e]) (stored ++ [readBackEntry options w st stored e]) := by
  refine List.rel_append ?_ (.cons ?_ .nil)
  · have hmem : List.Forall₂ (fun x s => x ∈ done ∧ s.fileType = x.fileType ∧
        (leader done x).fileType = x.fileType ∧ Kept options (leader done x) s) done stored :=
      (List.forall₂_and_left _ _).mpr ⟨fun _ hx => hx, hled⟩
    refine hmem.imp ?_
    rintro x s ⟨hx, hrest⟩
    rwa [leader_append (mem_laterMember hx)]
  · refine ⟨(ha.storedFor he).fileType, ?_⟩
    by_cases hlater : LaterMember done e
    · rw [leader_append (Or.inl hlater)]
      exact hled.alias ha hlater
    · rw [leader_of_not_later hlater]
      exact ⟨rfl, hkept hlater⟩

/-- Every entry but the aliases came back as it was. -/
def Faithful (options : RsyncFileListOptions) (entries out : List RsyncFileListEntry) : Prop :=
  ∀ i e s, entries[i]? = some e → out[i]? = some s → ¬ LaterMember (entries.take i) e →
    Kept options e s

theorem faithful_snoc {s : RsyncFileListEntry} (hlen : stored.length = done.length) :
    Faithful options (done ++ [e]) (stored ++ [s]) ↔
      Faithful options done stored ∧ (¬ LaterMember done e → Kept options e s) := by
  constructor
  · intro h
    refine ⟨?_, ?_⟩
    · intro i x y hx hy hlater
      have hi := (List.getElem?_eq_some_iff.mp hx).1
      refine h i x y ?_ ?_ ?_
      · rw [List.getElem?_append_left hi, hx]
      · rw [List.getElem?_append_left (by omega), hy]
      · rwa [List.take_append_of_le_length (by omega)]
    · intro hlater
      refine h done.length e s (by simp) (by simp [← hlen]) ?_
      simpa using hlater
  · rintro ⟨hall, hlast⟩ i x y hx hy hlater
    rcases Nat.lt_trichotomy i done.length with hi | rfl | hi
    · rw [List.getElem?_append_left hi] at hx
      rw [List.getElem?_append_left (by omega)] at hy
      rw [List.take_append_of_le_length (by omega)] at hlater
      exact hall i x y hx hy hlater
    · obtain rfl : e = x := by simpa using hx
      obtain rfl : s = y := by simpa [← hlen] using hy
      exact hlast (by simpa using hlater)
    · rw [List.getElem?_eq_none (by rw [List.length_append, List.length_singleton]; omega)] at hx
      cases hx

/-- No entry but the aliases leans on what an alias left behind. -/
def SteadyList (options : RsyncFileListOptions) (entries : List RsyncFileListEntry) : Prop :=
  EachAfter (fun done e => ¬ LaterMember done e → Steady options done e) entries

theorem steadyList_snoc :
    SteadyList options (done ++ [e]) ↔
      SteadyList options done ∧ (¬ LaterMember done e → Steady options done e) :=
  eachAfter_snoc

/-- The induction over the list: as long as everything came back as it was, what
is stored has the fields of the leaders, which decides the next entry. -/
theorem Reached.faithful_iff (hr : Reached options done w st stored)
    (hall : ∀ e ∈ done, Sendable options e) :
    (Faithful options done stored ↔ SteadyList options done) ∧
      (Faithful options done stored → Led options done stored) := by
  induction hr with
  | nil =>
      refine ⟨⟨fun _ => eachAfter_nil, ?_⟩, fun _ => .nil⟩
      intro _ i e s he
      simp at he
  | @snoc done w st stored e hr ih =>
      obtain ⟨hiff, hled⟩ := ih fun x hx => hall x (by simp [hx])
      have ha := hr.along fun x hx => hall x (by simp [hx])
      rw [faithful_snoc hr.length_eq, steadyList_snoc]
      refine ⟨⟨?_, ?_⟩, ?_⟩
      · rintro ⟨hf, hlast⟩
        refine ⟨hiff.mp hf, fun hlater => ?_⟩
        exact (kept_iff_steady hr ha (hled hf) hlater).mp (hlast hlater)
      · rintro ⟨hs, hlast⟩
        have hf := hiff.mpr hs
        refine ⟨hf, fun hlater => ?_⟩
        exact (kept_iff_steady hr ha (hled hf) hlater).mpr (hlast hlater)
      · rintro ⟨hf, hlast⟩
        exact (hled hf).snoc ha (hall e (by simp)) hlast

end Aliases

section Lists

variable {options : RsyncFileListOptions} {batches : List (List RsyncFileListEntry)}
  {maxEntries maxPathLen fuel : Nat}

/-- **Aliases and their neighbours.** A list whose hard-linked files differ is
written and read; the entries that are no aliases come back with their mode,
times and ids exactly when none of them repeats a value that an alias just
before it has and the first file of the alias has not. -/
theorem aliases_disturb_iff
    (hfake : options.fakeSuper = true → options.xattrs = true)
    (hentries : ∀ e ∈ batches.flatten, WireEntry options e)
    (hcount : batches.flatten.length ≤ i32Max)
    (hmaxEntries : batches.flatten.length ≤ maxEntries)
    (hmaxPath : ∀ e ∈ batches.flatten, (wirePathBytes e.path).length ≤ maxPathLen)
    (hfuel : 1 ≤ fuel) :
    ∃ out, RoundTrips (writeRsync31FileListBatches options batches) ()
        (readRsync31FileListWithMetadata fuel maxEntries maxPathLen options) out ∧
      (Faithful options batches.flatten out ↔ SteadyList options batches.flatten) := by
  have hsend : ∀ e ∈ batches.flatten, Sendable options e := fun e he => (hentries e he).sendable
  refine ⟨_, roundTrips_readBack hfake hsend hcount hmaxEntries hmaxPath hfuel, ?_⟩
  obtain ⟨w, st, stored, hr⟩ := exists_reached options batches.flatten
  rw [hr.stored_eq]
  exact (hr.faithful_iff hsend).1

end Lists

/-- A file that may be executed. -/
def executable (path : Bytes) (group : Option RsyncHardLinkGroup) : RsyncFileListEntry :=
  { sampleFile path group with mode := 0o100755 }

theorem wireEntry_executable {path : Bytes} (h : WirePath path)
    (hlen : (wirePathBytes path).length ≤ i32Max) (group : Option RsyncHardLinkGroup) :
    WireEntry {} (executable path group) :=
  { wireEntry_sampleFile h hlen group with
    mode := by simp [executable]
    fileType := if_pos (show modeType 0o100755 = 0o100000 by decide) }

/-- A file, an executable alias of it, and an executable that has nothing to do
with either. -/
def aliasThenExecutable : List RsyncFileListEntry :=
  [sampleFile [0x61] (some ⟨5, 9⟩), executable [0x62] (some ⟨5, 9⟩), executable [0x63] none]

theorem wireEntry_aliasThenExecutable : ∀ e ∈ aliasThenExecutable, WireEntry {} e := by
  have ha : WireEntry {} (sampleFile [0x61] (some ⟨5, 9⟩)) :=
    wireEntry_sampleFile (wirePath_of_utf8 (by decide) (by rfl)) (by decide) _
  have hb : WireEntry {} (executable [0x62] (some ⟨5, 9⟩)) :=
    wireEntry_executable (wirePath_of_utf8 (by decide) (by rfl)) (by decide) _
  have hc : WireEntry {} (executable [0x63] none) :=
    wireEntry_executable (wirePath_of_utf8 (by decide) (by rfl)) (by decide) _
  simp [aliasThenExecutable, ha, hb, hc]

theorem aliases_disturb_iff_executable :
    ∃ out, RoundTrips (writeRsync31FileListBatches {} [aliasThenExecutable]) ()
        (readRsync31FileListWithMetadata 1 3 1 {}) out ∧
      (Faithful {} aliasThenExecutable out ↔ SteadyList {} aliasThenExecutable) := by
  have h := @aliases_disturb_iff {} [aliasThenExecutable] 3 1 1 (by simp)
    (by simpa using wireEntry_aliasThenExecutable) (by decide) (by decide) (by decide) (by decide)
  simpa using h

/-- The executable comes back without its permission to execute. -/
theorem alias_disturbs_executable :
    (∀ e ∈ aliasThenExecutable, WireEntry {} e) ∧
      ∃ out, RoundTrips (writeRsync31FileListBatches {} [aliasThenExecutable]) ()
          (readRsync31FileListWithMetadata 1 3 1 {}) out ∧
        out[2]?.map (·.mode) = some 0o100644 ∧ ¬ Faithful {} aliasThenExecutable out := by
  have hround : RoundTrips (writeRsync31FileListBatches {} [aliasThenExecutable]) ()
      (readRsync31FileListWithMetadata 1 3 1 {}) (readBack {} aliasThenExecutable) := by
    have h := @roundTrips_readBack {} [aliasThenExecutable] 3 1 1 (by simp)
      (by simpa using fun e he => (wireEntry_aliasThenExecutable e he).sendable) (by decide)
      (by decide) (by decide) (by decide)
    simpa using h
  have hmode : (readBack {} aliasThenExecutable)[2]?.map (·.mode) = some 0o100644 := by decide
  refine ⟨wireEntry_aliasThenExecutable, _, hround, hmode, ?_⟩
  intro hfaithful
  obtain ⟨s, hs, hsmode⟩ := Option.map_eq_some_iff.mp hmode
  have hkept := hfaithful 2 (executable [0x63] none) s rfl hs (by simp [LaterMember, groupOf,
    executable, sampleFile])
  have hbad := hsmode.symm.trans hkept.mode
  revert hbad
  decide

/-! ## Names -/

/-- `s` has the ids and the names of `e`. -/
structure Named (e s : RsyncFileListEntry) : Prop where
  uid : s.metadata.uid = some (uidOf e)
  userName : s.metadata.userName = e.metadata.userName
  gid : s.metadata.gid = some (gidOf e)
  groupName : s.metadata.groupName = e.metadata.groupName

/-- An id that repeats the last one and has no name comes after ids without
names only. -/
def Fresh (id : RsyncFileListEntry → Nat) (name : RsyncFileListEntry → Option Str)
    (done : List RsyncFileListEntry) (e : RsyncFileListEntry) : Prop :=
  ∀ p, done.getLast? = some p → id p = id e → name e = none → ∀ f ∈ done, name f = none

def userNameOf (e : RsyncFileListEntry) : Option Str := e.metadata.userName
def groupNameOf (e : RsyncFileListEntry) : Option Str := e.metadata.groupName

section Names

variable {options : RsyncFileListOptions} {done stored : List RsyncFileListEntry}
  {w : Rsync31FileListWriter} {st : FlistReadState} {e : RsyncFileListEntry}

/-- The last name heard stands for the name of a repeated id. -/
theorem recalledName_eq_iff {id : RsyncFileListEntry → Nat}
    {name : RsyncFileListEntry → Option Str}
    (hname : ∀ p ∈ done, id p = id e → name p = name e) :
    recalledName (done.getLast?.map id) (done.filterMap name).getLast? false (id e) (name e) =
      name e ↔ Fresh id name done e := by
  unfold recalledName Fresh
  cases hlast : done.getLast? with
  | none => simp
  | some p =>
      obtain ⟨init, rfl⟩ := List.getLast?_eq_some_iff.mp hlast
      by_cases hid : id p = id e
      · have hpe := hname p (by simp) hid
        cases hp : name p with
        | none =>
            have he : name e = none := by rw [← hpe, hp]
            have hmem : (∀ f ∈ init, name f = none) ↔ ∀ f ∈ init ++ [p], name f = none := by
              simp [or_imp, forall_and, hp]
            simpa [hid, he, hp, List.filterMap_append] using hmem
        | some n =>
            have he : name e = some n := by rw [← hpe, hp]
            simp [hid, he, hp, List.filterMap_append]
      · simp [hid]

theorem Reached.names (h : Reached options done w st stored) :
    (options.preserveOwner = true →
      st.lastUserName = (stored.filterMap userNameOf).getLast?) ∧
    (options.preserveGroup = true →
      st.lastGroupName = (stored.filterMap groupNameOf).getLast?) := by
  induction h with
  | nil => simp
  | @snoc done w st stored e h ih =>
      refine ⟨?_, ?_⟩
      · intro hp
        cases hn : (readBackEntry options w st stored e).metadata.userName with
        | none => simpa [FlistReadState.after, hp, hn, List.filterMap_append, userNameOf] using ih.1 hp
        | some n => simp [FlistReadState.after, hp, hn, List.filterMap_append, userNameOf]
      · intro hp
        cases hn : (readBackEntry options w st stored e).metadata.groupName with
        | none =>
            simpa [FlistReadState.after, hp, hn, List.filterMap_append, groupNameOf] using ih.2 hp
        | some n => simp [FlistReadState.after, hp, hn, List.filterMap_append, groupNameOf]

theorem filterMap_of_forall₂ {α : Type} {f g : RsyncFileListEntry → Option α}
    {l m : List RsyncFileListEntry} (h : List.Forall₂ (fun e s => g s = f e) l m) :
    m.filterMap g = l.filterMap f := by
  induction h with
  | nil => rfl
  | cons hab _ ih => simp [List.filterMap_cons, hab, ih]

/-- One entry of a list without hard links, all of it named so far. -/
theorem named_iff_fresh (hr : Reached options done w st stored)
    (ho : options.preserveOwner = true) (hg : options.preserveGroup = true)
    (hnum : options.numericIds = false) (hlink : groupOf e = none)
    (hnamed : List.Forall₂ Named done stored)
    (huser : ∀ p ∈ done, uidOf p = uidOf e → userNameOf p = userNameOf e)
    (hgroup : ∀ p ∈ done, gidOf p = gidOf e → groupNameOf p = groupNameOf e) :
    Named e (readBackEntry options w st stored e) ↔
      Fresh uidOf userNameOf done e ∧ Fresh gidOf groupNameOf done e := by
  obtain ⟨-, -, wuid, wgid, -⟩ := hr.written
  obtain ⟨-, -, ruid, rgid, -⟩ := hr.read
  have hbody : readBackBody options w st stored e = readBackFields options w st none e := by
    simp [readBackBody, hardlinkReference, hlink]
  have suid : st.lastUid = w.lastUid := by
    rw [ruid ho, wuid ho]
    exact bind_getLast?_of_forall₂ hnamed fun _ _ hes _ => hes.uid
  have sgid : st.lastGid = w.lastGid := by
    rw [rgid hg, wgid hg]
    exact bind_getLast?_of_forall₂ hnamed fun _ _ hes _ => hes.gid
  have suser : st.lastUserName = (done.filterMap userNameOf).getLast? := by
    have hsame : stored.filterMap userNameOf = done.filterMap userNameOf :=
      filterMap_of_forall₂ (hnamed.imp fun _ _ hes => hes.userName)
    rw [hr.names.1 ho, hsame]
  have sgroup : st.lastGroupName = (done.filterMap groupNameOf).getLast? := by
    have hsame : stored.filterMap groupNameOf = done.filterMap groupNameOf :=
      filterMap_of_forall₂ (hnamed.imp fun _ _ hes => hes.groupName)
    rw [hr.names.2 hg, hsame]
  have huid : (readBackEntry options w st stored e).metadata.uid = some (uidOf e) := by
    simp [readBackEntry, hbody, readBackFields, ho, suid, recalled_self]
  have hgid : (readBackEntry options w st stored e).metadata.gid = some (gidOf e) := by
    simp [readBackEntry, hbody, readBackFields, hg, sgid, recalled_self]
  have huname : (readBackEntry options w st stored e).metadata.userName =
      recalledName (done.getLast?.map uidOf) (done.filterMap userNameOf).getLast? false (uidOf e)
        (userNameOf e) := by
    simp [readBackEntry, hbody, readBackFields, ho, hnum, suser, wuid ho, userNameOf]
  have hgname : (readBackEntry options w st stored e).metadata.groupName =
      recalledName (done.getLast?.map gidOf) (done.filterMap groupNameOf).getLast? false (gidOf e)
        (groupNameOf e) := by
    simp [readBackEntry, hbody, readBackFields, hg, hnum, sgroup, wgid hg, groupNameOf]
  rw [← recalledName_eq_iff huser, ← recalledName_eq_iff hgroup, ← huname, ← hgname]
  exact ⟨fun h => ⟨h.userName, h.groupName⟩, fun h => ⟨huid, h.1, hgid, h.2⟩⟩

theorem forall₂_snoc {α β : Type} {R : α → β → Prop} {l : List α} {m : List β} {a : α} {b : β} :
    List.Forall₂ R (l ++ [a]) (m ++ [b]) ↔ List.Forall₂ R l m ∧ R a b := by
  rw [← List.forall₂_reverse_iff]
  simp [and_comm]

/-- No entry is without a name after one with a name of the same id. -/
def FreshList (entries : List RsyncFileListEntry) : Prop :=
  EachAfter (fun done e => Fresh uidOf userNameOf done e ∧ Fresh gidOf groupNameOf done e) entries

theorem freshList_snoc :
    FreshList (done ++ [e]) ↔
      FreshList done ∧ Fresh uidOf userNameOf done e ∧ Fresh gidOf groupNameOf done e :=
  eachAfter_snoc

theorem Reached.named_iff (hr : Reached options done w st stored)
    (ho : options.preserveOwner = true) (hg : options.preserveGroup = true)
    (hnum : options.numericIds = false) (hlink : ∀ e ∈ done, groupOf e = none)
    (huser : ∀ e ∈ done, ∀ f ∈ done, uidOf e = uidOf f → userNameOf e = userNameOf f)
    (hgroup : ∀ e ∈ done, ∀ f ∈ done, gidOf e = gidOf f → groupNameOf e = groupNameOf f) :
    List.Forall₂ Named done stored ↔ FreshList done := by
  induction hr with
  | nil => exact ⟨fun _ => eachAfter_nil, fun _ => .nil⟩
  | @snoc done w st stored e hr ih =>
      have hiff := ih (fun x hx => hlink x (by simp [hx]))
        (fun x hx y hy => huser x (by simp [hx]) y (by simp [hy]))
        (fun x hx y hy => hgroup x (by simp [hx]) y (by simp [hy]))
      have hstep := fun hnamed => named_iff_fresh hr ho hg hnum (hlink e (by simp)) hnamed
        (fun p hp => huser p (by simp [hp]) e (by simp))
        (fun p hp => hgroup p (by simp [hp]) e (by simp))
      rw [forall₂_snoc, freshList_snoc, ← hiff]
      exact and_congr_right hstep

variable {batches : List (List RsyncFileListEntry)} {maxEntries maxPathLen fuel : Nat}

/-- **Names and ids.** A list without hard links in which names depend on ids
comes back with every id and name exactly when no id without a name is sent
twice in a row after a name was sent. -/
theorem names_follow_ids_iff
    (ho : options.preserveOwner = true) (hg : options.preserveGroup = true)
    (hnum : options.numericIds = false)
    (hfake : options.fakeSuper = true → options.xattrs = true)
    (hentries : ∀ e ∈ batches.flatten, Sendable options e)
    (hlink : ∀ e ∈ batches.flatten, groupOf e = none)
    (huser : ∀ e ∈ batches.flatten, ∀ f ∈ batches.flatten, uidOf e = uidOf f →
      userNameOf e = userNameOf f)
    (hgroup : ∀ e ∈ batches.flatten, ∀ f ∈ batches.flatten, gidOf e = gidOf f →
      groupNameOf e = groupNameOf f)
    (hcount : batches.flatten.length ≤ i32Max)
    (hmaxEntries : batches.flatten.length ≤ maxEntries)
    (hmaxPath : ∀ e ∈ batches.flatten, (wirePathBytes e.path).length ≤ maxPathLen)
    (hfuel : 1 ≤ fuel) :
    ∃ out, RoundTrips (writeRsync31FileListBatches options batches) ()
        (readRsync31FileListWithMetadata fuel maxEntries maxPathLen options) out ∧
      (List.Forall₂ Named batches.flatten out ↔ FreshList batches.flatten) := by
  refine ⟨_, roundTrips_readBack hfake hentries hcount hmaxEntries hmaxPath hfuel, ?_⟩
  obtain ⟨w, st, stored, hr⟩ := exists_reached options batches.flatten
  rw [hr.stored_eq]
  exact hr.named_iff ho hg hnum hlink huser hgroup

end Names

def ownedFile (path : Bytes) (uid : Nat) (name : Option Str) : RsyncFileListEntry :=
  { sampleFile path none with metadata := { uid := some uid, userName := name } }

def ownerOptions : RsyncFileListOptions := { preserveOwner := true, preserveGroup := true }

theorem sendable_ownedFile {path : Bytes} (h : WirePath path)
    (hlen : (wirePathBytes path).length ≤ i32Max) {uid : Nat} (huid : uid ≤ i32Max)
    {name : Option Str} (hname : ∀ n, name = some n → n.bytes.length ≤ 255) :
    Sendable ownerOptions (ownedFile path uid name) :=
  { (wireEntry_sampleFile h hlen none).sendable with
    checksum := by simp [ownerOptions]
    uid := by simpa [ownedFile] using huid
    gid := by simp [ownedFile]
    userName := by simpa [ownedFile] using hname
    groupName := by simp [ownedFile]
    atime := by simp [ownedFile]
    crtime := by simp [ownedFile]
    xattrs_len := by simp [ownedFile]
    xattrs := by simp [ownedFile] }

/-- A file of a user with a name, then two of a user without. -/
def namedThenUnnamed : List RsyncFileListEntry :=
  [ownedFile [0x61] 1 (some ⟨[0x75], by decide⟩), ownedFile [0x62] 2 none, ownedFile [0x63] 2 none]

theorem sendable_namedThenUnnamed : ∀ e ∈ namedThenUnnamed, Sendable ownerOptions e := by
  have ha := @sendable_ownedFile [0x61] (wirePath_of_utf8 (by decide) (by rfl)) (by decide) 1
    (by decide) (some ⟨[0x75], by decide⟩) (by simp)
  have hb := @sendable_ownedFile [0x62] (wirePath_of_utf8 (by decide) (by rfl)) (by decide) 2
    (by decide) none (by simp)
  have hc := @sendable_ownedFile [0x63] (wirePath_of_utf8 (by decide) (by rfl)) (by decide) 2
    (by decide) none (by simp)
  simp [namedThenUnnamed, ha, hb, hc]

theorem names_follow_ids_iff_namedThenUnnamed :
    ∃ out, RoundTrips (writeRsync31FileListBatches ownerOptions [namedThenUnnamed]) ()
        (readRsync31FileListWithMetadata 1 3 1 ownerOptions) out ∧
      (List.Forall₂ Named namedThenUnnamed out ↔ FreshList namedThenUnnamed) := by
  have h := @names_follow_ids_iff ownerOptions [namedThenUnnamed] 3 1 1 rfl rfl rfl
    (by simp [ownerOptions]) (by simpa using sendable_namedThenUnnamed) (by decide) (by decide)
    (by decide) (by decide) (by decide) (by decide) (by decide)
  simpa using h

/-- The last file comes back under the name of the first one's owner. -/
theorem name_of_another :
    (∀ e ∈ namedThenUnnamed, Sendable ownerOptions e) ∧
      ∃ out, RoundTrips (writeRsync31FileListBatches ownerOptions [namedThenUnnamed]) ()
          (readRsync31FileListWithMetadata 1 3 1 ownerOptions) out ∧
        out[2]?.bind userNameOf = some ⟨[0x75], by decide⟩ ∧
        ¬ List.Forall₂ Named namedThenUnnamed out := by
  have hround : RoundTrips (writeRsync31FileListBatches ownerOptions [namedThenUnnamed]) ()
      (readRsync31FileListWithMetadata 1 3 1 ownerOptions)
      (readBack ownerOptions namedThenUnnamed) := by
    have h := @roundTrips_readBack ownerOptions [namedThenUnnamed] 3 1 1 (by simp [ownerOptions])
      (by simpa using sendable_namedThenUnnamed) (by decide) (by decide) (by decide) (by decide)
    simpa using h
  have hname : (readBack ownerOptions namedThenUnnamed)[2]?.bind userNameOf =
      some ⟨[0x75], by decide⟩ := by decide
  refine ⟨sendable_namedThenUnnamed, _, hround, hname, ?_⟩
  intro hnamed
  obtain ⟨s, hs, hsname⟩ := Option.bind_eq_some_iff.mp hname
  obtain ⟨h2, hget⟩ := List.getElem?_eq_some_iff.mp hs
  have hthird := (List.forall₂_iff_get.mp hnamed).2 2 (by decide) h2
  have hthird' : Named (ownedFile [0x63] 2 none) s := by
    rw [← hget]
    exact hthird
  have hbad := hsname.symm.trans hthird'.userName
  cases hbad

end RsyncWin
