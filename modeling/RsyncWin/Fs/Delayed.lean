import RsyncWin.Fs.Ahead
import RsyncWin.Fs.Basis
import RsyncWin.Fs.DryRun

/-!
# Delayed updates

Staged or not, a file ends at its target with the same bytes: whether it is brought at
all is decided by what is at its target before the loop. What the source has besides
its listed files is at the destination either left alone or taken by a deletion that
does not depend on the staging either. The staging paths must not meet the source's.
-/

namespace RsyncWin.Fs

open ByteString MemoryFileSystem

/-! ## The bytes at a path -/

/-- The bytes of a regular file. -/
def fileBytes : Option Content → Option Bytes
  | some (.file, bytes) => some bytes
  | _ => none

theorem fileBytes_eq_some {content : Option Content} {bytes : Bytes} :
    fileBytes content = some bytes ↔ content = some (.file, bytes) := by
  unfold fileBytes
  split
  · simp
  · rename_i h
    simp only [reduceCtorEq, false_iff]
    rintro rfl
    exact h bytes rfl

theorem fileBytes_stays {c c' : PathTree Bytes Content} {x : Key} (h : Stays c c' x) :
    fileBytes (c' x) = fileBytes (c x) := by
  rcases h with h | ⟨hnone, hdir⟩
  · rw [h]
  · rw [hnone, hdir]
    rfl

/-- The bytes at a path of the destination, with directories above them if there are any. -/
structure Shielded (dk r : Key) (bytes : Option Bytes) (w : World) : Prop where
  here : fileBytes (w.fs.content (dk ++ r)) = bytes
  above : bytes.isSome → ∀ p, p <+: r → p ≠ r → p ≠ [] →
    ∃ b, w.fs.content (dk ++ p) = some (.directory, b)

theorem Shielded.none_of_above {dk r p : Key} {bytes : Option Bytes} {w : World}
    (h : Shielded dk r bytes w) (hpre : p <+: r) (hne : p ≠ []) (hp : w.fs.content (dk ++ p) = none) :
    bytes = none := by
  by_cases hpr : p = r
  · rw [← h.here, ← hpr, hp]
    rfl
  · cases hb : bytes with
    | none => rfl
    | some b =>
        obtain ⟨b', hdir⟩ := h.above (by rw [hb]; rfl) p hpre hpr hne
        rw [hp] at hdir
        cases hdir

namespace SyncRun

section Rest

variable {run : SyncRun} {fs : MemoryFileSystem} {sk dk q r : Key} {e : WalkEntry}
  {bytes : Option Bytes} {w : World} {change : FsAct}

/-! ## Deletions -/

/-- Deleting an entry takes what is at a path: it is the path, or a directory above it. -/
def Takes (r x : Key) (e : WalkEntry) : Prop :=
  x = r ∨ (e.metadata.fileType = .directory ∧ x <+: r)

/-- A deletion plan takes what is at a path by deleting `x`. -/
def TakenBy (run : SyncRun) (r x : Key) : Prop :=
  ∃ e, run.destEntries[x]? = some e ∧ run.sourceEntries[x]? = none ∧
    isProtected run.options x e.metadata.fileType = false ∧ Takes r x e

theorem Takes.prefix {x : Key} (h : Takes r x e) : x <+: r := by
  rcases h with rfl | ⟨-, hpre⟩
  · exact List.prefix_refl x
  · exact hpre

theorem Sideless.destNames (h : run.Sideless fs sk dk) (he : run.destEntries[q]? = some e) :
    e.path.names = some (dk ++ q) := by
  rw [h.destination.path_eq he, names_key]

/-- A deletion takes the bytes of a path, or leaves them. -/
theorem Sideless.shielded_delete (h : run.Sideless fs sk dk) (hw : Shielded dk r bytes w)
    (he : run.destEntries[q]? = some e) (hact : DeleteAct run.dest q e run.options w.fs change) :
    ∃ bytes', Shielded dk r bytes' { w with fs := (change.run w.fs).2 } ∧
      (bytes' = bytes ∨ (bytes' = none ∧ Takes r q e)) := by
  have hname := h.destNames he
  have haway := hact.away h.backup hname
  by_cases hhit : (change.run w.fs).2.content (dk ++ r) = w.fs.content (dk ++ r)
  · -- the path stays, and with it the directories above it
    refine ⟨bytes, ⟨(congrArg fileBytes hhit).trans hw.here, fun hsome p hp hpr hne => ?_⟩, Or.inl rfl⟩
    obtain ⟨b, hdir⟩ := hw.above hsome p hp hpr hne
    refine ⟨b, ?_⟩
    cases hact with
    | backup hbackup =>
        rw [h.backup] at hbackup
        cases hbackup
    | file htype =>
        rw [FsAct.run]
        rcases removeFile_cases hname with ⟨err, hrun, -⟩ | ⟨c, fs', hc, hcdir, hrun, hcontent⟩
        · rw [hrun, hdir]
        · rw [hrun, hcontent, Function.update_of_ne, hdir]
          intro heq
          rw [← heq, hdir] at hc
          cases hc
          exact hcdir rfl
    | dir htype =>
        rw [FsAct.run] at hhit ⊢
        rcases removeDirAll_cases hname with ⟨err, hrun, -⟩ | ⟨fs', -, hrun, hcontent⟩
        · rw [hrun, hdir]
        · rw [hrun, hcontent] at hhit ⊢
          rw [PathTree.prune_of_not, hdir]
          intro hpre
          have hgone : w.fs.content (dk ++ r) = none := by
            rw [← hhit]
            exact PathTree.prune_of_prefix (hpre.trans ((List.prefix_append_right_inj dk).mpr hp))
          rw [← hw.here, hgone] at hsome
          cases hsome
  · rcases haway (dk ++ r) with heq | ⟨hnone, hkey⟩
    · exact absurd heq hhit
    · refine ⟨none, ⟨by rw [hnone]; rfl, by simp⟩, Or.inr ⟨rfl, ?_⟩⟩
      rw [List.append_right_inj, List.prefix_append_right_inj] at hkey
      exact hkey.imp_left Eq.symm

/-- One deletion that returns: the bytes of a path are as before, or taken. -/
theorem Sideless.ensures_deletion (h : run.Sideless fs sk dk) (he : run.destEntries[q]? = some e)
    (hw : Shielded dk r bytes w) :
    (deleteReceiverEntry run.dest e.path q e.metadata.fileType run.options).Ensures syncHandler
      (fun _ => True) (fun _ t =>
        (Takes r q e ∧ Shielded dk r none t) ∨ (¬ Takes r q e ∧ Shielded dk r bytes t)) w := by
  let I : World → Prop := fun t =>
    ∃ bytes', Shielded dk r bytes' t ∧ (bytes' = bytes ∨ (bytes' = none ∧ Takes r q e))
  have hkept : Kept run.options.dryRun (DeleteAct run.dest q e run.options) I := by
    refine ⟨fun t action ⟨b, ht, hb⟩ => ⟨b, ⟨ht.here, ht.above⟩, hb⟩, fun t change _ ht hact => ?_⟩
    obtain ⟨b, ht, hb⟩ := ht
    obtain ⟨b', ht', rfl | ⟨rfl, hreason⟩⟩ := h.shielded_delete ht he hact
    · exact ⟨b', ht', hb⟩
    · exact ⟨none, ht', Or.inr ⟨rfl, hreason⟩⟩
  have hgone := ensures_deleteReceiverEntry_gone (w := w) h.dryRun run.dest q
    (h.destNames he)
  refine (((ensures_deleteReceiverEntry hkept ⟨bytes, hw, Or.inl rfl⟩).mono_always
    fun _ _ => trivial).and hgone).mono_always (fun _ _ => trivial) |>.mono ?_
  rintro _ t ⟨⟨b, ht, hb⟩, hnone, hbelow⟩
  by_cases hreason : Takes r q e
  · refine Or.inl ⟨hreason, ?_⟩
    have hr : t.fs.content (dk ++ r) = none := by
      rcases hreason with rfl | ⟨hdir, hpre⟩
      · exact hnone
      · exact hbelow hdir _ ((List.prefix_append_right_inj dk).mpr hpre)
    refine ⟨by rw [hr]; rfl, by simp⟩
  · rcases hb with rfl | ⟨rfl, h⟩
    · exact Or.inr ⟨hreason, ht⟩
    · exact absurd h hreason

/-- Deletions take the bytes of a path exactly if their plan takes the path. -/
theorem Sideless.ensures_deletesWhen (h : run.Sideless fs sk dk) {modes : List DeleteMode}
    (hmodes : .none ∉ modes) (hw : Shielded dk r bytes w) :
    (run.deletesWhen modes).Ensures syncHandler (fun _ => True) (fun _ t =>
      (run.options.effectiveDeleteMode ∈ modes ∧ (∃ x, run.TakenBy r x) ∧ Shielded dk r none t) ∨
      (¬ (run.options.effectiveDeleteMode ∈ modes ∧ ∃ x, run.TakenBy r x) ∧
        Shielded dk r bytes t)) w := by
  refine ensures_deletesWhen_plan hmodes trivial (fun hoff => Or.inr ⟨fun h => hoff h.1, hw⟩)
    fun decisions hmode hplan => ?_
  let K : Nat → List IncrementalDeleteDecision → World → Prop := fun _ ds t =>
    (∀ d ∈ ds, d ∈ decisions) ∧
    ((Shielded dk r bytes t ∧ ∀ x, run.TakenBy r x → ∃ d ∈ ds, d.relative = x) ∨
      (Shielded dk r none t ∧ ∃ x, run.TakenBy r x))
  have htail : ∀ {d : IncrementalDeleteDecision} {ds}, (∀ d' ∈ d :: ds, d' ∈ decisions) →
      ∀ d' ∈ ds, d' ∈ decisions := fun h d' hd' => h d' (List.mem_cons_of_mem _ hd')
  -- a decision that takes nothing leaves the others to come
  have hleft : ∀ {d : IncrementalDeleteDecision} {ds}, ¬ run.TakenBy r d.relative →
      (∀ x, run.TakenBy r x → ∃ d' ∈ d :: ds, d'.relative = x) →
      ∀ x, run.TakenBy r x → ∃ d' ∈ ds, d'.relative = x := by
    intro d ds hnot hall x hx
    obtain ⟨d', hd', rfl⟩ := hall x hx
    rcases List.mem_cons.mp hd' with rfl | hd'
    · exact absurd hx hnot
    · exact ⟨d', hd', rfl⟩
  refine (ensures_applyDecisions (K := K) (fun _ _ _ _ => trivial) ?_ ?_ ?_
    (fun d hd => (hplan.entry d hd).imp fun _ he => he.1)
    ⟨fun _ hd => hd, Or.inl ⟨hw, fun x hx => ?_⟩⟩).mono ?_
  · rintro n d ds t e ⟨hds, hK⟩ he hex
    refine ⟨htail hds, ?_⟩
    rcases hK with ⟨ht, hall⟩ | hK
    · by_cases htaken : run.TakenBy r d.relative
      · have hnone : t.fs.content (dk ++ d.relative) = none := by
          rw [existsAt_iff (h.destNames he), Option.isSome_eq_false_iff,
            Option.isNone_iff_eq_none] at hex
          exact hex
        obtain ⟨_, -, -, -, htakes⟩ := id htaken
        obtain rfl := ht.none_of_above htakes.prefix (h.destination.ne_nil _ _ he) hnone
        exact Or.inr ⟨ht, _, htaken⟩
      · exact Or.inl ⟨ht, hleft htaken hall⟩
    · exact Or.inr hK
  · rintro n d ds t e ⟨hds, hK⟩ he hprotected
    refine ⟨htail hds, hK.imp (fun ⟨ht, hall⟩ => ⟨⟨ht.here, ht.above⟩, hleft ?_ hall⟩)
      fun ⟨ht, htaken⟩ => ⟨⟨ht.here, ht.above⟩, htaken⟩⟩
    rintro ⟨e', he', -, hunprotected, -⟩
    obtain ⟨e'', he'', -, heq⟩ := hplan.entry d (hds d (by simp))
    cases he''.symm.trans he'
    rw [← heq, hprotected] at hunprotected
    cases hunprotected
  · rintro n d ds t e ⟨hds, hK⟩ he - hunprotected -
    obtain ⟨e', he', hnone, heq⟩ := hplan.entry d (hds d (by simp))
    obtain rfl : e = e' := Option.some.inj (he.symm.trans he')
    have htakenBy : Takes r d.relative e → run.TakenBy r d.relative :=
      fun htakes => ⟨e, he, hnone, heq ▸ hunprotected, htakes⟩
    have hnot : ¬ Takes r d.relative e → ¬ run.TakenBy r d.relative := by
      rintro hnot ⟨e', he', -, -, htakes⟩
      cases he.symm.trans he'
      exact hnot htakes
    rcases hK with ⟨ht, hall⟩ | ⟨ht, htaken⟩
    · refine (h.ensures_deletion he ht).mono fun _ u hu => ⟨htail hds, ?_⟩
      rcases hu with ⟨htakes, hu⟩ | ⟨hstay, hu⟩
      · exact Or.inr ⟨hu, _, htakenBy htakes⟩
      · exact Or.inl ⟨hu, hleft (hnot hstay) hall⟩
    · refine (h.ensures_deletion he ht).mono fun _ u hu => ⟨htail hds, Or.inr ⟨?_, htaken⟩⟩
      rcases hu with ⟨-, hu⟩ | ⟨-, hu⟩ <;> exact hu
  · obtain ⟨e, he, hnone, -⟩ := hx
    exact hplan.all x e he hnone
  · rintro _ t ⟨_, -, ⟨ht, hall⟩ | ⟨ht, htaken⟩⟩
    · refine Or.inr ⟨fun ⟨_, x, hx⟩ => ?_, ht⟩
      obtain ⟨d, hd, -⟩ := hall x hx
      cases hd
    · exact Or.inl ⟨hmode, htaken, ht⟩

/-! ## The files of the source -/

/-- Nothing of the source has the staging path of a file that may be staged, and what is
above one is a directory. -/
def Separate (run : SyncRun) (fs : MemoryFileSystem) (sk dk : Key) : Prop :=
  run.options.delayUpdates = true → ∀ (q p y : Key) e a, run.sourceEntries[q]? = some e →
    e.metadata.fileType = .file →
    (delayedUpdatePath run.dest q.path run.options).names = some y →
    fs.content (sk ++ p) = some a → dk ++ p <+: y → a.1 = .directory ∧ dk ++ p ≠ y

/-- The bytes of a file whose turn finds in `w` what it finds before the loop. -/
def settled (run : SyncRun) (fs : MemoryFileSystem) (sk dk : Key) (w : World) (r : Key)
    (e : WalkEntry) : Option Bytes :=
  match (run.makeWay r).run syncHandler w with
  | .ret true t =>
      match fileNeedsUpdate t.fs e (run.dest.join r.path) run.options with
      | .ok true => fileBytes (fs.content (sk ++ r))
      | _ => fileBytes (t.fs.content (dk ++ r))
  | .ret false t | .fail _ t | .wait t => fileBytes (t.fs.content (dk ++ r))

/-- Every file is to have the bytes that are settled before the loop. -/
def settledCharge (run : SyncRun) (fs : MemoryFileSystem) (sk dk : Key) (w : World) : Charge where
  tracked _ _ := True
  excused _ _ := False
  excused_push _ _ _ h := h
  good r content := ∀ e, run.sourceEntries[r]? = some e →
    fileBytes content = run.settled fs sk dk w r e
  good_dir _ h := h

theorem Sideless.apart_staging (h : run.Sideless fs sk dk) (hsep : run.Separate fs sk dk) :
    run.Apart dk fun _ _ => True := by
  have hbackup : run.options.backup ≠ true := by simp [h.backup]
  refine ⟨fun hdelay q r e e' y he hfile hy he' hpre => ?_, fun hb => absurd hb hbackup,
    fun hb => absurd hb hbackup, fun hb => absurd hb hbackup, fun hb => absurd hb hbackup⟩
  obtain ⟨bytes, hc⟩ := h.source.content he'
  exact hsep hdelay q r y e _ he hfile hy hc hpre

theorem Sideless.unfollowed (h : run.Sideless fs sk dk) (hm : Measured fs) :
    run.Unfollowed fs sk dk :=
  unfollowed_of_trees h.dryRun h.dest h.apart h.apart' h.source h.destination h.free hm

/-- Until the turn of a file what is at its target and below it is as it was. -/
theorem Sideless.sameBelow_reached (h : run.Sideless fs sk dk) (hsep : run.Separate fs sk dk)
    {done rest : List (Key × WalkEntry)} {state : TransferState} {w₀ w₁ : World}
    (hsplit : run.sourceEntries.toList = done ++ (q, e) :: rest)
    (hfile : e.metadata.fileType = .file)
    (hprologue : run.prologue.run syncHandler w₀ = .ret () w₁) (hfree : SymlinkFree w₁.fs.content)
    (hreached : run.Reached w₀ done state w) : SameBelow w₁.fs w.fs (dk ++ q) := by
  have he := getElem?_of_toList hsplit
  have hdown : Downward fun x => dk ++ q <+: x := fun x y hx hxy => hx.trans hxy
  refine (h.reached_holding hdown (fun p e' hp => ?_) hprologue hfree hreached).nodes
  have he' := mem_of_done hsplit hp
  have hne : p ≠ q := key_ne_of_toList hsplit hp
  refine ⟨he', fun y hy hqy => ?_⟩
  rcases hy with rfl | ⟨hdir, hpy⟩ | ⟨hdelay, hfile', hy⟩
  · rw [List.prefix_append_right_inj] at hqy
    exact hne (h.eq_of_prefix he' he (by simp [hfile]) hqy).symm
  · rcases List.prefix_or_prefix_of_prefix hqy hpy with hqp | hpq
    · rw [List.prefix_append_right_inj] at hqp
      exact hne (h.eq_of_prefix he' he (by simp [hfile]) hqp).symm
    · rw [List.prefix_append_right_inj] at hpq
      exact hne (h.eq_of_prefix he he' hdir hpq)
  · obtain ⟨bytes, hc⟩ := h.source.content he
    have hdir := (hsep hdelay p q y e' _ he' hfile' hy hc hqy).1
    simp [hfile] at hdir

theorem Sideless.turnExcused (h : run.Sideless fs sk dk) (hmode : run.options.updateMode ≠ .checksum)
    {w₁ : World} (he : run.sourceEntries[q]? = some e) (hsame : SameBelow w₁.fs w.fs (dk ++ q)) :
    run.TurnExcused fs sk dk (run.settledCharge fs sk dk w₁) q e w := by
  have hsettled : ∀ flag t, (run.makeWay q).run syncHandler w = .ret flag t →
      ∃ t₁, (run.makeWay q).run syncHandler w₁ = .ret flag t₁ ∧ SameBelow t.fs t₁.fs (dk ++ q) :=
    fun flag t hway => hsame.symm.makeWay h.dryRun h.backup (h.names q) hway
  refine ⟨fun t hway _ => Or.inr fun e' he' => ?_, fun u t hway _ hidle hkey => Or.inr fun e' he' => ?_,
    fun u bytes hway hneeded hbytes e' he' => ?_⟩
  · obtain ⟨t₁, hway₁, ht₁⟩ := hsettled false t hway
    simp only [settled, hway₁, ht₁.content]
  · obtain ⟨t₁, hway₁, ht₁⟩ := hsettled true u hway
    cases he.symm.trans he'
    simp only [settled, hway₁, ht₁.fileNeedsUpdate (h.names q) hmode, hidle, ht₁.content, hkey]
  · obtain ⟨t₁, hway₁, ht₁⟩ := hsettled true u hway
    cases he.symm.trans he'
    simp only [settled, hway₁, ht₁.fileNeedsUpdate (h.names q) hmode, hneeded, hbytes]

/-- A run that returns leaves at the target of each file what was settled before its loop. -/
theorem Sideless.ensures_settled (h : run.Sideless fs sk dk) (hm : Measured fs)
    (hsep : run.Separate fs sk dk) (hmode : run.options.updateMode ≠ .checksum) {w₁ : World}
    (hprologue : run.prologue.run syncHandler ⟨fs, []⟩ = .ret () w₁)
    (hfree : SymlinkFree w₁.fs.content) :
    run.execute.Ensures syncHandler (fun _ => True) (fun _ w => ∀ (r : Key) e,
      run.sourceEntries[r]? = some e → e.metadata.fileType = .file →
        fileBytes (w.fs.content (dk ++ r)) = run.settled fs sk dk w₁ r e) ⟨fs, []⟩ := by
  have hcharged : run.Charged fs sk dk (run.settledCharge fs sk dk w₁) :=
    ⟨h.unfollowed hm, h.apart_staging hsep, fun _ _ _ => trivial⟩
  refine (hcharged.ensures_execute [] ?_ ?_ ?_).mono fun _ w hw r e he hfile => ?_
  · intro hpreserve
    simp [h.preserveHardLinks] at hpreserve
  · intro done rest q e state w _ _ _ _
    refine ⟨fun hpreserve => ?_, fun u v bytes _ _ _ _ => ?_⟩
    · simp [h.preserveHardLinks] at hpreserve
    · unfold BasisHonest
      rw [checkBasisDirs_nil h.linkDest h.copyDest h.compareDest]
      trivial
  · intro done rest q e state w hsplit hreached hfile _ _
    exact h.turnExcused hmode (getElem?_of_toList hsplit)
      (h.sameBelow_reached hsep hsplit hfile hprologue hfree hreached)
  · rcases hw r e he hfile trivial with hexcused | hgood
    · exact hexcused.elim
    · exact hgood e he

/-! ## What else the source has -/

theorem Sideless.source_above (h : run.Sideless fs sk dk) {p : Key} {a : Content}
    (hr : fs.content (sk ++ r) = some a) (hpre : p <+: r) (hne : p ≠ r) :
    ∃ b, fs.content (sk ++ p) = some (.directory, b) := by
  obtain ⟨rest, rfl⟩ := hpre
  rw [← List.append_assoc] at hr
  obtain ⟨⟨type, b⟩, hc, rfl⟩ := h.wellFormed.tree.above hr fun hnil => hne (by simp [hnil])
  exact ⟨b, hc⟩

/-- A turn hits no path of the source but its own, and a directory only where it is in
the way. -/
theorem Sideless.hits_source (h : run.Sideless fs sk dk) (hsep : run.Separate fs sk dk)
    (he : run.sourceEntries[q]? = some e) {p : Key} {a : Content}
    (hp : fs.content (sk ++ p) = some a) {fs' : MemoryFileSystem}
    (hact : run.entryAct q e fs' change) (hhit : change.Hits (dk ++ p)) :
    q = p ∧ (e.metadata.fileType = .directory → change = .removeFile (run.dest.join q.path)) := by
  have htarget : (run.dest.join q.path).names = some (dk ++ p) → q = p := by
    rw [h.names, Option.some.injEq, List.append_right_inj]
    exact id
  have hstaging : run.options.delayUpdates = true → e.metadata.fileType = .file →
      (delayedUpdatePath run.dest q.path run.options).names ≠ some (dk ++ p) :=
    fun hdelay hfile hy => (hsep hdelay q p _ e a he hfile hy hp (List.prefix_refl _)).2 rfl
  cases hact with
  | makeDir hdir => exact hhit.elim
  | clearDir hmeta hdir hentry hkeep =>
      obtain ⟨key, hkey, hpre⟩ := hhit
      rw [h.names, Option.some.injEq] at hkey
      rw [← hkey, List.prefix_append_right_inj] at hpre
      have hne : e.metadata.fileType ≠ .directory := by rcases hentry with hentry | hentry <;> simp [hentry]
      refine ⟨?_, fun hdir => absurd hdir hne⟩
      by_contra hqp
      obtain ⟨b, hc⟩ := h.source_above hp hpre hqp
      obtain ⟨b', hc'⟩ := h.source.content he
      rw [hc, Option.some.injEq, Prod.mk.injEq] at hc'
      exact hne hc'.1.symm
  | clearFile => exact ⟨htarget hhit, fun _ => rfl⟩
  | backup hbackup =>
      rw [h.backup] at hbackup
      cases hbackup
  | link existing hfile hlink => exact ⟨htarget hhit, fun hdir => by simp [hfile] at hdir⟩
  | copy source mode hfile => exact ⟨htarget hhit, fun hdir => by simp [hfile] at hdir⟩
  | stage hdelay hfile => exact absurd hhit (hstaging hdelay hfile)
  | append offset happend hfile => exact ⟨htarget hhit, fun hdir => by simp [hfile] at hdir⟩
  | symlink linkTarget hsym => exact ⟨htarget hhit, fun hdir => by simp [hsym] at hdir⟩
  | mtime => exact hhit.elim
  | settle hdelay hfile =>
      exact ⟨htarget (hhit.resolve_left (hstaging hdelay hfile)), fun hdir => by simp [hfile] at hdir⟩
  | unstage hdelay hfile => exact absurd hhit (hstaging hdelay hfile)

/-- A path with certain bytes, in a tree without symlinks. -/
def Shields (dk r : Key) (bytes : Option Bytes) (w : World) : Prop :=
  SymlinkFree w.fs.content ∧ Shielded dk r bytes w

theorem Shields.push (hw : Shields dk r bytes w) (action : SyncAction) :
    Shields dk r bytes { w with report := w.report ++ [action] } :=
  ⟨hw.1, ⟨hw.2.here, hw.2.above⟩⟩

/-- The turns of other entries leave the bytes at a path of the source. -/
theorem Sideless.kept_shields (h : run.Sideless fs sk dk) (hsep : run.Separate fs sk dk)
    (he : run.sourceEntries[q]? = some e) {a : Content} (hr : fs.content (sk ++ r) = some a)
    (hne : q ≠ r) : Kept run.options.dryRun (run.entryAct q e) (Shields dk r bytes) := by
  refine ⟨fun w action hw => hw.push action, fun w change _ ⟨hfree, hw⟩ hact => ⟨?_, ?_, ?_⟩⟩
  · refine symlinkFree_run hfree ?_
    rintro path target rfl
    cases hact with
    | symlink _ hsym => exact h.not_symlink he hsym
  · have hmiss : ¬ change.Hits (dk ++ r) := fun hhit => hne (h.hits_source hsep he hr hact hhit).1
    exact (fileBytes_stays (stays_run hfree hmiss)).trans hw.here
  · intro hsome p hpre hpr hp
    obtain ⟨b, hdir⟩ := hw.above hsome p hpre hpr hp
    refine ⟨b, ?_⟩
    by_cases hhit : change.Hits (dk ++ p)
    · -- the way to the path is a directory that only a file in its place would have to leave
      obtain ⟨b', hc⟩ := h.source_above hr hpre hpr
      obtain ⟨rfl, hchange⟩ := h.hits_source hsep he hc hact hhit
      obtain ⟨b'', hc'⟩ := h.source.content he
      rw [hc, Option.some.injEq, Prod.mk.injEq] at hc'
      obtain rfl := hchange hc'.1.symm
      rw [FsAct.run]
      rcases removeFile_cases (h.names q) with ⟨err, hrun, -⟩ | ⟨c, fs', hcq, hcdir, -, -⟩
      · rw [hrun]
        exact hdir
      · rw [hdir] at hcq
        cases hcq
        exact absurd rfl hcdir
    · exact (stays_run hfree hhit).some hdir

/-- The run makes a directory of the source. -/
def Makes (run : SyncRun) (r : Key) : Prop :=
  ∃ e, run.sourceEntries[r]? = some e ∧ e.metadata.fileType = .directory ∧
    (run.options.recursive || run.options.transferDirs) = true

/-- An entry that is no file, no symlink and no directory that the run makes is only reported. -/
theorem ensures_syncEntry_still {state : TransferState} {I : World → Prop}
    (hfile : e.metadata.fileType ≠ .file) (hsym : e.metadata.fileType ≠ .symlink)
    (hdir : e.metadata.fileType = .directory →
      (run.options.recursive || run.options.transferDirs) = false)
    (hpush : ∀ t action, I t → I { t with report := t.report ++ [action] }) (hw : I w) :
    (run.syncEntry q e state).Ensures syncHandler (fun _ => True)
      (fun state' t => I t ∧ state' = state) w := by
  have hother : (run.orCleanUp state (do
      handleNonRegularEntry e run.options
      pure state)).Ensures syncHandler (fun _ => True) (fun state' t => I t ∧ state' = state) w := by
    have hkept : Kept run.options.dryRun (fun _ _ => False) I :=
      ⟨hpush, fun _ _ _ _ h => h.elim⟩
    refine ensures_orCleanUp (J := I) (fun _ _ => trivial) ?_
      fun err t _ => ensures_afterFailure_true state err t
    exact ensures_seq (ensures_handleNonRegularEntry hkept hw) fun _ t ht => ⟨ht, ht, rfl⟩
  unfold syncEntry
  simp only
  split
  · rename_i hd
    have hoff := hdir hd
    rw [Bool.or_eq_false_iff] at hoff
    unfold syncDirectory
    simp only [hoff, Bool.not_false, Bool.and_self, if_true]
    exact ensures_report trivial ⟨trivial, hpush w _ hw, rfl⟩
  · rename_i hf
    exact absurd hf hfile
  · rename_i hs
    exact absurd hs hsym
  · exact hother
  · exact hother
  · exact hother
  · exact hother

/-- At a directory that the run has made there is no file. -/
theorem Sideless.ensures_made (h : run.Sideless fs sk dk) {state : TransferState}
    (he : run.sourceEntries[r]? = some e) (hdir : e.metadata.fileType = .directory)
    (hon : (run.options.recursive || run.options.transferDirs) = true)
    (hfree : SymlinkFree w.fs.content) :
    (run.syncEntry r e state).Ensures syncHandler (fun _ => True)
      (fun _ => Shields dk r none) w := by
  have hkept : Kept run.options.dryRun (run.entryAct r e) fun t => SymlinkFree t.fs.content := by
    refine ⟨fun _ _ ht => ht, fun t change _ ht hact => symlinkFree_run ht ?_⟩
    rintro path target rfl
    cases hact with
    | symlink _ hsym => exact h.not_symlink he hsym
  have hsym : ∀ b, w.fs.content (dk ++ r) ≠ some (.symlink, b) := fun b => hfree _ b
  have hon' : (!run.options.recursive && !run.options.transferDirs) = false := by
    rw [← Bool.not_or, hon]
    rfl
  unfold syncEntry
  simp only [hdir]
  unfold syncDirectory
  simp only [hon', Bool.false_eq_true, if_false]
  have hway := (ensures_removeConflictingTarget_way h.dryRun (fun _ => hsym) (h.names r) .directory
    run.dest r.path).and (ensures_removeConflictingTarget hkept hdir.symm (by simp) hfree)
  refine ensures_seq (hway.mono_always fun _ _ => trivial) fun cleared t ht => ?_
  obtain ⟨⟨htrue, hfalse⟩, hfree'⟩ := ht
  cases cleared with
  | false => exact absurd rfl (hfalse rfl).1
  | true =>
      have hnone : fileBytes (t.fs.content (dk ++ r)) = none := by
        rcases htrue rfl with hnone | ⟨rfl, htype⟩
        · rw [hnone]
          rfl
        · cases hbytes : fileBytes (t.fs.content (dk ++ r)) with
          | none => rfl
          | some b => cases htype _ (fileBytes_eq_some.mp hbytes)
      refine ensures_report trivial ?_
      refine ensures_actUnlessDry trivial (fun hdry => ?_) (fun _ => trivial) fun _ _ => ?_
      · rw [h.dryRun] at hdry
        cases hdry
      · refine ⟨trivial, symlinkFree_run hfree' (by simp), ?_, by simp⟩
        exact (fileBytes_stays (stays_run hfree' id)).trans hnone

/-- Deletions keep a tree without symlinks. -/
theorem free_deletesKeep (run : SyncRun) : run.DeletesKeep fun t => SymlinkFree t.fs.content := by
  intro x e _ _ _
  refine ⟨fun _ _ ht => ht, fun t change _ ht hact => symlinkFree_run ht ?_⟩
  rintro path target rfl
  cases hact

/-- At what a run takes or makes there is no file; else what is there stays. -/
def Leaves (run : SyncRun) (r : Key) (before after : Option Bytes) : Prop :=
  let altered := (run.options.effectiveDeleteMode ≠ .none ∧ ∃ x, run.TakenBy r x) ∨ run.Makes r
  (altered ∧ after = none) ∨ (¬ altered ∧ after = before)

theorem Leaves.unique {before after after' : Option Bytes} (h : run.Leaves r before after)
    (h' : run.Leaves r before after') : after = after' := by
  rcases h with ⟨h, rfl⟩ | ⟨h, rfl⟩ <;> rcases h' with ⟨h', rfl⟩ | ⟨h', rfl⟩
  · rfl
  · exact absurd h h'
  · exact absurd h' h
  · rfl

/-- The deletions, with the whole of what they keep. -/
theorem Sideless.ensures_deletesWhen_shields (h : run.Sideless fs sk dk) {modes : List DeleteMode}
    (hmodes : .none ∉ modes) (hw : Shields dk r bytes w) :
    (run.deletesWhen modes).Ensures syncHandler (fun _ => True) (fun _ t =>
      (run.options.effectiveDeleteMode ∈ modes ∧ (∃ x, run.TakenBy r x) ∧ Shields dk r none t) ∨
      (¬ (run.options.effectiveDeleteMode ∈ modes ∧ ∃ x, run.TakenBy r x) ∧
        Shields dk r bytes t)) w := by
  have hfree := SyncRun.ensures_deletesWhen modes (fun _ _ ht => ht) (free_deletesKeep run) hw.1
  refine ((h.ensures_deletesWhen hmodes hw.2).and hfree).mono_always (fun _ _ => trivial) |>.mono ?_
  rintro _ t ⟨⟨hmode, htaken, ht⟩ | ⟨hnot, ht⟩, hfree⟩
  · exact Or.inl ⟨hmode, htaken, hfree, ht⟩
  · exact Or.inr ⟨hnot, hfree, ht⟩

theorem Sideless.shields_createDest {t : World} (ht : Shields dk r bytes t) {path : PathBuf} :
    Shields dk r bytes { t with fs := (FsAct.run t.fs (.createDirAll path)).2 } := by
  refine ⟨symlinkFree_run ht.1 (by simp), (fileBytes_stays (stays_run ht.1 id)).trans ht.2.here, ?_⟩
  intro hsome p hpre hpr hp
  obtain ⟨b, hdir⟩ := ht.2.above hsome p hpre hpr hp
  exact ⟨b, (stays_run ht.1 id).some hdir⟩

/-- How far the loop has come with a path of the source that is no file. -/
structure Passing (run : SyncRun) (dk r : Key) (bytes : Option Bytes)
    (done : List (Key × WalkEntry)) (state : TransferState) (w : World) : Prop where
  staged : run.Staged state
  noted : run.DirsNoted state
  remembered : Remembered run.Linked state
  shields : (Shields dk r bytes w ∧ (run.Makes r → r ∉ done.map Prod.fst)) ∨
    (Shields dk r none w ∧ run.Makes r)

theorem Sideless.ensures_passing (h : run.Sideless fs sk dk) (hsep : run.Separate fs sk dk)
    {a : Content} (hr : fs.content (sk ++ r) = some a)
    (hnofile : ∀ e, run.sourceEntries[r]? = some e → e.metadata.fileType ≠ .file)
    {done rest : List (Key × WalkEntry)} {state : TransferState}
    (hsplit : run.sourceEntries.toList = done ++ (q, e) :: rest)
    (hw : run.Passing dk r bytes done state w) :
    (run.syncEntry q e state).Ensures syncHandler (fun _ => True)
      (run.Passing dk r bytes (done ++ [(q, e)])) w := by
  have he := getElem?_of_toList hsplit
  have hextend : ∀ {state' : TransferState} {t : World}, run.Advances q e state state' →
      ((Shields dk r bytes t ∧ (run.Makes r → r ∉ (done ++ [(q, e)]).map Prod.fst)) ∨
        (Shields dk r none t ∧ run.Makes r)) →
      run.Passing dk r bytes (done ++ [(q, e)]) state' t := fun hadv ht =>
    ⟨hw.staged.advance he hadv, hw.noted.advance he hadv, hadv.remembered he hw.remembered, ht⟩
  by_cases hqr : q = r
  · subst hqr
    have hnotdone : q ∉ done.map Prod.fst := by
      intro hmem
      obtain ⟨⟨r, e'⟩, hmem, heq⟩ := List.mem_map.mp hmem
      exact key_ne_of_toList hsplit hmem heq
    by_cases hmakes : run.Makes q
    · obtain ⟨e', he', hdir, hon⟩ := id hmakes
      obtain rfl : e = e' := Option.some.inj (he.symm.trans he')
      have hfree : SymlinkFree w.fs.content := by
        rcases hw.shields with ⟨hs, -⟩ | ⟨hs, -⟩ <;> exact hs.1
      have hkept : Kept run.options.dryRun (run.entryAct q e) fun _ => True :=
        ⟨fun _ _ _ => trivial, fun _ _ _ _ _ => trivial⟩
      have hadvances := ensures_syncEntry (fun _ _ => trivial) hkept
        (fun err t _ => ensures_afterFailure_true state err t) hw.remembered (w := w) trivial
      refine ((h.ensures_made he hdir hon hfree).and hadvances).mono_always (fun _ _ => trivial)
        |>.mono ?_
      exact fun state' t ht => hextend ht.2.2 (Or.inr ⟨ht.1, hmakes⟩)
    · have hstill : e.metadata.fileType = .directory →
          (run.options.recursive || run.options.transferDirs) = false := by
        intro hdir
        rw [← Bool.not_eq_true]
        exact fun hon => hmakes ⟨e, he, hdir, hon⟩
      refine (ensures_syncEntry_still (I := Shields dk q bytes) (hnofile e he) (h.not_symlink he)
        hstill (fun _ action ht => ht.push action) ?_).mono ?_
      · rcases hw.shields with ⟨hs, -⟩ | ⟨-, hm⟩
        · exact hs
        · exact absurd hm hmakes
      · rintro state' t ⟨ht, rfl⟩
        exact hextend (.refl q e state') (Or.inl ⟨ht, fun hm => absurd hm hmakes⟩)
  · have hkeep : ∀ {b}, Shields dk r b w → (run.syncEntry q e state).Ensures syncHandler
        (fun _ => True) (fun state' t => Shields dk r b t ∧ run.Advances q e state state') w :=
      fun hs => ensures_syncEntry (fun _ _ => trivial) (h.kept_shields hsep he hr hqr)
        (fun err t (_ : Shields dk r _ t) => ensures_afterFailure_true state err t)
        hw.remembered hs
    rcases hw.shields with ⟨hs, hnot⟩ | ⟨hs, hmakes⟩
    · refine (hkeep hs).mono fun state' t ht => hextend ht.2 (Or.inl ⟨ht.1, fun hm => ?_⟩)
      rw [List.map_append, List.mem_append, not_or]
      exact ⟨hnot hm, by simpa using Ne.symm hqr⟩
    · exact (hkeep hs).mono fun state' t ht => hextend ht.2 (Or.inr ⟨ht.1, hmakes⟩)

theorem Sideless.ensures_finish_shields (h : run.Sideless fs sk dk) (hsep : run.Separate fs sk dk)
    {a : Content} (hr : fs.content (sk ++ r) = some a)
    (hnofile : ∀ e, run.sourceEntries[r]? = some e → e.metadata.fileType ≠ .file)
    {state : TransferState} (hstaged : run.Staged state) (hw : Shields dk r bytes w) :
    (run.finish state).Ensures syncHandler (fun _ => True) (fun _ => Shields dk r bytes) w := by
  have hsettle : ∀ d ∈ state.delayedTransfers,
      Settleable run.dest run.options run.Linked (Shields dk r bytes) d := by
    intro d hd
    obtain ⟨hdry, hdelay, q, e, he, hfile, rfl⟩ := hstaged d hd
    refine ⟨hdry, hdelay, hfile, rfl, h.kept_shields hsep he hr ?_⟩
    rintro rfl
    exact hnofile e he hfile
  unfold finish
  refine ensures_seq ((ensures_finishDelayedUpdates hsettle hw).attempt.mono_always
    fun _ _ => trivial) fun result t ht => ?_
  cases result with
  | ok _ => exact ⟨trivial, ht.1⟩
  | error err => exact ensures_seq (Prog.ensures_true _ _) fun _ _ _ => trivial

/-- What a run leaves at a path of the source at which there is no file to bring. -/
theorem Sideless.ensures_leaves (h : run.Sideless fs sk dk) (hsep : run.Separate fs sk dk)
    {a : Content} (hr : fs.content (sk ++ r) = some a)
    (hnofile : ∀ e, run.sourceEntries[r]? = some e → e.metadata.fileType ≠ .file) :
    run.execute.Ensures syncHandler (fun _ => True) (fun _ w =>
      run.Leaves r (fileBytes (fs.content (dk ++ r))) (fileBytes (w.fs.content (dk ++ r))))
      ⟨fs, []⟩ := by
  have hstart : Shields dk r (fileBytes (fs.content (dk ++ r))) ⟨fs, []⟩ := by
    refine ⟨h.free, rfl, fun hsome p hpre hpr _ => ?_⟩
    obtain ⟨b, hb⟩ := Option.isSome_iff_exists.mp hsome
    obtain ⟨rest, rfl⟩ := hpre
    have hc := fileBytes_eq_some.mp hb
    rw [← List.append_assoc] at hc
    obtain ⟨⟨type, b'⟩, hc', rfl⟩ := h.wellFormed.tree.above hc fun hnil => hpr (by simp [hnil])
    exact ⟨b', hc'⟩
  let before := fileBytes (fs.content (dk ++ r))
  let taken : List DeleteMode → Prop := fun modes =>
    run.options.effectiveDeleteMode ∈ modes ∧ ∃ x, run.TakenBy r x
  -- the bytes after the early deletions, and after the loop
  let Early : Option Bytes → Prop := fun b =>
    (taken [.before, .during] ∧ b = none) ∨ (¬ taken [.before, .during] ∧ b = before)
  let Looped : Option Bytes → Prop := fun b =>
    ((taken [.before, .during] ∨ run.Makes r) ∧ b = none) ∨
      (¬ (taken [.before, .during] ∨ run.Makes r) ∧ b = before)
  have hprologue : run.prologue.Ensures syncHandler (fun _ => True)
      (fun _ t => ∃ b, Early b ∧ run.Passing dk r b [] {} t) ⟨fs, []⟩ := by
    refine ensures_prologue (A := Shields dk r before)
      ⟨fun _ action ht => ht.push action, ?_⟩ (fun t ht => ?_) hstart
    · rintro t change _ ht rfl
      exact shields_createDest ht
    · have hpassing : ∀ {b u}, Shields dk r b u → run.Passing dk r b [] {} u := fun hu =>
        ⟨by simp [Staged], by simp [DirsNoted], remembered_empty _, Or.inl ⟨hu, by simp⟩⟩
      refine (h.ensures_deletesWhen_shields (by simp) ht).mono fun _ u hu => ?_
      rcases hu with ⟨hmode, htaken, hu⟩ | ⟨hnot, hu⟩
      · exact ⟨none, Or.inl ⟨⟨hmode, htaken⟩, rfl⟩, hpassing hu⟩
      · exact ⟨before, Or.inr ⟨hnot, rfl⟩, hpassing hu⟩
  refine ensures_execute_reached (B := fun t => ∃ b, Looped b ∧ Shields dk r b t)
    (C := fun t => run.Leaves r before (fileBytes (t.fs.content (dk ++ r))))
    (J := fun done state t => ∃ b, Early b ∧ run.Passing dk r b done state t) hprologue
    ?_ ?_ ?_ ?_ ?_
  · rintro done q e rest state t hsplit - ⟨b, hb, ht⟩
    exact (h.ensures_passing hsep hr hnofile hsplit ht).mono fun _ _ hu => ⟨b, hb, hu⟩
  · rintro state t ⟨_, _, ht⟩
    exact ht.noted
  · rintro state t ⟨b, hb, ht⟩
    obtain ⟨b', hlooped, hs⟩ : ∃ b', Looped b' ∧ Shields dk r b' t := by
      rcases ht.shields with ⟨hs, hnot⟩ | ⟨hs, hmakes⟩
      · refine ⟨b, ?_, hs⟩
        have hmakes : ¬ run.Makes r := by
          intro hm
          obtain ⟨e, he, -⟩ := id hm
          refine hnot hm ?_
          rw [List.mem_map]
          exact ⟨(r, e), Std.TreeMap.mem_toList_iff_getElem?_eq_some.mpr he, rfl⟩
        rcases hb with ⟨htaken, rfl⟩ | ⟨hnot, rfl⟩
        · exact Or.inl ⟨Or.inl htaken, rfl⟩
        · exact Or.inr ⟨not_or.mpr ⟨hnot, hmakes⟩, rfl⟩
      · exact ⟨none, Or.inl ⟨Or.inr hmakes, rfl⟩, hs⟩
    exact (h.ensures_finish_shields hsep hr hnofile ht.staged hs).mono fun _ _ hu =>
      ⟨b', hlooped, hu⟩
  · rintro t ⟨b, hlooped, hs⟩
    have hmode : ∀ {modes}, taken modes → run.options.effectiveDeleteMode ≠ .none ∨ .none ∈ modes := by
      intro modes htaken
      by_cases hnone : run.options.effectiveDeleteMode = .none
      · exact Or.inr (hnone ▸ htaken.1)
      · exact Or.inl hnone
    refine (h.ensures_deletesWhen_shields (by simp) hs).mono fun _ u hu => ?_
    rcases hu with ⟨hlate, htaken, hu⟩ | ⟨hnot, hu⟩
    · rw [hu.2.here]
      have := (hmode ⟨hlate, htaken⟩).resolve_right (by simp)
      exact Or.inl ⟨Or.inl ⟨this, htaken⟩, rfl⟩
    · rw [hu.2.here]
      rcases hlooped with ⟨htaken | hmakes, rfl⟩ | ⟨hearly, rfl⟩
      · exact Or.inl ⟨Or.inl ⟨(hmode htaken).resolve_right (by simp), htaken.2⟩, rfl⟩
      · exact Or.inl ⟨Or.inr hmakes, rfl⟩
      · refine Or.inr ⟨?_, rfl⟩
        rintro (⟨hon, htaken⟩ | hmakes)
        · cases heq : run.options.effectiveDeleteMode with
          | none => exact hon heq
          | before => exact hearly (Or.inl ⟨by simp [heq], htaken⟩)
          | during => exact hearly (Or.inl ⟨by simp [heq], htaken⟩)
          | delay => exact hnot ⟨by simp [heq], htaken⟩
          | after => exact hnot ⟨by simp [heq], htaken⟩
        · exact hearly (Or.inr hmakes)
  · intro q e he
    exact mtime_kept (P := fun c => run.Leaves r before (fileBytes (c (dk ++ r))))

end Rest

/-! ## One run, delayed or not -/

/-- The same run with delayed updates on or off. -/
def delaying (run : SyncRun) (delay : Bool) : SyncRun :=
  { run with options := { run.options with delayUpdates := delay } }

theorem applyDecisions_delaying (dest : PathBuf) (destEntries : Entries) (options : SyncOptions)
    (delay : Bool) (deleted : Nat) (decisions : List IncrementalDeleteDecision) :
    applyDecisions dest destEntries { options with delayUpdates := delay } deleted decisions =
      applyDecisions dest destEntries options deleted decisions := by
  induction decisions generalizing deleted with
  | nil => rfl
  | cons decision decisions ih =>
      simp only [applyDecisions, ih]
      rfl

theorem prologue_delaying (run : SyncRun) (delay : Bool) :
    (run.delaying delay).prologue = run.prologue := by
  unfold prologue deletesWhen applyReceiverDeletes
  simp only [delaying, applyDecisions_delaying]
  rfl

theorem prepare_delaying (stack : Nat) (fs : MemoryFileSystem) (source dest : PathBuf)
    (options : SyncOptions) (delay : Bool) :
    prepare stack fs source dest { options with delayUpdates := delay } =
      (prepare stack fs source dest options).map fun run => run.delaying delay := by
  show (sourceEntriesOf stack fs source options).bind _ = _
  unfold prepare
  cases sourceEntriesOf stack fs source options with
  | error e => rfl
  | ok sourceEntries =>
      simp only [bind, Except.bind]
      show (preflight options (sourceEntries.keys.map Key.path)).bind _ = _
      cases preflight options (sourceEntries.keys.map Key.path) with
      | error e => rfl
      | ok _ =>
          simp only [Except.bind]
          show (destEntriesOf stack fs dest options).bind _ = _
          cases destEntriesOf stack fs dest options with
          | error e => rfl
          | ok destEntries =>
              simp only [Except.bind]
              cases ensureMissingDestinationParentAllowed fs dest options.mkpath <;> rfl

end SyncRun

/-! ## A single file -/

section Single

variable {fs : MemoryFileSystem} {source dest target : PathBuf} {metadata : PortableMetadata}
  {options : SyncOptions} {sk dk key : Key} {bytes : Bytes}

/-- The settings under which delayed updates are compared with immediate ones. -/
structure DelayOptions (options : SyncOptions) : Prop where
  backup : options.backup = false
  tempDir : options.tempDir = none
  appendVerify : options.appendVerify = false
  fuzzy : options.fuzzy = false
  preserveHardLinks : options.preserveHardLinks = false
  compareDest : options.compareDest = []
  copyDest : options.copyDest = []
  linkDest : options.linkDest = []
  updateMode : options.updateMode = .ignoreTimes

/-- The transfer of a single file brings it, staged or not, from wherever it is. -/
theorem ensures_transferSingle_delay (hoptions : DelayOptions options)
    (hdry : options.dryRun = false) (hfile : metadata.fileType = .file)
    (hs : source.names = some sk) (hk : target.names = some key) (hnot : ¬ key <+: sk)
    (hlen : bytes.length = metadata.len) {u : World} (hfree : SymlinkFree u.fs.content)
    (hm : Measured u.fs) (hsource : u.fs.content sk = some (.file, bytes))
    (hroom : Room u.fs.content key) (destRoot relative : PathBuf)
    (hroot : destRoot = singleFileRoot target) (hrel : relative = singleFileRelative target) :
    (transferFile destRoot target relative ⟨source, metadata⟩ options {} >>= fun state =>
      finishDelayedUpdates destRoot options state.delayedTransfers).Ensures syncHandler
        (fun _ => True) (fun _ t => t.fs.content key = some (.file, bytes)) u := by
  have hbackup := hoptions.backup
  cases hdelay : options.delayUpdates with
  | false =>
      -- nothing is moved, and the source stays
      subst hroot hrel
      have hkept : Kept options.dryRun (EntryAct (singleFileRoot target) target
          (singleFileRelative target) ⟨source, metadata⟩ options fun _ => False)
          (SingleFrame target options sk bytes) :=
        singleFrame_kept hfile hbackup hs hk hnot (by simp [hdelay])
      refine ensures_transferSingle (O := SinglePath target options)
        { dryRun := hdry, names := hk, kept := hkept, clear := fun t ht => ht.clear, here := Or.inl hk
          backup := by simp [hbackup]
          staging := by simp [hdelay]
          linked := fun _ h => h.elim
          basis := by simp [hoptions.linkDest, hoptions.copyDest] }
        hfile hbackup hs hlen ?_ hroom ⟨fun y _ => hfree.clear y, hsource, hm⟩
      unfold BasisHonest
      rw [checkBasisDirs_nil hoptions.linkDest hoptions.copyDest hoptions.compareDest]
      trivial
  | true =>
      have hkept : Kept options.dryRun (EntryAct destRoot target relative ⟨source, metadata⟩ options
          fun _ => False) fun t => SymlinkFree t.fs.content := by
        refine ⟨fun _ _ ht => ht, fun t change _ ht hact => symlinkFree_run ht ?_⟩
        rintro path link rfl
        cases hact with
        | symlink _ hsym => exact absurd (hsym.symm.trans hfile) (by simp)
      have hplacing : Placing destRoot target relative ⟨source, metadata⟩ options (fun _ => False) key
          (fun _ => True) fun t => SymlinkFree t.fs.content :=
        { dryRun := hdry, names := hk, kept := hkept, clear := fun t ht y _ => ht.clear y
          here := trivial
          backup := by simp [hbackup]
          staging := fun _ _ _ => trivial
          linked := fun _ h => h.elim
          basis := fun _ _ _ _ => trivial }
      rw [transferFile_whole hoptions.preserveHardLinks hoptions.linkDest hoptions.copyDest
        hoptions.compareDest hoptions.fuzzy hoptions.appendVerify, Prog.bind_assoc]
      refine ensures_look trivial ?_
      refine ensures_seq ((hplacing.ensures_transferWhole hfile hfree).mono_always
        fun _ _ => trivial) fun state t ht => ?_
      obtain ⟨hfree', ⟨hoff, -⟩ | ⟨-, rfl, tkey, b, htkey, hread, hstaged⟩⟩ := ht
      · rw [hdelay] at hoff
        cases hoff
      · cases (readFile_of_content hs hsource).symm.trans hread
        exact ensures_settleSingle hbackup hk htkey (hfree'.clear key) hstaged destRoot

theorem ensures_delayedSingle (hoptions : DelayOptions options) (hdry : options.dryRun = false)
    (hfile : metadata.fileType = .file) (hs : source.names = some sk) (hd : dest.names = some dk)
    (hds : ¬ dk <+: sk) (hfree : SymlinkFree fs.content) (hm : Measured fs)
    (hsource : fs.content sk = some (.file, bytes)) (hlen : bytes.length = metadata.len) :
    (syncSingleFile source metadata dest options).Ensures syncHandler (fun _ => True)
      (fun _ w => ∀ target key, singleFileTarget fs source dest = .ok target →
        target.names = some key → SingleEnd fs source metadata options target key bytes w)
      ⟨fs, []⟩ := by
  -- making way takes nothing of the source and makes no symlink
  have hway : ∀ target key u, target.names = some key → dk <+: key →
      (removeConflictingTarget (singleFileRoot target) target (singleFileRelative target) .file
        options).run syncHandler ⟨fs, []⟩ = .ret true u →
      SymlinkFree u.fs.content ∧ Measured u.fs ∧ u.fs.content sk = some (.file, bytes) := by
    intro target key u hk hpre hrun
    have hnot : ¬ key <+: sk := fun h => hds (hpre.trans h)
    have hkept : Kept options.dryRun (fun _ change => change = .removeDirAll target ∨
        change = .removeFile target) fun t => SymlinkFree t.fs.content ∧ Measured t.fs ∧
          t.fs.content sk = some (.file, bytes) := by
      refine ⟨fun _ _ ht => ht, fun t change _ ht hact => ?_⟩
      have hmiss : ¬ change.Hits sk := by
        rcases hact with rfl | rfl
        · rintro ⟨key', hkey', hpre'⟩
          cases hk.symm.trans hkey'
          exact hnot hpre'
        · intro hx
          cases hk.symm.trans hx
          exact hnot (List.prefix_refl _)
      have hsym : ∀ path link, change ≠ .createSymlink path link := by
        rcases hact with rfl | rfl <;> simp
      exact ⟨symlinkFree_run ht.1 hsym, measured_run ht.2.1 change, (stays_run ht.1 hmiss).some ht.2.2⟩
    refine (ensures_makeWay hkept (fun t metadata hb => ?_) (fun _ _ _ _ _ _ _ => Or.inl rfl)
      (fun _ _ => Or.inr rfl) ⟨hfree, hm, hsource⟩).returns hrun
    simp [hoptions.backup] at hb
  refine ensures_syncSingleFile_ends hdry hd (fun _ _ _ _ b => hfree _ b) ?_ ?_
  · intro target key u _ hk hpre hrun
    exact ⟨sk, hs, (hway target key u hk hpre hrun).2.2⟩
  · intro target key u _ hk hpre hrun _ hroom
    obtain ⟨hfree', hm', hsource'⟩ := hway target key u hk hpre hrun
    exact ensures_transferSingle_delay hoptions hdry hfile hs hk (fun h => hds (hpre.trans h)) hlen
      hfree' hm' hsource' hroom _ _ rfl rfl

/-- Delayed or not, the turn of a single file comes to the same end. -/
theorem SingleEnd.delaying {delay delay' : Bool} {w w' : World}
    (h : SingleEnd fs source metadata { options with delayUpdates := delay } target key bytes w)
    (h' : SingleEnd fs source metadata { options with delayUpdates := delay' } target key bytes w') :
    w.fs.content key = w'.fs.content key := by
  cases h with
  | kept hway _ =>
      cases h' with
      | kept hway' _ =>
          cases hway.symm.trans hway'
          rfl
      | idle hway' _ _ _ _ => cases hway.symm.trans hway'
      | brought hway' _ _ => cases hway.symm.trans hway'
  | idle hway _ _ hidle hsame =>
      cases h' with
      | kept hway' _ => cases hway.symm.trans hway'
      | idle hway' _ _ _ hsame' =>
          cases hway.symm.trans hway'
          exact hsame.trans hsame'.symm
      | brought hway' hneeded' _ =>
          cases hway.symm.trans hway'
          cases hidle.symm.trans hneeded'
  | brought hway hneeded hkey =>
      cases h' with
      | kept hway' _ => cases hway.symm.trans hway'
      | idle hway' _ _ hidle' _ =>
          cases hway.symm.trans hway'
          cases hneeded.symm.trans hidle'
      | brought hway' _ hkey' => exact hkey.trans hkey'.symm

end Single

/-! ## A whole sync -/

/-- The path at the destination of each path of the source. -/
inductive Counterpart (fs : MemoryFileSystem) (source dest : PathBuf) : Key → Prop
  | below {sk dk r : Key} {a : Content} (hs : source.names = some sk) (hd : dest.names = some dk)
      (hfile : ∀ b, fs.content sk ≠ some (.file, b)) (hr : fs.content (sk ++ r) = some a) :
      Counterpart fs source dest (dk ++ r)
  | single {sk key : Key} {b : Bytes} {target : PathBuf} (hs : source.names = some sk)
      (hfile : fs.content sk = some (.file, b)) (htarget : singleFileTarget fs source dest = .ok target)
      (hk : target.names = some key) : Counterpart fs source dest key

/-- Nothing of the source is called like the staged copy of a listed file, and only
directories are above one. -/
def StagingFree (stack : Nat) (fs : MemoryFileSystem) (source : PathBuf) (options : SyncOptions) :
    Prop :=
  ∀ (sk : Key) (entries : Entries), source.names = some sk →
    sourceEntriesOf stack fs source options = .ok entries →
    ∀ (q p : Key) e a, entries[q]? = some e → e.metadata.fileType = .file →
      fs.content (sk ++ p) = some a → p <+: delayedDirName :: q →
      a.1 = .directory ∧ p ≠ delayedDirName :: q

theorem names_delayedUpdatePath {dest : PathBuf} {options : SyncOptions} {dk : Key}
    (hd : dest.names = some dk) (htemp : options.tempDir = none) (q : Key) :
    (delayedUpdatePath dest q.path options).names = some (dk ++ delayedDirName :: q) := by
  unfold delayedUpdatePath
  simp only [htemp]
  show ((dest.join (Key.path [delayedDirName])).join q.path).names = _
  rw [names_join_key (names_join_key hd [delayedDirName]) q, List.append_assoc]
  rfl

theorem syncTree_returns {fs : MemoryFileSystem} {stack : Nat} {source dest : PathBuf}
    {options : SyncOptions} {w : World}
    (h : (syncTree stack source dest options).run syncHandler ⟨fs, []⟩ = .ret () w) :
    ∃ metadata, checkRoots fs source dest = .ok metadata ∧
      ((metadata.fileType = .file ∧
          (syncSingleFile source metadata dest options).run syncHandler ⟨fs, []⟩ = .ret () w) ∨
        (metadata.fileType ≠ .file ∧ ∃ run, prepare stack fs source dest options = .ok run ∧
          run.execute.run syncHandler ⟨fs, []⟩ = .ret () w)) := by
  unfold syncTree at h
  rw [run_look] at h
  simp only at h
  cases hroots : checkRoots fs source dest with
  | error e =>
      rw [hroots] at h
      cases h
  | ok metadata =>
      rw [hroots, Prog.ofExcept_ok, Prog.ret_bind] at h
      refine ⟨metadata, rfl, ?_⟩
      by_cases hfile : metadata.fileType = .file
      · rw [if_pos hfile] at h
        exact Or.inl ⟨hfile, h⟩
      · rw [if_neg hfile] at h
        refine Or.inr ⟨hfile, ?_⟩
        cases hprepare : prepare stack fs source dest options with
        | error e =>
            rw [hprepare] at h
            cases h
        | ok run =>
            rw [hprepare, Prog.ofExcept_ok, Prog.ret_bind] at h
            exact ⟨run, rfl, h⟩

section Delaying

open SyncRun

variable {fs : MemoryFileSystem} {stack : Nat} {source dest : PathBuf} {options : SyncOptions}
  {sk dk : Key} {run : SyncRun}

theorem Prepared.sideless_delaying (hrun : Prepared stack fs source dest options run)
    (hoptions : DelayOptions options) (hdry : options.dryRun = false) (hwf : WellFormed fs)
    (hfree : SymlinkFree fs.content) (hs : source.names = some sk) (hd : dest.names = some dk)
    (hsd : ¬ sk <+: dk) (hds : ¬ dk <+: sk) (delay : Bool) :
    (run.delaying delay).Sideless fs sk dk := by
  have hopt := hrun.options_eq
  refine ⟨?_, ?_, ?_, ?_, ?_, ?_, hrun.dest_eq ▸ hd, hsd, hds,
    hrun.sourceTree (hwf.noFollow_of_symlinkFree hfree _) hs, hrun.destTree hwf hd, hwf, hfree⟩ <;>
    simp only [delaying, hopt]
  · exact hdry
  · exact hoptions.backup
  · exact hoptions.preserveHardLinks
  · exact hoptions.compareDest
  · exact hoptions.copyDest
  · exact hoptions.linkDest

theorem Prepared.separate_delaying (hrun : Prepared stack fs source dest options run)
    (hoptions : DelayOptions options) (hs : source.names = some sk) (hd : dest.names = some dk)
    (hstaging : StagingFree stack fs source options) (delay : Bool) :
    (run.delaying delay).Separate fs sk dk := by
  intro _ q p y e a he hfile hy hp hpre
  have hname : (delayedUpdatePath run.dest q.path (run.delaying delay).options).names =
      some (dk ++ delayedDirName :: q) := by
    refine names_delayedUpdatePath (hrun.dest_eq ▸ hd) ?_ q
    simp only [delaying, hrun.options_eq, hoptions.tempDir]
  obtain rfl := Option.some.inj (hy.symm.trans hname)
  rw [List.prefix_append_right_inj] at hpre
  obtain ⟨hdir, hne⟩ := hstaging sk run.sourceEntries hs hrun.source q p e a he hfile hp hpre
  exact ⟨hdir, fun heq => hne (List.append_cancel_left heq)⟩

/-- What a run leaves at a path of the source does not depend on how its files are updated. -/
theorem Prepared.delaying_same (hrun : Prepared stack fs source dest options run)
    (hoptions : DelayOptions options) (hdry : options.dryRun = false) (hwf : WellFormed fs)
    (hm : Measured fs) (hfree : SymlinkFree fs.content) (hs : source.names = some sk)
    (hd : dest.names = some dk) (hsd : ¬ sk <+: dk) (hds : ¬ dk <+: sk)
    (hstaging : StagingFree stack fs source options) {r : Key} {a : Content}
    (hr : fs.content (sk ++ r) = some a) {w w' : World}
    (hw : (run.delaying true).execute.run syncHandler ⟨fs, []⟩ = .ret () w)
    (hw' : (run.delaying false).execute.run syncHandler ⟨fs, []⟩ = .ret () w') :
    fileBytes (w.fs.content (dk ++ r)) = fileBytes (w'.fs.content (dk ++ r)) := by
  have hside : ∀ delay, (run.delaying delay).Sideless fs sk dk :=
    hrun.sideless_delaying hoptions hdry hwf hfree hs hd hsd hds
  have hsep : ∀ delay, (run.delaying delay).Separate fs sk dk :=
    hrun.separate_delaying hoptions hs hd hstaging
  by_cases hfile : ∃ e, run.sourceEntries[r]? = some e ∧ e.metadata.fileType = .file
  · obtain ⟨e, he, hfile⟩ := hfile
    have hmode : ∀ delay, (run.delaying delay).options.updateMode ≠ .checksum := by
      intro delay
      simp [delaying, hrun.options_eq, hoptions.updateMode]
    obtain ⟨_, w₁, hprologue, -⟩ : ∃ u w₁, (run.delaying true).prologue.run syncHandler ⟨fs, []⟩ =
        .ret u w₁ ∧ _ := by
      rw [execute_eq] at hw
      exact Prog.run_bind_eq_ret.mp hw
    have hfree₁ : SymlinkFree w₁.fs.content := by
      refine (ensures_prologue (A := fun t => SymlinkFree t.fs.content)
        (J := fun t => SymlinkFree t.fs.content) ⟨fun _ _ ht => ht, ?_⟩ (fun t ht => ?_)
        hfree).returns hprologue
      · rintro t change _ ht rfl
        exact symlinkFree_run ht (by simp)
      · exact (ensures_deletesWhen _ (fun _ _ ht => ht) (free_deletesKeep _) ht).mono_always
          fun _ _ => trivial
    have hprologue' : (run.delaying false).prologue.run syncHandler ⟨fs, []⟩ = .ret () w₁ := by
      rw [prologue_delaying] at hprologue ⊢
      exact hprologue
    have hsettled := ((hside true).ensures_settled hm (hsep true) (hmode true) hprologue
      hfree₁).returns hw r e he hfile
    have hsettled' := ((hside false).ensures_settled hm (hsep false) (hmode false) hprologue'
      hfree₁).returns hw' r e he hfile
    exact hsettled.trans hsettled'.symm
  · have hnofile : ∀ e, run.sourceEntries[r]? = some e → e.metadata.fileType ≠ .file :=
      fun e he htype => hfile ⟨e, he, htype⟩
    have hleaves := ((hside true).ensures_leaves (hsep true) hr hnofile).returns hw
    have hleaves' := ((hside false).ensures_leaves (hsep false) hr hnofile).returns hw'
    exact @Leaves.unique run _ _ _ _ hleaves hleaves'

end Delaying

end RsyncWin.Fs
