import RsyncWin.Lib.Duplex

/-!
# What a program calls, whatever it is told

A program is run against an environment nobody vouches for. `Calls P p Q` says
that all its calls are of `P` and all it can return is of `Q`, for any replies;
`Guards G p Q past` lets the admissible calls depend on the calls and replies
so far. Both are read off the program text alone, and hold of every handler
(`Calls.ensures`) and of every way a run can go (`Guards.goes`).
-/

namespace Prog

variable {S T : Sig} {ε σ α β : Type}

/-! ## Calls -/

def Calls (P : S.Op → Prop) : Prog S ε α → (α → Prop) → Prop
  | .ret a, Q => Q a
  | .fail _, _ => True
  | .call o k, Q => P o ∧ ∀ r, (k r).Calls P Q

section Calls

variable {P : S.Op → Prop} {Q : α → Prop} {p : Prog S ε α}

theorem Calls.mono {P' : S.Op → Prop} {Q' : α → Prop} (h : p.Calls P Q) (hP : ∀ o, P o → P' o)
    (hQ : ∀ a, Q a → Q' a) : p.Calls P' Q' := by
  induction p with
  | ret a => exact hQ a h
  | fail e => trivial
  | call o k ih => exact ⟨hP o h.1, fun r => ih r (h.2 r)⟩

theorem Calls.weaken {P' : S.Op → Prop} (h : p.Calls P Q) (hP : ∀ o, P o → P' o) :
    p.Calls P' Q :=
  h.mono hP fun _ hQ => hQ

theorem Calls.returning {Q' : α → Prop} (h : p.Calls P Q) (hQ : ∀ a, Q a → Q' a) :
    p.Calls P Q' :=
  h.mono (fun _ hP => hP) hQ

theorem Calls.bind {k : α → Prog S ε β} {R : β → Prop} (h : p.Calls P Q)
    (hk : ∀ a, Q a → (k a).Calls P R) : (p >>= k).Calls P R := by
  induction p with
  | ret a => exact hk a h
  | fail e => trivial
  | call o f ih => exact ⟨h.1, fun r => ih r (h.2 r)⟩

theorem Calls.attempt (h : p.Calls P Q) : p.attempt.Calls P fun r => ∀ a, r = .ok a → Q a := by
  induction p with
  | ret a =>
      rintro b hb
      rwa [← Except.ok.inj hb]
  | fail e =>
      rintro b hb
      cases hb
  | call o k ih => exact ⟨h.1, fun r => ih r (h.2 r)⟩

theorem calls_any (p : Prog S ε α) : p.Calls (fun _ => True) fun _ => True := by
  induction p with
  | ret a => trivial
  | fail e => trivial
  | call o k ih => exact ⟨trivial, fun r => ih r⟩

theorem calls_op {o : S.Op} (h : P o) : (op o : Prog S ε (S.Ret o)).Calls P fun _ => True :=
  ⟨h, fun _ => trivial⟩

theorem calls_ofExcept {r : Except ε α} (h : ∀ a, r = .ok a → Q a) :
    (ofExcept r : Prog S ε α).Calls P Q := by
  cases r with
  | ok a => exact h a rfl
  | error e => trivial

theorem calls_ite {c : Prop} [Decidable c] {q : Prog S ε α} (hp : c → p.Calls P Q)
    (hq : ¬ c → q.Calls P Q) : (if c then p else q).Calls P Q := by
  split
  · exact hp ‹c›
  · exact hq ‹¬ c›

theorem calls_forM {f : β → Prog S ε PUnit} : ∀ {xs : List β},
    (∀ x ∈ xs, (f x).Calls P fun _ => True) → (xs.forM f).Calls P fun _ => True
  | [], _ => trivial
  | x :: _, h => (h x List.mem_cons_self).bind fun _ _ =>
      calls_forM fun y hy => h y (List.mem_cons_of_mem x hy)

/-- Calls of a program that is read in another signature. -/
theorem calls_interp {P' : T.Op → Prop} {f : (o : S.Op) → Prog T ε (S.Ret o)}
    (h : ∀ o, (f o).Calls P' fun _ => True) (p : Prog S ε α) :
    (p.interp f).Calls P' fun _ => True := by
  induction p with
  | ret a => trivial
  | fail e => trivial
  | call o k ih => exact (h o).bind fun r _ => ih r

theorem Calls.interp {P' : T.Op → Prop} {f : (o : S.Op) → Prog T ε (S.Ret o)}
    (hf : ∀ o, P o → (f o).Calls P' fun _ => True) (h : p.Calls P Q) :
    (p.interp f).Calls P' Q := by
  induction p with
  | ret a => exact h
  | fail e => trivial
  | call o k ih => exact (hf o h.1).bind fun r _ => ih r (h.2 r)

theorem Calls.only (h : p.Calls P Q) : p.Only P := by
  induction p with
  | ret a => trivial
  | fail e => trivial
  | call o k ih => exact ⟨h.1, fun r => ih r (h.2 r)⟩

/-- What every admissible call preserves holds all along every run. -/
theorem Calls.ensures {H : Handler S σ} {I : σ → Prop} (h : p.Calls P Q)
    (hstep : ∀ o s r s', P o → I s → H o s = some (r, s') → I s') :
    ∀ {s : σ}, I s → p.Ensures H I (fun a _ => Q a) s := by
  induction p with
  | ret a => exact fun hI => ⟨hI, h⟩
  | fail e => exact fun hI => hI
  | call o k ih => exact fun hI => ⟨hI, fun r s' hs => ih r (h.2 r) (hstep o _ r s' h.1 hI hs)⟩

end Calls

/-! ## Calls and what went before them -/

/-- A call and its reply. -/
abbrev Call (S : Sig) : Type := (o : S.Op) × S.Ret o

def Guards (G : List (Call S) → S.Op → Prop) :
    Prog S ε α → (α → List (Call S) → Prop) → List (Call S) → Prop
  | .ret a, Q, past => Q a past
  | .fail _, _, _ => True
  | .call o k, Q, past => G past o ∧ ∀ r, (k r).Guards G Q (past ++ [⟨o, r⟩])

/-- `p` has made the calls `t` and goes on as `q`. -/
inductive Goes : Prog S ε α → List (Call S) → Prog S ε α → Prop
  | here (p : Prog S ε α) : Goes p [] p
  | call {o : S.Op} {k : S.Ret o → Prog S ε α} (r : S.Ret o) {t : List (Call S)} {q : Prog S ε α}
      (h : Goes (k r) t q) : Goes (.call o k) (⟨o, r⟩ :: t) q

theorem Goes.trans {p q r : Prog S ε α} {t u : List (Call S)} (h : Goes p t q) (h' : Goes q u r) :
    Goes p (t ++ u) r := by
  induction h with
  | here p => exact h'
  | call reply h ih => exact .call reply (ih h')

theorem Goes.bind {p q : Prog S ε α} {t : List (Call S)} (h : Goes p t q)
    (k : α → Prog S ε β) : Goes (p >>= k) t (q >>= k) := by
  induction h with
  | here p => exact .here _
  | call reply h ih => exact .call reply ih

/-- A part that returns, and the rest behind it. -/
theorem Goes.then {p : Prog S ε α} {k : α → Prog S ε β} {q : Prog S ε β} {a : α}
    {t u : List (Call S)} (h : Goes p t (.ret a)) (h' : Goes (k a) u q) :
    Goes (p >>= k) (t ++ u) q :=
  (h.bind k).trans h'

section Guards

variable {G : List (Call S) → S.Op → Prop} {Q : α → List (Call S) → Prop} {p q : Prog S ε α}
  {past t : List (Call S)}

theorem Guards.returning {Q' : α → List (Call S) → Prop} (h : p.Guards G Q past)
    (hQ : ∀ a past, Q a past → Q' a past) : p.Guards G Q' past := by
  induction p generalizing past with
  | ret a => exact hQ a past h
  | fail e => trivial
  | call o k ih => exact ⟨h.1, fun r => ih r (h.2 r)⟩

theorem Guards.bind {k : α → Prog S ε β} {R : β → List (Call S) → Prop}
    (h : p.Guards G (fun a past => (k a).Guards G R past) past) : (p >>= k).Guards G R past := by
  induction p generalizing past with
  | ret a => exact h
  | fail e => trivial
  | call o f ih => exact ⟨h.1, fun r => ih r (h.2 r)⟩

theorem guards_ofExcept {r : Except ε α} (h : ∀ a, r = .ok a → Q a past) :
    (ofExcept r : Prog S ε α).Guards G Q past := by
  cases r with
  | ok a => exact h a rfl
  | error e => trivial

theorem Guards.calls {P : S.Op → Prop} (hG : ∀ past o, G past o → P o) (h : p.Guards G Q past) :
    p.Calls P fun _ => True := by
  induction p generalizing past with
  | ret a => trivial
  | fail e => trivial
  | call o k ih => exact ⟨hG past o h.1, fun r => ih r (h.2 r)⟩

/-- A stretch whose calls are admissible wherever `J` holds, and keep it. -/
theorem Calls.guards {P : S.Op → Prop} {Q : α → Prop} {J : List (Call S) → Prop}
    (h : p.Calls P Q)
    (hstep : ∀ past o, P o → J past → G past o ∧ ∀ r, J (past ++ [⟨o, r⟩])) :
    ∀ {past : List (Call S)}, J past → p.Guards G (fun a past => Q a ∧ J past) past := by
  induction p with
  | ret a => exact fun hJ => ⟨h, hJ⟩
  | fail e => exact fun _ => trivial
  | call o k ih =>
      intro past hJ
      obtain ⟨hguard, hkept⟩ := hstep past o h.1 hJ
      exact ⟨hguard, fun r => ih r (h.2 r) (hkept r)⟩

/-- However a run goes, the rest is guarded by all that went before. -/
theorem Guards.goes (h : p.Guards G Q past) (hgo : Goes p t q) : q.Guards G Q (past ++ t) := by
  induction hgo generalizing past with
  | here p => rwa [List.append_nil]
  | call r hgo ih =>
      rw [List.append_cons]
      exact ih (h.2 r)

/-- The call a run stands in front of is guarded by all that went before. -/
theorem Guards.next {o : S.Op} {k : S.Ret o → Prog S ε α} (h : p.Guards G Q [])
    (hgo : Goes p t (.call o k)) : G t o :=
  (h.goes hgo).1

/-- What admissible calls keep holds of everything called. -/
theorem Guards.always {J : List (Call S) → Prop}
    (hstep : ∀ past o, G past o → J past → ∀ r, J (past ++ [⟨o, r⟩])) (h : p.Guards G Q past)
    (hJ : J past) (hgo : Goes p t q) : J (past ++ t) := by
  induction hgo generalizing past with
  | here p => rwa [List.append_nil]
  | call r hgo ih =>
      rw [List.append_cons]
      exact ih (h.2 r) (hstep past _ h.1 hJ r)

end Guards

end Prog

/-! ## Parties -/

namespace Duplex

open ByteString

variable {ε : Type} {L : Sig} {α : Type} {P : L.Op → Prop}

/-- No restriction on what is said, and `P` on what is done. -/
def onLoc (P : L.Op → Prop) : Op L → Prop
  | .recv _ => True
  | .send _ => True
  | .loc o => P o

theorem calls_recv (n : Nat) :
    (recv n : Party ε L Bytes).Calls (onLoc P) fun _ => True :=
  ⟨trivial, fun _ => Prog.calls_ofExcept fun _ _ => trivial⟩

theorem calls_send (bs : Bytes) :
    (send bs : Party ε L Unit).Calls (onLoc P) fun _ => True :=
  ⟨trivial, fun _ => trivial⟩

theorem calls_loc {o : L.Op} (h : P o) :
    (loc o : Party ε L (L.Ret o)).Calls (onLoc P) fun _ => True :=
  ⟨h, fun _ => trivial⟩

/-- What every admissible local operation preserves holds all along a run against any link. -/
theorem ensures_of_calls {σ : Type} {K : Link ε} {H : Handler L σ} {I : σ → Prop}
    {p : Party ε L α} {Q : α → Prop} (h : p.Calls (onLoc P) Q)
    (hstep : ∀ o m r m', P o → I m → H o m = some (r, m') → I m') {s : Solo K σ} (hI : I s.mem) :
    p.Ensures (soloHandler K H) (fun s => I s.mem) (fun a _ => Q a) s := by
  refine h.ensures (I := fun s : Solo K σ => I s.mem) ?_ hI
  intro o s r s' ho hI hs
  cases o with
  | recv n =>
      obtain ⟨answer, -, heq⟩ := Option.map_eq_some_iff.mp hs
      rw [← (Prod.mk.inj heq).2]
      exact hI
  | send bs =>
      rw [← (Prod.mk.inj (Option.some.inj hs)).2]
      exact hI
  | loc o =>
      obtain ⟨⟨r', m⟩, hm, heq⟩ := Option.map_eq_some_iff.mp hs
      rw [← (Prod.mk.inj heq).2]
      exact hstep o s.mem r' m ho hI hm

end Duplex
