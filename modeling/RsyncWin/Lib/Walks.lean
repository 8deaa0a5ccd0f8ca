import Mathlib.Logic.Relation
import Mathlib.Order.Lattice
import Mathlib.Tactic.Choose
import Mathlib.Tactic.Push

/-!
# Walks that only their stack bounds

A walk opens a place, visits what it finds there in order, records each find and
goes down into some of them before it goes on. Nothing bounds how deep it goes
but the stack. It ends, with a result or an error, unless it can go down for
ever without meeting an error first, or a place cannot be opened for lack of
stack.
-/

/-- Where every place with a property leads on to another, a path never ends. -/
theorem exists_path_of {α : Type*} {R : α → α → Prop} {P : α → Prop}
    (hstep : ∀ a, P a → ∃ b, R a b ∧ P b) {a : α} (h : P a) :
    ∃ path : Nat → α, path 0 = a ∧ ∀ n, R (path n) (path (n + 1)) := by
  have : Nonempty α := ⟨a⟩
  choose! next hnext using hstep
  have hpath : ∀ n, P (next^[n] a) := by
    intro n
    induction n with
    | zero => exact h
    | succ n ih =>
        rw [Function.iterate_succ_apply']
        exact (hnext _ ih).2
  refine ⟨fun n => next^[n] a, rfl, ?_⟩
  intro n
  show R (next^[n] a) (next^[n + 1] a)
  rw [Function.iterate_succ_apply']
  exact (hnext _ (hpath n)).1

/-- `visit` says what becomes of a find: nothing, a record, or a record and a
place to go down into. -/
structure Walk (V A B E : Type*) where
  opens : V → Except E (List A)
  visit : A → Except E (Option (B × Option V))

namespace Walk

variable {V A B S E : Type*} (w : Walk V A B E)

section Run

variable (record : B → S → Except E S) (overflow : E)

def entry (descend : V → S → Except E S) (a : A) (s : S) : Except E S :=
  match w.visit a with
  | .error e => .error e
  | .ok none => .ok s
  | .ok (some (b, none)) => record b s
  | .ok (some (b, some v)) =>
      match record b s with
      | .error e => .error e
      | .ok s => descend v s

def entries (descend : V → S → Except E S) : List A → S → Except E S
  | [], s => .ok s
  | a :: found, s =>
      match w.entry record descend a s with
      | .error e => .error e
      | .ok s => entries descend found s

/-- The first argument is the stack. -/
def run : Nat → V → S → Except E S
  | 0, _, _ => .error overflow
  | stack + 1, v, s =>
      match w.opens v with
      | .error e => .error e
      | .ok found => w.entries record (run stack) found s

/-- With enough stack the walk has an answer, and it is always the same. -/
def Ends (v : V) (s : S) : Prop :=
  ∃ answer least, answer ≠ .error overflow ∧
    ∀ stack, least ≤ stack → w.run record overflow stack v s = answer

end Run

/-! ## Where a walk gets -/

def Below (v u : V) : Prop :=
  ∃ found a b, w.opens v = .ok found ∧ a ∈ found ∧ w.visit a = .ok (some (b, some u))

def Fails (v : V) : Prop :=
  (∃ e, w.opens v = .error e) ∨ ∃ found a e, w.opens v = .ok found ∧ a ∈ found ∧
    w.visit a = .error e

/-- Nothing fails at a place or anywhere below it. -/
def Quiet (v : V) : Prop := ∀ u, Relation.ReflTransGen w.Below v u → ¬ w.Fails u

/-- A find that the walk gets past, if it gets back at all. -/
structure Passes (a : A) : Prop where
  visited : ∀ e, w.visit a ≠ .error e
  quiet : ∀ b u, w.visit a = .ok (some (b, some u)) → w.Quiet u

/-- The walk at `v` goes down into `u` for the find `a`, after nothing but finds
that it gets past. -/
def Enters (v : V) (a : A) (u : V) : Prop :=
  ∃ before after b, w.opens v = .ok (before ++ a :: after) ∧ (∀ c ∈ before, w.Passes c) ∧
    w.visit a = .ok (some (b, some u))

/-- The places that the walk from `v` enters one out of the other. -/
def Reaches (v u : V) : Prop := Relation.ReflTransGen (fun v u => ∃ a, w.Enters v a u) v u

/-- An endless path down. -/
def Endless (v : V) : Prop :=
  ∃ (places : Nat → V) (finds : Nat → A), places 0 = v ∧
    ∀ n, w.Enters (places n) (finds n) (places (n + 1))

/-- A place whose opening never comes back is entered. -/
def Hangs (overflow : E) (v : V) : Prop := ∃ u, w.Reaches v u ∧ w.opens u = .error overflow

theorem Enters.listed {w : Walk V A B E} {v u : V} {a : A} (h : w.Enters v a u) :
    ∃ found, w.opens v = .ok found ∧ a ∈ found := by
  obtain ⟨before, after, b, hopens, hpasses, hvisit⟩ := h
  exact ⟨_, hopens, List.mem_append_right before List.mem_cons_self⟩

/-- A property that leads from place to place leads down for ever. -/
theorem endless_of {P : V → Prop} (hstep : ∀ v, P v → ∃ a u, w.Enters v a u ∧ P u) {v : V}
    (h : P v) : w.Endless v := by
  have hnext : ∀ v, P v → ∃ u, (∃ a, w.Enters v a u) ∧ P u := by
    intro v hv
    obtain ⟨a, u, henters, hu⟩ := hstep v hv
    exact ⟨u, ⟨a, henters⟩, hu⟩
  obtain ⟨places, hzero, hsteps⟩ := exists_path_of hnext h
  choose finds hfinds using hsteps
  exact ⟨places, finds, hzero, hfinds⟩

theorem Endless.step {w : Walk V A B E} {v : V} (h : w.Endless v) :
    ∃ a u, w.Enters v a u ∧ w.Endless u := by
  obtain ⟨places, finds, rfl, hsteps⟩ := h
  exact ⟨finds 0, places 1, hsteps 0, fun n => places (n + 1), fun n => finds (n + 1), rfl,
    fun n => hsteps (n + 1)⟩

theorem Hangs.of_enters {w : Walk V A B E} {overflow : E} {v u : V} {a : A}
    (h : w.Enters v a u) (hu : w.Hangs overflow u) : w.Hangs overflow v := by
  obtain ⟨t, hreach, ht⟩ := hu
  exact ⟨t, .head ⟨a, h⟩ hreach, ht⟩

theorem Hangs.step {w : Walk V A B E} {overflow : E} {v : V} (h : w.Hangs overflow v) :
    w.opens v = .error overflow ∨ ∃ a u, w.Enters v a u ∧ w.Hangs overflow u := by
  obtain ⟨u, hreach, hu⟩ := h
  rcases Relation.ReflTransGen.cases_head hreach with rfl | ⟨t, ⟨a, henters⟩, htail⟩
  · exact .inl hu
  · exact .inr ⟨a, t, henters, u, htail, hu⟩

/-! ## More stack changes no answer -/

section Stack

variable (record : B → S → Except E S) {overflow : E}

theorem entry_mono {shorter longer : V → S → Except E S}
    (hmono : ∀ v s, shorter v s ≠ .error overflow → longer v s = shorter v s) {a : A} {s : S}
    (h : w.entry record shorter a s ≠ .error overflow) :
    w.entry record longer a s = w.entry record shorter a s := by
  unfold entry at h ⊢
  split <;> try rfl
  next b v hvisit =>
    rw [hvisit] at h
    cases hrecord : record b s with
    | error e => rfl
    | ok s' =>
        simp only [hrecord] at h
        exact hmono v s' h

theorem entries_mono {shorter longer : V → S → Except E S}
    (hmono : ∀ v s, shorter v s ≠ .error overflow → longer v s = shorter v s) {found : List A}
    {s : S} (h : w.entries record shorter found s ≠ .error overflow) :
    w.entries record longer found s = w.entries record shorter found s := by
  induction found generalizing s with
  | nil => rfl
  | cons a found ih =>
      unfold entries at h ⊢
      have hentry : w.entry record shorter a s ≠ .error overflow := by
        intro he
        rw [he] at h
        exact h rfl
      rw [w.entry_mono record hmono hentry]
      cases hs : w.entry record shorter a s with
      | error e => rfl
      | ok s' =>
          simp only [hs] at h
          exact ih h

theorem run_succ {stack : Nat} {v : V} {s : S}
    (h : w.run record overflow stack v s ≠ .error overflow) :
    w.run record overflow (stack + 1) v s = w.run record overflow stack v s := by
  induction stack generalizing v s with
  | zero => exact absurd rfl h
  | succ stack ih =>
      unfold run at h ⊢
      cases hopens : w.opens v with
      | error e => rfl
      | ok found =>
          simp only [hopens] at h
          exact w.entries_mono record (fun v s h => ih h) h

theorem run_mono {least stack : Nat} (hle : least ≤ stack) {v : V} {s : S}
    (h : w.run record overflow least v s ≠ .error overflow) :
    w.run record overflow stack v s = w.run record overflow least v s := by
  induction stack, hle using Nat.le_induction with
  | base => rfl
  | succ stack hle ih => rw [w.run_succ record (ih ▸ h), ih]

theorem ends_of_run {stack : Nat} {v : V} {s : S}
    (h : w.run record overflow stack v s ≠ .error overflow) : w.Ends record overflow v s :=
  ⟨_, stack, h, fun _ hle => w.run_mono record hle h⟩

end Stack

/-! ## A walk that gets back met no error -/

section Answers

variable {record : B → S → Except E S} {overflow : E}

theorem passes_of_entry {descend : V → S → Except E S}
    (hdescend : ∀ v s s', descend v s = .ok s' → w.Quiet v) {a : A} {s s' : S}
    (h : w.entry record descend a s = .ok s') : w.Passes a := by
  unfold entry at h
  constructor
  · intro e he
    rw [he] at h
    cases h
  · intro b u hvisit
    simp only [hvisit] at h
    cases hrecord : record b s with
    | error e =>
        simp only [hrecord] at h
        cases h
    | ok s₁ =>
        simp only [hrecord] at h
        exact hdescend u s₁ s' h

theorem passes_of_entries {descend : V → S → Except E S}
    (hdescend : ∀ v s s', descend v s = .ok s' → w.Quiet v) {found : List A} {s s' : S}
    (h : w.entries record descend found s = .ok s') : ∀ a ∈ found, w.Passes a := by
  induction found generalizing s with
  | nil => exact List.forall_mem_nil _
  | cons a found ih =>
      unfold entries at h
      cases hentry : w.entry record descend a s with
      | error e =>
          simp only [hentry] at h
          cases h
      | ok s₁ =>
          simp only [hentry] at h
          exact List.forall_mem_cons.mpr ⟨w.passes_of_entry hdescend hentry, ih h⟩

theorem quiet_of_passes {v : V} {found : List A} (hopens : w.opens v = .ok found)
    (h : ∀ a ∈ found, w.Passes a) : w.Quiet v := by
  intro u hu
  rcases Relation.ReflTransGen.cases_head hu with rfl | ⟨t, ⟨found', a, b, ho, ha, hv⟩, htail⟩
  · rintro (⟨e, he⟩ | ⟨found', a, e, ho, ha, he⟩)
    · rw [hopens] at he
      cases he
    · obtain rfl : found = found' := Except.ok.inj (hopens.symm.trans ho)
      exact (h a ha).visited e he
  · obtain rfl : found = found' := Except.ok.inj (hopens.symm.trans ho)
    exact (h a ha).quiet b t hv u htail

theorem quiet_of_run {stack : Nat} {v : V} {s s' : S}
    (h : w.run record overflow stack v s = .ok s') : w.Quiet v := by
  induction stack generalizing v s s' with
  | zero => cases h
  | succ stack ih =>
      unfold run at h
      cases hopens : w.opens v with
      | error e =>
          simp only [hopens] at h
          cases h
      | ok found =>
          simp only [hopens] at h
          exact w.quiet_of_passes hopens (w.passes_of_entries (fun v s s' h => ih h) h)

/-! ## A record that takes everything -/

variable (htotal : ∀ b s, ∃ s', record b s = .ok s')
include htotal

theorem entry_of_passes {descend : V → S → Except E S}
    (hdescend : ∀ v s, w.Quiet v → descend v s = .error overflow ∨ ∃ s', descend v s = .ok s')
    {a : A} (h : w.Passes a) (s : S) :
    w.entry record descend a s = .error overflow ∨
      ∃ s', w.entry record descend a s = .ok s' := by
  unfold entry
  split
  next e he => exact absurd he (h.visited e)
  next => exact .inr ⟨s, rfl⟩
  next b hvisit => exact .inr (htotal b s)
  next b v hvisit =>
    obtain ⟨s', hs'⟩ := htotal b s
    simp only [hs']
    exact hdescend v s' (h.quiet b v hvisit)

theorem entries_of_passes {descend : V → S → Except E S}
    (hdescend : ∀ v s, w.Quiet v → descend v s = .error overflow ∨ ∃ s', descend v s = .ok s')
    {found : List A} (h : ∀ a ∈ found, w.Passes a) (s : S) :
    w.entries record descend found s = .error overflow ∨
      ∃ s', w.entries record descend found s = .ok s' := by
  induction found generalizing s with
  | nil => exact .inr ⟨s, rfl⟩
  | cons a found ih =>
      rw [List.forall_mem_cons] at h
      unfold entries
      rcases w.entry_of_passes htotal hdescend h.1 s with hs | ⟨s', hs⟩
      · rw [hs]
        exact .inl rfl
      · rw [hs]
        exact ih h.2 s'

theorem run_of_quiet (stack : Nat) {v : V} (h : w.Quiet v) (s : S) :
    w.run record overflow stack v s = .error overflow ∨
      ∃ s', w.run record overflow stack v s = .ok s' := by
  induction stack generalizing v s with
  | zero => exact .inl rfl
  | succ stack ih =>
      unfold run
      cases hopens : w.opens v with
      | error e => exact absurd (.inl ⟨e, hopens⟩) (h v .refl)
      | ok found =>
          refine w.entries_of_passes htotal (fun v s hv => ih hv s) ?_ s
          intro a ha
          constructor
          · intro e he
            exact h v .refl (.inr ⟨found, a, e, hopens, ha, he⟩)
          · intro b u hvisit t ht
            exact h t (.head ⟨found, a, b, hopens, ha, hvisit⟩ ht)

/-- Past what it gets past, the walk goes down, and has nothing to return. -/
theorem entries_overflow {descend : V → S → Except E S}
    (hdescend : ∀ v s, w.Quiet v → descend v s = .error overflow ∨ ∃ s', descend v s = .ok s')
    {before after : List A} {a : A} {b : B} {u : V} (hbefore : ∀ c ∈ before, w.Passes c)
    (hvisit : w.visit a = .ok (some (b, some u))) (hu : ∀ s, descend u s = .error overflow)
    (s : S) : w.entries record descend (before ++ a :: after) s = .error overflow := by
  induction before generalizing s with
  | nil =>
      obtain ⟨s', hs'⟩ := htotal b s
      simp only [List.nil_append, entries, entry, hvisit, hs', hu]
  | cons c before ih =>
      rw [List.forall_mem_cons] at hbefore
      rw [List.cons_append, entries]
      rcases w.entry_of_passes htotal hdescend hbefore.1 s with hs | ⟨s', hs⟩
      · rw [hs]
      · rw [hs]
        exact ih hbefore.2 s'

theorem run_overflow {P : V → Prop}
    (hstep : ∀ v, P v → w.opens v = .error overflow ∨ ∃ a u, w.Enters v a u ∧ P u)
    (stack : Nat) {v : V} (h : P v) (s : S) :
    w.run record overflow stack v s = .error overflow := by
  induction stack generalizing v s with
  | zero => rfl
  | succ stack ih =>
      unfold run
      rcases hstep v h with hopens | ⟨a, u, ⟨before, after, b, hopens, hpasses, hvisit⟩, hu⟩
      · rw [hopens]
      · rw [hopens]
        exact w.entries_overflow htotal (fun v s hv => w.run_of_quiet htotal stack hv s) hpasses
          hvisit (fun s => ih hu s) s

/-- On a path without end, and where opening does not come back, no stack is
enough. -/
theorem not_ends {v : V} (h : w.Endless v ∨ w.Hangs overflow v) (s : S) :
    ¬ w.Ends record overflow v s := by
  rintro ⟨answer, least, hanswer, hruns⟩
  apply hanswer
  rw [← hruns least le_rfl]
  refine w.run_overflow htotal (P := fun v => w.Endless v ∨ w.Hangs overflow v) ?_ least h s
  rintro v (hv | hv)
  · obtain ⟨a, u, henters, hu⟩ := hv.step
    exact .inr ⟨a, u, henters, .inl hu⟩
  · rcases hv.step with hopens | ⟨a, u, henters, hu⟩
    · exact .inl hopens
    · exact .inr ⟨a, u, henters, .inr hu⟩

end Answers

/-! ## A walk without an answer goes down for ever -/

section Diverging

variable {record : B → S → Except E S} {overflow : E}

variable (hvisit : ∀ a, w.visit a ≠ .error overflow)
  (hrecord : ∀ b s, record b s ≠ .error overflow)
include hvisit hrecord

/-- A find at which every stack is too small is gone down into. -/
theorem descends_of_overflow {a : A} {s : S}
    (h : ∀ stack, w.entry record (w.run record overflow stack) a s = .error overflow) :
    ∃ b u s', w.visit a = .ok (some (b, some u)) ∧
      ∀ stack, w.run record overflow stack u s' = .error overflow := by
  unfold entry at h
  cases hv : w.visit a with
  | error e =>
      simp only [hv] at h
      obtain rfl : e = overflow := Except.error.inj (h 0)
      exact absurd hv (hvisit a)
  | ok found =>
      rcases found with - | ⟨b, - | u⟩
      · simp only [hv] at h
        cases h 0
      · simp only [hv] at h
        exact absurd (h 0) (hrecord b s)
      · cases hr : record b s with
        | error e =>
            simp only [hv, hr] at h
            obtain rfl : e = overflow := Except.error.inj (h 0)
            exact absurd hr (hrecord b s)
        | ok s' =>
            simp only [hv, hr] at h
            exact ⟨b, u, s', rfl, h⟩

theorem split_of_overflow {found : List A} {s : S}
    (h : ∀ stack, w.entries record (w.run record overflow stack) found s = .error overflow) :
    ∃ before a after b u s', found = before ++ a :: after ∧ (∀ c ∈ before, w.Passes c) ∧
      w.visit a = .ok (some (b, some u)) ∧
      ∀ stack, w.run record overflow stack u s' = .error overflow := by
  induction found generalizing s with
  | nil => cases h 0
  | cons a found ih =>
      have hmono : ∀ {least stack : Nat}, least ≤ stack → ∀ v s,
          w.run record overflow least v s ≠ .error overflow →
            w.run record overflow stack v s = w.run record overflow least v s :=
        fun hle v s hne => w.run_mono record hle hne
      by_cases hall : ∀ stack, w.entry record (w.run record overflow stack) a s = .error overflow
      · obtain ⟨b, u, s', hv, hruns⟩ := w.descends_of_overflow hvisit hrecord hall
        exact ⟨[], a, found, b, u, s', rfl, List.forall_mem_nil _, hv, hruns⟩
      · push Not at hall
        obtain ⟨least, hleast⟩ := hall
        cases hentry : w.entry record (w.run record overflow least) a s with
        | error e =>
            have hs := h least
            simp only [entries, hentry] at hs
            exact absurd (hentry.trans hs) hleast
        | ok s₁ =>
            -- from `least` on the walk gets past `a`, and then runs out of stack behind it
            have hrest : ∀ stack,
                w.entries record (w.run record overflow stack) found s₁ = .error overflow := by
              intro stack
              by_contra hne
              have hlate := h (max least stack)
              rw [entries, w.entry_mono record (hmono (le_max_left least stack)) hleast,
                hentry] at hlate
              have hsame := w.entries_mono record (hmono (le_max_right least stack)) hne
              exact hne (hsame.symm.trans hlate)
            obtain ⟨before, c, after, b, u, s', rfl, hpasses, hv, hruns⟩ := ih hrest
            have ha : w.Passes a :=
              w.passes_of_entry (fun v s s' hs => w.quiet_of_run hs) hentry
            exact ⟨a :: before, c, after, b, u, s', rfl,
              List.forall_mem_cons.mpr ⟨ha, hpasses⟩, hv, hruns⟩

theorem enters_of_overflow {v : V} {s : S}
    (h : ∀ stack, w.run record overflow stack v s = .error overflow) :
    w.opens v = .error overflow ∨ ∃ a u s', w.Enters v a u ∧
      ∀ stack, w.run record overflow stack u s' = .error overflow := by
  cases hopens : w.opens v with
  | error e =>
      have hone := h 1
      simp only [run, hopens] at hone
      exact .inl (congrArg Except.error (Except.error.inj hone))
  | ok found =>
      have hentries : ∀ stack,
          w.entries record (w.run record overflow stack) found s = .error overflow := by
        intro stack
        have hsucc := h (stack + 1)
        simp only [run, hopens] at hsucc
        exact hsucc
      obtain ⟨before, a, after, b, u, s', rfl, hpasses, hv, hruns⟩ :=
        w.split_of_overflow hvisit hrecord hentries
      exact .inr ⟨a, u, s', ⟨before, after, b, hopens, hpasses, hv⟩, hruns⟩

theorem ends_of {v : V} (hendless : ¬ w.Endless v) (hhangs : ¬ w.Hangs overflow v) (s : S) :
    w.Ends record overflow v s := by
  by_contra hends
  have hruns : ∀ stack, w.run record overflow stack v s = .error overflow := by
    intro stack
    by_contra hne
    exact hends (w.ends_of_run record hne)
  apply hendless
  refine w.endless_of (P := fun v => ¬ w.Hangs overflow v ∧
    ∃ s, ∀ stack, w.run record overflow stack v s = .error overflow) ?_ ⟨hhangs, s, hruns⟩
  rintro v ⟨hv, s, hs⟩
  rcases w.enters_of_overflow hvisit hrecord hs with hopens | ⟨a, u, s', henters, hs'⟩
  · exact absurd ⟨v, .refl, hopens⟩ hv
  · exact ⟨a, u, henters, fun hu => hv (hu.of_enters henters), s', hs'⟩

end Diverging

end Walk
