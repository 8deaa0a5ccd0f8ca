import RsyncWin.Lib.Prog

/-!
# Readers and writers of byte strings

A reader asks for exact numbers of bytes, a writer hands over whole buffers;
neither knows what kind of stream it is used on. `Decodes p bs a` says that `p`
takes exactly `bs` off the front of any buffer and returns `a`; `Writes p cs a`
that `p` hands over exactly the buffers `cs`. A codec round trip is one of
each over the same bytes.
-/

namespace Codec

open ByteString

variable {ε α β : Type}

/-! ## Readers -/

abbrev readSig : Sig := ⟨Nat, fun _ => Bytes⟩

abbrev Rd (ε α : Type) := Prog readSig ε α

def readExact (n : Nat) : Rd ε Bytes := Prog.op (S := readSig) n

/-- Reading from a buffer: a read that asks for more than is left is not
answered. -/
def buffer : Handler readSig Bytes := fun (n : Nat) inp =>
  if n ≤ inp.length then some (inp.take n, inp.drop n) else none

def Decodes (p : Rd ε α) (bs : Bytes) (a : α) : Prop :=
  ∀ rest, p.run buffer (bs ++ rest) = .ret a rest

theorem run_readExact_append (bs rest : Bytes) :
    (readExact bs.length : Rd ε Bytes).run buffer (bs ++ rest) = .ret bs rest := by
  have h : buffer bs.length (bs ++ rest) = some (bs, rest) := by
    unfold buffer
    rw [if_pos (by simp)]
    simp
  exact Prog.run_call_some (S := readSig) h .ret

theorem decodes_ret (a : α) : Decodes (.ret a : Rd ε α) [] a :=
  fun _ => rfl

theorem decodes_readExact {n : Nat} {bs : Bytes} (h : bs.length = n) :
    Decodes (readExact n : Rd ε Bytes) bs bs := by
  subst h
  exact run_readExact_append bs

theorem Decodes.bind {p : Rd ε α} {k : α → Rd ε β} {xs ys : Bytes} {a : α} {b : β}
    (hp : Decodes p xs a) (hk : Decodes (k a) ys b) :
    Decodes (p >>= k) (xs ++ ys) b := by
  intro rest
  rw [List.append_assoc, Prog.run_bind_ret (hp _), hk rest]

/-- The last part of a reader, when it takes nothing more off the buffer. -/
theorem Decodes.bind_ret {p : Rd ε α} {k : α → Rd ε β} {xs : Bytes} {a : α} {b : β}
    (hp : Decodes p xs a) (hk : k a = .ret b) : Decodes (p >>= k) xs b := by
  have h : Decodes (p >>= k) (xs ++ []) b := hp.bind (by rw [hk]; exact decodes_ret b)
  simpa using h

/-- A run that gets its first read has as many bytes in front, and goes on with them. -/
theorem run_call_ret {n : Nat} {k : Bytes → Rd ε α} {inp rest : Bytes} {a : α}
    (h : (Prog.call n k : Rd ε α).run buffer inp = .ret a rest) :
    ∃ piece left, inp = piece ++ left ∧ piece.length = n ∧
      (k piece).run buffer left = .ret a rest := by
  by_cases hn : n ≤ inp.length
  · have hbuf : buffer n inp = some (inp.take n, inp.drop n) := if_pos hn
    rw [Prog.run_call_some hbuf] at h
    exact ⟨inp.take n, inp.drop n, (List.take_append_drop n inp).symm,
      List.length_take_of_le hn, h⟩
  · have hbuf : buffer n inp = none := if_neg hn
    rw [Prog.run_call_none hbuf] at h
    cases h

/-- A run on a buffer takes some bytes off the front, whatever comes behind them. -/
theorem decodes_of_run {p : Rd ε α} {inp rest : Bytes} {a : α}
    (h : p.run buffer inp = .ret a rest) : ∃ bs, inp = bs ++ rest ∧ Decodes p bs a := by
  induction p generalizing inp with
  | ret b =>
      cases h
      exact ⟨[], rfl, decodes_ret _⟩
  | fail e => cases h
  | call n k ih =>
      obtain ⟨piece, left, rfl, hlen, hrun⟩ := run_call_ret h
      obtain ⟨bs, rfl, hdecodes⟩ := ih piece hrun
      have hread : Decodes (readExact n : Rd ε Bytes) piece piece := decodes_readExact hlen
      exact ⟨piece ++ bs, (List.append_assoc _ _ _).symm, hread.bind hdecodes⟩

theorem decodes_mapM {ι : Type} {f : ι → Rd ε α} {enc : ι → Bytes} {x : ι → α} :
    ∀ {l : List ι}, (∀ i ∈ l, Decodes (f i) (enc i) (x i)) →
      Decodes (l.mapM f) (l.flatMap enc) (l.map x)
  | [], _ => by
      rw [List.mapM_nil]
      exact decodes_ret _
  | i :: l, h => by
      rw [List.mapM_cons, List.flatMap_cons, List.map_cons]
      refine (h i (by simp)).bind ?_
      exact (decodes_mapM fun j hj => h j (by simp [hj])).bind_ret rfl

/-- What a reader makes of the answers to its reads, one by one. Unlike
`Decodes` this keeps where one read ends and the next begins. -/
def Hears : Rd ε α → List Bytes → α → Prop
  | .ret a, [], b => a = b
  | .call n k, bs :: heard, b => bs.length = n ∧ Hears (k bs) heard b
  | _, _, _ => False

/-- What was read to get a result. -/
theorem hears_of_run {p : Rd ε α} {inp rest : Bytes} {a : α}
    (h : p.run buffer inp = .ret a rest) : ∃ reads, Hears p reads a := by
  induction p generalizing inp with
  | ret b =>
      cases h
      exact ⟨[], rfl⟩
  | fail e => cases h
  | call n k ih =>
      obtain ⟨piece, left, -, hlen, hrun⟩ := run_call_ret h
      obtain ⟨reads, hreads⟩ := ih piece hrun
      exact ⟨piece :: reads, hlen, hreads⟩

theorem hears_bind {p : Rd ε α} {k : α → Rd ε β} {heard : List Bytes} {b : β}
    (h : Hears (p >>= k) heard b) :
    ∃ xs ys a, heard = xs ++ ys ∧ Hears p xs a ∧ Hears (k a) ys b := by
  induction p generalizing heard with
  | ret a => exact ⟨[], heard, a, rfl, rfl, h⟩
  | fail e => exact h.elim
  | call n f ih =>
      cases heard with
      | nil => exact h.elim
      | cons bs heard =>
          obtain ⟨hlen, hrest⟩ := h
          obtain ⟨xs, ys, a, rfl, hx, hy⟩ := ih bs hrest
          exact ⟨bs :: xs, ys, a, rfl, ⟨hlen, hx⟩, hy⟩

theorem hears_ret {heard : List Bytes} {a b : α} (h : Hears (.ret a : Rd ε α) heard b) :
    heard = [] ∧ b = a := by
  cases heard with
  | nil => exact ⟨rfl, Eq.symm h⟩
  | cons bs heard => exact h.elim

theorem hears_readExact {n : Nat} {heard : List Bytes} {bs : Bytes}
    (h : Hears (readExact n : Rd ε Bytes) heard bs) : heard = [bs] ∧ bs.length = n := by
  cases heard with
  | nil => exact h.elim
  | cons x heard =>
      obtain ⟨hlen, hrest⟩ := h
      obtain ⟨rfl, rfl⟩ := hears_ret hrest
      exact ⟨rfl, hlen⟩

theorem hears_ofExcept {x : Except ε α} {heard : List Bytes} {a : α}
    (h : Hears (Prog.ofExcept x : Rd ε α) heard a) : heard = [] ∧ x = .ok a := by
  cases x with
  | error e => exact h.elim
  | ok b =>
      obtain ⟨rfl, rfl⟩ := hears_ret h
      exact ⟨rfl, rfl⟩

/-- Whatever bytes a reader is answered with, as long as no more than `left`
of them are asked for: an error is one of `E`, and a result satisfies `Q`
together with the number of bytes still left. -/
def Yields (E : ε → Prop) : Rd ε α → (α → Nat → Prop) → Nat → Prop
  | .ret a, Q, left => Q a left
  | .fail e, _, _ => E e
  | .call n k, Q, left => n ≤ left → ∀ bs : Bytes, bs.length = n → Yields E (k bs) Q (left - n)

section Yields

variable {E : ε → Prop} {Q : α → Nat → Prop} {left : Nat}

theorem Yields.mono {p : Rd ε α} {R : α → Nat → Prop} (h : Yields E p Q left)
    (hQ : ∀ a l, l ≤ left → Q a l → R a l) : Yields E p R left := by
  induction p generalizing left with
  | ret a => exact hQ a left (Nat.le_refl _) h
  | fail e => exact h
  | call n k ih =>
      intro hn bs hbs
      refine ih bs (h hn bs hbs) fun a l hl => hQ a l ?_
      exact Nat.le_trans hl (Nat.sub_le left n)

theorem Yields.bind {p : Rd ε α} {k : α → Rd ε β} {R : β → Nat → Prop}
    (h : Yields E p (fun a l => Yields E (k a) R l) left) : Yields E (p >>= k) R left := by
  induction p generalizing left with
  | ret a => exact h
  | fail e => exact h
  | call n f ih => exact fun hn bs hbs => ih bs (h hn bs hbs)

theorem yields_readExact {n : Nat} {Q : Bytes → Nat → Prop}
    (h : ∀ bs : Bytes, bs.length = n → n ≤ left → Q bs (left - n)) :
    Yields E (readExact n : Rd ε Bytes) Q left :=
  fun hn bs hbs => h bs hbs hn

/-- On a buffer a reader runs out of bytes, fails with one of `E`, or returns
what satisfies `Q`. -/
theorem Yields.run {p : Rd ε α} {inp : Bytes} (h : Yields E p Q inp.length) :
    (∃ rest, p.run buffer inp = .wait rest) ∨ (∃ e rest, p.run buffer inp = .fail e rest ∧ E e) ∨
      ∃ a rest, p.run buffer inp = .ret a rest ∧ Q a rest.length := by
  induction p generalizing inp with
  | ret a => exact Or.inr (Or.inr ⟨a, inp, rfl, h⟩)
  | fail e => exact Or.inr (Or.inl ⟨e, inp, rfl, h⟩)
  | call n k ih =>
      by_cases hn : n ≤ inp.length
      · have hread : buffer n inp = some (inp.take n, inp.drop n) := if_pos hn
        rw [Prog.run_call_some hread]
        refine ih (inp.take n) ?_
        rw [List.length_drop]
        exact h hn _ (List.length_take_of_le hn)
      · have hread : buffer n inp = none := if_neg hn
        exact Or.inl ⟨inp, Prog.run_call_none hread k⟩

end Yields

/-- A reader on the buffer `inp`: it runs out of bytes, fails with one of `E`, or
returns a result that satisfies `Q` together with what is left. -/
def Parses (E : ε → Prop) (p : Rd ε α) (Q : α → Bytes → Prop) (inp : Bytes) : Prop :=
  match p.run buffer inp with
  | .ret a rest => Q a rest
  | .fail e _ => E e
  | .wait _ => True

section Parses

variable {E : ε → Prop} {Q : α → Bytes → Prop} {inp : Bytes}

theorem parses_ret {a : α} (h : Q a inp) : Parses E (.ret a : Rd ε α) Q inp := h

theorem parses_throw {e : ε} (h : E e) : Parses E (.fail e : Rd ε α) Q inp := h

theorem Parses.mono {F : ε → Prop} {p : Rd ε α} (h : Parses E p Q inp) (hE : ∀ e, E e → F e) :
    Parses F p Q inp := by
  unfold Parses at h ⊢
  cases hp : p.run buffer inp with
  | ret a rest =>
      rw [hp] at h
      exact h
  | fail e rest =>
      rw [hp] at h
      exact hE e h
  | wait rest => trivial

theorem Parses.bind {p : Rd ε α} {k : α → Rd ε β} {R : β → Bytes → Prop}
    (h : Parses E p (fun a rest => Parses E (k a) R rest) inp) : Parses E (p >>= k) R inp := by
  unfold Parses at h ⊢
  rw [Prog.run_bind]
  cases hp : p.run buffer inp with
  | ret a rest =>
      rw [hp] at h
      exact h
  | fail e rest =>
      rw [hp] at h
      exact h
  | wait rest => trivial

theorem parses_readExact {n : Nat} {Q : Bytes → Bytes → Prop}
    (h : ∀ bs rest, bs.length = n → inp = bs ++ rest → Q bs rest) :
    Parses E (readExact n : Rd ε Bytes) Q inp := by
  by_cases hn : n ≤ inp.length
  · have hbytes := h (inp.take n) (inp.drop n) (List.length_take_of_le hn)
      (List.take_append_drop n inp).symm
    have hread : buffer n inp = some (inp.take n, inp.drop n) := if_pos hn
    unfold Parses
    rw [readExact, Prog.op, Prog.run_call_some hread]
    exact hbytes
  · have hread : buffer n inp = none := if_neg hn
    unfold Parses
    rw [readExact, Prog.op, Prog.run_call_none hread]
    trivial

theorem parses_ofExcept {x : Except ε α} (herr : ∀ e, x = .error e → E e)
    (hok : ∀ a, x = .ok a → Q a inp) : Parses E (Prog.ofExcept x : Rd ε α) Q inp := by
  cases x with
  | ok a => exact hok a rfl
  | error e => exact herr e rfl

end Parses

/-! ## Writers -/

abbrev writeSig : Sig := ⟨Bytes, fun _ => Unit⟩

abbrev Wr (ε α : Type) := Prog writeSig ε α

def writeAll (bs : Bytes) : Wr ε Unit := Prog.op (S := writeSig) bs

/-- Writing logs the buffers handed over, one entry for each call. -/
def calls : Handler writeSig (List Bytes) := fun (bs : Bytes) acc =>
  some ((), acc ++ [bs])

def Writes (p : Wr ε α) (cs : List Bytes) (a : α) : Prop :=
  ∀ acc, p.run calls acc = .ret a (acc ++ cs)

theorem writes_ret (a : α) : Writes (.ret a : Wr ε α) [] a := by
  intro acc
  simp

theorem writes_writeAll (bs : Bytes) : Writes (writeAll bs : Wr ε Unit) [bs] () :=
  fun _ => rfl

theorem Writes.bind {p : Wr ε α} {k : α → Wr ε β} {xs ys : List Bytes} {a : α} {b : β}
    (hp : Writes p xs a) (hk : Writes (k a) ys b) :
    Writes (p >>= k) (xs ++ ys) b := by
  intro acc
  rw [Prog.run_bind_ret (hp acc), hk, List.append_assoc]

theorem Writes.bind_ret {p : Wr ε α} {k : α → Wr ε β} {xs : List Bytes} {a : α} {b : β}
    (hp : Writes p xs a) (hk : k a = .ret b) : Writes (p >>= k) xs b := by
  have h : Writes (p >>= k) (xs ++ []) b := hp.bind (by rw [hk]; exact writes_ret b)
  simpa using h

theorem writes_forM {ι : Type} {f : ι → Wr ε Unit} {cs : ι → List Bytes} :
    ∀ {l : List ι}, (∀ i ∈ l, Writes (f i) (cs i) ()) →
      Writes (l.forM f) (l.flatMap cs) ()
  | [], _ => writes_ret ()
  | i :: l, h => by
      rw [List.flatMap_cons]
      exact (h i (by simp)).bind (writes_forM fun j hj => h j (by simp [hj]))

/-- What a writer writes does not depend on what is there already. -/
theorem writes_of_run {p : Wr ε α} {acc acc' : List Bytes} {a : α}
    (h : p.run calls acc = .ret a acc') : ∃ cs, acc' = acc ++ cs ∧ Writes p cs a := by
  induction p generalizing acc with
  | ret b =>
      obtain ⟨rfl, rfl⟩ : b = a ∧ acc = acc' := by simpa using h
      exact ⟨[], (List.append_nil _).symm, writes_ret b⟩
  | fail e => simp at h
  | call bs k ih =>
      have hrest : (k ()).run calls (acc ++ [bs]) = .ret a acc' := h
      obtain ⟨cs, rfl, hcs⟩ := ih () hrest
      refine ⟨bs :: cs, by rw [List.append_assoc, List.singleton_append], ?_⟩
      intro acc
      show (k ()).run calls (acc ++ [bs]) = _
      rw [hcs, List.append_assoc, List.singleton_append]

/-- A bound writer that returns is its two parts. -/
theorem Writes.split {p : Wr ε α} {k : α → Wr ε β} {cs : List Bytes} {b : β}
    (h : Writes (p >>= k) cs b) :
    ∃ xs a ys, Writes p xs a ∧ Writes (k a) ys b ∧ cs = xs ++ ys := by
  obtain ⟨a, acc, hp, hk⟩ := Prog.run_bind_eq_ret.mp (h [])
  obtain ⟨xs, hacc, hxs⟩ := writes_of_run hp
  obtain ⟨ys, hcs, hys⟩ := writes_of_run hk
  rw [List.nil_append] at hacc hcs
  exact ⟨xs, a, ys, hxs, hys, by rw [hcs, hacc]⟩

/-- A writer never waits: it returns or fails. -/
theorem run_calls_ne_wait (p : Wr ε α) (acc acc' : List Bytes) :
    p.run calls acc ≠ .wait acc' := by
  induction p generalizing acc with
  | ret a => simp
  | fail e => simp
  | call bs k ih => exact ih () (acc ++ [bs])

/-! ## Pairs of a writer and a reader -/

/-- The writer `w` returns `c`, and the reader `r` takes exactly what it wrote
and returns `a`. -/
def RoundTrips {γ : Type} (w : Wr ε γ) (c : γ) (r : Rd ε α) (a : α) : Prop :=
  ∃ cs, Writes w cs c ∧ Decodes r cs.flatten a

variable {γ δ : Type}

theorem roundTrips_ret (c : γ) (a : α) :
    RoundTrips (.ret c : Wr ε γ) c (.ret a : Rd ε α) a :=
  ⟨[], writes_ret c, decodes_ret a⟩

theorem roundTrips_writeAll {bs : Bytes} {r : Rd ε α} {a : α} (h : Decodes r bs a) :
    RoundTrips (writeAll bs) () r a :=
  ⟨[bs], writes_writeAll bs, by simpa using h⟩

theorem RoundTrips.bind {w : Wr ε γ} {f : γ → Wr ε δ} {r : Rd ε α} {k : α → Rd ε β}
    {c : γ} {d : δ} {a : α} {b : β} (h : RoundTrips w c r a)
    (hk : RoundTrips (f c) d (k a) b) : RoundTrips (w >>= f) d (r >>= k) b := by
  obtain ⟨cs, hw, hr⟩ := h
  obtain ⟨ds, hf, hk⟩ := hk
  refine ⟨cs ++ ds, hw.bind hf, ?_⟩
  rw [List.flatten_append]
  exact hr.bind hk

/-- The reader goes on without reading. -/
theorem RoundTrips.bind_read {w : Wr ε γ} {r : Rd ε α} {k : α → Rd ε β} {c : γ} {a : α}
    {b : β} (h : RoundTrips w c r a) (hk : k a = .ret b) : RoundTrips w c (r >>= k) b := by
  obtain ⟨cs, hw, hr⟩ := h
  exact ⟨cs, hw, hr.bind_ret hk⟩

/-- `for _ in 0..n { r }`, collecting the results. -/
def readTimes (r : Rd ε α) : Nat → Rd ε (List α)
  | 0 => pure []
  | n + 1 => do
      let a ← r
      let as ← readTimes r n
      pure (a :: as)

theorem roundTrips_forM {ι : Type} {f : ι → Wr ε Unit} {r : Rd ε α} {x : ι → α} :
    ∀ {l : List ι}, (∀ i ∈ l, RoundTrips (f i) () r (x i)) →
      RoundTrips (l.forM f) () (readTimes r l.length) (l.map x)
  | [], _ => roundTrips_ret () []
  | i :: l, h => by
      have hl := roundTrips_forM fun j hj => h j (List.mem_cons_of_mem i hj)
      exact (h i List.mem_cons_self).bind (hl.bind_read rfl)

end Codec
