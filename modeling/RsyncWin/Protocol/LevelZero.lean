import RsyncWin.Protocol.DeflatedReads

/-!
# Raw deflate at level 0

What was fed is kept back until a flush, which sends it in stored blocks and an
empty one: a streaming codec that can be run.
-/

namespace RsyncWin

open ByteString Codec RsyncDeflatedTokenReader

/-! ## Byte by byte -/

section Bytewise

variable {σ : Type} {step : UInt8 → σ → Except Error (Bytes × σ)}
  {steps : σ → Bytes → Except Error (Bytes × σ)}

/-- `steps` is `step` on one byte after another. -/
structure Bytewise (step : UInt8 → σ → Except Error (Bytes × σ))
    (steps : σ → Bytes → Except Error (Bytes × σ)) : Prop where
  nil : ∀ s, steps s [] = .ok ([], s)
  cons : ∀ s byte rest, steps s (byte :: rest) = (do
    let (out, s) ← step byte s
    let (more, s) ← steps s rest
    .ok (out ++ more, s))

variable (h : Bytewise step steps)

include h

theorem Bytewise.head {s u t : σ} {byte : UInt8} {rest out more : Bytes}
    (hstep : step byte s = .ok (out, u)) (hrest : steps u rest = .ok (more, t)) :
    steps s (byte :: rest) = .ok (out ++ more, t) := by
  rw [h.cons, hstep]
  dsimp only [bind, Except.bind]
  rw [hrest]

/-- What was taken was taken byte by byte. -/
theorem Bytewise.head_of_ok {s t : σ} {byte : UInt8} {rest given : Bytes}
    (hok : steps s (byte :: rest) = .ok (given, t)) :
    ∃ out more u, step byte s = .ok (out, u) ∧ steps u rest = .ok (more, t) ∧
      given = out ++ more := by
  rw [h.cons] at hok
  cases hstep : step byte s with
  | error e =>
      rw [hstep] at hok
      cases hok
  | ok os =>
      rw [hstep] at hok
      dsimp only [bind, Except.bind] at hok
      cases hrest : steps os.2 rest with
      | error e =>
          rw [hrest] at hok
          cases hok
      | ok ps =>
          rw [hrest] at hok
          obtain ⟨rfl, rfl⟩ := Prod.mk.inj (Except.ok.inj hok)
          exact ⟨os.1, ps.1, os.2, rfl, hrest, rfl⟩

theorem Bytewise.append {xs ys o p : Bytes} {s t u : σ} (hxs : steps s xs = .ok (o, u))
    (hys : steps u ys = .ok (p, t)) : steps s (xs ++ ys) = .ok (o ++ p, t) := by
  induction xs generalizing s o with
  | nil =>
      rw [h.nil] at hxs
      obtain ⟨rfl, rfl⟩ := Prod.mk.inj (Except.ok.inj hxs)
      exact hys
  | cons x xs ih =>
      obtain ⟨out, more, v, hstep, hrest, rfl⟩ := h.head_of_ok hxs
      rw [List.cons_append, List.append_assoc]
      exact h.head hstep (ih hrest)

/-- Where the whole can be taken, so can its parts. -/
theorem Bytewise.split {xs ys out : Bytes} {s t : σ} (hok : steps s (xs ++ ys) = .ok (out, t)) :
    ∃ o u p, steps s xs = .ok (o, u) ∧ steps u ys = .ok (p, t) := by
  induction xs generalizing s out with
  | nil => exact ⟨[], s, out, h.nil s, hok⟩
  | cons x xs ih =>
      obtain ⟨first, more, v, hstep, hrest, -⟩ := h.head_of_ok hok
      obtain ⟨o, u, p, hxs, hys⟩ := ih hrest
      exact ⟨first ++ o, u, p, h.head hstep hxs, hys⟩

end Bytewise

/-- A decompressor of stored blocks: in the five bytes in front of one, or in its data. -/
inductive StoredState where
  | head (seen : Bytes)
  | data (left : Nat)
deriving DecidableEq, Repr

def storedHead (head : Bytes) : Option Nat :=
  match head with
  | [0, lo, hi, nlo, nhi] =>
      if nlo = ~~~lo ∧ nhi = ~~~hi then some (lo.toNat + 256 * hi.toNat) else none
  | _ => none

def StoredState.step (byte : UInt8) : StoredState → Except Error (Bytes × StoredState)
  | .head seen =>
      if seen.length < 4 then .ok ([], .head (seen ++ [byte]))
      else
        match storedHead (seen ++ [byte]) with
        | none => .error (.io .invalidInput "corrupt deflate stream")
        | some 0 => .ok ([], .head [])
        | some (left + 1) => .ok ([], .data (left + 1))
  | .data left => .ok ([byte], if left ≤ 1 then .head [] else .data (left - 1))

def StoredState.steps : StoredState → Bytes → Except Error (Bytes × StoredState)
  | state, [] => .ok ([], state)
  | state, byte :: rest => do
      let (out, state) ← state.step byte
      let (more, state) ← state.steps rest
      .ok (out ++ more, state)

def storedBlocks (bytes : Bytes) : Bytes := (chunks u16Max bytes).flatMap storedBlock

def levelZeroFlate : Flate where
  Deflate := Bytes
  deflateNew _ := []
  deflateReset _ := []
  deflate kept bytes flush :=
    match flush with
    | .none => .ok ([], kept ++ bytes)
    | .sync => .ok (storedBlocks (kept ++ bytes) ++ storedBlock [], [])
  Inflate := StoredState
  inflateNew := .head []
  inflateReset _ := .head []
  inflate state bytes _ := state.steps bytes

namespace StoredState

theorem bytewise : Bytewise step steps := ⟨fun _ => rfl, fun _ _ _ => rfl⟩

theorem steps_data : ∀ {chunk : Bytes}, chunk ≠ [] →
    (data chunk.length).steps chunk = .ok (chunk, head [])
  | [b], _ => rfl
  | b :: c :: chunk, _ => by
      have hrest := @steps_data (c :: chunk) (by simp)
      rw [steps, step, if_neg (by simp)]
      dsimp only [bind, Except.bind]
      have hlen : (b :: c :: chunk).length - 1 = (c :: chunk).length := rfl
      rw [hlen, hrest]
      rfl

theorem storedHead_length {chunk : Bytes} (h : chunk.length ≤ u16Max) :
    storedHead [0, UInt8.ofNat chunk.length, UInt8.ofNat (chunk.length / 256),
      ~~~UInt8.ofNat chunk.length, ~~~UInt8.ofNat (chunk.length / 256)] = some chunk.length := by
  unfold u16Max at h
  have hlo : (UInt8.ofNat chunk.length).toNat = chunk.length % 256 := UInt8.toNat_ofNat
  have hhi : (UInt8.ofNat (chunk.length / 256)).toNat = chunk.length / 256 % 256 :=
    UInt8.toNat_ofNat
  refine (if_pos ⟨rfl, rfl⟩).trans ?_
  rw [hlo, hhi]
  congr 1
  omega

theorem steps_storedBlock {chunk : Bytes} (h : chunk.length ≤ u16Max) :
    (head []).steps (storedBlock chunk) = .ok (chunk, head []) := by
  unfold storedBlock
  by_cases hempty : chunk = []
  · subst hempty
    rfl
  · have hhead := storedHead_length h
    have hfront : (head []).steps [0, UInt8.ofNat chunk.length, UInt8.ofNat (chunk.length / 256),
        ~~~UInt8.ofNat chunk.length, ~~~UInt8.ofNat (chunk.length / 256)] =
          .ok ([], data chunk.length) := by
      obtain ⟨left, hleft⟩ : ∃ left, chunk.length = left + 1 :=
        ⟨chunk.length - 1, by have := List.length_pos_iff.mpr hempty; omega⟩
      simp only [steps, step, bind, Except.bind, List.nil_append, List.length_nil]
      norm_num
      rw [hhead, hleft]
    exact bytewise.append hfront (steps_data hempty)

theorem steps_storedBlocks : ∀ {cs : List Bytes}, (∀ c ∈ cs, c.length ≤ u16Max) →
    (head []).steps (cs.flatMap storedBlock) = .ok (cs.flatten, head [])
  | [], _ => rfl
  | c :: cs, h => by
      rw [List.flatMap_cons, List.flatten_cons]
      exact bytewise.append (steps_storedBlock (h c List.mem_cons_self))
        (steps_storedBlocks fun x hx => h x (List.mem_cons_of_mem c hx))

end StoredState

/-! ## It is a streaming codec -/

theorem inflated_steps {i : levelZeroFlate.Inflate} {taken given : Bytes}
    (h : Inflated levelZeroFlate i taken given) :
    (StoredState.head []).steps taken = .ok (given, i) := by
  induction h with
  | new => rfl
  | reset _ _ => rfl
  | taken _ hinflate ih => exact StoredState.bytewise.append ih hinflate

theorem storedBlocks_steps (bytes : Bytes) :
    (StoredState.head []).steps (storedBlocks bytes ++ storedBlock []) =
      .ok (bytes, .head []) := by
  have hpos : 0 < u16Max := by decide
  have hblocks := StoredState.steps_storedBlocks
    fun c (hc : c ∈ chunks u16Max bytes) => (length_of_mem_chunks hpos hc).2
  rw [flatten_chunks hpos] at hblocks
  have hempty := @StoredState.steps_storedBlock [] (Nat.zero_le _)
  have hboth := StoredState.bytewise.append hblocks hempty
  rwa [List.append_nil] at hboth

/-- What is kept back. -/
def levelZeroKept (d : levelZeroFlate.Deflate) : Bytes := d

/-- What came out inflates to what was fed and is not kept back. -/
theorem deflated_steps {d : levelZeroFlate.Deflate} {fed out : Bytes} {synced : Bool}
    (h : Deflated levelZeroFlate d fed out synced) :
    (synced = true → levelZeroKept d = []) ∧ ∃ flushed, fed = flushed ++ levelZeroKept d ∧
      (StoredState.head []).steps out = .ok (flushed, .head []) := by
  induction h with
  | new level => exact ⟨fun _ => rfl, [], rfl, rfl⟩
  | reset _ _ => exact ⟨fun _ => rfl, [], rfl, rfl⟩
  | @fed d d' fed out bytes more synced _ _ hdeflate ih =>
      obtain ⟨-, flushed, rfl, hsteps⟩ := ih
      obtain ⟨rfl, rfl⟩ := Prod.mk.inj (Except.ok.inj hdeflate)
      refine ⟨by simp, flushed, List.append_assoc _ _ _, ?_⟩
      rwa [List.append_nil]
  | @synced d d' fed out more _ hdeflate ih =>
      obtain ⟨-, flushed, rfl, hsteps⟩ := ih
      obtain ⟨rfl, rfl⟩ := Prod.mk.inj (Except.ok.inj hdeflate)
      refine ⟨fun _ => rfl, flushed ++ levelZeroKept d, (List.append_nil _).symm, ?_⟩
      have hkept : levelZeroKept d ++ [] = levelZeroKept d := List.append_nil _
      have hblocks := storedBlocks_steps (levelZeroKept d ++ [])
      have hboth := StoredState.bytewise.append hsteps hblocks
      exact hboth.trans (by rw [hkept])

theorem streamingCodec_levelZero : StreamingCodec levelZeroFlate where
  deflates _ bytes flush := by
    cases flush with
    | none => exact ⟨_, _, rfl⟩
    | sync => exact ⟨_, _, rfl⟩
  tail {d _ _ _ _} _ hdeflate := by
    obtain ⟨rfl, -⟩ := Prod.mk.inj (Except.ok.inj hdeflate)
    refine ⟨storedBlocks (levelZeroKept d ++ []) ++ [0], by simp, ?_⟩
    rw [List.append_assoc]
    rfl
  inflates {_ _ _ _ i _ _ bytes} hd hi hpre _ := by
    obtain ⟨-, flushed, -, hsteps⟩ := deflated_steps hd
    obtain ⟨rest, rfl⟩ := hpre
    obtain ⟨o, u, p, hfront, -⟩ := StoredState.bytewise.split hsteps
    obtain ⟨q, v, more, htaken, hbytes⟩ := StoredState.bytewise.split hfront
    rw [inflated_steps hi] at htaken
    obtain ⟨-, rfl⟩ := Prod.mk.inj (Except.ok.inj htaken)
    exact ⟨_, _, hbytes⟩
  yields hd hi := by
    obtain ⟨hkept, flushed, rfl, hsteps⟩ := deflated_steps hd
    rw [inflated_steps hi] at hsteps
    rw [hkept rfl, List.append_nil]
    exact (Prod.mk.inj (Except.ok.inj hsteps)).1

end RsyncWin
