import RsyncWin.Protocol.DeflatedHistory
import RsyncWin.Protocol.LevelZero

/-!
# A raw deflate that spells out its history

A flush sends everything that was fed before and then what is new. Where that is
not what the decompressor knows, the new bytes come out inverted. Stored blocks
are taken as they are, so this is a codec with a history that can be run.
-/

namespace RsyncWin

open ByteString Codec RsyncDeflatedTokenReader

/-- In a stored block or in front of one, behind the mark of a byte of the history, or behind
the mark of a new byte. -/
inductive HistoryPlace where
  | stored (state : StoredState)
  | claim
  | guarded
deriving DecidableEq, Repr

/-- The decompressor: what came out, and what the compressor said it knew. -/
structure HistoryState where
  known : Bytes := []
  claimed : Bytes := []
  place : HistoryPlace := .stored (.head [])
deriving DecidableEq, Repr

namespace HistoryState

def step (byte : UInt8) (s : HistoryState) : Except Error (Bytes × HistoryState) :=
  match s.place with
  | .claim => .ok ([], ⟨s.known, s.claimed ++ [byte], .stored (.head [])⟩)
  | .guarded =>
      let out := if s.claimed = s.known then byte else ~~~byte
      .ok ([out], ⟨s.known ++ [out], s.claimed ++ [byte], .stored (.head [])⟩)
  | .stored state =>
      if state = .head [] ∧ byte = 1 then .ok ([], { s with place := .claim })
      else if state = .head [] ∧ byte = 2 then .ok ([], { s with place := .guarded })
      else
        match state.step byte with
        | .error e => .error e
        | .ok (out, state) => .ok (out, ⟨s.known ++ out, [], .stored state⟩)

def steps : HistoryState → Bytes → Except Error (Bytes × HistoryState)
  | s, [] => .ok ([], s)
  | s, byte :: rest => do
      let (out, s) ← s.step byte
      let (more, s) ← s.steps rest
      .ok (out ++ more, s)

end HistoryState

def guardedBytes (history bytes : Bytes) : Bytes :=
  history.flatMap (fun byte => [1, byte]) ++ bytes.flatMap (fun byte => [2, byte])

def historyFlate : Flate where
  Deflate := Bytes × Bytes
  deflateNew _ := ([], [])
  deflateReset _ := ([], [])
  deflate d bytes flush :=
    match flush with
    | .none => .ok ([], (d.1, d.2 ++ bytes))
    | .sync => .ok (guardedBytes d.1 (d.2 ++ bytes) ++ storedBlock [], (d.1 ++ (d.2 ++ bytes), []))
  Inflate := HistoryState
  inflateNew := {}
  inflateReset _ := {}
  inflate s bytes _ := s.steps bytes

namespace HistoryState

theorem bytewise : Bytewise step steps := ⟨fun _ => rfl, fun _ _ _ => rfl⟩

/-! ## What is taken at the front -/

variable {known claimed : Bytes}

theorem steps_claims (history : Bytes) :
    (mk known claimed (.stored (.head []))).steps (history.flatMap fun byte => [1, byte]) =
      .ok ([], ⟨known, claimed ++ history, .stored (.head [])⟩) := by
  induction history generalizing claimed with
  | nil => rw [List.append_nil]; rfl
  | cons byte history ih =>
      have hrest := @ih (claimed ++ [byte])
      rw [List.append_assoc, List.singleton_append] at hrest
      have hmark : (mk known claimed (.stored (.head []))).step 1 =
          .ok ([], ⟨known, claimed, .claim⟩) := rfl
      have hbyte : (mk known claimed .claim).step byte =
          .ok ([], ⟨known, claimed ++ [byte], .stored (.head [])⟩) := rfl
      exact bytewise.head hmark (bytewise.head hbyte hrest)

/-- The new bytes, as they come out. -/
def revealed (same : Prop) [Decidable same] (bytes : Bytes) : Bytes :=
  if same then bytes else bytes.map (~~~ ·)

theorem length_revealed (same : Prop) [Decidable same] (bytes : Bytes) :
    (revealed same bytes).length = bytes.length := by
  unfold revealed
  split
  · rfl
  · exact List.length_map _

theorem revealed_eq_iff {same : Prop} [Decidable same] {bytes : Bytes} (hne : bytes ≠ []) :
    revealed same bytes = bytes ↔ same := by
  unfold revealed
  constructor
  · intro h
    by_contra hsame
    rw [if_neg hsame] at h
    obtain ⟨byte, rest, rfl⟩ := List.exists_cons_of_ne_nil hne
    have hbyte : ~~~byte = byte := (List.cons.inj h).1
    have hnat := congrArg UInt8.toNat hbyte
    rw [UInt8.toNat_not, UInt8.size] at hnat
    omega
  · intro hsame
    rw [if_pos hsame]

theorem steps_guarded (bytes : Bytes) :
    (mk known claimed (.stored (.head []))).steps (bytes.flatMap fun byte => [2, byte]) =
      .ok (revealed (claimed = known) bytes, ⟨known ++ revealed (claimed = known) bytes,
        claimed ++ bytes, .stored (.head [])⟩) := by
  induction bytes generalizing known claimed with
  | nil =>
      have hnil : revealed (claimed = known) [] = [] := ite_self _
      rw [hnil, List.append_nil, List.append_nil]
      rfl
  | cons byte bytes ih =>
      let out := if claimed = known then byte else ~~~byte
      have hmark : (mk known claimed (.stored (.head []))).step 2 =
          .ok ([], ⟨known, claimed, .guarded⟩) := rfl
      have hbyte : (mk known claimed .guarded).step byte =
          .ok ([out], ⟨known ++ [out], claimed ++ [byte], .stored (.head [])⟩) := rfl
      have hsame : revealed (claimed ++ [byte] = known ++ [out]) bytes =
          revealed (claimed = known) bytes := by
        unfold revealed
        by_cases h : claimed = known
        · rw [if_pos h, if_pos]
          rw [h, show out = byte from if_pos h]
        · rw [if_neg h, if_neg]
          exact fun heq => h (List.append_inj' heq rfl).1
      have hcons : revealed (claimed = known) (byte :: bytes) =
          out :: revealed (claimed = known) bytes := by
        show _ = (if claimed = known then byte else ~~~byte) :: _
        unfold revealed
        split <;> rfl
      have hrest := @ih (known ++ [out]) (claimed ++ [byte])
      rw [hsame, List.append_assoc, List.append_assoc] at hrest
      rw [hcons]
      exact bytewise.head hmark (bytewise.head hbyte hrest)

/-- In a block every byte is the block's. -/
theorem step_stored {state state' : StoredState} {byte : UInt8} {out : Bytes}
    (hplace : state = .head [] → byte ≠ 1 ∧ byte ≠ 2) (h : state.step byte = .ok (out, state')) :
    (mk known claimed (.stored state)).step byte =
      .ok (out, ⟨known ++ out, [], .stored state'⟩) := by
  unfold step
  dsimp only
  rw [if_neg fun hmark => (hplace hmark.1).1 hmark.2, if_neg fun hmark => (hplace hmark.1).2 hmark.2,
    h]

theorem steps_data {chunk : Bytes} (hne : chunk ≠ []) :
    (mk known [] (.stored (.data chunk.length))).steps chunk =
      .ok (chunk, ⟨known ++ chunk, [], .stored (.head [])⟩) := by
  induction chunk generalizing known with
  | nil => exact absurd rfl hne
  | cons byte chunk ih =>
      by_cases hnil : chunk = []
      · subst hnil
        rfl
      · have hpos : 0 < chunk.length := List.length_pos_iff.mpr hnil
        have hbyte : (StoredState.data (byte :: chunk).length).step byte =
            .ok ([byte], .data chunk.length) := by
          rw [StoredState.step, List.length_cons, if_neg (by omega), Nat.add_sub_cancel]
        have hrest := @ih (known ++ [byte]) hnil
        rw [List.append_assoc] at hrest
        exact bytewise.head (step_stored (by simp) hbyte) hrest

/-- The five bytes in front of a block. -/
theorem steps_head {lo hi nlo nhi : UInt8} {len : Nat}
    (h : storedHead [0, lo, hi, nlo, nhi] = some len) :
    (mk known claimed (.stored (.head []))).steps [0, lo, hi, nlo, nhi] =
      .ok ([], ⟨known, [], .stored (if len = 0 then .head [] else .data len)⟩) := by
  have hhead : ∀ {known claimed seen : Bytes} {byte : UInt8} {rest : Bytes} {t : HistoryState},
      seen.length < 4 → (seen = [] → byte ≠ 1 ∧ byte ≠ 2) →
      (mk known [] (.stored (.head (seen ++ [byte])))).steps rest = .ok ([], t) →
      (mk known claimed (.stored (.head seen))).steps (byte :: rest) = .ok ([], t) := by
    intro known claimed seen byte rest t hshort hfirst hrest
    have hstep : (StoredState.head seen).step byte = .ok ([], .head (seen ++ [byte])) :=
      if_pos hshort
    have hstored := @step_stored known claimed (.head seen) _ byte []
      (fun hplace => hfirst (StoredState.head.inj hplace)) hstep
    rw [List.append_nil] at hstored
    exact bytewise.head hstored hrest
  refine hhead (by decide) (fun _ => by decide) ?_
  refine hhead (by simp) (by simp) ?_
  refine hhead (by simp) (by simp) ?_
  refine hhead (by simp) (by simp) ?_
  have hlast : (StoredState.head ([] ++ [0] ++ [lo] ++ [hi] ++ [nlo])).step nhi =
      .ok ([], if len = 0 then .head [] else .data len) := by
    have hseen : ([] ++ [0] ++ [lo] ++ [hi] ++ [nlo]) ++ [nhi] = [0, lo, hi, nlo, nhi] := rfl
    rw [StoredState.step, if_neg (by simp), hseen, h]
    cases len with
    | zero => rfl
    | succ left => rfl
  have hstored := @step_stored known [] _ _ nhi [] (by simp) hlast
  rw [List.append_nil] at hstored
  exact bytewise.head hstored rfl

/-- A stored block is new to both. -/
theorem steps_storedBlock {chunk : Bytes} (h : chunk.length ≤ u16Max) :
    (mk known claimed (.stored (.head []))).steps (storedBlock chunk) =
      .ok (chunk, ⟨known ++ chunk, [], .stored (.head [])⟩) := by
  have hfront := @steps_head known claimed _ _ _ _ _ (StoredState.storedHead_length h)
  unfold storedBlock
  by_cases hempty : chunk = []
  · subst hempty
    rw [List.append_nil, List.append_nil]
    exact hfront
  · rw [if_neg fun hlen => hempty (List.length_eq_zero_iff.mp hlen)] at hfront
    exact bytewise.append hfront (steps_data hempty)

/-- A flush, as a decompressor at the front takes it. -/
theorem steps_flush (history bytes : Bytes) :
    (mk known [] (.stored (.head []))).steps (guardedBytes history bytes ++ storedBlock []) =
      .ok (revealed (history = known) bytes,
        ⟨known ++ revealed (history = known) bytes, [], .stored (.head [])⟩) := by
  have hclaims := @steps_claims known [] history
  rw [List.nil_append] at hclaims
  have hempty := @steps_storedBlock (known ++ revealed (history = known) bytes) (history ++ bytes)
    [] (Nat.zero_le _)
  have hall := bytewise.append (bytewise.append hclaims (steps_guarded bytes)) hempty
  rwa [List.nil_append, List.append_nil, List.append_nil] at hall

end HistoryState

/-! ## It is a codec with a history -/

open HistoryState

theorem inflated_history {i : historyFlate.Inflate} {taken given : Bytes}
    (h : Inflated historyFlate i taken given) :
    HistoryState.steps {} taken = .ok (given, i) := by
  induction h with
  | new => rfl
  | reset _ _ => rfl
  | taken _ hinflate ih => exact bytewise.append ih hinflate

theorem takes_history {i i' : historyFlate.Inflate} {bytes given : Bytes}
    (h : Takes historyFlate i bytes given i') :
    HistoryState.steps i bytes = .ok (given, i') := by
  induction h with
  | refl => rfl
  | took _ hinflate ih => exact bytewise.append ih hinflate

/-- What went out before is known at the other side, what is kept back is not yet out. -/
theorem deflated_history {d : historyFlate.Deflate} {fed out : Bytes} {synced : Bool}
    (h : Deflated historyFlate d fed out synced) :
    ∃ flushed kept, d = (flushed, kept) ∧ fed = flushed ++ kept ∧ (synced = true → kept = []) ∧
      HistoryState.steps {} out = .ok (flushed, ⟨flushed, [], .stored (.head [])⟩) := by
  induction h with
  | new level => exact ⟨[], [], rfl, rfl, fun _ => rfl, rfl⟩
  | reset _ _ => exact ⟨[], [], rfl, rfl, fun _ => rfl, rfl⟩
  | @fed d d' fed out bytes more synced _ _ hdeflate ih =>
      obtain ⟨flushed, kept, rfl, rfl, -, hsteps⟩ := ih
      obtain ⟨rfl, rfl⟩ := Prod.mk.inj (Except.ok.inj hdeflate)
      refine ⟨flushed, kept ++ bytes, rfl, List.append_assoc _ _ _, nofun, ?_⟩
      rwa [List.append_nil]
  | @synced d d' fed out more _ hdeflate ih =>
      obtain ⟨flushed, kept, rfl, rfl, -, hsteps⟩ := ih
      obtain ⟨rfl, rfl⟩ := Prod.mk.inj (Except.ok.inj hdeflate)
      have hflush := @steps_flush flushed flushed (kept ++ [])
      have hall := bytewise.append hsteps hflush
      have hkept : revealed (flushed = flushed) (kept ++ []) = kept := by
        rw [List.append_nil]
        exact if_pos rfl
      rw [hkept] at hall
      refine ⟨flushed ++ kept, [], ?_, (List.append_nil _).symm, fun _ => rfl, hall⟩
      exact congrArg (fun kept => (flushed ++ kept, [])) (List.append_nil kept)

theorem feeds_history {d d' : historyFlate.Deflate} {bytes more : Bytes}
    (h : Feeds historyFlate d bytes more d') : more = [] ∧ d' = (d.1, d.2 ++ bytes) := by
  induction h with
  | refl => exact ⟨rfl, congrArg (fun kept => (d.1, kept)) (List.append_nil d.2).symm⟩
  | fed _ hdeflate ih =>
      obtain ⟨rfl, rfl⟩ := ih
      obtain ⟨rfl, rfl⟩ := Prod.mk.inj (Except.ok.inj hdeflate)
      exact ⟨rfl, by rw [List.append_assoc]⟩

/-- Between two blocks nothing is claimed, and what is known is all that came out. -/
theorem boundary_history {i : historyFlate.Inflate} {known : Bytes}
    (h : Boundary historyFlate i known) : i = ⟨known, [], .stored (.head [])⟩ := by
  induction h with
  | flushed hd hi =>
      obtain ⟨flushed, kept, -, rfl, hkept, hsteps⟩ := deflated_history hd
      obtain ⟨-, rfl⟩ := Prod.mk.inj (Except.ok.inj ((inflated_history hi).symm.trans hsteps))
      rw [hkept rfl, List.append_nil]
  | @inserted i i' known chunk _ _ hlen hinflate ih =>
      subst ih
      have hblock := @steps_storedBlock known [] chunk hlen
      exact (Prod.mk.inj (Except.ok.inj (hinflate.symm.trans hblock))).2

/-- What a literal with its flush becomes at the other side. -/
theorem given_history {d d' d'' : historyFlate.Deflate} {fed out bytes more last : Bytes}
    {i i' : historyFlate.Inflate} {known given : Bytes} (hd : Deflated historyFlate d fed out true)
    (hfeeds : Feeds historyFlate d bytes more d')
    (hlast : historyFlate.deflate d' [] .sync = .ok (last, d''))
    (hi : Boundary historyFlate i known) (htakes : Takes historyFlate i (more ++ last) given i') :
    given = revealed (fed = known) bytes := by
  obtain ⟨flushed, kept, rfl, rfl, hkept, -⟩ := deflated_history hd
  obtain rfl := hkept rfl
  obtain ⟨rfl, rfl⟩ := feeds_history hfeeds
  obtain ⟨rfl, -⟩ := Prod.mk.inj (Except.ok.inj hlast)
  obtain rfl := boundary_history hi
  have hflush := @steps_flush known flushed ([] ++ bytes ++ [])
  have hgiven := (Prod.mk.inj (Except.ok.inj ((takes_history htakes).symm.trans hflush))).1
  rwa [List.nil_append, List.append_nil, ← List.append_nil flushed] at hgiven

theorem streamingCodec_history : StreamingCodec historyFlate where
  deflates _ bytes flush := by
    cases flush with
    | none => exact ⟨_, _, rfl⟩
    | sync => exact ⟨_, _, rfl⟩
  tail {d _ _ _ _} _ hdeflate := by
    obtain ⟨rfl, -⟩ := Prod.mk.inj (Except.ok.inj hdeflate)
    refine ⟨guardedBytes d.1 (d.2 ++ []) ++ [0], by simp, ?_⟩
    rw [List.append_assoc]
    rfl
  inflates {_ _ _ _ i _ _ bytes} hd hi hpre _ := by
    obtain ⟨flushed, kept, -, -, -, hsteps⟩ := deflated_history hd
    obtain ⟨rest, rfl⟩ := hpre
    obtain ⟨o, u, p, hfront, -⟩ := bytewise.split hsteps
    obtain ⟨q, v, more, htaken, hbytes⟩ := bytewise.split hfront
    rw [inflated_history hi] at htaken
    obtain ⟨-, rfl⟩ := Prod.mk.inj (Except.ok.inj htaken)
    exact ⟨_, _, hbytes⟩
  yields hd hi := by
    obtain ⟨flushed, kept, -, rfl, hkept, hsteps⟩ := deflated_history hd
    rw [inflated_history hi] at hsteps
    rw [hkept rfl, List.append_nil]
    exact (Prod.mk.inj (Except.ok.inj hsteps)).1

theorem historyCodec_history : HistoryCodec historyFlate where
  toStreamingCodec := streamingCodec_history
  inserts hi _ hlen := by
    obtain rfl := boundary_history hi
    exact ⟨_, steps_storedBlock hlen⟩
  lengths hd hfeeds _ hlast hi htakes := by
    rw [given_history hd hfeeds hlast hi htakes, length_revealed]
  returns hd hfeeds hne hlast hi htakes :=
    ((revealed_eq_iff hne).mp (given_history hd hfeeds hlast hi htakes).symm).symm

end RsyncWin
