import Mathlib.Data.List.DropRight
import RsyncWin.Lib.Chunks
import RsyncWin.Lib.Duplex
import RsyncWin.Lib.Utf8
import RsyncWin.Protocol.Io

/-!
# The multiplexed stream (`rsync-protocol/src/session.rs`)

Everything a session sends after its setup travels in frames of a four-byte
header and a payload. `multiplexedRead` is the reader of the source; as the
`pull` of a link it makes a session a pair of parties. `Carries` says which
payload a link of data frames has still to deliver, which is all a session
proof has to know about framing.
-/

namespace RsyncWin

open ByteString Codec Duplex

structure MultiplexReadState where
  remaining : Nat := 0
  messages : List Bytes := []
deriving DecidableEq, Repr

def rsyncMultiplexDataTag : Nat := 7
def rsyncMultiplexErrorCode : Nat := 1

/-- `trim_end_matches(['\r', '\n'])`. -/
def trimLineEnds (message : Bytes) : Bytes := message.rdropWhile fun b => b = 0x0d || b = 0x0a

/-- Reads headers up to the next data frame. `none` is a read that has to wait
for more bytes; the counter bounds the number of frames. -/
def readNextMultiplexFrame : Nat → MultiplexReadState → Bytes →
    Option (Except Error Unit × MultiplexReadState × Bytes)
  | 0, _, _ => none
  | fuel + 1, state, raw =>
      if raw.length < 4 then none
      else
        let header := leNat (raw.take 4)
        let tag := header / 2 ^ 24
        let len := header % 2 ^ 24
        let rest := raw.drop 4
        if tag = rsyncMultiplexDataTag then some (.ok (), { state with remaining := len }, rest)
        else if rest.length < len then none
        else
          let message := trimLineEnds (lossyBytes (rest.take len))
          let rest := rest.drop len
          if tag - rsyncMultiplexDataTag = rsyncMultiplexErrorCode then
            some (.error (.session (.remoteErrorMessage message)), state, rest)
          else if tag < rsyncMultiplexDataTag then
            some (.error (.session (.unsupportedMultiplexMessage tag len)), state, rest)
          else if message = [] then readNextMultiplexFrame fuel state rest
          else
            readNextMultiplexFrame fuel { state with messages := state.messages ++ [message] } rest

/-- `read_exact` of `n` bytes on a `MultiplexedReader`. -/
def multiplexedRead : Nat → Nat → MultiplexReadState → Bytes →
    Option (Except Error Bytes × MultiplexReadState × Bytes)
  | 0, _, _, _ => none
  | _ + 1, 0, state, raw => some (.ok [], state, raw)
  | fuel + 1, n + 1, state, raw =>
      if state.remaining = 0 then
        match readNextMultiplexFrame fuel state raw with
        | none => none
        | some (.error e, state, rest) => some (.error e, state, rest)
        | some (.ok (), state, rest) => multiplexedRead fuel (n + 1) state rest
      else
        let readLen := min state.remaining (n + 1)
        if raw.length < readLen then none
        else
          match multiplexedRead fuel (n + 1 - readLen)
              { state with remaining := state.remaining - readLen } (raw.drop readLen) with
          | some (.ok bs, state, rest) => some (.ok (raw.take readLen ++ bs), state, rest)
          | other => other

/-! ## The link -/

/-- The receiving end of a multiplexed stream: the reader's state and the bytes
in flight. A closed stream gets no more. -/
structure MuxState where
  reader : MultiplexReadState := {}
  raw : Bytes := []
  closed : Bool := false
deriving DecidableEq

def MuxState.push (l : MuxState) (bs : Bytes) : MuxState :=
  if l.closed then l else { l with raw := l.raw ++ bs }

def unexpectedEof : Error := .io .unexpectedEof "failed to fill whole buffer"

def MuxState.pull (n : Nat) (l : MuxState) : Option (Except Error Bytes × MuxState) :=
  match multiplexedRead (l.raw.length + 1) n l.reader l.raw with
  | some (r, reader, raw) => some (r, { l with reader, raw })
  | none => if l.closed then some (.error unexpectedEof, l) else none

/-- More fuel and more bytes do not change a read that was answered. -/
theorem readNextMultiplexFrame_append {more : Bytes} : ∀ {j k : Nat}
    {state state' : MultiplexReadState} {raw rest : Bytes} {r : Except Error Unit},
    j ≤ k → readNextMultiplexFrame j state raw = some (r, state', rest) →
      readNextMultiplexFrame k state (raw ++ more) = some (r, state', rest ++ more)
  | 0, _, _, _, _, _, _, _, h => by simp [readNextMultiplexFrame] at h
  | j + 1, 0, _, _, _, _, _, hle, _ => absurd hle (by omega)
  | j + 1, k + 1, state, state', raw, rest, r, hle, h => by
      unfold readNextMultiplexFrame at h ⊢
      by_cases hshort : raw.length < 4
      · simp [hshort] at h
      have hlong : ¬ (raw ++ more).length < 4 := by
        rw [List.length_append]
        omega
      have htake : (raw ++ more).take 4 = raw.take 4 := List.take_append_of_le_length (by omega)
      have hdrop : (raw ++ more).drop 4 = raw.drop 4 ++ more :=
        List.drop_append_of_le_length (by omega)
      simp only [if_neg hshort, if_neg hlong, htake, hdrop] at h ⊢
      generalize leNat (raw.take 4) = header at h ⊢
      generalize raw.drop 4 = body at h ⊢
      split at h
      · rename_i htag
        rw [if_pos htag]
        simp only [Option.some.injEq, Prod.mk.injEq] at h ⊢
        obtain ⟨rfl, rfl, rfl⟩ := h
        exact ⟨rfl, rfl, rfl⟩
      rename_i htag
      rw [if_neg htag]
      split at h
      · cases h
      rename_i hbody
      have hbody' : ¬ (body ++ more).length < header % 2 ^ 24 := by
        rw [List.length_append]
        omega
      have htake' : (body ++ more).take (header % 2 ^ 24) = body.take (header % 2 ^ 24) :=
        List.take_append_of_le_length (by omega)
      have hdrop' : (body ++ more).drop (header % 2 ^ 24) =
          body.drop (header % 2 ^ 24) ++ more := List.drop_append_of_le_length (by omega)
      rw [if_neg hbody', htake', hdrop']
      split at h
      · rename_i herr
        rw [if_pos herr]
        simp only [Option.some.injEq, Prod.mk.injEq] at h ⊢
        obtain ⟨rfl, rfl, rfl⟩ := h
        exact ⟨rfl, rfl, rfl⟩
      rename_i herr
      rw [if_neg herr]
      split at h
      · rename_i hlow
        rw [if_pos hlow]
        simp only [Option.some.injEq, Prod.mk.injEq] at h ⊢
        obtain ⟨rfl, rfl, rfl⟩ := h
        exact ⟨rfl, rfl, rfl⟩
      rename_i hlow
      rw [if_neg hlow]
      split at h
      · rename_i hmsg
        rw [if_pos hmsg]
        exact readNextMultiplexFrame_append (by omega) h
      · rename_i hmsg
        rw [if_neg hmsg]
        exact readNextMultiplexFrame_append (by omega) h

theorem multiplexedRead_append {more : Bytes} : ∀ {j k n : Nat}
    {state state' : MultiplexReadState} {raw rest : Bytes} {r : Except Error Bytes},
    j ≤ k → multiplexedRead j n state raw = some (r, state', rest) →
      multiplexedRead k n state (raw ++ more) = some (r, state', rest ++ more)
  | 0, _, _, _, _, _, _, _, _, h => by simp [multiplexedRead] at h
  | j + 1, 0, _, _, _, _, _, _, hle, _ => absurd hle (by omega)
  | j + 1, k + 1, 0, state, state', raw, rest, r, _, h => by
      simp only [multiplexedRead, Option.some.injEq, Prod.mk.injEq] at h ⊢
      obtain ⟨rfl, rfl, rfl⟩ := h
      exact ⟨rfl, rfl, rfl⟩
  | j + 1, k + 1, n + 1, state, state', raw, rest, r, hle, h => by
      unfold multiplexedRead at h ⊢
      split at h
      · rename_i hzero
        rw [if_pos hzero]
        cases hframe : readNextMultiplexFrame j state raw with
        | none => simp [hframe] at h
        | some fr =>
            obtain ⟨fr, fstate, fraw⟩ := fr
            rw [readNextMultiplexFrame_append (k := k) (by omega) hframe]
            rw [hframe] at h
            cases fr with
            | error e =>
                simp only [Option.some.injEq, Prod.mk.injEq] at h ⊢
                obtain ⟨rfl, rfl, rfl⟩ := h
                exact ⟨rfl, rfl, rfl⟩
            | ok => exact multiplexedRead_append (by omega) h
      · rename_i hpos
        rw [if_neg hpos]
        dsimp only at h ⊢
        generalize hlen : min state.remaining (n + 1) = readLen at h ⊢
        split at h
        · cases h
        rename_i hraw
        have hraw' : ¬ (raw ++ more).length < readLen := by
          rw [List.length_append]
          omega
        rw [if_neg hraw', List.take_append_of_le_length (by omega),
          List.drop_append_of_le_length (by omega)]
        generalize hrec : multiplexedRead j (n + 1 - readLen) _ (raw.drop readLen) = res at h
        cases res with
        | none => cases h
        | some res =>
            obtain ⟨res, st, raw'⟩ := res
            rw [multiplexedRead_append (k := k) (by omega) hrec]
            cases res with
            | error e =>
                simp only [Option.some.injEq, Prod.mk.injEq] at h ⊢
                obtain ⟨rfl, rfl, rfl⟩ := h
                exact ⟨rfl, rfl, rfl⟩
            | ok bs =>
                simp only [Option.some.injEq, Prod.mk.injEq] at h ⊢
                obtain ⟨rfl, rfl, rfl⟩ := h
                exact ⟨rfl, rfl, rfl⟩

theorem MuxState.pull_push {n : Nat} {l l' : MuxState} {r : Except Error Bytes} (b : Bytes)
    (h : l.pull n = some (r, l')) : (l.push b).pull n = some (r, l'.push b) := by
  unfold pull at h
  cases hclosed : l.closed with
  | true =>
      have hl : l.push b = l := by simp [push, hclosed]
      have hl' : l'.closed = true := by
        split at h
        · simp only [Option.some.injEq, Prod.mk.injEq] at h
          rw [← h.2]
          exact hclosed
        · rw [if_pos hclosed] at h
          simp only [Option.some.injEq, Prod.mk.injEq] at h
          rw [← h.2]
          exact hclosed
      have hpush : l'.push b = l' := by simp [push, hl']
      rw [hl, hpush]
      exact h
  | false =>
      have hl : l.push b = { l with raw := l.raw ++ b } := by simp [push, hclosed]
      split at h
      · rename_i hread
        simp only [Option.some.injEq, Prod.mk.injEq] at h
        obtain ⟨rfl, rfl⟩ := h
        rw [hl]
        unfold pull
        rw [multiplexedRead_append (k := (l.raw ++ b).length + 1)
          (by rw [List.length_append]; omega) hread]
        simp [push, hclosed]
      · simp [hclosed] at h

/-- An answered read has the length it asked for. -/
theorem multiplexedRead_length : ∀ {k n : Nat} {state state' : MultiplexReadState}
    {raw rest bs : Bytes}, multiplexedRead k n state raw = some (.ok bs, state', rest) →
    bs.length = n
  | 0, _, _, _, _, _, _, h => by simp [multiplexedRead] at h
  | _ + 1, 0, _, _, _, _, _, h => by
      simp only [multiplexedRead, Option.some.injEq, Prod.mk.injEq, Except.ok.injEq] at h
      rw [← h.1, List.length_nil]
  | k + 1, n + 1, state, state', raw, rest, bs, h => by
      unfold multiplexedRead at h
      split at h
      · cases hframe : readNextMultiplexFrame k state raw with
        | none => simp [hframe] at h
        | some fr =>
            obtain ⟨fr, fstate, fraw⟩ := fr
            rw [hframe] at h
            cases fr with
            | error e => simp at h
            | ok => exact multiplexedRead_length h
      · rename_i hpos
        dsimp only at h
        generalize hlen : min state.remaining (n + 1) = readLen at h
        split at h
        · cases h
        rename_i hraw
        generalize hrec : multiplexedRead k (n + 1 - readLen) _ (raw.drop readLen) = res at h
        cases res with
        | none => cases h
        | some res =>
            obtain ⟨res, st, raw'⟩ := res
            cases res with
            | error e => simp at h
            | ok cs =>
                have hcs := multiplexedRead_length hrec
                simp only [Option.some.injEq, Prod.mk.injEq, Except.ok.injEq] at h
                rw [← h.1, List.length_append, hcs, List.length_take_of_le (by omega)]
                omega

theorem MuxState.pull_length {n : Nat} {l l' : MuxState} {bs : Bytes}
    (h : l.pull n = some (.ok bs, l')) : bs.length = n := by
  unfold pull at h
  split at h
  · rename_i r reader raw hread
    simp only [Option.some.injEq, Prod.mk.injEq] at h
    obtain ⟨rfl, -⟩ := h
    exact multiplexedRead_length hread
  · split at h
    · simp at h
    · cases h

/-- The multiplexed stream as a link between two parties. -/
def muxLink : Link Error where
  State := MuxState
  push := MuxState.push
  pull := MuxState.pull
  pull_push := MuxState.pull_push

/-! ## Payloads -/

def dataFrame (payload : Bytes) : Bytes :=
  leBytes 4 (rsyncMultiplexDataTag * 2 ^ 24 + payload.length) ++ payload

/-- The frames a link of data frames has to deliver: what is left of the frame
being read, then whole frames. -/
structure Carries (l : MuxState) (payload : Bytes) : Prop where
  opened : l.closed = false
  frames : ∃ (head : Bytes) (frames : List Bytes), head.length = l.reader.remaining ∧
    (∀ f ∈ frames, 0 < f.length ∧ f.length < 2 ^ 24) ∧
    l.raw = head ++ frames.flatMap dataFrame ∧ payload = head ++ frames.flatten

theorem carries_empty : Carries {} [] :=
  ⟨rfl, [], [], rfl, by simp, rfl, rfl⟩

theorem readNextMultiplexFrame_dataFrame {fuel : Nat} {state : MultiplexReadState}
    {f more : Bytes} (h : f.length < 2 ^ 24) :
    readNextMultiplexFrame (fuel + 1) state (dataFrame f ++ more) =
      some (.ok (), { state with remaining := f.length }, f ++ more) := by
  have hheader : leNat (leBytes 4 (rsyncMultiplexDataTag * 2 ^ 24 + f.length)) =
      rsyncMultiplexDataTag * 2 ^ 24 + f.length := by
    rw [leNat_leBytes, Nat.mod_eq_of_lt]
    unfold rsyncMultiplexDataTag
    omega
  have hraw : dataFrame f ++ more =
      leBytes 4 (rsyncMultiplexDataTag * 2 ^ 24 + f.length) ++ (f ++ more) := by
    rw [dataFrame, List.append_assoc]
  have htake : (dataFrame f ++ more).take 4 =
      leBytes 4 (rsyncMultiplexDataTag * 2 ^ 24 + f.length) := by
    rw [hraw]
    exact List.take_left' (leBytes_length 4 _)
  have hdrop : (dataFrame f ++ more).drop 4 = f ++ more := by
    rw [hraw]
    exact List.drop_left' (leBytes_length 4 _)
  have hlen : ¬ (dataFrame f ++ more).length < 4 := by
    rw [hraw, List.length_append, leBytes_length]
    omega
  unfold readNextMultiplexFrame
  rw [if_neg hlen, htake, hdrop, hheader]
  have htag : (rsyncMultiplexDataTag * 2 ^ 24 + f.length) / 2 ^ 24 = rsyncMultiplexDataTag := by
    omega
  have hmod : (rsyncMultiplexDataTag * 2 ^ 24 + f.length) % 2 ^ 24 = f.length := by
    omega
  simp only [htag, hmod, if_true]

theorem multiplexedRead_frames : ∀ {k n : Nat} {state : MultiplexReadState} {head : Bytes}
    {frames : List Bytes}, head.length = state.remaining →
    (∀ f ∈ frames, 0 < f.length ∧ f.length < 2 ^ 24) →
    (head ++ frames.flatMap dataFrame).length < k → n ≤ (head ++ frames.flatten).length →
    ∃ (state' : MultiplexReadState) (head' : Bytes) (frames' : List Bytes),
      multiplexedRead k n state (head ++ frames.flatMap dataFrame) =
        some (.ok ((head ++ frames.flatten).take n), state', head' ++ frames'.flatMap dataFrame) ∧
      head'.length = state'.remaining ∧ (∀ f ∈ frames', 0 < f.length ∧ f.length < 2 ^ 24) ∧
      head' ++ frames'.flatten = (head ++ frames.flatten).drop n
  | 0, _, _, _, _, _, _, hk, _ => absurd hk (by omega)
  | k + 1, 0, state, head, frames, hrem, hframes, _, _ => by
      refine ⟨state, head, frames, ?_, hrem, hframes, by simp⟩
      simp [multiplexedRead]
  | k + 1, n + 1, state, head, frames, hrem, hframes, hk, hn => by
      unfold multiplexedRead
      by_cases hzero : state.remaining = 0
      · rw [if_pos hzero]
        have hhead : head = [] := List.length_eq_zero_iff.mp (hrem.trans hzero)
        subst hhead
        cases frames with
        | nil => simp at hn
        | cons f fs =>
            have hf := (hframes f List.mem_cons_self)
            have hraw : ([] : Bytes) ++ (f :: fs).flatMap dataFrame =
                dataFrame f ++ fs.flatMap dataFrame := rfl
            have hlen : (dataFrame f ++ fs.flatMap dataFrame).length =
                4 + (f ++ fs.flatMap dataFrame).length := by
              simp only [dataFrame, List.length_append, leBytes_length]
              omega
            rw [hraw] at hk ⊢
            obtain ⟨j, rfl⟩ : ∃ j, k = j + 1 := ⟨k - 1, by omega⟩
            rw [readNextMultiplexFrame_dataFrame hf.2]
            refine @multiplexedRead_frames (j + 1) (n + 1) { state with remaining := f.length } f fs
              rfl (fun g hg => hframes g (List.mem_cons_of_mem _ hg)) (by omega) ?_
            simpa using hn
      · rw [if_neg hzero]
        generalize hlen : min state.remaining (n + 1) = readLen
        have hle : readLen ≤ head.length := by omega
        have hraw : ¬ (head ++ frames.flatMap dataFrame).length < readLen := by
          rw [List.length_append]
          omega
        dsimp only
        rw [if_neg hraw, List.take_append_of_le_length hle, List.drop_append_of_le_length hle]
        have hrec := @multiplexedRead_frames k (n + 1 - readLen)
          { state with remaining := state.remaining - readLen } (head.drop readLen) frames
          (by simp [hrem]) hframes
          (by simp only [List.length_append, List.length_drop] at hk ⊢; omega)
          (by simp only [List.length_append, List.length_drop] at hn ⊢; omega)
        obtain ⟨state', head', frames', hread, hrem', hframes', hrest⟩ := hrec
        have hsplit : head.drop readLen ++ frames.flatten =
            (head ++ frames.flatten).drop readLen :=
          (List.drop_append_of_le_length hle).symm
        refine ⟨state', head', frames', ?_, hrem', hframes', ?_⟩
        · rw [hread, hsplit]
          have htake : head.take readLen = (head ++ frames.flatten).take readLen :=
            (List.take_append_of_le_length hle).symm
          rw [htake]
          have hn' : n + 1 = readLen + (n + 1 - readLen) := by omega
          conv_rhs => rw [hn', List.take_add]
        · rw [hrest, hsplit, List.drop_drop]
          congr 1
          omega

/-- A read of carried bytes is answered with the next of them. -/
theorem Carries.pull {l : MuxState} {bs rest : Bytes} (h : Carries l (bs ++ rest)) :
    ∃ l', l.pull bs.length = some (.ok bs, l') ∧ Carries l' rest := by
  obtain ⟨hopen, head, frames, hrem, hframes, hraw, hpay⟩ := h
  have hk : (head ++ frames.flatMap dataFrame).length < l.raw.length + 1 := by
    rw [hraw]
    omega
  have hn : bs.length ≤ (head ++ frames.flatten).length := by
    rw [← hpay, List.length_append]
    omega
  obtain ⟨reader, head', frames', hread, hrem', hframes', hrest⟩ :=
    multiplexedRead_frames hrem hframes hk hn
  rw [← hpay] at hread hrest
  rw [List.take_left] at hread
  rw [List.drop_left] at hrest
  refine ⟨{ l with reader, raw := head' ++ frames'.flatMap dataFrame }, ?_,
    hopen, head', frames', hrem', hframes', rfl, hrest.symm⟩
  unfold MuxState.pull
  rw [← hraw] at hread
  rw [hread]

/-! ## Sending -/

/-- The buffers `sent` are whole data frames with the given payload. -/
def Frames (sent : List Bytes) (payload : Bytes) : Prop :=
  ∃ frames : List Bytes, (∀ f ∈ frames, 0 < f.length ∧ f.length < 2 ^ 24) ∧
    sent.flatten = frames.flatMap dataFrame ∧ payload = frames.flatten

theorem frames_nil : Frames [] [] := ⟨[], by simp, rfl, rfl⟩

theorem Frames.append {s t : List Bytes} {p q : Bytes} (hs : Frames s p) (ht : Frames t q) :
    Frames (s ++ t) (p ++ q) := by
  obtain ⟨fs, hfs, hraw, rfl⟩ := hs
  obtain ⟨gs, hgs, hraw', rfl⟩ := ht
  refine ⟨fs ++ gs, ?_, ?_, ?_⟩
  · intro f hf
    rcases List.mem_append.mp hf with h | h
    · exact hfs f h
    · exact hgs f h
  · rw [List.flatten_append, hraw, hraw', List.flatMap_append]
  · rw [List.flatten_append]

theorem pushes_open : ∀ {sent : List Bytes} {l : MuxState}, l.closed = false →
    Duplex.pushes (K := muxLink) l sent = { l with raw := l.raw ++ sent.flatten }
  | [], l, _ => by
      show l = _
      rw [List.flatten_nil, List.append_nil]
  | b :: bs, l, hl => by
      have hb : l.push b = { l with raw := l.raw ++ b } := by simp [MuxState.push, hl]
      have hopen : (l.push b).closed = false := by rw [hb]; exact hl
      have htail := @pushes_open bs (l.push b) hopen
      refine htail.trans ?_
      rw [hb, List.flatten_cons, List.append_assoc]

theorem Carries.pushes {l : MuxState} {payload : Bytes} (h : Carries l payload)
    {sent : List Bytes} {more : Bytes} (hs : Frames sent more) :
    Carries (pushes (K := muxLink) l sent) (payload ++ more) := by
  obtain ⟨hopen, head, frames, hrem, hframes, hraw, hpay⟩ := h
  obtain ⟨gs, hgs, hsent, hmore⟩ := hs
  rw [pushes_open hopen]
  refine ⟨hopen, head, frames ++ gs, hrem, ?_, ?_, ?_⟩
  · intro f hf
    rcases List.mem_append.mp hf with h | h
    · exact hframes f h
    · exact hgs f h
  · rw [hraw, hsent, List.flatMap_append, List.append_assoc]
  · rw [hpay, hmore, List.flatten_append, List.append_assoc]

section Writer

variable {L : Sig}

def writeMultiplexDataFrame (payload : Bytes) : Party Error L Unit := do
  if payload.length > 0x00ffffff then
    throw (.io .invalidInput "rsync multiplex payload exceeds 24-bit frame length")
  else
    send (leBytes 4 (rsyncMultiplexDataTag * 2 ^ 24 + payload.length))
    send payload

/-- `RSYNC31_MUX_FRAME_SIZE`. -/
def rsync31MuxFrameSize : Nat := 32 * 1024

/-- `write_all` on a `MultiplexedWriter`. -/
def multiplexedWrite (bs : Bytes) : Party Error L Unit :=
  (chunks rsync31MuxFrameSize bs).forM writeMultiplexDataFrame

/-- A reader used on a `MultiplexedReader`. -/
def onMux {α : Type} (r : Reader α) : Party Error L α := r.interp fun n => recv n

/-- A writer used on a `MultiplexedWriter`. -/
def toMux {α : Type} (w : Writer α) : Party Error L α := w.interp fun bs => multiplexedWrite bs

end Writer

end RsyncWin
