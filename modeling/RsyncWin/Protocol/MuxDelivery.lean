import RsyncWin.Protocol.IoCodec
import RsyncWin.Protocol.Multiplex

/-!
# What a multiplexed stream delivers

Frames are cut by the writer, messages and empty frames come from the peer, and
the reads cut the payload once more. Where a reader stands is given by the
frames it has met, what is left of the one it is in, and the frames to come;
each read moves it on by the bytes it asked for.
-/

namespace RsyncWin

open ByteString Codec Duplex

/-! ## The writer -/

namespace MultiplexedWriter

def writeDataFrame (payload : Bytes) : Writer Unit :=
  if payload.length > 0x00ffffff then
    throw (.io .invalidInput "rsync multiplex payload exceeds 24-bit frame length")
  else do
    writeAll (leBytes 4 (rsyncMultiplexDataTag * 2 ^ 24 + payload.length))
    writeAll payload

def write (frameSize : Nat) (buf : Bytes) : Writer Nat :=
  if buf = [] then pure 0
  else if frameSize = 0 then
    throw (.io .invalidInput "rsync multiplex frame size must be greater than zero")
  else do
    (chunks frameSize buf).forM writeDataFrame
    pure buf.length

/-- What a session writes is what this writer writes with the frame size of sessions. -/
theorem interp_write {L : Sig} (bs : Bytes) :
    (write rsync31MuxFrameSize bs >>= fun _ => pure ()).interp
      (fun cs => (send cs : Party Error L Unit)) = multiplexedWrite bs := by
  have hframe : ∀ payload : Bytes, (writeDataFrame payload).interp
      (fun cs => (send cs : Party Error L Unit)) = writeMultiplexDataFrame payload := by
    intro payload
    unfold writeDataFrame writeMultiplexDataFrame
    split <;> rfl
  have hforM : ∀ payloads : List Bytes, (payloads.forM writeDataFrame).interp
      (fun cs => (send cs : Party Error L Unit)) = payloads.forM writeMultiplexDataFrame := by
    intro payloads
    induction payloads with
    | nil => rfl
    | cons payload payloads ih =>
        show (writeDataFrame payload >>= fun _ => payloads.forM writeDataFrame).interp _ =
          writeMultiplexDataFrame payload >>= fun _ => payloads.forM writeMultiplexDataFrame
        rw [Prog.interp_bind, hframe, ih]
  unfold write multiplexedWrite
  by_cases hnil : bs = []
  · rw [if_pos hnil, hnil]
    rfl
  · rw [if_neg hnil, if_neg (by decide), Prog.bind_assoc, Prog.interp_bind, hforM]
    exact Prog.bind_ret _

end MultiplexedWriter

/-! ## Frames -/

structure MuxFrame where
  tag : Nat
  payload : Bytes
deriving DecidableEq, Repr

namespace MuxFrame

def encode (f : MuxFrame) : Bytes := leBytes 4 (f.tag * 2 ^ 24 + f.payload.length) ++ f.payload

/-- What a header can say. -/
structure Valid (f : MuxFrame) : Prop where
  tag : f.tag < 256
  payload : f.payload.length < 2 ^ 24

def isData (f : MuxFrame) : Bool := f.tag = rsyncMultiplexDataTag

/-- An error message, or a tag that no frame has. -/
def Fatal (f : MuxFrame) : Prop := f.tag < rsyncMultiplexDataTag ∨
  f.tag = rsyncMultiplexDataTag + rsyncMultiplexErrorCode

instance (f : MuxFrame) : Decidable f.Fatal :=
  inferInstanceAs (Decidable (_ ∨ _))

def text (f : MuxFrame) : Bytes := trimLineEnds (lossyBytes f.payload)

def payloads (frames : List MuxFrame) : Bytes := (frames.filter isData).flatMap payload

/-- The messages that are not empty. -/
def texts (frames : List MuxFrame) : List Bytes :=
  ((frames.filter fun f => !f.isData).map text).filter (· ≠ [])

theorem payloads_append (fs gs : List MuxFrame) :
    payloads (fs ++ gs) = payloads fs ++ payloads gs := by
  simp [payloads]

theorem texts_append (fs gs : List MuxFrame) : texts (fs ++ gs) = texts fs ++ texts gs := by
  simp [texts]

theorem payloads_cons_data {f : MuxFrame} (h : f.isData = true) (fs : List MuxFrame) :
    payloads (f :: fs) = f.payload ++ payloads fs := by
  simp [payloads, h]

theorem payloads_of_messages {fs : List MuxFrame} (h : ∀ f ∈ fs, f.isData = false) :
    payloads fs = [] := by
  have hnil : fs.filter isData = [] := by
    rw [List.filter_eq_nil_iff]
    intro f hf
    rw [h f hf]
    decide
  rw [payloads, hnil]
  rfl

theorem four_le_length_encode (f : MuxFrame) : 4 ≤ f.encode.length := by
  rw [encode, List.length_append, leBytes_length]
  omega

end MuxFrame

open MuxFrame

/-! ## Reading headers -/

section Header

variable {f : MuxFrame} {fuel : Nat} {state : MultiplexReadState} {more : Bytes}

/-- The header of a frame that is followed by its payload. -/
theorem readNextMultiplexFrame_encode (h : f.Valid) :
    readNextMultiplexFrame (fuel + 1) state (f.encode ++ more) =
      if f.isData then some (.ok (), { state with remaining := f.payload.length },
        f.payload ++ more)
      else if f.tag - rsyncMultiplexDataTag = rsyncMultiplexErrorCode then
        some (.error (.session (.remoteErrorMessage f.text)), state, more)
      else if f.tag < rsyncMultiplexDataTag then
        some (.error (.session (.unsupportedMultiplexMessage f.tag f.payload.length)), state, more)
      else if f.text = [] then readNextMultiplexFrame fuel state more
      else readNextMultiplexFrame fuel
        { state with messages := state.messages ++ [f.text] } more := by
  obtain ⟨htag, hpayload⟩ := h
  have hraw : f.encode ++ more =
      leBytes 4 (f.tag * 2 ^ 24 + f.payload.length) ++ (f.payload ++ more) := by
    rw [encode, List.append_assoc]
  have htake : (f.encode ++ more).take 4 = leBytes 4 (f.tag * 2 ^ 24 + f.payload.length) := by
    rw [hraw]
    exact List.take_left' (leBytes_length 4 _)
  have hdrop : (f.encode ++ more).drop 4 = f.payload ++ more := by
    rw [hraw]
    exact List.drop_left' (leBytes_length 4 _)
  have hheader : leNat (leBytes 4 (f.tag * 2 ^ 24 + f.payload.length)) =
      f.tag * 2 ^ 24 + f.payload.length := by
    rw [leNat_leBytes, Nat.mod_eq_of_lt]
    omega
  have hlen : ¬ (f.encode ++ more).length < 4 := by
    have := four_le_length_encode f
    rw [List.length_append]
    omega
  have hdiv : (f.tag * 2 ^ 24 + f.payload.length) / 2 ^ 24 = f.tag := by omega
  have hmod : (f.tag * 2 ^ 24 + f.payload.length) % 2 ^ 24 = f.payload.length := by omega
  have hbody : ¬ (f.payload ++ more).length < f.payload.length := by
    rw [List.length_append]
    omega
  rw [readNextMultiplexFrame, if_neg hlen, htake, hdrop, hheader]
  simp only [hdiv, hmod, isData, decide_eq_true_eq]
  rw [if_neg hbody, List.take_left, List.drop_left]
  rfl

theorem readNextMultiplexFrame_data (h : f.Valid) (hdata : f.isData = true) :
    readNextMultiplexFrame (fuel + 1) state (f.encode ++ more) =
      some (.ok (), { state with remaining := f.payload.length }, f.payload ++ more) := by
  rw [readNextMultiplexFrame_encode h, if_pos hdata]

theorem readNextMultiplexFrame_fatal (h : f.Valid) (hfatal : f.Fatal) :
    ∃ e, readNextMultiplexFrame (fuel + 1) state (f.encode ++ more) =
      some (.error e, state, more) := by
  have hdata : ¬ f.isData = true := by
    unfold MuxFrame.isData
    rw [decide_eq_true_eq]
    rcases hfatal with hlow | herr
    · omega
    · unfold rsyncMultiplexErrorCode at herr
      omega
  rw [readNextMultiplexFrame_encode h, if_neg hdata]
  by_cases herr : f.tag - rsyncMultiplexDataTag = rsyncMultiplexErrorCode
  · rw [if_pos herr]
    exact ⟨_, rfl⟩
  · rw [if_neg herr]
    have hlow : f.tag < rsyncMultiplexDataTag := by
      rcases hfatal with hlow | heq
      · exact hlow
      · omega
    rw [if_pos hlow]
    exact ⟨_, rfl⟩

/-- Messages between frames are noted and passed over. -/
theorem readNextMultiplexFrame_messages : ∀ {before : List MuxFrame} {fuel : Nat}
    {state : MultiplexReadState}, (∀ f ∈ before, f.Valid ∧ ¬ f.Fatal ∧ f.isData = false) →
      readNextMultiplexFrame (before.length + fuel) state (before.flatMap encode ++ more) =
        readNextMultiplexFrame fuel { state with messages := state.messages ++ texts before } more
  | [], fuel, state, _ => by simp [texts]
  | f :: before, fuel, state, h => by
      obtain ⟨hvalid, hfatal, hdata⟩ := h f (by simp)
      have hrest : ∀ g ∈ before, g.Valid ∧ ¬ g.Fatal ∧ g.isData = false :=
        fun g hg => h g (List.mem_cons_of_mem f hg)
      have hlow : ¬ f.tag < rsyncMultiplexDataTag := fun hlow => hfatal (Or.inl hlow)
      have herr : ¬ f.tag - rsyncMultiplexDataTag = rsyncMultiplexErrorCode := by
        intro herr
        exact hfatal (Or.inr (by omega))
      have hfuel : (f :: before).length + fuel = before.length + fuel + 1 := by
        rw [List.length_cons]
        omega
      rw [hfuel, List.flatMap_cons, List.append_assoc, readNextMultiplexFrame_encode hvalid,
        if_neg (by simp [hdata]), if_neg herr, if_neg hlow]
      by_cases htext : f.text = []
      · have htexts : texts (f :: before) = texts before := by simp [texts, hdata, htext]
        rw [if_pos htext, readNextMultiplexFrame_messages hrest, htexts]
      · have htexts : texts (f :: before) = f.text :: texts before := by
          simp [texts, hdata, htext]
        rw [if_neg htext, readNextMultiplexFrame_messages hrest, htexts]
        simp

end Header

/-! ## Where a reader stands -/

/-- The bytes a reader has before it: the rest of a payload, then frames. -/
def ahead (head : Bytes) (frames : List MuxFrame) (more : Bytes) : Bytes :=
  head ++ frames.flatMap encode ++ more

/-- The bytes the next reads are to return. -/
def unread (head : Bytes) (frames : List MuxFrame) : Bytes := head ++ payloads frames

/-- The frame that is being read: the last one met, with `head` left of it. -/
def Current (met : List MuxFrame) (head : Bytes) : Prop :=
  ∃ (before : List MuxFrame) (f : MuxFrame), met = before ++ [f] ∧ f.isData = true ∧
    head <:+ f.payload ∧ head.length < f.payload.length

/-- Frames up to the first that is not a harmless message. -/
theorem split_messages : ∀ (frames : List MuxFrame), (∀ f ∈ frames, f.Valid) →
    ∃ before rest, frames = before ++ rest ∧
      (∀ f ∈ before, f.Valid ∧ ¬ f.Fatal ∧ f.isData = false) ∧
      ∀ f after, rest = f :: after → f.isData = true ∨ f.Fatal
  | [], _ => ⟨[], [], rfl, by simp, by simp⟩
  | f :: frames, h => by
      obtain ⟨before, rest, rfl, hbefore, hrest⟩ :=
        split_messages frames fun g hg => h g (List.mem_cons_of_mem f hg)
      by_cases hf : f.isData = true ∨ f.Fatal
      · refine ⟨[], f :: (before ++ rest), rfl, by simp, fun g after hg => ?_⟩
        rw [← (List.cons.inj hg).1]
        exact hf
      · rw [not_or, Bool.not_eq_true] at hf
        refine ⟨f :: before, rest, rfl, fun g hg => ?_, hrest⟩
        rcases List.mem_cons.mp hg with rfl | hg
        · exact ⟨h g (by simp), hf.2, hf.1⟩
        · exact hbefore g hg

theorem length_flatMap_encode (frames : List MuxFrame) :
    4 * frames.length ≤ (frames.flatMap encode).length := by
  induction frames with
  | nil => simp
  | cons f frames ih =>
      have := four_le_length_encode f
      rw [List.flatMap_cons, List.length_append, List.length_cons]
      omega

theorem unread_of_messages {before rest : List MuxFrame}
    (h : ∀ f ∈ before, f.Valid ∧ ¬ f.Fatal ∧ f.isData = false) :
    payloads (before ++ rest) = payloads rest := by
  rw [payloads_append, payloads_of_messages fun f hf => (h f hf).2.2]
  rfl

section Read

variable {more : Bytes}

/-- A read that starts between frames. -/
theorem multiplexedRead_messages {before : List MuxFrame} {fuel n : Nat}
    {state : MultiplexReadState} {raw : Bytes}
    (h : ∀ f ∈ before, f.Valid ∧ ¬ f.Fatal ∧ f.isData = false) (hzero : state.remaining = 0) :
    multiplexedRead (before.length + fuel + 1) (n + 1) state (before.flatMap encode ++ raw) =
      match readNextMultiplexFrame fuel
          { state with messages := state.messages ++ texts before } raw with
      | none => none
      | some (.error e, state, rest) => some (.error e, state, rest)
      | some (.ok (), state, rest) =>
          multiplexedRead (before.length + fuel) (n + 1) state rest := by
  rw [multiplexedRead, if_pos hzero, readNextMultiplexFrame_messages h] <;> rfl

/-- A read inside a payload. -/
theorem multiplexedRead_head {fuel n : Nat} {state : MultiplexReadState} {head raw : Bytes}
    (hrem : state.remaining = head.length) (hpos : 0 < head.length) :
    multiplexedRead (fuel + 1) (n + 1) state (head ++ raw) =
      match multiplexedRead fuel (n + 1 - min head.length (n + 1))
          { state with remaining := head.length - min head.length (n + 1) }
          (head.drop (min head.length (n + 1)) ++ raw) with
      | some (.ok bs, state, rest) =>
          some (.ok (head.take (min head.length (n + 1)) ++ bs), state, rest)
      | other => other := by
  have hle : min head.length (n + 1) ≤ head.length := Nat.min_le_left _ _
  have hraw : ¬ (head ++ raw).length < min head.length (n + 1) := by
    rw [List.length_append]
    omega
  rw [multiplexedRead, if_neg (by omega), hrem]
  simp only [if_neg hraw]
  rw [List.take_append_of_le_length hle, List.drop_append_of_le_length hle] <;> rfl

/-- A read of bytes that are there is answered with them, and the frames met on
the way are those up to the last byte. -/
theorem multiplexedRead_unread (more : Bytes) : ∀ {fuel n : Nat} {state : MultiplexReadState} {head : Bytes}
    {frames : List MuxFrame}, state.remaining = head.length →
    (∀ f ∈ frames, f.Valid ∧ ¬ f.Fatal) → (ahead head frames more).length < fuel →
    n ≤ (unread head frames).length → ∃ met rest head',
      frames = met ++ rest ∧ multiplexedRead fuel n state (ahead head frames more) =
          some (.ok ((unread head frames).take n),
            ⟨head'.length, state.messages ++ texts met⟩, ahead head' rest more) ∧
        unread head' rest = (unread head frames).drop n ∧
        (met = [] ∧ n ≤ head.length ∧ head' = head.drop n ∨ Current met head')
  | 0, _, _, _, _, _, _, hfuel, _ => absurd hfuel (by omega)
  | fuel + 1, 0, state, head, frames, hrem, _, _, _ => by
      refine ⟨[], frames, head, rfl, ?_, rfl, Or.inl ⟨rfl, Nat.zero_le _, rfl⟩⟩
      simp [multiplexedRead, texts, ← hrem]
  | fuel + 1, n + 1, state, head, frames, hrem, hframes, hfuel, hn => by
      by_cases hhead : head = []
      · -- between frames: the next data frame is the one the bytes come from
        subst hhead
        obtain ⟨before, rest, rfl, hbefore, hrest⟩ :=
          split_messages frames fun f hf => (hframes f hf).1
        have hpayload : unread [] (before ++ rest) = payloads rest := unread_of_messages hbefore
        cases rest with
        | nil =>
            rw [hpayload] at hn
            simp [payloads] at hn
        | cons f after =>
            have hf := hframes f (by simp)
            have hdata : f.isData = true := (hrest f after rfl).resolve_right hf.2
            have hmore : ahead [] (before ++ f :: after) more =
                before.flatMap encode ++ (f.encode ++ (after.flatMap encode ++ more)) := by
              simp [ahead]
            have hlen := length_flatMap_encode before
            have hflen : f.encode.length = 4 + f.payload.length := by
              rw [encode, List.length_append, leBytes_length]
            rw [hmore] at hfuel ⊢
            simp only [List.length_append] at hfuel
            obtain ⟨k, rfl⟩ : ∃ k, fuel = before.length + (k + 1) :=
              ⟨fuel - before.length - 1, by omega⟩
            rw [hpayload, payloads_cons_data hdata] at hn ⊢
            obtain ⟨met, rest, head', rfl, hread, hunread, hwhere⟩ :=
              @multiplexedRead_unread more (before.length + (k + 1)) (n + 1)
                ⟨f.payload.length, state.messages ++ texts before⟩ f.payload after rfl
                (fun g hg => hframes g (by simp [hg]))
                (by simp only [ahead, List.length_append]; omega) hn
            refine ⟨before ++ f :: met, rest, head', by simp, ?_, hunread, Or.inr ?_⟩
            · rw [multiplexedRead_messages hbefore hrem, readNextMultiplexFrame_data hf.1 hdata]
              have htexts : texts (f :: met) = texts met := by
                simp [texts, hdata]
              have hmessages : state.messages ++ texts (before ++ f :: met) =
                  (state.messages ++ texts before) ++ texts met := by
                rw [texts_append, htexts, List.append_assoc]
              rw [hmessages]
              have hahead : f.payload ++ ((met ++ rest).flatMap encode ++ more) =
                  ahead f.payload (met ++ rest) more := by simp [ahead]
              rw [← hahead] at hread
              exact hread
            · rcases hwhere with ⟨rfl, hle, rfl⟩ | ⟨before', g, rfl, hg⟩
              · refine ⟨before, f, rfl, hdata, List.drop_suffix _ _, ?_⟩
                rw [List.length_drop]
                omega
              · exact ⟨before ++ f :: before', g, by simp, hg⟩
      · -- inside a payload: what is left of it, then the rest of the read
        have hpos : 0 < head.length := List.length_pos_iff.mpr hhead
        generalize hlen : min head.length (n + 1) = readLen
        have hle : readLen ≤ head.length := by omega
        have hsplit : unread (head.drop readLen) frames = (unread head frames).drop readLen :=
          (List.drop_append_of_le_length hle).symm
        have hahead : ahead head frames more = head ++ (frames.flatMap encode ++ more) :=
          List.append_assoc _ _ _
        have hahead' : ahead (head.drop readLen) frames more =
            head.drop readLen ++ (frames.flatMap encode ++ more) := List.append_assoc _ _ _
        obtain ⟨met, rest, head', rfl, hread, hunread, hwhere⟩ :=
          @multiplexedRead_unread more fuel (n + 1 - readLen)
            ⟨head.length - readLen, state.messages⟩ (head.drop readLen) frames
            (by rw [List.length_drop]) hframes
            (by rw [hahead] at hfuel; rw [hahead']; simp only [List.length_append,
              List.length_drop] at hfuel ⊢; omega)
            (by rw [hsplit, List.length_drop]; omega)
        refine ⟨met, rest, head', rfl, ?_, ?_, ?_⟩
        · rw [hahead, multiplexedRead_head hrem hpos, hlen, ← hahead', hread, hsplit]
          have htake : head.take readLen = (unread head (met ++ rest)).take readLen :=
            (List.take_append_of_le_length hle).symm
          have hn' : n + 1 = readLen + (n + 1 - readLen) := by omega
          simp only
          rw [htake, ← List.take_add, ← hn']
        · rw [hunread, hsplit, List.drop_drop]
          congr 1
          omega
        · rcases hwhere with ⟨hmet, hle', rfl⟩ | hcurrent
          · rw [List.length_drop] at hle'
            refine Or.inl ⟨hmet, by omega, ?_⟩
            rw [List.drop_drop]
            congr 1
            omega
          · exact Or.inr hcurrent

/-- A read that needs more than there is before a fatal frame fails. -/
theorem multiplexedRead_fatal (more : Bytes) {bad : MuxFrame} (hvalid : bad.Valid) (hfatal : bad.Fatal) :
    ∀ {fuel n : Nat} {state : MultiplexReadState} {head : Bytes} {frames : List MuxFrame},
    state.remaining = head.length → (∀ f ∈ frames, f.Valid ∧ ¬ f.Fatal) →
    (ahead head frames (bad.encode ++ more)).length < fuel → (unread head frames).length < n →
    ∃ e, multiplexedRead fuel n state (ahead head frames (bad.encode ++ more)) =
      some (.error e, ⟨0, state.messages ++ texts frames⟩, more)
  | 0, _, _, _, _, _, _, hfuel, _ => absurd hfuel (by omega)
  | fuel + 1, 0, _, _, _, _, _, _, hn => absurd hn (by omega)
  | fuel + 1, n + 1, state, head, frames, hrem, hframes, hfuel, hn => by
      by_cases hhead : head = []
      · subst hhead
        obtain ⟨before, rest, rfl, hbefore, hrest⟩ :=
          split_messages frames fun f hf => (hframes f hf).1
        have hlen := length_flatMap_encode before
        have hzero : state.remaining = 0 := hrem
        cases rest with
        | nil =>
            have hbad := four_le_length_encode bad
            have hahead : ahead [] (before ++ []) (bad.encode ++ more) =
                before.flatMap encode ++ (bad.encode ++ more) := by simp [ahead]
            rw [hahead] at hfuel ⊢
            simp only [List.length_append] at hfuel
            obtain ⟨k, rfl⟩ : ∃ k, fuel = before.length + (k + 1) :=
              ⟨fuel - before.length - 1, by omega⟩
            obtain ⟨e, he⟩ := @readNextMultiplexFrame_fatal bad k
              { state with messages := state.messages ++ texts before } more hvalid hfatal
            refine ⟨e, ?_⟩
            rw [multiplexedRead_messages hbefore hrem, he, List.append_nil, hzero]
        | cons f after =>
            have hf := hframes f (by simp)
            have hdata : f.isData = true := (hrest f after rfl).resolve_right hf.2
            have hahead : ahead [] (before ++ f :: after) (bad.encode ++ more) =
                before.flatMap encode ++
                  (f.encode ++ (after.flatMap encode ++ (bad.encode ++ more))) := by
              simp [ahead]
            have hflen : f.encode.length = 4 + f.payload.length := by
              rw [encode, List.length_append, leBytes_length]
            have hpayload : unread [] (before ++ f :: after) = f.payload ++ payloads after := by
              rw [unread, unread_of_messages hbefore, payloads_cons_data hdata]
              rfl
            rw [hahead] at hfuel ⊢
            rw [hpayload] at hn
            simp only [List.length_append] at hfuel
            obtain ⟨k, rfl⟩ : ∃ k, fuel = before.length + (k + 1) :=
              ⟨fuel - before.length - 1, by omega⟩
            obtain ⟨e, he⟩ := @multiplexedRead_fatal more bad hvalid hfatal (before.length + (k + 1))
              (n + 1) ⟨f.payload.length, state.messages ++ texts before⟩ f.payload after rfl
              (fun g hg => hframes g (by simp [hg]))
              (by simp only [ahead, List.length_append]; omega) hn
            have hmessages : state.messages ++ texts (before ++ f :: after) =
                (state.messages ++ texts before) ++ texts after := by
              rw [texts_append, List.append_assoc]
              simp [texts, hdata]
            have hahead' : f.payload ++ (after.flatMap encode ++ (bad.encode ++ more)) =
                ahead f.payload after (bad.encode ++ more) := by simp [ahead]
            refine ⟨e, ?_⟩
            rw [multiplexedRead_messages hbefore hrem, readNextMultiplexFrame_data hf.1 hdata,
              hmessages, hahead']
            exact he
      · -- all that is left of the payload, and then on
        have hpos : 0 < head.length := List.length_pos_iff.mpr hhead
        have hmin : min head.length (n + 1) = head.length := by
          rw [unread, List.length_append] at hn
          omega
        have hahead : ahead head frames (bad.encode ++ more) =
            head ++ (frames.flatMap encode ++ (bad.encode ++ more)) := List.append_assoc _ _ _
        obtain ⟨e, he⟩ := @multiplexedRead_fatal more bad hvalid hfatal fuel (n + 1 - head.length)
          ⟨0, state.messages⟩ [] frames rfl hframes
          (by
            rw [hahead] at hfuel
            simp only [ahead, List.nil_append, List.length_append] at hfuel ⊢
            omega)
          (by
            simp only [unread, List.nil_append, List.length_append] at hn ⊢
            omega)
        refine ⟨e, ?_⟩
        rw [hahead, multiplexedRead_head hrem hpos, hmin, Nat.sub_self, List.drop_length]
        have hahead' : [] ++ (frames.flatMap encode ++ (bad.encode ++ more)) =
            ahead [] frames (bad.encode ++ more) := by simp [ahead]
        rw [hahead', he]

/-- The frames before the first fatal one, if there is one. -/
theorem split_fatal : ∀ frames : List MuxFrame, (∀ f ∈ frames, f.Valid) →
    ∃ good rest, frames = good ++ rest ∧ (∀ f ∈ good, f.Valid ∧ ¬ f.Fatal) ∧
      ∀ f after, rest = f :: after → f.Valid ∧ f.Fatal
  | [], _ => ⟨[], [], rfl, by simp, by simp⟩
  | f :: frames, h => by
      obtain ⟨good, rest, rfl, hgood, hrest⟩ :=
        split_fatal frames fun g hg => h g (List.mem_cons_of_mem f hg)
      by_cases hf : f.Fatal
      · refine ⟨[], f :: (good ++ rest), rfl, by simp, fun g after hg => ?_⟩
        rw [← (List.cons.inj hg).1]
        exact ⟨h f (by simp), hf⟩
      · refine ⟨f :: good, rest, rfl, fun g hg => ?_, hrest⟩
        rcases List.mem_cons.mp hg with rfl | hg
        · exact ⟨h g (by simp), hf⟩
        · exact hgood g hg

/-- Of whatever frames, only payload is returned. -/
theorem multiplexedRead_payload {n : Nat} {state state' : MultiplexReadState} {head raw bs : Bytes}
    {frames : List MuxFrame} (hrem : state.remaining = head.length)
    (hvalid : ∀ f ∈ frames, f.Valid)
    (h : multiplexedRead ((ahead head frames []).length + 1) n state (ahead head frames []) =
      some (.ok bs, state', raw)) :
    ∃ rest head', (∀ f ∈ rest, f.Valid) ∧ state'.remaining = head'.length ∧
      raw = ahead head' rest [] ∧ unread head frames = bs ++ unread head' rest := by
  obtain ⟨good, tail, rfl, hgood, htail⟩ := split_fatal frames hvalid
  have hahead : ahead head (good ++ tail) [] = ahead head good (tail.flatMap encode) := by
    simp [ahead]
  by_cases hn : n ≤ (unread head good).length
  · obtain ⟨met, rest, head', rfl, hread, hunread, -⟩ :=
      multiplexedRead_unread (tail.flatMap encode) hrem hgood
        (Nat.lt_succ_self _) hn
    rw [hahead, hread] at h
    simp only [Option.some.injEq, Prod.mk.injEq, Except.ok.injEq] at h
    obtain ⟨rfl, rfl, rfl⟩ := h
    refine ⟨rest ++ tail, head', fun f hf => ?_, rfl, by simp [ahead], ?_⟩
    · exact hvalid f (by
        rcases List.mem_append.mp hf with hf | hf
        · simp [hf]
        · simp [hf])
    · have hsplit : ∀ (x : Bytes) (fs : List MuxFrame),
          unread x (fs ++ tail) = unread x fs ++ payloads tail := by
        intro x fs
        rw [unread, payloads_append, unread, List.append_assoc]
      rw [hsplit, hsplit, hunread, ← List.append_assoc, List.take_append_drop]
  · -- a fatal frame, there or put after the end, would have been met first
    have hbad : ∃ (bad : MuxFrame) (after more : Bytes), bad.Valid ∧ bad.Fatal ∧
        ahead head (good ++ tail) [] ++ more = ahead head good (bad.encode ++ after) := by
      cases tail with
      | nil =>
          refine ⟨⟨0, []⟩, [], encode ⟨0, []⟩, ⟨by decide, by decide⟩, by decide, ?_⟩
          simp [ahead]
      | cons bad after =>
          obtain ⟨hv, hf⟩ := htail bad after rfl
          exact ⟨bad, after.flatMap encode, [], hv, hf, by simp [ahead]⟩
    obtain ⟨bad, after, more', hv, hf, hraw⟩ := hbad
    have happend := @multiplexedRead_append more' _
      ((ahead head good (bad.encode ++ after)).length + 1) n _ _ _ _ _ (by
        rw [← hraw, List.length_append]
        omega) h
    obtain ⟨e, he⟩ := @multiplexedRead_fatal after bad hv hf _ n _ head good hrem hgood
      (Nat.lt_succ_self _) (by omega)
    rw [hraw, he] at happend
    cases happend

end Read

/-! ## Runs of reads -/

/-- One read after the other, each by a reader of its own on the same state. -/
def MuxState.reads : List Nat → MuxState → Option (Except Error Bytes × MuxState)
  | [], l => some (.ok [], l)
  | n :: ns, l =>
      match l.pull n with
      | some (.ok bs, l) =>
          match reads ns l with
          | some (.ok more, l) => some (.ok (bs ++ more), l)
          | other => other
      | other => other

/-- The link after the frames `met` of a stream that began with `messages`
noted: `head` is left of the last of them, and `rest` is to come. -/
structure Stands (messages : List Bytes) (met : List MuxFrame) (head : Bytes)
    (rest : List MuxFrame) (more : Bytes) (l : MuxState) : Prop where
  remaining : l.reader.remaining = head.length
  noted : l.reader.messages = messages ++ texts met
  raw : l.raw = ahead head rest more
  current : met = [] ∧ head = [] ∨ Current met head

section Runs

variable {messages : List Bytes} {met rest : List MuxFrame} {head more : Bytes} {l : MuxState}

theorem Current.drop (h : Current met head) (n : Nat) : Current met (head.drop n) := by
  obtain ⟨before, f, hmet, hdata, hsuffix, hlt⟩ := h
  refine ⟨before, f, hmet, hdata, (List.drop_suffix n head).trans hsuffix, ?_⟩
  rw [List.length_drop]
  omega

theorem Stands.pull (h : Stands messages met head rest more l)
    (hframes : ∀ f ∈ rest, f.Valid ∧ ¬ f.Fatal) {n : Nat} (hn : n ≤ (unread head rest).length) :
    ∃ l' passed rest' head', rest = passed ++ rest' ∧
      l.pull n = some (.ok ((unread head rest).take n), l') ∧
      Stands messages (met ++ passed) head' rest' more l' ∧
      unread head' rest' = (unread head rest).drop n := by
  obtain ⟨passed, rest', head', rfl, hread, hunread, hwhere⟩ :=
    multiplexedRead_unread more h.remaining hframes (Nat.lt_succ_self _) hn
  refine ⟨{ l with reader := ⟨head'.length, l.reader.messages ++ texts passed⟩
                   raw := ahead head' rest' more }, passed, rest', head', rfl, ?_, ?_, hunread⟩
  · unfold MuxState.pull
    rw [h.raw, hread]
  · constructor
    case remaining => rfl
    case noted =>
      show l.reader.messages ++ texts passed = _
      rw [h.noted, texts_append, List.append_assoc]
    case raw => rfl
    case current =>
      rcases hwhere with ⟨rfl, -, rfl⟩ | ⟨before, f, rfl, hf⟩
      · rw [List.append_nil]
        rcases h.current with ⟨hmet, rfl⟩ | hcurrent
        · exact Or.inl ⟨hmet, List.drop_nil⟩
        · exact Or.inr (hcurrent.drop n)
      · exact Or.inr ⟨met ++ before, f, by simp, hf⟩

theorem Stands.pull_fatal {bad : MuxFrame} {after : Bytes} (hvalid : bad.Valid)
    (hfatal : bad.Fatal) (h : Stands messages met head rest (bad.encode ++ after) l)
    (hframes : ∀ f ∈ rest, f.Valid ∧ ¬ f.Fatal) {n : Nat} (hn : (unread head rest).length < n) :
    ∃ e l', l.pull n = some (.error e, l') ∧
      l'.reader.messages = messages ++ texts (met ++ rest) := by
  obtain ⟨e, he⟩ := multiplexedRead_fatal after hvalid hfatal h.remaining hframes
    (Nat.lt_succ_self _) hn
  refine ⟨e, { l with reader := ⟨0, l.reader.messages ++ texts rest⟩, raw := after }, ?_, ?_⟩
  · unfold MuxState.pull
    rw [h.raw, he]
  · show l.reader.messages ++ texts rest = _
    rw [h.noted, texts_append, List.append_assoc]

/-- Induction on the reads; `Stands` is carried from one to the next. -/
theorem Stands.reads : ∀ {ns : List Nat} {met rest : List MuxFrame} {head : Bytes} {l : MuxState},
    Stands messages met head rest more l → (∀ f ∈ rest, f.Valid ∧ ¬ f.Fatal) →
    ns.sum ≤ (unread head rest).length → ∃ l' passed rest' head', rest = passed ++ rest' ∧
      l.reads ns = some (.ok ((unread head rest).take ns.sum), l') ∧
      Stands messages (met ++ passed) head' rest' more l' ∧
      unread head' rest' = (unread head rest).drop ns.sum
  | [], met, rest, head, l, h, _, _ => by
      refine ⟨l, [], rest, head, rfl, rfl, ?_, rfl⟩
      rwa [List.append_nil]
  | n :: ns, met, rest, head, l, h, hframes, hsum => by
      rw [List.sum_cons] at hsum
      obtain ⟨l₁, passed, rest₁, head₁, rfl, hpull, hstands, hunread⟩ :=
        h.pull hframes (n := n) (by omega)
      have hsum' : ns.sum ≤ (unread head₁ rest₁).length := by
        rw [hunread, List.length_drop]
        omega
      obtain ⟨l₂, passed', rest₂, head₂, rfl, hreads, hstands', hunread'⟩ :=
        hstands.reads (fun f hf => hframes f (List.mem_append_right passed hf)) hsum'
      refine ⟨l₂, passed ++ passed', rest₂, head₂, by simp, ?_, ?_, ?_⟩
      · rw [MuxState.reads, hpull]
        simp only
        rw [hreads, hunread]
        simp only
        rw [← List.take_add, List.sum_cons]
      · rwa [← List.append_assoc]
      · rw [hunread', hunread, List.drop_drop, List.sum_cons]

/-- Of whatever frames, runs of reads return payload only. -/
theorem reads_payload : ∀ {ns : List Nat} {frames : List MuxFrame} {head : Bytes} {l l' : MuxState}
    {bs : Bytes}, l.reader.remaining = head.length → l.raw = ahead head frames [] →
    (∀ f ∈ frames, f.Valid) → l.reads ns = some (.ok bs, l') → bs <+: unread head frames
  | [], frames, head, l, l', bs, _, _, _, h => by
      simp only [MuxState.reads, Option.some.injEq, Prod.mk.injEq, Except.ok.injEq] at h
      rw [← h.1]
      exact List.nil_prefix
  | n :: ns, frames, head, l, l', bs, hrem, hraw, hvalid, h => by
      rw [MuxState.reads] at h
      cases hpull : l.pull n with
      | none =>
          rw [hpull] at h
          cases h
      | some res =>
          obtain ⟨res, l₁⟩ := res
          rw [hpull] at h
          cases res with
          | error e => cases h
          | ok bs₁ =>
              simp only at h
              unfold MuxState.pull at hpull
              rw [hraw] at hpull
              cases hread : multiplexedRead ((ahead head frames []).length + 1) n l.reader
                  (ahead head frames []) with
              | none =>
                  rw [hread] at hpull
                  dsimp only at hpull
                  split at hpull
                  · cases hpull
                  · cases hpull
              | some out =>
                  obtain ⟨r, reader, raw⟩ := out
                  rw [hread] at hpull
                  simp only [Option.some.injEq, Prod.mk.injEq] at hpull
                  obtain ⟨rfl, rfl⟩ := hpull
                  obtain ⟨rest, head₁, hrest, hrem₁, hraw₁, hunread⟩ :=
                    multiplexedRead_payload hrem hvalid hread
                  cases hreads : MuxState.reads ns { l with reader, raw } with
                  | none =>
                      rw [hreads] at h
                      cases h
                  | some out =>
                      obtain ⟨r, l₂⟩ := out
                      rw [hreads] at h
                      cases r with
                      | error e => cases h
                      | ok bs₂ =>
                          simp only [Option.some.injEq, Prod.mk.injEq, Except.ok.injEq] at h
                          have hprefix := reads_payload hrem₁ hraw₁ hrest hreads
                          rw [← h.1, hunread]
                          exact (List.prefix_append_right_inj bs₁).mpr hprefix

end Runs

/-! ## From the writer to the reads -/

def dataFrames (chunks : List Bytes) : List MuxFrame :=
  chunks.map fun chunk => ⟨rsyncMultiplexDataTag, chunk⟩

/-- The frames of a sequence of calls. -/
def writtenFrames (frameSize : Nat) (bufs : List Bytes) : List MuxFrame :=
  dataFrames (bufs.flatMap (chunks frameSize))

/-- `frames` are the written ones with empty data frames and harmless messages between. -/
structure Inserted (written frames : List MuxFrame) : Prop where
  harmless : ∀ f ∈ frames, f.Valid ∧ ¬ f.Fatal
  carried : (frames.filter fun f => f.isData && f.payload ≠ []) = written

theorem payloads_dataFrames (chunks : List Bytes) : payloads (dataFrames chunks) = chunks.flatten := by
  induction chunks with
  | nil => rfl
  | cons chunk chunks ih =>
      have hcons : dataFrames (chunk :: chunks) =
          ⟨rsyncMultiplexDataTag, chunk⟩ :: dataFrames chunks := rfl
      rw [hcons, payloads_cons_data (by simp [isData]), ih, List.flatten_cons]

theorem payloads_carried : ∀ frames : List MuxFrame,
    payloads (frames.filter fun f => f.isData && f.payload ≠ []) = payloads frames
  | [] => rfl
  | f :: frames => by
      have ih := payloads_carried frames
      by_cases hdata : f.isData = true
      · by_cases hpayload : f.payload = []
        · rw [List.filter_cons_of_neg (by simp [hpayload]), ih, payloads_cons_data hdata, hpayload]
          rfl
        · rw [List.filter_cons_of_pos (by simp [hdata, hpayload]), payloads_cons_data hdata, ih,
            payloads_cons_data hdata]
      · have hskip : payloads (f :: frames) = payloads frames := by simp [payloads, hdata]
        rw [List.filter_cons_of_neg (by simp [hdata]), ih, hskip]

theorem Inserted.payloads {frameSize : Nat} (hpos : 0 < frameSize) {bufs : List Bytes}
    {frames : List MuxFrame} (h : Inserted (writtenFrames frameSize bufs) frames) :
    unread [] frames = bufs.flatten := by
  have hflatten : (bufs.flatMap (chunks frameSize)).flatten = bufs.flatten := by
    clear h
    induction bufs with
    | nil => rfl
    | cons buf bufs ih =>
        rw [List.flatMap_cons, List.flatten_append, flatten_chunks hpos, List.flatten_cons]
        exact congrArg _ ih
  rw [unread, List.nil_append, ← payloads_carried, h.carried, writtenFrames, payloads_dataFrames,
    hflatten]

namespace MultiplexedWriter

theorem writes_writeDataFrame {payload : Bytes} (h : payload.length ≤ 0x00ffffff) :
    ∃ cs, Writes (writeDataFrame payload) cs () ∧
      cs.flatten = encode ⟨rsyncMultiplexDataTag, payload⟩ := by
  refine ⟨[leBytes 4 (rsyncMultiplexDataTag * 2 ^ 24 + payload.length), payload], ?_, ?_⟩
  · unfold writeDataFrame
    rw [if_neg (by omega)]
    exact (writes_writeAll _).bind (writes_writeAll payload)
  · simp [encode]

theorem writes_writeDataFrames : ∀ {payloads : List Bytes},
    (∀ payload ∈ payloads, payload.length ≤ 0x00ffffff) →
    ∃ cs, Writes (payloads.forM writeDataFrame) cs () ∧
      cs.flatten = (dataFrames payloads).flatMap encode
  | [], _ => ⟨[], writes_ret (), rfl⟩
  | payload :: payloads, h => by
      obtain ⟨cs, hwrites, hcs⟩ := writes_writeDataFrame (h payload (by simp))
      obtain ⟨ds, hwrites', hds⟩ := writes_writeDataFrames
        fun p hp => h p (List.mem_cons_of_mem payload hp)
      refine ⟨cs ++ ds, ?_, ?_⟩
      · exact hwrites.bind hwrites'
      · rw [List.flatten_append, hcs, hds]
        rfl

theorem writes_write {frameSize : Nat} (hpos : 0 < frameSize) (hle : frameSize ≤ 0x00ffffff)
    (buf : Bytes) : ∃ cs, Writes (write frameSize buf) cs buf.length ∧
      cs.flatten = (dataFrames (chunks frameSize buf)).flatMap encode := by
  unfold write
  by_cases hnil : buf = []
  · rw [if_pos hnil, hnil]
    exact ⟨[], writes_ret 0, rfl⟩
  · obtain ⟨cs, hwrites, hcs⟩ := @writes_writeDataFrames (chunks frameSize buf) fun chunk hchunk =>
      Nat.le_trans (length_of_mem_chunks hpos hchunk).2 hle
    rw [if_neg hnil, if_neg (by omega)]
    exact ⟨cs, hwrites.bind_ret rfl, hcs⟩

theorem writes_calls {frameSize : Nat} (hpos : 0 < frameSize) (hle : frameSize ≤ 0x00ffffff) :
    ∀ bufs : List Bytes, ∃ cs, Writes (bufs.mapM (write frameSize)) cs (bufs.map List.length) ∧
      cs.flatten = (writtenFrames frameSize bufs).flatMap encode
  | [] => ⟨[], by rw [List.mapM_nil]; exact writes_ret [], rfl⟩
  | buf :: bufs => by
      obtain ⟨cs, hwrites, hcs⟩ := writes_write hpos hle buf
      obtain ⟨ds, hwrites', hds⟩ := writes_calls hpos hle bufs
      refine ⟨cs ++ ds, ?_, ?_⟩
      · rw [List.mapM_cons, List.map_cons]
        exact hwrites.bind (hwrites'.bind_ret rfl)
      · rw [List.flatten_append, hcs, hds]
        simp [writtenFrames, dataFrames]

end MultiplexedWriter

/-- Whatever the calls of the writer, the frames put between theirs and the reads:
the reads return the written bytes, the messages met are noted in order, a fatal
frame fails the read that needs it, and nothing but payload is ever returned. -/
theorem multiplex_delivers {frameSize : Nat} (hpos : 0 < frameSize)
    (hle : frameSize ≤ 0x00ffffff) (bufs : List Bytes) :
    (∃ cs, Writes (bufs.mapM (MultiplexedWriter.write frameSize)) cs (bufs.map List.length) ∧
      cs.flatten = (writtenFrames frameSize bufs).flatMap encode) ∧
    (∀ frames, Inserted (writtenFrames frameSize bufs) frames → ∀ (more : Bytes) (l : MuxState),
      l.reader.remaining = 0 → l.raw = frames.flatMap encode ++ more →
      ∀ ns : List Nat, ns.sum ≤ bufs.flatten.length → ∃ l' met rest head, frames = met ++ rest ∧
        l.reads ns = some (.ok (bufs.flatten.take ns.sum), l') ∧
        Stands l.reader.messages met head rest more l' ∧
        unread head rest = bufs.flatten.drop ns.sum ∧
        ∀ (bad : MuxFrame) (after : Bytes) (n : Nat), bad.Valid → bad.Fatal → more = bad.encode ++ after →
          bufs.flatten.length < ns.sum + n → ∃ e l'', l'.pull n = some (.error e, l'') ∧
            l''.reader.messages = l.reader.messages ++ texts frames) ∧
    ∀ (frames : List MuxFrame) (l l' : MuxState) (ns : List Nat) (bs : Bytes),
      l.reader.remaining = 0 → l.raw = frames.flatMap encode → (∀ f ∈ frames, f.Valid) →
      l.reads ns = some (.ok bs, l') → bs <+: payloads frames := by
  refine ⟨MultiplexedWriter.writes_calls hpos hle bufs, ?_, ?_⟩
  · intro frames hinserted more l hrem hraw ns hsum
    have hunread := hinserted.payloads hpos
    have hstart : Stands l.reader.messages [] [] frames more l :=
      ⟨hrem, by simp [texts], by rw [hraw]; rfl, Or.inl ⟨rfl, rfl⟩⟩
    rw [← hunread] at hsum ⊢
    obtain ⟨l', met, rest, head, rfl, hreads, hstands, hrest⟩ :=
      hstart.reads hinserted.harmless hsum
    have hharmless : ∀ f ∈ rest, f.Valid ∧ ¬ f.Fatal := fun f hf =>
      hinserted.harmless f (List.mem_append_right met hf)
    refine ⟨l', met, rest, head, rfl, hreads, hstands, hrest, ?_⟩
    intro bad after n hvalid hfatal hmore hn
    subst hmore
    refine hstands.pull_fatal hvalid hfatal hharmless ?_
    rw [hrest, List.length_drop]
    omega
  · intro frames l l' ns bs hrem hraw hvalid hreads
    exact @reads_payload ns frames [] l l' bs hrem (by rw [hraw]; simp [ahead]) hvalid hreads

/-- Two calls, in frames of two bytes, with a note and an empty frame between. -/
theorem multiplex_delivers_note : ∃ l',
    MuxState.reads [1, 2] ⟨{}, [⟨7, [1, 2]⟩, ⟨9, [0x6e, 0x0a]⟩, ⟨7, []⟩, ⟨7, [3]⟩].flatMap encode,
      true⟩ = some (.ok [1, 2, 3], l') := by
  obtain ⟨-, hreads, -⟩ := @multiplex_delivers 2 (by decide) (by decide) [[1, 2, 3]]
  obtain ⟨l', -, -, -, -, h, -⟩ := hreads [⟨7, [1, 2]⟩, ⟨9, [0x6e, 0x0a]⟩, ⟨7, []⟩, ⟨7, [3]⟩]
    ⟨by
      intro f hf
      simp only [List.mem_cons, List.not_mem_nil, or_false] at hf
      rcases hf with rfl | rfl | rfl | rfl
      all_goals exact ⟨⟨by decide, by decide⟩, by decide⟩, by decide⟩ []
    ⟨{}, [⟨7, [1, 2]⟩, ⟨9, [0x6e, 0x0a]⟩, ⟨7, []⟩, ⟨7, [3]⟩].flatMap encode, true⟩ rfl (by simp)
    [1, 2] (by decide)
  exact ⟨l', h⟩

end RsyncWin
