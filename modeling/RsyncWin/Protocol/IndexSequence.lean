import RsyncWin.Protocol.IoCodec

/-!
# Indices one after another (`rsync-protocol/src/io.rs`)

Writer and reader both remember the last index of either sign. A refused index is
not sent and not remembered, so the two stay in step over any sequence.
-/

namespace RsyncWin

open ByteString Codec

/-- `write_rsync_index` on its `&mut` state: the state when it returns, also with an error. -/
def writeRsyncIndexInPlace (state : RsyncIndexState) (index : Int) :
    Writer (Except Error Unit × RsyncIndexState) := do
  if index ≥ 0 then
    match checkedI32 (index - state.prevPositive) with
    | none => pure (.error (.io .invalidInput "rsync index underflow"), state)
    | some diff =>
        writeIndexNumber index diff
        pure (.ok (), { state with prevPositive := index })
  else if index = rsyncIndexDone then
    writeU8 0
    pure (.ok (), state)
  else
    match checkedI32 (-index) with
    | none => pure (.error (.io .invalidInput "rsync index overflow"), state)
    | some number =>
        match checkedI32 (number - state.prevNegative) with
        | none => pure (.error (.io .invalidInput "rsync index underflow"), state)
        | some diff =>
            writeU8 0xff
            writeIndexNumber number diff
            pure (.ok (), { state with prevNegative := number })

theorem writeRsyncIndex_eq (state : RsyncIndexState) (index : Int) :
    writeRsyncIndex state index =
      writeRsyncIndexInPlace state index >>= fun step =>
        Prog.ofExcept (step.1.map fun _ => step.2) := by
  unfold writeRsyncIndex writeRsyncIndexInPlace
  by_cases hpos : index ≥ 0
  · simp only [if_pos hpos]
    cases checkedI32 (index - state.prevPositive) with
    | none => rfl
    | some diff =>
        dsimp only
        rw [Prog.bind_assoc]
        rfl
  · simp only [if_neg hpos]
    by_cases hdone : index = rsyncIndexDone
    · simp only [if_pos hdone]
      rw [Prog.bind_assoc]
      rfl
    · simp only [if_neg hdone]
      cases checkedI32 (-index) with
      | none => rfl
      | some number =>
          dsimp only
          cases checkedI32 (number - state.prevNegative) with
          | none => rfl
          | some diff =>
              dsimp only
              rw [Prog.bind_assoc]
              refine congrArg _ (funext fun _ => ?_)
              rw [Prog.bind_assoc]
              rfl

/-! ## One index -/

/-- What the two running values can be. -/
structure RsyncIndexState.InRange (state : RsyncIndexState) : Prop where
  positive : -1 ≤ state.prevPositive
  positive_le : state.prevPositive ≤ i32Max
  negative : 1 ≤ state.prevNegative
  negative_le : state.prevNegative ≤ i32Max

/-- The two indices that have no difference: `i32::MIN` has no absolute value, and
`i32::MAX` is too far from the `-1` that stands before the first index. -/
def RsyncIndexState.Refuses (state : RsyncIndexState) (index : Int) : Prop :=
  index = -2147483648 ∨ (index = 2147483647 ∧ state.prevPositive = -1)

/-- The state behind an index that was sent. -/
def RsyncIndexState.sent (state : RsyncIndexState) (index : Int) : RsyncIndexState :=
  if index ≥ 0 then { state with prevPositive := index }
  else if index = rsyncIndexDone then state
  else { state with prevNegative := -index }

variable {state : RsyncIndexState} {index : Int}

theorem RsyncIndexState.InRange.sent (h : state.InRange) (hindex : IsI32 index)
    (hrefuses : ¬ state.Refuses index) : (state.sent index).InRange := by
  obtain ⟨hp, hp', hn, hn'⟩ := h
  obtain ⟨hlo, hhi⟩ := hindex
  have hmax : (i32Max : Int) = 2147483647 := rfl
  unfold RsyncIndexState.Refuses at hrefuses
  unfold RsyncIndexState.sent
  by_cases hpos : index ≥ 0
  · rw [if_pos hpos]
    exact ⟨by dsimp only; omega, by dsimp only; omega, hn, hn'⟩
  · rw [if_neg hpos]
    by_cases hdone : index = rsyncIndexDone
    · rw [if_pos hdone]
      exact ⟨hp, hp', hn, hn'⟩
    · rw [if_neg hdone]
      exact ⟨hp, hp', by dsimp only; omega, by dsimp only; omega⟩

theorem checkedI32_of_gt {v : Int} (h : v > 2147483647) : checkedI32 v = none :=
  if_neg fun hv => absurd hv.2 (by omega)

/-- A refused index is an error without a write. -/
theorem writeRsyncIndexInPlace_refused (h : state.Refuses index) :
    ∃ e, writeRsyncIndexInPlace state index = pure (.error e, state) := by
  unfold writeRsyncIndexInPlace
  rcases h with rfl | ⟨rfl, hprev⟩
  · exact ⟨_, rfl⟩
  · rw [if_pos (by decide), hprev, checkedI32_of_gt (by decide)]
    exact ⟨_, rfl⟩

/-- Any other index is sent, and the reader that is in the same state takes it back and goes on
to the same state. -/
theorem writeRsyncIndexInPlace_sent (hstate : state.InRange) (hindex : IsI32 index)
    (hrefuses : ¬ state.Refuses index) :
    RoundTrips (writeRsyncIndexInPlace state index) (.ok (), state.sent index)
      (readRsyncIndex state) (index, state.sent index) := by
  obtain ⟨hp, hp', hn, hn'⟩ := hstate
  obtain ⟨hlo, hhi⟩ := hindex
  have hmax : (i32Max : Int) = 2147483647 := rfl
  unfold RsyncIndexState.Refuses at hrefuses
  unfold writeRsyncIndexInPlace RsyncIndexState.sent
  by_cases hpos : index ≥ 0
  · have hdiff : checkedI32 (index - state.prevPositive) = some (index - state.prevPositive) :=
      checkedI32_of_le (by omega) (by omega)
    obtain ⟨first, cs, hw, hff, h0, hr⟩ :=
      roundTrips_indexNumber state.prevPositive hpos (by omega)
    simp only [if_pos hpos, hdiff]
    refine ⟨[first] :: cs, hw.bind_ret rfl, ?_⟩
    refine (decodes_readU8 first).bind ?_
    simp only [if_neg hff, if_neg h0]
    exact hr.bind_ret rfl
  · by_cases hdone : index = rsyncIndexDone
    · subst hdone
      simp only [if_neg hpos, if_true]
      exact (roundTrips_u8 0).bind (roundTrips_ret _ _)
    · have hneg : checkedI32 (-index) = some (-index) := checkedI32_of_le (by omega) (by omega)
      have hback : checkedI32 (- -index) = some index := by
        rw [Int.neg_neg]
        exact checkedI32_of_le hlo hhi
      have hdiff : checkedI32 (-index - state.prevNegative) = some (-index - state.prevNegative) :=
        checkedI32_of_le (by omega) (by omega)
      obtain ⟨first, cs, hw, -, -, hr⟩ :=
        @roundTrips_indexNumber state.prevNegative (-index) (by omega) (by omega)
      simp only [if_neg hpos, if_neg hdone, hneg, hdiff]
      refine ⟨[0xff] :: [first] :: cs, (writes_writeAll [0xff]).bind (hw.bind_ret rfl), ?_⟩
      refine (decodes_readU8 0xff).bind ?_
      simp only [if_true]
      refine (decodes_readU8 first).bind (hr.bind_ret ?_)
      simp only [hback]
      rfl

/-! ## Any number of them -/

/-- A call of `write_rsync_index`: what it was given, what it handed over, what it returned and
the state it left. -/
structure IndexStep where
  index : Int
  buffers : List Bytes
  result : Except Error Unit
  state : RsyncIndexState

inductive IndexRun : RsyncIndexState → List IndexStep → Prop
  | nil {state : RsyncIndexState} : IndexRun state []
  | cons {state : RsyncIndexState} {step : IndexStep} {steps : List IndexStep} :
      Writes (writeRsyncIndexInPlace state step.index) step.buffers (step.result, step.state) →
      IndexRun step.state steps → IndexRun state (step :: steps)

/-- The state behind the last of the steps. -/
def stateBehind : RsyncIndexState → List IndexStep → RsyncIndexState
  | state, [] => state
  | _, step :: steps => stateBehind step.state steps

/-- The calls that were no error. -/
def sentSteps (steps : List IndexStep) : List IndexStep := steps.filter (·.result.isOk)

def readIndexes : RsyncIndexState → Nat → Reader (List (Int × RsyncIndexState))
  | _, 0 => pure []
  | state, count + 1 => do
      let (index, state) ← readRsyncIndex state
      let more ← readIndexes state count
      pure ((index, state) :: more)

/-- The two ways the first call can go, and what is left of the run. -/
theorem IndexRun.cons_cases {step : IndexStep} {steps : List IndexStep} (hstate : state.InRange)
    (hindex : IsI32 step.index) (h : IndexRun state (step :: steps)) :
    (state.Refuses step.index ∧ step.result.isOk = false ∧ step.buffers = [] ∧
        step.state = state ∧ IndexRun state steps) ∨
      (¬ state.Refuses step.index ∧ step.result.isOk = true ∧
        step.state = state.sent step.index ∧
        Decodes (readRsyncIndex state) step.buffers.flatten (step.index, step.state) ∧
        IndexRun step.state steps) := by
  cases h with
  | cons hwrites hrun =>
      by_cases hrefuses : state.Refuses step.index
      · obtain ⟨e, he⟩ := writeRsyncIndexInPlace_refused hrefuses
        have hrun' := hwrites []
        rw [he] at hrun'
        injection hrun' with hret hbuffers
        obtain ⟨hresult, hstep⟩ := Prod.mk.inj hret
        refine Or.inl ⟨hrefuses, by rw [← hresult]; rfl, hbuffers.symm, hstep.symm, ?_⟩
        rw [hstep]
        exact hrun
      · obtain ⟨cs, hcs, hr⟩ := writeRsyncIndexInPlace_sent hstate hindex hrefuses
        have hrun' := hwrites []
        rw [hcs []] at hrun'
        injection hrun' with hret hbuffers
        obtain ⟨hresult, hstep⟩ := Prod.mk.inj hret
        rw [List.nil_append, List.nil_append] at hbuffers
        refine Or.inr ⟨hrefuses, by rw [← hresult]; rfl, hstep.symm, ?_, hrun⟩
        rw [← hbuffers, ← hstep]
        exact hr

theorem exists_indexRun (state : RsyncIndexState) (hstate : state.InRange) (indexes : List Int)
    (hindexes : ∀ index ∈ indexes, IsI32 index) :
    ∃ steps, IndexRun state steps ∧ steps.map (·.index) = indexes := by
  induction indexes generalizing state with
  | nil => exact ⟨[], .nil, rfl⟩
  | cons index indexes ih =>
      obtain ⟨hindex, hindexes⟩ := List.forall_mem_cons.mp hindexes
      by_cases hrefuses : state.Refuses index
      · obtain ⟨e, he⟩ := writeRsyncIndexInPlace_refused hrefuses
        obtain ⟨steps, hrun, rfl⟩ := ih state hstate hindexes
        refine ⟨⟨index, [], .error e, state⟩ :: steps, .cons ?_ hrun, rfl⟩
        dsimp only
        rw [he]
        exact writes_ret _
      · obtain ⟨cs, hcs, -⟩ := writeRsyncIndexInPlace_sent hstate hindex hrefuses
        obtain ⟨steps, hrun, rfl⟩ := ih _ (hstate.sent hindex hrefuses) hindexes
        exact ⟨⟨index, cs, .ok (), state.sent index⟩ :: steps, .cons hcs hrun, rfl⟩

/-- Over a run the reader goes through the states of the writer. -/
theorem IndexRun.decodes {steps : List IndexStep} (hstate : state.InRange)
    (hindexes : ∀ step ∈ steps, IsI32 step.index) (h : IndexRun state steps) :
    Decodes (readIndexes state (sentSteps steps).length)
      ((sentSteps steps).flatMap (·.buffers)).flatten
      ((sentSteps steps).map fun step => (step.index, step.state)) := by
  induction steps generalizing state with
  | nil => exact decodes_ret _
  | cons step steps ih =>
      obtain ⟨hindex, hindexes⟩ := List.forall_mem_cons.mp hindexes
      rcases h.cons_cases hstate hindex with
        ⟨-, hok, -, -, hrun⟩ | ⟨hrefuses, hok, hsent, hread, hrun⟩
      · have hskip : sentSteps (step :: steps) = sentSteps steps :=
          List.filter_cons_of_neg (by rw [hok]; decide)
        rw [hskip]
        exact ih hstate hindexes hrun
      · have hkeep : sentSteps (step :: steps) = step :: sentSteps steps :=
          List.filter_cons_of_pos hok
        rw [hkeep, List.length_cons, List.flatMap_cons, List.flatten_append, List.map_cons]
        have hstate' : step.state.InRange := by
          rw [hsent]
          exact hstate.sent hindex hrefuses
        refine hread.bind ?_
        exact (ih hstate' hindexes hrun).bind_ret rfl

theorem sent_prevPositive_eq (hindex : index < 0) :
    (state.sent index).prevPositive = state.prevPositive := by
  unfold RsyncIndexState.sent
  rw [if_neg (by omega)]
  split <;> rfl

/-- Which calls are refused, and what a refused one leaves. -/
theorem IndexRun.refused_iff {steps : List IndexStep} (hstate : state.InRange)
    (hindexes : ∀ step ∈ steps, IsI32 step.index) (h : IndexRun state steps)
    {before after : List IndexStep} {step : IndexStep} (hsplit : steps = before ++ step :: after) :
    (step.result.isOk = false ↔ step.index = -2147483648 ∨
      (step.index = 2147483647 ∧ state.prevPositive = -1 ∧
        ∀ earlier ∈ sentSteps before, earlier.index < 0)) ∧
    (step.result.isOk = false → step.buffers = [] ∧ step.state = stateBehind state before) := by
  induction before generalizing state steps with
  | nil =>
      subst hsplit
      rcases h.cons_cases hstate (hindexes step (by simp)) with
        ⟨hrefuses, hok, hbuffers, hsame, -⟩ | ⟨hrefuses, hok, -⟩
      · exact ⟨⟨fun _ => hrefuses.imp_right fun hmax => ⟨hmax.1, hmax.2, by simp [sentSteps]⟩,
          fun _ => hok⟩, fun _ => ⟨hbuffers, hsame⟩⟩
      · refine ⟨⟨fun hno => ?_, fun hmin => ?_⟩, fun hno => ?_⟩
        · rw [hok] at hno
          cases hno
        · exact absurd (hmin.imp_right fun hmax => ⟨hmax.1, hmax.2.1⟩) hrefuses
        · rw [hok] at hno
          cases hno
  | cons head before ih =>
      subst hsplit
      rw [List.cons_append] at hindexes h
      obtain ⟨hhead, hindexes⟩ := List.forall_mem_cons.mp hindexes
      rcases h.cons_cases hstate hhead with
        ⟨-, hok, -, hsame, hrun⟩ | ⟨hrefuses, hok, hsent, -, hrun⟩
      · have hskip : sentSteps (head :: before) = sentSteps before :=
          List.filter_cons_of_neg (by rw [hok]; decide)
        have hbehind : stateBehind state (head :: before) = stateBehind state before := by
          rw [stateBehind, hsame]
        rw [hskip, hbehind]
        exact ih hstate hindexes hrun rfl
      · have hkeep : sentSteps (head :: before) = head :: sentSteps before :=
          List.filter_cons_of_pos hok
        have hstate' : head.state.InRange := by
          rw [hsent]
          exact hstate.sent hhead hrefuses
        obtain ⟨hiff, hleft⟩ := ih hstate' hindexes hrun rfl
        refine ⟨hiff.trans ?_, hleft⟩
        rw [hkeep, List.forall_mem_cons]
        -- an index that was sent is remembered, so `-1` is back only if it was negative
        have hremembers : head.state.prevPositive = -1 ↔
            state.prevPositive = -1 ∧ head.index < 0 := by
          rw [hsent]
          by_cases hneg : head.index < 0
          · rw [sent_prevPositive_eq hneg]
            exact ⟨fun h => ⟨h, hneg⟩, fun h => h.1⟩
          · unfold RsyncIndexState.sent
            rw [if_pos (by omega)]
            dsimp only
            omega
        rw [hremembers]
        tauto

theorem default_inRange : ({} : RsyncIndexState).InRange :=
  ⟨by decide, by decide, by decide, by decide⟩

/-- **The index codec keeps both ends in step.** Of any indices the reader takes back exactly
those that were sent, from exactly their bytes and with the writer's state behind each; refused
are `i32::MIN` and `i32::MAX` as the first file index, without a byte or a change of the state. -/
theorem index_codec_in_step (indexes : List Int) (hindexes : ∀ index ∈ indexes, IsI32 index) :
    ∃ steps, IndexRun {} steps ∧ steps.map (·.index) = indexes ∧
      Decodes (readIndexes {} (sentSteps steps).length)
        ((sentSteps steps).flatMap (·.buffers)).flatten
        ((sentSteps steps).map fun step => (step.index, step.state)) ∧
      ∀ before step after, steps = before ++ step :: after →
        (step.result.isOk = false ↔ step.index = -2147483648 ∨
          (step.index = 2147483647 ∧ ∀ earlier ∈ sentSteps before, earlier.index < 0)) ∧
        (step.result.isOk = false → step.buffers = [] ∧ step.state = stateBehind {} before) := by
  obtain ⟨steps, hrun, hmap⟩ := exists_indexRun {} default_inRange indexes hindexes
  have hsteps : ∀ step ∈ steps, IsI32 step.index := by
    intro step hstep
    exact hindexes step.index (hmap ▸ List.mem_map_of_mem hstep)
  refine ⟨steps, hrun, hmap, hrun.decodes default_inRange hsteps, ?_⟩
  intro before step after hsplit
  obtain ⟨hiff, hleft⟩ := hrun.refused_iff default_inRange hsteps hsplit
  refine ⟨hiff.trans ?_, hleft⟩
  exact or_congr_right (and_congr_right fun _ => and_iff_right rfl)

/-- A first `i32::MAX` is refused, the same behind an index is not. -/
theorem index_codec_in_step_max :
    ∃ steps, IndexRun {} steps ∧
      steps.map (·.index) = [2147483647, 0, -5, 2147483647, -2147483648] ∧
      Decodes (readIndexes {} (sentSteps steps).length)
        ((sentSteps steps).flatMap (·.buffers)).flatten
        ((sentSteps steps).map fun step => (step.index, step.state)) ∧
      ∀ before step after, steps = before ++ step :: after →
        (step.result.isOk = false ↔ step.index = -2147483648 ∨
          (step.index = 2147483647 ∧ ∀ earlier ∈ sentSteps before, earlier.index < 0)) ∧
        (step.result.isOk = false → step.buffers = [] ∧ step.state = stateBehind {} before) :=
  index_codec_in_step [2147483647, 0, -5, 2147483647, -2147483648] (by
    unfold IsI32
    decide)

end RsyncWin
