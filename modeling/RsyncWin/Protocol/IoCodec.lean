import RsyncWin.Protocol.Io

/-!
# Round trips of the wire integers

`write_varint`/`read_varint`, `write_varlong`/`read_varlong` and the stateful
index code undo each other. The variable-length forms share one argument: the
writer drops high zero bytes, then puts the number of bytes that follow into
the leading ones of the first byte, together with the top byte of the value
when that still fits below the marker.
-/

namespace RsyncWin

open ByteString Codec

/-! ## Variable-length integers -/

/-- The part of the first byte that belongs to the value. -/
def varPayload (first : UInt8) : UInt8 :=
  if varintExtraBytes first = 0 then first
  else first &&& (bitU8 (8 - varintExtraBytes first) - 1)

theorem decodes_readVarint {first : UInt8} {mid : Bytes}
    (hlen : mid.length = varintExtraBytes first) (h4 : mid.length ≤ 4) :
    Decodes readVarint (first :: mid) (leNat ((mid ++ [varPayload first]).take 4)) := by
  have hfirst : Decodes readU8 [first] first := decodes_readU8 first
  have hsplit : first :: mid = [first] ++ mid := rfl
  rw [hsplit]
  refine hfirst.bind ?_
  have hle : ¬ varintExtraBytes first > 4 := by omega
  simp only [if_neg hle, Prog.pure_eq]
  by_cases h0 : varintExtraBytes first = 0
  · obtain rfl : mid = [] := List.length_eq_zero_iff.mp (by omega)
    simp only [if_pos h0, varPayload]
    exact decodes_ret _
  · simp only [if_neg h0, varPayload]
    exact (decodes_readExact hlen).bind_ret rfl

theorem decodes_readVarlong {minBytes : Nat} {first : UInt8} {mid : Bytes}
    (hmin : 1 ≤ minBytes) (hlen : mid.length + 1 = minBytes + varintExtraBytes first)
    (h8 : mid.length + 1 ≤ 8) :
    Decodes (readVarlong minBytes) (first :: mid) (leNat (mid ++ [varPayload first])) := by
  have hcond : ¬ ¬ (1 ≤ minBytes ∧ minBytes ≤ 8) := by omega
  have hle : ¬ minBytes + varintExtraBytes first > 8 := by omega
  obtain ⟨m, rfl⟩ : ∃ m, minBytes = m + 1 := ⟨minBytes - 1, by omega⟩
  have hpref : Decodes (readExact (m + 1) : Reader Bytes) (first :: mid.take m)
      (first :: mid.take m) := decodes_readExact (by simp; omega)
  have hsplit : first :: mid = (first :: mid.take m) ++ mid.drop m := by simp
  unfold readVarlong
  simp only [if_neg hcond, Prog.pure_eq]
  rw [hsplit]
  refine hpref.bind ?_
  simp only [List.headD_cons, List.tail_cons, hle, if_false]
  by_cases h0 : varintExtraBytes first = 0
  · have hdrop : mid.drop m = [] := List.drop_eq_nil_iff.mpr (by omega)
    have htake : mid.take m = mid := List.take_of_length_le (by omega)
    simp only [if_pos h0, varPayload, hdrop, htake]
    exact decodes_ret _
  · have hmore : (mid.drop m).length = varintExtraBytes first := by
      rw [List.length_drop]
      omega
    simp only [h0, if_false, varPayload]
    refine (decodes_readExact hmore).bind_ret ?_
    rw [List.take_append_drop]

theorem bitU8_toNat {k : Nat} (h : k < 8) : (bitU8 k).toNat = 2 ^ k := by
  interval_cases k <;> rfl

/-- A marker byte alone: `e` leading ones and no payload. -/
theorem marker_extra : ∀ e : Fin 7, 1 ≤ e.val →
    varintExtraBytes (~~~(bitU8 (8 - e) - 1)) = e ∧ varPayload (~~~(bitU8 (8 - e) - 1)) = 0 := by
  decide

/-- A marker that shares its byte with the top byte of the value. -/
theorem shared_extra : ∀ e : Fin 7, 1 ≤ e.val → ∀ top : Fin (2 ^ (7 - e.val)),
    varintExtraBytes (UInt8.ofNat top ||| ~~~(bitU8 (7 - e) * 2 - 1)) = e ∧
      varPayload (UInt8.ofNat top ||| ~~~(bitU8 (7 - e) * 2 - 1)) = UInt8.ofNat top := by
  decide

theorem plain_extra : ∀ top : Fin 128,
    varintExtraBytes (UInt8.ofNat top) = 0 ∧ varPayload (UInt8.ofNat top) = UInt8.ofNat top := by
  decide

/-- Trimming keeps the value: the bytes dropped are zero. -/
theorem trimCount_spec {n w minBytes start : Nat} (hw : start ≤ w) (hn : n < 256 ^ start)
    (hmin : minBytes ≤ start) :
    n < 256 ^ trimCount (0 :: leBytes w n) minBytes start ∧
      minBytes ≤ trimCount (0 :: leBytes w n) minBytes start := by
  induction start with
  | zero => exact ⟨hn, hmin⟩
  | succ k ih =>
      unfold trimCount
      split
      · rename_i hdrop
        have hbyte : UInt8.ofNat (n / 256 ^ k) = 0 := by
          rw [← leBytes_getD n (show k < w by omega)]
          exact hdrop.2
        have hmod : n / 256 ^ k % 256 = 0 := by
          have h := congrArg UInt8.toNat hbyte
          simpa [UInt8.toNat_ofNat'] using h
        have hlt : n / 256 ^ k < 256 := by
          rw [Nat.div_lt_iff_lt_mul (by positivity), Nat.mul_comm, ← pow_succ]
          exact hn
        have hk : n < 256 ^ k := by
          have h0 : n / 256 ^ k = 0 := by rw [← Nat.mod_eq_of_lt hlt, hmod]
          exact (Nat.div_eq_zero_iff.mp h0).resolve_left (by positivity)
        exact ih (by omega) hk (by omega)
      · exact ⟨hn, hmin⟩

theorem trimCount_le_start (bytes : Bytes) (minBytes start : Nat) :
    trimCount bytes minBytes start ≤ start := by
  induction start with
  | zero => exact Nat.le_refl 0
  | succ k ih =>
      unfold trimCount
      split
      · omega
      · exact Nat.le_refl _

theorem trimCount_le {n w minBytes start c : Nat} (hw : start ≤ w) (hn : n < 256 ^ c)
    (hmin : minBytes ≤ c) (hc : c ≤ start) :
    trimCount (0 :: leBytes w n) minBytes start ≤ c := by
  induction start with
  | zero => simp [trimCount]
  | succ k ih =>
      unfold trimCount
      split
      · by_cases hck : c ≤ k
        · exact ih (by omega) hck
        · have hk := trimCount_le_start (0 :: leBytes w n) minBytes k
          omega
      · rename_i hkeep
        by_contra hlt
        refine hkeep ⟨by omega, ?_⟩
        have hdiv : n / 256 ^ k = 0 :=
          Nat.div_eq_of_lt (hn.trans_le (Nat.pow_le_pow_right (by norm_num) (by omega)))
        rw [List.getD_cons_succ, leBytes_getD n (show k < w by omega), hdiv]
        rfl

/-- What the variable-length writers put out: `count` value bytes are kept, and
the first byte says how many follow. -/
theorem writes_writeVarBytes {n w minBytes c : Nat} (hmin : 1 ≤ minBytes) (hc7 : c ≤ 7)
    (hminc : minBytes ≤ c) (hcw : c ≤ w) (hextra : c + 1 ≤ minBytes + 6) (hn : n < 256 ^ c) :
    ∃ first mid, Writes (writeVarBytes (0 :: leBytes w n) w minBytes) [first :: mid] () ∧
      mid.length + 1 = minBytes + varintExtraBytes first ∧ mid.length ≤ c ∧
      leNat (mid ++ [varPayload first]) = n := by
  have hle := trimCount_le (le_refl w) hn hminc hcw
  obtain ⟨hlt, hge⟩ := trimCount_spec (le_refl w)
    (hn.trans_le (Nat.pow_le_pow_right (by norm_num) hcw)) (hminc.trans hcw)
  unfold writeVarBytes
  generalize trimCount (0 :: leBytes w n) minBytes w = count at hle hlt hge ⊢
  obtain ⟨k, rfl⟩ : ∃ k, count = k + 1 := ⟨count - 1, by omega⟩
  have htop : (0 :: leBytes w n).getD (k + 1) 0 = UInt8.ofNat (n / 256 ^ k) := by
    rw [List.getD_cons_succ, leBytes_getD n (by omega)]
  have hall : leBytes (k + 1) n = leBytes k n ++ [UInt8.ofNat (n / 256 ^ k)] :=
    leBytes_succ_last k n
  have hval : leNat (leBytes (k + 1) n) = n := by
    rw [leNat_leBytes, Nat.mod_eq_of_lt hlt]
  have htake : ∀ (x : UInt8) (j : Nat), j ≤ w →
      ((0 :: leBytes w n).set 0 x).take (j + 1) = x :: leBytes j n := by
    intro x j hj
    rw [List.set_cons_zero, List.take_succ_cons, leBytes_take n hj]
  have hsub : usizeSub 7 (k + 1) = (.ret (7 - (k + 1)) : Writer Nat) := by
    rw [usizeSub, if_pos (by omega)]
    rfl
  simp only [hsub, Prog.ret_bind, htop]
  set top := UInt8.ofNat (n / 256 ^ k)
  by_cases hbit : bitU8 (7 - (k + 1) + minBytes) ≤ top
  · -- the marker takes a byte of its own
    have he : 7 - (k + 1) + minBytes = 8 - (k + 2 - minBytes) := by omega
    obtain ⟨hx, hp⟩ := marker_extra ⟨k + 2 - minBytes, by omega⟩ (by simp; omega)
    simp only [hbit, if_true, htake _ _ (show k + 1 ≤ w by omega)]
    rw [he]
    refine ⟨_, _, writes_writeAll _, ?_, ?_, ?_⟩
    · rw [hx, leBytes_length]
      simp only
      omega
    · rw [leBytes_length]
      exact hle
    · rw [hp, leNat_append_zero, hval]
  · have hlttop : top.toNat < (bitU8 (7 - (k + 1) + minBytes)).toNat := by
      simpa [UInt8.le_iff_toNat_le] using hbit
    have hround : UInt8.ofNat top.toNat = top := UInt8.ofNat_toNat
    simp only [hbit, if_false, htake _ _ (show k ≤ w by omega)]
    by_cases hcm : k + 1 > minBytes
    · -- marker and top byte share the first byte
      have he : 7 - (k + 1) + minBytes = 7 - (k + 1 - minBytes) := by omega
      have hpow : (bitU8 (7 - (k + 1 - minBytes))).toNat = 2 ^ (7 - (k + 1 - minBytes)) :=
        bitU8_toNat (by omega)
      rw [he, hpow] at hlttop
      obtain ⟨hx, hp⟩ := shared_extra ⟨k + 1 - minBytes, by omega⟩ (by simp; omega)
        ⟨top.toNat, hlttop⟩
      simp only [hround] at hx hp
      simp only [hcm, if_true]
      rw [he]
      refine ⟨_, _, writes_writeAll _, ?_, ?_, ?_⟩
      · rw [hx, leBytes_length]
        omega
      · rw [leBytes_length]
        omega
      · rw [hp, ← hall, hval]
    · have he : 7 - (k + 1) + minBytes = 7 := by omega
      rw [he] at hlttop
      obtain ⟨hx, hp⟩ := plain_extra ⟨top.toNat, hlttop⟩
      simp only [hround] at hx hp
      simp only [hcm, if_false]
      refine ⟨_, _, writes_writeAll _, ?_, ?_, ?_⟩
      · rw [hx, leBytes_length]
        omega
      · rw [leBytes_length]
        omega
      · rw [hp, ← hall, hval]

theorem roundTrips_varint {n : Nat} (h : n ≤ i32Max) :
    RoundTrips (writeVarint n) () readVarint n := by
  have hn : n < 256 ^ 4 := by
    unfold i32Max at h
    omega
  obtain ⟨first, mid, hw, hlen, h4, hval⟩ := writes_writeVarBytes (n := n) (w := 4) (c := 4)
    (le_refl 1) (by norm_num) (by norm_num) (by norm_num) (by norm_num) hn
  have hguard : ¬ n > i32Max := by omega
  refine ⟨[first :: mid], ?_, ?_⟩
  · simpa only [writeVarint, hguard, if_false, Prog.pure_eq, Prog.ret_bind] using hw
  · have hd : Decodes readVarint (first :: mid) _ := decodes_readVarint (by omega) h4
    rw [leNat_take (by rw [hval]; exact hn), hval] at hd
    simpa using hd

theorem roundTrips_varlong {n minBytes : Nat} (hmin : 2 ≤ minBytes) (hmax : minBytes ≤ 7)
    (hn : n < 2 ^ 56) :
    RoundTrips (writeVarlong n minBytes) () (readVarlong minBytes) n := by
  have hn7 : n < 256 ^ 7 := by omega
  obtain ⟨first, mid, hw, hlen, h7, hval⟩ := writes_writeVarBytes (n := n) (w := 8) (c := 7)
    (by omega : 1 ≤ minBytes) (le_refl 7) hmax (by norm_num) (by omega) hn7
  have hguard : ¬ ¬ (1 ≤ minBytes ∧ minBytes ≤ 8) := by omega
  refine ⟨[first :: mid], ?_, ?_⟩
  · simpa only [writeVarlong, hguard, if_false, Prog.pure_eq, Prog.ret_bind] using hw
  · have hd := decodes_readVarlong (by omega) hlen (by omega)
    rw [hval] at hd
    simpa using hd

/-! ## File indices -/

theorem roundTrips_u8 (b : UInt8) : RoundTrips (writeU8 b) () readU8 b :=
  roundTrips_writeAll (decodes_readU8 b)

theorem roundTrips_i32Le {v : Int} (hlo : -2147483648 ≤ v) (hhi : v ≤ 2147483647) :
    RoundTrips (writeI32Le v) () readI32Le v :=
  roundTrips_writeAll (decodes_readI32Le hlo hhi)

theorem checkedI32_of_le {v : Int} (hlo : -2147483648 ≤ v) (hhi : v ≤ 2147483647) :
    checkedI32 v = some v := if_pos ⟨hlo, hhi⟩

/-- Setting the tag bit of the full form loses nothing of a byte below `0x80`. -/
theorem tagged_high : ∀ top : Fin 128,
    (UInt8.ofNat top ||| 0x80) &&& 0x80 ≠ 0 ∧
      (UInt8.ofNat top ||| 0x80) &&& ~~~0x80 = UInt8.ofNat top := by
  decide

theorem untagged_high : ∀ top : Fin 128, ¬ (UInt8.ofNat top &&& 0x80 ≠ 0) := by
  decide

/-- What follows the sign marker: the reader rebuilds the number from the same
previous one. The writer's first byte is never `0` or `0xff`, which mean
something else at that place. -/
theorem roundTrips_indexNumber (prev : Int) {number : Int}
    (hnum : 0 ≤ number) (hnum' : number ≤ i32Max) :
    ∃ first cs, Writes (writeIndexNumber number (number - prev)) ([first] :: cs) () ∧
      first ≠ 0xff ∧ first ≠ 0 ∧ Decodes (readIndexNumber prev first) cs.flatten number := by
  have hmax : (i32Max : Int) = 2147483647 := rfl
  have hchk : checkedI32 number = some number := checkedI32_of_le (by omega) (by omega)
  unfold writeIndexNumber
  by_cases hsmall : number - prev < 0xfe ∧ number - prev > 0
  · obtain ⟨d, hd⟩ : ∃ d : Nat, number - prev = d := ⟨(number - prev).toNat, by omega⟩
    have hb : (UInt8.ofNat d).toNat = d := by
      rw [UInt8.toNat_ofNat']
      omega
    have hne : ∀ m : Nat, m < 256 → d ≠ m → UInt8.ofNat d ≠ UInt8.ofNat m := by
      intro m hm hdm heq
      have h := congrArg UInt8.toNat heq
      rw [hb, UInt8.toNat_ofNat', Nat.mod_eq_of_lt hm] at h
      exact hdm h
    refine ⟨UInt8.ofNat d, [], ?_, hne 255 (by omega) (by omega), hne 0 (by omega) (by omega), ?_⟩
    · simp only [hd, Int.toNat_natCast]
      rw [if_pos (by omega)]
      exact writes_writeAll _
    · have hfe : UInt8.ofNat d ≠ 0xfe := hne 254 (by omega) (by omega)
      have hsum : prev + (d : Int) = number := by omega
      unfold readIndexNumber
      rw [if_neg hfe, hb, hsum, hchk]
      exact decodes_ret number
  · rw [if_neg hsmall]
    by_cases hfar : ¬ (0 ≤ number - prev ∧ number - prev ≤ 0x7fff)
    · -- the full number, its sign bit borrowed as a tag
      rw [if_pos hfar]
      obtain ⟨n, rfl⟩ : ∃ n : Nat, number = n := ⟨number.toNat, by omega⟩
      have hn : n < 2 ^ 31 := by omega
      have hof : ofSigned 32 (n : Int) = n := ofSigned_natCast (by omega)
      have htop : n / 256 ^ 3 < 128 := by omega
      obtain ⟨htag, hhigh⟩ := tagged_high ⟨n / 256 ^ 3, htop⟩
      simp only at htag hhigh
      refine ⟨0xfe, [[UInt8.ofNat (n / 256 ^ 3) ||| 0x80], [UInt8.ofNat (n / 256 ^ 0)],
        [UInt8.ofNat (n / 256 ^ 1)], [UInt8.ofNat (n / 256 ^ 2)]], ?_, by decide, by decide, ?_⟩
      · simp only [hof, leBytes_getD n (show 0 < 4 by omega), leBytes_getD n (show 1 < 4 by omega),
          leBytes_getD n (show 2 < 4 by omega), leBytes_getD n (show 3 < 4 by omega)]
        intro acc
        simp [writeU8, writeAll, Prog.op, Prog.run, calls]
      · have hle4 : leBytes 4 n = [UInt8.ofNat (n / 256 ^ 0)] ++ [UInt8.ofNat (n / 256 ^ 1),
            UInt8.ofNat (n / 256 ^ 2)] ++ [UInt8.ofNat (n / 256 ^ 3)] := by
          simp [leBytes, Nat.div_div_eq_div_mul]
        have hval : toSigned 32 (leNat (leBytes 4 n)) = n := by
          rw [leNat_leBytes, Nat.mod_eq_of_lt (by omega), toSigned_of_lt (by omega)]
        unfold readIndexNumber
        rw [if_pos rfl]
        refine (decodes_readU8 _).bind ((decodes_readU8 _).bind ?_)
        simp only [htag, ne_eq, not_false_eq_true, if_true]
        have hmid : Decodes (readExact 2 : Reader Bytes)
            [UInt8.ofNat (n / 256 ^ 1), UInt8.ofNat (n / 256 ^ 2)]
            [UInt8.ofNat (n / 256 ^ 1), UInt8.ofNat (n / 256 ^ 2)] := decodes_readExact rfl
        refine hmid.bind_ret ?_
        rw [hhigh, ← hle4, hval]
        rfl
    · -- a difference of two bytes
      rw [if_neg hfar]
      obtain ⟨d, hd⟩ : ∃ d : Nat, number - prev = d := ⟨(number - prev).toNat, by omega⟩
      have htop : d / 256 < 128 := by omega
      have hsum : prev + (((UInt8.ofNat (d / 256)).toNat * 256 + (UInt8.ofNat d).toNat : Nat) : Int)
          = number := by
        rw [UInt8.toNat_ofNat', UInt8.toNat_ofNat']
        omega
      simp only [hd, Int.toNat_natCast]
      refine ⟨0xfe, [[UInt8.ofNat (d / 256)], [UInt8.ofNat d]], ?_, by decide, by decide, ?_⟩
      · intro acc
        simp [writeU8, writeAll, Prog.op, Prog.run, calls]
      · unfold readIndexNumber
        rw [if_pos rfl]
        refine (decodes_readU8 _).bind ((decodes_readU8 _).bind ?_)
        rw [if_neg (untagged_high ⟨d / 256, htop⟩)]
        simp only [hsum, hchk]
        exact decodes_ret number

/-- The state after an index: a file index is remembered, `NDX_DONE` is not. -/
def RsyncIndexState.after (state : RsyncIndexState) (index : Int) : RsyncIndexState :=
  if index ≥ 0 then { state with prevPositive := index } else state

/-- The index code as the two ends share it: with the previous index in `i32`
range, writer and reader end in the same state. -/
theorem roundTrips_rsyncIndex {state : RsyncIndexState} {index : Int}
    (hprev : -1 ≤ state.prevPositive) (hprev' : state.prevPositive ≤ i32Max)
    (hidx : -1 ≤ index) (hidx' : index < i32Max) :
    RoundTrips (writeRsyncIndex state index) (state.after index) (readRsyncIndex state)
      (index, state.after index) := by
  have hmax : (i32Max : Int) = 2147483647 := rfl
  unfold writeRsyncIndex RsyncIndexState.after
  by_cases hpos : index ≥ 0
  · have hdiff : checkedI32 (index - state.prevPositive) = some (index - state.prevPositive) :=
      checkedI32_of_le (by omega) (by omega)
    obtain ⟨first, cs, hw, hff, h0, hr⟩ :=
      roundTrips_indexNumber state.prevPositive hpos hidx'.le
    simp only [if_pos hpos, hdiff]
    refine ⟨[first] :: cs, hw.bind_ret rfl, ?_⟩
    have hread : Decodes (readRsyncIndex state) ([first] ++ cs.flatten)
        (index, { state with prevPositive := index }) := by
      refine (decodes_readU8 first).bind ?_
      simp only [if_neg hff, if_neg h0]
      exact hr.bind_ret rfl
    simpa using hread
  · obtain rfl : index = rsyncIndexDone := by
      unfold rsyncIndexDone
      omega
    simp only [if_neg hpos, if_true]
    exact (roundTrips_u8 0).bind (roundTrips_ret _ _)

end RsyncWin
