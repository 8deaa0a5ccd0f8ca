import RsyncWin.Lib.Base64
import RsyncWin.Daemon.Args
import RsyncWin.Lib.Excepts

/-!
# Daemon authentication (`rsync-protocol/src/daemon.rs`)

The encoder walks along the digits and takes each from one byte or two, with
every index and shift checked here. MD4 and MD5 are functions on byte strings.
-/

namespace RsyncWin

open ByteString

/-! ## Operations that can trap -/

def indexAt (bytes : Bytes) (i : Nat) : Except Error UInt8 :=
  match bytes[i]? with
  | some byte => .ok byte
  | none => .error (.panic "index out of bounds")

def shiftRightU8 (byte : UInt8) (n : Nat) : Except Error UInt8 :=
  if n < 8 then .ok (byte >>> UInt8.ofNat n)
  else .error (.panic "attempt to shift right with overflow")

def shiftLeftU8 (byte : UInt8) (n : Nat) : Except Error UInt8 :=
  if n < 8 then .ok (byte <<< UInt8.ofNat n)
  else .error (.panic "attempt to shift left with overflow")

/-! ## The encoder -/

/-- `b"ABCDEFGHIJKLMNOPQRSTUVWXYZabcdefghijklmnopqrstuvwxyz0123456789+/"`. -/
def b64 : Bytes :=
  [0x41, 0x42, 0x43, 0x44, 0x45, 0x46, 0x47, 0x48, 0x49, 0x4a, 0x4b, 0x4c, 0x4d, 0x4e, 0x4f, 0x50,
   0x51, 0x52, 0x53, 0x54, 0x55, 0x56, 0x57, 0x58, 0x59, 0x5a, 0x61, 0x62, 0x63, 0x64, 0x65, 0x66,
   0x67, 0x68, 0x69, 0x6a, 0x6b, 0x6c, 0x6d, 0x6e, 0x6f, 0x70, 0x71, 0x72, 0x73, 0x74, 0x75, 0x76,
   0x77, 0x78, 0x79, 0x7a, 0x30, 0x31, 0x32, 0x33, 0x34, 0x35, 0x36, 0x37, 0x38, 0x39, 0x2b, 0x2f]

def base64Index (bytes : Bytes) (i : Nat) : Except Error UInt8 := do
  let byteOffset := (i * 6) / 8
  let bitOffset := (i * 6) % 8
  if bitOffset < 3 then
    let byte ← indexAt bytes byteOffset
    let shifted ← shiftRightU8 byte (2 - bitOffset)
    pure (shifted &&& 0x3f)
  else
    let byte ← indexAt bytes byteOffset
    let shifted ← shiftLeftU8 byte (bitOffset - 2)
    let value := shifted &&& 0x3f
    if byteOffset + 1 < bytes.length then
      let next ← indexAt bytes (byteOffset + 1)
      let low ← shiftRightU8 next (8 - (bitOffset - 2))
      pure (value ||| low)
    else
      pure value

/-- What a turn of the loop pushes; the alphabet is ASCII, a character a byte. -/
def base64Digit (bytes : Bytes) (i : Nat) : Except Error UInt8 := do
  let index ← base64Index bytes i
  indexAt b64 index.toNat

/-- `(len * 8).div_ceil(6)`. -/
def base64Length (len : Nat) : Nat := (len * 8 + 5) / 6

def base64NoPad (bytes : Bytes) : Except Error Bytes :=
  (List.range (base64Length bytes.length)).mapM (base64Digit bytes)

/-! ## The response -/

inductive DaemonAuthChecksum where
  | md4
  | md5
deriving DecidableEq, Repr

section Response

variable (md4 md5 : Bytes → Bytes)

/-- Feeding a hasher twice digests the concatenation. -/
def daemonAuthResponse (password challenge : Str) (checksum : DaemonAuthChecksum) :
    Except Error Bytes :=
  match checksum with
  | .md4 => base64NoPad (md4 (password.bytes ++ challenge.bytes))
  | .md5 => base64NoPad (md5 (password.bytes ++ challenge.bytes))

def constantTimeEq (left right : Bytes) : Bool :=
  if left.length ≠ right.length then false
  else (left.zip right).foldl (fun acc pair => acc ||| (pair.1 ^^^ pair.2)) 0 == 0

def daemonAuthResponseMatches (password challenge : Str) (checksum : DaemonAuthChecksum)
    (response : Str) : Except Error Bool := do
  let expected ← daemonAuthResponse md4 md5 password challenge checksum
  pure (constantTimeEq expected response.bytes)

end Response

/-! ## Digit by digit -/

theorem indexAt_b64 : ∀ n : Fin 64, indexAt b64 n = .ok (Base64.digit n) := by
  decide

theorem base64Digit_of_index {bytes : Bytes} {i n : Nat} {index : UInt8} (hn : n < 64)
    (hindex : base64Index bytes i = .ok index) (hvalue : index.toNat = n) :
    base64Digit bytes i = .ok (Base64.digit n) := by
  unfold base64Digit
  rw [hindex]
  dsimp only [bind, Except.bind]
  rw [hvalue]
  exact indexAt_b64 ⟨n, hn⟩

/-- The whole bits of a byte behind a shift, and what a shift leaves of them. -/
theorem toNat_shifts (byte : UInt8) :
    (byte >>> 2 &&& 0x3f).toNat = byte.toNat / 4 ∧
    (byte >>> 0 &&& 0x3f).toNat = byte.toNat % 64 ∧
    (byte <<< 4 &&& 0x3f).toNat = byte.toNat % 4 * 16 ∧
    (byte <<< 2 &&& 0x3f).toNat = byte.toNat % 16 * 4 := by
  have hbyte := byte.toNat_lt
  have hmask (n : Nat) : n &&& 63 = n % 64 := Nat.and_two_pow_sub_one_eq_mod n 6
  simp only [UInt8.toNat_and, UInt8.toNat_shiftRight, UInt8.toNat_shiftLeft, UInt8.reduceToNat,
    hmask, Nat.shiftRight_eq_div_pow, Nat.shiftLeft_eq, Nat.reduceMod, Nat.reducePow]
  omega

theorem toNat_or_high {high low : UInt8} {k n : Nat} (hhigh : high.toNat = n * 2 ^ k)
    (hlow : low.toNat < 2 ^ k) : (high ||| low).toNat = n * 2 ^ k + low.toNat := by
  rw [UInt8.toNat_or, hhigh, Nat.mul_comm, Nat.two_pow_add_eq_or_of_lt hlow]

theorem base64Index_three (a b c : UInt8) (rest : Bytes) (i : Nat) :
    base64Index (a :: b :: c :: rest) (4 + i) = base64Index rest i := by
  have hbyte : (4 + i) * 6 / 8 = i * 6 / 8 + 3 := by omega
  have hbit : (4 + i) * 6 % 8 = i * 6 % 8 := by omega
  have hlast : i * 6 / 8 + 3 + 1 < (a :: b :: c :: rest).length ↔ i * 6 / 8 + 1 < rest.length := by
    simp only [List.length_cons]
    omega
  unfold base64Index
  simp only [hbyte, hbit, hlast]
  rfl

/-- The digit of the top six bits of a byte. -/
theorem base64Index_zero (a : UInt8) (rest : Bytes) :
    ∃ index, base64Index (a :: rest) 0 = .ok index ∧ index.toNat = a.toNat / 4 :=
  ⟨_, rfl, (toNat_shifts a).1⟩

theorem base64Index_one (a b : UInt8) (rest : Bytes) :
    ∃ index, base64Index (a :: b :: rest) 1 = .ok index ∧
      index.toNat = a.toNat % 4 * 16 + b.toNat / 16 := by
  have hb := b.toNat_lt
  have hlow : (b >>> 4).toNat = b.toNat / 16 := by
    simp [Nat.shiftRight_eq_div_pow]
  refine ⟨((a <<< 4 &&& 0x3f : UInt8) ||| b >>> 4), rfl, ?_⟩
  rw [@toNat_or_high _ _ 4 _ (toNat_shifts a).2.2.1 (by omega), hlow]
  norm_num

theorem base64Index_two (a b c : UInt8) (rest : Bytes) :
    ∃ index, base64Index (a :: b :: c :: rest) 2 = .ok index ∧
      index.toNat = b.toNat % 16 * 4 + c.toNat / 64 := by
  have hc := c.toNat_lt
  have hlow : (c >>> 6).toNat = c.toNat / 64 := by
    simp [Nat.shiftRight_eq_div_pow]
  refine ⟨((b <<< 2 &&& 0x3f : UInt8) ||| c >>> 6), rfl, ?_⟩
  rw [@toNat_or_high _ _ 2 _ (toNat_shifts b).2.2.2 (by omega), hlow]
  norm_num

theorem base64Index_last_one (a : UInt8) :
    ∃ index, base64Index [a] 1 = .ok index ∧ index.toNat = a.toNat % 4 * 16 :=
  ⟨_, rfl, (toNat_shifts a).2.2.1⟩

theorem base64Index_last_two (a b : UInt8) :
    ∃ index, base64Index [a, b] 2 = .ok index ∧ index.toNat = b.toNat % 16 * 4 :=
  ⟨_, rfl, (toNat_shifts b).2.2.2⟩

theorem base64Index_lower (a b c : UInt8) (rest : Bytes) :
    ∃ index, base64Index (a :: b :: c :: rest) 3 = .ok index ∧ index.toNat = c.toNat % 64 :=
  ⟨_, rfl, (toNat_shifts c).2.1⟩

/-! ## All of them -/

theorem base64Digit_three (a b c : UInt8) (rest : Bytes) (i : Nat) :
    base64Digit (a :: b :: c :: rest) (4 + i) = base64Digit rest i := by
  unfold base64Digit
  rw [base64Index_three]

/-- No index and no shift is out of range, and what comes out is the standard encoding: three
bytes are four turns of the loop. -/
theorem base64NoPad_eq : ∀ bytes : Bytes, base64NoPad bytes = .ok (Base64.encode bytes)
  | [] => rfl
  | [a] => by
      have ha := a.toNat_lt
      obtain ⟨x, hx, hx'⟩ := base64Index_zero a []
      obtain ⟨y, hy, hy'⟩ := base64Index_last_one a
      have hrange : List.range (base64Length 1) = [0, 1] := by decide
      unfold base64NoPad
      rw [List.length_cons, List.length_nil, hrange]
      refine except_mapM_cons_ok (base64Digit_of_index ?_ hx ?_) (except_mapM_cons_ok
        (base64Digit_of_index ?_ hy ?_) List.mapM_nil) <;> omega
  | [a, b] => by
      have ha := a.toNat_lt
      have hb := b.toNat_lt
      obtain ⟨x, hx, hx'⟩ := base64Index_zero a [b]
      obtain ⟨y, hy, hy'⟩ := base64Index_one a b []
      obtain ⟨z, hz, hz'⟩ := base64Index_last_two a b
      have hrange : List.range (base64Length 2) = [0, 1, 2] := by decide
      unfold base64NoPad
      rw [List.length_cons, List.length_cons, List.length_nil, hrange]
      refine except_mapM_cons_ok (base64Digit_of_index ?_ hx ?_) (except_mapM_cons_ok
        (base64Digit_of_index ?_ hy ?_) (except_mapM_cons_ok (base64Digit_of_index ?_ hz ?_)
          List.mapM_nil)) <;> omega
  | a :: b :: c :: rest => by
      have ha := a.toNat_lt
      have hb := b.toNat_lt
      have hc := c.toNat_lt
      obtain ⟨x, hx, hx'⟩ := base64Index_zero a (b :: c :: rest)
      obtain ⟨y, hy, hy'⟩ := base64Index_one a b (c :: rest)
      obtain ⟨z, hz, hz'⟩ := base64Index_two a b c rest
      obtain ⟨w, hw, hw'⟩ := base64Index_lower a b c rest
      have hlen : base64Length (a :: b :: c :: rest).length = 4 + base64Length rest.length := by
        unfold base64Length
        simp only [List.length_cons]
        omega
      have hrest : ((List.range (base64Length rest.length)).map (4 + ·)).mapM
          (base64Digit (a :: b :: c :: rest)) = .ok (Base64.encode rest) := by
        have hshift : base64Digit (a :: b :: c :: rest) ∘ (4 + ·) = base64Digit rest :=
          funext (base64Digit_three a b c rest)
        rw [List.mapM_map, hshift]
        exact base64NoPad_eq rest
      unfold base64NoPad
      rw [hlen, List.range_add]
      refine except_mapM_cons_ok (base64Digit_of_index ?_ hx ?_) (except_mapM_cons_ok
        (base64Digit_of_index ?_ hy ?_) (except_mapM_cons_ok (base64Digit_of_index ?_ hz ?_)
          (except_mapM_cons_ok (base64Digit_of_index ?_ hw ?_) hrest))) <;> omega

/-! ## Comparing -/

theorem foldl_xor_eq_zero : ∀ {left right : Bytes} {acc : UInt8}, left.length = right.length →
    ((left.zip right).foldl (fun acc pair => acc ||| (pair.1 ^^^ pair.2)) acc = 0 ↔
      acc = 0 ∧ left = right)
  | [], [], acc, _ => by simp
  | l :: left, r :: right, acc, h => by
      rw [List.zip_cons_cons, List.foldl_cons, foldl_xor_eq_zero (by simpa using h),
        UInt8.or_eq_zero_iff, UInt8.xor_eq_zero_iff, List.cons.injEq, and_assoc]
  | [], _ :: _, _, h => by simp at h
  | _ :: _, [], _, h => by simp at h

theorem constantTimeEq_eq (left right : Bytes) : constantTimeEq left right = decide (left = right) := by
  unfold constantTimeEq
  by_cases hlen : left.length = right.length
  · rw [if_neg (not_not.mpr hlen), Bool.eq_iff_iff, beq_iff_eq, foldl_xor_eq_zero hlen,
      decide_eq_true_iff]
    exact and_iff_right rfl
  · rw [if_pos hlen, decide_eq_false]
    rintro rfl
    exact hlen rfl

/-- What the response of a password to a challenge is the encoding of. -/
def DaemonAuthChecksum.digest (md4 md5 : Bytes → Bytes) (checksum : DaemonAuthChecksum)
    (message : Bytes) : Bytes :=
  match checksum with
  | .md4 => md4 message
  | .md5 => md5 message

/-- **Daemon authentication is standard and injective.** The encoder gives the standard base64
digits of any byte string, tells strings of one length apart, and a response matches if and only
if it is the encoding of the digest of the password and the challenge behind it. -/
theorem daemon_auth_standard (md4 md5 : Bytes → Bytes) :
    (∀ bytes, base64NoPad bytes = .ok (Base64.encode bytes)) ∧
    (∀ xs ys : Bytes, xs.length = ys.length → xs ≠ ys → base64NoPad xs ≠ base64NoPad ys) ∧
    ∀ (password challenge : Str) (checksum : DaemonAuthChecksum) (response : Str),
      daemonAuthResponseMatches md4 md5 password challenge checksum response =
        .ok (decide (response.bytes =
          Base64.encode (checksum.digest md4 md5 (password.bytes ++ challenge.bytes)))) := by
  refine ⟨base64NoPad_eq, ?_, ?_⟩
  · intro xs ys hlen hne heq
    rw [base64NoPad_eq, base64NoPad_eq] at heq
    exact hne (Base64.encode_injective hlen (Except.ok.inj heq))
  · intro password challenge checksum response
    have hresponse : daemonAuthResponse md4 md5 password challenge checksum =
        .ok (Base64.encode (checksum.digest md4 md5 (password.bytes ++ challenge.bytes))) := by
      cases checksum <;> exact base64NoPad_eq _
    unfold daemonAuthResponseMatches
    rw [hresponse]
    dsimp only [bind, Except.bind, pure, Except.pure]
    rw [constantTimeEq_eq, decide_eq_decide.mpr eq_comm]

/-- `fo` is `Zm8`, and `fn` is not. -/
theorem daemon_auth_standard_fo :
    base64NoPad [0x66, 0x6f] = .ok [0x5a, 0x6d, 0x38] ∧
      base64NoPad [0x66, 0x6e] ≠ base64NoPad [0x66, 0x6f] :=
  ⟨((daemon_auth_standard id id).1 [0x66, 0x6f]).trans (congrArg Except.ok (by decide)),
    (daemon_auth_standard id id).2.1 [0x66, 0x6e] [0x66, 0x6f] rfl (by decide)⟩

end RsyncWin
