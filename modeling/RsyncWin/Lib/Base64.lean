import RsyncWin.Lib.Bytes

/-!
# Base64 without padding

The standard alphabet, and the bits of a byte string in groups of 24 cut into
digits of six. A last group of one or two bytes is filled up with zero bits.
-/

namespace Base64

open ByteString

def digit (n : Nat) : UInt8 :=
  if n < 26 then UInt8.ofNat (0x41 + n)
  else if n < 52 then UInt8.ofNat (0x61 + (n - 26))
  else if n < 62 then UInt8.ofNat (0x30 + (n - 52))
  else if n = 62 then 0x2b
  else 0x2f

def digits : Bytes → List Nat
  | a :: b :: c :: rest =>
      let group := a.toNat * 2 ^ 16 + b.toNat * 2 ^ 8 + c.toNat
      group / 2 ^ 18 :: group / 2 ^ 12 % 64 :: group / 2 ^ 6 % 64 :: group % 64 :: digits rest
  | [a, b] =>
      let group := (a.toNat * 2 ^ 8 + b.toNat) * 2 ^ 2
      [group / 2 ^ 12, group / 2 ^ 6 % 64, group % 64]
  | [a] =>
      let group := a.toNat * 2 ^ 4
      [group / 2 ^ 6, group % 64]
  | [] => []

def encode (bytes : Bytes) : Bytes := (digits bytes).map digit

theorem digit_injective : ∀ m n : Fin 64, digit m = digit n → m = n := by
  decide +kernel

theorem digits_lt {bytes : Bytes} : ∀ d ∈ digits bytes, d < 64 := by
  fun_induction digits bytes with
  | case1 a b c rest group ih =>
      have ha := a.toNat_lt
      have hb := b.toNat_lt
      have hc := c.toNat_lt
      rw [List.forall_mem_cons, List.forall_mem_cons, List.forall_mem_cons, List.forall_mem_cons]
      exact ⟨by omega, by omega, by omega, by omega, ih⟩
  | case2 a b group =>
      have ha := a.toNat_lt
      have hb := b.toNat_lt
      rw [List.forall_mem_cons, List.forall_mem_cons, List.forall_mem_singleton]
      exact ⟨by omega, by omega, by omega⟩
  | case3 a group =>
      have ha := a.toNat_lt
      rw [List.forall_mem_cons, List.forall_mem_singleton]
      exact ⟨by omega, by omega⟩
  | case4 => exact List.forall_mem_nil _

/-- The digits tell strings of one length apart, group by group. -/
theorem digits_injective : ∀ {xs ys : Bytes}, xs.length = ys.length → digits xs = digits ys →
    xs = ys
  | [], [], _, _ => rfl
  | [a], [a'], _, h => by
      have ha := a.toNat_lt
      have ha' := a'.toNat_lt
      simp only [digits, List.cons.injEq, and_true] at h
      rw [UInt8.toNat_inj.mp (show a.toNat = a'.toNat by omega)]
  | [a, b], [a', b'], _, h => by
      have hb := b.toNat_lt
      have hb' := b'.toNat_lt
      simp only [digits, List.cons.injEq, and_true] at h
      rw [UInt8.toNat_inj.mp (show a.toNat = a'.toNat by omega),
        UInt8.toNat_inj.mp (show b.toNat = b'.toNat by omega)]
  | a :: b :: c :: xs, a' :: b' :: c' :: ys, hlen, h => by
      have hb := b.toNat_lt
      have hb' := b'.toNat_lt
      have hc := c.toNat_lt
      have hc' := c'.toNat_lt
      simp only [digits, List.cons.injEq] at h
      obtain ⟨h1, h2, h3, h4, hrest⟩ := h
      rw [UInt8.toNat_inj.mp (show a.toNat = a'.toNat by omega),
        UInt8.toNat_inj.mp (show b.toNat = b'.toNat by omega),
        UInt8.toNat_inj.mp (show c.toNat = c'.toNat by omega),
        digits_injective (by simpa using hlen) hrest]
  | [], _ :: _, hlen, _ => by simp at hlen
  | _ :: _, [], hlen, _ => by simp at hlen
  | [_], _ :: _ :: _, hlen, _ => by simp at hlen
  | _ :: _ :: _, [_], hlen, _ => by simp at hlen
  | [_, _], _ :: _ :: _ :: _, hlen, _ => by simp at hlen
  | _ :: _ :: _ :: _, [_, _], hlen, _ => by simp at hlen

theorem map_digit_injective : ∀ {ms ns : List Nat}, (∀ m ∈ ms, m < 64) → (∀ n ∈ ns, n < 64) →
    ms.map digit = ns.map digit → ms = ns
  | [], [], _, _, _ => rfl
  | m :: ms, n :: ns, hms, hns, h => by
      obtain ⟨hm, hms⟩ := List.forall_mem_cons.mp hms
      obtain ⟨hn, hns⟩ := List.forall_mem_cons.mp hns
      rw [List.map_cons, List.map_cons, List.cons.injEq] at h
      have hfirst := digit_injective ⟨m, hm⟩ ⟨n, hn⟩ h.1
      rw [Fin.mk.inj hfirst, map_digit_injective hms hns h.2]
  | [], _ :: _, _, _, h => by simp at h
  | _ :: _, [], _, _, h => by simp at h

theorem encode_injective {xs ys : Bytes} (hlen : xs.length = ys.length)
    (h : encode xs = encode ys) : xs = ys :=
  digits_injective hlen (map_digit_injective digits_lt digits_lt h)

end Base64
