import RsyncWin.Lib.Bytes

/-!
# UTF-8

Strict and lossy decoding of a byte string. One step reads a scalar value or
finds the longest prefix that cannot start one; lossy decoding puts U+FFFD for
each such prefix, strict decoding gives up on it.
-/

namespace ByteString

def isContinuation (b : UInt8) : Bool := 0x80 ≤ b.toNat && b.toNat ≤ 0xbf

/-- The second byte a three-byte lead admits (no overlong form, no surrogate). -/
def second3Ok (lead second : Nat) : Bool :=
  if lead = 0xe0 then 0xa0 ≤ second && second ≤ 0xbf
  else if lead = 0xed then 0x80 ≤ second && second ≤ 0x9f
  else 0x80 ≤ second && second ≤ 0xbf

/-- The second byte a four-byte lead admits. -/
def second4Ok (lead second : Nat) : Bool :=
  if lead = 0xf0 then 0x90 ≤ second && second ≤ 0xbf
  else if lead = 0xf4 then 0x80 ≤ second && second ≤ 0x8f
  else 0x80 ≤ second && second ≤ 0xbf

/-- One decoding step at a lead byte: the scalar value, if there is one, and
how many bytes the step takes. -/
def decodeStep (lead : UInt8) (rest : Bytes) : Option Char × Nat :=
  let x := lead.toNat
  if x < 0x80 then (some (Char.ofNat x), 1)
  else if 0xc2 ≤ x ∧ x ≤ 0xdf then
    match rest with
    | b :: _ =>
        if isContinuation b then (some (Char.ofNat ((x - 0xc0) * 64 + (b.toNat - 0x80))), 2)
        else (none, 1)
    | [] => (none, 1)
  else if 0xe0 ≤ x ∧ x ≤ 0xef then
    match rest with
    | b :: rest' =>
        if second3Ok x b.toNat then
          match rest' with
          | c :: _ =>
              if isContinuation c then
                (some (Char.ofNat ((x - 0xe0) * 4096 + (b.toNat - 0x80) * 64 +
                  (c.toNat - 0x80))), 3)
              else (none, 2)
          | [] => (none, 2)
        else (none, 1)
    | [] => (none, 1)
  else if 0xf0 ≤ x ∧ x ≤ 0xf4 then
    match rest with
    | b :: rest' =>
        if second4Ok x b.toNat then
          match rest' with
          | c :: rest'' =>
              if isContinuation c then
                match rest'' with
                | d :: _ =>
                    if isContinuation d then
                      (some (Char.ofNat ((x - 0xf0) * 262144 + (b.toNat - 0x80) * 4096 +
                        (c.toNat - 0x80) * 64 + (d.toNat - 0x80))), 4)
                    else (none, 3)
                | [] => (none, 3)
              else (none, 2)
          | [] => (none, 2)
        else (none, 1)
    | [] => (none, 1)
  else (none, 1)

theorem decodeStep_pos (lead : UInt8) (rest : Bytes) : 1 ≤ (decodeStep lead rest).2 := by
  fun_cases decodeStep lead rest <;> simp_all

def decodeLossy : Nat → Bytes → List Char
  | 0, _ => []
  | _ + 1, [] => []
  | k + 1, b :: bs =>
      let (c, n) := decodeStep b bs
      c.getD (Char.ofNat 0xfffd) :: decodeLossy k ((b :: bs).drop n)

def fromUtf8Lossy (bs : Bytes) : String := String.ofList (decodeLossy bs.length bs)

/-- Lossy decoding, re-encoded: what cannot be decoded becomes `EF BF BD`. -/
def lossyBytesAux : Nat → Bytes → Bytes
  | 0, _ => []
  | _ + 1, [] => []
  | k + 1, b :: bs =>
      match decodeStep b bs with
      | (none, n) => [0xef, 0xbf, 0xbd] ++ lossyBytesAux k ((b :: bs).drop n)
      | (some _, n) => (b :: bs).take n ++ lossyBytesAux k ((b :: bs).drop n)

def lossyBytes (bs : Bytes) : Bytes := lossyBytesAux bs.length bs

def decodeStrict : Nat → Bytes → Option (List Char)
  | 0, _ => some []
  | _ + 1, [] => some []
  | k + 1, b :: bs =>
      match decodeStep b bs with
      | (none, _) => none
      | (some c, n) => (decodeStrict k ((b :: bs).drop n)).map (c :: ·)

/-- The scalar values of a well-formed byte string. -/
def utf8Chars (bs : Bytes) : Option (List Char) := decodeStrict bs.length bs

theorem lossyBytesAux_of_decodeStrict : ∀ {k : Nat} {bs : Bytes} {cs : List Char},
    bs.length ≤ k → decodeStrict k bs = some cs → lossyBytesAux k bs = bs
  | 0, bs, _, hk, _ => by
      obtain rfl : bs = [] := List.length_eq_zero_iff.mp (by omega)
      rfl
  | _ + 1, [], _, _, _ => rfl
  | k + 1, b :: bs, cs, hk, h => by
      unfold decodeStrict at h
      unfold lossyBytesAux
      obtain ⟨c, n, hstep⟩ : ∃ c n, decodeStep b bs = (c, n) := ⟨_, _, rfl⟩
      have hn : 1 ≤ n := by
        have hpos := decodeStep_pos b bs
        rw [hstep] at hpos
        exact hpos
      rw [hstep] at h ⊢
      cases c with
      | none => simp at h
      | some c =>
          simp only [Option.map_eq_some_iff] at h
          obtain ⟨cs', hcs, -⟩ := h
          have hlen : ((b :: bs).drop n).length ≤ k := by
            rw [List.length_drop]
            omega
          simp only [lossyBytesAux_of_decodeStrict hlen hcs, List.take_append_drop]

/-- A well-formed string survives a lossy round trip. -/
theorem lossyBytes_of_utf8 {bs : Bytes} (h : (utf8Chars bs).isSome) : lossyBytes bs = bs := by
  obtain ⟨cs, hcs⟩ := Option.isSome_iff_exists.mp h
  exact lossyBytesAux_of_decodeStrict (Nat.le_refl _) hcs

theorem decodeStep_none_le (lead : UInt8) (rest : Bytes) :
    (decodeStep lead rest).1 = none → (decodeStep lead rest).2 ≤ 3 := by
  fun_cases decodeStep lead rest <;> simp

/-- A replacement is at least as long as what it replaces. -/
theorem length_le_lossyBytesAux : ∀ {k : Nat} {bs : Bytes}, bs.length ≤ k →
    bs.length ≤ (lossyBytesAux k bs).length
  | 0, _, h => Nat.le_trans h (Nat.zero_le _)
  | _ + 1, [], _ => Nat.zero_le _
  | k + 1, b :: bs, h => by
      unfold lossyBytesAux
      obtain ⟨c, n, hstep⟩ : ∃ c n, decodeStep b bs = (c, n) := ⟨_, _, rfl⟩
      have hn : 1 ≤ n := by
        have hpos := decodeStep_pos b bs
        rw [hstep] at hpos
        exact hpos
      have hdrop : ((b :: bs).drop n).length = (b :: bs).length - n := List.length_drop
      have hshort : ((b :: bs).drop n).length ≤ k := by omega
      have hrest := length_le_lossyBytesAux hshort
      rw [hstep]
      cases c with
      | none =>
          have hle := decodeStep_none_le b bs
          rw [hstep] at hle
          have hle := hle rfl
          simp only [List.length_append, List.length_cons, List.length_nil] at hrest hdrop ⊢
          omega
      | some c =>
          simp only [List.length_append, List.length_take]
          omega

theorem length_le_lossyBytes (bs : Bytes) : bs.length ≤ (lossyBytes bs).length :=
  length_le_lossyBytesAux (Nat.le_refl _)

theorem toNat_ofNat_of_valid {v : Nat} (h : v.isValidChar) : (Char.ofNat v).toNat = v := by
  rw [Char.ofNat, dif_pos h]
  rfl

theorem toNat_ofNat_of_not_valid {v : Nat} (h : ¬ v.isValidChar) : (Char.ofNat v).toNat = 0 := by
  rw [Char.ofNat, dif_neg h]
  rfl

theorem second3Ok_of_e0 {lead second : Nat} (h : second3Ok lead second = true) :
    lead = 0xe0 → 0xa0 ≤ second := by
  rintro rfl
  simp only [second3Ok, if_true, Bool.and_eq_true, decide_eq_true_eq] at h
  exact h.1

theorem second4Ok_of_f0 {lead second : Nat} (h : second4Ok lead second = true) :
    lead = 0xf0 → 0x90 ≤ second := by
  rintro rfl
  simp only [second4Ok, if_true, Bool.and_eq_true, decide_eq_true_eq] at h
  exact h.1

/-- An ASCII character other than NUL comes from its own byte only. -/
theorem decodeStep_ascii {lead : UInt8} {rest : Bytes} {c : Char} {n : Nat}
    (h : decodeStep lead rest = (some c, n)) (hpos : 0 < c.toNat) (hc : c.toNat < 128) :
    lead.toNat = c.toNat := by
  have high : ∀ v k : Nat, 128 ≤ v → (some (Char.ofNat v), k) ≠ (some c, n) := by
    intro v k hv heq
    have hchar : Char.ofNat v = c := Option.some.inj (Prod.mk.inj heq).1
    by_cases hvalid : v.isValidChar
    · have htoNat := toNat_ofNat_of_valid hvalid
      rw [hchar] at htoNat
      omega
    · have htoNat := toNat_ofNat_of_not_valid hvalid
      rw [hchar] at htoNat
      omega
  revert h
  fun_cases decodeStep lead rest with
  | case1 x hx =>
      intro h
      obtain rfl : Char.ofNat lead.toNat = c := Option.some.inj (Prod.mk.inj h).1
      exact (toNat_ofNat_of_valid (Or.inl (by omega))).symm
  | case2 x hx hlead b tail hb => exact fun h => absurd h (high _ 2 (by omega))
  | case5 x hx hlead₂ hlead₃ b hb c' tail hc' =>
      have hfirst := second3Ok_of_e0 hb
      exact fun h => absurd h (high _ 3 (by omega))
  | case10 x hx hlead₂ hlead₃ hlead₄ b hb c' hc' d tail hd =>
      have hfirst := second4Ok_of_f0 hb
      exact fun h => absurd h (high _ 4 (by omega))
  | _ => rintro ⟨⟩

theorem mem_of_mem_decodeStrict {c : Char} (hpos : 0 < c.toNat) (hc : c.toNat < 128) :
    ∀ {k : Nat} {bs : Bytes} {cs : List Char}, decodeStrict k bs = some cs → c ∈ cs →
      UInt8.ofNat c.toNat ∈ bs
  | 0, _, cs, h, hmem => by
      obtain rfl : [] = cs := by simpa [decodeStrict] using h
      simp at hmem
  | _ + 1, [], cs, h, hmem => by
      obtain rfl : [] = cs := by simpa [decodeStrict] using h
      simp at hmem
  | k + 1, b :: bs, cs, h, hmem => by
      unfold decodeStrict at h
      obtain ⟨r, n, hstep⟩ : ∃ r n, decodeStep b bs = (r, n) := ⟨_, _, rfl⟩
      rw [hstep] at h
      cases r with
      | none => simp at h
      | some d =>
          simp only [Option.map_eq_some_iff] at h
          obtain ⟨cs', hcs, rfl⟩ := h
          rcases List.mem_cons.mp hmem with rfl | hmem
          · rw [← decodeStep_ascii hstep hpos hc, UInt8.ofNat_toNat]
            exact List.mem_cons_self
          · exact List.mem_of_mem_drop (mem_of_mem_decodeStrict hpos hc hcs hmem)

/-- More bytes behind a complete sequence do not change it. -/
theorem decodeStep_append {lead : UInt8} {rest : Bytes} {c : Char} {n : Nat}
    (h : decodeStep lead rest = (some c, n)) (more : Bytes) :
    decodeStep lead (rest ++ more) = (some c, n) ∧ n ≤ rest.length + 1 := by
  unfold decodeStep at h ⊢
  dsimp only at h ⊢
  by_cases h1 : lead.toNat < 0x80
  · rw [if_pos h1] at h ⊢
    have hn : 1 = n := (Prod.mk.inj h).2
    exact ⟨h, by omega⟩
  rw [if_neg h1] at h ⊢
  by_cases h2 : 0xc2 ≤ lead.toNat ∧ lead.toNat ≤ 0xdf
  · rw [if_pos h2] at h ⊢
    rcases rest with _ | ⟨x, t⟩
    · simp at h
    · simp only [List.cons_append, List.length_cons] at h ⊢
      split at h
      · have hn : 2 = n := (Prod.mk.inj h).2
        rename_i hx
        rw [if_pos hx]
        exact ⟨h, by omega⟩
      · simp at h
  rw [if_neg h2] at h ⊢
  by_cases h3 : 0xe0 ≤ lead.toNat ∧ lead.toNat ≤ 0xef
  · rw [if_pos h3] at h ⊢
    rcases rest with _ | ⟨x, _ | ⟨y, t⟩⟩
    · simp at h
    · dsimp only at h
      split at h <;> simp at h
    · simp only [List.cons_append, List.length_cons] at h ⊢
      split at h
      · rename_i hx
        rw [if_pos hx]
        split at h
        · have hn : 3 = n := (Prod.mk.inj h).2
          rename_i hy
          rw [if_pos hy]
          exact ⟨h, by omega⟩
        · simp at h
      · simp at h
  rw [if_neg h3] at h ⊢
  by_cases h4 : 0xf0 ≤ lead.toNat ∧ lead.toNat ≤ 0xf4
  · rw [if_pos h4] at h ⊢
    rcases rest with _ | ⟨x, _ | ⟨y, _ | ⟨z, t⟩⟩⟩
    · simp at h
    · dsimp only at h
      split at h <;> simp at h
    · dsimp only at h
      split at h
      · split at h <;> simp at h
      · simp at h
    · simp only [List.cons_append, List.length_cons] at h ⊢
      split at h
      · rename_i hx
        rw [if_pos hx]
        split at h
        · rename_i hy
          rw [if_pos hy]
          split at h
          · have hn : 4 = n := (Prod.mk.inj h).2
            rename_i hz
            rw [if_pos hz]
            exact ⟨h, by omega⟩
          · simp at h
        · simp at h
      · simp at h
  · rw [if_neg h4] at h
    simp at h

theorem decodeStrict_fuel : ∀ {j k : Nat} {bs : Bytes}, bs.length ≤ j → bs.length ≤ k →
    decodeStrict j bs = decodeStrict k bs
  | 0, 0, _, _, _ => rfl
  | 0, k + 1, [], _, _ => rfl
  | j + 1, 0, [], _, _ => rfl
  | j + 1, k + 1, [], _, _ => rfl
  | j + 1, k + 1, b :: bs, hj, hk => by
      have hpos := decodeStep_pos b bs
      have hlen : ((b :: bs).drop (decodeStep b bs).2).length ≤ bs.length := by
        rw [List.length_drop, List.length_cons]
        omega
      rw [List.length_cons] at hj hk
      unfold decodeStrict
      obtain ⟨c, n, hstep⟩ : ∃ c n, decodeStep b bs = (c, n) := ⟨_, _, rfl⟩
      rw [hstep] at hlen ⊢
      cases c with
      | none => rfl
      | some c =>
          simp only at hlen
          have hrec : decodeStrict j ((b :: bs).drop n) = decodeStrict k ((b :: bs).drop n) :=
            decodeStrict_fuel (by omega) (by omega)
          simp only [hrec]

theorem utf8Chars_cons {b : UInt8} {bs : Bytes} {c : Char} {n : Nat}
    (h : decodeStep b bs = (some c, n)) :
    utf8Chars (b :: bs) = (utf8Chars ((b :: bs).drop n)).map (c :: ·) := by
  have hpos := decodeStep_pos b bs
  rw [h] at hpos
  have hlen : ((b :: bs).drop n).length ≤ bs.length := by
    rw [List.length_drop, List.length_cons]
    omega
  unfold utf8Chars
  rw [List.length_cons, decodeStrict, h]
  simp only [decodeStrict_fuel hlen (Nat.le_refl _)]

theorem utf8Chars_cons_isSome {b : UInt8} {bs : Bytes} (h : (utf8Chars (b :: bs)).isSome = true) :
    ∃ c n, decodeStep b bs = (some c, n) := by
  obtain ⟨c, n, hstep⟩ : ∃ c n, decodeStep b bs = (c, n) := ⟨_, _, rfl⟩
  cases c with
  | none => simp [utf8Chars, decodeStrict, hstep] at h
  | some c => exact ⟨c, n, hstep⟩

theorem utf8_append {ys : Bytes} (hy : (utf8Chars ys).isSome = true) :
    ∀ {k : Nat} {xs : Bytes}, xs.length ≤ k → (utf8Chars xs).isSome = true →
      (utf8Chars (xs ++ ys)).isSome = true
  | _, [], _, _ => hy
  | k + 1, b :: bs, hk, hx => by
      obtain ⟨c, n, hstep⟩ := utf8Chars_cons_isSome hx
      obtain ⟨happ, hn⟩ := decodeStep_append hstep ys
      have hpos := decodeStep_pos b bs
      rw [hstep] at hpos
      have hdrop : (b :: (bs ++ ys)).drop n = (b :: bs).drop n ++ ys := by
        rw [← List.cons_append, List.drop_append_of_le_length (by rw [List.length_cons]; exact hn)]
      rw [utf8Chars_cons hstep, Option.isSome_map] at hx
      rw [List.cons_append, utf8Chars_cons happ, Option.isSome_map, hdrop]
      refine utf8_append hy (k := k) ?_ hx
      rw [List.length_cons] at hk
      rw [List.length_drop, List.length_cons]
      omega

theorem second3Ok_le {lead second : Nat} (h : second3Ok lead second = true) : 0x80 ≤ second := by
  unfold second3Ok at h
  split at h <;> [skip; split at h] <;> simp at h <;> omega

theorem second4Ok_le {lead second : Nat} (h : second4Ok lead second = true) : 0x80 ≤ second := by
  unfold second4Ok at h
  split at h <;> [skip; split at h] <;> simp at h <;> omega

/-- A scalar value depends on its own bytes only, and those behind the lead are
not ASCII. -/
theorem decodeStep_take {lead : UInt8} {rest : Bytes} {c : Char} {n : Nat}
    (h : decodeStep lead rest = (some c, n)) :
    decodeStep lead (rest.take (n - 1)) = (some c, n) ∧
      ∀ b ∈ rest.take (n - 1), 0x80 ≤ lead.toNat ∧ 0x80 ≤ b.toNat := by
  unfold decodeStep at h ⊢
  dsimp only at h ⊢
  by_cases h1 : lead.toNat < 0x80
  · rw [if_pos h1] at h ⊢
    have hn : 1 = n := (Prod.mk.inj h).2
    subst hn
    exact ⟨h, by simp⟩
  rw [if_neg h1] at h ⊢
  by_cases h2 : 0xc2 ≤ lead.toNat ∧ lead.toNat ≤ 0xdf
  · rw [if_pos h2] at h ⊢
    rcases rest with _ | ⟨x, t⟩
    · simp at h
    · dsimp only at h
      split at h
      · rename_i hx
        obtain ⟨hc, rfl⟩ := Prod.mk.inj h
        refine ⟨by simpa [hx] using hc, ?_⟩
        have hx' := hx
        simp [isContinuation] at hx'
        simp
        omega
      · simp at h
  rw [if_neg h2] at h ⊢
  by_cases h3 : 0xe0 ≤ lead.toNat ∧ lead.toNat ≤ 0xef
  · rw [if_pos h3] at h ⊢
    rcases rest with _ | ⟨x, _ | ⟨y, t⟩⟩
    · simp at h
    · dsimp only at h
      split at h <;> simp at h
    · dsimp only at h
      split at h
      · split at h
        · rename_i hx hy
          obtain ⟨hc, rfl⟩ := Prod.mk.inj h
          refine ⟨by simpa [hx, hy] using hc, ?_⟩
          have hx' := second3Ok_le hx
          simp [isContinuation] at hy
          simp
          omega
        · simp at h
      · simp at h
  rw [if_neg h3] at h ⊢
  by_cases h4 : 0xf0 ≤ lead.toNat ∧ lead.toNat ≤ 0xf4
  · rw [if_pos h4] at h ⊢
    rcases rest with _ | ⟨x, _ | ⟨y, _ | ⟨z, t⟩⟩⟩
    · simp at h
    · dsimp only at h
      split at h <;> simp at h
    · dsimp only at h
      split at h
      · split at h <;> simp at h
      · simp at h
    · dsimp only at h
      split at h
      · split at h
        · split at h
          · rename_i hx hy hz
            obtain ⟨hc, rfl⟩ := Prod.mk.inj h
            refine ⟨by simpa [hx, hy, hz] using hc, ?_⟩
            have hx' := second4Ok_le hx
            simp [isContinuation] at hy hz
            simp
            omega
          · simp at h
        · simp at h
      · simp at h
  · rw [if_neg h4] at h
    simp at h

theorem decodeLossy_of_decodeStrict : ∀ {k : Nat} {bs : Bytes} {cs : List Char},
    decodeStrict k bs = some cs → decodeLossy k bs = cs
  | 0, _, cs, h => by
      obtain rfl : [] = cs := by simpa [decodeStrict] using h
      rfl
  | _ + 1, [], cs, h => by
      obtain rfl : [] = cs := by simpa [decodeStrict] using h
      rfl
  | k + 1, b :: bs, cs, h => by
      unfold decodeStrict at h
      unfold decodeLossy
      obtain ⟨c, n, hstep⟩ : ∃ c n, decodeStep b bs = (c, n) := ⟨_, _, rfl⟩
      rw [hstep] at h ⊢
      cases c with
      | none => simp at h
      | some c =>
          simp only [Option.map_eq_some_iff] at h
          obtain ⟨cs', hcs, rfl⟩ := h
          simp only [decodeLossy_of_decodeStrict hcs, Option.getD_some]

theorem decodeStep_of_lt {lead : UInt8} (h : lead.toNat < 0x80) (rest : Bytes) :
    decodeStep lead rest = (some (Char.ofNat lead.toNat), 1) := by
  unfold decodeStep
  exact if_pos h

/-- An ASCII byte of a text is a character of its own. -/
theorem mem_utf8Chars_of_mem {b : UInt8} (hb : b.toNat < 0x80) :
    ∀ {k : Nat} {bs : Bytes} {cs : List Char}, bs.length ≤ k → utf8Chars bs = some cs → b ∈ bs →
      Char.ofNat b.toNat ∈ cs
  | _, [], _, _, _, hmem => absurd hmem List.not_mem_nil
  | k + 1, x :: bs, cs, hk, h, hmem => by
      obtain ⟨c, n, hstep⟩ := utf8Chars_cons_isSome (Option.isSome_iff_exists.mpr ⟨cs, h⟩)
      have hpos := decodeStep_pos x bs
      rw [hstep] at hpos
      rw [utf8Chars_cons hstep, Option.map_eq_some_iff] at h
      obtain ⟨cs', hcs, rfl⟩ := h
      rw [← List.take_append_drop n (x :: bs)] at hmem
      rcases List.mem_append.mp hmem with hown | hlater
      · obtain ⟨m, rfl⟩ := Nat.exists_eq_add_of_le' hpos
        rw [List.take_succ_cons] at hown
        rcases List.mem_cons.mp hown with rfl | hown
        · rw [decodeStep_of_lt hb] at hstep
          rw [← Option.some.inj (Prod.mk.inj hstep).1]
          exact List.mem_cons_self
        · exact absurd ((decodeStep_take hstep).2 b hown).2 (by omega)
      · refine List.mem_cons_of_mem c (mem_utf8Chars_of_mem hb (k := k) ?_ hcs hlater)
        rw [List.length_drop, List.length_cons]
        rw [List.length_cons] at hk
        omega

/-! ## Owned strings -/

/-- A string: bytes that are well-formed UTF-8. -/
structure Str where
  bytes : Bytes
  valid : (utf8Chars bytes).isSome = true
deriving DecidableEq

def Str.chars (s : Str) : List Char := (utf8Chars s.bytes).get s.valid

def Str.fromUtf8 (bs : Bytes) : Option Str :=
  if h : (utf8Chars bs).isSome = true then some ⟨bs, h⟩ else none

@[simp] theorem Str.fromUtf8_bytes (s : Str) : Str.fromUtf8 s.bytes = some s :=
  dif_pos s.valid

theorem Str.mem_bytes_of_mem_chars {s : Str} {c : Char} (hpos : 0 < c.toNat)
    (hc : c.toNat < 128) (h : c ∈ s.chars) : UInt8.ofNat c.toNat ∈ s.bytes :=
  mem_of_mem_decodeStrict hpos hc (Option.some_get s.valid).symm h

/-! ## Encoding -/

/-- The bytes of a string that is held as its characters. -/
def utf8Encode (text : List Char) : Bytes := text.flatMap String.utf8EncodeChar

/-- A character is one byte of its own value, or its first byte is outside ASCII. -/
theorem utf8EncodeChar_cases (c : Char) :
    (c.toNat < 0x80 ∧ String.utf8EncodeChar c = [UInt8.ofNat c.toNat]) ∨
      ∃ b ∈ String.utf8EncodeChar c, 0x80 ≤ b.toNat := by
  have hfirst : ∀ {n : Nat} (rest : Bytes), 0x80 ≤ n % 256 →
      ∃ b ∈ UInt8.ofNat n :: rest, 0x80 ≤ b.toNat := fun rest hn =>
    ⟨_, List.mem_cons_self, by rwa [UInt8.toNat_ofNat']⟩
  fun_cases String.utf8EncodeChar c with
  | case1 v h => exact Or.inl ⟨Nat.lt_succ_of_le h, rfl⟩
  | case2 v => exact Or.inr (hfirst _ (by omega))
  | case3 v => exact Or.inr (hfirst _ (by omega))
  | case4 v => exact Or.inr (hfirst _ (by omega))

/-- A test that only ASCII bytes pass sees the characters themselves. -/
theorem all_utf8Encode {p : UInt8 → Bool} (hp : ∀ b, p b = true → b.toNat < 0x80)
    {text : List Char} (h : (utf8Encode text).all p = true) :
    ∀ c ∈ text, c.toNat < 0x80 ∧ p (UInt8.ofNat c.toNat) = true := by
  intro c hc
  have hall : ∀ b ∈ String.utf8EncodeChar c, p b = true := fun b hb =>
    List.all_eq_true.mp h b (List.mem_flatMap.mpr ⟨c, hc, hb⟩)
  rcases utf8EncodeChar_cases c with ⟨hlt, hone⟩ | ⟨b, hb, hle⟩
  · rw [hone] at hall
    exact ⟨hlt, hall _ (by simp)⟩
  · have := hp b (hall b hb)
    omega

theorem zero_mem_utf8EncodeChar {c : Char} (h : 0 ∈ String.utf8EncodeChar c) : c.toNat = 0 := by
  have hne : ∀ {n : Nat}, 0x80 ≤ n % 256 → (0 : UInt8) ≠ UInt8.ofNat n := by
    intro n hn heq
    have hnat := congrArg UInt8.toNat heq
    rw [UInt8.toNat_ofNat'] at hnat
    simp only [UInt8.toNat_zero] at hnat
    omega
  revert h
  fun_cases String.utf8EncodeChar c with
  | case1 v hv =>
      intro h
      have heq := congrArg UInt8.toNat (List.mem_singleton.mp h)
      rw [UInt8.toNat_ofNat', Nat.mod_eq_of_lt (by omega)] at heq
      exact heq.symm
  | case2 v =>
      intro h
      simp only [List.mem_cons, List.not_mem_nil, or_false] at h
      rcases h with h | h
      · exact absurd h (hne (by omega))
      · exact absurd h (hne (by omega))
  | case3 v =>
      intro h
      simp only [List.mem_cons, List.not_mem_nil, or_false] at h
      rcases h with h | h | h
      · exact absurd h (hne (by omega))
      · exact absurd h (hne (by omega))
      · exact absurd h (hne (by omega))
  | case4 v =>
      intro h
      simp only [List.mem_cons, List.not_mem_nil, or_false] at h
      rcases h with h | h | h | h
      · exact absurd h (hne (by omega))
      · exact absurd h (hne (by omega))
      · exact absurd h (hne (by omega))
      · exact absurd h (hne (by omega))

/-- Only the NUL character has a zero byte. -/
theorem zero_notMem_utf8Encode {text : List Char} (h : '\x00' ∉ text) : 0 ∉ utf8Encode text := by
  intro hmem
  obtain ⟨c, hc, hzero⟩ := List.mem_flatMap.mp hmem
  have hnul : c = '\x00' := by
    rw [← Char.ofNat_toNat c, zero_mem_utf8EncodeChar hzero]
  exact h (hnul ▸ hc)

theorem toNat_ofNat_of_lt {n : Nat} (h : n < 256) : (UInt8.ofNat n).toNat = n := by
  rw [UInt8.toNat_ofNat', Nat.mod_eq_of_lt h]

/-- A decoding step undoes the encoding of one character. -/
theorem decodeStep_utf8EncodeChar (c : Char) (rest : Bytes) :
    ∃ b bs, String.utf8EncodeChar c = b :: bs ∧
      decodeStep b (bs ++ rest) = (some c, (b :: bs).length) := by
  have hc : Char.ofNat c.val.toNat = c := Char.ofNat_toNat c
  have hvalid : c.val.toNat < 0xd800 ∨ 0xdfff < c.val.toNat ∧ c.val.toNat < 0x110000 := c.valid
  have hcont : ∀ {n : Nat}, n < 64 → (UInt8.ofNat (n + 0x80)).toNat = n + 0x80 ∧
      isContinuation (UInt8.ofNat (n + 0x80)) = true := by
    intro n hn
    have htoNat := toNat_ofNat_of_lt (n := n + 0x80) (by omega)
    refine ⟨htoNat, ?_⟩
    unfold isContinuation
    rw [htoNat]
    simp only [Bool.and_eq_true, decide_eq_true_eq]
    omega
  revert hc hvalid
  fun_cases String.utf8EncodeChar c with
  | case1 v h =>
      intro hc hvalid
      refine ⟨_, _, rfl, ?_⟩
      have hlead := toNat_ofNat_of_lt (n := v) (by omega)
      unfold decodeStep
      simp only [hlead]
      rw [if_pos (by omega), hc]
      rfl
  | case2 v h h' =>
      intro hc hvalid
      refine ⟨_, _, rfl, ?_⟩
      have hlead := toNat_ofNat_of_lt (n := v / 64 % 0x20 + 0xc0) (by omega)
      obtain ⟨hsecond, hok⟩ := hcont (n := v % 0x40) (by omega)
      unfold decodeStep
      simp only [hlead, hsecond, List.cons_append, List.nil_append, hok, if_true]
      rw [if_neg (by omega), if_pos (by omega)]
      have hv : (v / 64 % 0x20 + 0xc0 - 0xc0) * 64 + (v % 0x40 + 0x80 - 0x80) = v := by omega
      rw [hv, hc]
      rfl
  | case3 v h h' h'' =>
      intro hc hvalid
      refine ⟨_, _, rfl, ?_⟩
      have hlead := toNat_ofNat_of_lt (n := v / 4096 % 0x10 + 0xe0) (by omega)
      obtain ⟨hsecond, -⟩ := hcont (n := v / 64 % 0x40) (by omega)
      obtain ⟨hthird, hok⟩ := hcont (n := v % 0x40) (by omega)
      have hok' : second3Ok (v / 4096 % 0x10 + 0xe0) (v / 64 % 0x40 + 0x80) = true := by
        unfold second3Ok
        split
        · simp only [Bool.and_eq_true, decide_eq_true_eq]
          omega
        · split
          · simp only [Bool.and_eq_true, decide_eq_true_eq]
            omega
          · simp only [Bool.and_eq_true, decide_eq_true_eq]
            omega
      unfold decodeStep
      simp only [hlead, hsecond, hthird, List.cons_append, List.nil_append, hok, hok', if_true]
      rw [if_neg (by omega), if_neg (by omega), if_pos (by omega)]
      have hv : (v / 4096 % 0x10 + 0xe0 - 0xe0) * 4096 + (v / 64 % 0x40 + 0x80 - 0x80) * 64 +
          (v % 0x40 + 0x80 - 0x80) = v := by omega
      rw [hv, hc]
      rfl
  | case4 v h h' h'' =>
      intro hc hvalid
      refine ⟨_, _, rfl, ?_⟩
      have hlead := toNat_ofNat_of_lt (n := v / 262144 % 0x08 + 0xf0) (by omega)
      obtain ⟨hsecond, -⟩ := hcont (n := v / 4096 % 0x40) (by omega)
      obtain ⟨hthird, hok⟩ := hcont (n := v / 64 % 0x40) (by omega)
      obtain ⟨hfourth, hok''⟩ := hcont (n := v % 0x40) (by omega)
      have hok' : second4Ok (v / 262144 % 0x08 + 0xf0) (v / 4096 % 0x40 + 0x80) = true := by
        unfold second4Ok
        split
        · simp only [Bool.and_eq_true, decide_eq_true_eq]
          omega
        · split
          · simp only [Bool.and_eq_true, decide_eq_true_eq]
            omega
          · simp only [Bool.and_eq_true, decide_eq_true_eq]
            omega
      unfold decodeStep
      simp only [hlead, hsecond, hthird, hfourth, List.cons_append, List.nil_append, hok, hok', hok'',
        if_true]
      rw [if_neg (by omega), if_neg (by omega), if_neg (by omega), if_pos (by omega)]
      have hv : (v / 262144 % 0x08 + 0xf0 - 0xf0) * 262144 +
          (v / 4096 % 0x40 + 0x80 - 0x80) * 4096 + (v / 64 % 0x40 + 0x80 - 0x80) * 64 +
          (v % 0x40 + 0x80 - 0x80) = v := by omega
      rw [hv, hc]
      rfl

/-- Encoded text decodes to itself. -/
theorem utf8Chars_utf8Encode : ∀ text : List Char, utf8Chars (utf8Encode text) = some text
  | [] => rfl
  | c :: text => by
      obtain ⟨b, bs, hencode, hstep⟩ := decodeStep_utf8EncodeChar c (utf8Encode text)
      have hcons : utf8Encode (c :: text) = b :: (bs ++ utf8Encode text) := by
        rw [utf8Encode, List.flatMap_cons, hencode]
        rfl
      have hdrop : (b :: (bs ++ utf8Encode text)).drop (b :: bs).length = utf8Encode text :=
        @List.drop_left _ (b :: bs) _
      rw [hcons, utf8Chars_cons hstep, hdrop, utf8Chars_utf8Encode text]
      rfl

end ByteString
