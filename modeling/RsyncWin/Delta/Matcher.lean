import RsyncWin.Transfer.DeltaTokens

/-!
# Deltas in memory (`rsync-delta/src/{signature,matcher,apply}.rs`)

The library form of the algorithm: a delta of literals and copies of basis
ranges, against the signatures of the basis. What the tokens so far and the
pending literal give back is at every turn of the loop the target up to the
position reached.
-/

namespace RsyncWin

open ByteString

/-! ## Signatures -/

inductive SignatureError where
  | zeroBlockSize
deriving DecidableEq, Repr

section Signatures

variable (digest : Bytes → Bytes)

def generateSignaturesWith (basis : Bytes) (blockSize : Nat) :
    Except SignatureError (List BlockSignature) :=
  if blockSize = 0 then .error .zeroBlockSize
  else .ok ((chunks blockSize basis).mapIdx fun index block =>
    ⟨index, index * blockSize, block.length, rollingChecksum block, digest block⟩)

end Signatures

/-! ## Matching -/

inductive DeltaToken where
  | literal (bytes : Bytes)
  | copy (offset len : Nat)
deriving DecidableEq, Repr

structure SignatureIndex where
  signatures : List BlockSignature
  lengthsDesc : List Nat
  byLenAndWeak : Nat × Nat → List Nat

namespace SignatureIndex

/-- `entry((len, weak)).or_default().push(index)`. -/
def insert (map : Nat × Nat → List Nat) (entry : BlockSignature × Nat) : Nat × Nat → List Nat :=
  let key := (entry.1.len, entry.1.weak)
  Function.update map key (map key ++ [entry.2])

def new (signatures : List BlockSignature) : SignatureIndex where
  signatures
  lengthsDesc := (signatures.map (·.len)).dedup.insertionSort (· ≥ ·)
  byLenAndWeak := signatures.zipIdx.foldl insert fun _ => []

def findMatch (index : SignatureIndex) (target : Bytes) (pos : Nat) (digest : Bytes → Bytes) :
    Option BlockSignature :=
  index.lengthsDesc.findSome? fun len =>
    if target.length - pos < len then none
    else
      let candidate := (target.drop pos).take len
      let signatureIndexes := index.byLenAndWeak (len, rollingChecksum candidate)
      signatureIndexes.findSome? fun signatureIndex =>
        index.signatures[signatureIndex]?.filter fun signature =>
          signature.strong = digest candidate

end SignatureIndex

def flushLiteral (tokens : List DeltaToken) (literal : Bytes) : List DeltaToken :=
  if literal = [] then tokens else tokens ++ [.literal literal]

section Generate

variable (digest : Bytes → Bytes)

/-- The loop over the target; the counter bounds its turns. -/
def matchLoop (index : SignatureIndex) (target : Bytes) :
    Nat → Nat → Bytes → List DeltaToken → Option (List DeltaToken)
  | 0, _, _, _ => none
  | fuel + 1, pos, literal, tokens =>
      if h : pos < target.length then
        match index.findMatch target pos digest with
        | some signature =>
            matchLoop index target fuel (pos + signature.len) []
              (flushLiteral tokens literal ++ [.copy signature.offset signature.len])
        | none => matchLoop index target fuel (pos + 1) (literal ++ [target[pos]]) tokens
      else some (flushLiteral tokens literal)

def generateDeltaWith (fuel : Nat) (signatures : List BlockSignature) (target : Bytes) :
    Option (List DeltaToken) :=
  if target = [] then some []
  else if signatures = [] then some [.literal target]
  else matchLoop digest (SignatureIndex.new signatures) target fuel 0 [] []

end Generate

/-! ## Applying -/

inductive ApplyError where
  | copyOutOfBounds (offset len basisLen : Nat)
deriving DecidableEq, Repr

/-- A sum that overflows lies past every basis, with the same error. -/
def copyRange (basis : Bytes) (offset len : Nat) : Except ApplyError Bytes :=
  if offset + len ≤ basis.length then .ok ((basis.drop offset).take len)
  else .error (.copyOutOfBounds offset len basis.length)

def applyTokens (basis : Bytes) : Bytes → List DeltaToken → Except ApplyError Bytes
  | output, [] => .ok output
  | output, .literal bytes :: tokens => applyTokens basis (output ++ bytes) tokens
  | output, .copy offset len :: tokens => do
      let bytes ← copyRange basis offset len
      applyTokens basis (output ++ bytes) tokens

def applyDelta (basis : Bytes) (tokens : List DeltaToken) : Except ApplyError Bytes :=
  applyTokens basis [] tokens

/-! ## What the signatures describe -/

section Laws

variable {digest : Bytes → Bytes} {basis target : Bytes} {b : Nat}

/-- A signature of the block of the basis at its offset. -/
structure SignsBlock (digest : Bytes → Bytes) (b : Nat) (basis : Bytes)
    (signature : BlockSignature) : Prop where
  block : (basis.drop signature.offset).take signature.len ∈ chunks b basis
  within : signature.offset + signature.len ≤ basis.length
  pos : 0 < signature.len
  weak : signature.weak = rollingChecksum ((basis.drop signature.offset).take signature.len)
  strong : signature.strong = digest ((basis.drop signature.offset).take signature.len)

theorem generateSignaturesWith_ok (hb : 0 < b) : ∃ signatures,
    generateSignaturesWith digest basis b = .ok signatures ∧
      ∀ signature ∈ signatures, SignsBlock digest b basis signature := by
  refine ⟨_, by rw [generateSignaturesWith, if_neg (by omega)], fun signature hmem => ?_⟩
  obtain ⟨i, hi, rfl⟩ := List.mem_mapIdx.mp hmem
  have hget := chunks_getElem? hb basis i
  rw [List.getElem?_eq_getElem hi] at hget
  split at hget
  · rename_i hlt
    have hblock := Option.some.inj hget
    have hlen : (chunks b basis)[i].length = min b (basis.length - i * b) := by
      rw [hblock, List.length_take, List.length_drop]
    have hself : (basis.drop (i * b)).take (chunks b basis)[i].length = (chunks b basis)[i] := by
      rw [hlen, hblock, List.take_eq_take_iff, List.length_drop]
      omega
    refine ⟨?_, ?_, ?_, ?_, ?_⟩
    · rw [hself]
      exact List.getElem_mem hi
    · show i * b + (chunks b basis)[i].length ≤ basis.length
      omega
    · show 0 < (chunks b basis)[i].length
      omega
    · show _ = rollingChecksum ((basis.drop (i * b)).take (chunks b basis)[i].length)
      rw [hself]
    · show _ = digest ((basis.drop (i * b)).take (chunks b basis)[i].length)
      rw [hself]
  · cases hget

/-- Every index in the map is of a signature with the length and checksum of its key. -/
theorem byLenAndWeak_new (signatures : List BlockSignature) {key : Nat × Nat} {i : Nat}
    (h : i ∈ (SignatureIndex.new signatures).byLenAndWeak key) :
    ∃ signature, signatures[i]? = some signature ∧ (signature.len, signature.weak) = key := by
  have hfold : ∀ (entries : List (BlockSignature × Nat)) (map : Nat × Nat → List Nat),
      i ∈ entries.foldl SignatureIndex.insert map key →
        i ∈ map key ∨ ∃ signature, (signature, i) ∈ entries ∧
          (signature.len, signature.weak) = key := by
    intro entries
    induction entries with
    | nil => exact fun map h => Or.inl h
    | cons entry entries ih =>
        intro map h
        rcases ih _ h with hmap | ⟨signature, hmem, hkey⟩
        · unfold SignatureIndex.insert Function.update at hmap
          split at hmap
          · rename_i hkey
            subst hkey
            rcases List.mem_append.mp hmap with hold | hnew
            · exact Or.inl hold
            · rw [List.mem_singleton] at hnew
              exact Or.inr ⟨entry.1, by simp [hnew], rfl⟩
          · exact Or.inl hmap
        · exact Or.inr ⟨signature, List.mem_cons_of_mem entry hmem, hkey⟩
  rcases hfold _ _ h with hnil | ⟨signature, hmem, hkey⟩
  · cases hnil
  · exact ⟨signature, List.mem_zipIdx_iff_getElem?.mp hmem, hkey⟩

theorem findMatch_new {signatures : List BlockSignature} {pos : Nat} {signature : BlockSignature}
    (h : (SignatureIndex.new signatures).findMatch target pos digest = some signature) :
    signature ∈ signatures ∧ signature.len ≤ target.length - pos ∧
      signature.weak = rollingChecksum ((target.drop pos).take signature.len) ∧
      signature.strong = digest ((target.drop pos).take signature.len) := by
  obtain ⟨len, -, hlen⟩ := List.exists_of_findSome?_eq_some h
  split at hlen
  · cases hlen
  · rename_i hfits
    obtain ⟨i, hi, hfilter⟩ := List.exists_of_findSome?_eq_some hlen
    obtain ⟨found, hfound, hkey⟩ := byLenAndWeak_new signatures hi
    rw [Option.filter_eq_some_iff] at hfilter
    obtain ⟨hget, hstrong⟩ := hfilter
    obtain rfl := Option.some.inj (hfound.symm.trans hget)
    obtain ⟨rfl, hweak⟩ := Prod.mk.inj hkey
    exact ⟨List.mem_of_getElem? hfound, by omega, hweak, of_decide_eq_true hstrong⟩

/-! ## What the loop preserves -/

theorem applyTokens_append : ∀ {tokens tokens' : List DeltaToken} {output : Bytes},
    applyTokens basis output (tokens ++ tokens') =
      (applyTokens basis output tokens).bind fun output' => applyTokens basis output' tokens'
  | [], tokens', output => rfl
  | .literal bytes :: tokens, tokens', output => by
      rw [List.cons_append, applyTokens, applyTokens, applyTokens_append]
  | .copy offset len :: tokens, tokens', output => by
      rw [List.cons_append, applyTokens, applyTokens]
      cases copyRange basis offset len with
      | error e => rfl
      | ok bytes => exact applyTokens_append

/-- The tokens and the pending literal give the first `pos` bytes of the target,
with every copy inside the basis. -/
structure Rebuilds (basis target : Bytes) (pos : Nat) (literal : Bytes)
    (tokens : List DeltaToken) : Prop where
  applied : ∃ output, applyDelta basis tokens = .ok output ∧ output ++ literal = target.take pos
  within : ∀ offset len, .copy offset len ∈ tokens → offset + len ≤ basis.length

theorem Rebuilds.start : Rebuilds basis target 0 [] [] :=
  ⟨⟨[], rfl, rfl⟩, by simp⟩

theorem Rebuilds.flush {pos : Nat} {literal : Bytes} {tokens : List DeltaToken}
    (h : Rebuilds basis target pos literal tokens) :
    Rebuilds basis target pos [] (flushLiteral tokens literal) := by
  obtain ⟨⟨output, happly, hout⟩, hwithin⟩ := h
  unfold flushLiteral
  split
  · rename_i hnil
    exact ⟨⟨output, happly, by rwa [hnil] at hout⟩, hwithin⟩
  · refine ⟨⟨output ++ literal, ?_, by rwa [List.append_nil]⟩, ?_⟩
    · unfold applyDelta at happly ⊢
      rw [applyTokens_append, happly]
      rfl
    · intro offset len hmem
      exact hwithin offset len (by simpa using hmem)

theorem Rebuilds.literal {pos : Nat} {literal : Bytes} {tokens : List DeltaToken}
    (h : Rebuilds basis target pos literal tokens) (hpos : pos < target.length) :
    Rebuilds basis target (pos + 1) (literal ++ [target[pos]]) tokens := by
  obtain ⟨⟨output, happly, hout⟩, hwithin⟩ := h
  refine ⟨⟨output, happly, ?_⟩, hwithin⟩
  rw [← List.append_assoc, hout, List.take_append_getElem hpos]

theorem Rebuilds.copy {pos offset len : Nat} {tokens : List DeltaToken}
    (h : Rebuilds basis target pos [] tokens) (hwithin : offset + len ≤ basis.length)
    (hsame : (basis.drop offset).take len = (target.drop pos).take len) :
    Rebuilds basis target (pos + len) [] (tokens ++ [.copy offset len]) := by
  obtain ⟨⟨output, happly, hout⟩, hcopies⟩ := h
  refine ⟨⟨target.take (pos + len), ?_, List.append_nil _⟩, ?_⟩
  · rw [List.append_nil] at hout
    unfold applyDelta at happly ⊢
    rw [applyTokens_append, happly, hout, List.take_add, ← hsame]
    show (copyRange basis offset len).bind _ = _
    rw [copyRange, if_pos hwithin]
    rfl
  · intro offset' len' hmem
    rcases List.mem_append.mp hmem with hmem | hmem
    · exact hcopies offset' len' hmem
    · obtain ⟨rfl, rfl⟩ := DeltaToken.copy.inj (List.mem_singleton.mp hmem)
      exact hwithin

/-- A block of the basis or a window of the target. -/
def Compared (b : Nat) (basis target block : Bytes) : Prop :=
  block ∈ chunks b basis ∨ block <:+: target

/-- No two different ones of equal length share both checksums. -/
def ChecksumsTell (digest : Bytes → Bytes) (b : Nat) (basis target : Bytes) : Prop :=
  ∀ x y, Compared b basis target x → Compared b basis target y → x.length = y.length →
    rollingChecksum x = rollingChecksum y → digest x = digest y → x = y

/-- Induction on the counter; the invariant is `Rebuilds`. -/
theorem matchLoop_rebuilds {signatures : List BlockSignature}
    (hsigns : ∀ signature ∈ signatures, SignsBlock digest b basis signature)
    (htell : ChecksumsTell digest b basis target) :
    ∀ {fuel pos : Nat} {literal : Bytes} {tokens : List DeltaToken}, target.length < pos + fuel →
      pos ≤ target.length → Rebuilds basis target pos literal tokens → ∃ result,
        matchLoop digest (SignatureIndex.new signatures) target fuel pos literal tokens =
          some result ∧ Rebuilds basis target target.length [] result
  | 0, pos, literal, tokens, hfuel, hle, _ => by omega
  | fuel + 1, pos, literal, tokens, hfuel, hle, h => by
      rw [matchLoop]
      split
      · rename_i hpos
        cases hmatch : (SignatureIndex.new signatures).findMatch target pos digest with
        | none => exact matchLoop_rebuilds hsigns htell (by omega) hpos (h.literal hpos)
        | some signature =>
            obtain ⟨hmem, hlen, hweak, hstrong⟩ := findMatch_new hmatch
            have hblock := hsigns signature hmem
            have hwithin := hblock.within
            have hlenpos := hblock.pos
            -- equal checksums, so the window is the block
            have hsame : (basis.drop signature.offset).take signature.len =
                (target.drop pos).take signature.len := by
              refine htell _ _ (Or.inl hblock.block) (Or.inr ?_) ?_ ?_ ?_
              · exact ((List.take_prefix _ _).isInfix).trans (List.drop_suffix _ _).isInfix
              · simp only [List.length_take, List.length_drop]
                omega
              · rw [← hblock.weak, hweak]
              · rw [← hblock.strong, hstrong]
            exact matchLoop_rebuilds hsigns htell (by omega) (by omega)
              (h.flush.copy hwithin hsame)
      · have hend : pos = target.length := by omega
        exact ⟨_, rfl, hend ▸ h.flush⟩

/-- A target is rebuilt from its delta, by copies inside the basis. -/
theorem apply_generated_delta (digest : Bytes → Bytes) (basis target : Bytes) {b : Nat}
    (hb : 0 < b) (htell : ChecksumsTell digest b basis target) :
    ∃ signatures, generateSignaturesWith digest basis b = .ok signatures ∧
      ∀ fuel, target.length < fuel → ∃ tokens,
        generateDeltaWith digest fuel signatures target = some tokens ∧
          applyDelta basis tokens = .ok target ∧
          ∀ offset len, .copy offset len ∈ tokens → offset + len ≤ basis.length := by
  obtain ⟨signatures, hok, hsigns⟩ := @generateSignaturesWith_ok digest basis b hb
  refine ⟨signatures, hok, fun fuel hfuel => ?_⟩
  unfold generateDeltaWith
  split
  · rename_i hnil
    exact ⟨[], rfl, by rw [hnil]; rfl, by simp⟩
  · split
    · exact ⟨_, rfl, rfl, by simp⟩
    · obtain ⟨tokens, hloop, ⟨output, happly, hout⟩, hwithin⟩ :=
        @matchLoop_rebuilds digest basis target b signatures hsigns htell fuel 0 [] []
          (by omega) (Nat.zero_le _) Rebuilds.start
      refine ⟨tokens, hloop, ?_, hwithin⟩
      rw [List.append_nil, List.take_length] at hout
      rw [happly, hout]

end Laws

/-- `abcd` in blocks of two, against `xcdab`; the digest is the block itself. -/
theorem apply_generated_delta_moved : ∃ signatures tokens,
    generateSignaturesWith id [1, 2, 3, 4] 2 = .ok signatures ∧
      generateDeltaWith id 6 signatures [9, 3, 4, 1, 2] = some tokens ∧
      applyDelta [1, 2, 3, 4] tokens = .ok [9, 3, 4, 1, 2] := by
  obtain ⟨signatures, hok, hdelta⟩ := apply_generated_delta id [1, 2, 3, 4] [9, 3, 4, 1, 2]
    (b := 2) (by decide) fun x y _ _ _ _ h => h
  obtain ⟨tokens, htokens, happly, -⟩ := hdelta 6 (by decide)
  exact ⟨signatures, tokens, hok, htokens, happly⟩

end RsyncWin
