import RsyncWin.Remote.Receive
import RsyncWin.Transfer.DeltaTransfer
import RsyncWin.Transfer.TokenSafety

/-!
# What a receiver writes, whatever it is sent

The temporary file is never the target, so tokens that are refused leave the
destination as it was.
-/

namespace RsyncWin

open ByteString Codec Duplex

/-! ## The temporary file -/

theorem tempPath_ne_target (processId nanos : Nat) (target : LocalPath) :
    tempPath processId nanos target ≠ target := by
  intro h
  have hlast : target.getLast? = some (.normal (tempName processId nanos target)) := by
    conv_lhs => rw [← h]
    simp [tempPath]
  have hname : target.fileName = some (tempName processId nanos target) := by
    unfold LocalPath.fileName
    rw [hlast]
  have hlong : ∀ name, target.fileName = some name →
      name.length < (tempName processId nanos target).length := by
    intro name hfile
    have hlossy := length_le_lossyBytes name
    simp only [tempName, hfile, Option.map_some, Option.getD_some, List.length_append, ascii,
      List.length_map]
    have hdot : (".".toList).length = 1 := rfl
    omega
  exact Nat.lt_irrefl _ (hlong _ hname)

/-! ## Refused tokens -/

section Refused

variable {flate : Flate} {hashes : Hashes} {chunkFuel : Nat} {ctx : RemoteReceiveContext}
  {entry : RsyncFileListEntry} {sumHead : Option RemoteSumHead} {r : Received} {s s₁ s₂ : Heard}
  {temp : LocalPath} {e : Error}

theorem ensures_receiveTempPath {processId : Nat} {target : LocalPath} :
    (receiveTempPath processId target).Ensures heardHandler (fun s' => s'.mem.files = s.mem.files)
      (fun temp s' => s'.mem.files = s.mem.files ∧ temp ≠ target) s := by
  refine Prog.Ensures.bind (ensures_perform rfl ?_)
  intro r m hr
  have hfiles : m.files = s.mem.files := by
    funext p
    exact machine_frame hr (by simp [LocalOp.writes])
  exact ⟨hfiles, fun nanos _ => ⟨hfiles, hfiles, tempPath_ne_target _ _ _⟩⟩

theorem ensures_removeLocalFileBestEffort {path kept : LocalPath} {content : Option Bytes}
    (hne : path ≠ kept) (h : s.mem.files kept = content) :
    (removeLocalFileBestEffort path).Ensures heardHandler (fun s' => s'.mem.files kept = content)
      (fun _ s' => s'.mem.files kept = content) s := by
  refine Prog.Ensures.bind (ensures_loc (L := localSig) h ?_)
  intro r m hr
  have hm : m.files kept = content := by
    rw [machine_frame hr (by simpa [LocalOp.writes] using hne), h]
  exact ⟨hm, hm, hm⟩

/-- While tokens are read the target keeps its content. -/
theorem ensures_readTokensInto {kept : LocalPath} (hne : temp ≠ kept) :
    (readTokensInto flate hashes chunkFuel ctx entry sumHead temp).Ensures heardHandler
      (fun s' => s'.mem.files kept = s.mem.files kept) (fun _ _ => True) s := by
  refine (ensures_readFileTokens.mono_always ?_).mono fun _ _ _ => trivial
  intro s' hwithin
  exact hwithin.others kept (Ne.symm hne)

theorem ensures_receiveFile_refused
    (htemp : (receiveTempPath ctx.processId (ctx.dest.join entry.path)).run heardHandler s =
      .ret temp s₁)
    (htokens : (readTokensInto flate hashes chunkFuel ctx entry sumHead temp).run heardHandler s₁ =
      .fail e s₂) :
    (receiveFile flate hashes chunkFuel ctx entry sumHead r).Ensures heardHandler
      (fun s' => s'.mem.files (ctx.dest.join entry.path) = s.mem.files (ctx.dest.join entry.path))
      (fun _ _ => False) s := by
  have hkept : ∀ s' : Heard, s'.mem.files = s.mem.files →
      s'.mem.files (ctx.dest.join entry.path) = s.mem.files (ctx.dest.join entry.path) := by
    intro s' h
    rw [h]
  refine Prog.Ensures.bind
    ((ensures_receiveTempPath.mono_always hkept).with_run.mono ?_)
  rintro temp' s' ⟨⟨hfiles, hne⟩, hrun⟩
  obtain ⟨rfl, rfl⟩ : temp = temp' ∧ s₁ = s' := by simpa [htemp] using hrun
  have hread := @ensures_readTokensInto flate hashes chunkFuel ctx entry sumHead s₁ temp _ hne
  rw [hkept s₁ hfiles] at hread
  refine Prog.Ensures.bind (hread.attempt.with_run.mono ?_)
  rintro result s'' ⟨⟨hkept', -⟩, hrun'⟩
  rw [Prog.run_attempt, htokens] at hrun'
  obtain ⟨rfl, rfl⟩ : Except.error e = result ∧ s₂ = s'' := by simpa using hrun'
  refine Prog.Ensures.bind ((ensures_removeLocalFileBestEffort hne hkept').mono ?_)
  intro _ s₃ h₃
  exact h₃

end Refused

/-- **Receiver integrity.** For any peer, machine, basis and sum head: a token
read that returns has the expected length and the checksum the peer sent behind
the end mark; at no point does the output file outgrow the expected length; and
a token read that fails leaves the destination as it was. -/
theorem receiver_integrity (flate : Flate) (hashes : Hashes) (chunkFuel : Nat) :
    (∀ (t : TokenTarget) (basis : Option (LocalPath × RemoteSumHead))
      (compression : Option RsyncDeflatedTokenMode) (maxAlloc : Option Nat) (s : Heard),
      (∀ n s', (readFileTokensToPathWithBasis flate hashes chunkFuel t basis compression
          maxAlloc).run heardHandler s = .ret n s' →
        n = t.expectedLen ∧ ∃ content earlier sum, s'.mem.files t.output = some content ∧
          content.length = t.expectedLen ∧ s'.heard = earlier ++ [endMark compression, sum] ∧
          sum.length = 16 ∧ finalDigest hashes t.checksum content = sum) ∧
      ∀ s' ∈ (readFileTokensToPathWithBasis flate hashes chunkFuel t basis compression
          maxAlloc).states heardHandler s,
        s'.mem.files t.output = s.mem.files t.output ∨
          ∃ content, s'.mem.files t.output = some content ∧ content.length ≤ t.expectedLen) ∧
    ∀ (ctx : RemoteReceiveContext) (entryIndex iflags : Nat) (entry : RsyncFileListEntry)
      (sumHead : Option RemoteSumHead) (r : Received) (s s₁ s₂ : Heard) (temp : LocalPath)
      (e : Error), ctx.entries[entryIndex]? = some entry → entry.fileType = .file →
      hasFlag iflags rsyncItemTransfer = true → ctx.dryRun = false →
      (receiveTempPath ctx.processId (ctx.dest.join entry.path)).run heardHandler s =
        .ret temp s₁ →
      (readTokensInto flate hashes chunkFuel ctx entry sumHead temp).run heardHandler s₁ =
        .fail e s₂ →
      ∀ s' ∈ (applyRemoteSenderFileResponseProtocol31 flate hashes chunkFuel ctx entryIndex iflags
          sumHead r).states heardHandler s,
        s'.mem.files (ctx.dest.join entry.path) = s.mem.files (ctx.dest.join entry.path) := by
  refine ⟨?_, ?_⟩
  · intro t basis compression maxAlloc s
    have hread := @ensures_readFileTokens t s hashes basis flate chunkFuel compression maxAlloc
    refine ⟨?_, ?_⟩
    · intro n s' hrun
      obtain ⟨hn, haccepted⟩ := hread.returns hrun
      exact ⟨hn, haccepted.accepted⟩
    · intro s' hs'
      exact (hread.always s' hs').output
  · intro ctx entryIndex iflags entry sumHead r s s₁ s₂ temp e hentry hfile hflag hdry htemp htokens
    have happly : applyRemoteSenderFileResponseProtocol31 flate hashes chunkFuel ctx entryIndex
        iflags sumHead r = receiveFile flate hashes chunkFuel ctx entry sumHead r := by
      simp [applyRemoteSenderFileResponseProtocol31, hentry, hfile, hflag, hdry]
    rw [happly]
    exact (ensures_receiveFile_refused htemp htokens).always

/-! A peer that hangs up before the first token. -/

def hangUpEntry : RsyncFileListEntry := ⟨[0x66], .file, 1, 0, 0o100644, none, none, {}⟩

def hangUpContext : RemoteReceiveContext :=
  { dest := [], entries := [hangUpEntry], finalChecksum := .plainMd4, dryRun := false,
    preserveTimes := false, processId := 7 }

def hangUp : Heard :=
  { mem := { files := fun p => if p = [.normal [0x66]] then some [1, 2, 3] else none }
    inbox := ({ closed := true }, [])
    sent := [] }

theorem receiver_integrity_hangUp :
    ∀ s' ∈ (applyRemoteSenderFileResponseProtocol31 storedFlate md4Hashes 1 hangUpContext 0
        rsyncItemTransfer none {}).states heardHandler hangUp,
      s'.mem.files (hangUpContext.dest.join hangUpEntry.path) =
        hangUp.mem.files (hangUpContext.dest.join hangUpEntry.path) :=
  (receiver_integrity storedFlate md4Hashes 1).2 hangUpContext 0 rsyncItemTransfer hangUpEntry none
    {} hangUp _ _ _ _ rfl rfl rfl rfl rfl rfl

end RsyncWin
