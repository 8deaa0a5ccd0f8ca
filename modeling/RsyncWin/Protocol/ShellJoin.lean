import RsyncWin.Transport.RemoteShell

/-!
# The server command of a session (`rsync-protocol/src/session.rs`)

`shell_join` quotes every word, the program too, with its own set of safe
characters and its own way of writing a quote inside quotes. What either quoter
writes is split back into the argv it came from, and is inert.
-/

namespace RsyncWin

open ByteString ShellWords

inductive SessionError where
  | nulByteInPath
deriving DecidableEq, Repr

namespace Session

def shellQuote (value : Text) : Text :=
  if value ≠ [] ∧ value.all fun ch => ch.isAlphanum || ['_', '-', '/', '.', '='].contains ch then
    value
  else singleQuoted ['\'', '\\', '\'', '\''] value

/-- The loop over the argv; `first` while the index is 0. -/
def joinArgs : Bool → Text → List Text → Except SessionError Text
  | _, command, [] => .ok command
  | first, command, arg :: args =>
      if 0 ∈ utf8Encode arg then .error .nulByteInPath
      else joinArgs false (command ++ (if first then [] else [' ']) ++ shellQuote arg) args

def shellJoin (argv : List Text) : Except SessionError Text := joinArgs true [] argv

/-! ## What is written -/

theorem quoteEscape : QuoteEscape ['\'', '\\', '\'', '\''] := by
  constructor
  case spells =>
    intro s rest hsingle hdouble hsaw
    simp [splitWords_cons, hsingle, hdouble, WordSplit.push]
  case closed =>
    refine ⟨[(.mark, '\''), (.mark, '\\'), (.escaped, '\''), (.mark, '\'')], ?_, fun rest => ?_⟩
    · simp [Harmless]
    · cases rest <;> simp [standings]

theorem written_shellQuote (value : Text) : Written (shellQuote value) value := by
  unfold shellQuote
  split
  · rename_i hsafe
    refine Written.plain ⟨hsafe.1, fun ch hch => ?_⟩
    have hone := List.all_eq_true.mp hsafe.2 ch hch
    unfold plainChar
    simp only [Bool.or_eq_true, List.contains_iff_mem, List.mem_cons, List.not_mem_nil,
      or_false] at hone ⊢
    tauto
  · exact quoteEscape.written value

theorem writtenLine_joinArgs : ∀ {args : List Text} {line : Text} {words : List Text},
    (∀ arg ∈ args, '\x00' ∉ arg) → WrittenLine line words →
      ∃ command, joinArgs false line args = .ok command ∧ WrittenLine command (words ++ args)
  | [], line, words, _, h => ⟨line, rfl, by rwa [List.append_nil]⟩
  | arg :: args, line, words, hnul, h => by
      obtain ⟨command, hjoin, hwritten⟩ := writtenLine_joinArgs
        (fun a ha => hnul a (List.mem_cons_of_mem arg ha)) (h.snoc (written_shellQuote arg))
      refine ⟨command, ?_, ?_⟩
      · rw [joinArgs, if_neg (zero_notMem_utf8Encode (hnul arg (by simp)))]
        exact hjoin
      · rw [List.append_assoc] at hwritten
        exact hwritten

theorem writtenLine_shellJoin {program : Text} {args : List Text}
    (hnul : ∀ arg ∈ program :: args, '\x00' ∉ arg) :
    ∃ command, shellJoin (program :: args) = .ok command ∧
      WrittenLine command (program :: args) := by
  obtain ⟨command, hjoin, hwritten⟩ := writtenLine_joinArgs
    (fun a ha => hnul a (List.mem_cons_of_mem program ha)) (.one (written_shellQuote program))
  refine ⟨command, ?_, hwritten⟩
  unfold shellJoin
  rw [joinArgs, if_neg (zero_notMem_utf8Encode (hnul program (by simp)))]
  exact hjoin

end Session

/-- Both quoters write a line that is split back into the argv and in which nothing
but plain characters and separating spaces stands outside quotes and escapes, and
nothing but single quotes inside double quotes. -/
theorem remote_command_quoting (program : Text) (args : List Text)
    (hnul : ∀ arg ∈ program :: args, '\x00' ∉ arg) :
    (PlainWord program →
      parseRemoteShellCommand (RemoteShell.remoteServerCommand (program :: args) false) =
        .ok (program, args) ∧
      Inert plainChar (RemoteShell.remoteServerCommand (program :: args) false)) ∧
    ∃ command, Session.shellJoin (program :: args) = .ok command ∧
      parseRemoteShellCommand command = .ok (program, args) ∧ Inert plainChar command := by
  refine ⟨fun hplain => ?_, ?_⟩
  · have hwritten := RemoteShell.writtenLine_remoteServerCommand hplain args
    exact ⟨parse_of_written hwritten, hwritten.closed.inert⟩
  · obtain ⟨command, hjoin, hwritten⟩ := Session.writtenLine_shellJoin hnul
    exact ⟨command, hjoin, parse_of_written hwritten, hwritten.closed.inert⟩

/-- `rsync`, the empty word and `it's a; b`. -/
theorem remote_command_quoting_quote :
    parseRemoteShellCommand (RemoteShell.remoteServerCommand
        ["rsync".toList, [], "it's a; b".toList] false) =
      .ok ("rsync".toList, [[], "it's a; b".toList]) :=
  ((remote_command_quoting "rsync".toList [[], "it's a; b".toList] (by decide)).1
    ⟨by decide, List.all_eq_true.mp (by decide)⟩).1

end RsyncWin
