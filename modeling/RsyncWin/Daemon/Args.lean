import RsyncWin.Lib.Utf8
import RsyncWin.Protocol.Multiplex

/-!
# Daemon arguments (`rsync-protocol/src/daemon.rs`, `rsync-cli/src/daemon_server/mod.rs`)

The client writes its arguments one after the other and an empty one last, with
NUL or, below protocol 30, newline between them. It refuses NUL in either form.
The server stops at the first empty argument, and takes one carriage return off
a line. What of the input follows the end of the stream is nothing: a read of
one byte then returns 0, and `read_exact` fails.
-/

namespace RsyncWin

open ByteString Codec

inductive DaemonError where
  | invalidOperand (operand : Bytes)
deriving DecidableEq, Repr

def newline : UInt8 := 0x0a
def carriageReturn : UInt8 := 0x0d

/-! ## The client -/

def argSeparator (protocol : Nat) : UInt8 := if protocol ≥ 30 then 0 else newline

def writeDaemonArg (protocol : Nat) (arg : Str) : Wr DaemonError Unit :=
  if 0 ∈ arg.bytes then throw (.invalidOperand arg.bytes)
  else do
    writeAll arg.bytes
    writeAll [argSeparator protocol]

def writeDaemonArgs (protocol : Nat) (args : List Str) : Wr DaemonError Unit := do
  args.forM (writeDaemonArg protocol)
  writeAll [argSeparator protocol]

/-! ## The server -/

section Server

/-- The loop over the bytes of a line; `none` is the end of the stream. -/
def readLineBytes (maxLen : Nat) : Bytes → Bytes → Except Error (Option Bytes × Bytes)
  | bytes, [] => .ok (if bytes = [] then none else some bytes, [])
  | bytes, byte :: input =>
      if byte = newline then .ok (some bytes, input)
      else if bytes.length + 1 > maxLen then
        .error (.io .invalidData s!"daemon line exceeds {maxLen} bytes")
      else readLineBytes maxLen (bytes ++ [byte]) input

/-- `if bytes.ends_with(b"\r") { bytes.pop(); }`. -/
def popCarriageReturn (bytes : Bytes) : Bytes :=
  if bytes.getLast? = some carriageReturn then bytes.dropLast else bytes

def readDaemonLine (maxLen : Nat) (input : Bytes) : Except Error (Option Str × Bytes) :=
  match readLineBytes maxLen [] input with
  | .error e => .error e
  | .ok (none, rest) => .ok (none, rest)
  | .ok (some bytes, rest) =>
      match Str.fromUtf8 (popCarriageReturn bytes) with
      | some line => .ok (some line, rest)
      | none => .error (.io .invalidData "daemon line is not UTF-8")

def argListTooLarge : Error := .other "daemon server argument list is too large"

/-- The counter bounds the number of lines. -/
def readLineArgs : Nat → List Str → Bytes → Except Error (List Str × Bytes)
  | 0, _, _ => .error (.panic "out of fuel")
  | fuel + 1, args, input =>
      match readDaemonLine 8192 input with
      | .error e => .error e
      | .ok (none, rest) => .ok (args, rest)
      | .ok (some line, rest) =>
          if line.bytes = [] then .ok (args, rest)
          else if args.length + 1 > 1024 then .error argListTooLarge
          else readLineArgs fuel (args ++ [line]) rest

def readLineDaemonArgs (input : Bytes) : Except Error (List Str × Bytes) :=
  readLineArgs (input.length + 1) [] input

def decodeArgs : List Bytes → Except Error (List Str)
  | [] => .ok []
  | arg :: raw =>
      match Str.fromUtf8 arg with
      | none => .error (.other "daemon argument was not UTF-8")
      | some arg =>
          match decodeArgs raw with
          | .error e => .error e
          | .ok args => .ok (arg :: args)

def readNullArgs : List Bytes → Bytes → Bytes → Except Error (List Str × Bytes)
  | _, _, [] => .error unexpectedEof
  | args, current, byte :: input =>
      if byte = 0 then
        if current = [] then
          match decodeArgs args with
          | .error e => .error e
          | .ok args => .ok (args, input)
        else readNullArgs (args ++ [current]) [] input
      else if current.length + 1 > 8192 ∨ args.length > 1024 then .error argListTooLarge
      else readNullArgs args (current ++ [byte]) input

def readNullDaemonArgs (input : Bytes) : Except Error (List Str × Bytes) :=
  readNullArgs [] [] input

def readDaemonArgs (protocol : Nat) (input : Bytes) : Except Error (List Str × Bytes) :=
  if protocol ≥ 30 then readNullDaemonArgs input else readLineDaemonArgs input

end Server

/-! ## What is written -/

/-- The bytes of a list of arguments. -/
def argBytes (separator : UInt8) (args : List Str) : Bytes :=
  (args.flatMap fun arg => arg.bytes ++ [separator]) ++ [separator]

theorem writes_writeDaemonArg {protocol : Nat} {arg : Str} (h : 0 ∉ arg.bytes) :
    Writes (writeDaemonArg protocol arg) [arg.bytes, [argSeparator protocol]] () := by
  rw [writeDaemonArg, if_neg h]
  exact (writes_writeAll arg.bytes).bind (writes_writeAll [argSeparator protocol])

/-- A NUL fails the write, whatever has been written before. -/
theorem run_writeDaemonArg_nul {protocol : Nat} : ∀ {args : List Str} (acc : List Bytes),
    (∃ arg ∈ args, 0 ∈ arg.bytes) →
    ∃ e acc', (args.forM (writeDaemonArg protocol)).run calls acc = .fail e acc'
  | [], _, ⟨_, hmem, _⟩ => by cases hmem
  | arg :: args, acc, ⟨bad, hmem, hbad⟩ => by
      have hcons : (arg :: args).forM (writeDaemonArg protocol) =
          writeDaemonArg protocol arg >>= fun _ => args.forM (writeDaemonArg protocol) := rfl
      by_cases hnul : 0 ∈ arg.bytes
      · refine ⟨.invalidOperand arg.bytes, acc, ?_⟩
        rw [hcons, writeDaemonArg, if_pos hnul]
        rfl
      · have hrest : bad ∈ args := by
          rcases List.mem_cons.mp hmem with rfl | hrest
          · exact absurd hbad hnul
          · exact hrest
        rw [hcons, Prog.run_bind_ret (writes_writeDaemonArg hnul acc)]
        exact run_writeDaemonArg_nul _ ⟨bad, hrest, hbad⟩

/-- Arguments are accepted when none has a NUL. -/
theorem writes_writeDaemonArgs {protocol : Nat} {args : List Str}
    (h : ∀ arg ∈ args, 0 ∉ arg.bytes) :
    Writes (writeDaemonArgs protocol args)
      (args.flatMap (fun arg => [arg.bytes, [argSeparator protocol]]) ++
        [[argSeparator protocol]]) () :=
  (writes_forM fun arg harg => writes_writeDaemonArg (h arg harg)).bind (writes_writeAll _)

theorem accepted_writeDaemonArgs {protocol : Nat} {args : List Str} {cs : List Bytes}
    (h : Writes (writeDaemonArgs protocol args) cs ()) :
    (∀ arg ∈ args, 0 ∉ arg.bytes) ∧ cs.flatten = argBytes (argSeparator protocol) args := by
  have hrun := h []
  have hargs : ∀ arg ∈ args, 0 ∉ arg.bytes := by
    by_contra hnul
    push Not at hnul
    obtain ⟨e, acc', hfail⟩ := @run_writeDaemonArg_nul protocol args [] hnul
    unfold writeDaemonArgs at hrun
    rw [Prog.run_bind, hfail] at hrun
    cases hrun
  refine ⟨hargs, ?_⟩
  rw [writes_writeDaemonArgs hargs []] at hrun
  rw [← List.nil_append cs, ← (Final.ret.inj hrun).2, List.nil_append, List.flatten_append, argBytes]
  congr 1
  clear hrun hargs h
  induction args with
  | nil => rfl
  | cons arg args ih => simp [ih]

/-! ## Lines -/

section Lines

variable {maxLen : Nat} {line rest : Bytes}

theorem readLineBytes_line : ∀ {line bytes : Bytes}, newline ∉ line →
    bytes.length + line.length ≤ maxLen →
    readLineBytes maxLen bytes (line ++ newline :: rest) = .ok (some (bytes ++ line), rest)
  | [], bytes, _, _ => by
      rw [List.nil_append, readLineBytes, if_pos rfl, List.append_nil]
  | byte :: line, bytes, hnew, hlen => by
      rw [List.length_cons] at hlen
      have hbyte : byte ≠ newline := fun h => hnew (by simp [h])
      have hline : newline ∉ line := fun h => hnew (List.mem_cons_of_mem byte h)
      have hlen' : (bytes ++ [byte]).length + line.length ≤ maxLen := by
        rw [List.length_append, List.length_singleton]
        omega
      rw [List.cons_append, readLineBytes, if_neg hbyte, if_neg (by omega),
        readLineBytes_line hline hlen', List.append_assoc]
      rfl

/-- No line has a newline in it. -/
theorem newline_notMem_readLineBytes : ∀ {input bytes line rest : Bytes}, newline ∉ bytes →
    readLineBytes maxLen bytes input = .ok (some line, rest) → newline ∉ line
  | [], bytes, line, rest, hbytes, h => by
      rw [readLineBytes] at h
      split at h
      · cases h
      · obtain ⟨hline, -⟩ := Prod.mk.inj (Except.ok.inj h)
        rwa [← Option.some.inj hline]
  | byte :: input, bytes, line, rest, hbytes, h => by
      rw [readLineBytes] at h
      split at h
      · obtain ⟨hline, -⟩ := Prod.mk.inj (Except.ok.inj h)
        rwa [← Option.some.inj hline]
      · rename_i hbyte
        split at h
        · cases h
        · refine newline_notMem_readLineBytes ?_ h
          simp only [List.mem_append, List.mem_singleton, not_or]
          exact ⟨hbytes, Ne.symm hbyte⟩

theorem mem_popCarriageReturn {bytes : Bytes} {b : UInt8} (h : b ∈ popCarriageReturn bytes) :
    b ∈ bytes := by
  unfold popCarriageReturn at h
  split at h
  · exact List.mem_of_mem_dropLast h
  · exact h

theorem popCarriageReturn_eq_self {bytes : Bytes} :
    popCarriageReturn bytes = bytes ↔ bytes.getLast? ≠ some carriageReturn := by
  unfold popCarriageReturn
  split
  · rename_i hlast
    refine ⟨fun h => ?_, fun h => absurd hlast h⟩
    have hlen := congrArg List.length h
    rw [List.length_dropLast] at hlen
    have hnil : bytes = [] := List.length_eq_zero_iff.mp (by omega)
    rw [hnil] at hlast
    cases hlast
  · rename_i hlast
    exact ⟨fun _ => hlast, fun _ => rfl⟩

theorem newline_notMem_readDaemonLine {input : Bytes} {line : Str}
    (h : readDaemonLine maxLen input = .ok (some line, rest)) : newline ∉ line.bytes := by
  unfold readDaemonLine at h
  cases hread : readLineBytes maxLen [] input with
  | error e =>
      rw [hread] at h
      cases h
  | ok out =>
      obtain ⟨bytes, rest'⟩ := out
      rw [hread] at h
      cases bytes with
      | none => cases h
      | some bytes =>
          have hnew := newline_notMem_readLineBytes (List.not_mem_nil) hread
          dsimp only at h
          unfold Str.fromUtf8 at h
          split at h
          · rename_i line' hline
            obtain ⟨hsome, -⟩ := Prod.mk.inj (Except.ok.inj h)
            obtain rfl := Option.some.inj hsome
            split at hline
            · rw [← Option.some.inj hline]
              exact fun hmem => hnew (mem_popCarriageReturn hmem)
            · cases hline
          · cases h

end Lines

/-! ## The newline form -/

/-- The server reads it back as it is: it has no newline and no carriage return at its end. -/
def LineSafe (arg : Str) : Prop :=
  newline ∉ arg.bytes ∧ arg.bytes.getLast? ≠ some carriageReturn

instance (arg : Str) : Decidable (LineSafe arg) := inferInstanceAs (Decidable (_ ∧ _))

theorem argBytes_cons (separator : UInt8) (arg : Str) (args : List Str) (rest : Bytes) :
    argBytes separator (arg :: args) ++ rest =
      arg.bytes ++ separator :: (argBytes separator args ++ rest) := by
  simp [argBytes]

theorem readDaemonLine_arg {maxLen : Nat} {arg : Str} {rest : Bytes} (hnew : newline ∉ arg.bytes)
    (hlen : arg.bytes.length ≤ maxLen) :
    readDaemonLine maxLen (arg.bytes ++ newline :: rest) =
      match Str.fromUtf8 (popCarriageReturn arg.bytes) with
      | some line => .ok (some line, rest)
      | none => .error (.io .invalidData "daemon line is not UTF-8") := by
  unfold readDaemonLine
  rw [readLineBytes_line hnew (by simpa using hlen)]
  rfl

theorem readDaemonLine_end {maxLen : Nat} {rest : Bytes} :
    readDaemonLine maxLen (newline :: rest) = .ok (some ⟨[], by decide⟩, rest) := rfl

theorem readLineArgs_safe {rest : Bytes} : ∀ {args done : List Str} {fuel : Nat},
    (argBytes newline args ++ rest).length < fuel → done.length + args.length ≤ 1024 →
    (∀ arg ∈ args, arg.bytes.length ≤ 8192) → (∀ arg ∈ args, arg.bytes ≠ [] ∧ LineSafe arg) →
    readLineArgs fuel done (argBytes newline args ++ rest) = .ok (done ++ args, rest)
  | _, _, 0, hfuel, _, _, _ => absurd hfuel (by omega)
  | [], done, fuel + 1, _, _, _, _ => by
      have hend : argBytes newline [] ++ rest = newline :: rest := rfl
      rw [hend, readLineArgs, readDaemonLine_end, List.append_nil]
      rfl
  | arg :: args, done, fuel + 1, hfuel, hcount, hlen, hsafe => by
      obtain ⟨hne, hnew, hlast⟩ := hsafe arg (by simp)
      rw [argBytes_cons] at hfuel ⊢
      rw [List.length_cons] at hcount
      simp only [List.length_append, List.length_cons] at hfuel
      have hcount' : (done ++ [arg]).length + args.length ≤ 1024 := by
        rw [List.length_append, List.length_singleton]
        omega
      have hrec := @readLineArgs_safe rest args (done ++ [arg]) fuel
        (by rw [List.length_append]; omega) hcount' (fun a ha => hlen a (by simp [ha]))
        (fun a ha => hsafe a (by simp [ha]))
      rw [readLineArgs, readDaemonLine_arg hnew (hlen arg (by simp)),
        popCarriageReturn_eq_self.mpr hlast, Str.fromUtf8_bytes]
      simp only
      rw [if_neg hne, if_neg (by omega), hrec, List.append_assoc]
      rfl

/-- What has been read is kept, and only lines are added to it. -/
theorem readLineArgs_extends : ∀ {fuel : Nat} {done args : List Str} {input rest : Bytes},
    readLineArgs fuel done input = .ok (args, rest) →
      ∃ more, args = done ++ more ∧ ∀ arg ∈ more, newline ∉ arg.bytes
  | 0, _, _, _, _, h => by cases h
  | fuel + 1, done, args, input, rest, h => by
      rw [readLineArgs] at h
      split at h
      · cases h
      · obtain ⟨rfl, -⟩ := Prod.mk.inj (Except.ok.inj h)
        exact ⟨[], by simp, by simp⟩
      · rename_i line rest' hline
        split at h
        · obtain ⟨rfl, -⟩ := Prod.mk.inj (Except.ok.inj h)
          exact ⟨[], by simp, by simp⟩
        · split at h
          · cases h
          · obtain ⟨more, rfl, hmore⟩ := readLineArgs_extends h
            refine ⟨line :: more, by simp, fun arg harg => ?_⟩
            rcases List.mem_cons.mp harg with rfl | harg
            · exact newline_notMem_readDaemonLine hline
            · exact hmore arg harg

/-- Only safe arguments come back as they are. -/
theorem lineSafe_of_readLineArgs {rest : Bytes} : ∀ {args done : List Str} {fuel : Nat}
    {rest' : Bytes}, (∀ arg ∈ args, arg.bytes.length ≤ 8192) → (∀ arg ∈ args, newline ∉ arg.bytes) →
    readLineArgs fuel done (argBytes newline args ++ rest) = .ok (done ++ args, rest') →
      ∀ arg ∈ args, arg.bytes ≠ [] ∧ LineSafe arg
  | [], _, _, _, _, _, _ => by simp
  | arg :: args, done, 0, _, _, _, h => by cases h
  | arg :: args, done, fuel + 1, rest', hlen, hnew, h => by
      have hnewArg := hnew arg (by simp)
      rw [argBytes_cons, readLineArgs, readDaemonLine_arg hnewArg (hlen arg (by simp))] at h
      cases hline : Str.fromUtf8 (popCarriageReturn arg.bytes) with
      | none =>
          rw [hline] at h
          cases h
      | some line =>
          have hbytes : line.bytes = popCarriageReturn arg.bytes := by
            unfold Str.fromUtf8 at hline
            split at hline
            · rw [← Option.some.inj hline]
            · cases hline
          rw [hline] at h
          simp only at h
          by_cases hempty : line.bytes = []
          · -- an empty line ends the list, before the argument that it was
            rw [if_pos hempty] at h
            have hdone := congrArg List.length (Prod.mk.inj (Except.ok.inj h)).1
            simp at hdone
          · rw [if_neg hempty] at h
            split at h
            · cases h
            · obtain ⟨more, hmore, -⟩ := readLineArgs_extends h
              have hheads : arg = line := by
                rw [List.append_assoc] at hmore
                exact (List.cons.inj (List.append_cancel_left hmore)).1
              have hargs : done ++ arg :: args = (done ++ [line]) ++ args := by
                rw [List.append_assoc, hheads]
                rfl
              rw [hargs] at h
              have hrest := lineSafe_of_readLineArgs (fun a ha => hlen a (by simp [ha]))
                (fun a ha => hnew a (by simp [ha])) h
              intro a ha
              rcases List.mem_cons.mp ha with rfl | ha
              · rw [← hheads] at hbytes hempty
                exact ⟨hempty, hnewArg, popCarriageReturn_eq_self.mp hbytes.symm⟩
              · exact hrest a ha

/-! ## The NUL form -/

theorem decodeArgs_bytes : ∀ args : List Str, decodeArgs (args.map (·.bytes)) = .ok args
  | [] => rfl
  | arg :: args => by
      rw [List.map_cons, decodeArgs, Str.fromUtf8_bytes, decodeArgs_bytes args]

theorem length_decodeArgs : ∀ {raw : List Bytes} {args : List Str}, decodeArgs raw = .ok args →
    args.length = raw.length
  | [], _, h => by
      rw [← Except.ok.inj h]
      rfl
  | arg :: raw, args, h => by
      rw [decodeArgs] at h
      split at h
      · cases h
      · split at h
        · cases h
        · rename_i args' hargs
          rw [← Except.ok.inj h, List.length_cons, List.length_cons, length_decodeArgs hargs]

theorem readNullArgs_item {rest : Bytes} : ∀ {item current : Bytes} {done : List Bytes},
    0 ∉ item → current.length + item.length ≤ 8192 → done.length ≤ 1024 →
    current ++ item ≠ [] → readNullArgs done current (item ++ 0 :: rest) =
      readNullArgs (done ++ [current ++ item]) [] rest
  | [], current, done, _, _, _, hne => by
      rw [List.append_nil] at hne ⊢
      rw [List.nil_append, readNullArgs, if_pos rfl, if_neg hne]
  | byte :: item, current, done, hnul, hlen, hdone, _ => by
      rw [List.length_cons] at hlen
      have hbyte : byte ≠ 0 := fun h => hnul (by simp [h])
      have hitem : 0 ∉ item := fun h => hnul (List.mem_cons_of_mem byte h)
      have hlen' : (current ++ [byte]).length + item.length ≤ 8192 := by
        rw [List.length_append, List.length_singleton]
        omega
      rw [List.cons_append, readNullArgs, if_neg hbyte, if_neg (by omega),
        readNullArgs_item hitem hlen' hdone (by simp), List.append_assoc]
      rfl

/-- The server has read as many arguments as come before the first empty one. -/
theorem readNullArgs_args {rest : Bytes} : ∀ {args : List Str} {done : List Bytes},
    (∀ arg ∈ args, 0 ∉ arg.bytes) → (∀ arg ∈ args, arg.bytes.length ≤ 8192) →
    done.length + args.length ≤ 1024 →
    ∃ rest', readNullArgs done [] (argBytes 0 args ++ rest) =
        (match decodeArgs (done ++ (args.takeWhile (·.bytes ≠ [])).map (·.bytes)) with
        | .error e => .error e
        | .ok args => .ok (args, rest')) ∧
      ((∀ arg ∈ args, arg.bytes ≠ []) → rest' = rest)
  | [], done, _, _, _ => by
      refine ⟨rest, ?_, fun _ => rfl⟩
      have hend : argBytes 0 [] ++ rest = 0 :: rest := rfl
      rw [hend, readNullArgs, if_pos rfl, if_pos rfl, List.takeWhile_nil, List.map_nil,
        List.append_nil]
  | arg :: args, done, hnul, hlen, hcount => by
      rw [List.length_cons] at hcount
      rw [argBytes_cons]
      by_cases hempty : arg.bytes = []
      · refine ⟨argBytes 0 args ++ rest, ?_, fun h => absurd hempty (h arg (by simp))⟩
        rw [List.takeWhile_cons_of_neg (by simp [hempty]), List.map_nil, List.append_nil, hempty,
          List.nil_append, readNullArgs, if_pos rfl, if_pos rfl]
      · have hcount' : (done ++ [arg.bytes]).length + args.length ≤ 1024 := by
          rw [List.length_append, List.length_singleton]
          omega
        obtain ⟨rest', hread, hrest⟩ := readNullArgs_args
          (fun a ha => hnul a (by simp [ha])) (fun a ha => hlen a (by simp [ha])) hcount'
        refine ⟨rest', ?_, fun h => hrest fun a ha => h a (by simp [ha])⟩
        rw [readNullArgs_item (hnul arg (by simp)) (by simpa using hlen arg (by simp)) (by omega)
          (by simpa using hempty), List.nil_append, hread,
          List.takeWhile_cons_of_pos (by simp [hempty]), List.map_cons, List.append_assoc]
        rfl

/-! ## Arguments arrive as sent -/

/-- The arguments that the wire can carry: none is empty, and in the newline form
none has a newline or ends with a carriage return. -/
def Transmissible (protocol : Nat) (args : List Str) : Prop :=
  ∀ arg ∈ args, arg.bytes ≠ [] ∧ (protocol < 30 → LineSafe arg)

instance (protocol : Nat) (args : List Str) : Decidable (Transmissible protocol args) :=
  inferInstanceAs (Decidable (∀ _ ∈ _, _ ∧ _))

/-- What the client has written without an error, the server reads back as the same
arguments exactly when the wire can carry them. -/
theorem readDaemonArgs_of_write {protocol : Nat} {args : List Str} {cs : List Bytes}
    (hcount : args.length ≤ 1024) (hlen : ∀ arg ∈ args, arg.bytes.length ≤ 8192)
    (hwrites : Writes (writeDaemonArgs protocol args) cs ()) (rest : Bytes) :
    readDaemonArgs protocol (cs.flatten ++ rest) = .ok (args, rest) ↔
      Transmissible protocol args := by
  obtain ⟨hnul, hcs⟩ := accepted_writeDaemonArgs hwrites
  unfold readDaemonArgs
  rw [hcs, argSeparator]
  by_cases hmodern : protocol ≥ 30
  · rw [if_pos hmodern, if_pos hmodern]
    obtain ⟨rest', hread, hrest⟩ := @readNullArgs_args rest args [] hnul hlen
      (by simpa using hcount)
    unfold readNullDaemonArgs
    rw [hread, List.nil_append]
    constructor
    · intro h arg harg
      refine ⟨?_, fun hlt => absurd hlt (by omega)⟩
      cases hdecode : decodeArgs ((args.takeWhile (·.bytes ≠ [])).map (·.bytes)) with
      | error e =>
          rw [hdecode] at h
          cases h
      | ok args' =>
          rw [hdecode] at h
          have hlength := length_decodeArgs hdecode
          rw [(Prod.mk.inj (Except.ok.inj h)).1, List.length_map] at hlength
          have hall : args.takeWhile (·.bytes ≠ []) = args :=
            (List.takeWhile_prefix _).eq_of_length hlength.symm
          rw [List.takeWhile_eq_self_iff] at hall
          simpa using hall arg harg
    · intro h
      have hall : args.takeWhile (·.bytes ≠ []) = args :=
        List.takeWhile_eq_self_iff.mpr fun arg harg => by simpa using (h arg harg).1
      rw [hall, decodeArgs_bytes, hrest fun arg harg => (h arg harg).1]
  · rw [if_neg hmodern, if_neg hmodern]
    unfold readLineDaemonArgs
    constructor
    · intro h
      obtain ⟨more, hmore, hnew⟩ := readLineArgs_extends h
      rw [List.nil_append] at hmore
      subst hmore
      have hsafe := @lineSafe_of_readLineArgs rest args [] _ rest hlen hnew h
      exact fun arg harg => ⟨(hsafe arg harg).1, fun _ => (hsafe arg harg).2⟩
    · intro h
      have hsafe : ∀ arg ∈ args, arg.bytes ≠ [] ∧ LineSafe arg := fun arg harg =>
        ⟨(h arg harg).1, (h arg harg).2 (by omega)⟩
      exact @readLineArgs_safe rest args [] _ (Nat.lt_succ_self _) (by simpa using hcount) hlen hsafe

/-- `.` and `a`, by protocol 29. -/
theorem readDaemonArgs_of_write_lines :
    readDaemonArgs 29 ([0x2e, newline, 0x61, newline, newline] ++ [0xff]) =
      .ok ([⟨[0x2e], by decide⟩, ⟨[0x61], by decide⟩], [0xff]) :=
  (@readDaemonArgs_of_write 29 [⟨[0x2e], by decide⟩, ⟨[0x61], by decide⟩] _ (by decide) (by decide)
    (writes_writeDaemonArgs (by decide)) [0xff]).mpr (by decide)

/-- The argument `a`, a newline and `b` arrives as two. -/
theorem readDaemonArgs_splits :
    ∃ cs, Writes (writeDaemonArgs 29 [⟨[0x61, newline, 0x62], by decide⟩]) cs () ∧
      readDaemonArgs 29 (cs.flatten ++ []) = .ok ([⟨[0x61], by decide⟩, ⟨[0x62], by decide⟩], []) :=
  ⟨_, writes_writeDaemonArgs (by decide), by decide⟩

end RsyncWin
