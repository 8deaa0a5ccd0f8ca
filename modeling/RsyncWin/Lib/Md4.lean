import RsyncWin.Lib.Chunks

/-!
# The MD4 digest

A message is padded to whole blocks of sixteen words; each block is mixed into
a state of four words in three rounds. Words are natural numbers below `2 ^ 32`.
-/

namespace ByteString

namespace Md4

abbrev State := Nat × Nat × Nat × Nat

def word (n : Nat) : Nat := n % 2 ^ 32

def rotateLeft (x s : Nat) : Nat := word (x * 2 ^ s + x / 2 ^ (32 - s))

def choose (x y z : Nat) : Nat := (x &&& y) ||| ((2 ^ 32 - 1 - x) &&& z)
def majority (x y z : Nat) : Nat := (x &&& y) ||| (x &&& z) ||| (y &&& z)
def parity (x y z : Nat) : Nat := x ^^^ y ^^^ z

/-- One operation: message word, added constant and rotation. -/
def mix (f : Nat → Nat → Nat → Nat) (constant : Nat) (words : List Nat) (s : State)
    (op : Nat × Nat) : State :=
  let (a, b, c, d) := s
  (d, rotateLeft (word (a + f b c d + words.getD op.1 0 + constant)) op.2, b, c)

/-- Sixteen operations: the order of the words, and four rotations in turn. -/
def mixRound (f : Nat → Nat → Nat → Nat) (constant : Nat) (order : List Nat)
    (rotations : List Nat) (words : List Nat) (s : State) : State :=
  (order.zip ((List.replicate 4 rotations).flatten)).foldl (mix f constant words) s

def compress (s : State) (block : Bytes) : State :=
  let words := (chunks 4 block).map leNat
  let s' := mixRound choose 0 (List.range 16) [3, 7, 11, 19] words s
  let s' := mixRound majority 0x5a827999 [0, 4, 8, 12, 1, 5, 9, 13, 2, 6, 10, 14, 3, 7, 11, 15]
    [3, 5, 9, 13] words s'
  let s' := mixRound parity 0x6ed9eba1 [0, 8, 4, 12, 2, 10, 6, 14, 1, 9, 5, 13, 3, 11, 7, 15]
    [3, 9, 11, 15] words s'
  (word (s.1 + s'.1), word (s.2.1 + s'.2.1), word (s.2.2.1 + s'.2.2.1), word (s.2.2.2 + s'.2.2.2))

def pad (message : Bytes) : Bytes :=
  message ++ [0x80] ++ List.replicate ((119 - message.length % 64) % 64) 0 ++
    leBytes 8 (8 * message.length)

def initial : State := (0x67452301, 0xefcdab89, 0x98badcfe, 0x10325476)

def digest (message : Bytes) : Bytes :=
  let (a, b, c, d) := (chunks 64 (pad message)).foldl compress initial
  leBytes 4 a ++ leBytes 4 b ++ leBytes 4 c ++ leBytes 4 d

theorem digest_length (message : Bytes) : (digest message).length = 16 := by
  simp [digest]

example : digest [0x61, 0x62, 0x63] =
    [0xa4, 0x48, 0x01, 0x7a, 0xaf, 0x21, 0xd8, 0x52, 0x5f, 0xc1, 0x0a, 0xe8, 0x7a, 0xa6, 0x72,
      0x9d] := by
  decide +kernel

end Md4

end ByteString
