import Mathlib

/-!
# SHA-256 and RIPEMD-160

The two digests on byte strings, with 32-bit words as numbers below `2 ^ 32`, so
that digests of given inputs can be computed.
-/

namespace Digest

def word (n : Nat) : Nat := n % 2 ^ 32

def rotateLeft (x n : Nat) : Nat := word (x <<< n ||| x >>> (32 - n))

def rotateRight (x n : Nat) : Nat := rotateLeft x (32 - n)

def complement (x : Nat) : Nat := x ^^^ (2 ^ 32 - 1)

def ofBytesLe (bs : List UInt8) : Nat := bs.foldr (fun b n => b.toNat + 256 * n) 0

/-- The `k` low bytes of a number, the lowest first. -/
def bytesLe : Nat → Nat → List UInt8
  | 0, _ => []
  | k + 1, n => UInt8.ofNat n :: bytesLe k (n / 256)

@[simp] theorem length_bytesLe (k n : Nat) : (bytesLe k n).length = k := by
  induction k generalizing n with
  | zero => rfl
  | succ k ih => simp [bytesLe, ih]

/-- The first `k` pieces of `n` elements. -/
def chunks {α : Type} (n : Nat) : Nat → List α → List (List α)
  | 0, _ => []
  | k + 1, l => l.take n :: chunks n k (l.drop n)

/-- The message with its padding, for a length field of eight bytes. -/
def pad (lengthField : List UInt8) (bs : List UInt8) : List UInt8 :=
  bs ++ 0x80 :: List.replicate ((119 - bs.length % 64) % 64) 0 ++ lengthField

/-- The blocks of a padded message, as words that `read` reads. -/
def blocks (read : List UInt8 → Nat) (padded : List UInt8) : List (List Nat) :=
  (chunks 64 (padded.length / 64) padded).map fun block => (chunks 4 16 block).map read

namespace Sha256

structure State where
  a : Nat
  b : Nat
  c : Nat
  d : Nat
  e : Nat
  f : Nat
  g : Nat
  h : Nat

def initial : State :=
  ⟨0x6a09e667, 0xbb67ae85, 0x3c6ef372, 0xa54ff53a, 0x510e527f, 0x9b05688c, 0x1f83d9ab, 0x5be0cd19⟩

def constants : List Nat :=
  [0x428a2f98, 0x71374491, 0xb5c0fbcf, 0xe9b5dba5, 0x3956c25b, 0x59f111f1,
   0x923f82a4, 0xab1c5ed5, 0xd807aa98, 0x12835b01, 0x243185be, 0x550c7dc3,
   0x72be5d74, 0x80deb1fe, 0x9bdc06a7, 0xc19bf174, 0xe49b69c1, 0xefbe4786,
   0x0fc19dc6, 0x240ca1cc, 0x2de92c6f, 0x4a7484aa, 0x5cb0a9dc, 0x76f988da,
   0x983e5152, 0xa831c66d, 0xb00327c8, 0xbf597fc7, 0xc6e00bf3, 0xd5a79147,
   0x06ca6351, 0x14292967, 0x27b70a85, 0x2e1b2138, 0x4d2c6dfc, 0x53380d13,
   0x650a7354, 0x766a0abb, 0x81c2c92e, 0x92722c85, 0xa2bfe8a1, 0xa81a664b,
   0xc24b8b70, 0xc76c51a3, 0xd192e819, 0xd6990624, 0xf40e3585, 0x106aa070,
   0x19a4c116, 0x1e376c08, 0x2748774c, 0x34b0bcb5, 0x391c0cb3, 0x4ed8aa4a,
   0x5b9cca4f, 0x682e6ff3, 0x748f82ee, 0x78a5636f, 0x84c87814, 0x8cc70208,
   0x90befffa, 0xa4506ceb, 0xbef9a3f7, 0xc67178f2]

/-- The message schedule, the last word first. -/
def schedule : Nat → List Nat → List Nat
  | 0, ws => ws
  | n + 1, ws =>
    let x := ws.getD 14 0
    let y := ws.getD 1 0
    let s0 := rotateRight x 7 ^^^ rotateRight x 18 ^^^ x >>> 3
    let s1 := rotateRight y 17 ^^^ rotateRight y 19 ^^^ y >>> 10
    schedule n (word (ws.getD 15 0 + s0 + ws.getD 6 0 + s1) :: ws)

def round (s : State) (kw : Nat × Nat) : State :=
  let s1 := rotateRight s.e 6 ^^^ rotateRight s.e 11 ^^^ rotateRight s.e 25
  let ch := (s.e &&& s.f) ^^^ (complement s.e &&& s.g)
  let t1 := s.h + s1 + ch + kw.1 + kw.2
  let s0 := rotateRight s.a 2 ^^^ rotateRight s.a 13 ^^^ rotateRight s.a 22
  let maj := (s.a &&& s.b) ^^^ (s.a &&& s.c) ^^^ (s.b &&& s.c)
  ⟨word (t1 + s0 + maj), s.a, s.b, s.c, word (s.d + t1), s.e, s.f, s.g⟩

def compress (s : State) (block : List Nat) : State :=
  let t := (constants.zip (schedule 48 block.reverse).reverse).foldl round s
  ⟨word (s.a + t.a), word (s.b + t.b), word (s.c + t.c), word (s.d + t.d),
    word (s.e + t.e), word (s.f + t.f), word (s.g + t.g), word (s.h + t.h)⟩

def State.bytes (s : State) : List UInt8 :=
  [s.a, s.b, s.c, s.d, s.e, s.f, s.g, s.h].flatMap fun w => (bytesLe 4 w).reverse

end Sha256

def sha256 (bs : List UInt8) : List UInt8 :=
  let padded := pad (bytesLe 8 (8 * bs.length)).reverse bs
  ((blocks (fun w => ofBytesLe w.reverse) padded).foldl Sha256.compress Sha256.initial).bytes

@[simp] theorem length_sha256 (bs : List UInt8) : (sha256 bs).length = 32 := by
  simp [sha256, Sha256.State.bytes]

namespace Ripemd160

structure State where
  a : Nat
  b : Nat
  c : Nat
  d : Nat
  e : Nat

def initial : State := ⟨0x67452301, 0xefcdab89, 0x98badcfe, 0x10325476, 0xc3d2e1f0⟩

/-- The function of the `n`-th of five rounds. -/
def mix (n x y z : Nat) : Nat :=
  match n with
  | 0 => x ^^^ y ^^^ z
  | 1 => (x &&& y) ||| (complement x &&& z)
  | 2 => (x ||| complement y) ^^^ z
  | 3 => (x &&& z) ||| (y &&& complement z)
  | _ => x ^^^ (y ||| complement z)

/-- A line of the algorithm: for each round its function, constant, word order and shifts. -/
abbrev Line := List (Nat × Nat × List Nat × List Nat)

def left : Line :=
  [(0, 0x00000000, [0, 1, 2, 3, 4, 5, 6, 7, 8, 9, 10, 11, 12, 13, 14, 15],
    [11, 14, 15, 12, 5, 8, 7, 9, 11, 13, 14, 15, 6, 7, 9, 8]),
   (1, 0x5a827999, [7, 4, 13, 1, 10, 6, 15, 3, 12, 0, 9, 5, 2, 14, 11, 8],
    [7, 6, 8, 13, 11, 9, 7, 15, 7, 12, 15, 9, 11, 7, 13, 12]),
   (2, 0x6ed9eba1, [3, 10, 14, 4, 9, 15, 8, 1, 2, 7, 0, 6, 13, 11, 5, 12],
    [11, 13, 6, 7, 14, 9, 13, 15, 14, 8, 13, 6, 5, 12, 7, 5]),
   (3, 0x8f1bbcdc, [1, 9, 11, 10, 0, 8, 12, 4, 13, 3, 7, 15, 14, 5, 6, 2],
    [11, 12, 14, 15, 14, 15, 9, 8, 9, 14, 5, 6, 8, 6, 5, 12]),
   (4, 0xa953fd4e, [4, 0, 5, 9, 7, 12, 2, 10, 14, 1, 3, 8, 11, 6, 15, 13],
    [9, 15, 5, 11, 6, 8, 13, 12, 5, 12, 13, 14, 11, 8, 5, 6])]

def right : Line :=
  [(4, 0x50a28be6, [5, 14, 7, 0, 9, 2, 11, 4, 13, 6, 15, 8, 1, 10, 3, 12],
    [8, 9, 9, 11, 13, 15, 15, 5, 7, 7, 8, 11, 14, 14, 12, 6]),
   (3, 0x5c4dd124, [6, 11, 3, 7, 0, 13, 5, 10, 14, 15, 8, 12, 4, 9, 1, 2],
    [9, 13, 15, 7, 12, 8, 9, 11, 7, 7, 12, 7, 6, 15, 13, 11]),
   (2, 0x6d703ef3, [15, 5, 1, 3, 7, 14, 6, 9, 11, 8, 12, 2, 10, 0, 4, 13],
    [9, 7, 15, 11, 8, 6, 6, 14, 12, 13, 5, 14, 13, 13, 7, 5]),
   (1, 0x7a6d76e9, [8, 6, 4, 1, 3, 11, 15, 0, 5, 12, 2, 13, 9, 7, 10, 14],
    [15, 5, 8, 11, 14, 14, 6, 14, 6, 9, 12, 9, 12, 5, 15, 8]),
   (0, 0x00000000, [12, 15, 10, 4, 1, 5, 8, 7, 6, 2, 13, 14, 0, 3, 9, 11],
    [8, 5, 12, 9, 12, 5, 14, 6, 8, 13, 6, 5, 15, 13, 11, 11])]

def step (f k : Nat) (block : List Nat) (s : State) (rs : Nat × Nat) : State :=
  let t := word (s.a + mix f s.b s.c s.d + block.getD rs.1 0 + k)
  ⟨s.e, word (rotateLeft t rs.2 + s.e), s.b, rotateLeft s.c 10, s.d⟩

def run (line : Line) (block : List Nat) (s : State) : State :=
  line.foldl (fun s (f, k, order, shifts) => (order.zip shifts).foldl (step f k block) s) s

def compress (s : State) (block : List Nat) : State :=
  let l := run left block s
  let r := run right block s
  ⟨word (s.b + l.c + r.d), word (s.c + l.d + r.e), word (s.d + l.e + r.a),
    word (s.e + l.a + r.b), word (s.a + l.b + r.c)⟩

def State.bytes (s : State) : List UInt8 := [s.a, s.b, s.c, s.d, s.e].flatMap (bytesLe 4)

end Ripemd160

def ripemd160 (bs : List UInt8) : List UInt8 :=
  let padded := pad (bytesLe 8 (8 * bs.length)) bs
  ((blocks ofBytesLe padded).foldl Ripemd160.compress Ripemd160.initial).bytes

@[simp] theorem length_ripemd160 (bs : List UInt8) : (ripemd160 bs).length = 20 := by
  simp [ripemd160, Ripemd160.State.bytes]

end Digest
