import Calybris.Text.Basic

/-!
# SHA-256

Words are natural numbers below `2 ^ 32`. A round evaluates its words before the next round
begins, so that the kernel can compute the hash of a short text.
-/

namespace Calybris.Text

abbrev Digest := {bytes : Bytes // bytes.length = 32}

namespace Sha256

/-- `k x`, with `x` evaluated first. -/
def force {α : Type*} (x : Nat) (k : Nat → α) : α :=
  match x with
  | 0 => k 0
  | n + 1 => k (n + 1)

def rotateRight (n x : Nat) : Nat := (x >>> n ||| x <<< (32 - n)) % 2 ^ 32

def choose (x y z : Nat) : Nat := (x &&& y) ^^^ ((2 ^ 32 - 1 - x) &&& z)

def majority (x y z : Nat) : Nat := (x &&& y) ^^^ (x &&& z) ^^^ (y &&& z)

/-- The cube roots of the first 64 primes, their first bits behind the point. -/
def roundConstants : List Nat :=
  [0x428a2f98, 0x71374491, 0xb5c0fbcf, 0xe9b5dba5, 0x3956c25b, 0x59f111f1, 0x923f82a4, 0xab1c5ed5,
   0xd807aa98, 0x12835b01, 0x243185be, 0x550c7dc3, 0x72be5d74, 0x80deb1fe, 0x9bdc06a7, 0xc19bf174,
   0xe49b69c1, 0xefbe4786, 0x0fc19dc6, 0x240ca1cc, 0x2de92c6f, 0x4a7484aa, 0x5cb0a9dc, 0x76f988da,
   0x983e5152, 0xa831c66d, 0xb00327c8, 0xbf597fc7, 0xc6e00bf3, 0xd5a79147, 0x06ca6351, 0x14292967,
   0x27b70a85, 0x2e1b2138, 0x4d2c6dfc, 0x53380d13, 0x650a7354, 0x766a0abb, 0x81c2c92e, 0x92722c85,
   0xa2bfe8a1, 0xa81a664b, 0xc24b8b70, 0xc76c51a3, 0xd192e819, 0xd6990624, 0xf40e3585, 0x106aa070,
   0x19a4c116, 0x1e376c08, 0x2748774c, 0x34b0bcb5, 0x391c0cb3, 0x4ed8aa4a, 0x5b9cca4f, 0x682e6ff3,
   0x748f82ee, 0x78a5636f, 0x84c87814, 0x8cc70208, 0x90befffa, 0xa4506ceb, 0xbef9a3f7, 0xc67178f2]

structure State where
  (a b c d e f g h : Nat)

/-- The square roots of the first eight primes, likewise. -/
def initial : State where
  a := 0x6a09e667
  b := 0xbb67ae85
  c := 0x3c6ef372
  d := 0xa54ff53a
  e := 0x510e527f
  f := 0x9b05688c
  g := 0x1f83d9ab
  h := 0x5be0cd19

def nextWord (w : List Nat) : Nat :=
  let x := w.getD 1 0
  let y := w.getD 14 0
  (w.getD 0 0 + (rotateRight 7 x ^^^ rotateRight 18 x ^^^ x >>> 3) + w.getD 9 0 +
    (rotateRight 17 y ^^^ rotateRight 19 y ^^^ y >>> 10)) % 2 ^ 32

/-- One round for each constant. The list `w` holds the word of the round and the fifteen
after it. -/
def rounds : List Nat → List Nat → State → State
  | [], _, s => s
  | k :: ks, w, s =>
    let mixed := s.h + (rotateRight 6 s.e ^^^ rotateRight 11 s.e ^^^ rotateRight 25 s.e) +
      choose s.e s.f s.g + k + w.getD 0 0
    let rolled := (rotateRight 2 s.a ^^^ rotateRight 13 s.a ^^^ rotateRight 22 s.a) +
      majority s.a s.b s.c
    force mixed fun t =>
    force ((t + rolled) % 2 ^ 32) fun a =>
    force ((s.d + t) % 2 ^ 32) fun e =>
    force (nextWord w) fun x =>
    rounds ks (w.tail ++ [x]) ⟨a, s.a, s.b, s.c, e, s.e, s.f, s.g⟩

def compress (s : State) (w : List Nat) : State :=
  let r := rounds roundConstants w s
  force ((s.a + r.a) % 2 ^ 32) fun a => force ((s.b + r.b) % 2 ^ 32) fun b =>
  force ((s.c + r.c) % 2 ^ 32) fun c => force ((s.d + r.d) % 2 ^ 32) fun d =>
  force ((s.e + r.e) % 2 ^ 32) fun e => force ((s.f + r.f) % 2 ^ 32) fun f =>
  force ((s.g + r.g) % 2 ^ 32) fun g => force ((s.h + r.h) % 2 ^ 32) fun h =>
  ⟨a, b, c, d, e, f, g, h⟩

def pieces (length : Nat) : Nat → Bytes → List Bytes
  | 0, _ => []
  | count + 1, bytes => bytes.take length :: pieces length count (bytes.drop length)

/-- A one bit, zeros up to a whole block, and the number of bits. -/
def pad (text : Bytes) : Bytes :=
  text ++ 0x80 :: (List.replicate ((119 - text.length % 64) % 64) 0 ++
    toBigEndian 8 (8 * text.length))

def blocks (text : Bytes) : List (List Nat) :=
  (pieces 64 ((text.length + 72) / 64) (pad text)).map fun block =>
    (pieces 4 16 block).map ofBigEndian

def State.bytes (s : State) : Bytes :=
  [s.a, s.b, s.c, s.d, s.e, s.f, s.g, s.h].flatMap (toBigEndian 4)

theorem length_bytes (s : State) : s.bytes.length = 32 := by
  simp [State.bytes, length_toBigEndian]

/-- SHA-256 of a text of less than `2 ^ 61` bytes. -/
@[irreducible]
def hash (text : Bytes) : Digest :=
  ⟨((blocks text).foldl compress initial).bytes, length_bytes _⟩

def hmac (key text : Bytes) : Digest :=
  let key := if key.length > 64 then (hash key).1 else key
  let block := key ++ List.replicate (64 - key.length) 0
  hash (block.map (· ^^^ 0x5c) ++ (hash (block.map (· ^^^ 0x36) ++ text)).1)

end Sha256

def digestOf (n : Nat) : Digest := ⟨toBigEndian 32 n, length_toBigEndian 32 n⟩

example : Sha256.hash [] =
    digestOf 0xe3b0c44298fc1c149afbf4c8996fb92427ae41e4649b934ca495991b7852b855 := by
  decide +kernel

end Calybris.Text
