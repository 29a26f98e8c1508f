/-!
# SHA-256

The digest of a sequence of octets. The padded message is cut into blocks of 64 octets; every block is
spread to 64 words, which are mixed one after the other into a state of eight words.
-/

namespace McdocSchema.Sha256

/-- The words that the rounds of a block add. -/
def roundConstants : List UInt32 :=
  [0x428a2f98, 0x71374491, 0xb5c0fbcf, 0xe9b5dba5, 0x3956c25b, 0x59f111f1, 0x923f82a4, 0xab1c5ed5,
    0xd807aa98, 0x12835b01, 0x243185be, 0x550c7dc3, 0x72be5d74, 0x80deb1fe, 0x9bdc06a7, 0xc19bf174,
    0xe49b69c1, 0xefbe4786, 0x0fc19dc6, 0x240ca1cc, 0x2de92c6f, 0x4a7484aa, 0x5cb0a9dc, 0x76f988da,
    0x983e5152, 0xa831c66d, 0xb00327c8, 0xbf597fc7, 0xc6e00bf3, 0xd5a79147, 0x06ca6351, 0x14292967,
    0x27b70a85, 0x2e1b2138, 0x4d2c6dfc, 0x53380d13, 0x650a7354, 0x766a0abb, 0x81c2c92e, 0x92722c85,
    0xa2bfe8a1, 0xa81a664b, 0xc24b8b70, 0xc76c51a3, 0xd192e819, 0xd6990624, 0xf40e3585, 0x106aa070,
    0x19a4c116, 0x1e376c08, 0x2748774c, 0x34b0bcb5, 0x391c0cb3, 0x4ed8aa4a, 0x5b9cca4f, 0x682e6ff3,
    0x748f82ee, 0x78a5636f, 0x84c87814, 0x8cc70208, 0x90befffa, 0xa4506ceb, 0xbef9a3f7, 0xc67178f2]

/-- The state of a digest. -/
structure State where
  a : UInt32
  b : UInt32
  c : UInt32
  d : UInt32
  e : UInt32
  f : UInt32
  g : UInt32
  h : UInt32
  deriving DecidableEq, Repr

/-- The state before the first block. -/
def State.start : State :=
  ⟨0x6a09e667, 0xbb67ae85, 0x3c6ef372, 0xa54ff53a, 0x510e527f, 0x9b05688c, 0x1f83d9ab, 0x5be0cd19⟩

/-- A word turned to the right. -/
def rotate (x : UInt32) (n : UInt32) : UInt32 :=
  (x >>> n) ||| (x <<< (32 - n))

/-- One round: mixes a word of the block and its constant into the state. -/
def State.round (s : State) (constant word : UInt32) : State :=
  let choice := (s.e &&& s.f) ^^^ ((~~~ s.e) &&& s.g)
  let majority := (s.a &&& s.b) ^^^ (s.a &&& s.c) ^^^ (s.b &&& s.c)
  let first := s.h + (rotate s.e 6 ^^^ rotate s.e 11 ^^^ rotate s.e 25) + choice + constant + word
  let second := (rotate s.a 2 ^^^ rotate s.a 13 ^^^ rotate s.a 22) + majority
  ⟨first + second, s.a, s.b, s.c, s.d + first, s.e, s.f, s.g⟩

/-- The sum of two states, word by word. -/
def State.add (s t : State) : State :=
  ⟨s.a + t.a, s.b + t.b, s.c + t.c, s.d + t.d, s.e + t.e, s.f + t.f, s.g + t.g, s.h + t.h⟩

/-- The words of octets, the highest octet first. -/
def words : List UInt8 → List UInt32
  | a :: b :: c :: d :: rest =>
    (((a.toUInt32 <<< 24) ||| (b.toUInt32 <<< 16)) ||| ((c.toUInt32 <<< 8) ||| d.toUInt32)) ::
      words rest
  | _ => []

/-- Adds words to those of a block, which are given with the latest first. -/
def spread : Nat → List UInt32 → List UInt32
  | 0, ws => ws
  | n + 1, ws =>
    let near := ws.getD 1 0
    let far := ws.getD 14 0
    let word := (rotate near 17 ^^^ rotate near 19 ^^^ (near >>> 10)) + ws.getD 6 0 +
      (rotate far 7 ^^^ rotate far 18 ^^^ (far >>> 3)) + ws.getD 15 0
    spread n (word :: ws)

/-- Mixes a block into the state. -/
def State.block (s : State) (octets : List UInt8) : State :=
  let schedule := (spread 48 (words octets).reverse).reverse
  s.add ((roundConstants.zip schedule).foldl (fun t p => t.round p.1 p.2) s)

/-- A number as octets, the highest first. -/
def bigEndian (count n : Nat) : List UInt8 :=
  (List.range count).reverse.map fun i => (n / Nat.pow 256 i).toUInt8

/-- The message with a mark after it, zeros up to the end of a block, and its length in bits. -/
def pad (octets : List UInt8) : List UInt8 :=
  let n := octets.length
  octets ++ [0x80] ++ List.replicate ((119 - n % 64) % 64) 0 ++ bigEndian 8 (8 * n)

/-- Mixes a number of blocks into the state. -/
def State.blocks (s : State) : Nat → List UInt8 → State
  | 0, _ => s
  | n + 1, octets => (s.block (octets.take 64)).blocks n (octets.drop 64)

def State.octets (s : State) : List UInt8 :=
  [s.a, s.b, s.c, s.d, s.e, s.f, s.g, s.h].flatMap fun w => bigEndian 4 w.toNat

def digest (octets : List UInt8) : List UInt8 :=
  let padded := pad octets
  (State.start.blocks (padded.length / 64) padded).octets

/-- The digest of octets in hexadecimal digits. -/
def hexDigest (octets : List UInt8) : String :=
  String.ofList ((digest octets).flatMap fun b =>
    [Nat.digitChar (b.toNat / 16), Nat.digitChar (b.toNat % 16)])

end McdocSchema.Sha256
