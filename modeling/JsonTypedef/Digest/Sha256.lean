/-!
# SHA-256

The secure hash with a digest of 256 bits, on lists of bytes.
-/

namespace JsonTypedef
namespace Sha256

/-- The round constants. -/
def roundConstants : List UInt32 :=
  [0x428a2f98, 0x71374491, 0xb5c0fbcf, 0xe9b5dba5, 0x3956c25b, 0x59f111f1, 0x923f82a4, 0xab1c5ed5,
    0xd807aa98, 0x12835b01, 0x243185be, 0x550c7dc3, 0x72be5d74, 0x80deb1fe, 0x9bdc06a7, 0xc19bf174,
    0xe49b69c1, 0xefbe4786, 0x0fc19dc6, 0x240ca1cc, 0x2de92c6f, 0x4a7484aa, 0x5cb0a9dc, 0x76f988da,
    0x983e5152, 0xa831c66d, 0xb00327c8, 0xbf597fc7, 0xc6e00bf3, 0xd5a79147, 0x06ca6351, 0x14292967,
    0x27b70a85, 0x2e1b2138, 0x4d2c6dfc, 0x53380d13, 0x650a7354, 0x766a0abb, 0x81c2c92e, 0x92722c85,
    0xa2bfe8a1, 0xa81a664b, 0xc24b8b70, 0xc76c51a3, 0xd192e819, 0xd6990624, 0xf40e3585, 0x106aa070,
    0x19a4c116, 0x1e376c08, 0x2748774c, 0x34b0bcb5, 0x391c0cb3, 0x4ed8aa4a, 0x5b9cca4f, 0x682e6ff3,
    0x748f82ee, 0x78a5636f, 0x84c87814, 0x8cc70208, 0x90befffa, 0xa4506ceb, 0xbef9a3f7, 0xc67178f2]

/-- The eight words that the hash works on. -/
structure State where
  a : UInt32
  b : UInt32
  c : UInt32
  d : UInt32
  e : UInt32
  f : UInt32
  g : UInt32
  h : UInt32

/-- The words before the first block. -/
def initial : State :=
  ⟨0x6a09e667, 0xbb67ae85, 0x3c6ef372, 0xa54ff53a, 0x510e527f, 0x9b05688c, 0x1f83d9ab, 0x5be0cd19⟩

/-- Rotate a word right by less than 32 bits. -/
def rotate (w : UInt32) (n : UInt32) : UInt32 :=
  (w >>> n) ||| (w <<< (32 - n))

/-- The word that extends a schedule, held latest word first. -/
def extension (schedule : Array UInt32) : UInt32 :=
  let word (back : Nat) : UInt32 := schedule.getD (schedule.size - back) 0
  let w15 := word 15
  let w2 := word 2
  let s0 := rotate w15 7 ^^^ rotate w15 18 ^^^ (w15 >>> 3)
  let s1 := rotate w2 17 ^^^ rotate w2 19 ^^^ (w2 >>> 10)
  word 16 + s0 + word 7 + s1

/-- The 64 words of a block's schedule. -/
def schedule (block : Array UInt32) : Array UInt32 :=
  (List.range 48).foldl (fun words _ => words.push (extension words)) block

/-- One round with its schedule word and its constant. -/
def round (s : State) (w k : UInt32) : State :=
  let s1 := rotate s.e 6 ^^^ rotate s.e 11 ^^^ rotate s.e 25
  let choice := (s.e &&& s.f) ^^^ ((s.e ^^^ 0xffffffff) &&& s.g)
  let t1 := s.h + s1 + choice + k + w
  let s0 := rotate s.a 2 ^^^ rotate s.a 13 ^^^ rotate s.a 22
  let majority := (s.a &&& s.b) ^^^ (s.a &&& s.c) ^^^ (s.b &&& s.c)
  ⟨t1 + (s0 + majority), s.a, s.b, s.c, s.d + t1, s.e, s.f, s.g⟩

/-- Take one block into the state. -/
def compress (s : State) (block : Array UInt32) : State :=
  let t := ((schedule block).toList.zip roundConstants).foldl (fun t wk => round t wk.1 wk.2) s
  ⟨s.a + t.a, s.b + t.b, s.c + t.c, s.d + t.d, s.e + t.e, s.f + t.f, s.g + t.g, s.h + t.h⟩

/-- Bytes of a natural number, most significant first. -/
def bigEndian (width n : Nat) : List UInt8 :=
  (List.range width).map fun i => UInt8.ofNat (n >>> (8 * (width - 1 - i)))

/-- The message closed by a one bit, zeros and its length in bits. -/
def padded (message : List UInt8) : List UInt8 :=
  let zeros := (119 - message.length % 64) % 64
  message ++ 0x80 :: (List.replicate zeros 0 ++ bigEndian 8 (8 * message.length))

/-- Group bytes into words of four. -/
def words : List UInt8 → List UInt32
  | a :: b :: c :: d :: rest =>
    ((a.toUInt32 <<< 24) ||| (b.toUInt32 <<< 16) ||| (c.toUInt32 <<< 8) ||| d.toUInt32) ::
      words rest
  | _ => []

/-- Group words into blocks of sixteen. -/
def blocks (ws : List UInt32) : List (Array UInt32) :=
  if _h : ws.length < 16 then []
  else (ws.take 16).toArray :: blocks (ws.drop 16)
termination_by ws.length
decreasing_by
  simp only [List.length_drop]
  omega

/-- The digest of a message: 32 bytes. -/
def digest (message : List UInt8) : List UInt8 :=
  let s := (blocks (words (padded message))).foldl compress initial
  [s.a, s.b, s.c, s.d, s.e, s.f, s.g, s.h].flatMap fun w => bigEndian 4 w.toNat

/-- A byte as two lower-case hexadecimal digits. -/
def hexByte (b : UInt8) : List Char :=
  let digit (n : Nat) : Char :=
    if n < 10 then Char.ofNat ('0'.toNat + n) else Char.ofNat ('a'.toNat + (n - 10))
  [digit (b.toNat / 16), digit (b.toNat % 16)]

/-- Bytes in hexadecimal. -/
def hex (bytes : List UInt8) : String :=
  String.ofList (bytes.flatMap hexByte)

end Sha256
end JsonTypedef
