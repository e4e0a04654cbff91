/-!
# A fast 64-bit hash

Both ends of a byte sequence, or each block of sixteen bytes of a longer one, are mixed
into two words by a multiplication to 128 bits whose halves are combined. The
result depends on nothing but the bytes.
-/

namespace GlyphTable.Word64

def mix (x y : UInt64) : UInt64 :=
  let product := x.toNat * y.toNat
  (product % UInt64.size).toUInt64 ^^^ (product / UInt64.size).toUInt64

def littleEndian : List UInt8 → Nat
  | [] => 0
  | b :: rest => b.toNat + 256 * littleEndian rest

def load (width : Nat) (bytes : List UInt8) (i : Nat) : UInt64 :=
  (littleEndian ((bytes.drop i).take width)).toUInt64

def seed0 : UInt64 := 0x243f6a8885a308d3
def seed1 : UInt64 := 0x13198a2e03707344
def blockSeed : UInt64 := 0xa4093822299f31d0
def multiplier : UInt64 := 0xf1357aea2e62a9c5

def absorb : Nat → List UInt8 → UInt64 × UInt64 → UInt64 × UInt64
  | 0, _, state => state
  | blocks + 1, bytes, (s0, s1) =>
    absorb blocks (bytes.drop 16) (s1, mix (s0 ^^^ load 8 bytes 0) (blockSeed ^^^ load 8 bytes 8))

/-- The two words before the last mixing. Up to sixteen bytes are read as two
overlapping loads from the two ends; more, as the blocks that end before the last
byte, and then the last sixteen bytes. -/
def condense (bytes : List UInt8) : UInt64 × UInt64 :=
  let n := bytes.length
  if n = 0 then
    (seed0, seed1)
  else if n < 4 then
    (seed0 ^^^ load 1 bytes 0, seed1 ^^^ (load 1 bytes (n - 1) <<< 8 ||| load 1 bytes (n / 2)))
  else if n < 8 then
    (seed0 ^^^ load 4 bytes 0, seed1 ^^^ load 4 bytes (n - 4))
  else if n ≤ 16 then
    (seed0 ^^^ load 8 bytes 0, seed1 ^^^ load 8 bytes (n - 8))
  else
    let (s0, s1) := absorb ((n - 1) / 16) bytes (seed0, seed1)
    (s0 ^^^ load 8 bytes (n - 16), s1 ^^^ load 8 bytes (n - 8))

def rotateLeft (x : UInt64) (n : UInt64) : UInt64 :=
  (x <<< n) ||| (x >>> (64 - n))

def hash (bytes : List UInt8) : UInt64 :=
  let (s0, s1) := condense bytes
  rotateLeft ((mix s0 s1 ^^^ bytes.length.toUInt64) * multiplier) 26

end GlyphTable.Word64
