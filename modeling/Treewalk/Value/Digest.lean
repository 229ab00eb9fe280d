/-!
# Digests of strings

A fast hash of bytes into 64 bits. Distinct strings may share a digest.
-/

namespace Treewalk

namespace Digest

def seed₁ : UInt64 := 0x243f6a8885a308d3

def seed₂ : UInt64 := 0x13198a2e03707344

def chunkMask : UInt64 := 0xa4093822299f31d0

def multiplier : UInt64 := 0xf1357aea2e62a9c5

/-- The low and the high word of the product, combined. -/
def mix (x y : UInt64) : UInt64 :=
  let product := x.toNat * y.toNat
  UInt64.ofNat product ^^^ UInt64.ofNat (product >>> 64)

/-- A word from bytes, the lowest first. -/
def littleEndian (bytes : List UInt8) : UInt64 :=
  bytes.foldr (fun b n => n <<< 8 ||| b.toUInt64) 0

def word64 (bytes : List UInt8) : UInt64 := littleEndian (bytes.take 8)

def word32 (bytes : List UInt8) : UInt64 := littleEndian (bytes.take 4)

/-- The last `n` bytes. -/
def ending (n : Nat) (bytes : List UInt8) : List UInt8 := bytes.drop (bytes.length - n)

/-- Takes in sixteen bytes at a time, always leaving between one and sixteen. -/
def chunks (s : UInt64 × UInt64) : List UInt8 → UInt64 × UInt64
  | b₀ :: b₁ :: b₂ :: b₃ :: b₄ :: b₅ :: b₆ :: b₇ ::
      c₀ :: c₁ :: c₂ :: c₃ :: c₄ :: c₅ :: c₆ :: c₇ :: d :: rest =>
    chunks (s.2, mix (s.1 ^^^ littleEndian [b₀, b₁, b₂, b₃, b₄, b₅, b₆, b₇])
      (chunkMask ^^^ littleEndian [c₀, c₁, c₂, c₃, c₄, c₅, c₆, c₇])) (d :: rest)
  | _ => s

/-- The two halves of the state after all bytes. -/
def absorb (bytes : List UInt8) : UInt64 × UInt64 :=
  let n := bytes.length
  if 16 < n then
    let s := chunks (seed₁, seed₂) bytes
    (s.1 ^^^ word64 (ending 16 bytes), s.2 ^^^ word64 (ending 8 bytes))
  else if 8 ≤ n then (seed₁ ^^^ word64 bytes, seed₂ ^^^ word64 (ending 8 bytes))
  else if 4 ≤ n then (seed₁ ^^^ word32 bytes, seed₂ ^^^ word32 (ending 4 bytes))
  else
    match bytes[0]?, bytes[n / 2]?, bytes[n - 1]? with
    | some first, some middle, some last =>
      (seed₁ ^^^ first.toUInt64, seed₂ ^^^ (last.toUInt64 <<< 8 ||| middle.toUInt64))
    | _, _, _ => (seed₁, seed₂)

def rotateLeft26 (x : UInt64) : UInt64 := x <<< 26 ||| x >>> 38

def ofBytes (bytes : List UInt8) : UInt64 :=
  let s := absorb bytes
  rotateLeft26 ((mix s.1 s.2 ^^^ UInt64.ofNat bytes.length) * multiplier)

end Digest

def digest (s : String) : UInt64 := Digest.ofBytes s.toUTF8.data.toList

end Treewalk
