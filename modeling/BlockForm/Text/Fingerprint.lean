/-!
# BlockForm.Text.Fingerprint — a 32 bit hash of a text

The hash depends on the bytes of the text alone, so the names built from it are the same in every run.
Arithmetic is on 64 bit words and wraps; two words are mixed by folding the halves of their full product.
-/

namespace BlockForm.Text

/-- The two lanes of the hash while bytes are absorbed. -/
structure Lanes where
  left : UInt64
  right : UInt64

namespace Fingerprint

/-- Initial value of the left lane. -/
def leftSeed : UInt64 := 0x243f6a8885a308d3

/-- Initial value of the right lane. -/
def rightSeed : UInt64 := 0x13198a2e03707344

/-- Word mixed into the second half of every block. -/
def blockSeed : UInt64 := 0xa4093822299f31d0

/-- Multiplier that closes a round. -/
def multiplier : UInt64 := 0xf1357aea2e62a9c5

/-- The exclusive or of the low and the high half of the 128 bit product. -/
def mix (x y : UInt64) : UInt64 :=
  let product := x.toNat * y.toNat
  UInt64.ofNat product ^^^ UInt64.ofNat (product / Nat.pow 2 64)

/-- The bytes as a little-endian word. -/
def word (bytes : List UInt8) : UInt64 :=
  bytes.foldr (fun b w => w <<< 8 ||| b.toUInt64) 0

/-- Absorbs `count` blocks of sixteen bytes. -/
def absorb : (count : Nat) → List UInt8 → Lanes → Lanes
  | 0, _, lanes => lanes
  | count + 1, bytes, lanes =>
    absorb count (bytes.drop 16)
      { left := lanes.right
        right := mix (lanes.left ^^^ word (bytes.take 8))
          (blockSeed ^^^ word ((bytes.drop 8).take 8)) }

/-- The lanes after all bytes.  Up to sixteen bytes are read as two words that may overlap; a longer text
is absorbed in blocks, and its last sixteen bytes are always read as two words. -/
def lanes (bytes : List UInt8) : Lanes :=
  let n := bytes.length
  if n = 0 then ⟨leftSeed, rightSeed⟩
  else if n < 4 then
    ⟨leftSeed ^^^ word (bytes.take 1),
      rightSeed ^^^ (word (bytes.drop (n - 1)) <<< 8 ||| word ((bytes.drop (n / 2)).take 1))⟩
  else if n < 8 then
    ⟨leftSeed ^^^ word (bytes.take 4), rightSeed ^^^ word (bytes.drop (n - 4))⟩
  else if n ≤ 16 then
    ⟨leftSeed ^^^ word (bytes.take 8), rightSeed ^^^ word (bytes.drop (n - 8))⟩
  else
    let inner := absorb ((n - 1) / 16) bytes ⟨leftSeed, rightSeed⟩
    ⟨inner.left ^^^ word ((bytes.drop (n - 16)).take 8), inner.right ^^^ word (bytes.drop (n - 8))⟩

/-- The word that stands for a byte string. -/
def ofBytes (bytes : List UInt8) : UInt64 :=
  let l := lanes bytes
  mix l.left l.right ^^^ UInt64.ofNat bytes.length

end Fingerprint

/-- The hash of a text: its UTF-8 bytes, closed by one byte `ff`, rotated and cut to 32 bits. -/
def fingerprint (text : String) : UInt32 :=
  let h := Fingerprint.ofBytes text.toUTF8.toList * Fingerprint.multiplier
  let h := (h + 0xff) * Fingerprint.multiplier
  ((h <<< 26) ||| (h >>> 38)).toUInt32

end BlockForm.Text
