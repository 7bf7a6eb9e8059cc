/-!
# Characters as bytes

UTF-8 writes a code point as one to four bytes.  `encode` gives the bytes, and `sequences` cuts a
range of code points into pieces that can be told apart byte by byte: each piece is the set of all
texts that take their first byte from a first range, their second byte from a second one, and so on.

* Code points with different numbers of bytes are in different pieces.  Surrogates have no bytes.
* Two code points that differ before their last `k` bytes are in one piece only if the piece takes
  every value in these last bytes.  So a range is cut at blocks of `64 ^ k` code points: a head that
  is no whole block, whole blocks, and a tail that is no whole block.

The pieces are in the order of their code points.
-/

namespace Stylesheet.Unicode

/-- The last code point. -/
def lastCode : Nat := 0x10FFFF

/-- The bytes of a code point. -/
def encode (n : Nat) : List Nat :=
  if n < 0x80 then [n]
  else if n < 0x800 then [0xC0 + n / 64, 0x80 + n % 64]
  else if n < 0x10000 then [0xE0 + n / 4096, 0x80 + n / 64 % 64, 0x80 + n % 64]
  else [0xF0 + n / 262144, 0x80 + n / 4096 % 64, 0x80 + n / 64 % 64, 0x80 + n % 64]

/-- The bytes of a text. -/
def encodeText (text : List Char) : List Nat := text.flatMap fun c => encode c.toNat

/-- A range of bytes, with both ends. -/
structure ByteRange where
  /-- The first byte. -/
  first : Nat
  /-- The last byte. -/
  last : Nat
deriving Repr, DecidableEq

/-- The part of a range that lies in another one. -/
def clip? (r s : Nat × Nat) : Option (Nat × Nat) :=
  let first := max r.1 s.1
  let last := min r.2 s.2
  if first ≤ last then some (first, last) else none

/-- The ranges of code points past ASCII with equally many bytes, on both sides of the
surrogates. -/
def widths : List (Nat × Nat) :=
  [(0x80, 0x7FF), (0x800, 0xD7FF), (0xE000, 0xFFFF), (0x10000, lastCode)]

/-- Cut a range at blocks of a size: the head that is no whole block, the whole blocks, and the tail
that is no whole block.  A range in a single block stays whole. -/
def cutBlocks (size : Nat) (range : Nat × Nat) : List (Nat × Nat) :=
  let (first, last) := range
  if first / size == last / size then [range]
  else
    let whole := (first + size - 1) / size * size
    let tail := (last + 1) / size * size
    (if first < whole then [(first, whole - 1)] else []) ++
      (if whole < tail then [(whole, tail - 1)] else []) ++
      if tail ≤ last then [(tail, last)] else []

/-- The ranges of bytes between the ends of a piece. -/
def between (piece : Nat × Nat) : List ByteRange :=
  (encode piece.1).zipWith ByteRange.mk (encode piece.2)

/-- The pieces of a range of code points, as ranges of bytes. -/
def sequences (range : Nat × Nat) : List (List ByteRange) :=
  let ascii := (clip? (0, 0x7F) range).toList
  let pieces := widths.filterMap (clip? range)
    |>.flatMap (cutBlocks 64) |>.flatMap (cutBlocks 4096) |>.flatMap (cutBlocks 262144)
  (ascii ++ pieces).map between

example : sequences (0x41, 0xE9) = [[⟨0x41, 0x7F⟩], [⟨0xC2, 0xC2⟩, ⟨0x80, 0xBF⟩],
    [⟨0xC3, 0xC3⟩, ⟨0x80, 0xA9⟩]] := by decide

end Stylesheet.Unicode
