import SpirvText.Operand
import SpirvText.Text.Utf8

/-!
# Strings as words

A string operand is its UTF-8 bytes and a zero byte, packed four to a word from the least
significant byte up, and filled with zero bytes to a whole word.  The first zero byte ends it, so
that it needs no length.
-/

namespace SpirvText

/-- The word with the given bytes, the least significant first. -/
def packWord (a b c d : UInt8) : UInt32 :=
  a.toUInt32 ||| b.toUInt32 <<< 8 ||| c.toUInt32 <<< 16 ||| d.toUInt32 <<< 24

/-- The bytes of a word, the least significant first. -/
def wordBytes (w : UInt32) : List UInt8 :=
  [w.toUInt8, (w >>> 8).toUInt8, (w >>> 16).toUInt8, (w >>> 24).toUInt8]

namespace StringWords

/-- The number of words that hold `n` bytes and the zero byte after them. -/
def count (n : Nat) : Nat := n / 4 + 1

/-- Packs bytes, none of them zero, into words. -/
def encode : List UInt8 → List UInt32
  | a :: b :: c :: d :: rest => packWord a b c d :: encode rest
  | [a, b, c] => [packWord a b c 0]
  | [a, b] => [packWord a b 0 0]
  | [a] => [packWord a 0 0 0]
  | [] => [0]

/-- The bytes of words up to the first zero byte. -/
def decode (words : List UInt32) : List UInt8 :=
  (words.flatMap wordBytes).takeWhile (· != 0)

/-- The string at the front of an operand list: its bytes, and how many operands it takes.  It ends
with the word that holds its zero byte, or where the literal words do. -/
def decodeFront : List Operand → List UInt8 × Nat
  | .imm word :: rest =>
    let front := (wordBytes word).takeWhile (· != 0)
    if front.length < 4 then (front, 1)
    else
      let (bytes, words) := decodeFront rest
      (front ++ bytes, words + 1)
  | _ => ([], 0)

def operands (text : String) : List Operand := (encode (Text.bytes text)).map .imm

def textAt (operands : List Operand) (start : Nat) : String :=
  Text.ofBytes (decodeFront (operands.drop start)).1

end StringWords

end SpirvText
