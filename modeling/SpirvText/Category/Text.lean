import SpirvText.Category
import SpirvText.Numeral

/-!
# Symbolic operands in text

A value of an enumeration is written by its name, or in decimal if it has none.  A mask is written
as the names of its bits joined by bars, with a hexadecimal remainder for the bits that have no
name, and as `None` if no bit is set.  Reading takes a number wherever writing takes a name.
-/

namespace SpirvText.Category

/-- The bits of `word` that no name of the mask stands for. -/
def unnamedBits (c : Category) (word : UInt32) : UInt32 :=
  c.table.foldl (fun rest entry ↦ if word &&& entry.1 != 0 then rest &&& ~~~entry.1 else rest) word

/-- The parts of a mask, in the order they are written. -/
def maskParts (c : Category) (word : UInt32) : List String :=
  let names := (c.table.filter (word &&& ·.1 != 0)).map (·.2)
  let rest := c.unnamedBits word
  if rest == 0 then names else names ++ [Numeral.hex rest.toNat]

def render (c : Category) (word : UInt32) : String :=
  if c.isMask then
    if word == 0 then "None" else "|".intercalate (c.maskParts word)
  else
    (c.table.lookup word).getD (toString word.toNat)

def parseNumber? : List Char → Option UInt32
  | '0' :: 'x' :: digits => Numeral.word? 16 digits
  | digits => Numeral.word? 10 digits

def parsePart? (c : Category) (text : List Char) : Option UInt32 :=
  match c.table.find? (·.2.toList == text) with
  | some (word, _) => some word
  | none => parseNumber? text

def splitBars : List Char → List (List Char)
  | [] => [[]]
  | c :: cs =>
    if c == '|' then [] :: splitBars cs
    else
      match splitBars cs with
      | [] => [[c]]
      | part :: parts => (c :: part) :: parts

def parse? (c : Category) (text : String) : Option UInt32 :=
  if c.isMask then
    if text == "None" then some 0
    else (splitBars text.toList).foldlM (fun word part ↦ (word ||| ·) <$> c.parsePart? part) 0
  else
    c.parsePart? text.toList

end SpirvText.Category
