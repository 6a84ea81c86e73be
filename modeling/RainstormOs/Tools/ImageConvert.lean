import Mathlib.Data.Nat.Digits.Defs

/-!
# `tools/image_convert.py`

The tool turns an image into the initializer of an array of `uint32_t`, one pixel to a line. Here are
the lines its loops print, and the values a C compiler finds in them.
-/

namespace RainstormOs

/-- A pixel of the mode `RGBA`. -/
structure Rgba where
  red : BitVec 8
  green : BitVec 8
  blue : BitVec 8
  alpha : BitVec 8

/-- An image after `convert("RGBA")`; `getpixel` takes the column first. -/
structure Image where
  width : Nat
  height : Nat
  getpixel : Nat → Nat → Rgba

/-- `(a << 24) | (r << 16) | (g << 8) | b`. -/
def Rgba.pixel (color : Rgba) : Nat :=
  color.alpha.toNat <<< 24 ||| color.red.toNat <<< 16 ||| color.green.toNat <<< 8
    ||| color.blue.toNat

/-- The digits of `X`. -/
def hexDigit (digit : Nat) : Char :=
  if digit < 10 then Char.ofNat (48 + digit) else Char.ofNat (55 + digit)

/-- `{value:08X}`; zero is all padding. -/
def format08X (value : Nat) : List Char :=
  let digits := (Nat.digits 16 value).reverse.map hexDigit
  List.replicate (8 - digits.length) '0' ++ digits

/-- `    0x{pixel:08X},`. -/
def pixelLine (pixel : Nat) : List Char :=
  List.replicate 4 ' ' ++ '0' :: 'x' :: (format08X pixel ++ [','])

/-- What the two loops print. -/
def pixelLines (img : Image) : List (List Char) :=
  (List.range img.height).flatMap fun y =>
    (List.range img.width).map fun x => pixelLine (img.getpixel x y).pixel

/-! ### The compiler's side -/

def hexDigitValue (c : Char) : Option Nat :=
  if 48 ≤ c.toNat ∧ c.toNat < 58 then some (c.toNat - 48)
  else if 65 ≤ c.toNat ∧ c.toNat < 71 then some (c.toNat - 55)
  else if 97 ≤ c.toNat ∧ c.toNat < 103 then some (c.toNat - 87)
  else none

def hexValue (digits : List Char) : Option Nat :=
  digits.foldlM (fun value c => (hexDigitValue c).map fun digit => 16 * value + digit) 0

/-- A hexadecimal constant; it has at least one digit. -/
def hexConstant : List Char → Option Nat
  | '0' :: 'x' :: digit :: digits => hexValue (digit :: digits)
  | _ => none

/-- An element of the initializer on a line of its own, converted to `uint32_t`. -/
def element (line : List Char) : Option (BitVec 32) :=
  let constant := (line.dropWhile (· = ' ')).takeWhile (· ≠ ',')
  (hexConstant constant).map (BitVec.ofNat 32)

def initializer (lines : List (List Char)) : Option (List (BitVec 32)) := lines.mapM element

end RainstormOs
