import MifirReport.Text.Utf8
import MifirReport.Xml.Error

/-!
# References

In character data and in attribute values `&name;` stands for one character: one of the five
predefined names, or `#` and a decimal number, or `#x` and a hexadecimal one. `Reference.expand`
replaces every reference of a text and refuses the text at the first one that stands for nothing.
-/

namespace MifirReport.Xml.Reference

/-! ## Numbers -/

/-- The value of a digit in base sixteen. -/
def digitValue? (c : Char) : Option Nat :=
  if '0' ≤ c ∧ c ≤ '9' then some (c.toNat - 48)
  else if 'a' ≤ c ∧ c ≤ 'f' then some (c.toNat - 87)
  else if 'A' ≤ c ∧ c ≤ 'F' then some (c.toNat - 55)
  else none

/-- Reads digits in a base up to sixteen on top of `value`, as long as the number fits into 32 bits.
Of a digit that is none and a number that is too large, the first in the text counts. -/
def readDigits (base value : Nat) : List Char → Except NumberError Nat
  | [] => .ok value
  | c :: cs =>
    match digitValue? c with
    | none => .error .invalidDigit
    | some digit =>
      if digit < base then
        if value * base + digit < UInt32.size then readDigits base (value * base + digit) cs
        else .error .tooLarge
      else .error .invalidDigit

/-- Reads a number without a sign. -/
def readNumber (base : Nat) : List Char → Except NumberError Nat
  | [] => .error .empty
  | '+' :: _ => .error .signed
  | '-' :: _ => .error .signed
  | cs => readDigits base 0 cs

/-- The character with a given number. -/
def charOfNumber (n : Nat) : Except NumberError Char :=
  if n = 0 then .error .nul
  else if n.isValidChar then .ok (Char.ofNat n)
  else .error (.notScalar n)

/-- The character of a reference by number, which is given without the `#`. -/
def numbered (name : List Char) : Except NumberError Char :=
  match name with
  | 'x' :: digits => readNumber 16 digits >>= charOfNumber
  | digits => readNumber 10 digits >>= charOfNumber

/-! ## Names -/

/-- The predefined names. -/
def named? : List Char → Option Char
  | ['l', 't'] => some '<'
  | ['g', 't'] => some '>'
  | ['a', 'm', 'p'] => some '&'
  | ['a', 'p', 'o', 's'] => some '\''
  | ['q', 'u', 'o', 't'] => some '"'
  | _ => none

/-- The character that a reference stands for. The name begins at `position`. -/
def resolve (position : Nat) (name : List Char) : Except ReferenceError Char :=
  match name with
  | '#' :: number =>
    match numbered number with
    | .ok c => .ok c
    | .error cause => .error (.number cause)
  | name =>
    match named? name with
    | some c => .ok c
    | none =>
      .error (.unknownEntity position (position + Text.byteLength name) (String.ofList name))

/-! ## All references of a text -/

/-- Whether a character ends the name of a reference. -/
def endsName (c : Char) : Bool :=
  c == ';' || c == '&'

/-- Replaces the references of a text that begins at `position` of a text of `size` bytes. -/
def expandFrom (size position : Nat) : List Char → Except ReferenceError (List Char)
  | [] => .ok []
  | c :: cs =>
    if c = '&' then
      let name := cs.takeWhile (!endsName ·)
      match _h : cs.dropWhile (!endsName ·) with
      | ';' :: rest =>
        match resolve (position + 1) name with
        | .error cause => .error cause
        | .ok d =>
          (d :: ·) <$> expandFrom size (position + 1 + Text.byteLength name + 1) rest
      | _ => .error (.unterminated position size)
    else (c :: ·) <$> expandFrom size (position + c.utf8Size) cs
termination_by cs => cs.length
decreasing_by
  · have := congrArg List.length _h
    have := (List.dropWhile_sublist (l := cs) (!endsName ·)).length_le
    simp only [List.length_cons] at *
    omega
  · exact Nat.lt_succ_self _

/-- A text with its references replaced. -/
def expand (cs : List Char) : Except ReferenceError (List Char) :=
  expandFrom (Text.byteLength cs) 0 cs

end MifirReport.Xml.Reference
