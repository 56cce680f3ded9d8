/-!
# Bytes as text

Lengths and positions are counted in the bytes of the UTF-8 form (`byteLength`). Bytes from a file
are read in pieces (`next`): a character, or an ill-formed run, which is as long as it can still
begin a character and one byte at least. Reading for a diagnostic (`decodeLossy`) writes the
replacement character for each ill-formed run; `validLength` is the number of bytes before the first
of them.
-/

namespace MifirReport.Text

/-- The number of bytes of a text. -/
def byteLength (cs : List Char) : Nat :=
  cs.foldr (fun c n => c.utf8Size + n) 0

namespace Utf8

/-- What the first byte of a character announces: its share of the code point, the number of bytes
to follow, and the range of the first of these. -/
structure Lead where
  share : Nat
  following : Nat
  low : UInt8
  high : UInt8

/-- The announcement of a byte that can begin a character. Second bytes are bounded so that
surrogates, code points above the last and forms longer than needed do not arise. -/
def Lead.ofByte? (b : UInt8) : Option Lead :=
  if b < 0x80 then some ⟨b.toNat, 0, 0x80, 0xBF⟩
  else if b < 0xC2 then none
  else if b < 0xE0 then some ⟨b.toNat - 0xC0, 1, 0x80, 0xBF⟩
  else if b < 0xF0 then
    some ⟨b.toNat - 0xE0, 2, if b = 0xE0 then 0xA0 else 0x80, if b = 0xED then 0x9F else 0xBF⟩
  else if b < 0xF5 then
    some ⟨b.toNat - 0xF0, 3, if b = 0xF0 then 0x90 else 0x80, if b = 0xF4 then 0x8F else 0xBF⟩
  else none

/-- Reads the given number of following bytes, the first of them between `low` and `high`. The bytes
that do not fit are left. -/
def following (value : Nat) (low high : UInt8) : Nat → List UInt8 → Option Char × List UInt8
  | 0, bytes => (some (Char.ofNat value), bytes)
  | _ + 1, [] => (none, [])
  | n + 1, b :: bytes =>
    if low ≤ b ∧ b ≤ high then following (value * 64 + (b.toNat - 0x80)) 0x80 0xBF n bytes
    else (none, b :: bytes)

/-- The first piece of a byte sequence and the bytes after it: a character, or none for an
ill-formed run. -/
def next (b : UInt8) (bytes : List UInt8) : Option Char × List UInt8 :=
  match Lead.ofByte? b with
  | none => (none, bytes)
  | some lead => following lead.share lead.low lead.high lead.following bytes

theorem length_following_le (value : Nat) (low high : UInt8) (n : Nat) (bytes : List UInt8) :
    (following value low high n bytes).2.length ≤ bytes.length := by
  fun_induction following value low high n bytes with
  | case1 => exact Nat.le_refl _
  | case2 => exact Nat.le_refl _
  | case3 _ _ _ _ _ _ _ ih => exact Nat.le_succ_of_le ih
  | case4 => exact Nat.le_refl _

theorem length_next_le (b : UInt8) (bytes : List UInt8) :
    (next b bytes).2.length ≤ bytes.length := by
  unfold next
  split
  · exact Nat.le_refl _
  · exact length_following_le ..

/-- Folds over the pieces of a byte sequence. -/
def foldl {β : Type} (f : β → Option Char → β) (acc : β) : List UInt8 → β
  | [] => acc
  | b :: bytes => foldl f (f acc (next b bytes).1) (next b bytes).2
termination_by bytes => bytes.length
decreasing_by exact Nat.lt_succ_of_le (length_next_le b bytes)

/-- The text of a byte sequence, with the replacement character for each ill-formed run. -/
def decodeLossy (bytes : List UInt8) : String :=
  foldl (fun text piece => text.push (piece.getD '\uFFFD')) "" bytes

/-- The number of bytes before the first ill-formed run. -/
def validLength (bytes : List UInt8) : Nat :=
  (foldl step (0, true) bytes).1
where
  step : Nat × Bool → Option Char → Nat × Bool
    | (n, true), some c => (n + c.utf8Size, true)
    | (n, _), _ => (n, false)

end Utf8

end MifirReport.Text
