/-!
# Letter case

Two ways to compare a word with an ASCII word whatever its case. `asciiLower` maps the letters `A`
to `Z` only. `lower` maps the other characters whose lower case holds an ASCII letter too: the
dotted capital I becomes an `i` with a combining dot above, the Kelvin sign a `k`. A character that
`lower` leaves as it is has a lower case without ASCII letters, so no text that holds one equals an
ASCII word after either map.
-/

namespace MifirReport.Text

/-- Lower case of the letters `A` to `Z`. -/
def asciiLower (c : Char) : Char :=
  if 'A' ≤ c ∧ c ≤ 'Z' then Char.ofNat (c.toNat + 32) else c

/-- Lower case of a character, as far as it holds an ASCII letter. -/
def lower (c : Char) : List Char :=
  if c = '\u0130' then ['i', '\u0307']
  else if c = '\u212A' then ['k']
  else [asciiLower c]

/-- Whether a text is a given word in lower case, after lowering the text. -/
def isWord (word : String) (cs : List Char) : Bool :=
  cs.flatMap lower == word.toList

/-- Whether a text is a given word up to the case of ASCII letters. -/
def isWordAscii (word : String) (cs : List Char) : Bool :=
  cs.map asciiLower == word.toList.map asciiLower

end MifirReport.Text
