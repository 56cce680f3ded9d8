import MifirReport.Text.Utf8
import MifirReport.Xml.Markup
import MifirReport.Xml.Name
import MifirReport.Xml.Reference

/-!
# Tags and their attributes

The content of a tag is a name, up to the first blank, and attributes. `Attribute.scan` reads the
attributes up to the first mistake: a key that no `=` follows ends the list as it is, an `=` without
a quoted value ends it with an attribute that has a cause in place of its value. Keys hold anything
but blanks and `=`, which may only come first.

Two readings share that list. Namespace declarations are looked for among the attributes before the
mistake, whatever their number (`Tag.pairs`). Reading for the element goes from left to right
and refuses a key that was there before, then a value, then a reference in it (`Tag.attributes`).
-/

namespace MifirReport.Xml

/-- An attribute as it stands in a tag, with the position of its key. -/
structure Attribute where
  key : List Char
  position : Nat
  value : Except AttributeError (List Char)

namespace Attribute

/-- The text between two quotes and the text after it. -/
def splitQuoted? (quote : Char) (cs : List Char) : Option (List Char × List Char) :=
  match cs.dropWhile (· ≠ quote) with
  | [] => none
  | _ :: rest => some (cs.takeWhile (· ≠ quote), rest)

/-- Reads the value after an `=`, from `position`: the value, and the position and the text after
it. -/
def readValue (position : Nat) (cs : List Char) :
    Except AttributeError (List Char × Nat × List Char) :=
  let position := position + Text.byteLength (cs.takeWhile isSpace)
  match cs.dropWhile isSpace with
  | [] => .error (.noValue position)
  | q :: cs =>
    if q = '"' ∨ q = '\'' then
      match splitQuoted? q cs with
      | none => .error (.unclosed (position + 1 + Text.byteLength cs) q)
      | some (value, rest) => .ok (value, position + Text.byteLength value + 2, rest)
    else .error (.unquoted position)

theorem length_le_of_readValue {position after : Nat} {cs value rest : List Char}
    (h : readValue position cs = .ok (value, after, rest)) : rest.length ≤ cs.length := by
  have hle := (List.dropWhile_sublist (l := cs) isSpace).length_le
  simp only [readValue] at h
  split at h
  · simp at h
  · rename_i q cs' hq
    split at h
    · split at h
      · simp at h
      · rename_i value' rest' hs
        simp only [Except.ok.injEq, Prod.mk.injEq] at h
        rw [hq, List.length_cons] at hle
        unfold splitQuoted? at hs
        split at hs
        · simp at hs
        · rename_i hd
          simp only [Option.some.injEq, Prod.mk.injEq] at hs
          have := (List.dropWhile_sublist (l := cs') (· ≠ q)).length_le
          rw [hd, List.length_cons] at this
          rw [← h.2.2, ← hs.2]
          omega
    · simp at h

/-- Whether a character may go on a key. -/
def isKeyChar (c : Char) : Bool :=
  c != '=' && !isSpace c

/-- The attributes in a text that begins at `position`, up to the first mistake. -/
def scan (position : Nat) (cs : List Char) : List (Except AttributeError Attribute) :=
  let start := position + Text.byteLength (cs.takeWhile isSpace)
  match _hc : cs.dropWhile isSpace with
  | [] => []
  | c :: tail =>
    let key := c :: tail.takeWhile isKeyChar
    let gap := (tail.dropWhile isKeyChar).takeWhile isSpace
    let equals := start + Text.byteLength key + Text.byteLength gap
    match _he : (tail.dropWhile isKeyChar).dropWhile isSpace with
    | '=' :: text =>
      match _hv : readValue (equals + 1) text with
      | .error cause => [.ok ⟨key, start, .error cause⟩]
      | .ok (value, after, rest) => .ok ⟨key, start, .ok value⟩ :: scan after rest
    | _ => [.error (.noEquals equals)]
termination_by cs.length
decreasing_by
  have hc := _hc ▸ (List.dropWhile_sublist (l := cs) isSpace).length_le
  have ht := (List.dropWhile_sublist (l := tail) isKeyChar).length_le
  have he := _he ▸ (List.dropWhile_sublist (l := tail.dropWhile isKeyChar) isSpace).length_le
  have hv := length_le_of_readValue _hv
  simp only [List.length_cons] at hc he
  omega

end Attribute

/-! ## Tags -/

/-- The content of a tag: its name and the text after the name. -/
structure Tag where
  name : List Char
  body : List Char
  deriving DecidableEq, Repr

namespace Tag

/-- Cuts the content of a tag after its name, which ends at the first blank. -/
def ofContent (content : List Char) : Tag :=
  ⟨content.takeWhile (!isSpace ·), content.dropWhile (!isSpace ·)⟩

/-- The attributes of a tag up to the first mistake. -/
def scan (tag : Tag) : List (Except AttributeError Attribute) :=
  Attribute.scan (Text.byteLength tag.name) tag.body

/-- The keys and the values, as written, of the attributes before the first mistake. -/
def pairs (tag : Tag) : List (List Char × List Char) :=
  read tag.scan
where
  read : List (Except AttributeError Attribute) → List (List Char × List Char)
    | .ok ⟨key, _, .ok value⟩ :: items => (key, value) :: read items
    | _ => []

/-- Whether a key declares a namespace. -/
def declares (key : List Char) : Bool :=
  key == "xmlns".toList || "xmlns:".toList.isPrefixOf key

/-- Reads attributes from left to right into local names and values, without the declarations of
namespaces; `seen` holds the keys so far and their positions. -/
def readAttributes (seen : List (List Char × Nat)) :
    List (Except AttributeError Attribute) → Except XmlError (List (String × String))
  | [] => .ok []
  | .error cause :: _ => .error (.attributes cause)
  | .ok ⟨key, position, value⟩ :: items =>
    match seen.lookup key with
    | some previous => .error (.attributes (.duplicate position previous))
    | none =>
      match value with
      | .error cause => .error (.attributes cause)
      | .ok value =>
        if declares key then readAttributes ((key, position) :: seen) items
        else
          match Reference.expand value with
          | .error cause => .error (.reference cause)
          | .ok value =>
            ((String.ofList (Name.localPart key), String.ofList value) :: ·) <$>
              readAttributes ((key, position) :: seen) items

/-- The attributes of a tag by local name, in order. -/
def attributes (tag : Tag) : Except XmlError (List (String × String)) :=
  readAttributes [] tag.scan

end Tag

end MifirReport.Xml
