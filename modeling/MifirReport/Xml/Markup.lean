import MifirReport.Xml.Error

/-!
# Markup

A document is a sequence of pieces: character data and markup by turns. `Markup.next` cuts off the
first piece of a text that is not empty, without looking at what is inside; `Markup.foldM` runs a
step over all the pieces of a text and stops at the first that cannot be cut off, or that the step
refuses. A piece takes at least one character (`Markup.length_le_of_next`), so the run ends.

A tag ends at the first `>` outside quotes, a comment at `-->`, character data in brackets at `]]>`,
a processing instruction at `?>`, and a document type at the `>` that balances its angle brackets.
-/

namespace MifirReport.Xml

/-- The blank characters of markup: space, tab, line feed and carriage return. -/
def isSpace (c : Char) : Bool :=
  c == ' ' || c == '\t' || c == '\n' || c == '\r'

/-- A piece of a document. -/
inductive Markup
  | text (content : List Char)
  | start (content : List Char)
  | empty (content : List Char)
  | close (name : List Char)
  | cdata (content : List Char)
  | comment (content : List Char)
  | instruction (content : List Char)
  | doctype (content : List Char)
  deriving DecidableEq, Repr

namespace Markup

/-! ## Where markup ends

Each search returns the text before the end and the text after it. Its first argument holds the
characters passed so far, the last of them first. -/

/-- Splits a text around the first occurrence of a mark. -/
def splitAtMark? (mark : List Char) (seen : List Char) : List Char → Option (List Char × List Char)
  | [] => none
  | c :: cs =>
    if mark.isPrefixOf (c :: cs) then some (seen.reverse, (c :: cs).drop mark.length)
    else splitAtMark? mark (c :: seen) cs

/-- Splits a text at the first `>` outside quotes; `quote` is the quote that is open. -/
def splitTag? (quote : Option Char) (seen : List Char) : List Char → Option (List Char × List Char)
  | [] => none
  | c :: cs =>
    match quote with
    | some q => splitTag? (if c = q then none else some q) (c :: seen) cs
    | none =>
      if c = '>' then some (seen.reverse, cs)
      else splitTag? (if c = '"' ∨ c = '\'' then some c else none) (c :: seen) cs

/-- Splits a text at the first `>` that closes more angle brackets than were opened; `depth` is the
number of those that are open. -/
def splitBalanced? (depth : Nat) (seen : List Char) : List Char → Option (List Char × List Char)
  | [] => none
  | c :: cs =>
    if c = '<' then splitBalanced? (depth + 1) (c :: seen) cs
    else if c = '>' then
      match depth with
      | 0 => some (seen.reverse, cs)
      | depth + 1 => splitBalanced? depth (c :: seen) cs
    else splitBalanced? depth (c :: seen) cs

theorem length_lt_of_splitAtMark? {mark seen cs content rest : List Char}
    (h : splitAtMark? mark seen cs = some (content, rest)) (hm : mark ≠ []) :
    rest.length < cs.length := by
  fun_induction splitAtMark? mark seen cs with
  | case1 => simp at h
  | case2 =>
    simp only [Option.some.injEq, Prod.mk.injEq] at h
    have := List.length_pos_iff.2 hm
    rw [← h.2, List.length_drop]
    simp only [List.length_cons]
    omega
  | case3 _ c cs _ ih => exact Nat.lt_succ_of_lt (ih h)

theorem length_lt_of_splitTag? {quote : Option Char} {seen cs content rest : List Char}
    (h : splitTag? quote seen cs = some (content, rest)) : rest.length < cs.length := by
  fun_induction splitTag? quote seen cs with
  | case1 => simp at h
  | case2 _ _ _ _ ih => exact Nat.lt_succ_of_lt (ih h)
  | case3 => simp_all
  | case4 _ _ _ _ ih => exact Nat.lt_succ_of_lt (ih h)

theorem length_lt_of_splitBalanced? {depth : Nat} {seen cs content rest : List Char}
    (h : splitBalanced? depth seen cs = some (content, rest)) : rest.length < cs.length := by
  fun_induction splitBalanced? depth seen cs with
  | case1 => simp at h
  | case2 _ _ _ ih => exact Nat.lt_succ_of_lt (ih h)
  | case3 => simp_all
  | case4 _ _ _ _ ih => exact Nat.lt_succ_of_lt (ih h)
  | case5 _ _ _ _ _ _ ih => exact Nat.lt_succ_of_lt (ih h)

/-! ## The first piece of a text -/

/-- The rest of a text after a given word, if the text begins with the word in any letter case. -/
def dropWord? (word : List Char) (cs : List Char) : Option (List Char) :=
  if (cs.take word.length).map Char.toUpper = word then some (cs.drop word.length) else none

/-- A piece and the text after it, or a cause where there is none. -/
def found (cause : MarkupError) (piece : List Char → Markup) :
    Option (List Char × List Char) → Except MarkupError (Markup × List Char)
  | none => .error cause
  | some (content, rest) => .ok (piece content, rest)

/-- A document type, which names the type. -/
def ofDoctype : Option (List Char × List Char) → Except MarkupError (Markup × List Char)
  | none => .error .unclosedDoctype
  | some (content, rest) =>
    if content.all isSpace then .error .unnamedDoctype else .ok (.doctype content, rest)

/-- The first piece of a text that begins with `<!`, which is cut off already. -/
def declaration : List Char → Except MarkupError (Markup × List Char)
  | '-' :: '-' :: cs => found .unclosedComment comment (splitAtMark? ['-', '-', '>'] [] cs)
  | '-' :: _ => .error .unclosedComment
  | '[' :: 'C' :: 'D' :: 'A' :: 'T' :: 'A' :: '[' :: cs =>
    found .unclosedCData cdata (splitAtMark? [']', ']', '>'] [] cs)
  | '[' :: _ => .error .unclosedCData
  | c :: cs =>
    if c = 'D' ∨ c = 'd' then
      match dropWord? ['O', 'C', 'T', 'Y', 'P', 'E'] cs with
      | none => .error .unclosedDoctype
      | some cs => ofDoctype (splitBalanced? 0 [] cs)
    else .error .unknownDeclaration
  | [] => .error .unknownDeclaration

/-- The first piece of a text that begins with `<?`, which is cut off already. The `?` at the
beginning does not count as the one at the end. -/
def processing : List Char → Except MarkupError (Markup × List Char)
  | '>' :: _ => .error .unclosedInstruction
  | cs => found .unclosedInstruction instruction (splitAtMark? ['?', '>'] [] cs)

/-- The name in an end tag: blank characters at the end go, unless there is nothing else. -/
def closeName (content : List Char) : List Char :=
  if content.all isSpace then content else (content.reverse.dropWhile isSpace).reverse

/-- A start tag, or an empty-element tag if the content ends in `/`. -/
def ofTag (content : List Char) : Markup :=
  if content.getLast? = some '/' then empty content.dropLast else start content

/-- The first piece of a text that begins with `<`, which is cut off already. -/
def tag : List Char → Except MarkupError (Markup × List Char)
  | '!' :: cs => declaration cs
  | '?' :: cs => processing cs
  | '/' :: cs => found .unclosedTag (close ∘ closeName) (splitTag? none [] cs)
  | cs => found .unclosedTag ofTag (splitTag? none [] cs)

/-- The first piece of the text `c :: cs` and the text after it. -/
def next (c : Char) (cs : List Char) : Except MarkupError (Markup × List Char) :=
  if c = '<' then tag cs
  else .ok (text (c :: cs.takeWhile (· ≠ '<')), cs.dropWhile (· ≠ '<'))

theorem length_lt_of_found {cause : MarkupError} {piece : List Char → Markup} {m : Markup}
    {split : Option (List Char × List Char)} {rest : List Char} {n : Nat}
    (h : found cause piece split = .ok (m, rest))
    (hs : ∀ content rest, split = some (content, rest) → rest.length < n) : rest.length < n := by
  unfold found at h
  split at h
  · simp at h
  · simp only [Except.ok.injEq, Prod.mk.injEq] at h
    exact h.2 ▸ hs _ _ rfl

theorem length_le_of_declaration {cs rest : List Char} {m : Markup}
    (h : declaration cs = .ok (m, rest)) : rest.length ≤ cs.length := by
  unfold declaration at h
  split at h
  · have := length_lt_of_found h fun _ _ hs => length_lt_of_splitAtMark? hs (by simp)
    simp only [List.length_cons]
    omega
  · simp at h
  · have := length_lt_of_found h fun _ _ hs => length_lt_of_splitAtMark? hs (by simp)
    simp only [List.length_cons]
    omega
  · simp at h
  · rename_i c cs _ _ _ _
    split at h
    · split at h
      · simp at h
      · rename_i cs' hw
        unfold ofDoctype at h
        split at h
        · simp at h
        · rename_i content rest' hs
          split at h
          · simp at h
          · simp only [Except.ok.injEq, Prod.mk.injEq] at h
            have := length_lt_of_splitBalanced? hs
            unfold dropWord? at hw
            split at hw
            · simp only [Option.some.injEq] at hw
              have := congrArg List.length hw
              simp only [List.length_drop] at this
              simp only [List.length_cons, ← h.2]
              omega
            · simp at hw
    · simp at h
  · simp at h

theorem length_le_of_processing {cs rest : List Char} {m : Markup}
    (h : processing cs = .ok (m, rest)) : rest.length ≤ cs.length := by
  unfold processing at h
  split at h
  · simp at h
  · exact Nat.le_of_lt (length_lt_of_found h fun _ _ hs => length_lt_of_splitAtMark? hs (by simp))

theorem length_le_of_tag {cs rest : List Char} {m : Markup} (h : tag cs = .ok (m, rest)) :
    rest.length ≤ cs.length := by
  unfold tag at h
  split at h
  · exact Nat.le_succ_of_le (length_le_of_declaration h)
  · exact Nat.le_succ_of_le (length_le_of_processing h)
  · exact Nat.le_succ_of_le
      (Nat.le_of_lt (length_lt_of_found h fun _ _ hs => length_lt_of_splitTag? hs))
  · exact Nat.le_of_lt (length_lt_of_found h fun _ _ hs => length_lt_of_splitTag? hs)

/-- A piece takes at least one character. -/
theorem length_le_of_next {c : Char} {cs rest : List Char} {m : Markup}
    (h : next c cs = .ok (m, rest)) : rest.length ≤ cs.length := by
  unfold next at h
  split at h
  · exact length_le_of_tag h
  · simp only [Except.ok.injEq, Prod.mk.injEq] at h
    exact h.2 ▸ (List.dropWhile_sublist _).length_le

/-! ## All pieces of a text -/

/-- Runs `step` over the pieces of a text, from the state `st`. -/
def foldM {σ : Type} (step : σ → Markup → Except XmlError σ) (st : σ) :
    List Char → Except XmlError σ
  | [] => .ok st
  | c :: cs =>
    match _h : next c cs with
    | .error cause => .error (.markup cause)
    | .ok (m, rest) =>
      match step st m with
      | .error cause => .error cause
      | .ok st => foldM step st rest
termination_by cs => cs.length
decreasing_by exact Nat.lt_succ_of_le (length_le_of_next ‹_›)

end Markup

end MifirReport.Xml
