import MifirReport.Xml.Document
import Mathlib.Data.List.Induction
import Mathlib.Data.List.Infix

/-!
# Elements in a stream of events

A stream of events tells where elements begin (`beginnings`), which of them are open at a point of
it, and what character data is directly inside each (`textOf`). An element is open as long as no
first part of the events after its start tag has more end tags than start tags (`IsOpen`). That
depends on nothing but the events, and does not say how a stack of them develops, which is derived :
a start tag is put on the open ones, and an end tag takes off the innermost (`openAfter_start`,
`openAfter_close`).

Elements are known by the positions of the events that they begin with. `number` turns such a
position into the number of the element in the order of the stream.
-/

namespace MifirReport.Xml

namespace Event

/-- Whether an event is a start tag. -/
def isStart : Event → Bool
  | start _ _ => true
  | _ => false

/-- Whether an event is an end tag. -/
def isEnd : Event → Bool
  | close => true
  | _ => false

/-- Whether an element begins with an event. -/
def begins : Event → Bool
  | start _ _ | empty _ _ => true
  | _ => false

/-- The character data that an event contributes. -/
def content : Event → List Char
  | text content =>
    match Reference.expand content with
    | .ok chars => if chars.all Text.isBlank then [] else chars
    | .error _ => []
  | cdata content => content
  | _ => []

end Event

variable {es inside : List Event} {e : Event} {i : Nat}

/-! ## What is open -/

/-- The number of start tags among some events. -/
def starts (es : List Event) : Nat := es.countP Event.isStart

/-- The number of end tags among some events. -/
def ends (es : List Event) : Nat := es.countP Event.isEnd

/-- No first part of some events has more end tags than start tags. -/
def StaysOpen (inside : List Event) : Prop :=
  ∀ part ∈ inside.inits, ends part ≤ starts part

instance (inside : List Event) : Decidable (StaysOpen inside) :=
  inferInstanceAs (Decidable (∀ part ∈ inside.inits, _))

/-- The event at a position is a start tag whose element is open after the last event. -/
def IsOpen (es : List Event) (i : Nat) : Prop :=
  es[i]?.any Event.isStart = true ∧ StaysOpen (es.drop (i + 1))

instance (es : List Event) (i : Nat) : Decidable (IsOpen es i) :=
  inferInstanceAs (Decidable (_ ∧ _))

/-- The positions of the start tags whose elements are open after some events, the innermost
first. -/
def openAfter (es : List Event) : List Nat :=
  ((List.range es.length).filter fun i => IsOpen es i).reverse

/-- The position of the start tag of the innermost element that is open after some events. -/
def innermost? (es : List Event) : Option Nat :=
  (openAfter es).head?

theorem starts_concat (es : List Event) (e : Event) :
    starts (es ++ [e]) = starts es + if e.isStart then 1 else 0 := by
  rw [starts, starts, List.countP_append, List.countP_singleton]

theorem ends_concat (es : List Event) (e : Event) :
    ends (es ++ [e]) = ends es + if e.isEnd then 1 else 0 := by
  rw [ends, ends, List.countP_append, List.countP_singleton]

theorem staysOpen_concat : StaysOpen (inside ++ [e]) ↔
    StaysOpen inside ∧ ends (inside ++ [e]) ≤ starts (inside ++ [e]) := by
  simp only [StaysOpen, List.mem_inits, List.prefix_concat_iff, or_imp, forall_and,
    forall_eq]
  exact And.comm

/-- What was open stays open unless the last event closes it. -/
theorem isOpen_concat (hi : i < es.length) : IsOpen (es ++ [e]) i ↔
    IsOpen es i ∧ ends (es.drop (i + 1) ++ [e]) ≤ starts (es.drop (i + 1) ++ [e]) := by
  rw [IsOpen, IsOpen, List.getElem?_append_left hi, List.drop_append_of_le_length hi,
    staysOpen_concat, and_assoc]

theorem isOpen_length : IsOpen (es ++ [e]) es.length ↔ e.isStart = true := by
  simp [IsOpen, StaysOpen, ends, starts]

/-- The open elements are known by where they begin. -/
theorem mem_openAfter : i ∈ openAfter es ↔ i < es.length ∧ IsOpen es i := by
  simp [openAfter]

/-- The last event closes some of what was open, and may open its own element. -/
theorem openAfter_concat (es : List Event) (e : Event) :
    openAfter (es ++ [e]) = (if e.isStart then [es.length] else []) ++
      (openAfter es).filter fun i =>
        ends (es.drop (i + 1) ++ [e]) ≤ starts (es.drop (i + 1) ++ [e]) := by
  have hlast : [es.length].filter (fun i => IsOpen (es ++ [e]) i) =
      if e.isStart then [es.length] else [] := by
    simp only [List.filter_singleton, isOpen_length, Bool.decide_eq_true]
    cases e.isStart <;> rfl
  have hbefore : (List.range es.length).filter (fun i => IsOpen (es ++ [e]) i) =
      ((List.range es.length).filter fun i => IsOpen es i).filter fun i =>
        ends (es.drop (i + 1) ++ [e]) ≤ starts (es.drop (i + 1) ++ [e]) := by
    rw [List.filter_filter]
    refine List.filter_congr fun i hi => ?_
    rw [← Bool.decide_and, decide_eq_decide, isOpen_concat (List.mem_range.1 hi)]
    exact And.comm
  rw [openAfter, List.length_append, List.length_singleton, List.range_succ, List.filter_append,
    List.reverse_append, hlast, hbefore, openAfter, List.filter_reverse]
  cases e.isStart <;> rfl

/-- What is open stays open with an event that is no end tag. -/
theorem openAfter_of_not_isEnd (es : List Event) (he : e.isEnd = false) :
    openAfter (es ++ [e]) = (if e.isStart then [es.length] else []) ++ openAfter es := by
  rw [openAfter_concat, List.filter_eq_self.2]
  intro i hi
  obtain ⟨-, -, hstays⟩ := mem_openAfter.1 hi
  have hwhole : ends (es.drop (i + 1)) ≤ starts (es.drop (i + 1)) :=
    hstays _ ((List.mem_inits _ _).2 List.prefix_rfl)
  rw [ends_concat, starts_concat, he]
  exact decide_eq_true (Nat.le_add_right_of_le hwhole)

/-- A start tag is put on the open ones. -/
theorem openAfter_start (es : List Event) (tag : Tag) (resolution : Resolution) :
    openAfter (es ++ [.start tag resolution]) = es.length :: openAfter es :=
  openAfter_of_not_isEnd es rfl

/-- Of what is open, all but the first stays open with an end tag, if inside each element start tags
outnumber end tags by the open elements there. -/
theorem openAfter_close_of (hsurplus : ∀ d i, (openAfter es)[d]? = some i →
      starts (es.drop (i + 1)) = ends (es.drop (i + 1)) + d) :
    openAfter (es ++ [.close]) = (openAfter es).tail := by
  have hstays : ∀ d i, (openAfter es)[d]? = some i →
      (ends (es.drop (i + 1) ++ [Event.close]) ≤ starts (es.drop (i + 1) ++ [Event.close]) ↔
        0 < d) := by
    intro d i hd
    have hend : Event.close.isEnd = true ∧ Event.close.isStart = false := ⟨rfl, rfl⟩
    rw [ends_concat, starts_concat, hsurplus d i hd, hend.1, hend.2]
    simp only [if_true, Bool.false_eq_true, if_false]
    omega
  rw [openAfter_concat]
  revert hstays
  generalize openAfter es = opened
  intro hstays
  cases opened with
  | nil => rfl
  | cons i outer =>
    have hfirst := (hstays 0 i rfl).not.2 (Nat.lt_irrefl 0)
    have hothers : ∀ j ∈ outer,
        ends (es.drop (j + 1) ++ [Event.close]) ≤ starts (es.drop (j + 1) ++ [Event.close]) := by
      intro j hj
      obtain ⟨d, hd⟩ := List.mem_iff_getElem?.1 hj
      exact (hstays (d + 1) j hd).2 (Nat.succ_pos d)
    rw [List.filter_cons_of_neg (by simpa using hfirst),
      List.filter_eq_self.2 fun j hj => decide_eq_true (hothers j hj)]
    rfl

/-- Inside an open element start tags outnumber end tags by the open elements there. -/
theorem starts_eq_of_openAfter (es : List Event) (d i : Nat) (h : (openAfter es)[d]? = some i) :
    starts (es.drop (i + 1)) = ends (es.drop (i + 1)) + d := by
  induction es using List.reverseRecOn generalizing d i with
  | nil => cases h
  | append_singleton es e ih =>
    have hold : ∀ d' i, (openAfter es)[d']? = some i →
        starts ((es ++ [e]).drop (i + 1)) + (if e.isEnd then 1 else 0) =
          ends ((es ++ [e]).drop (i + 1)) + d' + if e.isStart then 1 else 0 := by
      intro d' i hd'
      have hi : i + 1 ≤ es.length := (mem_openAfter.1 (List.mem_of_getElem? hd')).1
      rw [List.drop_append_of_le_length hi, starts_concat, ends_concat, ih d' i hd']
      omega
    cases e with
    | start tag resolution =>
      rw [openAfter_start] at h
      cases d with
      | zero =>
        cases h
        simp [starts, ends]
      | succ d => exact hold d i h
    | close =>
      rw [openAfter_close_of ih, List.getElem?_tail] at h
      exact Nat.add_right_cancel (hold (d + 1) i h)
    | empty | text | cdata | skipped =>
      rw [openAfter_of_not_isEnd es rfl] at h
      exact hold d i h

/-- An end tag closes the innermost element. -/
theorem openAfter_close (es : List Event) : openAfter (es ++ [.close]) = (openAfter es).tail :=
  openAfter_close_of (starts_eq_of_openAfter es)

/-! ## Where elements begin, and what is inside them -/

/-- The positions of the events that have a property together with the events before them. -/
def positions (p : List Event → Event → Bool) (es : List Event) : List Nat :=
  (List.range es.length).filter fun i => es[i]?.any (p (es.take i))

/-- The positions where elements begin. -/
def beginnings : List Event → List Nat :=
  positions fun _ e => e.begins

/-- The positions where elements begin while no other is open. -/
def topLevel : List Event → List Nat :=
  positions fun before e => e.begins && (innermost? before).isNone

/-- The number of elements that begin before a position. -/
def number (es : List Event) (i : Nat) : Nat :=
  (es.take i).countP Event.begins

/-- The character data read while the element that begins at a position is the innermost open
one. -/
def textOf (es : List Event) (i : Nat) : List Char :=
  (positions (fun before _ => innermost? before == some i) es).flatMap fun j =>
    es[j]?.elim [] Event.content

variable {p : List Event → Event → Bool} {n : Nat}

theorem positions_concat (p : List Event → Event → Bool) (es : List Event) (e : Event) :
    positions p (es ++ [e]) = positions p es ++ if p es e then [es.length] else [] := by
  have hbefore : (List.range es.length).filter (fun i => (es ++ [e])[i]?.any
      (p ((es ++ [e]).take i))) = positions p es := by
    refine List.filter_congr fun i hi => ?_
    have hlt := List.mem_range.1 hi
    rw [List.getElem?_append_left hlt, List.take_append_of_le_length hlt.le]
  rw [positions, List.length_append, List.length_singleton, List.range_succ, List.filter_append,
    hbefore, List.filter_singleton, List.getElem?_concat_length, List.take_left]
  cases h : p es e <;> simp [h]

/-- Positions do not depend on later events. -/
theorem positions_isPrefix_append (p : List Event → Event → Bool) (es more : List Event) :
    positions p es <+: positions p (es ++ more) := by
  induction more using List.reverseRecOn with
  | nil => rw [List.append_nil]
  | append_singleton more e ih =>
    rw [← List.append_assoc, positions_concat]
    exact ih.trans (List.prefix_append _ _)

theorem lt_of_mem_positions (h : i ∈ positions p es) : i < es.length :=
  List.mem_range.1 (List.mem_filter.1 h).1

theorem nodup_positions (p : List Event → Event → Bool) (es : List Event) :
    (positions p es).Nodup :=
  List.nodup_range.filter _

theorem beginnings_concat (es : List Event) (e : Event) :
    beginnings (es ++ [e]) = beginnings es ++ if e.begins then [es.length] else [] :=
  positions_concat _ es e

/-- An event begins an element at the top if none is open before it. -/
theorem topLevel_concat (es : List Event) (e : Event) : topLevel (es ++ [e]) =
    topLevel es ++ if e.begins && (innermost? es).isNone then [es.length] else [] :=
  positions_concat _ es e

/-- Character data goes to the innermost of the open elements. -/
theorem textOf_concat (es : List Event) (e : Event) (i : Nat) :
    textOf (es ++ [e]) i = textOf es i ++ if innermost? es = some i then e.content else [] := by
  have hbefore : (positions (fun before _ => innermost? before == some i) es).flatMap
      (fun j => (es ++ [e])[j]?.elim [] Event.content) = textOf es i := by
    refine List.flatMap_congr fun j hj => ?_
    rw [List.getElem?_append_left (lt_of_mem_positions hj)]
  rw [textOf, positions_concat, List.flatMap_append, hbefore]
  by_cases hi : innermost? es = some i
  · simp [hi]
  · simp [hi]

theorem openAfter_eq_nil_iff : openAfter es = [] ↔ ∀ i, ¬IsOpen es i := by
  rw [List.eq_nil_iff_forall_not_mem]
  refine forall_congr' fun i => not_congr (mem_openAfter.trans (and_iff_right_of_imp ?_))
  rintro ⟨hstart, -⟩
  rw [Option.any_eq_true] at hstart
  obtain ⟨e, he, -⟩ := hstart
  exact (List.getElem?_eq_some_iff.1 he).1

theorem lt_of_innermost? (h : innermost? es = some i) : i < es.length :=
  (mem_openAfter.1 (List.mem_of_head? h)).1

/-- There is no innermost element just when none is open. -/
theorem innermost?_eq_none_iff : innermost? es = none ↔ openAfter es = [] :=
  List.head?_eq_none_iff

/-- Nothing is inside an element that is still to come. -/
theorem textOf_length (es : List Event) : textOf es es.length = [] := by
  refine List.flatMap_eq_nil_iff.2 fun j hj => ?_
  have hinner := (List.mem_filter.1 hj).2
  rw [Option.any_eq_true] at hinner
  obtain ⟨e, -, hinner⟩ := hinner
  have hlt := lt_of_innermost? (beq_iff_eq.1 hinner)
  rw [List.length_take] at hlt
  omega

theorem length_beginnings (es : List Event) : (beginnings es).length = es.countP Event.begins := by
  induction es using List.reverseRecOn with
  | nil => rfl
  | append_singleton es e ih =>
    rw [beginnings_concat, List.length_append, ih, List.countP_append, List.countP_singleton]
    split <;> rfl

/-- Later events do not change the number of an element. -/
theorem number_concat (e : Event) (hi : i ≤ es.length) : number (es ++ [e]) i = number es i := by
  rw [number, List.take_append_of_le_length hi, number]

/-- The element that begins next has the next number. -/
theorem number_length (es : List Event) (e : Event) :
    number (es ++ [e]) es.length = (beginnings es).length := by
  rw [number_concat e le_rfl, number, List.take_length, length_beginnings]

/-- Elements are numbered in the order in which they begin. -/
theorem getElem?_number (h : i ∈ beginnings es) : (beginnings es)[number es i]? = some i := by
  induction es using List.reverseRecOn with
  | nil => cases h
  | append_singleton es e ih =>
    rw [beginnings_concat] at h ⊢
    rcases List.mem_append.1 h with hi | hi
    · have hold := ih hi
      rw [number_concat e (lt_of_mem_positions hi).le,
        List.getElem?_append_left (List.getElem?_eq_some_iff.1 hold).1, hold]
    · split at hi
      · rename_i hbegins
        rw [List.mem_singleton.1 hi, number_length, if_pos hbegins, List.getElem?_concat_length]
      · cases hi

/-- What is open has begun. -/
theorem mem_beginnings_of_innermost? (h : innermost? es = some i) : i ∈ beginnings es := by
  obtain ⟨hi, hstart, -⟩ := mem_openAfter.1 (List.mem_of_head? h)
  refine List.mem_filter.2 ⟨List.mem_range.2 hi, ?_⟩
  rw [Option.any_eq_true] at hstart ⊢
  obtain ⟨e, he, hstart⟩ := hstart
  refine ⟨e, he, ?_⟩
  cases e with
  | start => rfl
  | _ => cases hstart

end MifirReport.Xml
