import MifirReport.Proofs.Xml.Building

/-!
# Runs of character data

Character data goes on until the next `<`. Where it meets other pieces the text may be cut : the
pieces of a run of character data and a text that begins with markup are the run (`run`, nothing if
it is empty) and the pieces of the text (`cut_run_append_iff`). What comes after whole pieces is cut
as it is on its own, unless the pieces end in a run (`Cut.of_append`).

A run is judged as a whole : it is left out if it is blank once its references are replaced
(`keep`), and goes to the innermost open element otherwise (`foldlM_run`). Outside the root it has
no place to go to, and leaves the state as it is (`step_text_outside`).
-/

namespace MifirReport.Xml

/-! ## The pieces of a run -/

namespace Markup

variable {cs ds raw : List Char} {ms ns : List Markup}

/-- The pieces of character data : one, or none if it is empty. -/
def run (raw : List Char) : List Markup :=
  if raw = [] then [] else [.text raw]

/-- A run before markup is one piece, and what follows it is cut on its own. -/
theorem cut_run_append_iff (hraw : '<' ∉ raw) (hcs : ∀ c ∈ cs.head?, c = '<') :
    Cut (raw ++ cs) ms ↔ ∃ ns, ms = run raw ++ ns ∧ Cut cs ns := by
  cases raw with
  | nil => exact ⟨fun h => ⟨ms, rfl, h⟩, fun ⟨ns, hns, h⟩ => hns ▸ h⟩
  | cons c raw =>
    rw [List.mem_cons, not_or] at hraw
    have hword := decide_ne_of_not_mem hraw.2
    have hrest : ∀ d ∈ cs.head?, decide (d ≠ '<') = false := fun d hd => by simp [hcs d hd]
    have hnext : next c (raw ++ cs) = .ok (.text (c :: raw), cs) := by
      rw [next, if_neg (Ne.symm hraw.1), takeWhile_word hword cs hrest,
        dropWhile_word hword cs hrest]
    constructor
    · intro h
      cases h with
      | cons hnext' hcut =>
        obtain ⟨rfl, rfl⟩ := Prod.mk.inj (Except.ok.inj (hnext.symm.trans hnext'))
        exact ⟨_, rfl, hcut⟩
    · rintro ⟨ns, rfl, hcut⟩
      exact .cons hnext hcut

/-- Every text is a run and a text that begins with markup. -/
theorem exists_run (cs : List Char) :
    ∃ raw ds, cs = raw ++ ds ∧ '<' ∉ raw ∧ ∀ c ∈ ds.head?, c = '<' := by
  refine ⟨cs.takeWhile (· ≠ '<'), cs.dropWhile (· ≠ '<'),
    List.takeWhile_append_dropWhile.symm, fun hmem => ?_, fun c hc => ?_⟩
  · simpa using List.mem_takeWhile_imp hmem
  · have hstop := List.head?_dropWhile_not (fun d => decide (d ≠ '<')) cs
    rw [Option.mem_def.1 hc] at hstop
    simpa using hstop

theorem cut_piece {p : Piece} (h : p.Legal) : Cut p.chars [p.markup] := by
  have hcut := cut_pieces (List.forall_mem_singleton.2 h) (List.isChain_singleton p)
  rwa [List.flatMap_singleton, List.map_singleton] at hcut

/-- What comes after whole pieces is cut on its own, unless character data may go on. -/
theorem Cut.of_append (h : Cut cs ms) (hlast : ∀ m ∈ ms.getLast?, m.isText = false)
    (hboth : Cut (cs ++ ds) ns) : ∃ rest, ns = ms ++ rest ∧ Cut ds rest := by
  induction h generalizing ns with
  | nil => exact ⟨ns, rfl, hboth⟩
  | @cons c cs rest m ms hnext hcut ih =>
    have hmore : next c (cs ++ ds) = .ok (m, rest ++ ds) := by
      refine next_append hnext fun htext hnil => ?_
      subst hnil
      obtain rfl := hcut.eq_nil
      rw [hlast m rfl] at htext
      cases htext
    rw [List.cons_append] at hboth
    cases hboth with
    | cons hnext' hcut' =>
      obtain ⟨rfl, rfl⟩ := Prod.mk.inj (Except.ok.inj (hmore.symm.trans hnext'))
      have hlater : ∀ n ∈ ms.getLast?, n.isText = false := fun n hn =>
        hlast n (by rw [List.getLast?_cons, hn]; rfl)
      obtain ⟨more, rfl, hds⟩ := ih hlater hcut'
      exact ⟨more, rfl, hds⟩

end Markup

/-! ## What a run adds -/

theorem Builder.addText_addText (builder : Builder) (content more : List Char) :
    (builder.addText content).addText more = builder.addText (content ++ more) := by
  obtain ⟨_ | ⟨frame, opened⟩, root⟩ := builder
  · rfl
  · simp [addText, String.append_assoc]

theorem Builder.length_opened_addText (builder : Builder) (content : List Char) :
    (builder.addText content).opened.length = builder.opened.length := by
  obtain ⟨_ | ⟨frame, opened⟩, root⟩ := builder <;> rfl

theorem Builder.addText_outside {builder : Builder} (h : builder.opened = [])
    (content : List Char) : builder.addText content = builder := by
  obtain ⟨opened, root⟩ := builder
  subst h
  rfl

namespace Document

open Markup

variable {cs raw chars : List Char} {state state' : State}

theorem dropMark_append (hcs : raw = [] → ∀ c ∈ cs.head?, c = '<') :
    dropMark (raw ++ cs) = dropMark raw ++ cs := by
  cases raw with
  | cons c raw =>
    unfold dropMark
    split <;> split <;> simp_all
  | nil =>
    cases cs with
    | nil => rfl
    | cons c cs =>
      obtain rfl := hcs rfl c rfl
      rfl

/-- A run adds what is kept of it to the innermost open element. -/
theorem foldlM_run (h : Reference.expand raw = .ok chars) (reader : Reader) (builder : Builder) :
    (run raw).foldlM State.step ⟨reader, builder⟩ =
      .ok ⟨reader, builder.addText (keep chars)⟩ := by
  cases raw with
  | nil =>
    obtain rfl := Except.ok.inj (h.symm.trans (Reference.expandFrom_of_expands .nil _ _))
    have hkeep : keep [] = [] := rfl
    rw [hkeep, Builder.addText_nil]
    rfl
  | cons c raw =>
    rw [run, if_neg (List.cons_ne_nil _ _), foldlM_cons_of_ok (step_text h reader builder)]
    rfl

theorem expand_of_foldlM_run (h : (run raw).foldlM State.step state = .ok state') :
    ∃ chars, Reference.expand raw = .ok chars := by
  cases raw with
  | nil => exact ⟨[], Reference.expandFrom_of_expands .nil _ _⟩
  | cons c raw =>
    obtain ⟨_, hstep, -⟩ := foldlM_cons_eq_ok h
    exact (expand_of_step hstep).2

/-- Character data outside the root leaves no trace. -/
theorem step_text_outside (hopened : state.builder.opened = [])
    (h : Reference.expand raw = .ok chars) : State.step state (.text raw) = .ok state := by
  obtain ⟨reader, builder⟩ := state
  rw [step_text h, Builder.addText_outside hopened]

end Document

end MifirReport.Xml
