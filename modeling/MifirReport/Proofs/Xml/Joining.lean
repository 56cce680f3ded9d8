import MifirReport.Proofs.Xml.Cutting
import MifirReport.Proofs.Xml.Escaping
import Mathlib.Data.List.TakeWhile

/-!
# Texts that meet

Two texts read one after the other are read as each of them is read, but for character data that
meets character data. It is one piece then (`Markup.Cut.append_cases`), and its references are those
of the two, since a reference ends within the text that it begins in : `Reference.expand_append`.
-/

namespace MifirReport.Xml

/-! ## References of joined texts -/

namespace Reference

variable {c : Char} {cs cs' name raw raw' : List Char}

/-- A text in which every reference stands for a character, and the text with these characters. -/
inductive Expands : List Char → List Char → Prop
  | nil : Expands [] []
  | plain {c : Char} {raw cs : List Char} : c ≠ '&' → Expands raw cs → Expands (c :: raw) (c :: cs)
  | reference {c : Char} {name raw cs : List Char} : (∀ d ∈ name, (!endsName d) = true) →
      (∀ position, resolve position name = .ok c) → Expands raw cs →
      Expands ('&' :: (name ++ ';' :: raw)) (c :: cs)

theorem Expands.append (h : Expands raw cs) (h' : Expands raw' cs') :
    Expands (raw ++ raw') (cs ++ cs') := by
  induction h with
  | nil => exact h'
  | plain hc _ ih => exact .plain hc ih
  | @reference c name raw cs hgo hresolve _ ih =>
    have hreference := Expands.reference hgo hresolve ih
    simpa using hreference

/-- What a reference stands for does not depend on where it is. -/
theorem resolve_congr {position : Nat} (h : resolve position name = .ok c) (position' : Nat) :
    resolve position' name = .ok c := by
  revert h
  fun_cases resolve position name with
  | case1 number d hd =>
    intro h
    rwa [resolve, hd]
  | case2 =>
    intro h
    cases h
  | case3 name hnumber d hd =>
    intro h
    rw [resolve, hd]
    · exact h
    · exact hnumber
  | case4 =>
    intro h
    cases h

theorem exists_of_map_eq_ok {x : Except ReferenceError (List Char)}
    (h : (c :: ·) <$> x = .ok cs) : ∃ cs', x = .ok cs' ∧ cs = c :: cs' := by
  cases x with
  | error cause => cases h
  | ok cs' => exact ⟨cs', rfl, (Except.ok.inj h).symm⟩

theorem expands_of_expandFrom {size position : Nat} (h : expandFrom size position raw = .ok cs) :
    Expands raw cs := by
  fun_induction expandFrom size position raw generalizing cs with
  | case1 =>
    obtain rfl := Except.ok.inj h
    exact .nil
  | case2 => cases h
  | case3 _ raw _ rest hrest d hresolve =>
    rename_i ih
    obtain ⟨cs', hcs', rfl⟩ := exists_of_map_eq_ok h
    have hraw : raw = raw.takeWhile (!endsName ·) ++ ';' :: rest := by
      rw [← hrest, List.takeWhile_append_dropWhile]
    rw [hraw]
    exact .reference (fun _ => List.mem_takeWhile_imp) (resolve_congr hresolve) (ih hcs')
  | case4 => cases h
  | case5 position c raw hc ih =>
    obtain ⟨cs', hcs', rfl⟩ := exists_of_map_eq_ok h
    exact .plain hc (ih hcs')

theorem expandFrom_of_expands (h : Expands raw cs) (size position : Nat) :
    expandFrom size position raw = .ok cs := by
  induction h generalizing position with
  | nil => rw [expandFrom]
  | plain hc _ ih =>
    rw [expandFrom, if_neg hc, ih]
    rfl
  | reference hgo hresolve _ ih =>
    rw [expandFrom_reference hgo (hresolve _), ih]
    rfl

/-- The references of two texts are those of the one followed by the other. -/
theorem expand_append (h : expand raw = .ok cs) (h' : expand raw' = .ok cs') :
    expand (raw ++ raw') = .ok (cs ++ cs') :=
  expandFrom_of_expands ((expands_of_expandFrom h).append (expands_of_expandFrom h')) _ _

/-- References are replaced from left to right, and those that come first do not matter later. -/
theorem expandFrom_append (h : Expands raw cs) (size position : Nat) (more : List Char) :
    ∃ position', expandFrom size position (raw ++ more) =
      (cs ++ ·) <$> expandFrom size position' more := by
  have hcons (c : Char) (cs : List Char) (x : Except ReferenceError (List Char)) :
      (c :: ·) <$> (cs ++ ·) <$> x = ((c :: cs) ++ ·) <$> x := by
    cases x <;> rfl
  induction h generalizing position with
  | nil => exact ⟨position, by cases h : expandFrom size position more <;> simp [h]⟩
  | @plain c raw cs hc _ ih =>
    obtain ⟨position', hmore⟩ := ih (position + c.utf8Size)
    exact ⟨position', by rw [List.cons_append, expandFrom, if_neg hc, hmore, hcons]⟩
  | @reference c name raw cs hgo hresolve _ ih =>
    obtain ⟨position', hmore⟩ := ih (position + 1 + Text.byteLength name + 1)
    refine ⟨position', ?_⟩
    have hwhole := expandFrom_reference hgo (hresolve (position + 1)) size (raw ++ more)
    rw [hmore, hcons] at hwhole
    simpa using hwhole

/-- What follows a text with all its references can be read if both can be read together. -/
theorem expand_of_append {more both : List Char} (h : expand raw = .ok cs)
    (hboth : expand (raw ++ more) = .ok both) :
    ∃ rest, expand more = .ok rest ∧ both = cs ++ rest := by
  obtain ⟨position, happend⟩ :=
    expandFrom_append (expands_of_expandFrom h) (Text.byteLength (raw ++ more)) 0 more
  rw [expand, happend] at hboth
  cases hmore : expandFrom (Text.byteLength (raw ++ more)) position more with
  | error cause =>
    rw [hmore] at hboth
    cases hboth
  | ok rest =>
    rw [hmore] at hboth
    exact ⟨rest, expandFrom_of_expands (expands_of_expandFrom hmore) _ _,
      (Except.ok.inj hboth).symm⟩

end Reference

/-! ## Pieces of joined texts -/

namespace Markup

variable {a b cs ds rest : List Char} {c : Char} {m : Markup} {ms ns : List Markup}

theorem not_isText_of_found {cause : MarkupError} {piece : List Char → Markup}
    {split : Option (List Char × List Char)} (hpiece : ∀ content, (piece content).isText = false)
    (h : found cause piece split = .ok (m, rest)) : m.isText = false := by
  cases split with
  | none => cases h
  | some parts =>
    obtain ⟨rfl, -⟩ := Prod.mk.inj (Except.ok.inj h)
    exact hpiece _

theorem not_isText_of_ofDoctype {split : Option (List Char × List Char)}
    (h : ofDoctype split = .ok (m, rest)) : m.isText = false := by
  cases split with
  | none => cases h
  | some parts =>
    rw [ofDoctype] at h
    split_ifs at h
    obtain ⟨rfl, -⟩ := Prod.mk.inj (Except.ok.inj h)
    rfl

theorem not_isText_of_declaration (h : declaration cs = .ok (m, rest)) : m.isText = false := by
  revert h
  fun_cases declaration cs with
  | case1 => exact not_isText_of_found fun _ => rfl
  | case3 => exact not_isText_of_found fun _ => rfl
  | case6 => exact not_isText_of_ofDoctype
  | case2 | case4 | case5 | case7 | case8 =>
    intro h
    cases h

/-- What begins with a `<` is no character data. -/
theorem not_isText_of_tag (h : tag cs = .ok (m, rest)) : m.isText = false := by
  revert h
  fun_cases tag cs with
  | case1 => exact not_isText_of_declaration
  | case2 cs =>
    fun_cases processing cs with
    | case1 =>
      intro h
      cases h
    | case2 => exact not_isText_of_found fun _ => rfl
  | case3 => exact not_isText_of_found fun _ => rfl
  | case4 =>
    refine not_isText_of_found fun content => ?_
    rw [ofTag]
    split_ifs
    · rfl
    · rfl

/-- Character data is what comes before the next `<`. -/
theorem eq_of_next_text (h : next c cs = .ok (text a, rest)) :
    c ≠ '<' ∧ a = c :: cs.takeWhile (· ≠ '<') ∧ rest = cs.dropWhile (· ≠ '<') := by
  rw [next] at h
  split_ifs at h with hc
  · exact absurd (not_isText_of_tag h) (by simp [isText])
  · obtain ⟨hcontent, hrest⟩ := Prod.mk.inj (Except.ok.inj h)
    exact ⟨hc, (Markup.text.inj hcontent).symm, hrest.symm⟩

theorem exists_of_isText (h : m.isText = true) : ∃ a, m = text a := by
  cases m with
  | text a => exact ⟨a, rfl⟩
  | _ => cases h

theorem Cut.eq_nil (h : Cut [] ms) : ms = [] := by
  cases h
  rfl

/-- Character data that meets character data is one piece with it. -/
theorem Cut.append_text (h : Cut cs (ms ++ [text a])) (h' : Cut ds (text b :: ns)) :
    Cut (cs ++ ds) (ms ++ text (a ++ b) :: ns) := by
  generalize hpieces : ms ++ [text a] = pieces at h
  induction h generalizing ms with
  | nil => simp at hpieces
  | @cons c cs rest m pieces hnext hrest ih =>
    cases ms with
    | nil =>
      obtain ⟨rfl, rfl⟩ := List.cons.inj hpieces
      cases hrest
      obtain ⟨hc, rfl, hend⟩ := eq_of_next_text hnext
      have hall : ∀ d ∈ cs, decide (d ≠ '<') = true := List.dropWhile_eq_nil_iff.1 hend.symm
      cases h' with
      | @cons d ds rest' _ _ hnext' hrest' =>
        obtain ⟨hd, rfl, rfl⟩ := eq_of_next_text hnext'
        refine .cons ?_ hrest'
        change next c (cs ++ d :: ds) = _
        rw [next, if_neg hc, List.takeWhile_append_of_pos hall, List.dropWhile_append_of_pos hall,
          List.takeWhile_cons_of_pos (by simpa using hd),
          List.dropWhile_cons_of_pos (by simpa using hd),
          List.takeWhile_eq_self_iff.2 hall]
        rfl
    | cons m' ms =>
      obtain ⟨rfl, rfl⟩ := List.cons.inj hpieces
      refine .cons (next_append hnext fun _ hnil => ?_) (ih rfl)
      subst hnil
      exact absurd hrest.eq_nil (by simp)

/-- Two texts one after the other are cut into the pieces of both, apart from character data that
meets character data and is one piece with it. -/
theorem Cut.append_cases (h : Cut cs ms) (h' : Cut ds ns) :
    Cut (cs ++ ds) (ms ++ ns) ∨ ∃ before a b after, ms = before ++ [text a] ∧
      ns = text b :: after ∧ Cut (cs ++ ds) (before ++ text (a ++ b) :: after) := by
  by_cases hmeet : ∃ before a b after, ms = before ++ [text a] ∧ ns = text b :: after
  · obtain ⟨before, a, b, after, rfl, rfl⟩ := hmeet
    exact .inr ⟨before, a, b, after, rfl, rfl, h.append_text h'⟩
  · refine .inl (h.append h' fun m hm n hn htext => ?_)
    rw [Bool.eq_false_iff]
    intro htext'
    obtain ⟨a, rfl⟩ := exists_of_isText htext
    obtain ⟨b, rfl⟩ := exists_of_isText htext'
    obtain ⟨before, hms⟩ := List.getLast?_eq_some_iff.1 hm
    obtain ⟨after, hns⟩ := List.head?_eq_some_iff.1 hn
    exact hmeet ⟨before, a, b, after, hms, hns⟩

/-- Every text that a run accepts is cut into pieces, and the run is one over the pieces. -/
theorem exists_cut {σ : Type} {step : σ → Markup → Except XmlError σ} {st st' : σ}
    (h : foldM step st cs = .ok st') : ∃ ms, Cut cs ms ∧ ms.foldlM step st = .ok st' := by
  fun_induction foldM step st cs with
  | case1 => exact ⟨[], .nil, h⟩
  | case2 => cases h
  | case3 => cases h
  | case4 st c cs m rest hnext st₁ hstep ih =>
    obtain ⟨ms, hcut, hrun⟩ := ih h
    exact ⟨m :: ms, .cons hnext hcut, by rw [List.foldlM_cons, hstep]; exact hrun⟩

end Markup

end MifirReport.Xml
