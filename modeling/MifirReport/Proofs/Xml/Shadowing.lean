import MifirReport.Proofs.Xml.Likeness

/-!
# What paths lead to

A path takes the first child with a tag at each step, so that a later child with the same tag is
never reached. Two elements agree off some hidden paths if every path that does not pass through one
of these leads to nothing in both, or to elements with the same text and the same attributes
(`Lookup.AgreeOff`).

`Retouched` lists what may then be done to a document : an element may come or go behind an earlier
sibling of the same name, and anywhere at a hidden path, at any depth. What results agrees with what
was there before (`Retouched.agreeOff`). A reading that only follows paths is the same for elements
that agree (`Lookup.FollowsPaths`).
-/

namespace MifirReport.Xml

/-- What stands in an element itself. -/
def Element.face (e : Element) : String × (String → Option String) :=
  (e.text, e.attribute?)

/-- Siblings that have been retouched. An element came or went behind an earlier one of the same
name, or at one of the hidden paths; or the children of an element were retouched, where the paths
that are hidden continue through that element. -/
inductive Retouched : List (List String) → List Element → List Element → Prop
  | behind {hidden : List (List String)} {before after : List Element} {first e : Element} :
      first ∈ before → first.name = e.name → first.uri = e.uri →
      Retouched hidden (before ++ after) (before ++ e :: after)
  | hidden {hidden : List (List String)} {before after : List Element} {e : Element} :
      [e.name] ∈ hidden → Retouched hidden (before ++ after) (before ++ e :: after)
  | inside {hidden deeper : List (List String)} {before after inner : List Element} {e : Element} :
      (∀ path ∈ deeper, e.name :: path ∈ hidden) → Retouched deeper e.children inner →
      Retouched hidden (before ++ e :: after) (before ++ { e with children := inner } :: after)
  | refl {hidden : List (List String)} {es : List Element} : Retouched hidden es es
  | symm {hidden : List (List String)} {es fs : List Element} : Retouched hidden es fs →
      Retouched hidden fs es
  | trans {hidden : List (List String)} {es fs gs : List Element} : Retouched hidden es fs →
      Retouched hidden fs gs → Retouched hidden es gs

namespace Lookup

variable {x : Lookup} {hidden : List (List String)} {a b : Element} {path : List String}

/-! ## Agreement -/

/-- Two elements in which every path leads to the same, unless it passes through a hidden one. -/
def AgreeOff (x : Lookup) (hidden : List (List String)) (a b : Element) : Prop :=
  ∀ path, (∀ p ∈ hidden, ¬p <+: path) →
    (x.path? a path).map Element.face = (x.path? b path).map Element.face

namespace AgreeOff

theorem text_eq (h : x.AgreeOff [] a b) : a.text = b.text :=
  congrArg Prod.fst (Option.some.inj (h [] nofun))

theorem attribute?_eq (h : x.AgreeOff [] a b) (name : String) :
    a.attribute? name = b.attribute? name :=
  congrFun (congrArg Prod.snd (Option.some.inj (h [] nofun))) name

theorem isSome_path? (h : x.AgreeOff hidden a b) (hpath : ∀ p ∈ hidden, ¬p <+: path) :
    (x.path? a path).isSome = (x.path? b path).isSome := by
  have hface := congrArg Option.isSome (h path hpath)
  rwa [Option.isSome_map, Option.isSome_map] at hface

/-- What is at the end of a path is missing in both, or agrees off whatever the hidden paths
continue with from there. -/
theorem path?_cases {deeper : List (List String)} (h : x.AgreeOff hidden a b)
    (hpath : ∀ p ∈ hidden, ¬p <+: path)
    (hdeeper : ∀ rest, (∀ p ∈ deeper, ¬p <+: rest) → ∀ p ∈ hidden, ¬p <+: path ++ rest) :
    (x.path? a path = none ∧ x.path? b path = none) ∨
      ∃ c d, x.path? a path = some c ∧ x.path? b path = some d ∧ x.AgreeOff deeper c d := by
  have hsome := h.isSome_path? hpath
  cases hc : x.path? a path with
  | none =>
    rw [hc, Option.isSome_none, Eq.comm, Option.isSome_eq_false_iff, Option.isNone_iff_eq_none]
      at hsome
    exact Or.inl ⟨rfl, hsome⟩
  | some c =>
    rw [hc, Option.isSome_some, Eq.comm, Option.isSome_iff_exists] at hsome
    obtain ⟨d, hd⟩ := hsome
    refine Or.inr ⟨c, d, rfl, hd, fun rest hrest => ?_⟩
    have hface := h (path ++ rest) (hdeeper rest hrest)
    rwa [path?_append, path?_append, hc, hd] at hface

/-- Behind a path that neither passes through a hidden one nor leads up to one, nothing is hidden.
-/
theorem path?_cases_of_apart (h : x.AgreeOff hidden a b)
    (hpath : ∀ p ∈ hidden, ¬p <+: path ∧ ¬path <+: p) :
    (x.path? a path = none ∧ x.path? b path = none) ∨
      ∃ c d, x.path? a path = some c ∧ x.path? b path = some d ∧ x.AgreeOff [] c d := by
  refine h.path?_cases (fun p hp => (hpath p hp).1) fun rest _ p hp hpre => ?_
  have hboth := List.prefix_or_prefix_of_prefix hpre (List.prefix_append path rest)
  exact hboth.elim (hpath p hp).1 (hpath p hp).2

/-- Behind a path that the hidden ones continue, their rests are hidden. -/
theorem path?_cases_of_below (h : x.AgreeOff (hidden.map (path ++ ·)) a b) (hnil : [] ∉ hidden) :
    (x.path? a path = none ∧ x.path? b path = none) ∨
      ∃ c d, x.path? a path = some c ∧ x.path? b path = some d ∧ x.AgreeOff hidden c d := by
  refine h.path?_cases ?_ fun rest hrest => ?_
  · rw [List.forall_mem_map]
    intro p hp hpre
    have hlength := hpre.length_le
    rw [List.length_append] at hlength
    exact hnil (List.eq_nil_of_length_eq_zero (by omega : p.length = 0) ▸ hp)
  · rw [List.forall_mem_map]
    exact fun p hp hpre => hrest p hp ((List.prefix_append_right_inj path).1 hpre)

theorem child?_cases (h : x.AgreeOff [] a b) (tag : String) :
    (x.child? a tag = none ∧ x.child? b tag = none) ∨
      ∃ c d, x.child? a tag = some c ∧ x.child? b tag = some d ∧ x.AgreeOff [] c d := by
  rw [← x.path?_singleton a, ← x.path?_singleton b]
  exact h.path?_cases_of_apart nofun

theorem text (h : x.AgreeOff [] a b) (tag : String) : x.text a tag = x.text b tag := by
  obtain ⟨ha, hb⟩ | ⟨c, d, ha, hb, hcd⟩ := h.child?_cases tag
  · rw [Lookup.text, Lookup.text, ha, hb]
  · rw [Lookup.text, Lookup.text, ha, hb, Option.elim_some, Option.elim_some, hcd.text_eq]

end AgreeOff

/-- Alike elements agree in everything that paths lead to. -/
theorem Alike.agreeOff (h : x.Alike a b) : x.AgreeOff [] a b := by
  intro path _
  generalize x.path? a path = found, x.path? b path = found', h.path? path = hfound
  cases hfound with
  | none => rfl
  | some hcd => exact congrArg some (Prod.ext hcd.text_eq (funext hcd.attribute?_eq))

/-! ## Retouching -/

/-- The first hit stays the same if an element is put behind an earlier hit, or is no hit. -/
theorem find?_insert {p : Element → Bool} {before after : List Element} {e : Element}
    (h : p e = true → ∃ first ∈ before, p first = true) :
    (before ++ e :: after).find? p = (before ++ after).find? p := by
  rw [List.find?_append, List.find?_append]
  cases hbefore : before.find? p with
  | some _ => rfl
  | none =>
    have hno : ¬p e = true := fun he =>
      have ⟨first, hmem, hfirst⟩ := h he
      List.find?_eq_none.1 hbefore first hmem hfirst
    rw [List.find?_cons_of_neg hno]

/-- Paths from retouched siblings lead to the same, those through hidden ones apart. -/
theorem map_face_of_retouched {es fs : List Element} (h : Retouched hidden es fs) {tag : String}
    (hpath : ∀ p ∈ hidden, ¬p <+: tag :: path) :
    ((es.find? (x.isTagged tag)).bind (x.path? · path)).map Element.face =
      ((fs.find? (x.isTagged tag)).bind (x.path? · path)).map Element.face := by
  induction h generalizing tag path with
  | @behind hidden before after first e hmem hname huri =>
    rw [find?_insert fun he => ⟨first, hmem, by rwa [isTagged, hname, huri, ← isTagged]⟩]
  | @hidden hidden before after e hname =>
    rw [find?_insert fun he => ?_]
    have htag : e.name = tag := by
      rw [isTagged, Bool.and_eq_true, beq_iff_eq] at he
      exact he.1
    exact absurd (htag ▸ List.prefix_append [e.name] path) (hpath _ hname)
  | @inside hidden deeper before after inner e hdeeper _ ih =>
    -- A new content leaves the name of an element as it is.
    have htag : x.isTagged tag { e with children := inner } = x.isTagged tag e := rfl
    rw [List.find?_append, List.find?_append]
    cases before.find? (x.isTagged tag) with
    | some _ => rfl
    | none =>
      rw [Option.none_or, Option.none_or, List.find?_cons, List.find?_cons, htag]
      cases he : x.isTagged tag e with
      | false => rfl
      | true =>
        cases path with
        | nil => rfl
        | cons next path =>
          rw [isTagged, Bool.and_eq_true, beq_iff_eq] at he
          refine ih fun p hp hpre => hpath _ (hdeeper p hp) ?_
          rw [he.1]
          exact List.cons_prefix_cons.2 ⟨rfl, hpre⟩
  | refl => rfl
  | symm _ ih => exact (ih hpath).symm
  | trans _ _ ih ih' => exact (ih hpath).trans (ih' hpath)

/-- An element agrees with what it becomes when its content is retouched. -/
theorem agreeOff_of_retouched {e : Element} {inner : List Element}
    (h : Retouched hidden e.children inner) :
    x.AgreeOff hidden e { e with children := inner } := by
  intro path hpath
  cases path with
  | nil => rfl
  | cons tag path => exact map_face_of_retouched h hpath

/-! ## Readings -/

/-- A reading that is the same for elements in which all paths lead to the same. -/
def FollowsPaths {α : Type} (x : Lookup) (read : Element → α) : Prop :=
  ∀ ⦃a b : Element⦄, x.AgreeOff [] a b → read a = read b

theorem FollowsPaths.respects {α : Type} {read : Element → α} (h : x.FollowsPaths read) :
    x.Respects read :=
  fun _ _ halike => h halike.agreeOff

end Lookup

end MifirReport.Xml
