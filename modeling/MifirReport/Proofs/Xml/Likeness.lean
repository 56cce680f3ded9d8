import MifirReport.Xml.Lookup
import Mathlib.Data.List.Forall2

/-!
# What lookups tell apart

A lookup sees of an element its text, its attributes by name, and for each tag the list of the
children with that tag. Two elements are alike if they have the same text and the same attributes
and if, tag by tag, these lists are alike child by child (`Lookup.Alike`). That is an equivalence.

Nothing in it depends on the order of children with different names, or on children in other
namespaces. Siblings may be put into another order as long as those of one name keep theirs, and
elements of another namespace may come and go, at any depth : what results is alike
(`Lookup.Rearranged.alike`).

A reading respects a lookup if it is the same for alike elements (`Lookup.Respects`). Readings are
built from lookups of one child, of the end of a path and of all children with a tag, and these lead
from alike elements to alike ones (`Lookup.Alike.child?`, `path?`, `children`).
-/

namespace MifirReport.Xml

/-! ## Elements -/

/-- An element with a text and nothing inside it. -/
def Element.leaf (uri tag text : String) : Element :=
  { name := tag, uri, text }

/-- An element with others inside it. -/
def Element.branch (uri tag : String) (children : List Element) : Element :=
  { name := tag, uri, children }

/-- What is inside an element is smaller, which lets a recursion go into it. -/
theorem Element.sizeOf_lt_of_mem_children {e child : Element} (h : child ∈ e.children) :
    sizeOf child < sizeOf e := by
  have := List.sizeOf_lt_of_mem h
  cases e
  simp only [Element.mk.sizeOf_spec] at this ⊢
  omega

/-- What holds of an element as soon as it holds of those directly inside it holds of all. -/
@[elab_as_elim]
theorem Element.induction_children {P : Element → Prop}
    (step : ∀ e : Element, (∀ child ∈ e.children, P child) → P e) (e : Element) : P e :=
  step e fun child h =>
    have := Element.sizeOf_lt_of_mem_children h
    Element.induction_children step child
termination_by sizeOf e

namespace Lookup

/-! ## Likeness -/

/-- Two elements that lookups do not tell apart : they have the same text and the same attributes,
and for each tag their children with that tag are as many and alike one by one. -/
inductive Alike (x : Lookup) : Element → Element → Prop
  | intro {a b : Element} : a.text = b.text → (∀ name, a.attribute? name = b.attribute? name) →
      (∀ tag, List.Forall₂ (Alike x) (x.children a tag) (x.children b tag)) → Alike x a b

variable {x : Lookup} {a b c : Element}

theorem forall₂_trans {R S T : Element → Element → Prop} (h : ∀ a b c, R a b → S b c → T a c) :
    ∀ {as bs cs : List Element}, List.Forall₂ R as bs → List.Forall₂ S bs cs →
      List.Forall₂ T as cs
  | _, _, _, .nil, .nil => .nil
  | _, _, _, .cons hab has, .cons hbc hbs => .cons (h _ _ _ hab hbc) (forall₂_trans h has hbs)

namespace Alike

theorem text_eq (h : x.Alike a b) : a.text = b.text := by
  obtain ⟨htext, -, -⟩ := h
  exact htext

theorem attribute?_eq (h : x.Alike a b) (name : String) :
    a.attribute? name = b.attribute? name := by
  obtain ⟨-, hattribute, -⟩ := h
  exact hattribute name

/-- All children with a tag are alike one by one. -/
theorem children (h : x.Alike a b) (tag : String) :
    List.Forall₂ x.Alike (x.children a tag) (x.children b tag) := by
  obtain ⟨-, -, hchildren⟩ := h
  exact hchildren tag

/-- Every element is alike to itself, since the children of each tag are, by induction. -/
theorem refl (e : Element) : x.Alike e e := by
  induction e using Element.induction_children with
  | step e ih =>
    refine .intro rfl (fun _ => rfl) fun tag => List.forall₂_same.2 fun child hchild => ?_
    exact ih child (List.mem_of_mem_filter hchild)

theorem symm (h : x.Alike a b) : x.Alike b a := by
  induction a using Element.induction_children generalizing b with
  | step a ih =>
    refine .intro h.text_eq.symm (fun name => (h.attribute?_eq name).symm) fun tag => .flip ?_
    have hinner : ∀ c ∈ x.children a tag, ∀ d, x.Alike c d → x.Alike d c :=
      fun c hc d => ih c (List.mem_of_mem_filter hc)
    exact ((List.forall₂_and_left _ _).2 ⟨hinner, h.children tag⟩).imp fun c d hcd =>
      hcd.1 d hcd.2

theorem trans (h : x.Alike a b) (h' : x.Alike b c) : x.Alike a c := by
  induction a using Element.induction_children generalizing b c with
  | step a ih =>
    refine .intro (h.text_eq.trans h'.text_eq)
      (fun name => (h.attribute?_eq name).trans (h'.attribute?_eq name)) fun tag => ?_
    have hinner : ∀ c ∈ x.children a tag, ∀ d e, x.Alike c d → x.Alike d e → x.Alike c e :=
      fun c hc d e => ih c (List.mem_of_mem_filter hc)
    refine forall₂_trans ?_ ((List.forall₂_and_left _ _).2 ⟨hinner, h.children tag⟩)
      (h'.children tag)
    rintro c d e ⟨htrans, hcd⟩ hde
    exact htrans d e hcd hde

/-! ## Lookups lead to alike elements -/

theorem child? (h : x.Alike a b) (tag : String) :
    Option.Rel x.Alike (x.child? a tag) (x.child? b tag) := by
  rw [x.child?_eq_head? a, x.child?_eq_head? b]
  generalize x.children a tag = as, x.children b tag = bs, h.children tag = hall
  cases hall with
  | nil => exact .none
  | cons hfirst _ => exact .some hfirst

/-- The first children with a tag are both missing, or both there and alike. -/
theorem child?_cases (h : x.Alike a b) (tag : String) :
    (x.child? a tag = none ∧ x.child? b tag = none) ∨
      ∃ c d, x.child? a tag = some c ∧ x.child? b tag = some d ∧ x.Alike c d := by
  generalize x.child? a tag = found, x.child? b tag = found', h.child? tag = hfound
  cases hfound with
  | none => exact Or.inl ⟨rfl, rfl⟩
  | some hcd => exact Or.inr ⟨_, _, rfl, rfl, hcd⟩

/-- The ends of a path are both missing, or both there and alike. -/
theorem path? (h : x.Alike a b) (tags : List String) :
    Option.Rel x.Alike (x.path? a tags) (x.path? b tags) := by
  induction tags generalizing a b with
  | nil => exact .some h
  | cons tag tags ih =>
    obtain ⟨ha, hb⟩ | ⟨c, d, ha, hb, hcd⟩ := h.child?_cases tag
    · simp only [Lookup.path?, ha, hb]
      exact .none
    · simp only [Lookup.path?, ha, hb]
      exact ih hcd

/-- A tag is there in both or in neither. -/
theorem has_eq (h : x.Alike a b) (tag : String) : x.has a tag = x.has b tag := by
  cases h.child?_cases tag with
  | inl hnone => rw [has, has, hnone.1, hnone.2]
  | inr hsome =>
    obtain ⟨c, d, ha, hb, -⟩ := hsome
    rw [has, has, ha, hb]
    rfl

end Alike

/-- A second choice for alike elements is alike if the first one is. -/
theorem rel_or {found found' other other' : Option Element} (h : Option.Rel x.Alike found found')
    (h' : Option.Rel x.Alike other other') :
    Option.Rel x.Alike (found.or other) (found'.or other') := by
  cases h with
  | none => exact h'
  | some hab => exact .some hab

/-- An element that may be missing is a list of at most one, alike as a list. -/
theorem forall₂_toList {found found' : Option Element} (h : Option.Rel x.Alike found found') :
    List.Forall₂ x.Alike found.toList found'.toList := by
  cases h with
  | none => exact .nil
  | some hab => exact .cons hab .nil

/-! ## Rearranging -/

/-- Siblings that hold the same for a lookup, in another arrangement. The order of siblings with
different names may be another, as long as those of one name stay in order; an element of another
namespace may stand anywhere; and what is inside an element may be rearranged too. -/
inductive Rearranged (x : Lookup) : List Element → List Element → Prop
  | interleave {es fs : List Element} :
      (∀ (y : Lookup) (tag : String), es.filter (y.isTagged tag) = fs.filter (y.isTagged tag)) →
      Rearranged x es fs
  | insert {before after : List Element} {e : Element} :
      e.uri ≠ x.uri → Rearranged x (before ++ after) (before ++ e :: after)
  | inside {before after inner : List Element} {e : Element} : Rearranged x e.children inner →
      Rearranged x (before ++ e :: after) (before ++ { e with children := inner } :: after)
  | symm {es fs : List Element} : Rearranged x es fs → Rearranged x fs es
  | trans {es fs gs : List Element} : Rearranged x es fs → Rearranged x fs gs →
      Rearranged x es gs

/-- Neighbours with different names may change places. -/
theorem Rearranged.swap {before after : List Element} (h : (a.name, a.uri) ≠ (b.name, b.uri)) :
    x.Rearranged (before ++ a :: b :: after) (before ++ b :: a :: after) := by
  refine .interleave fun y tag => ?_
  have hone : y.isTagged tag a = false ∨ y.isTagged tag b = false := by
    by_contra hboth
    simp only [isTagged, Bool.and_eq_false_iff, beq_eq_false_iff_ne, not_or, not_not] at hboth
    obtain ⟨⟨ha, ha'⟩, hb, hb'⟩ := hboth
    exact h (by rw [ha, ha', hb, hb'])
  rw [List.filter_append, List.filter_append]
  rcases hone with ha | hb
  · simp only [List.filter_cons, ha, Bool.false_eq_true, if_false]
  · simp only [List.filter_cons, hb, Bool.false_eq_true, if_false]

theorem forall₂_alike_refl (es : List Element) : List.Forall₂ x.Alike es es :=
  List.forall₂_same.2 fun e _ => .refl e

/-- The siblings with a tag are alike one by one after rearranging. -/
theorem Rearranged.forall₂_alike {es fs : List Element} (h : Rearranged x es fs) (tag : String) :
    List.Forall₂ x.Alike (es.filter (x.isTagged tag)) (fs.filter (x.isTagged tag)) := by
  induction h generalizing tag with
  | interleave hsame =>
    rw [hsame x tag]
    exact forall₂_alike_refl _
  | @insert before after e huri =>
    have htag : x.isTagged tag e = false := by simp [isTagged, huri]
    rw [List.filter_append, List.filter_append, List.filter_cons_of_neg (by simp [htag])]
    exact forall₂_alike_refl _
  | @inside before after inner e _ ih =>
    have halike : x.Alike e { e with children := inner } := .intro rfl (fun _ => rfl) ih
    rw [List.filter_append, List.filter_append]
    refine List.rel_append (forall₂_alike_refl _) ?_
    -- A new content leaves the name of an element as it is.
    have htag : x.isTagged tag { e with children := inner } = x.isTagged tag e := rfl
    rw [List.filter_cons, List.filter_cons, htag]
    split
    · exact .cons halike (forall₂_alike_refl _)
    · exact forall₂_alike_refl _
  | symm _ ih => exact .flip ((ih tag).imp fun _ _ => Alike.symm)
  | trans _ _ ih ih' =>
    have htrans : ∀ a b c, x.Alike a b → x.Alike b c → x.Alike a c := fun _ _ _ => Alike.trans
    exact forall₂_trans htrans (ih tag) (ih' tag)

/-- An element is alike to what it becomes when its content is rearranged. -/
theorem Rearranged.alike {e : Element} {inner : List Element} (h : Rearranged x e.children inner) :
    x.Alike e { e with children := inner } :=
  .intro rfl (fun _ => rfl) h.forall₂_alike

/-! ## Readings -/

/-- A reading that is the same for elements that are alike. -/
def Respects {α : Type} (x : Lookup) (read : Element → α) : Prop :=
  ∀ ⦃a b : Element⦄, x.Alike a b → read a = read b

section Readings

variable {α β : Type} {read : Element → α} {found found' : Option Element} {es fs : List Element}

/-- What is made of a reading is a reading of the same kind. -/
theorem Respects.comp (hread : x.Respects read) (g : α → β) : x.Respects fun e => g (read e) :=
  fun _ _ h => congrArg g (hread h)

theorem Respects.map_eq (hread : x.Respects read) (h : Option.Rel x.Alike found found') :
    found.map read = found'.map read := by
  cases h with
  | none => rfl
  | some hab => exact congrArg some (hread hab)

/-- A reading of an element that may be missing, with a default in its place. -/
theorem Respects.elim_eq (hread : x.Respects read) (h : Option.Rel x.Alike found found')
    (default : α) : found.elim default read = found'.elim default read := by
  cases h with
  | none => rfl
  | some hab => exact hread hab

theorem Respects.bind_eq {read : Element → Option β} (hread : x.Respects read)
    (h : Option.Rel x.Alike found found') : found.bind read = found'.bind read := by
  cases h with
  | none => rfl
  | some hab => exact hread hab

/-- A reading of each element of a list. -/
theorem Respects.mapAll_eq (hread : x.Respects read) (h : List.Forall₂ x.Alike es fs) :
    es.map read = fs.map read := by
  induction h with
  | nil => rfl
  | cons hab _ ih => rw [List.map_cons, List.map_cons, hread hab, ih]

/-- A reading of each element of a list that has one. -/
theorem Respects.filterMap_eq {read : Element → Option β} (hread : x.Respects read)
    (h : List.Forall₂ x.Alike es fs) : es.filterMap read = fs.filterMap read := by
  have := congrArg (List.filterMap id) (hread.mapAll_eq h)
  rwa [List.filterMap_map, List.filterMap_map] at this

theorem respects_elementText : x.Respects Element.text :=
  fun _ _ => Alike.text_eq

/-- The text of a child is the same for alike elements, be the child there or not. -/
theorem Alike.text (h : x.Alike a b) (tag : String) : x.text a tag = x.text b tag :=
  respects_elementText.elim_eq (h.child? tag) ""

/-- So is the text at the end of a path. -/
theorem Alike.pathText (h : x.Alike a b) (tags : List String) :
    x.pathText a tags = x.pathText b tags :=
  respects_elementText.elim_eq (h.path? tags) ""

theorem respects_text (tag : String) : x.Respects (x.text · tag) :=
  fun _ _ h => h.text tag

end Readings

end Lookup

end MifirReport.Xml
