import MifirReport.Proofs.Xml.Escaping
import MifirReport.Proofs.Xml.Syntax
import MifirReport.Xml.Scope

/-!
# Tags read back

The content of a legal tag is read as the name and the attributes that were written, whatever the
blanks and the quotes (`ofContent_chars`, `scanned_scan`). If the attributes write given ones, with
the declaration of a namespace anywhere among them (`WritesAttributes`), reading gives these ones
back (`readAttributes_of_writes`) and the scope is extended by the declaration alone
(`declare_of_writes`).
-/

namespace MifirReport.Xml

/-! ## Names and attributes -/

theorem head?_body {t : TagText} (h : t.Legal) : ∀ c ∈ t.body.head?, isSpace c = true := by
  intro c hc
  cases hattributes : t.attributes with
  | nil =>
    rw [TagText.body, hattributes, List.flatMap_nil, List.nil_append] at hc
    exact h.gap c (List.mem_of_mem_head? hc)
  | cons a attributes =>
    have ha : a.Legal := h.attributes a (by simp [hattributes])
    obtain ⟨d, before, hbefore⟩ := List.exists_cons_of_ne_nil ha.apart
    simp only [TagText.body, hattributes, List.flatMap_cons, AttributeText.chars, hbefore,
      List.cons_append, List.head?_cons, Option.mem_some_iff] at hc
    exact ha.before c (by simp [hbefore, hc])

/-- The content of a tag is cut after its name. -/
theorem ofContent_chars {t : TagText} (h : t.Legal) : Tag.ofContent t.chars = ⟨t.name, t.body⟩ := by
  have hname : ∀ c ∈ t.name, (!isSpace c) = true := by
    intro c hc
    rw [h.name.isSpace hc]
    rfl
  have hbody : ∀ c ∈ t.body.head?, (!isSpace c) = false := by
    intro c hc
    rw [head?_body h c hc]
    rfl
  rw [Tag.ofContent, TagText.chars, takeWhile_word hname _ hbody, dropWhile_word hname _ hbody]

/-- Attributes come out of a scan as they were written, at some positions. -/
inductive Scanned : List AttributeText → List (Except AttributeError Attribute) → Prop
  | nil : Scanned [] []
  | cons {a : AttributeText} {as : List AttributeText}
      {items : List (Except AttributeError Attribute)} (position : Nat) :
      Scanned as items → Scanned (a :: as) (.ok ⟨a.key, position, .ok a.raw⟩ :: items)

theorem readValue_quoted {a : AttributeText} (h : a.Legal) (position : Nat) (rest : List Char) :
    ∃ after, Attribute.readValue position (a.right ++ a.quoted ++ rest) =
      .ok (a.raw, after, rest) := by
  have hopen : (a.right ++ a.quoted ++ rest).dropWhile isSpace =
      a.quote :: (a.raw ++ a.quote :: rest) := by
    have hquote : isSpace a.quote = false := by rcases h.quote with hq | hq <;> rw [hq] <;> rfl
    have := dropWhile_word h.right (a.quote :: (a.raw ++ a.quote :: rest))
      (by rintro _ ⟨⟩; exact hquote)
    simpa [AttributeText.quoted] using this
  have hraw := decide_ne_of_not_mem h.raw
  have hclose : ∀ c ∈ (a.quote :: rest).head?, decide (c ≠ a.quote) = false := by
    rintro _ ⟨⟩
    simp
  have hsplit : Attribute.splitQuoted? a.quote (a.raw ++ a.quote :: rest) = some (a.raw, rest) := by
    rw [Attribute.splitQuoted?, dropWhile_word hraw _ hclose, takeWhile_word hraw _ hclose]
  rw [Attribute.readValue, hopen]
  dsimp only
  rw [if_pos h.quote, hsplit]
  exact ⟨_, rfl⟩

theorem scan_of_isSpace {gap : List Char} (h : ∀ c ∈ gap, isSpace c = true) (position : Nat) :
    Attribute.scan position gap = [] := by
  have hall := dropWhile_all h
  rw [Attribute.scan]
  split
  · rfl
  · rename_i c tail hrest
    rw [hall] at hrest
    cases hrest

/-- An attribute with a value is read, and the scan goes on after it. -/
theorem scan_cons {position : Nat} {cs tail text value rest : List Char} {c : Char}
    (hkey : cs.dropWhile isSpace = c :: tail)
    (hequals : (tail.dropWhile Attribute.isKeyChar).dropWhile isSpace = '=' :: text)
    (hvalue : ∀ position, ∃ after, Attribute.readValue position text = .ok (value, after, rest)) :
    ∃ start after, Attribute.scan position cs =
      .ok ⟨c :: tail.takeWhile Attribute.isKeyChar, start, .ok value⟩ ::
        Attribute.scan after rest := by
  rw [Attribute.scan]
  split
  · rename_i hnone
    rw [hkey] at hnone
    cases hnone
  · rename_i c' tail' hkey'
    rw [hkey] at hkey'
    cases hkey'
    dsimp only
    split
    · rename_i text' hequals'
      rw [hequals] at hequals'
      cases hequals'
      split
      · rename_i cause herror
        obtain ⟨after, hok⟩ := hvalue _
        rw [hok] at herror
        cases herror
      · rename_i value' after rest' hok
        obtain ⟨after', hok'⟩ := hvalue _
        rw [hok'] at hok
        cases hok
        exact ⟨_, _, rfl⟩
    · rename_i hother
      exact absurd hequals (hother text)

theorem scan_attribute {a : AttributeText} (h : a.Legal) (hname : IsTagName a.key) (position : Nat)
    (rest : List Char) :
    ∃ start after, Attribute.scan position (a.chars ++ rest) =
      .ok ⟨a.key, start, .ok a.raw⟩ :: Attribute.scan after rest := by
  obtain ⟨c, key, hkey⟩ := List.exists_cons_of_ne_nil hname.1
  have hc : isSpace c = false := hname.isSpace (by simp [hkey])
  have hword : ∀ d ∈ key, Attribute.isKeyChar d = true := by
    intro d hd
    have hd : d ∈ a.key := by simp [hkey, hd]
    simp [Attribute.isKeyChar, hname.isSpace hd, hname.ne hd '=' (by decide)]
  have hfirst : (a.chars ++ rest).dropWhile isSpace =
      c :: (key ++ (a.left ++ '=' :: (a.right ++ a.quoted ++ rest))) := by
    have := dropWhile_word h.before (c :: (key ++ (a.left ++ '=' :: (a.right ++ a.quoted ++ rest))))
      (by rintro _ ⟨⟩; exact hc)
    simpa [AttributeText.chars, hkey] using this
  have hstop : ∀ d ∈ (a.left ++ '=' :: (a.right ++ a.quoted ++ rest)).head?,
      Attribute.isKeyChar d = false := by
    intro d hd
    cases hleft : a.left with
    | nil =>
      rw [hleft] at hd
      cases hd
      rfl
    | cons e left =>
      rw [hleft] at hd
      obtain rfl : e = d := Option.some.inj hd
      have he : isSpace e = true := h.left e (by simp [hleft])
      simp [Attribute.isKeyChar, he]
  have hequals : ((key ++ (a.left ++ '=' :: (a.right ++ a.quoted ++ rest))).dropWhile
      Attribute.isKeyChar).dropWhile isSpace = '=' :: (a.right ++ a.quoted ++ rest) := by
    rw [dropWhile_word hword _ hstop, dropWhile_word h.left _ (by rintro _ ⟨⟩; rfl)]
  obtain ⟨start, after, hscan⟩ := scan_cons hfirst hequals fun position =>
    readValue_quoted h position rest
  rw [takeWhile_word hword _ hstop, ← hkey] at hscan
  exact ⟨start, after, hscan⟩

/-- A scan of the body of a tag reads its attributes. -/
theorem scanned_scan {as : List AttributeText} {gap : List Char} (h : ∀ a ∈ as, a.Legal)
    (hkeys : ∀ a ∈ as, IsTagName a.key) (hgap : ∀ c ∈ gap, isSpace c = true) (position : Nat) :
    Scanned as (Attribute.scan position (as.flatMap AttributeText.chars ++ gap)) := by
  induction as generalizing position with
  | nil =>
    rw [List.flatMap_nil, List.nil_append, scan_of_isSpace hgap]
    exact .nil
  | cons a as ih =>
    rw [List.forall_mem_cons] at h hkeys
    obtain ⟨start, after, hscan⟩ :=
      scan_attribute h.1 hkeys.1 position (as.flatMap AttributeText.chars ++ gap)
    rw [List.flatMap_cons, List.append_assoc, hscan]
    exact .cons start (ih h.2 hkeys.2 after)

theorem read_of_scanned {as : List AttributeText} {items : List (Except AttributeError Attribute)}
    (h : Scanned as items) : Tag.pairs.read items = as.map fun a => (a.key, a.raw) := by
  induction h with
  | nil => rfl
  | cons position _ ih => rw [Tag.pairs.read, ih, List.map_cons]

/-! ## Attributes of an element -/

/-- Attributes are written in order, with the declaration of a namespace, if there is one, anywhere
among them. -/
inductive WritesAttributes : Option (List Char × List Char) → List (String × String) →
    List AttributeText → Prop
  | nil : WritesAttributes none [] []
  | declaration {attributes : List (String × String)} {as : List AttributeText}
      {a : AttributeText} : WritesAttributes none attributes as →
      WritesAttributes (some (a.key, a.raw)) attributes (a :: as)
  | entry {declared : Option (List Char × List Char)} {attributes : List (String × String)}
      {as : List AttributeText} {name value : String} {a : AttributeText} :
      a.key = name.toList → Reference.Escapes value.toList a.raw →
      WritesAttributes declared attributes as →
      WritesAttributes declared ((name, value) :: attributes) (a :: as)

/-- Attributes that can be written : their names are names without a colon, pairwise distinct and
none of them `xmlns`, and their values are free of the character zero. -/
structure LegalAttributes (attributes : List (String × String)) : Prop where
  names : ∀ entry ∈ attributes, isName entry.1.toList = true ∧ entry.1 ≠ "xmlns"
  distinct : (attributes.map Prod.fst).Nodup
  values : ∀ entry ∈ attributes, '\x00' ∉ entry.2.toList

theorem LegalAttributes.tail {entry : String × String} {attributes : List (String × String)}
    (h : LegalAttributes (entry :: attributes)) : LegalAttributes attributes where
  names other hother := h.names other (List.mem_cons_of_mem _ hother)
  distinct := by
    have := h.distinct
    rw [List.map_cons] at this
    exact this.of_cons
  values other hother := h.values other (List.mem_cons_of_mem _ hother)

theorem not_declares_of_isName {name : String} (h : isName name.toList = true)
    (hne : name ≠ "xmlns") : Tag.declares name.toList = false := by
  have hcolon : ':' ∉ name.toList := not_mem_of_isName h (by decide)
  have hword : (name.toList == "xmlns".toList) = false := by
    rw [beq_eq_false_iff_ne]
    exact fun e => hne (String.toList_inj.1 e)
  have hlabel : "xmlns:".toList.isPrefixOf name.toList = false := by
    rw [Bool.eq_false_iff]
    intro hmark
    exact hcolon ((List.isPrefixOf_iff_prefix.1 hmark).subset (by decide))
  rw [Tag.declares, hword, hlabel]
  rfl

theorem localPart_of_isName {name : String} (h : isName name.toList = true) :
    String.ofList (Name.localPart name.toList) = name := by
  have hcolon : ':' ∉ name.toList := not_mem_of_isName h (by decide)
  rw [Name.localPart, if_neg hcolon, String.ofList_toList]

theorem lookup_cons_of_ne {key key' : List Char} (h : key' ≠ key) (position : Nat)
    (seen : List (List Char × Nat)) :
    ((key, position) :: seen).lookup key' = seen.lookup key' := by
  have hother : (key' == key) = false := beq_eq_false_iff_ne.2 h
  rw [List.lookup_cons, hother]

theorem ne_of_declares {key key' : List Char} (h : Tag.declares key = true)
    (h' : Tag.declares key' = false) : key ≠ key' := by
  rintro rfl
  rw [h] at h'
  cases h'

/-- A declaration under a new key is passed over. -/
theorem readAttributes_declaration {key raw : List Char} {position : Nat}
    {seen : List (List Char × Nat)} (hnew : seen.lookup key = none)
    (hdeclares : Tag.declares key = true) (items : List (Except AttributeError Attribute)) :
    Tag.readAttributes seen (.ok ⟨key, position, .ok raw⟩ :: items) =
      Tag.readAttributes ((key, position) :: seen) items := by
  rw [Tag.readAttributes, hnew]
  dsimp only
  rw [if_pos hdeclares]

/-- Another attribute under a new key is read. -/
theorem readAttributes_entry {name value : String} {raw : List Char} {position : Nat}
    {seen : List (List Char × Nat)} {items : List (Except AttributeError Attribute)}
    {attributes : List (String × String)} (hnew : seen.lookup name.toList = none)
    (hname : isName name.toList = true) (hne : name ≠ "xmlns")
    (hraw : Reference.Escapes value.toList raw) (hnul : '\x00' ∉ value.toList)
    (hrest : Tag.readAttributes ((name.toList, position) :: seen) items = .ok attributes) :
    Tag.readAttributes seen (.ok ⟨name.toList, position, .ok raw⟩ :: items) =
      .ok ((name, value) :: attributes) := by
  have hdeclares := not_declares_of_isName hname hne
  rw [Tag.readAttributes, hnew]
  dsimp only
  rw [hdeclares, if_neg (by simp), Reference.expand_escapes hraw hnul]
  dsimp only
  rw [hrest, localPart_of_isName hname, String.ofList_toList]
  rfl

/-- Reading written attributes gives them back, as long as no key was there before. -/
theorem readAttributes_of_writes {declared : Option (List Char × List Char)}
    {attributes : List (String × String)} {as : List AttributeText}
    {items : List (Except AttributeError Attribute)} {seen : List (List Char × Nat)}
    (h : WritesAttributes declared attributes as) (hitems : Scanned as items)
    (hlegal : LegalAttributes attributes)
    (hdeclared : ∀ declaration ∈ declared, Tag.declares declaration.1 = true ∧
      seen.lookup declaration.1 = none)
    (hseen : ∀ entry ∈ attributes, seen.lookup entry.1.toList = none) :
    Tag.readAttributes seen items = .ok attributes := by
  induction h generalizing items seen with
  | nil =>
    cases hitems
    rfl
  | @declaration attributes as a _ ih =>
    cases hitems with
    | cons position hitems =>
      obtain ⟨hdeclares, hnew⟩ := hdeclared _ rfl
      rw [readAttributes_declaration hnew hdeclares]
      refine ih hitems hlegal (by simp) fun entry hentry => ?_
      obtain ⟨hname, hne⟩ := hlegal.names entry hentry
      have hapart := ne_of_declares hdeclares (not_declares_of_isName hname hne)
      rw [lookup_cons_of_ne hapart.symm]
      exact hseen entry hentry
  | @entry declared attributes as name value a hkey hraw _ ih =>
    cases hitems with
    | cons position hitems =>
      obtain ⟨hname, hne⟩ := hlegal.names (name, value) List.mem_cons_self
      rw [hkey]
      refine readAttributes_entry (hseen (name, value) List.mem_cons_self) hname hne hraw
        (hlegal.values (name, value) List.mem_cons_self) (ih hitems hlegal.tail ?_ ?_)
      · intro declaration hdeclaration
        obtain ⟨hdeclares, hfree⟩ := hdeclared declaration hdeclaration
        have hapart := ne_of_declares hdeclares (not_declares_of_isName hname hne)
        exact ⟨hdeclares, by rw [lookup_cons_of_ne hapart, hfree]⟩
      · intro entry hentry
        have hapart : entry.1.toList ≠ name.toList := by
          intro e
          have hdistinct := hlegal.distinct
          rw [List.map_cons, List.nodup_cons] at hdistinct
          exact hdistinct.1 (List.mem_map.2 ⟨entry, hentry, String.toList_inj.1 e⟩)
        rw [lookup_cons_of_ne hapart]
        exact hseen entry (List.mem_cons_of_mem _ hentry)

/-- Attributes other than the declaration leave the scope as it is. -/
theorem declareOne_of_isName {name : String} (h : isName name.toList = true) (hne : name ≠ "xmlns")
    (scope : Scope) (value : List Char) : scope.declareOne name.toList value = .ok scope := by
  have hcolon : ':' ∉ name.toList := not_mem_of_isName h (by decide)
  have hword : name.toList ≠ ['x', 'm', 'l', 'n', 's'] := fun e =>
    hne (String.toList_inj.1 e)
  rw [Scope.declareOne, if_neg hword]
  intro label hlabel
  rw [hlabel] at hcolon
  simp at hcolon

/-- The scope inside a tag has the declaration written in it, if there is one. -/
theorem declare_of_writes {declared : Option (List Char × List Char)}
    {attributes : List (String × String)} {as : List AttributeText} {scope scope' : Scope}
    (h : WritesAttributes declared attributes as) (hlegal : LegalAttributes attributes)
    (hnone : declared = none → scope' = scope)
    (hsome : ∀ declaration ∈ declared,
      scope.declareOne declaration.1 declaration.2 = .ok scope') :
    scope.declare (as.map fun a => (a.key, a.raw)) = .ok scope' := by
  induction h generalizing scope with
  | nil => rw [hnone rfl, List.map_nil, Scope.declare]
  | @declaration attributes as a _ ih =>
    rw [List.map_cons, Scope.declare, hsome _ rfl]
    exact ih hlegal (fun _ => rfl) (by simp)
  | @entry declared attributes as name value a hkey _ _ ih =>
    obtain ⟨hname, hne⟩ := hlegal.names (name, value) List.mem_cons_self
    rw [List.map_cons, Scope.declare, hkey, declareOne_of_isName hname hne]
    exact ih hlegal.tail hnone hsome

/-- The keys of written attributes are names, with the colon of a declaration at most. -/
theorem isTagName_of_writes {declared : Option (List Char × List Char)}
    {attributes : List (String × String)} {as : List AttributeText}
    (h : WritesAttributes declared attributes as) (hlegal : LegalAttributes attributes)
    (hdeclared : ∀ declaration ∈ declared, IsTagName declaration.1) :
    ∀ a ∈ as, IsTagName a.key := by
  induction h with
  | nil => simp
  | declaration _ ih =>
    rw [List.forall_mem_cons]
    exact ⟨hdeclared _ rfl, ih hlegal (by simp)⟩
  | @entry _ _ _ name value a hkey _ _ ih =>
    rw [List.forall_mem_cons, hkey]
    exact ⟨isTagName_of_isName (hlegal.names (name, value) List.mem_cons_self).1,
      ih hlegal.tail hdeclared⟩

end MifirReport.Xml
