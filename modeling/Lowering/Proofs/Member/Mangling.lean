import Mathlib.Data.List.Chain
import Lowering.Member.Mangling

/-!
# Reading mangled names back

A mangled name lists the name of a method and its erased parameter types with two
underscores before each type. Underscores also stand for the dots and, with more
characters, for the brackets of a type. Nothing is escaped, so a mangled name can
be read back only where the names it is made of leave the underscores to it.

That is the case if the types are named by plain words between dots and the name
of the method has no two underscores side by side. Then the first two underscores
end the first part (`eq_of_append_eq`), a type is read from its spelling
(`readName_mangleChars`), and two methods with dispatch slots have the same mangled
name exactly if they are the same overload (`mangledName_eq_iff`).
-/

namespace Lowering

/-! ## Parts between separators -/

/-- No two underscores stand side by side. -/
def Unbroken (text : List Char) : Prop :=
  text.IsChain fun x y => x = '_' → y ≠ '_'

instance : DecidablePred Unbroken := fun text =>
  inferInstanceAs (Decidable (text.IsChain fun x y => x = '_' → y ≠ '_'))

/-- What may follow a part of a mangled name: nothing, or a separator and a part
that does not start with an underscore. -/
def Separated (rest : List Char) : Prop :=
  rest = [] ∨ ∃ c further, rest = '_' :: '_' :: c :: further ∧ c ≠ '_'

/-- An unbroken part does not reach into the separator after a shorter one. -/
theorem eq_nil_of_reaching {part more rest : List Char} (hunbroken : Unbroken (part ++ more))
    (hseparated : Separated rest) (hseparated' : Separated (more ++ rest)) : more = [] := by
  rcases hseparated' with hnothing | ⟨c, further, hstarts, hother⟩
  · exact (List.append_eq_nil_iff.mp hnothing).1
  · -- The part reaches over nothing, over one underscore or over both.
    rcases more with _ | ⟨x, _ | ⟨y, longer⟩⟩
    · rfl
    · -- What follows the separator would start with the other underscore.
      obtain ⟨-, hstarts⟩ := List.cons.inj hstarts
      rcases hseparated with rfl | ⟨c', further', rfl, -⟩
      · simp at hstarts
      · obtain ⟨-, hstarts⟩ := List.cons.inj hstarts
        exact absurd (List.cons.inj hstarts).1.symm hother
    · obtain ⟨hfirst, hstarts⟩ := List.cons.inj hstarts
      obtain ⟨hsecond, -⟩ := List.cons.inj hstarts
      -- Both underscores of the separator would be in the part, side by side.
      have hapart := (List.isChain_append_cons_cons.mp hunbroken).2.1
      exact absurd hsecond (hapart hfirst)

/-- A text has at most one reading as an unbroken part and what may follow it. -/
theorem eq_of_append_eq {part part' rest rest' : List Char} (hunbroken : Unbroken part)
    (hunbroken' : Unbroken part') (hseparated : Separated rest) (hseparated' : Separated rest')
    (hsame : part ++ rest = part' ++ rest') : part = part' ∧ rest = rest' := by
  -- Of two readings of one text, one part is the other with something more at its end.
  rcases List.append_eq_append_iff.mp hsame with ⟨more, rfl, rfl⟩ | ⟨more, rfl, rfl⟩
  · obtain rfl := eq_nil_of_reaching hunbroken' hseparated' hseparated
    simp
  · obtain rfl := eq_nil_of_reaching hunbroken hseparated hseparated'
    simp

/-- A part that may follow a separator and have an underscore added at its end. -/
structure Segment (text : List Char) : Prop where
  nonempty : text ≠ []
  unbroken : Unbroken text
  starts : ∀ c ∈ text.head?, c ≠ '_'
  ends : ∀ c ∈ text.getLast?, c ≠ '_'

/-- A text without underscores is a segment, unless it is empty. -/
theorem Segment.of_not_mem {text : List Char} (hnonempty : text ≠ []) (hnone : '_' ∉ text) :
    Segment text where
  nonempty := hnonempty
  unbroken := by
    apply List.Pairwise.isChain
    apply List.pairwise_of_forall_mem_list
    intro x _ y hmem _
    exact ne_of_mem_of_not_mem hmem hnone
  starts := fun _ hmem => ne_of_mem_of_not_mem (List.mem_of_mem_head? hmem) hnone
  ends := fun _ hmem => ne_of_mem_of_not_mem (List.mem_of_mem_getLast? hmem) hnone

/-- One underscore joins two segments to one. -/
theorem Segment.join {first second : List Char} (hs : Segment first) (hs' : Segment second) :
    Segment (first ++ '_' :: second) where
  nonempty := by simp
  unbroken := by
    -- The underscore in the middle has others on neither side.
    refine hs.unbroken.append (hs'.unbroken.cons fun y hmem _ => hs'.starts y hmem) ?_
    intro x hmem _ _ hunderscore
    exact absurd hunderscore (hs.ends x hmem)
  starts := by
    rw [List.head?_append_of_ne_nil _ hs.nonempty]
    exact hs.starts
  ends := by
    rw [List.getLast?_append_of_ne_nil _ (List.cons_ne_nil _ _),
      List.getLast?_cons_of_ne_nil hs'.nonempty]
    exact hs'.ends

/-- A segment after two underscores is what may follow a part: it begins with something else than a
third one. -/
theorem Segment.separated {text : List Char} (hs : Segment text) (rest : List Char) :
    Separated ('_' :: '_' :: (text ++ rest)) := by
  obtain ⟨c, further, rfl⟩ := List.exists_cons_of_ne_nil hs.nonempty
  exact .inr ⟨c, further ++ rest, rfl, hs.starts c rfl⟩

/-! ## Names of types -/

/-- The characters that have a meaning of their own in the name of a type, erased
or mangled. -/
def nameMarks : List Char := ['_', '$', '.', '[', ']']

/-- A word is not empty and has none of the marks. -/
def PlainWord (word : List Char) : Prop :=
  word ≠ [] ∧ ∀ c ∈ word, c ∉ nameMarks

instance : DecidablePred PlainWord := fun word =>
  @instDecidableAnd _ _ inferInstance (List.decidableBAll (· ∉ nameMarks) word)

/-- A name is made of plain words with dots between them. -/
def Qualified (name : String) : Prop :=
  ∀ word ∈ name.toList.splitOn '.', PlainWord word

instance : DecidablePred Qualified := fun name =>
  inferInstanceAs (Decidable (∀ word ∈ name.toList.splitOn '.', PlainWord word))

/-- Reads a mangled type back to the erased name. -/
def readName : List Char → List Char
  | '_' :: '$' :: 'a' :: 'r' :: 'r' :: 'a' :: 'y' :: rest => '[' :: ']' :: readName rest
  | '_' :: rest => '.' :: readName rest
  | c :: rest => c :: readName rest
  | [] => []

/-- Spelled names do not begin with a dollar sign, so that the spelling of a dot is never followed
by one. -/
theorem mangleChars_ne_dollar {name : List Char} (hplain : '$' ∉ name) (rest : List Char) :
    mangleChars name ≠ '$' :: rest := by
  fun_cases mangleChars name with
  | case1 => simp
  | case2 => simp
  | case3 c further =>
    intro hsame
    obtain ⟨rfl, -⟩ := List.cons.inj hsame
    simp at hplain
  | case4 => simp

/-- A name without underscores and dollar signs can be read from its spelling. Both conditions are
needed: an underscore would be read as a dot, and `_$array` as brackets. -/
theorem readName_mangleChars {name : List Char} (hunderscore : '_' ∉ name) (hdollar : '$' ∉ name) :
    readName (mangleChars name) = name := by
  fun_induction mangleChars name with
  | case1 rest ih =>
    simp only [List.mem_cons, not_or] at hunderscore hdollar
    simp [readName, ih hunderscore.2.2 hdollar.2.2]
  | case2 rest ih =>
    simp only [List.mem_cons, not_or] at hunderscore hdollar
    rw [readName, ih hunderscore.2 hdollar.2]
    -- The underscore of a dot is never read as one of brackets.
    intro further hsame
    exact mangleChars_ne_dollar hdollar.2 _ hsame
  -- Any other character is spelled as itself and read as itself, for it is no underscore.
  | case3 c rest _ _ ih =>
    simp only [List.mem_cons, not_or] at hunderscore hdollar
    rw [readName, ih hunderscore.2 hdollar.2]
    · intro _ hsame
      exact absurd hsame.symm hunderscore.1
    · intro hsame
      exact absurd hsame.symm hunderscore.1
  | case4 => rfl

theorem mangleChars_append {word : List Char} (hplain : ∀ c ∈ word, c ∉ nameMarks)
    (rest : List Char) : mangleChars (word ++ rest) = word ++ mangleChars rest := by
  induction word with
  | nil => rfl
  | cons c word ih =>
    obtain ⟨hfirst, hfurther⟩ := List.forall_mem_cons.mp hplain
    simp only [nameMarks, List.mem_cons, not_or] at hfirst
    rw [List.cons_append, mangleChars, ih hfurther, List.cons_append]
    -- Neither a bracket nor a dot, so the character falls to the last case.
    · intro _ hbracket
      exact absurd hbracket hfirst.2.2.2.1
    · exact hfirst.2.2.1

/-- Brackets at the end of a name are spelled on their own, whatever the name ends with. -/
theorem mangleChars_brackets (name : List Char) :
    mangleChars (name ++ ['[', ']']) = mangleChars name ++ '_' :: "$array".toList := by
  fun_induction mangleChars name with
  | case1 rest ih =>
    rw [List.cons_append, List.cons_append, mangleChars, ih, List.append_assoc]
  | case2 rest ih =>
    rw [List.cons_append, mangleChars, ih, List.cons_append]
  | case3 c rest hunpaired hdotless ih =>
    rw [List.cons_append, mangleChars, ih, List.cons_append]
    · -- Brackets that are added do not pair with a character before them.
      intro further hbracket hclosing
      cases rest with
      | nil => simp at hclosing
      | cons next rest =>
        obtain ⟨rfl, -⟩ := List.cons.inj hclosing
        exact hunpaired rest hbracket rfl
    · exact hdotless
  | case4 => rfl

/-- Words with dots between them are spelled as one segment. The dots become single underscores, so
that there are never two. -/
theorem segment_of_words {words : List (List Char)} (hsome : words ≠ [])
    (hplain : ∀ word ∈ words, PlainWord word) :
    Segment (mangleChars (['.'].intercalate words)) := by
  induction words with
  | nil => exact absurd rfl hsome
  | cons word words ih =>
    obtain ⟨⟨hnonempty, hunmarked⟩, hfurther⟩ := List.forall_mem_cons.mp hplain
    have hfirst : Segment word :=
      .of_not_mem hnonempty fun hmem => hunmarked _ hmem (by decide)
    cases words with
    | nil =>
      have hwhole := mangleChars_append hunmarked []
      rw [List.append_nil, mangleChars, List.append_nil] at hwhole
      rw [List.intercalate_singleton, hwhole]
      exact hfirst
    -- The dot after the first word is spelled by the underscore that joins the two segments.
    | cons next words =>
      rw [List.intercalate_cons_cons, List.append_assoc, mangleChars_append hunmarked]
      exact hfirst.join (ih (List.cons_ne_nil _ _) hfurther)

theorem Qualified.segment {name : String} (hq : Qualified name) :
    Segment (mangleChars name.toList) := by
  have hwhole := segment_of_words (List.splitOn_ne_nil _ _) hq
  rwa [List.intercalate_splitOn] at hwhole

theorem mem_words {words : List (List Char)} {c : Char} (hmem : c ∈ ['.'].intercalate words) :
    c = '.' ∨ ∃ word ∈ words, c ∈ word := by
  induction words with
  | nil => simp at hmem
  | cons word words ih =>
    cases words with
    | nil =>
      rw [List.intercalate_singleton] at hmem
      exact .inr ⟨word, List.mem_cons_self, hmem⟩
    | cons next words =>
      rw [List.intercalate_cons_cons, List.append_assoc, List.mem_append] at hmem
      rcases hmem with hthis | hfurther
      · exact .inr ⟨word, List.mem_cons_self, hthis⟩
      -- After the first word come the dot and the other words.
      · rcases List.mem_cons.mp hfurther with hdot | hlater
        · exact .inl hdot
        · rcases ih hlater with hdot | ⟨other, hamong, hthis⟩
          · exact .inl hdot
          · exact .inr ⟨other, List.mem_cons_of_mem _ hamong, hthis⟩

/-- The only mark in a qualified name is the dot. -/
theorem Qualified.not_mem {name : String} (hq : Qualified name) {c : Char} (hmark : c ∈ nameMarks)
    (hother : c ≠ '.') : c ∉ name.toList := by
  have hwhole : ['.'].intercalate (name.toList.splitOn '.') = name.toList :=
    List.intercalate_splitOn '.'
  rw [← hwhole]
  intro hmem
  rcases mem_words hmem with hdot | ⟨word, hamong, hthis⟩
  · exact hother hdot
  · exact (hq word hamong).2 c hthis hmark

namespace Ty

/-- The name that is left of a type when its arguments and array dimensions are
dropped and variables are replaced by their bounds. -/
def baseName : Ty → String
  | .prim p => p.name
  | .ref name _ _ _ => name
  | .array component _ => component.baseName
  | .typeVar _ _ bound _ => bound.baseName
  | .nullType => Known.objectName

/-- The spelling of a type is a segment, so that it can be told from what stands before and after
it. -/
theorem segment_mangledErasure {t : Ty} (hq : Qualified t.baseName) :
    Segment t.mangledErasure.toList := by
  rw [mangledErasure, String.toList_ofList]
  fun_induction baseName t with
  | case1 p => exact hq.segment
  | case2 name => exact hq.segment
  | case3 component _ ih =>
    -- Brackets are spelled by one more segment.
    have hsuffix : Segment "$array".toList := .of_not_mem (by decide) (by decide)
    have hbrackets := mangleChars_brackets component.erasedName.toList
    rw [erasedName, String.toList_append, show "[]".toList = ['[', ']'] from rfl, hbrackets]
    exact (ih hq).join hsuffix
  | case4 _ _ bound _ ih => exact ih hq
  | case5 => exact hq.segment

theorem not_mem_erasedName {t : Ty} (hq : Qualified t.baseName) {c : Char}
    (hmark : c ∈ ['_', '$']) : c ∉ t.erasedName.toList := by
  have hnamed : ∀ {name}, Qualified name → c ∉ name.toList := by
    intro name hqualified
    simp only [List.mem_cons, List.not_mem_nil, or_false] at hmark
    rcases hmark with rfl | rfl
    · exact hqualified.not_mem (by decide) (by decide)
    · exact hqualified.not_mem (by decide) (by decide)
  fun_induction baseName t with
  | case1 p => exact hnamed hq
  | case2 name => exact hnamed hq
  -- Brackets are added, which are other marks.
  | case3 component _ ih =>
    rw [erasedName, String.toList_append, List.mem_append, not_or]
    refine ⟨ih hq, ?_⟩
    simp only [List.mem_cons, List.not_mem_nil, or_false] at hmark
    rcases hmark with rfl | rfl <;> decide
  | case4 _ _ bound _ ih => exact ih hq
  | case5 => exact hnamed hq

/-- Types with plain names have one spelling only if they have one erased name. -/
theorem erasedName_of_mangledErasure {t t' : Ty} (hq : Qualified t.baseName)
    (hq' : Qualified t'.baseName) (hsame : t.mangledErasure = t'.mangledErasure) :
    t.erasedName = t'.erasedName := by
  -- Each of the two erased names is read from the one spelling.
  have hread : ∀ {t : Ty}, Qualified t.baseName →
      readName t.mangledErasure.toList = t.erasedName.toList := by
    intro t hq
    rw [mangledErasure, String.toList_ofList]
    exact readName_mangleChars (not_mem_erasedName hq (by decide))
      (not_mem_erasedName hq (by decide))
  rw [← String.toList_inj, ← hread hq, ← hread hq', hsame]

end Ty

/-! ## Methods -/

namespace MethodRef

theorem toList_mangledParameters (parameters : List Ty) :
    (mangledParameters parameters).toList =
      parameters.flatMap fun t => '_' :: '_' :: t.mangledErasure.toList := by
  rw [mangledParameters, String.toList_join, List.flatMap_map]
  apply List.flatMap_congr
  intro t _
  exact String.toList_append

theorem separated_mangledParameters {parameters : List Ty}
    (hqualified : ∀ t ∈ parameters, Qualified t.baseName) :
    Separated (mangledParameters parameters).toList := by
  rw [toList_mangledParameters]
  cases parameters with
  -- Without parameters nothing follows the name.
  | nil => exact .inl rfl
  | cons t further =>
    exact (Ty.segment_mangledErasure (hqualified t List.mem_cons_self)).separated _

/-- Parameter types with plain names are read back in their order. -/
theorem erasedNames_of_mangledParameters {parameters parameters' : List Ty}
    (hqualified : ∀ t ∈ parameters, Qualified t.baseName)
    (hqualified' : ∀ t ∈ parameters', Qualified t.baseName)
    (hsame : (mangledParameters parameters).toList = (mangledParameters parameters').toList) :
    parameters.map Ty.erasedName = parameters'.map Ty.erasedName := by
  induction parameters generalizing parameters' with
  | nil =>
    cases parameters' with
    | nil => rfl
    | cons t' further' => simp [toList_mangledParameters] at hsame
  | cons t further ih =>
    cases parameters' with
    | nil => simp [toList_mangledParameters] at hsame
    | cons t' further' =>
      obtain ⟨hq, hqualified⟩ := List.forall_mem_cons.mp hqualified
      obtain ⟨hq', hqualified'⟩ := List.forall_mem_cons.mp hqualified'
      simp only [toList_mangledParameters, List.flatMap_cons, List.cons_append, List.cons.injEq,
        true_and] at hsame
      simp only [← toList_mangledParameters] at hsame
      -- Past the first separator the texts start with the first types.
      obtain ⟨hfirst, hrest⟩ := eq_of_append_eq (Ty.segment_mangledErasure hq).unbroken
        (Ty.segment_mangledErasure hq').unbroken (separated_mangledParameters hqualified)
        (separated_mangledParameters hqualified') hsame
      rw [List.map_cons, List.map_cons, ih hqualified hqualified' hrest,
        Ty.erasedName_of_mangledErasure hq hq' (String.toList_inj.mp hfirst)]

/-- Which of the methods of a class a method is: its name and the erased parameter
types of its declaration. -/
def overload (m : MethodRef) : String × List String :=
  (m.name, m.declaration.parameters.map Ty.erasedName)

/-- The method and the types of its declaration are named so that underscores in
its mangled name can be told apart. -/
structure PlainlyNamed (m : MethodRef) : Prop where
  unbroken : Unbroken m.name.toList
  qualified : ∀ t ∈ m.declaration.parameters, Qualified t.baseName

theorem mangledName_of_polymorphic {m : MethodRef} (hpolymorphic : m.isPolymorphic = true) :
    m.mangledName = "m_" ++ m.name ++ mangledParameters m.declaration.parameters := by
  simp only [isPolymorphic, Bool.and_eq_true, Bool.not_eq_true'] at hpolymorphic
  -- A method that is dispatched is no constructor and not private, so its owner is not spelled.
  obtain ⟨⟨-, hmethod⟩, hshared⟩ := hpolymorphic
  simp [mangledName, mangledHead, mangledOwner, hmethod, hshared]

/-- The spelling of parameters depends on their erased names alone. -/
theorem mangledParameters_congr {parameters parameters' : List Ty}
    (h : parameters.map Ty.erasedName = parameters'.map Ty.erasedName) :
    mangledParameters parameters = mangledParameters parameters' := by
  -- The types are used by way of their erased names only.
  have hspelled : ∀ parameters : List Ty, mangledParameters parameters =
      String.join ((parameters.map Ty.erasedName).map fun name =>
        "__" ++ .ofList (mangleChars name.toList)) := by
    intro parameters
    rw [List.map_map]
    rfl
  rw [hspelled, h, ← hspelled]

/-- The mangled name of a dispatched method depends on its overload alone. -/
theorem mangledName_of_overload {m m' : MethodRef} (hpolymorphic : m.isPolymorphic = true)
    (hpolymorphic' : m'.isPolymorphic = true) (hsame : m.overload = m'.overload) :
    m.mangledName = m'.mangledName := by
  obtain ⟨hname, herased⟩ := Prod.mk.inj hsame
  rw [mangledName_of_polymorphic hpolymorphic, mangledName_of_polymorphic hpolymorphic', hname,
    mangledParameters_congr herased]

/-- Dispatched methods with plain names have the same mangled name exactly if they
are the same overload. -/
theorem mangledName_eq_iff {m m' : MethodRef} (hpolymorphic : m.isPolymorphic = true)
    (hpolymorphic' : m'.isPolymorphic = true) (hplain : m.PlainlyNamed)
    (hplain' : m'.PlainlyNamed) :
    m.mangledName = m'.mangledName ↔ m.overload = m'.overload := by
  refine ⟨fun hsame => ?_, mangledName_of_overload hpolymorphic hpolymorphic'⟩
  rw [mangledName_of_polymorphic hpolymorphic, mangledName_of_polymorphic hpolymorphic',
    ← String.toList_inj] at hsame
  -- Past the common head the texts start with the names.
  simp only [String.toList_append, List.append_assoc, List.append_cancel_left_eq] at hsame
  obtain ⟨hname, hparameters⟩ := eq_of_append_eq hplain.unbroken hplain'.unbroken
    (separated_mangledParameters hplain.qualified) (separated_mangledParameters hplain'.qualified)
    hsame
  exact Prod.ext (String.toList_inj.mp hname)
    (erasedNames_of_mangledParameters hplain.qualified hplain'.qualified hparameters)

/-- The method for the class object has no parameters and a name without underscores. -/
theorem plainlyNamed_classObject (enclosing : ClassRef) : (classObject enclosing).PlainlyNamed where
  unbroken := by
    show Unbroken Known.classObjectMethod.toList
    decide
  qualified := fun _ hmem => absurd hmem (List.not_mem_nil)

end MethodRef

end Lowering
