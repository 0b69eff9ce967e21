import Lowering.Proofs.Member.Mangling

/-!
# What a mangled name says

Cut at its underscores, a mangled name is a list of words. An empty word begins a
parameter type, `$array` stands for a pair of brackets, and `$p` begins the type that a
private method belongs to; all other words come from the names that are spelled. Names
made of plain words, such as those of letters and digits, are never taken for one of the
three. `readSymbol` therefore gets back what a mangled name was built from
(`readSymbol_mangledName`), and methods that differ in any of it have different mangled
names (`mangledName_decodable`).
-/

namespace Lowering

/-! ## Lists between separators -/

section

variable {α : Type} [BEq α] [LawfulBEq α]

theorem splitOn_of_not_mem {x : α} {l : List α} (h : x ∉ l) : l.splitOn x = [l] := by
  apply List.splitOnP_eq_singleton
  intro y hy
  simpa using ne_of_mem_of_not_mem hy h

/-- The parts before and after a separator are cut each on its own. -/
theorem splitOn_append_cons (x : α) (l l' : List α) :
    (l ++ x :: l').splitOn x = l.splitOn x ++ l'.splitOn x :=
  List.splitOnP_append_cons l l' (by simp)

/-- Pieces that each have a separator before them. -/
theorem splitOn_flatMap_cons (x : α) (ls : List (List α)) (h : ∀ l ∈ ls, x ∉ l) :
    (ls.flatMap (x :: ·)).splitOn x = [] :: ls := by
  induction ls using List.reverseRecOn with
  | nil => rfl
  | append_singleton front l ih =>
    -- The last piece has no separator in it, so it is the last part.
    have hlast : x ∉ l := h l (by simp)
    have hfront := ih fun l' hl' => h l' (List.mem_append_left _ hl')
    simp [List.flatMap_append, splitOn_append_cons, hfront, splitOn_of_not_mem hlast]

end

/-! ## Words of types -/

/-- The word that stands for a pair of brackets. -/
def arrayWord : List Char := "$array".toList

/-- The word before the type that a private method belongs to. -/
def ownerWord : List Char := "$p".toList

/-- A dotted name keeps its words when its dots become underscores. -/
theorem splitOn_underscored {name : List Char} (h : '_' ∉ name) :
    (name.map fun c => if c = '.' then '_' else c).splitOn '_' = name.splitOn '.' := by
  induction name with
  | nil => rfl
  | cons c name ih =>
    simp only [List.mem_cons, not_or] at h
    have hname := ih h.2
    rw [List.map_cons, List.splitOn_cons_eq_if_modifyHead, List.splitOn_cons_eq_if_modifyHead,
      hname]
    -- A dot is a separator before and after, and nothing else is.
    by_cases hdot : c = '.'
    · simp [hdot]
    · simp [hdot, Ne.symm h.1]

/-- Without brackets a name is spelled character by character. -/
theorem mangleChars_eq_map {name : List Char} (h : '[' ∉ name) :
    mangleChars name = name.map fun c => if c = '.' then '_' else c := by
  fun_induction mangleChars name with
  | case1 rest => simp at h
  | case2 rest ih => simp [ih (List.not_mem_of_not_mem_cons h)]
  | case3 c rest _ hdot ih =>
    have hc : c ≠ '.' := fun heq => hdot heq
    simp [ih (List.not_mem_of_not_mem_cons h), hc]
  | case4 => rfl

/-- Cut at its underscores, the spelling of a qualified name has the words of the name. -/
theorem Qualified.splitOn_mangleChars {name : String} (hq : Qualified name) :
    (mangleChars name.toList).splitOn '_' = name.toList.splitOn '.' := by
  rw [mangleChars_eq_map (hq.not_mem (by decide) (by decide))]
  exact splitOn_underscored (hq.not_mem (by decide) (by decide))

theorem Qualified.splitOn_underscoreDots {name : String} (hq : Qualified name) :
    (underscoreDots name).toList.splitOn '_' = name.toList.splitOn '.' := by
  rw [underscoreDots, String.toList_ofList]
  exact splitOn_underscored (hq.not_mem (by decide) (by decide))

namespace Ty

/-- The words of a type as it stands in mangled names. -/
def words (t : Ty) : List (List Char) :=
  t.mangledErasure.toList.splitOn '_'

/-- Every word of a type comes from its name or stands for brackets. -/
theorem plainWord_or_of_mem_words {t : Ty} (hq : Qualified t.baseName) :
    ∀ word ∈ t.words, PlainWord word ∨ word = arrayWord := by
  rw [words, mangledErasure, String.toList_ofList]
  fun_induction baseName t with
  | case1 p =>
    rw [erasedName, hq.splitOn_mangleChars]
    exact fun word hword => .inl (hq word hword)
  | case2 name =>
    rw [erasedName, hq.splitOn_mangleChars]
    exact fun word hword => .inl (hq word hword)
  | case3 component _ ih =>
    -- One more pair of brackets is one more word at the end.
    have hbrackets := mangleChars_brackets component.erasedName.toList
    rw [erasedName, String.toList_append, show "[]".toList = ['[', ']'] from rfl, hbrackets,
      splitOn_append_cons]
    intro word hword
    rcases List.mem_append.mp hword with hinner | hlast
    · exact ih hq word hinner
    · exact .inr (List.mem_singleton.mp hlast)
  | case4 _ _ bound _ ih => exact ih hq
  | case5 =>
    rw [erasedName, hq.splitOn_mangleChars]
    exact fun word hword => .inl (hq word hword)

/-- No word of a type is empty, so that an empty word always begins a type. -/
theorem nil_not_mem_words {t : Ty} (hq : Qualified t.baseName) : [] ∉ t.words := by
  intro hmem
  rcases plainWord_or_of_mem_words hq [] hmem with hplain | harray
  · exact hplain.1 rfl
  · exact absurd harray (by decide)

/-- No word of a type is `$p`, since plain words have no dollar sign and `$array` is another
word. -/
theorem ownerWord_not_mem_words {t : Ty} (hq : Qualified t.baseName) : ownerWord ∉ t.words := by
  intro hmem
  rcases plainWord_or_of_mem_words hq ownerWord hmem with hplain | harray
  · exact hplain.2 '$' (by decide) (by decide)
  · exact absurd harray (by decide)

/-- The words of a type, put together again, are read as its erased name. -/
theorem readName_words {t : Ty} (hq : Qualified t.baseName) :
    String.ofList (readName (['_'].intercalate t.words)) = t.erasedName := by
  rw [words, List.intercalate_splitOn, mangledErasure, String.toList_ofList,
    readName_mangleChars (not_mem_erasedName hq (by decide)) (not_mem_erasedName hq (by decide)),
    String.ofList_toList]

end Ty

/-! ## Reading -/

/-- What a mangled name says about its method. -/
structure Symbol where
  /-- The name of a method; constructors have none. -/
  name : Option String
  /-- The erased parameter types of the declaration. -/
  parameters : List String
  /-- The type that a private method belongs to. -/
  owner : Option String
  deriving DecidableEq

/-- Reads the words that follow the name. -/
def readMembers (name : Option String) (words : List (List Char)) : Symbol :=
  let parts := words.splitOn ownerWord
  -- Before the first type there is nothing but its empty word.
  let types := ((parts.headD []).splitOn []).tail
  { name
    parameters := types.map fun type => .ofList (readName (['_'].intercalate type))
    owner := parts[1]?.map fun owner => .ofList (['.'].intercalate owner) }

/-- Reads a mangled name. -/
def readSymbol (text : String) : Symbol :=
  match text.toList.splitOn '_' with
  | ['m'] :: name :: words => readMembers (some (.ofList name)) words
  -- The only other head is that of constructors, which is one word.
  | words => readMembers none words.tail

namespace MethodRef

/-- What a mangled name is to say about the method. -/
def symbol (m : MethodRef) : Symbol where
  name := if m.isConstructor then none else some m.name
  parameters := m.declaration.parameters.map Ty.erasedName
  owner := if m.isPrivate then some m.enclosing.qualifiedName else none

/-- The names that are spelled in the method's mangled name are made of plain words: its
own, unless it is a constructor, those of the parameter types of its declaration, and that
of its enclosing type if it is private. -/
structure SpelledInWords (m : MethodRef) : Prop where
  name : m.isConstructor = false → PlainWord m.name.toList
  parameters : ∀ t ∈ m.declaration.parameters, Qualified t.baseName
  owner : m.isPrivate = true → Qualified m.enclosing.qualifiedName

/-! ### The words of a mangled name -/

/-- The words that list parameter types. -/
def parameterWords (parameters : List Ty) : List (List Char) :=
  (parameters.map Ty.words).flatMap ([] :: ·)

/-- The words that say which type a private method belongs to. -/
def ownerWords (m : MethodRef) : List (List Char) :=
  if m.isPrivate then ownerWord :: m.enclosing.qualifiedName.toList.splitOn '.' else []

theorem splitOn_append_mangledParameters (text : List Char) (parameters : List Ty) :
    (text ++ (mangledParameters parameters).toList).splitOn '_' =
      text.splitOn '_' ++ parameterWords parameters := by
  rw [toList_mangledParameters, parameterWords, List.flatMap_map]
  -- The text before grows by one type after the other.
  induction parameters generalizing text with
  | nil => simp
  | cons t parameters ih =>
    -- The first underscore ends the word before the type, the second an empty word.
    have hempty : ('_' :: t.mangledErasure.toList).splitOn '_' = [] :: t.words := by
      simpa [Ty.words] using splitOn_append_cons '_' [] t.mangledErasure.toList
    have hfirst : (text ++ '_' :: '_' :: t.mangledErasure.toList).splitOn '_' =
        text.splitOn '_' ++ [] :: t.words := by
      rw [splitOn_append_cons, hempty]
    rw [List.flatMap_cons, List.flatMap_cons, ← List.append_assoc, ih, hfirst, List.append_assoc]

theorem splitOn_append_mangledOwner {m : MethodRef} (h : m.SpelledInWords) (text : List Char) :
    (text ++ m.mangledOwner.toList).splitOn '_' = text.splitOn '_' ++ m.ownerWords := by
  rw [mangledOwner, ownerWords]
  by_cases hprivate : m.isPrivate = true
  · have howner := (h.owner hprivate).splitOn_underscoreDots
    -- The word itself has no underscore.
    have hword : ownerWord.splitOn '_' = [ownerWord] := splitOn_of_not_mem (by decide)
    rw [if_pos hprivate, if_pos hprivate, String.toList_append, ← howner]
    show (text ++ '_' :: (ownerWord ++ '_' :: (underscoreDots _).toList)).splitOn '_' = _
    rw [splitOn_append_cons, splitOn_append_cons, hword, List.singleton_append]
  · rw [if_neg hprivate, if_neg hprivate]
    simp

/-- The words of a mangled name: those of the head, of the parameters and of the owner. The three do
not run into each other, because each but the first begins with an underscore. -/
theorem splitOn_mangledName {m : MethodRef} (h : m.SpelledInWords) :
    m.mangledName.toList.splitOn '_' =
      m.mangledHead.toList.splitOn '_' ++
        (parameterWords m.declaration.parameters ++ m.ownerWords) := by
  rw [mangledName, String.toList_append, String.toList_append, splitOn_append_mangledOwner h,
    splitOn_append_mangledParameters, List.append_assoc]

/-! ### Reading the words back -/

theorem ownerWord_not_mem_parameterWords {m : MethodRef} (h : m.SpelledInWords) :
    ownerWord ∉ parameterWords m.declaration.parameters := by
  intro hmem
  obtain ⟨words, hwords, hword⟩ := List.mem_flatMap.mp hmem
  obtain ⟨t, ht, rfl⟩ := List.mem_map.mp hwords
  rcases List.mem_cons.mp hword with hnil | hin
  · exact absurd hnil (by decide)
  · exact Ty.ownerWord_not_mem_words (h.parameters t ht) hin

/-- The word `$p` separates the parameters from the owner. -/
theorem splitOn_ownerWord {m : MethodRef} (h : m.SpelledInWords) :
    (parameterWords m.declaration.parameters ++ m.ownerWords).splitOn ownerWord =
      parameterWords m.declaration.parameters ::
        if m.isPrivate then [m.enclosing.qualifiedName.toList.splitOn '.'] else [] := by
  have hparameters := splitOn_of_not_mem (ownerWord_not_mem_parameterWords h)
  rw [ownerWords]
  by_cases hprivate : m.isPrivate = true
  -- The name of the owner is made of plain words as well.
  · have howner : ownerWord ∉ m.enclosing.qualifiedName.toList.splitOn '.' := by
      intro hmem
      exact (h.owner hprivate ownerWord hmem).2 '$' (by decide) (by decide)
    rw [if_pos hprivate, if_pos hprivate, splitOn_append_cons, hparameters,
      splitOn_of_not_mem howner]
    rfl
  · rw [if_neg hprivate, if_neg hprivate, List.append_nil, hparameters]

/-- What follows the name is read as the parameter types and the owner that it was made from. -/
theorem readMembers_words {m : MethodRef} (h : m.SpelledInWords) (name : Option String) :
    readMembers name (parameterWords m.declaration.parameters ++ m.ownerWords) =
      { m.symbol with name } := by
  -- An empty word stands before each type and in none of them.
  have htypes : (parameterWords m.declaration.parameters).splitOn [] =
      [] :: m.declaration.parameters.map Ty.words := by
    apply splitOn_flatMap_cons
    intro words hwords
    obtain ⟨t, ht, rfl⟩ := List.mem_map.mp hwords
    exact Ty.nil_not_mem_words (h.parameters t ht)
  have hread : ∀ t ∈ m.declaration.parameters,
      String.ofList (readName (['_'].intercalate t.words)) = t.erasedName :=
    fun t ht => Ty.readName_words (h.parameters t ht)
  rw [readMembers, splitOn_ownerWord h]
  simp only [List.headD_cons, htypes, List.tail_cons, List.map_map, Function.comp_def, symbol,
    List.map_congr_left hread]
  by_cases hprivate : m.isPrivate = true
  · simp [hprivate, List.intercalate_splitOn]
  · simp [hprivate]

/-- Reading a mangled name gives back what it was built from. -/
theorem readSymbol_mangledName {m : MethodRef} (h : m.SpelledInWords) :
    readSymbol m.mangledName = m.symbol := by
  rw [readSymbol, splitOn_mangledName h, mangledHead]
  by_cases hconstructor : m.isConstructor = true
  · have hhead : "ctor".toList.splitOn '_' = ["ctor".toList] := by decide
    rw [if_pos hconstructor, hhead]
    refine (readMembers_words h none).trans ?_
    simp [symbol, hconstructor]
  · have hname : '_' ∉ m.name.toList := fun hmem =>
      (h.name (by simpa using hconstructor)).2 '_' hmem (by decide)
    -- The name is one word, which is where underscores in it would do harm.
    have hhead : ("m_" ++ m.name).toList.splitOn '_' = [['m'], m.name.toList] := by
      rw [String.toList_append]
      show (['m'] ++ '_' :: m.name.toList).splitOn '_' = _
      rw [splitOn_append_cons, splitOn_of_not_mem hname, splitOn_of_not_mem (by decide),
        List.singleton_append]
    rw [if_neg hconstructor, hhead]
    refine (readMembers_words h (some (.ofList m.name.toList))).trans ?_
    simp [symbol, hconstructor]

/-! ### Equal mangled names -/

theorem symbol_eq_iff {m m' : MethodRef} :
    m.symbol = m'.symbol ↔
      m.isConstructor = m'.isConstructor ∧
      (m.isConstructor = false → m.name = m'.name) ∧
      m.declaration.parameters.map Ty.erasedName = m'.declaration.parameters.map Ty.erasedName ∧
      m.isPrivate = m'.isPrivate ∧
      (m.isPrivate = true → m.enclosing.qualifiedName = m'.enclosing.qualifiedName) := by
  rw [symbol, symbol, Symbol.mk.injEq]
  -- The flags can be told from the options that they decide.
  cases m.isConstructor <;> cases m'.isConstructor <;> cases m.isPrivate <;> cases m'.isPrivate <;>
    simp

/-- The mangled name is built from what it says. -/
theorem mangledName_of_symbol {m m' : MethodRef} (h : m.symbol = m'.symbol) :
    m.mangledName = m'.mangledName := by
  obtain ⟨hconstructor, hname, hparameters, hprivate, howner⟩ := symbol_eq_iff.mp h
  -- The names of constructors may differ, but they are not spelled.
  have hhead : m.mangledHead = m'.mangledHead := by
    rw [mangledHead, mangledHead, ← hconstructor]
    cases hm : m.isConstructor with
    | true => rfl
    | false => rw [hname hm]
  have hlast : m.mangledOwner = m'.mangledOwner := by
    rw [mangledOwner, mangledOwner, ← hprivate]
    cases hm : m.isPrivate with
    | true => rw [howner hm]
    | false => rfl
  rw [mangledName, mangledName, hhead, hlast, mangledParameters_congr hparameters]

/-- Mangled names are uniquely decodable. A reader gets back from the mangled name of a
method whether it is a constructor, its name if it is not, the erased parameter types of
its declaration, and the enclosing type if it is private. So two methods have the same
mangled name exactly if they agree in all of this, and no private method has the mangled
name of one that is dispatched. -/
theorem mangledName_decodable {m m' : MethodRef} (h : m.SpelledInWords) (h' : m'.SpelledInWords) :
    readSymbol m.mangledName = m.symbol ∧
      (m.mangledName = m'.mangledName ↔
        m.isConstructor = m'.isConstructor ∧
        (m.isConstructor = false → m.name = m'.name) ∧
        m.declaration.parameters.map Ty.erasedName =
          m'.declaration.parameters.map Ty.erasedName ∧
        m.isPrivate = m'.isPrivate ∧
        (m.isPrivate = true → m.enclosing.qualifiedName = m'.enclosing.qualifiedName)) ∧
      (m.isPrivate = true → m'.isPolymorphic = true → m.mangledName ≠ m'.mangledName) := by
  have hread := readSymbol_mangledName h
  have hiff : m.mangledName = m'.mangledName ↔ m.symbol = m'.symbol := by
    refine ⟨fun hsame => ?_, mangledName_of_symbol⟩
    rw [← hread, hsame, readSymbol_mangledName h']
  rw [symbol_eq_iff] at hiff
  refine ⟨hread, hiff, ?_⟩
  intro hprivate hpolymorphic hsame
  -- With one mangled name the second method would be private too, and such methods are not
  -- dispatched.
  obtain ⟨-, -, -, hprivacy, -⟩ := hiff.mp hsame
  simp only [isPolymorphic, ← hprivacy, hprivate, Bool.not_true, Bool.and_false] at hpolymorphic
  cases hpolymorphic

/-- A private method for a grid of lines and for a variable that stands for numbers. -/
def storeLines : MethodRef :=
  { enclosing := { qualifiedName := "app.text.Buffer" }, name := "store",
    parameters := [.array (.array (.ref "app.text.Line" .classType [] true) true) true,
      .typeVar "T" .declared (.array (.prim .int) false) .parametric],
    visibility := .privateAccess }

/-- The same method for a particular `T`. -/
def storeBytes : MethodRef :=
  { storeLines with
    parameters := [.array (.array (.ref "app.text.Line" .classType [] true) true) true,
      .array (.prim .byte) true]
    origins := [storeLines.toMethodSignature] }

/-- Everything is read back from the mangled name of a private method. A specialization has
the same mangled name, since the parameter types of the declaration count, and the same
method in another type has a different one. -/
theorem storeLines_decodable :
    storeLines.SpelledInWords ∧
      readSymbol storeLines.mangledName =
        { name := some "store", parameters := ["app.text.Line[][]", "int[]"],
          owner := some "app.text.Buffer" } ∧
      storeLines.mangledName = storeBytes.mangledName ∧
      storeLines.mangledName ≠ (storeLines.within { qualifiedName := "app.text" }).mangledName := by
  have h : storeLines.SpelledInWords := ⟨by decide, by decide, by decide⟩
  have hbytes : storeBytes.SpelledInWords := ⟨by decide, by decide, by decide⟩
  have hother : (storeLines.within { qualifiedName := "app.text" }).SpelledInWords :=
    ⟨by decide, by decide, by decide⟩
  refine ⟨h, (mangledName_decodable h h).1.trans (by decide), ?_, ?_⟩
  · exact (mangledName_decodable h hbytes).2.1.mpr (by decide)
  · intro hsame
    exact absurd ((mangledName_decodable h hother).2.1.mp hsame) (by decide)

end MethodRef

end Lowering
