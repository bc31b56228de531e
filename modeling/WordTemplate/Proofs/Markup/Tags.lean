import WordTemplate.Markup.Printer
import WordTemplate.Proofs.Markup.Escaping

/-!
# Tags are read back

The tags that are written for an element are read as events with its name and its attributes.
Names have to be free of the characters that structure a tag, and the keys of an element have to
differ.
-/

namespace WordTemplate.Markup

/-- Whether a name can stand in a tag: it is not empty, and none of its characters has a meaning
there. -/
structure IsName (name : String) : Prop where
  nonempty : name.toList ≠ []
  unspaced : ∀ char ∈ name.toList, Text.isSpacing char = false
  plain : ∀ char ∈ name.toList, char ∉ ['<', '>', '/', '=', '&', '"', '\'']
  ordinary : name.toList.head? ≠ some '!' ∧ name.toList.head? ≠ some '?'

/-- Whether an element can be written as a tag. -/
structure IsWritable (held : Element) : Prop where
  name : IsName held.name
  keys : ∀ item ∈ held.attributes, IsName item.key
  distinct : (held.attributes.map Attribute.key).Nodup

variable {name : String} {held : Element} {rest : List Char}

/-! ## The end of a tag -/

/-- No tag ends in these characters, nor does a quotation begin there that does not end there. -/
def Passes (chars : List Char) : Prop :=
  ∀ rest, splitTag? none (chars ++ rest) =
    (splitTag? none rest).map fun (inside, after) => (chars ++ inside, after)

namespace Passes

theorem nil : Passes [] := by
  intro rest
  simp

theorem append {first second : List Char} (firstPasses : Passes first)
    (secondPasses : Passes second) : Passes (first ++ second) := by
  intro rest
  rw [List.append_assoc, firstPasses, secondPasses, Option.map_map]
  simp [Function.comp_def]

theorem singleton {char : Char} (plain : char ≠ '>' ∧ char ≠ '"' ∧ char ≠ '\'') :
    Passes [char] := by
  intro rest
  simp [splitTag?, plain]

theorem of_plain {chars : List Char}
    (plain : ∀ char ∈ chars, char ≠ '>' ∧ char ≠ '"' ∧ char ≠ '\'') : Passes chars := by
  induction chars with
  | nil => exact nil
  | cons char chars inductionHypothesis =>
      exact append (singleton (plain char List.mem_cons_self))
        (inductionHypothesis fun other isMember => plain other (List.mem_cons_of_mem _ isMember))

theorem quoted {value : List Char} (unquoted : ∀ char ∈ value, char ≠ '"') :
    Passes ('"' :: (value ++ ['"'])) := by
  have closes : ∀ rest, splitTag? (some '"') (value ++ '"' :: rest) =
      (splitTag? none rest).map fun (inside, after) => (value ++ '"' :: inside, after) := by
    intro rest
    induction value with
    | nil => simp [splitTag?]
    | cons char value inductionHypothesis =>
        have differ := unquoted char List.mem_cons_self
        rw [List.cons_append, splitTag?]
        simp only [beq_iff_eq, differ, if_false]
        rw [inductionHypothesis fun other isMember => unquoted other (List.mem_cons_of_mem _ isMember),
          Option.map_map]
        rfl
  intro rest
  rw [List.cons_append, List.append_assoc, List.singleton_append, splitTag?]
  simp [closes, Function.comp_def]

end Passes

theorem IsName.passes (isName : IsName name) : Passes name.toList := by
  refine Passes.of_plain fun char isMember => ?_
  have plain := isName.plain char isMember
  simp only [List.mem_cons, not_or] at plain
  exact ⟨plain.2.1, plain.2.2.2.2.2.1, plain.2.2.2.2.2.2.1⟩

theorem passes_written {item : Attribute} (isName : IsName item.key) : Passes item.written := by
  have blank : Passes [' '] := Passes.singleton (by decide)
  have equals : Passes ['='] := Passes.singleton (by decide)
  have value : Passes ('"' :: (escapeValue item.value ++ ['"'])) :=
    Passes.quoted fun char isMember => (ne_quote_of_mem_escapeValue isMember).1
  simpa [Attribute.written] using blank.append (isName.passes.append (equals.append value))

theorem passes_flatMap_written {items : List Attribute}
    (keys : ∀ item ∈ items, IsName item.key) : Passes (items.flatMap Attribute.written) := by
  induction items with
  | nil => exact Passes.nil
  | cons item items inductionHypothesis =>
      rw [List.flatMap_cons]
      exact (passes_written (keys item List.mem_cons_self)).append
        (inductionHypothesis fun other isMember => keys other (List.mem_cons_of_mem _ isMember))

theorem splitTag?_of_passes {chars : List Char} (passes : Passes chars) (rest : List Char) :
    splitTag? none (chars ++ '>' :: rest) = some (chars, rest) := by
  rw [passes]
  simp [splitTag?]

/-! ## Attributes -/

theorem IsName.not_endsKey (isName : IsName name) :
    ∀ char ∈ name.toList, (!endsKey char) = true := by
  intro char isMember
  have plain := isName.plain char isMember
  simp only [List.mem_cons, not_or] at plain
  simp [endsKey, isName.unspaced char isMember, plain.2.2.2.1]

/-- The next attribute is the one that was written, unless its key was seen before. -/
theorem nextAttribute_written {item : Attribute} (isName : IsName item.key) (length : Nat)
    {seen : List (List Char × Nat)} (unseen : seen.lookup item.key.toList = none)
    (rest : List Char) :
    ∃ position, nextAttribute length seen (item.written ++ rest) =
      .ok (some ⟨item.key.toList, position, escapeValue item.value, rest⟩) := by
  rcases isKey : item.key.toList with _ | ⟨first, more⟩
  · exact absurd isKey isName.nonempty
  have inKey : ∀ char ∈ more, (!endsKey char) = true := fun char isMember =>
    isName.not_endsKey char (isKey ▸ List.mem_cons_of_mem _ isMember)
  have atEquals : ∀ char, ('=' :: '"' :: (escapeValue item.value ++ '"' :: rest)).head? = some char →
      (!endsKey char) = false := by
    rintro _ ⟨⟩
    rfl
  have inValue : ∀ char ∈ escapeValue item.value, (char != '"') = true := fun char isMember => by
    simpa using (ne_quote_of_mem_escapeValue isMember).1
  have atQuote : ∀ char, ('"' :: rest).head? = some char → (char != '"') = false := by
    rintro _ ⟨⟩
    rfl
  have start : (item.written ++ rest).dropWhile Text.isSpacing =
      first :: (more ++ '=' :: '"' :: (escapeValue item.value ++ '"' :: rest)) := by
    have notSpacing := isName.unspaced first (isKey ▸ List.mem_cons_self)
    have blank : Text.isSpacing ' ' = true := rfl
    simp [Attribute.written, isKey, notSpacing, blank]
  have equalsIs : Text.isSpacing '=' = false := rfl
  have quoteIs : Text.isSpacing '"' = false := rfl
  simp only [nextAttribute, start]
  rw [Text.dropWhile_append inKey atEquals, Text.takeWhile_append inKey atEquals,
    List.dropWhile_cons_of_neg (by simp [equalsIs])]
  simp only [← isKey, unseen]
  rw [List.dropWhile_cons_of_neg (by simp [quoteIs])]
  simp only [beq_self_eq_true, Bool.true_or, if_true]
  rw [Text.dropWhile_append inValue atQuote, Text.takeWhile_append inValue atQuote]
  exact ⟨_, rfl⟩

/-- The attributes of an element are read back. -/
theorem readAttributes_written {items : List Attribute} (keys : ∀ item ∈ items, IsName item.key)
    (distinct : (items.map Attribute.key).Nodup) (length : Nat) (seen : List (List Char × Nat))
    (unseen : ∀ item ∈ items, seen.lookup item.key.toList = none) :
    readAttributes length seen (items.flatMap Attribute.written) = .ok items := by
  induction items generalizing seen with
  | nil =>
      have nothing : nextAttribute length seen [] = .ok none := by simp [nextAttribute]
      rw [List.flatMap_nil, readAttributes]
      split
      · next cause found => simp [nothing] at found
      · rfl
      · next written found => simp [nothing] at found
  | cons item items inductionHypothesis =>
      rcases nextAttribute_written (keys item List.mem_cons_self) length
        (unseen item List.mem_cons_self) (items.flatMap Attribute.written) with ⟨position, next⟩
      rw [List.map_cons, List.nodup_cons] at distinct
      rw [List.flatMap_cons, readAttributes]
      split
      · next cause found => simp [next] at found
      · next found => simp [next] at found
      · next written found =>
          simp only [next, Except.ok.injEq, Option.some.injEq] at found
          subst found
          have later := inductionHypothesis
            (fun other isMember => keys other (List.mem_cons_of_mem _ isMember)) distinct.2
            ((item.key.toList, position) :: seen) (by
              intro other isMember
              have differ : (other.key.toList == item.key.toList) = false := by
                rw [beq_eq_false_iff_ne]
                intro same
                exact distinct.1 (List.mem_map.mpr ⟨other, isMember, String.toList_inj.mp same⟩)
              rw [List.lookup_cons, differ]
              exact unseen other (List.mem_cons_of_mem _ isMember))
          simp only [unescape_escapeValue, later, String.ofList_toList]
          rfl

/-! ## Tags -/

/-- What stands between the angle brackets of an opening tag. -/
def content (held : Element) : List Char :=
  held.name.toList ++ held.attributes.flatMap Attribute.written

theorem passes_content (writable : IsWritable held) : Passes (content held) :=
  writable.name.passes.append (passes_flatMap_written writable.keys)

/-- No tag of an element ends like an empty one by itself. -/
theorem getLast?_content (writable : IsWritable held) : (content held).getLast? ≠ some '/' := by
  intro isLast
  rcases List.eq_nil_or_concat held.attributes with none | ⟨items, item, isLastItem⟩
  · rw [content, none, List.flatMap_nil, List.append_nil] at isLast
    exact writable.name.plain '/' (List.mem_of_getLast? isLast) (by simp)
  · have ends : content held = held.name.toList ++ (items.flatMap Attribute.written ++
        ' ' :: (item.key.toList ++ '=' :: '"' :: escapeValue item.value)) ++ ['"'] := by
      simp [content, isLastItem, Attribute.written]
    rw [ends, List.getLast?_concat, Option.some.injEq] at isLast
    exact absurd isLast (by decide)

theorem exists_content (writable : IsWritable held) :
    ∃ first more, content held = first :: more ∧ first ≠ '/' ∧ first ≠ '!' ∧ first ≠ '?' := by
  rcases isName : held.name.toList with _ | ⟨first, more⟩
  · exact absurd isName writable.name.nonempty
  have plain := writable.name.plain first (isName ▸ List.mem_cons_self)
  have ordinary := writable.name.ordinary
  simp only [isName, List.head?_cons, ne_eq, Option.some.injEq] at ordinary
  simp only [List.mem_cons, not_or] at plain
  exact ⟨first, _, by rw [content, isName]; rfl, plain.2.2.1, ordinary⟩

theorem tagEvent_content (writable : IsWritable held) :
    tagEvent (content held) = .ok (.opening held.name held.attributes) ∧
      tagEvent (content held ++ ['/']) = .ok (.empty held.name held.attributes) := by
  rcases exists_content writable with ⟨first, more, isContent, notClosing, -⟩
  have inName : ∀ char ∈ held.name.toList, (!Text.isSpacing char) = true := fun char isMember => by
    simp [writable.name.unspaced char isMember]
  have atSpace : ∀ char, (held.attributes.flatMap Attribute.written).head? = some char →
      (!Text.isSpacing char) = false := by
    intro char isHead
    cases isAttributes : held.attributes with
    | nil => simp [isAttributes] at isHead
    | cons item items =>
        simp only [isAttributes, List.flatMap_cons, Attribute.written, List.cons_append,
          List.head?_cons, Option.some.injEq] at isHead
        subst isHead
        rfl
  have read : readAttributes (Text.byteLength (content held)) []
      ((content held).dropWhile (!Text.isSpacing ·)) = .ok held.attributes := by
    rw [content, Text.dropWhile_append inName atSpace]
    exact readAttributes_written writable.keys writable.distinct _ [] fun _ _ => rfl
  have isName : (content held).takeWhile (!Text.isSpacing ·) = held.name.toList := by
    rw [content, Text.takeWhile_append inName atSpace]
  have notEmpty : ((content held).getLast? == some '/') = false := by
    simpa using getLast?_content writable
  have isEmpty : ((content held ++ ['/']).getLast? == some '/') = true := by simp
  constructor
  · unfold tagEvent
    split
    · next name isClosing =>
        rw [isContent, List.cons.injEq] at isClosing
        exact absurd isClosing.1 notClosing
    · simp only [notEmpty, Bool.false_eq_true, if_false, read, isName, String.ofList_toList]
      rfl
  · unfold tagEvent
    split
    · next name isClosing =>
        rw [isContent, List.cons_append, List.cons.injEq] at isClosing
        exact absurd isClosing.1 notClosing
    · simp only [isEmpty, if_true, List.dropLast_concat, read, isName, String.ofList_toList]
      rfl

/-- What begins with an angle bracket and an ordinary character is a tag. -/
theorem nextEvent_of_ordinary {first : Char} (notDeclaration : first ≠ '!')
    (notInstruction : first ≠ '?') (rest : List Char) :
    nextEvent ('<' :: first :: rest) = tagStep (first :: rest) := by
  unfold nextEvent
  split
  case h_10 other _ _ _ _ _ _ _ notLess _ same =>
    exact absurd (List.cons.inj same).1.symm notLess
  all_goals first | rfl | simp_all

/-- A tag reaches up to the first bracket that it does not pass. -/
theorem tagStep_of_passes {inside : List Char} {event : Event} (passes : Passes inside)
    (isEvent : tagEvent inside = .ok event) (rest : List Char) :
    tagStep (inside ++ '>' :: rest) = .found event rest := by
  rw [tagStep, splitTag?_of_passes passes]
  simp only [isEvent, Step.ofResult]

/-- A tag that was written is read back. -/
theorem nextEvent_tagStart (writable : IsWritable held) (rest : List Char) :
    nextEvent (held.tagStart ++ '>' :: rest) =
        .found (.opening held.name held.attributes) rest ∧
      nextEvent (held.tagStart ++ '/' :: '>' :: rest) =
        .found (.empty held.name held.attributes) rest := by
  rcases exists_content writable with ⟨first, more, isContent, -, notDeclaration, notInstruction⟩
  rcases tagEvent_content writable with ⟨opening, empty⟩
  have slash : Passes ['/'] := Passes.singleton (by decide)
  have isStart : held.tagStart = '<' :: content held := rfl
  constructor
  · rw [isStart, isContent, List.cons_append, List.cons_append,
      nextEvent_of_ordinary notDeclaration notInstruction, ← List.cons_append, ← isContent]
    exact tagStep_of_passes (passes_content writable) opening rest
  · have regroup : content held ++ '/' :: '>' :: rest = content held ++ ['/'] ++ '>' :: rest := by
      simp
    rw [isStart, isContent, List.cons_append, List.cons_append,
      nextEvent_of_ordinary notDeclaration notInstruction, ← List.cons_append, ← isContent, regroup]
    exact tagStep_of_passes ((passes_content writable).append slash) empty rest

theorem nextEvent_closing (isName : IsName name) (rest : List Char) :
    nextEvent ('<' :: '/' :: (name.toList ++ '>' :: rest)) = .found (.closing name) rest := by
  have slash : Passes ['/'] := Passes.singleton (by decide)
  have kept : closingName name.toList = name.toList := by
    have unchanged : name.toList.reverse.dropWhile Text.isSpacing = name.toList.reverse := by
      cases isReverse : name.toList.reverse with
      | nil => rfl
      | cons last more =>
          have isMember : last ∈ name.toList := by
            rw [← List.mem_reverse, isReverse]
            exact List.mem_cons_self
          rw [List.dropWhile_cons_of_neg (by simp [isName.unspaced last isMember])]
    rw [closingName, Text.dropEndWhile, unchanged, List.reverse_reverse]
    split
    · rfl
    · rfl
  have isEvent : tagEvent ('/' :: name.toList) = .ok (.closing name) := by
    simp [tagEvent, kept]
  rw [nextEvent_of_ordinary (by decide) (by decide)]
  exact tagStep_of_passes (slash.append isName.passes) isEvent rest

end WordTemplate.Markup
