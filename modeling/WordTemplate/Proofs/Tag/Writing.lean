import WordTemplate.Proofs.Tag.Options
import WordTemplate.Proofs.Text.Trimming
import WordTemplate.Tag.Reading

/-!
# Written tags are read back

A tag is written as the mark of its kind, a name and an option block between the delimiters. What
was written is read back under conditions that the marks of the grammar have to meet together: the
first marker of options has to be the one of the block, and no mark may begin where another one is
meant. `Delimiters.validate` looks at each marker alone and at one pair of them, so accepted
delimiters need not meet these conditions; `Tag.read_marked_iff` says which marks can be used.
-/

namespace WordTemplate

/-! ## Writing option blocks -/

namespace TagOptions

/-- The double quotation mark and the typographic marks that are replaced before a block is read. -/
def quotationMarks : List Char := ['"', '\u201c', '\u201d', '\u201e', '\u2018', '\u2019']

/-- A text that can stand between double quotation marks. -/
def Unquoted (text : String) : Prop := ∀ char ∈ text.toList, char ∉ quotationMarks

instance (text : String) : Decidable (Unquoted text) := List.decidableBAll _ _

/-- A value that can be written in an option block. -/
inductive Literal where
  | string (text : String) (unquoted : Unquoted text)
  | integer (value : Int) (fits : Text.FitsInt64 value)
  | bool (flag : Bool)
  | null

/-- The value that is written. -/
def Literal.value : Literal → Data.Value
  | string text _ => .string text
  | integer value _ => .number (.integer value)
  | bool flag => .bool flag
  | null => .null

/-- The text of a value: strings stand in double quotation marks, all else is bare. -/
def Literal.written : Literal → List Char
  | string text _ => '"' :: (text.toList ++ ['"'])
  | integer value _ => (Data.integerText value).toList
  | bool true => "true".toList
  | bool false => "false".toList
  | null => "null".toList

/-- A key and a value that can be written in an option block. -/
structure Entry where
  key : String
  unquoted : Unquoted key
  value : Literal

/-- The pair that is written. -/
def Entry.pair (entry : Entry) : String × Data.Value := (entry.key, entry.value.value)

/-- The text of a pair. -/
def Entry.written (entry : Entry) : List Char :=
  '"' :: (entry.key.toList ++ ['"']) ++ '=' :: entry.value.written

/-- The text of pairs that follow another pair. -/
def writtenTail (entries : List Entry) : List Char :=
  entries.flatMap fun entry => ',' :: ' ' :: entry.written

/-- The text of an option block. -/
def writtenBlock : List Entry → List Char
  | [] => []
  | first :: rest => first.written ++ writtenTail rest

variable {word after : List Char} {text : String} {value : Data.Value}

theorem plainQuote_eq_self {char : Char} (plain : char ∉ quotationMarks) :
    plainQuote char = char := by
  simp only [quotationMarks, List.mem_cons, List.not_mem_nil, or_false, not_or] at plain
  simp [plainQuote, plain]

theorem Unquoted.isQuoted (unquoted : Unquoted text) :
    IsQuoted ('"' :: (text.toList ++ ['"'])) text.toList :=
  .between (.inl rfl) fun isMember => unquoted '"' isMember (by decide)

/-- A character that neither ends a bare value, nor is dropped from it, nor begins a quoted one. -/
def IsBareChar (char : Char) : Prop :=
  Text.isBlank char = false ∧ char ∉ quotationMarks ∧ char ≠ '\'' ∧ char ≠ ','

instance (char : Char) : Decidable (IsBareChar char) :=
  inferInstanceAs (Decidable (_ ∧ char ∉ quotationMarks ∧ char ≠ '\'' ∧ char ≠ ','))

theorem isBareChar_of_isDigit {char : Char} (isDigit : char.isDigit = true) : IsBareChar char := by
  have range : 48 ≤ char.toNat ∧ char.toNat ≤ 57 := by
    simp only [Char.isDigit, Bool.and_eq_true, decide_eq_true_eq] at isDigit
    exact ⟨isDigit.1, isDigit.2⟩
  refine ⟨?_, ?_, ?_, ?_⟩
  · simp only [Text.isBlank, Bool.or_eq_false_iff, Bool.and_eq_false_iff, decide_eq_false_iff_not,
      beq_eq_false_iff_ne]
    omega
  · intro isMember
    simp only [quotationMarks, List.mem_cons, List.not_mem_nil, or_false] at isMember
    rcases isMember with rfl | rfl | rfl | rfl | rfl | rfl <;> exact absurd isDigit (by decide)
  · rintro rfl
    exact absurd isDigit (by decide)
  · rintro rfl
    exact absurd isDigit (by decide)

theorem isValue_of_bare (nonempty : word ≠ []) (bare : ∀ char ∈ word, IsBareChar char)
    (denotes : Denotes word value) (maximal : ∀ char, after.head? = some char → char = ',') :
    IsValue after word value := by
  have isTrimmed : Text.IsTrimmed word :=
    ⟨fun char isFirst => (bare char (List.mem_of_head? isFirst)).1,
      fun char isLast => (bare char (List.mem_of_getLast? isLast)).1⟩
  rcases word with _ | ⟨first, rest⟩
  · exact absurd rfl nonempty
  · rcases bare first List.mem_cons_self with ⟨notBlank, notQuote, notApostrophe, -⟩
    refine .bare ?_ ⟨?_, notApostrophe⟩ ?_ maximal ?_
    · rw [← Bool.not_eq_true]
      intro spacing
      rw [Text.isBlank_of_isSpacing spacing] at notBlank
      cases notBlank
    · rintro rfl
      exact notQuote (by decide)
    · exact fun isMember => (bare ',' isMember).2.2.2 rfl
    · rwa [Text.trimChars_eq_self.mpr isTrimmed]

theorem mem_integerText {number : Int} {char : Char}
    (isMember : char ∈ (Data.integerText number).toList) : char = '-' ∨ char.isDigit = true := by
  rw [Data.integerText, String.toList_ofList] at isMember
  rcases List.mem_append.mp isMember with sign | digit
  · split at sign
    · exact Or.inl (List.mem_singleton.mp sign)
    · cases sign
  · exact Or.inr (Nat.isDigit_of_mem_toDigits (by decide) (by decide) digit)

theorem isBareChar_integerText {number : Int} {char : Char}
    (isMember : char ∈ (Data.integerText number).toList) : IsBareChar char := by
  rcases mem_integerText isMember with rfl | isDigit
  · decide
  · exact isBareChar_of_isDigit isDigit

theorem Literal.isValue (literal : Literal)
    (maximal : ∀ char, after.head? = some char → char = ',') :
    IsValue after literal.written literal.value := by
  cases literal with
  | string text unquoted =>
      have isValue : IsValue after _ _ := .quoted unquoted.isQuoted
      rwa [String.ofList_toList] at isValue
  | integer number fits =>
      refine isValue_of_bare ?_ (fun char => isBareChar_integerText)
        (.integer (Text.isInteger_integerText number) fits) maximal
      rw [written, Data.integerText, String.toList_ofList]
      exact List.append_ne_nil_of_right_ne_nil _ Nat.toDigits_ne_nil
  | bool flag =>
      cases flag with
      | true =>
          exact isValue_of_bare (by decide) (Text.forall_of_all (by decide)) (.yes rfl) maximal
      | false =>
          exact isValue_of_bare (by decide) (Text.forall_of_all (by decide)) (.no rfl) maximal
  | null => exact isValue_of_bare (by decide) (Text.forall_of_all (by decide)) (.null rfl) maximal

theorem Entry.isPair (entry : Entry) (maximal : ∀ char, after.head? = some char → char = ',') :
    IsPair after entry.written entry.pair := by
  have isPair := IsPair.separated (.quoted entry.unquoted.isQuoted) isGap_nil (.inl rfl) isGap_nil
    (entry.value.isValue maximal)
  rwa [String.ofList_toList] at isPair

theorem head_writtenTail (entries : List Entry) :
    ∀ char, (writtenTail entries).head? = some char → char = ',' := by
  intro char isFirst
  cases entries with
  | nil => cases isFirst
  | cons entry rest => exact (Option.some.inj isFirst).symm

theorem isTail_writtenTail (entries : List Entry) :
    IsTail (writtenTail entries) (entries.map Entry.pair) := by
  induction entries with
  | nil => exact .done isGap_nil
  | cons entry rest inductionHypothesis =>
      have isGap : IsGap [' '] := by simp [IsGap, Text.isSpacing]
      exact .pair isGap_nil isGap (entry.isPair (head_writtenTail rest)) inductionHypothesis

theorem isBlock_writtenBlock (entries : List Entry) :
    IsBlock (writtenBlock entries) (entries.map Entry.pair) := by
  cases entries with
  | nil => exact .empty (.done isGap_nil)
  | cons entry rest =>
      exact .pairs isGap_nil (entry.isPair (head_writtenTail rest)) (isTail_writtenTail rest)

/-! ## Reading option blocks -/

theorem map_plainQuote (plain : ∀ char ∈ word, char ∉ quotationMarks) :
    word.map plainQuote = word :=
  (List.map_congr_left fun char isMember => plainQuote_eq_self (plain char isMember)).trans
    (List.map_id' word)

theorem map_plainQuote_between (unquoted : Unquoted text) :
    ('"' :: (text.toList ++ ['"'])).map plainQuote = '"' :: (text.toList ++ ['"']) := by
  have isMark : plainQuote '"' = '"' := rfl
  rw [List.map_cons, List.map_append, map_plainQuote unquoted, List.map_singleton, isMark]

theorem Literal.map_plainQuote_written (literal : Literal) :
    literal.written.map plainQuote = literal.written := by
  cases literal with
  | string text unquoted => exact map_plainQuote_between unquoted
  | integer number fits =>
      exact map_plainQuote fun char isMember => (isBareChar_integerText isMember).2.1
  | bool flag => cases flag <;> rfl
  | null => rfl

theorem Entry.map_plainQuote_written (entry : Entry) :
    entry.written.map plainQuote = entry.written := by
  have isMark : plainQuote '=' = '=' := rfl
  rw [Entry.written, List.map_append, map_plainQuote_between entry.unquoted, List.map_cons,
    entry.value.map_plainQuote_written, isMark]

theorem map_plainQuote_writtenTail (entries : List Entry) :
    (writtenTail entries).map plainQuote = writtenTail entries := by
  have separator : [',', ' '].map plainQuote = [',', ' '] := rfl
  induction entries with
  | nil => rfl
  | cons entry rest inductionHypothesis =>
      change ([',', ' '] ++ (entry.written ++ writtenTail rest)).map plainQuote =
        [',', ' '] ++ (entry.written ++ writtenTail rest)
      rw [List.map_append, List.map_append, separator, entry.map_plainQuote_written,
        inductionHypothesis]

theorem map_plainQuote_writtenBlock (entries : List Entry) :
    (writtenBlock entries).map plainQuote = writtenBlock entries := by
  cases entries with
  | nil => rfl
  | cons first rest =>
      rw [writtenBlock, List.map_append, first.map_plainQuote_written, map_plainQuote_writtenTail]

/-- A written block is read as its entries, the last one under each key. -/
theorem read_writtenBlock (entries : List Entry) :
    read (String.ofList (writtenBlock entries)) =
      .ok (Data.Fields.ofPairs (entries.map Entry.pair)) := by
  refine read_eq_ok.mpr ⟨_, ?_, rfl⟩
  rw [String.toList_ofList, map_plainQuote_writtenBlock]
  exact isBlock_writtenBlock entries

end TagOptions

/-! ## The marks of the kinds -/

namespace Tag

variable {delimiters : Delimiters} {kind : TagKind} {head name mark marker before after : String}

/-- The mark that a tag of a kind begins with. A leaf has none. -/
def markOf (delimiters : Delimiters) : TagKind → String
  | .leaf => ""
  | .opening .loop => delimiters.containerTagOpen
  | .opening .tableLoop => delimiters.tableTagOpen
  | .opening .sections => delimiters.sectionTagOpen
  | .closing => delimiters.containerTagClose

/-- The marks that are tried before a tag counts as one of a kind. -/
def triedBefore (delimiters : Delimiters) (kind : TagKind) : List (String × TagKind) :=
  (kindMarks delimiters).takeWhile (·.2 ≠ kind)

theorem kindMarks_eq (delimiters : Delimiters) (kind : TagKind) :
    ∃ others, kindMarks delimiters = triedBefore delimiters kind ++ others ∧
      (kind = .leaf ∧ others = [] ∨ ∃ rest, others = (markOf delimiters kind, kind) :: rest) := by
  match kind with
  | .leaf => exact ⟨[], rfl, .inl ⟨rfl, rfl⟩⟩
  | .opening .loop => exact ⟨_, rfl, .inr ⟨_, rfl⟩⟩
  | .opening .tableLoop => exact ⟨_, rfl, .inr ⟨_, rfl⟩⟩
  | .opening .sections => exact ⟨_, rfl, .inr ⟨_, rfl⟩⟩
  | .closing => exact ⟨_, rfl, .inr ⟨_, rfl⟩⟩

theorem eq_markOf_of_mem (isMark : (mark, kind) ∈ kindMarks delimiters) :
    mark = markOf delimiters kind := by
  simp only [kindMarks, List.mem_cons, Prod.mk.injEq, List.not_mem_nil, or_false] at isMark
  rcases isMark with ⟨rfl, rfl⟩ | ⟨rfl, rfl⟩ | ⟨rfl, rfl⟩ | ⟨rfl, rfl⟩ <;> rfl

/-- The kind and the rest of a text that begins with a mark. -/
def afterMark? (head : String) (tried : String × TagKind) : Option (TagKind × String) :=
  (Text.afterLead? tried.1 head).map fun name => (tried.2, name)

theorem splitKind_eq (delimiters : Delimiters) (head : String) :
    splitKind delimiters head =
      ((kindMarks delimiters).findSome? (afterMark? head)).getD (.leaf, head) := rfl

theorem afterMark?_eq_some {tried : String × TagKind} :
    afterMark? head tried = some (kind, name) ↔ tried.2 = kind ∧ tried.1 ++ name = head := by
  rw [afterMark?, Option.map_eq_some_iff]
  simp only [Text.afterLead?_eq_some, Prod.mk.injEq]
  exact ⟨fun ⟨_, isLead, isKind, isName⟩ => ⟨isKind, isName ▸ isLead⟩,
    fun ⟨isKind, isLead⟩ => ⟨name, isLead, isKind, rfl⟩⟩

theorem afterMark?_eq_none {tried : String × TagKind} :
    afterMark? head tried = none ↔ ¬tried.1.toList <+: head.toList := by
  rw [afterMark?, Option.map_eq_none_iff, Text.afterLead?_eq_none]

/-- What is split off is the mark of the kind. -/
theorem markOf_append_of_splitKind (split : splitKind delimiters head = (kind, name)) :
    markOf delimiters kind ++ name = head := by
  rw [splitKind_eq] at split
  rcases found : (kindMarks delimiters).findSome? (afterMark? head) with _ | tried
  · rw [found] at split
    cases split
    exact String.empty_append
  · rw [found] at split
    cases split
    rcases List.exists_of_findSome?_eq_some found with ⟨⟨mark, kind'⟩, isMark, isLead⟩
    rcases afterMark?_eq_some.mp isLead with ⟨rfl, whole⟩
    rw [← eq_markOf_of_mem isMark]
    exact whole

/-- The mark of a kind is told from what follows it exactly if none of the marks tried before it
stands there as well. -/
theorem splitKind_eq_iff :
    splitKind delimiters (markOf delimiters kind ++ name) = (kind, name) ↔
      ∀ tried ∈ triedBefore delimiters kind,
        ¬tried.1.toList <+: (markOf delimiters kind ++ name).toList := by
  rcases kindMarks_eq delimiters kind with ⟨others, whole, own⟩
  rw [splitKind_eq, whole, List.findSome?_append]
  simp only [← afterMark?_eq_none, ← List.findSome?_eq_none_iff]
  rcases found : (triedBefore delimiters kind).findSome?
      (afterMark? (markOf delimiters kind ++ name)) with _ | ⟨earlier, rest⟩
  · rw [Option.none_or]
    refine iff_of_true ?_ rfl
    rcases own with ⟨rfl, rfl⟩ | ⟨rest, rfl⟩
    · rw [markOf, String.empty_append]
      rfl
    · have isLead : afterMark? (markOf delimiters kind ++ name) (markOf delimiters kind, kind) =
          some (kind, name) := afterMark?_eq_some.mpr ⟨rfl, rfl⟩
      rw [List.findSome?_cons, isLead]
      rfl
  · refine iff_of_false ?_ nofun
    rcases List.exists_of_findSome?_eq_some found with ⟨tried, isEarlier, isLead⟩
    have another : tried.2 ≠ kind := by simpa using List.mem_takeWhile_imp isEarlier
    rintro split
    cases split
    exact another (afterMark?_eq_some.mp isLead).1

/-! ## Writing tags -/

/-- The text of an option block with its markers. -/
def writtenOptions (delimiters : Delimiters) : Option (List TagOptions.Entry) → String
  | none => ""
  | some entries =>
      delimiters.tagOptionsStart ++
        (String.ofList (TagOptions.writtenBlock entries) ++ delimiters.tagOptionsEnd)

/-- The text of a tag, with what stands between its delimiters and its inner text. -/
def written (delimiters : Delimiters) (kind : TagKind) (name : String)
    (block : Option (List TagOptions.Entry)) (before after : String) : String :=
  let inner := markOf delimiters kind ++ name ++ writtenOptions delimiters block
  delimiters.tagStart ++ (before ++ inner ++ after ++ delimiters.tagEnd)

/-- No mark of a kind begins with the mark of another kind. -/
def MarksApart (delimiters : Delimiters) : Prop :=
  (kindMarks delimiters).Pairwise fun mark other =>
    ¬mark.1.toList <+: other.1.toList ∧ ¬other.1.toList <+: mark.1.toList

instance (delimiters : Delimiters) : Decidable (MarksApart delimiters) :=
  inferInstanceAs (Decidable (List.Pairwise _ (kindMarks delimiters)))

/-- If the marks are apart, none that is tried earlier stands where the mark of a kind does. -/
theorem not_prefix_of_marksApart (apart : MarksApart delimiters)
    (unmarked : kind = .leaf → ∀ tried ∈ kindMarks delimiters, ¬tried.1.toList <+: name.toList) :
    ∀ tried ∈ triedBefore delimiters kind,
      ¬tried.1.toList <+: (markOf delimiters kind ++ name).toList := by
  intro tried isEarlier isLead
  rcases kindMarks_eq delimiters kind with ⟨others, whole, ⟨rfl, -⟩ | ⟨rest, rfl⟩⟩
  · rw [markOf, String.empty_append] at isLead
    exact unmarked rfl tried (whole ▸ List.mem_append_left _ isEarlier) isLead
  · rw [MarksApart, whole] at apart
    have disjoint := (List.pairwise_append.mp apart).2.2 tried isEarlier _ List.mem_cons_self
    rw [String.toList_append] at isLead
    exact (List.prefix_or_prefix_of_prefix isLead (List.prefix_append _ _)).elim
      disjoint.1 disjoint.2

/-! ## Reading tags -/

theorem isTrimmed_of_trim (same : Text.trim name = name) : Text.IsTrimmed name.toList := by
  rw [← Text.trimChars_eq_self, ← String.toList_ofList (l := Text.trimChars name.toList)]
  exact congrArg String.toList same

/-- Accepted markers are neither empty nor do they begin or end with blanks. -/
theorem isTrimmed_of_validate (valid : delimiters.validate = .ok ())
    (isMarker : marker ∈ delimiters.fields.map Prod.snd) :
    marker.toList ≠ [] ∧ Text.IsTrimmed marker.toList := by
  rcases List.mem_map.mp isMarker with ⟨field, isField, rfl⟩
  have noFault : delimiters.fields.findSome? Delimiters.fieldError? = none := by
    rw [Delimiters.validate, Delimiters.error?] at valid
    rcases fault : delimiters.fields.findSome? Delimiters.fieldError? with _ | cause
    · rfl
    · rw [fault] at valid
      cases valid
  have fine := List.findSome?_eq_none_iff.mp noFault field isField
  rw [Delimiters.fieldError?] at fine
  split at fine
  · cases fine
  · next notEmpty =>
      split at fine
      · cases fine
      · next unpadded =>
          refine ⟨fun empty => notEmpty ?_, isTrimmed_of_trim (not_not.mp unpadded)⟩
          rw [String.isEmpty_iff, ← String.toList_eq_nil_iff]
          exact empty

theorem markOf_cases (delimiters : Delimiters) (kind : TagKind) :
    markOf delimiters kind = "" ∨ markOf delimiters kind ∈ delimiters.fields.map Prod.snd := by
  rcases kind with _ | (_ | _ | _) | _ <;> simp [markOf, Delimiters.fields]

theorem isTrimmed_markOf (valid : delimiters.validate = .ok ()) (kind : TagKind) :
    Text.IsTrimmed (markOf delimiters kind).toList := by
  rcases markOf_cases delimiters kind with none | isMarker
  · rw [none]
    exact .nil
  · exact (isTrimmed_of_validate valid isMarker).2

theorem isTrimmed_tagOptionsStart (valid : delimiters.validate = .ok ()) :
    delimiters.tagOptionsStart.toList ≠ [] ∧ Text.IsTrimmed delimiters.tagOptionsStart.toList :=
  isTrimmed_of_validate valid (by simp [Delimiters.fields])

theorem isTrimmed_writtenOptions (valid : delimiters.validate = .ok ())
    (block : Option (List TagOptions.Entry)) :
    Text.IsTrimmed (writtenOptions delimiters block).toList := by
  cases block with
  | none => exact .nil
  | some entries =>
      have isMarker : delimiters.tagOptionsEnd ∈ delimiters.fields.map Prod.snd := by
        simp [Delimiters.fields]
      rcases isTrimmed_tagOptionsStart valid with ⟨nonempty, begins⟩
      rcases isTrimmed_of_validate valid isMarker with ⟨nonempty', ends⟩
      rw [writtenOptions, String.toList_append, String.toList_append]
      exact begins.around nonempty _ ends nonempty'

theorem innerText_between (delimiters : Delimiters) (text : String) :
    innerText delimiters (delimiters.tagStart ++ (text ++ delimiters.tagEnd)) = Text.trim text := by
  rw [innerText, Text.afterLead?_eq_some.mpr rfl, Option.bind_some, Text.beforeTail?_append]
  rfl

theorem splitOptions_of_none (nonempty : delimiters.tagOptionsStart.toList ≠ [])
    (unmarked : ¬delimiters.tagOptionsStart.toList <:+: head.toList) :
    splitOptions delimiters head = .ok (head, []) := by
  rw [splitOptions, Text.splitText?, (Text.splitAtFirst?_eq_none nonempty).mpr unmarked]
  rfl

/-- A block is found behind what stands before it if no marker of options ends earlier. -/
theorem splitOptions_written (block : Option (List TagOptions.Entry))
    (nonempty : delimiters.tagOptionsStart.toList ≠ [])
    (first : ¬delimiters.tagOptionsStart.toList <:+:
      (head ++ delimiters.tagOptionsStart).toList.dropLast) :
    splitOptions delimiters (head ++ writtenOptions delimiters block) =
      .ok (head, Data.Fields.ofPairs ((block.getD []).map TagOptions.Entry.pair)) := by
  rw [String.toList_append] at first
  cases block with
  | none =>
      rw [writtenOptions, String.append_empty]
      refine splitOptions_of_none nonempty fun isMember => first ?_
      rw [List.dropLast_append_of_ne_nil nonempty]
      exact isMember.trans (List.prefix_append _ _).isInfix
  | some entries =>
      rw [splitOptions, Text.splitText?, writtenOptions, String.toList_append, String.toList_append,
        Text.splitAtFirst?_of_first nonempty first]
      simp only [Option.map_some, String.ofList_toList, Text.beforeTail?_append,
        TagOptions.read_writtenBlock, Except.map, Option.getD_some]

theorem read_of_split {textNode : NodeId} {rawText : String} {options : TagOptions}
    (split : splitOptions delimiters (innerText delimiters rawText) = .ok (head, options))
    (splitHead : splitKind delimiters head = (kind, name)) :
    read delimiters textNode rawText =
      .ok { name := Text.trim name, rawText, kind, options, textNode } := by
  unfold read
  rw [split]
  simp only [splitHead]

theorem split_of_read {textNode : NodeId} {rawText : String} {tag : Tag}
    (reads : read delimiters textNode rawText = .ok tag) :
    ∃ head name, splitOptions delimiters (innerText delimiters rawText) = .ok (head, tag.options) ∧
      splitKind delimiters head = (tag.kind, name) ∧ tag.name = Text.trim name := by
  unfold read at reads
  rcases split : splitOptions delimiters (innerText delimiters rawText) with cause | ⟨head, options⟩
  · rw [split] at reads
    cases reads
  · rcases splitHead : splitKind delimiters head with ⟨kind, name⟩
    rw [split] at reads
    simp only [splitHead, Except.ok.injEq] at reads
    subst reads
    exact ⟨head, name, rfl, splitHead, rfl⟩

/-- The marker of options and what follows it do not belong to the head. -/
theorem length_lt_of_splitOptions {inner : String} {options : TagOptions}
    (nonempty : delimiters.tagOptionsStart.toList ≠ [])
    (marked : delimiters.tagOptionsStart.toList <:+: inner.toList)
    (split : splitOptions delimiters inner = .ok (head, options)) : head.length < inner.length := by
  rw [splitOptions, Text.splitText?] at split
  rcases found : Text.splitAtFirst? delimiters.tagOptionsStart.toList inner.toList
    with _ | ⟨before, after⟩
  · exact absurd marked ((Text.splitAtFirst?_eq_none nonempty).mp found)
  · have whole := Text.append_of_splitAtFirst? nonempty found
    have positive := List.length_pos_iff.mpr nonempty
    have lengths := congrArg List.length whole
    rw [found] at split
    simp only [Option.map_some] at split
    split at split
    · cases split
    · next block isBlock =>
        rcases reads : TagOptions.read block with cause | entries
        · rw [reads] at split
          cases split
        · rw [reads] at split
          simp only [Except.map, Except.ok.injEq, Prod.mk.injEq] at split
          rw [← split.1, String.length_ofList, ← String.length_toList, lengths]
          simp only [List.length_append]
          omega

/-- A written tag is read back with its kind, its name and its options, the last one under each
key. -/
theorem read_written (textNode : NodeId) (valid : delimiters.validate = .ok ())
    (apart : MarksApart delimiters) (isTrimmed : Text.trim name = name)
    (unmarked : kind = .leaf → ∀ tried ∈ kindMarks delimiters, ¬tried.1.toList <+: name.toList)
    (first : ¬delimiters.tagOptionsStart.toList <:+:
      (markOf delimiters kind ++ name ++ delimiters.tagOptionsStart).toList.dropLast)
    (block : Option (List TagOptions.Entry))
    (blank : ∀ char ∈ before.toList ++ after.toList, Text.isBlank char = true) :
    ∃ options, Data.Fields.Collects ((block.getD []).map TagOptions.Entry.pair) options ∧
      read delimiters textNode (written delimiters kind name block before after) =
        .ok { name, rawText := written delimiters kind name block before after, kind, options,
              textNode } := by
  have inner : innerText delimiters (written delimiters kind name block before after) =
      markOf delimiters kind ++ name ++ writtenOptions delimiters block := by
    have body : Text.IsTrimmed
        (markOf delimiters kind ++ name ++ writtenOptions delimiters block).toList := by
      rw [String.toList_append, String.toList_append]
      exact ((isTrimmed_markOf valid kind).append (isTrimmed_of_trim isTrimmed)).append
        (isTrimmed_writtenOptions valid block)
    rw [written, innerText_between]
    exact Text.trim_around (fun char isMember => blank char (List.mem_append_left _ isMember))
      (fun char isMember => blank char (List.mem_append_right _ isMember)) body
  have split := splitOptions_written block (isTrimmed_tagOptionsStart valid).1 first
  have splitHead := splitKind_eq_iff.mpr (not_prefix_of_marksApart apart unmarked)
  refine ⟨_, Data.Fields.collects_ofPairs _, ?_⟩
  rw [read_of_split (inner ▸ split) splitHead, isTrimmed]

/-- Standard marks between double braces. -/
def doubleBraced : Delimiters := { tagStart := "\x7b\x7b", tagEnd := "\x7d\x7d" }

/-- A tag with blanks around its inner text. -/
def rowsTag : String := "\x7b\x7b %rows[\"limit\"=1, \"limit\"=-2, \"note\"=\"a, [b]\"]\n\x7d\x7d"

/-- Its entries, which give one key twice and hold the markers of options and a comma. -/
def rowOptions : List TagOptions.Entry :=
  [⟨"limit", by decide, .integer 1 (by decide)⟩, ⟨"limit", by decide, .integer (-2) (by decide)⟩,
    ⟨"note", by decide, .string "a, [b]" (by decide)⟩]

theorem read_written_rows :
    doubleBraced.validate = .ok () ∧ MarksApart doubleBraced ∧
      ∃ options, Data.Fields.find? options "limit" = some (.number (.integer (-2))) ∧
        read doubleBraced ⟨4⟩ rowsTag =
          .ok { name := "rows", rawText := rowsTag, kind := .opening .tableLoop, options,
                textNode := ⟨4⟩ } := by
  have valid : doubleBraced.validate = .ok () := rfl
  have apart : MarksApart doubleBraced := by decide +kernel
  have isTrimmed : Text.trim "rows" = "rows" := by decide
  have first : ¬doubleBraced.tagOptionsStart.toList <:+:
      (markOf doubleBraced (.opening .tableLoop) ++ "rows" ++
        doubleBraced.tagOptionsStart).toList.dropLast := by decide +kernel
  have blank : ∀ char ∈ " ".toList ++ "\n".toList, Text.isBlank char = true :=
    Text.forall_of_all (by decide)
  have source : written doubleBraced (.opening .tableLoop) "rows" (some rowOptions) " " "\n" =
      rowsTag := by decide +kernel
  rcases read_written ⟨4⟩ valid apart isTrimmed
    (fun isLeaf : TagKind.opening .tableLoop = .leaf => nomatch isLeaf) first (some rowOptions)
    blank with ⟨options, collects, reads⟩
  rw [source] at reads
  refine ⟨valid, apart, options, ?_, reads⟩
  rw [collects.find?_eq]
  simp [rowOptions, TagOptions.Entry.pair, TagOptions.Literal.value, List.lookup_cons]

/-- Which kinds of tags can be written with accepted markers: those whose mark, followed by a name,
neither holds the marker of options nor begins with a mark that is tried earlier. Nothing in
`Delimiters.validate` sees to that. -/
theorem read_marked_iff (textNode : NodeId) (valid : delimiters.validate = .ok ())
    (isTrimmed : Text.trim name = name) :
    (∃ tag, read delimiters textNode
        (delimiters.tagStart ++ (markOf delimiters kind ++ name ++ delimiters.tagEnd)) = .ok tag ∧
          tag.kind = kind ∧ tag.name = name) ↔
      ¬delimiters.tagOptionsStart.toList <:+: (markOf delimiters kind ++ name).toList ∧
        ∀ tried ∈ triedBefore delimiters kind,
          ¬tried.1.toList <+: (markOf delimiters kind ++ name).toList := by
  have body : Text.IsTrimmed (markOf delimiters kind ++ name).toList := by
    rw [String.toList_append]
    exact (isTrimmed_markOf valid kind).append (isTrimmed_of_trim isTrimmed)
  have inner : innerText delimiters
      (delimiters.tagStart ++ (markOf delimiters kind ++ name ++ delimiters.tagEnd)) =
        markOf delimiters kind ++ name := by
    rw [innerText_between, Text.trim, Text.trimChars_eq_self.mpr body, String.ofList_toList]
  have nonempty := (isTrimmed_tagOptionsStart valid).1
  constructor
  · rintro ⟨tag, reads, rfl, isName⟩
    rcases split_of_read reads with ⟨head, rest, split, splitHead, isTrim⟩
    rw [inner] at split
    have whole := markOf_append_of_splitKind splitHead
    rw [isName] at isTrim
    by_cases marked :
        delimiters.tagOptionsStart.toList <:+: (markOf delimiters tag.kind ++ name).toList
    · -- The rest of the head is shorter than the name, which it has to be after trimming.
      have shorter := length_lt_of_splitOptions nonempty marked split
      have atMost := Text.length_trimChars_le rest.toList
      rw [← whole, String.length_append, String.length_append] at shorter
      rw [isTrim, Text.trim, String.length_ofList, ← String.length_toList (s := rest)] at shorter
      omega
    · rw [splitOptions_of_none nonempty marked, Except.ok.injEq, Prod.mk.injEq] at split
      rw [← split.1] at whole splitHead
      have isRest : rest = name := String.append_right_inj _ |>.mp whole
      rw [isRest] at splitHead
      exact ⟨marked, splitKind_eq_iff.mp splitHead⟩
  · rintro ⟨unmarked, notEarlier⟩
    have split : splitOptions delimiters (innerText delimiters
        (delimiters.tagStart ++ (markOf delimiters kind ++ name ++ delimiters.tagEnd))) =
          .ok (markOf delimiters kind ++ name, []) := by
      rw [inner]
      exact splitOptions_of_none nonempty unmarked
    exact ⟨_, read_of_split split (splitKind_eq_iff.mpr notEarlier), rfl, isTrimmed⟩

end Tag

end WordTemplate
