import WordTemplate.Proofs.Container.Repetition
import WordTemplate.Proofs.Word.TextNode

/-!
# Tiers of plain documents

In a document without tables and content controls text stands in text elements, these in runs, runs
in paragraphs and paragraphs in the body. Seen from below, every node that bears text is one tier
below its parent. Edits keep this as long as what they place bears no text or is placed one tier up,
so that the place of a paragraph and what surrounds a text node are known at any time. A document
may keep nodes beside its tree, such as blanks around the outermost element. They are called stray and
do not count.
-/

namespace WordTemplate

/-- The outermost element of the main part. -/
def Word.Name.document : String := "w:document"

/-- The tier of the elements with a name. The wrapper around a copy stands in for the body. -/
def Word.tier? (name : String) : Option Nat :=
  if name = Name.text then some 1
  else if name = Name.run then some 2
  else if name = Name.paragraph then some 3
  else if name = Name.body ∨ name = Edit.wrapperName then some 4
  else if name = Name.document then some 5
  else none

namespace Document

variable {document source before middle after : Document} {id other top text child parent node : NodeId}
  {stray : NodeId → Prop}

/-- The tier of a node. Text is at the bottom. -/
def tier? (document : Document) (id : NodeId) : Option Nat :=
  if document.isText id then some 0 else (document.name? id).bind Word.tier?

/-- Whether a node is text or has text below it, stray text apart. -/
def HasText (document : Document) (stray : NodeId → Prop) (id : NodeId) : Prop :=
  ∃ text, document.isText text = true ∧ ¬stray text ∧ document.LiesIn id text

/-- Whether a node is the properties of a numbered paragraph. -/
def Numbers (document : Document) (id : NodeId) : Prop :=
  document.isNamed id Word.Name.paragraphProperties = true ∧
    ∃ number, document.parent number = some id ∧
      document.isNamed number Word.Name.numberingProperties = true

/-- Whether a node is one tier below another one. -/
def Supports (document : Document) (lower upper : NodeId) : Prop :=
  ∃ tier, document.tier? lower = some tier ∧ document.tier? upper = some (tier + 1)

/-- From a node upwards, each is one tier below the next. -/
def Stands (document : Document) (id : NodeId) : Prop :=
  ∀ child parent, document.LiesIn child id → document.parent child = some parent →
    document.Supports child parent

/-- Whatever bears text is one tier below its parent, and no paragraph is numbered. What is above a
stray node is stray. -/
structure Tiered (document : Document) (stray : NodeId → Prop) : Prop extends document.WellFormed where
  known : ∀ {id}, stray id → id.index < document.size
  apart : ∀ {child parent}, document.parent child = some parent → stray child → stray parent
  supports : ∀ {child parent}, document.parent child = some parent → document.HasText stray child →
    document.Supports child parent
  unnumbered : ∀ {properties paragraph}, document.parent properties = some paragraph →
    ¬stray paragraph → document.Numbers properties → document.isNamed paragraph Word.Name.paragraph = false

/-- Whether a node may be placed below another one. -/
structure Fits (document : Document) (stray : NodeId → Prop) (node parent : NodeId) : Prop where
  counts : ¬stray node
  stands : document.HasText stray node → document.Stands parent ∧ document.Supports node parent
  numbers : document.isNamed parent Word.Name.paragraph = true → ¬document.Numbers node
  number : document.isNamed parent Word.Name.paragraphProperties = true →
    document.isNamed node Word.Name.numberingProperties = false

/-- Below an element other than a paragraph and its properties only the tier counts. -/
theorem Fits.of_isNamed {name : String} (counts : ¬stray node)
    (stands : document.HasText stray node → document.Stands parent ∧ document.Supports node parent)
    (named : document.isNamed parent name = true) (notParagraph : name ≠ Word.Name.paragraph)
    (notProperties : name ≠ Word.Name.paragraphProperties) : document.Fits stray node parent where
  counts := counts
  stands := stands
  numbers named' := by
    rw [isNamed_eq_false named notParagraph] at named'
    cases named'
  number named' := by
    rw [isNamed_eq_false named notProperties] at named'
    cases named'

theorem HasText.above (hasText : document.HasText stray id) (inside : document.LiesIn top id) :
    document.HasText stray top := by
  rcases hasText with ⟨text, isText, counts, below⟩
  exact ⟨text, isText, counts, below.trans inside⟩

theorem HasText.of_mem_texts (wellFormed : document.WellFormed) (counts : ¬stray text)
    (isMember : text ∈ document.texts id) : document.HasText stray id :=
  have ⟨inside, isText⟩ := (mem_texts_iff wellFormed).mp isMember
  ⟨text, isText, counts, inside⟩

theorem tier?_of_isText (isText : document.isText id = true) : document.tier? id = some 0 := by
  rw [tier?, if_pos isText]

theorem tier?_of_isNamed {name : String} (named : document.isNamed id name = true) :
    document.tier? id = Word.tier? name := by
  have notText := isText_eq_false_of_isNamed named
  rw [isNamed, beq_iff_eq] at named
  rw [tier?, notText, named]
  rfl

theorem tier?_congr (name_eq : after.name? other = before.name? id)
    (isText_eq : after.isText other = before.isText id) : after.tier? other = before.tier? id := by
  rw [tier?, tier?, name_eq, isText_eq]

theorem tier?_of_content_eq (content_eq : after.content other = before.content id) :
    after.tier? other = before.tier? id :=
  tier?_congr (by rw [name?, name?, element?, element?, content_eq])
    (by rw [Document.isText, Document.isText, text?, text?, content_eq])

/-- Nodes with a tier above the bottom are elements, and not properties. -/
theorem showsChildren_of_tier? {tier : Nat} (isTier : document.tier? id = some (tier + 1)) :
    document.showsChildren id = true := by
  rw [tier?] at isTier
  split at isTier
  · simp at isTier
  rcases isName : document.name? id with _ | name
  · simp [isName] at isTier
  have named : document.isNamed id name = true := by simp [isNamed, isName]
  rw [isName, Option.bind_some, Word.tier?] at isTier
  refine showsChildren_of_isNamed named ?_
  split at isTier
  · next same =>
      subst same
      decide
  split at isTier
  · next same =>
      subst same
      decide
  split at isTier
  · next same =>
      subst same
      decide
  split at isTier
  · next same =>
      rcases same with rfl | rfl <;> decide
  split at isTier
  · next same =>
      subst same
      decide
  · cases isTier

theorem isNamed_of_tier? {tier : Nat} {name : String} (isTier : document.tier? id = some (tier + 1))
    (only : ∀ other, Word.tier? other = some (tier + 1) → other = name) :
    document.isNamed id name = true := by
  rw [tier?] at isTier
  split at isTier
  · simp at isTier
  rcases isName : document.name? id with _ | other
  · simp [isName] at isTier
  · rw [isName, Option.bind_some] at isTier
    simp [isNamed, isName, only other isTier]

theorem isNamed_text_of_tier? (isTier : document.tier? id = some 1) :
    document.isNamed id Word.Name.text = true :=
  isNamed_of_tier? isTier fun other isTier => by
    unfold Word.tier? at isTier
    split_ifs at isTier <;> simp_all

theorem isNamed_run_of_tier? (isTier : document.tier? id = some 2) :
    document.isNamed id Word.Name.run = true :=
  isNamed_of_tier? isTier fun other isTier => by
    unfold Word.tier? at isTier
    split_ifs at isTier <;> simp_all

theorem isNamed_paragraph_of_tier? (isTier : document.tier? id = some 3) :
    document.isNamed id Word.Name.paragraph = true :=
  isNamed_of_tier? isTier fun other isTier => by
    unfold Word.tier? at isTier
    split_ifs at isTier <;> simp_all

namespace Tiered

/-- What is below a node that is not stray is not stray either. -/
theorem not_stray (tiered : document.Tiered stray) (counts : ¬stray top)
    (inside : document.LiesIn top id) : ¬stray id := by
  induction inside using Relation.ReflTransGen.head_induction_on with
  | refl => exact counts
  | head isParent _ inductionHypothesis =>
      exact fun strays => inductionHypothesis (tiered.apart isParent strays)

/-- A node that is still to be added is not stray. -/
theorem not_stray_new (tiered : document.Tiered stray) (isNew : document.size ≤ id.index) :
    ¬stray id :=
  fun strays => Nat.not_lt_of_le isNew (tiered.known strays)

/-- A node that bears text has a tier. -/
theorem exists_tier (tiered : document.Tiered stray) (hasText : document.HasText stray id) :
    ∃ tier, document.tier? id = some tier := by
  rcases hasText with ⟨text, isText, counts, inside⟩
  rcases inside.cases_child with rfl | ⟨child, isParent, below⟩
  · exact ⟨0, tier?_of_isText isText⟩
  · rcases tiered.supports isParent ⟨text, isText, counts, below⟩ with ⟨tier, -, isTier⟩
    exact ⟨tier + 1, isTier⟩

theorem stands (tiered : document.Tiered stray) (hasText : document.HasText stray id) : document.Stands id :=
  fun _ _ inside isParent => tiered.supports isParent (hasText.above inside)

/-- Tiers rise with the nodes. -/
theorem tier_le (tiered : document.Tiered stray) (hasText : document.HasText stray id)
    (inside : document.LiesIn top id) {tier : Nat} (isTier : document.tier? id = some tier) :
    ∃ steps, document.tier? top = some (tier + steps) ∧ (steps = 0 → top = id) := by
  induction inside using Relation.ReflTransGen.head_induction_on generalizing tier with
  | refl => exact ⟨0, isTier, fun _ => rfl⟩
  | @head id parent isParent above inductionHypothesis =>
      rcases tiered.supports isParent hasText with ⟨same, isTier', isUpper⟩
      rw [isTier, Option.some.injEq] at isTier'
      subst isTier'
      rcases inductionHypothesis (hasText.above (LiesIn.parent isParent)) isUpper with
        ⟨steps, isTop, -⟩
      exact ⟨steps + 1, by rw [isTop]; congr 1; omega, by omega⟩

/-- All text is running text. -/
theorem runningTexts_eq_texts (tiered : document.Tiered stray) (counts : ¬stray id) :
    document.runningTexts id = document.texts id := by
  have wellFormed := tiered.toWellFormed
  have fewer := (runningTexts_sublist_subtree wellFormed id).filter document.isText
  rw [List.filter_eq_self.mpr fun text isMember =>
    isText_of_mem_runningTexts wellFormed isMember] at fewer
  refine fewer.eq_of_length_le
    ((nodup_texts wellFormed id).subperm fun text isMember => ?_).length_le
  rcases (mem_texts_iff wellFormed).mp isMember with ⟨inside, isText⟩
  refine (mem_runningTexts_iff wellFormed).mpr ⟨isText, inside, fun other _ below differ => ?_⟩
  have hasText : document.HasText stray text :=
    ⟨text, isText, tiered.not_stray counts inside, LiesIn.refl⟩
  rcases tiered.tier_le hasText below (tier?_of_isText isText) with ⟨_ | steps, isTier, same⟩
  · exact absurd (same rfl) differ
  · rw [Nat.zero_add] at isTier
    exact showsChildren_of_tier? isTier

/-- What bears text has one of the names that have a tier. -/
theorem isNamed_eq_false (tiered : document.Tiered stray) (hasText : document.HasText stray id)
    {name : String} (untiered : Word.tier? name = none) : document.isNamed id name = false := by
  by_contra named
  rw [Bool.not_eq_false] at named
  rcases tiered.exists_tier hasText with ⟨tier, isTier⟩
  rw [tier?_of_isNamed named, untiered] at isTier
  cases isTier

/-- Properties bear no text. -/
theorem isProperties_eq_false (tiered : document.Tiered stray) (hasText : document.HasText stray id) :
    document.isProperties id = false := by
  rcases tiered.exists_tier hasText with ⟨_ | tier, isTier⟩
  · rw [tier?] at isTier
    split at isTier
    · next isText => exact isProperties_eq_false_of_isText isText
    · rcases isName : document.name? id with _ | name
      · simp [isName] at isTier
      · simp only [isName, Option.bind_some, Word.tier?] at isTier
        split_ifs at isTier <;> simp_all
  · have shows := showsChildren_of_tier? isTier
    rw [showsChildren, Bool.and_eq_true] at shows
    simpa using shows.2

theorem hasText_iff (tiered : document.Tiered stray) (counts : ¬stray id) :
    document.HasText stray id ↔ document.runningTexts id ≠ [] := by
  rw [tiered.runningTexts_eq_texts counts]
  constructor
  · rintro ⟨text, isText, -, inside⟩
    exact List.ne_nil_of_mem ((mem_texts_iff tiered.toWellFormed).mpr ⟨inside, isText⟩)
  · intro nonempty
    rcases List.exists_mem_of_ne_nil _ nonempty with ⟨text, isMember⟩
    have inside := ((mem_texts_iff tiered.toWellFormed).mp isMember).1
    exact .of_mem_texts tiered.toWellFormed (tiered.not_stray counts inside) isMember

/-- What is below the body lies below one node of the next tier. -/
theorem exists_parent (tiered : document.Tiered stray) (hasText : document.HasText stray id)
    (inside : document.LiesIn top id) {tier upper : Nat} (isTier : document.tier? id = some tier)
    (isTop : document.tier? top = some upper) (lower : tier < upper) :
    ∃ parent, document.parent id = some parent ∧ document.LiesIn top parent ∧
      document.HasText stray parent ∧ document.tier? parent = some (tier + 1) := by
  rcases inside.cases_parent with rfl | ⟨parent, isParent, above⟩
  · rw [isTier, Option.some.injEq] at isTop
    omega
  · rcases tiered.supports isParent hasText with ⟨same, isTier', isUpper⟩
    rw [isTier, Option.some.injEq] at isTier'
    exact ⟨parent, isParent, above, hasText.above (LiesIn.parent isParent), isTier' ▸ isUpper⟩

end Tiered

/-- The text element, the run and the paragraph around a text node, and what the paragraph is in. -/
structure Sits (document : Document) (host paragraph run unit text : NodeId) : Prop where
  unitIs : document.parent text = some unit
  unitNamed : document.isNamed unit Word.Name.text = true
  runIs : document.parent unit = some run
  runNamed : document.isNamed run Word.Name.run = true
  paragraphIs : document.parent run = some paragraph
  paragraphNamed : document.isNamed paragraph Word.Name.paragraph = true
  hostIs : document.parent paragraph = some host

theorem Tiered.exists_sits (tiered : document.Tiered stray) (isText : document.isText text = true)
    (counts : ¬stray top) (inside : document.LiesIn top text) (isTop : document.tier? top = some 4) :
    ∃ paragraph run unit, document.Sits top paragraph run unit text := by
  have hasText : document.HasText stray text :=
    ⟨text, isText, tiered.not_stray counts inside, LiesIn.refl⟩
  rcases tiered.exists_parent hasText inside (tier?_of_isText isText) isTop (by decide) with
    ⟨unit, unitIs, inside, hasText, isUnit⟩
  rcases tiered.exists_parent hasText inside isUnit isTop (by decide) with
    ⟨run, runIs, inside, hasText, isRun⟩
  rcases tiered.exists_parent hasText inside isRun isTop (by decide) with
    ⟨paragraph, paragraphIs, inside, hasText, isParagraph⟩
  rcases tiered.exists_parent hasText inside isParagraph isTop (by decide) with
    ⟨host, hostIs, inside, hasText, isHost⟩
  rcases tiered.tier_le hasText inside isHost with ⟨steps, isTop', same⟩
  rw [isTop, Option.some.injEq] at isTop'
  rw [← same (by omega)] at hostIs
  exact ⟨paragraph, run, unit, unitIs, isNamed_text_of_tier? isUnit, runIs,
    isNamed_run_of_tier? isRun, paragraphIs, isNamed_paragraph_of_tier? isParagraph, hostIs⟩

namespace Sits

variable {host paragraph run unit : NodeId} (sits : document.Sits host paragraph run unit text)
include sits

theorem ancestors_eq (wellFormed : document.WellFormed) : document.ancestors text =
    unit :: run :: paragraph :: host :: document.ancestors host := by
  rw [ancestors_of_parent wellFormed sits.unitIs, ancestors_of_parent wellFormed sits.runIs,
    ancestors_of_parent wellFormed sits.paragraphIs, ancestors_of_parent wellFormed sits.hostIs]

theorem textElement?_eq : document.textElement? text = some unit := by
  rw [textElement?, sits.unitIs, Option.filter_some, if_pos sits.unitNamed]

theorem textUnit_eq : document.textUnit text = unit := by
  rw [textUnit, sits.textElement?_eq, Option.getD_some]

theorem paragraph?_eq (wellFormed : document.WellFormed) (isText : document.isText text = true) :
    document.paragraph? text = some paragraph := by
  have notNamed : ∀ {id name}, document.isNamed id name = true → name ≠ Word.Name.paragraph →
      document.isNamed id Word.Name.paragraph = false := by
    intro id name named differ
    rw [isNamed, beq_iff_eq] at named
    simpa [isNamed, named] using differ
  rw [paragraph?, ancestorNamed?, sits.ancestors_eq wellFormed, List.find?_cons_of_neg,
    List.find?_cons_of_neg, List.find?_cons_of_neg, List.find?_cons_of_pos]
  · exact sits.paragraphNamed
  · simp [notNamed sits.runNamed (by decide)]
  · simp [notNamed sits.unitNamed (by decide)]
  · simp only [Bool.not_eq_true]
    by_contra named
    rw [Bool.not_eq_false] at named
    rw [isText_eq_false_of_isNamed named] at isText
    cases isText

theorem isHost (tiered : document.Tiered stray) (isText : document.isText text = true)
    (counts : ¬stray text) :
    document.tier? host = some 4 := by
  have above := (LiesIn.parent sits.unitIs).trans
    ((LiesIn.parent sits.runIs).trans (LiesIn.parent sits.paragraphIs))
  rcases tiered.supports sits.hostIs ⟨text, isText, counts, above⟩ with ⟨tier, isLower, isUpper⟩
  rw [tier?_of_isNamed sits.paragraphNamed] at isLower
  cases isLower
  exact isUpper

theorem paragraph_lies : document.LiesIn paragraph text :=
  (LiesIn.parent sits.unitIs).trans ((LiesIn.parent sits.runIs).trans (LiesIn.parent sits.paragraphIs))

end Sits

/-! ## Edits between the tiers -/

theorem Supports.congr {lower upper lower' upper' : NodeId} (supports : before.Supports lower upper)
    (lower_eq : after.tier? lower' = before.tier? lower)
    (upper_eq : after.tier? upper' = before.tier? upper) : after.Supports lower' upper' := by
  rcases supports with ⟨tier, isLower, isUpper⟩
  exact ⟨tier, lower_eq.trans isLower, upper_eq.trans isUpper⟩

theorem LiesIn.of_parents (inside : after.LiesIn top id)
    (parents : ∀ child parent, after.parent child = some parent →
      before.parent child = some parent) : before.LiesIn top id := by
  induction inside using Relation.ReflTransGen.head_induction_on with
  | refl => exact LiesIn.refl
  | head isParent _ inductionHypothesis =>
      exact LiesIn.of_parent (parents _ _ isParent) inductionHypothesis

/-- Edits that only take nodes out of their places keep the tiers. -/
theorem Tiered.of_parents (tiered : before.Tiered stray) (wellFormed : after.WellFormed)
    (parents : ∀ {child parent}, after.parent child = some parent →
      before.parent child = some parent)
    (size_le : before.size ≤ after.size) (name_eq : ∀ id, after.name? id = before.name? id)
    (isText_eq : ∀ id, after.isText id = before.isText id) : after.Tiered stray where
  toWellFormed := wellFormed
  known strays := Nat.lt_of_lt_of_le (tiered.known strays) size_le
  apart isParent strays := tiered.apart (parents isParent) strays
  supports := by
    rintro child parent isParent ⟨text, isText, counts, inside⟩
    rw [isText_eq] at isText
    have inside : before.LiesIn child text := inside.of_parents fun _ _ => parents
    exact (tiered.supports (parents isParent) ⟨text, isText, counts, inside⟩).congr
      (tier?_congr (name_eq _) (isText_eq _)) (tier?_congr (name_eq _) (isText_eq _))
  unnumbered := by
    rintro properties paragraph isParent counts ⟨named, number, isNumber, numbering⟩
    rw [isNamed, name_eq, ← isNamed] at named numbering ⊢
    exact tiered.unnumbered (parents isParent) counts ⟨named, number, parents isNumber, numbering⟩

theorem tier?_detach (wellFormed : document.WellFormed) (node id : NodeId) :
    (document.detach node).tier? id = document.tier? id :=
  tier?_congr (by rw [name?, element?, content_detach wellFormed, ← element?, ← name?])
    (by rw [Document.isText, text?, content_detach wellFormed, ← text?, ← Document.isText])

theorem Tiered.detach (tiered : document.Tiered stray) (id : NodeId) : (document.detach id).Tiered stray := by
  have wellFormed := tiered.toWellFormed
  refine tiered.of_parents (wellFormed.detach id) (fun {child parent} isParent => ?_)
    (Nat.le_of_eq (size_detach _ _).symm) (fun other => ?_) fun other => ?_
  · rw [parent_detach wellFormed] at isParent
    split at isParent
    · cases isParent
    · exact isParent
  · rw [name?, element?, content_detach wellFormed, ← element?, ← name?]
  · rw [Document.isText, text?, content_detach wellFormed, ← text?, ← Document.isText]

/-- Adding a detached node keeps the tiers. -/
theorem Tiered.add (tiered : document.Tiered stray) (content : Content) :
    (document.add content).Tiered stray := by
  have wellFormed := tiered.toWellFormed
  have content_eq : ∀ {id}, id.index < document.size →
      (document.add content).content id = document.content id := by
    intro id isOld
    rw [content_add, if_neg]
    rintro rfl
    exact Nat.lt_irrefl _ isOld
  have tier_eq : ∀ {id}, id.index < document.size →
      (document.add content).tier? id = document.tier? id := fun isOld =>
    tier?_congr (by rw [name?, element?, content_eq isOld, ← element?, ← name?])
      (by rw [Document.isText, text?, content_eq isOld, ← text?, ← Document.isText])
  have parents : ∀ child parent, (document.add content).parent child = some parent →
      document.parent child = some parent := fun child parent isParent => by rwa [parent_add] at isParent
  refine ⟨wellFormed.add content, fun strays => ?_,
    fun isParent strays => tiered.apart (parents _ _ isParent) strays, ?_, ?_⟩
  · rw [size_add]
    exact Nat.lt_succ_of_lt (tiered.known strays)
  · rintro child parent isParent ⟨text, isText, counts, inside⟩
    have isParent := parents child parent isParent
    have inside : document.LiesIn child text := inside.of_parents parents
    have isOld := lt_size_below inside (lt_size_of_parent isParent)
    rw [Document.isText, text?, content_eq isOld] at isText
    exact (tiered.supports isParent ⟨text, isText, counts, inside⟩).congr
      (tier_eq (lt_size_of_parent isParent)) (tier_eq (parent_lt_size wellFormed isParent))
  · rintro properties paragraph isParent counts ⟨named, number, isNumber, numbering⟩
    have isParent := parents _ _ isParent
    have isNumber := parents _ _ isNumber
    rw [isNamed, name?, element?, content_eq (lt_size_of_parent isParent)] at named
    rw [isNamed, name?, element?, content_eq (lt_size_of_parent isNumber)] at numbering
    rw [isNamed, name?, element?, content_eq (parent_lt_size wellFormed isParent)]
    exact tiered.unnumbered isParent counts ⟨named, number, isNumber, numbering⟩

/-- Placing a node where it fits keeps the tiers. -/
theorem Tiered.moves {left right : List NodeId} (tiered : before.Tiered stray)
    (moves : Moves before after node parent left right) (fits : before.Fits stray node parent) :
    after.Tiered stray := by
  have name_eq : ∀ id, after.name? id = before.name? id := fun id => by
    rw [name?, element?, moves.content_eq, ← element?, ← name?]
  have tier_eq : ∀ id, after.tier? id = before.tier? id := fun id =>
    tier?_congr (name_eq id) (moves.isText_eq id)
  have isNamed_eq : ∀ id name, after.isNamed id name = before.isNamed id name := fun id name => by
    rw [isNamed, name_eq, ← isNamed]
  refine ⟨moves.wellFormed, fun strays => ?_, fun isParent strays => ?_, ?_, ?_⟩
  · rw [moves.size_eq]
    exact tiered.known strays
  · rw [moves.parent_eq] at isParent
    split at isParent
    · next same => exact absurd (same ▸ strays) fits.counts
    · exact tiered.apart isParent strays
  · rintro child upper isParent ⟨text, isText, counts, inside⟩
    rw [moves.isText_eq] at isText
    rw [moves.parent_eq] at isParent
    refine Supports.congr ?_ (tier_eq child) (tier_eq upper)
    split at isParent
    · next same =>
      cases isParent
      subst same
      refine (fits.stands ?_).2
      rcases moves.liesIn_cases inside with inside | ⟨inside, -⟩ <;>
        exact ⟨text, isText, counts, inside⟩
    · rcases moves.liesIn_cases inside with inside | ⟨inside, above⟩
      · exact tiered.supports isParent ⟨text, isText, counts, inside⟩
      · exact (fits.stands ⟨text, isText, counts, inside⟩).1 child upper above isParent
  · rintro properties paragraph isParent counts ⟨named, number, isNumber, numbering⟩
    rw [isNamed_eq] at named numbering ⊢
    have numbers : before.Numbers properties := by
      refine ⟨named, number, ?_, numbering⟩
      rw [moves.parent_eq] at isNumber
      split at isNumber
      · next same =>
        cases isNumber
        rw [same, fits.number named] at numbering
        cases numbering
      · exact isNumber
    rw [moves.parent_eq] at isParent
    split at isParent
    · next same =>
      cases isParent
      by_contra named
      exact fits.numbers (by simpa using named) (same ▸ numbers)
    · exact tiered.unnumbered isParent counts numbers

theorem Moves.tier_eq {left right : List NodeId} (moves : Moves before after node parent left right)
    (id : NodeId) : after.tier? id = before.tier? id :=
  tier?_congr (by rw [name?, element?, moves.content_eq, ← element?, ← name?]) (moves.isText_eq id)

/-- What is above a node stands as long as it stays where it is. -/
theorem Stands.congr (stands : before.Stands id)
    (parent_eq : ∀ above, before.LiesIn above id → after.parent above = before.parent above)
    (tier_eq : ∀ above, before.LiesIn above id → after.tier? above = before.tier? above) :
    after.Stands id := by
  intro child upper inside isParent
  rw [liesIn_iff_of_parent_eq parent_eq] at inside
  rw [parent_eq child inside] at isParent
  exact (stands child upper inside isParent).congr (tier_eq child inside)
    (tier_eq upper (inside.trans (LiesIn.parent isParent)))

theorem Stands.of_parent (stands : document.Stands parent) (isParent : document.parent child = some parent)
    (supports : document.Supports child parent) : document.Stands child := by
  intro lower upper inside isUpper
  rcases inside.cases_above isParent with rfl | above
  · rw [isParent, Option.some.injEq] at isUpper
    exact isUpper ▸ supports
  · exact stands lower upper above isUpper

theorem stands_of_detached (detached : document.parent id = none) : document.Stands id := by
  intro child parent inside isParent
  rw [inside.eq_of_parent_none detached, isParent] at detached
  cases detached

theorem Moves.stands {left right : List NodeId} (moves : Moves before after node parent left right)
    (stands : before.Stands id) (apart : ¬before.LiesIn node id) : after.Stands id :=
  stands.congr (fun above inside => by
    rw [moves.parent_eq, if_neg]
    rintro rfl
    exact apart inside) fun above _ => moves.tier_eq above

/-- What fits below a node still does after another node was placed there. -/
theorem Fits.moves {left right : List NodeId} (fits : before.Fits stray other parent)
    (moves : Moves before after node parent left right) (outside : ¬before.LiesIn other parent) :
    after.Fits stray other parent ∧ ¬after.LiesIn other parent := by
  refine ⟨⟨fits.counts, ?_, ?_, ?_⟩, fun inside => ?_⟩
  · rintro ⟨text, isText, counts, inside⟩
    rw [moves.isText_eq] at isText
    rcases moves.liesIn_cases inside with inside | ⟨-, inside⟩
    · rcases fits.stands ⟨text, isText, counts, inside⟩ with ⟨stands, supports⟩
      exact ⟨moves.stands stands moves.outside,
        supports.congr (moves.tier_eq other) (moves.tier_eq parent)⟩
    · exact absurd inside outside
  · rintro named ⟨named', number, isNumber, numbering⟩
    rw [moves.isNamed_eq] at named named' numbering
    rw [moves.parent_eq] at isNumber
    split at isNumber
    · cases isNumber
      exact outside LiesIn.refl
    · exact fits.numbers named ⟨named', number, isNumber, numbering⟩
  · intro named
    rw [moves.isNamed_eq] at named ⊢
    exact fits.number named
  · rcases moves.liesIn_cases inside with inside | ⟨-, inside⟩ <;> exact outside inside

/-- Text below `host` stands in paragraphs of `host`, even if there is none yet. -/
structure Housed (document : Document) (stray : NodeId → Prop) (host : NodeId) : Prop
    extends document.Tiered stray where
  counts : ¬stray host
  isHost : document.tier? host = some 4
  stands : document.Stands host

namespace Housed

variable {host : NodeId}

theorem lt_size (housed : document.Housed stray host) : host.index < document.size := by
  have isHost := housed.isHost
  rw [tier?] at isHost
  split at isHost
  · cases isHost
  · rcases isName : document.name? host with _ | name
    · simp [isName] at isHost
    · exact lt_size_of_name? isName

theorem shows (housed : document.Housed stray host) : document.showsChildren host = true :=
  showsChildren_of_tier? housed.isHost

theorem of_moves {left right : List NodeId} (housed : before.Housed stray host)
    (moves : Moves before after node parent left right) (tiered : after.Tiered stray)
    (apart : ¬before.LiesIn node host) : after.Housed stray host where
  toTiered := tiered
  counts := housed.counts
  isHost := (moves.tier_eq host).trans housed.isHost
  stands := moves.stands housed.stands apart

theorem detach (housed : document.Housed stray host) (id : NodeId) :
    (document.detach id).Housed stray host where
  toTiered := housed.toTiered.detach id
  counts := housed.counts
  isHost := by
    have wellFormed := housed.toTiered.toWellFormed
    rw [tier?_detach wellFormed, housed.isHost]
  stands := by
    have wellFormed := housed.toTiered.toWellFormed
    intro child parent inside isParent
    rw [parent_detach wellFormed] at isParent
    split at isParent
    · cases isParent
    exact (housed.stands child parent (liesIn_of_liesIn_detach wellFormed inside) isParent).congr
      (tier?_detach wellFormed id child) (tier?_detach wellFormed id parent)

end Housed

/-- A node of the document after copying is old, or it is a copy of an old one. -/
def StandsFor (before : Document) (pairs : List (NodeId × NodeId)) (later earlier : NodeId) : Prop :=
  later.index < before.size ∧ later = earlier ∨ (earlier, later) ∈ pairs

namespace Copies

variable {ids roots : List NodeId} {pairs : List (NodeId × NodeId)} {later earlier upper : NodeId}
  (copied : Copies before before after none ids roots pairs)
include copied

theorem exists_standsFor (inStore : later.index < after.size) :
    ∃ earlier, StandsFor before pairs later earlier := by
  by_cases isOld : later.index < before.size
  · exact ⟨later, Or.inl ⟨isOld, rfl⟩⟩
  · rw [copied.size_eq] at inStore
    have isCopy : later ∈ pairs.map Prod.snd := by
      rw [copied.copies, List.mem_map]
      exact ⟨later.index, List.mem_range'_1.mpr ⟨Nat.le_of_not_lt isOld, inStore⟩, rfl⟩
    rcases List.mem_map.mp isCopy with ⟨pair, isPair, rfl⟩
    exact ⟨pair.1, Or.inr isPair⟩

theorem content_standsFor (standsFor : StandsFor before pairs later earlier) :
    after.content later = before.content earlier := by
  rcases standsFor with ⟨isOld, rfl⟩ | isPair
  · exact copied.retains.content_eq isOld
  · exact copied.content_eq _ isPair

theorem parent_standsFor (wellFormed : before.WellFormed)
    (standsFor : StandsFor before pairs later earlier) (isParent : after.parent later = some upper) :
    ∃ original, StandsFor before pairs upper original ∧ before.parent earlier = some original := by
  rcases standsFor with ⟨isOld, rfl⟩ | isPair
  · rw [copied.retains.parent_eq isOld] at isParent
    exact ⟨upper, Or.inl ⟨parent_lt_size wellFormed isParent, rfl⟩, isParent⟩
  · rcases copied.exists_parent wellFormed wellFormed isPair isParent with
      ⟨original, isPair', isParent'⟩
    exact ⟨original, Or.inr isPair', isParent'⟩

theorem liesIn_standsFor (wellFormed : before.WellFormed)
    (standsFor : StandsFor before pairs later earlier) (inside : after.LiesIn upper later) :
    ∃ original, StandsFor before pairs upper original ∧ before.LiesIn original earlier := by
  induction inside using Relation.ReflTransGen.head_induction_on generalizing earlier with
  | refl => exact ⟨earlier, standsFor, LiesIn.refl⟩
  | head isParent _ inductionHypothesis =>
      rcases copied.parent_standsFor wellFormed standsFor isParent with ⟨above, isAbove, isParent'⟩
      rcases inductionHypothesis isAbove with ⟨original, isOriginal, inside⟩
      exact ⟨original, isOriginal, LiesIn.of_parent isParent' inside⟩

theorem eq_of_pair {other : NodeId} (isPair : (earlier, later) ∈ pairs)
    (standsFor : StandsFor before pairs later other) : other = earlier := by
  rcases standsFor with ⟨isOld, -⟩ | isPair'
  · exact absurd isOld (Nat.not_lt_of_le (copied.le_index isPair).1)
  · exact congrArg Prod.fst (List.inj_on_of_nodup_map copied.nodup_copies isPair' isPair rfl)

theorem numbers_of_pair (wellFormed : before.WellFormed) (isPair : (earlier, later) ∈ pairs)
    (numbers : after.Numbers later) : before.Numbers earlier := by
  rcases numbers with ⟨named, number, isNumber, numbering⟩
  rcases copied.exists_standsFor (lt_size_of_parent isNumber) with ⟨source, isSource⟩
  rcases copied.parent_standsFor wellFormed isSource isNumber with ⟨original, isOriginal, isNumber'⟩
  rw [copied.eq_of_pair isPair isOriginal] at isNumber'
  have content_eq := copied.content_eq _ isPair
  have content_eq' := copied.content_standsFor isSource
  rw [isNamed_of_content_eq content_eq] at named
  rw [isNamed_of_content_eq content_eq'] at numbering
  exact ⟨named, source, isNumber', numbering⟩

/-- What a node stands for is not stray if neither the node nor anything copied is. -/
theorem not_stray (tiered : before.Tiered stray) (count : ∀ id ∈ ids, ¬stray id)
    (standsFor : StandsFor before pairs later earlier) (counts : ¬stray later) : ¬stray earlier := by
  rcases standsFor with ⟨-, rfl⟩ | isPair
  · exact counts
  · have isSource : earlier ∈ ids.flatMap before.subtree :=
      copied.sources ▸ List.mem_map_of_mem isPair
    rcases List.mem_flatMap.mp isSource with ⟨id, isMember, inside⟩
    exact tiered.not_stray (count id isMember) ((mem_subtree_iff tiered.toWellFormed).mp inside)

/-- Copies stand as what was copied. -/
theorem tiered (tiered : before.Tiered stray) (count : ∀ id ∈ ids, ¬stray id) :
    after.Tiered stray := by
  have wellFormed := tiered.toWellFormed
  have isText_eq : ∀ {later earlier}, StandsFor before pairs later earlier →
      after.isText later = before.isText earlier := fun standsFor => by
    rw [Document.isText, text?, copied.content_standsFor standsFor, ← text?, ← Document.isText]
  have name_eq : ∀ {later earlier}, StandsFor before pairs later earlier →
      after.name? later = before.name? earlier := fun standsFor => by
    rw [name?, element?, copied.content_standsFor standsFor, ← element?, ← name?]
  refine ⟨copied.wellFormed, fun strays => Nat.lt_of_lt_of_le (tiered.known strays) ?_,
    fun {child upper} isParent strays => ?_, ?_, ?_⟩
  · exact copied.retains.size_le
  · rw [copied.retains.parent_eq (tiered.known strays)] at isParent
    exact tiered.apart isParent strays
  · rintro child upper isParent ⟨text, isText, counts, inside⟩
    have inStore := lt_size_below inside (lt_size_of_parent isParent)
    rcases copied.exists_standsFor inStore with ⟨source, isSource⟩
    rw [isText_eq isSource] at isText
    rcases copied.liesIn_standsFor wellFormed isSource inside with ⟨lower, isLower, inside⟩
    rcases copied.parent_standsFor wellFormed isLower isParent with ⟨above, isAbove, isParent'⟩
    exact (tiered.supports isParent'
      ⟨source, isText, copied.not_stray tiered count isSource counts, inside⟩).congr
      (tier?_congr (name_eq isLower) (isText_eq isLower))
      (tier?_congr (name_eq isAbove) (isText_eq isAbove))
  · rintro properties paragraph isParent counts ⟨named, number, isNumber, numbering⟩
    rcases copied.exists_standsFor (lt_size_of_parent isNumber) with ⟨source, isSource⟩
    rcases copied.parent_standsFor wellFormed isSource isNumber with ⟨middle, isMiddle, isNumber'⟩
    rcases copied.parent_standsFor wellFormed isMiddle isParent with ⟨upper, isUpper, isParent'⟩
    rw [isNamed, name_eq isMiddle, ← isNamed] at named
    rw [isNamed, name_eq isSource, ← isNamed] at numbering
    rw [isNamed, name_eq isUpper, ← isNamed]
    exact tiered.unnumbered isParent' (copied.not_stray tiered count isUpper counts)
      ⟨named, source, isNumber', numbering⟩

theorem hasText_standsFor (tiered : before.Tiered stray) (count : ∀ id ∈ ids, ¬stray id)
    (standsFor : StandsFor before pairs later earlier) (inStore : later.index < after.size)
    (hasText : after.HasText stray later) : before.HasText stray earlier := by
  have wellFormed := tiered.toWellFormed
  rcases hasText with ⟨text, isText, counts, inside⟩
  have textInStore : text.index < after.size := lt_size_below inside inStore
  rcases copied.exists_standsFor textInStore with ⟨source, isSource⟩
  rcases copied.liesIn_standsFor wellFormed isSource inside with ⟨original, isOriginal, inside⟩
  have same : original = earlier := by
    rcases standsFor with ⟨isOld, rfl⟩ | isPair
    · rcases isOriginal with ⟨-, rfl⟩ | isPair'
      · rfl
      · exact absurd isOld (Nat.not_lt_of_le (copied.le_index isPair').1)
    · exact copied.eq_of_pair isPair isOriginal
  refine ⟨source, ?_, copied.not_stray tiered count isSource counts, same ▸ inside⟩
  rwa [Document.isText, text?, copied.content_standsFor isSource, ← text?, ← Document.isText] at isText

end Copies

/-- A node that may be a child of the body: it is not stray, and a paragraph as far as it bears
text. -/
def IsBlock (document : Document) (stray : NodeId → Prop) (id : NodeId) : Prop :=
  ¬stray id ∧ (document.HasText stray id → document.tier? id = some 3)

theorem Copies.isBlock {ids roots : List NodeId} {pairs : List (NodeId × NodeId)} {later earlier : NodeId}
    (copied : Copies before before after none ids roots pairs) (tiered : before.Tiered stray)
    (count : ∀ id ∈ ids, ¬stray id) (standsFor : StandsFor before pairs later earlier)
    (inStore : later.index < after.size) (isBlock : before.IsBlock stray earlier) :
    after.IsBlock stray later := by
  refine ⟨?_, fun hasText => ?_⟩
  · rcases standsFor with ⟨-, rfl⟩ | isPair
    · exact isBlock.1
    · exact tiered.not_stray_new (copied.le_index isPair).1
  rw [← isBlock.2 (copied.hasText_standsFor tiered count standsFor inStore hasText)]
  exact tier?_congr
    (by rw [name?, element?, copied.content_standsFor standsFor, ← element?, ← name?])
    (by rw [Document.isText, text?, copied.content_standsFor standsFor, ← text?, ← Document.isText])

/-- What bears text below a host is a paragraph. -/
theorem Housed.isBlock {host : NodeId} (housed : document.Housed stray host)
    (isParent : document.parent id = some host) : document.IsBlock stray id := by
  refine ⟨housed.not_stray housed.counts (LiesIn.parent isParent), fun hasText => ?_⟩
  rcases housed.supports isParent hasText with ⟨tier, isLower, isUpper⟩
  rw [housed.isHost, Option.some.injEq] at isUpper
  rw [isLower]
  congr 1
  omega

/-- Nodes that are taken out of their places stay blocks. -/
theorem IsBlock.drops {dropped : List NodeId} (isBlock : before.IsBlock stray id)
    (drops : Drops before after dropped) : after.IsBlock stray id := by
  refine ⟨isBlock.1, ?_⟩
  rintro ⟨text, isText, counts, inside⟩
  have isText_eq : ∀ id, after.isText id = before.isText id := fun id => by
    rw [Document.isText, text?, drops.content_eq, ← text?, ← Document.isText]
  rw [isText_eq] at isText
  rw [← isBlock.2 ⟨text, isText, counts, drops.liesIn inside⟩]
  exact tier?_congr (by rw [name?, element?, drops.content_eq, ← element?, ← name?]) (isText_eq id)

/-- Blocks outside the zone of a change stay blocks. -/
theorem IsBlock.changes {zone : NodeId → Prop} {rights : Rights} (isBlock : before.IsBlock stray id)
    (changes : ChangesWithin zone rights before after) (tiered : before.Tiered stray)
    (tiered' : after.Tiered stray) (inStore : id.index < before.size)
    (outside : ∀ other, before.LiesIn id other → ¬zone other) : after.IsBlock stray id := by
  refine ⟨isBlock.1, fun hasText => ?_⟩
  rw [tiered'.hasText_iff isBlock.1, changes.runningTexts_eq_of_outside tiered.toWellFormed outside,
    ← tiered.hasText_iff isBlock.1] at hasText
  rw [← isBlock.2 hasText]
  exact tier?_congr (changes.name_eq inStore) (changes.isText_eq inStore)

/-- A host stays one while nodes are added. -/
theorem Housed.retains {host : NodeId} (housed : before.Housed stray host) (retains : Retains before after)
    (tiered : after.Tiered stray) : after.Housed stray host := by
  have wellFormed := housed.toWellFormed
  have tier_eq : ∀ id, id.index < before.size → after.tier? id = before.tier? id := fun id isOld =>
    tier?_congr (by rw [name?, element?, retains.content_eq isOld, ← element?, ← name?])
      (by rw [Document.isText, text?, retains.content_eq isOld, ← text?, ← Document.isText])
  have above_lt : ∀ above, before.LiesIn above host → above.index < before.size := fun above inside =>
    lt_size_of_liesIn wellFormed inside housed.lt_size
  exact ⟨tiered, housed.counts, (tier_eq host housed.lt_size).trans housed.isHost,
    housed.stands.congr (fun above inside => retains.parent_eq (above_lt above inside))
      fun above inside => tier_eq above (above_lt above inside)⟩

end Document

end WordTemplate
