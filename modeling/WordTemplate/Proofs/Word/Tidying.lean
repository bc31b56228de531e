import Mathlib.Data.List.Find
import WordTemplate.Proofs.Document.Succeeding
import WordTemplate.Proofs.Document.Trees

/-!
# Tidying up after a split

A split leaves the section break of the paragraph in both halves and runs that may hold nothing but
properties. What is dropped then is one section break in the properties of the head, and empty runs
of the head and the tail. All other nodes keep their place, and the leaves of both paragraphs stay.
-/

namespace WordTemplate

namespace Document

variable {document before middle after : Document} {id node child parent paragraph tail top outer : NodeId}
  {runs : List NodeId}

/-- The document without the section break of a paragraph. -/
def withoutSectionBreak (document : Document) (paragraph : NodeId) : Document :=
  match document.paragraphProperty? paragraph Word.Name.sectionProperties with
  | some sectionBreak => document.detach sectionBreak
  | none => document

/-- The section break of `paragraph` and the empty runs `runs` of `paragraph` and `tail` were
dropped. -/
structure Tidied (before after : Document) (paragraph tail : NodeId) (runs : List NodeId) : Prop where
  drops : Drops before after
    ((before.paragraphProperty? paragraph Word.Name.sectionProperties).toList ++ runs)
  areRuns : ∀ run ∈ runs, before.isEmptyRun run = true ∧
    (before.parent run = some paragraph ∨ before.parent run = some tail)

theorem drops_withoutSectionBreak (wellFormed : document.WellFormed) (paragraph : NodeId) :
    Drops document (document.withoutSectionBreak paragraph)
      (document.paragraphProperty? paragraph Word.Name.sectionProperties).toList := by
  rw [withoutSectionBreak]
  rcases document.paragraphProperty? paragraph Word.Name.sectionProperties with _ | sectionBreak
  · exact ⟨wellFormed, rfl, rfl, fun _ => rfl, by simp, by simp⟩
  · exact drops_detach wellFormed sectionBreak

/-- A run that loses nothing was empty if it is empty. -/
theorem Drops.isEmptyRun_eq {ids : List NodeId} (drops : Drops before after ids)
    (wellFormed : before.WellFormed) (notParent : ∀ child ∈ ids, before.parent child ≠ some id) :
    after.isEmptyRun id = before.isEmptyRun id :=
  isEmptyRun_congr (drops.content_eq id) (drops.children_of_not_parent wellFormed notParent)
    fun child _ => drops.content_eq child

/-- A node stays below another one unless a node in between is dropped. -/
theorem Drops.liesIn_or {ids : List NodeId} (drops : Drops before after ids)
    (wellFormed : before.WellFormed) (inside : before.LiesIn top id) :
    after.LiesIn top id ∨ ∃ dropped ∈ ids, dropped ≠ top ∧ before.LiesIn top dropped ∧
      before.LiesIn dropped id := by
  by_cases between : ∃ dropped ∈ ids, dropped ≠ top ∧ before.LiesIn top dropped ∧
      before.LiesIn dropped id
  · exact Or.inr between
  · refine Or.inl (inside.of_parent_eq (fun other above below differ => ?_) wellFormed)
    rw [drops.parent_eq, if_neg]
    exact fun isDropped => between ⟨other, isDropped, differ, below, above⟩

/-- A node keeps its first child with a name unless children with that name are dropped. -/
theorem Drops.childNamed?_eq {ids : List NodeId} {name : String} (drops : Drops before after ids)
    (kept : ∀ child ∈ before.children id, child ∈ ids → before.isNamed child name = false) :
    after.childNamed? id name = before.childNamed? id name := by
  have sameName : (after.isNamed · name) = (before.isNamed · name) := by
    funext child
    exact isNamed_of_content_eq (drops.content_eq _) _
  rw [childNamed?, childNamed?, sameName, drops.children_eq, List.find?_filter]
  refine List.find?_congr fun child isChild => ?_
  by_cases isDropped : child ∈ ids
  · simp [kept child isChild isDropped]
  · simp [isDropped]

namespace Tidied

variable (tidied : Tidied middle after paragraph tail runs)

include tidied in
/-- What was dropped is a section break in properties, or an empty run of one of the paragraphs. -/
theorem dropped (wellFormed : middle.WellFormed)
    (isMember : id ∈ (middle.paragraphProperty? paragraph Word.Name.sectionProperties).toList ++ runs) :
    (middle.isProperties id = true ∧ middle.isNamed id Word.Name.run = false ∧
        ∃ properties, middle.parent properties = some paragraph ∧
          middle.isProperties properties = true ∧ middle.parent id = some properties ∧
          middle.paragraphProperty? paragraph Word.Name.sectionProperties = some id) ∨
      (middle.isEmptyRun id = true ∧
        (middle.parent id = some paragraph ∨ middle.parent id = some tail)) := by
  rcases List.mem_append.mp isMember with isBreak | isRun
  · left
    rw [Option.mem_toList] at isBreak
    rcases Edit.parent_of_paragraphProperty? wellFormed isBreak with
      ⟨properties, isParent, named, isParent', named'⟩
    exact ⟨(isProperties_of_isNamed named').trans (by decide), isNamed_eq_false named' (by decide),
      properties, isParent, (isProperties_of_isNamed named).trans (by decide), isParent', isBreak⟩
  · exact Or.inr (tidied.areRuns id isRun)

include tidied in
/-- A node that is not an element of properties keeps the properties among its children. -/
theorem filter_properties (wellFormed : middle.WellFormed)
    (shown : middle.isProperties id = false) :
    (after.children id).filter after.isProperties =
      (middle.children id).filter middle.isProperties := by
  have sameFilter : after.isProperties = middle.isProperties := by
    funext child
    exact isProperties_of_content_eq (tidied.drops.content_eq _)
  rw [sameFilter, tidied.drops.children_eq, List.filter_filter]
  refine List.filter_congr fun child isChild => ?_
  rcases isProperties : middle.isProperties child with _ | _
  · rw [Bool.false_and]
  rw [Bool.true_and, decide_eq_true_eq]
  intro isDropped
  rcases tidied.dropped wellFormed isDropped with
    ⟨-, -, properties, -, areProperties, isParent, -⟩ | ⟨isEmpty, -⟩
  · rw [(wellFormed.mem_children_iff _ _).mp isChild, Option.some.injEq] at isParent
    rw [← isParent, shown] at areProperties
    cases areProperties
  · rw [isProperties_of_isNamed (Edit.isNamed_of_isEmptyRun isEmpty)] at isProperties
    exact absurd isProperties (by decide)

include tidied in
/-- Below a node that stands above neither paragraph at most the section break is missing. -/
theorem children_below (wellFormed : middle.WellFormed) (apart : ¬middle.LiesIn id paragraph)
    (apart' : ¬middle.LiesIn id tail) (inside : middle.LiesIn id child) :
    after.children child = (middle.children child).filter fun other =>
      other ∉ (middle.paragraphProperty? paragraph Word.Name.sectionProperties).toList := by
  rw [tidied.drops.children_eq]
  refine List.filter_congr fun other isChild => ?_
  rw [decide_eq_decide, List.mem_append, not_or, and_iff_left_iff_imp]
  intro _ isRun
  have isParent := (wellFormed.mem_children_iff _ _).mp isChild
  rcases (tidied.areRuns other isRun).2 with isHead | isTail
  · rw [isParent, Option.some.injEq] at isHead
    exact apart (isHead ▸ inside)
  · rw [isParent, Option.some.injEq] at isTail
    exact apart' (isTail ▸ inside)

include tidied in
/-- Nothing is missing below a node that stands above neither paragraph and is no child of the
first. -/
theorem tree_eq (wellFormed : middle.WellFormed) (isParent : middle.parent id = some parent)
    (differ : parent ≠ paragraph) (apart : ¬middle.LiesIn id paragraph)
    (apart' : ¬middle.LiesIn id tail) : after.tree id = middle.tree id := by
  refine tree_congr wellFormed (Nat.le_of_eq tidied.drops.size_eq.symm) fun other inside =>
    ⟨tidied.drops.content_eq other, ?_⟩
  rw [tidied.children_below wellFormed apart apart' inside]
  refine List.filter_eq_self.mpr fun child isChild => ?_
  rw [decide_eq_true_eq, Option.mem_toList]
  intro isBreak
  rcases Edit.parent_of_paragraphProperty? wellFormed isBreak with
    ⟨properties, isParent', -, isParent'', -⟩
  rw [(wellFormed.mem_children_iff _ _).mp isChild, Option.some.injEq] at isParent''
  subst isParent''
  rcases inside.cases_above isParent' with rfl | inside
  · rw [isParent', Option.some.injEq] at isParent
    exact differ isParent.symm
  · exact apart inside

/-! A node whose subtree loses runs of its own only: this holds of the head and of the tail. -/

variable (own : ∀ run, middle.parent run = some paragraph ∨ middle.parent run = some tail →
  middle.LiesIn node run → middle.parent run = some node)

include tidied own in
/-- Runs of the node are empty afterwards if and only if they were empty. -/
theorem isEmptyRun_eq (wellFormed : middle.WellFormed) (isParent : middle.parent child = some node) :
    after.isEmptyRun child = middle.isEmptyRun child := by
  by_cases isRun : middle.isNamed child Word.Name.run = true
  · refine tidied.drops.isEmptyRun_eq wellFormed fun other isDropped isParent' => ?_
    rcases tidied.dropped wellFormed isDropped with
      ⟨-, -, properties, -, areProperties, isParent'', -⟩ | ⟨-, isRunOf⟩
    · rw [isParent', Option.some.injEq] at isParent''
      rw [← isParent'', isProperties_of_isNamed isRun] at areProperties
      exact absurd areProperties (by decide)
    · have isOwn := own other isRunOf (LiesIn.of_parent isParent' (LiesIn.parent isParent))
      rw [isParent', Option.some.injEq] at isOwn
      exact not_liesIn_of_parent wellFormed isParent (isOwn ▸ LiesIn.refl)
  · have isRun' : after.isNamed child Word.Name.run = false := by
      rw [isNamed_of_content_eq (tidied.drops.content_eq _)]
      simpa using isRun
    rw [isEmptyRun, isEmptyRun, isRun', Bool.eq_false_iff.mpr isRun, Bool.false_and, Bool.false_and]

include tidied own in
/-- A node without properties on the way to it keeps its place, unless it is an empty run that was
dropped from its paragraph. -/
theorem place (wellFormed : middle.WellFormed) (inside : middle.LiesIn node id)
    (shown : ∀ other, middle.LiesIn node other → middle.LiesIn other id →
      middle.isProperties other = false) :
    after.LiesIn node id ∨ middle.parent id = some node ∧ after.isEmptyRun id = true := by
  rcases tidied.drops.liesIn_or wellFormed inside with kept | ⟨dropped, isDropped, -, below, above⟩
  · exact Or.inl kept
  rcases tidied.dropped wellFormed isDropped with ⟨isProperties, -⟩ | ⟨isEmpty, isRunOf⟩
  · rw [shown dropped below above] at isProperties
    cases isProperties
  have isParent := own dropped isRunOf below
  -- What stands in an empty run are properties, so the run is the node itself.
  have same : id = dropped := by
    refine above.cases_child.resolve_right ?_
    rintro ⟨child, isChild, above⟩
    have areProperties := isProperties_of_isEmptyRun isEmpty
      ((wellFormed.mem_children_iff _ _).mpr isChild)
    rw [shown child (LiesIn.of_parent isChild below) above] at areProperties
    cases areProperties
  subst same
  exact Or.inr ⟨isParent, by rw [tidied.isEmptyRun_eq own wellFormed isParent, isEmpty]⟩

include tidied in
/-- Paragraphs keep their places. -/
theorem parent_eq_of_isNamed (wellFormed : middle.WellFormed)
    (named : middle.isNamed id Word.Name.paragraph = true) : after.parent id = middle.parent id := by
  rw [tidied.drops.parent_eq, if_neg]
  intro isDropped
  rcases tidied.dropped wellFormed isDropped with ⟨isProperties, -⟩ | ⟨isEmpty, -⟩
  · rw [isProperties_of_isNamed named] at isProperties
    exact absurd isProperties (by decide)
  · rw [isNamed_eq_false (Edit.isNamed_of_isEmptyRun isEmpty) (by decide)] at named
    cases named

include tidied in
/-- What was dropped holds no running text. -/
theorem neutral {zone : NodeId → Prop} {rights : Rights} (wellFormed : middle.WellFormed)
    (closed : middle.Closed zone rights) (inZone : zone paragraph) (tailInZone : zone tail) :
    Neutral zone rights middle after := by
  refine tidied.drops.neutral wellFormed closed (fun id isDropped => ?_) fun id isDropped => ?_
  · rcases tidied.dropped wellFormed isDropped with
      ⟨-, -, properties, isParent, -, isParent', -⟩ | ⟨-, isHead | isTail⟩
    · exact movable_of_parent isParent' (closed.child isParent inZone)
    · exact movable_of_parent isHead inZone
    · exact movable_of_parent isTail tailInZone
  · rcases tidied.dropped wellFormed isDropped with ⟨isProperties, -⟩ | ⟨isEmpty, -⟩
    · exact runningTexts_of_isProperties isProperties
    · exact runningTexts_of_isEmptyRun wellFormed isEmpty

include tidied in
/-- The parent of the two paragraphs keeps its children. -/
theorem children_outer (wellFormed : middle.WellFormed)
    (isOuter : middle.parent paragraph = some outer) (isOuter' : middle.parent tail = some outer) :
    after.children outer = middle.children outer := by
  refine tidied.drops.children_of_not_parent wellFormed fun child isDropped isParent => ?_
  rcases tidied.dropped wellFormed isDropped with
    ⟨-, -, properties, isParent', -, isParent'', -⟩ | ⟨-, isHead | isTail⟩
  · rw [isParent, Option.some.injEq] at isParent''
    subst isParent''
    exact not_liesIn_of_parent wellFormed isOuter (LiesIn.parent isParent')
  · rw [isParent, Option.some.injEq] at isHead
    exact not_liesIn_of_parent wellFormed isOuter (isHead ▸ LiesIn.refl)
  · rw [isParent, Option.some.injEq] at isTail
    exact not_liesIn_of_parent wellFormed isOuter' (isTail ▸ LiesIn.refl)

include tidied in
/-- Properties of the paragraphs are dropped below no other properties than those of the first. -/
theorem childNamed?_eq (name : String) (wellFormed : middle.WellFormed)
    (shown : middle.isProperties id = false) (notRun : name ≠ Word.Name.run) :
    after.childNamed? id name = middle.childNamed? id name := by
  refine tidied.drops.childNamed?_eq fun child isChild isDropped => ?_
  rcases tidied.dropped wellFormed isDropped with
    ⟨-, -, properties, -, areProperties, isParent, -⟩ | ⟨isEmpty, -⟩
  · rw [(wellFormed.mem_children_iff _ _).mp isChild, Option.some.injEq] at isParent
    rw [← isParent, shown] at areProperties
    cases areProperties
  · exact isNamed_eq_false (Edit.isNamed_of_isEmptyRun isEmpty) notRun.symm

include tidied in
/-- The head has no section break left if its properties had one at most. -/
theorem hasSectionBreak_eq_false (wellFormed : middle.WellFormed)
    (shown : middle.isProperties paragraph = false)
    (single : ∀ properties,
      middle.childNamed? paragraph Word.Name.paragraphProperties = some properties →
        ((middle.children properties).filter
          (middle.isNamed · Word.Name.sectionProperties)).length ≤ 1) :
    after.hasSectionBreak paragraph = false := by
  have sameProperties := tidied.childNamed?_eq Word.Name.paragraphProperties wellFormed
    shown (by decide)
  rw [hasSectionBreak, paragraphProperty?, sameProperties]
  rcases isFirst : middle.childNamed? paragraph Word.Name.paragraphProperties with _ | properties
  · rfl
  rw [Option.bind_some, Option.isSome_eq_false_iff, Option.isNone_iff_eq_none, childNamed?,
    List.find?_eq_none]
  intro child isChild
  rw [tidied.drops.children_eq, List.mem_filter, decide_eq_true_eq] at isChild
  rcases isChild with ⟨isChild, kept⟩
  rw [isNamed_of_content_eq (tidied.drops.content_eq _)]
  intro named
  -- Where there is a break the first one is dropped, and there is no other one.
  obtain ⟨sectionBreak, isBreak⟩ : ∃ sectionBreak,
      middle.childNamed? properties Word.Name.sectionProperties = some sectionBreak := by
    rw [← Option.isSome_iff_exists, childNamed?, List.find?_isSome]
    exact ⟨child, isChild, named⟩
  have isFound : middle.paragraphProperty? paragraph Word.Name.sectionProperties =
      some sectionBreak := by
    rw [paragraphProperty?, isFirst, Option.bind_some, isBreak]
  have isBreakMember : sectionBreak ∈ (middle.children properties).filter
      (middle.isNamed · Word.Name.sectionProperties) := by
    rw [childNamed?] at isBreak
    exact List.mem_filter.mpr ⟨List.mem_of_find?_eq_some isBreak, by simpa using List.find?_some isBreak⟩
  have isChildMember : child ∈ (middle.children properties).filter
      (middle.isNamed · Word.Name.sectionProperties) := List.mem_filter.mpr ⟨isChild, named⟩
  have same : child = sectionBreak := by
    rcases all : (middle.children properties).filter
      (middle.isNamed · Word.Name.sectionProperties) with _ | ⟨first, _ | ⟨second, rest⟩⟩
    · rw [all] at isChildMember
      cases isChildMember
    · rw [all, List.mem_singleton] at isChildMember isBreakMember
      rw [isChildMember, isBreakMember]
    · have bound := single properties isFirst
      rw [all] at bound
      simp at bound
  refine kept (List.mem_append_left _ ?_)
  rw [isFound, same]
  simp

end Tidied

end Document

namespace Edit

open Outcome Document

variable {document : Document} {paragraph tail : NodeId}

/-- A paragraph and its tail can always be tidied up. -/
theorem exists_tidied (wellFormed : document.WellFormed)
    (named : document.isNamed paragraph Word.Name.paragraph = true) (tail : NodeId) :
    ∃ after runs, (do
        removeSectionBreak paragraph
        removeEmptyRuns paragraph
        removeEmptyRuns tail) document = .ok ⟨⟩ after ∧ Tidied document after paragraph tail runs := by
  have breakDrops := drops_withoutSectionBreak wellFormed paragraph
  have breakDone : removeSectionBreak paragraph document =
      .ok ⟨⟩ (document.withoutSectionBreak paragraph) := removeSectionBreak_eq_ok.mpr rfl
  rcases exists_drops breakDrops.wellFormed
    (((document.withoutSectionBreak paragraph).children paragraph).filter
      (document.withoutSectionBreak paragraph).isEmptyRun) with ⟨tidied, tidyDone, tidyDrops⟩
  rcases exists_drops tidyDrops.wellFormed
    ((tidied.children tail).filter tidied.isEmptyRun) with ⟨after, tailDone, tailDrops⟩
  have drops := (breakDrops.append tidyDrops).append tailDrops
  rw [List.append_assoc] at drops
  refine ⟨after, _, ?_, drops, ?_⟩
  · rw [bind_of_ok breakDone]
    refine bind_eq_ok.mpr ⟨⟨⟩, tidied, tidyDone, tailDone⟩
  · -- The section break does not stand in a run, so what is an empty run now was one before.
    have unbroken : ∀ {run : NodeId}, document.isNamed run Word.Name.run = true →
        (document.withoutSectionBreak paragraph).isEmptyRun run = document.isEmptyRun run := by
      intro run isRun
      refine breakDrops.isEmptyRun_eq wellFormed fun child isBreak isParent => ?_
      rw [Option.mem_toList] at isBreak
      rcases parent_of_paragraphProperty? wellFormed isBreak with ⟨properties, -, named, isParent', -⟩
      rw [isParent', Option.some.injEq] at isParent
      rw [← isParent, isNamed_eq_false named (by decide)] at isRun
      cases isRun
    have named_eq : ∀ {run : NodeId} {name : String},
        (document.withoutSectionBreak paragraph).isNamed run name = document.isNamed run name := by
      intro run name
      exact isNamed_of_content_eq (breakDrops.content_eq _) _
    intro run isMember
    rcases List.mem_append.mp isMember with isOwn | isTail
    · rcases List.mem_filter.mp isOwn with ⟨isChild, isEmpty⟩
      rw [breakDrops.wellFormed.mem_children_iff] at isChild
      have isRun := isNamed_of_isEmptyRun isEmpty
      rw [named_eq] at isRun
      exact ⟨by rw [← unbroken isRun, isEmpty], Or.inl (breakDrops.parent_of_some isChild)⟩
    · rcases List.mem_filter.mp isTail with ⟨isChild, isEmpty⟩
      rw [tidyDrops.wellFormed.mem_children_iff] at isChild
      have isRun := isNamed_of_isEmptyRun isEmpty
      rw [isNamed_of_content_eq (tidyDrops.content_eq _), named_eq] at isRun
      have notParagraph : run ≠ paragraph := by
        rintro rfl
        rw [isNamed_eq_false named (by decide)] at isRun
        cases isRun
      refine ⟨?_, Or.inr (breakDrops.parent_of_some (tidyDrops.parent_of_some isChild))⟩
      rw [← unbroken isRun, ← tidyDrops.isEmptyRun_eq breakDrops.wellFormed, isEmpty]
      intro child isOwn isParent
      have isChild := (List.mem_filter.mp isOwn).1
      rw [breakDrops.wellFormed.mem_children_iff, isParent, Option.some.injEq] at isChild
      exact notParagraph isChild

/-- What tidies up is determined by the paragraph and its tail. -/
theorem tidied_of_done {unbroken headTidied after : Document} (wellFormed : document.WellFormed)
    (named : document.isNamed paragraph Word.Name.paragraph = true)
    (breakDone : removeSectionBreak paragraph document = .ok ⟨⟩ unbroken)
    (headDone : removeEmptyRuns paragraph unbroken = .ok ⟨⟩ headTidied)
    (tailDone : removeEmptyRuns tail headTidied = .ok ⟨⟩ after) :
    ∃ runs, Tidied document after paragraph tail runs := by
  rcases exists_tidied wellFormed named tail with ⟨after', runs, done, tidied⟩
  rw [bind_of_ok breakDone, bind_of_ok headDone, tailDone, EStateM.Result.ok.injEq] at done
  exact ⟨runs, done.2 ▸ tidied⟩

end Edit

end WordTemplate
