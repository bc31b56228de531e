import WordTemplate.Proofs.Document.Neutral
import WordTemplate.Word.Paragraph

/-!
# Edits of properties

Properties hold no running text, so the edits that add, move and remove properties and empty runs
keep the running text.
-/

namespace WordTemplate

namespace Document

variable {zone : NodeId → Prop} {rights : Rights} {document before after : Document}
  {id parent child paragraph : NodeId} {name : String}

theorem parent_of_childNamed? (wellFormed : document.WellFormed)
    (found : document.childNamed? parent name = some child) :
    document.parent child = some parent ∧ document.isNamed child name = true := by
  rw [childNamed?] at found
  exact ⟨(wellFormed.mem_children_iff _ _).mp (List.mem_of_find?_eq_some found),
    by simpa using List.find?_some found⟩

theorem liesIn_of_ancestorNamed? (wellFormed : document.WellFormed)
    (found : document.ancestorNamed? child name = some parent) :
    document.LiesIn parent child ∧ document.isNamed parent name = true := by
  rw [ancestorNamed?] at found
  refine ⟨?_, by simpa using List.find?_some found⟩
  rw [← mem_ancestors_iff wellFormed]
  exact (List.mem_cons.mp (List.mem_of_find?_eq_some found)).imp_left Eq.symm

theorem isText_eq_false_of_isNamed (named : document.isNamed id name = true) :
    document.isText id = false := by
  have named : document.name? id = some name := by simpa [isNamed] using named
  rcases carried : document.content id with characters | held | raw <;>
    simp_all [Document.isText, Document.text?, Document.name?, Document.element?,
      Content.element?, Content.text?]

theorem isProperties_of_isNamed (named : document.isNamed id name = true) :
    document.isProperties id = "Pr".toList.isSuffixOf name.toList := by
  have named : document.name? id = some name := by simpa [isNamed] using named
  simp [isProperties, named]

theorem showsChildren_of_isNamed (named : document.isNamed id name = true)
    (ending : "Pr".toList.isSuffixOf name.toList = false) : document.showsChildren id = true := by
  rw [showsChildren, isText_eq_false_of_isNamed named, isProperties_of_isNamed named, ending]
  rfl

/-- A node that shows its children is no element of properties. -/
theorem isNamed_eq_false_of_showsChildren (shows : document.showsChildren id = true)
    (ending : "Pr".toList.isSuffixOf name.toList = true) : document.isNamed id name = false := by
  by_contra named
  rw [Bool.not_eq_false] at named
  rw [showsChildren, isProperties_of_isNamed named, ending] at shows
  simp at shows

/-- Names of properties end like properties. -/
theorem runningTexts_of_isNamed (named : document.isNamed id name = true)
    (ending : "Pr".toList.isSuffixOf name.toList = true) : document.runningTexts id = [] :=
  runningTexts_of_isProperties ((isProperties_of_isNamed named).trans ending)

/-- A new node other than text has no running text. -/
theorem runningTexts_of_childless (wellFormed : document.WellFormed)
    (notText : document.isText id = false) (childless : document.children id = []) :
    document.runningTexts id = [] := by
  rw [runningTexts_eq wellFormed, notText, childless]
  simp

theorem runningTexts_eq_nil_iff (wellFormed : document.WellFormed)
    (shows : document.showsChildren id = true) :
    document.runningTexts id = [] ↔
      ∀ child ∈ document.children id, document.runningTexts child = [] := by
  rw [runningTexts_of_showsChildren wellFormed shows, List.flatMap_eq_nil_iff]

theorem runningTexts_of_isEmptyRun (wellFormed : document.WellFormed)
    (isEmpty : document.isEmptyRun id = true) : document.runningTexts id = [] := by
  simp only [isEmptyRun, Bool.and_eq_true, List.all_eq_true] at isEmpty
  rcases isEmpty with ⟨isRun, onlyProperties⟩
  have shows : document.showsChildren id = true := by
    rw [showsChildren, isText_eq_false_of_isNamed isRun, isProperties_of_isNamed isRun]
    decide
  rw [runningTexts_eq_nil_iff wellFormed shows]
  exact fun child isChild => runningTexts_of_isNamed (onlyProperties child isChild) (by decide)

theorem runningTexts_of_isEmptyParagraph (wellFormed : document.WellFormed)
    (isEmpty : document.isEmptyParagraph id = true) : document.runningTexts id = [] := by
  simp only [isEmptyParagraph, Bool.and_eq_true, List.all_eq_true, Bool.or_eq_true] at isEmpty
  rcases isEmpty with ⟨⟨isParagraph, -⟩, onlyEmpty⟩
  have shows : document.showsChildren id = true := by
    rw [showsChildren, isText_eq_false_of_isNamed isParagraph, isProperties_of_isNamed isParagraph]
    decide
  rw [runningTexts_eq_nil_iff wellFormed shows]
  intro child isChild
  rcases onlyEmpty child isChild with isProperties | isRun
  · exact runningTexts_of_isNamed isProperties (by decide)
  · exact runningTexts_of_isEmptyRun wellFormed isRun

/-- The children of a node besides the properties of a paragraph. -/
def body (document : Document) (id : NodeId) : List NodeId :=
  (document.children id).filter (!document.isNamed · Word.Name.paragraphProperties)

theorem mem_body (wellFormed : document.WellFormed) (isMember : child ∈ document.body id) :
    document.parent child = some id ∧
      document.isNamed child Word.Name.paragraphProperties = false := by
  rcases List.mem_filter.mp isMember with ⟨isChild, notProperties⟩
  exact ⟨(wellFormed.mem_children_iff _ _).mp isChild, by simpa using notProperties⟩

/-- The children of an empty run are properties. -/
theorem isProperties_of_isEmptyRun (isEmpty : document.isEmptyRun id = true)
    (isChild : child ∈ document.children id) : document.isProperties child = true := by
  rw [isEmptyRun, Bool.and_eq_true, List.all_eq_true] at isEmpty
  exact (isProperties_of_isNamed (isEmpty.2 child isChild)).trans (by decide)

theorem isEmptyRun_eq_false (isChild : child ∈ document.children id)
    (notProperties : document.isProperties child = false) : document.isEmptyRun id = false := by
  by_contra isEmpty
  rw [Bool.not_eq_false] at isEmpty
  rw [isProperties_of_isEmptyRun isEmpty isChild] at notProperties
  cases notProperties

/-- Whether a run is empty depends on the run and its children. -/
theorem isEmptyRun_congr (content_eq : after.content id = before.content id)
    (children_eq : after.children id = before.children id)
    (contents : ∀ child ∈ before.children id, after.content child = before.content child) :
    after.isEmptyRun id = before.isEmptyRun id := by
  rw [isEmptyRun, isEmptyRun, children_eq, isNamed_of_content_eq content_eq]
  congr 1
  rw [Bool.eq_iff_iff, List.all_eq_true, List.all_eq_true]
  exact forall₂_congr fun child isChild => by rw [isNamed_of_content_eq (contents child isChild)]

end Document

namespace Edit

open Outcome Document

variable {zone : NodeId → Prop} {rights : Rights} {document document' : Document}
  {id other parent child node reference paragraph properties : NodeId} {result : Unit}
  {name flag : String} {leading : List String} {index : Nat}

/-- A new element is a detached node of the zone without running text. -/
theorem neutral_of_createElement (wellFormed : document.WellFormed)
    (closed : document.Closed zone rights) (done : createElement name document = .ok id document') :
    Neutral zone rights document document' ∧ document.size ≤ id.index ∧ zone id ∧
      document'.parent id = none ∧ document'.children id = [] ∧
      document'.isNamed id name = true ∧ document'.runningTexts id = [] := by
  rcases createElement_eq_ok.mp done with ⟨rfl, rfl⟩
  have neutral : Neutral zone rights document (document.add (.element { name })) :=
    neutral_add wellFormed closed _
  have beyond : document.size ≤ document.nextId.index := Nat.le_refl _
  have named : (document.add (.element { name })).isNamed document.nextId name = true := by
    simp [isNamed, name?, element?, content_add, Content.element?]
  have childless : (document.add (.element { name })).children document.nextId = [] := by
    rw [children_add, children_of_size_le beyond]
  refine ⟨neutral, beyond, closed.fresh beyond, ?_, childless, named, ?_⟩
  · rw [parent_add, parent_of_size_le beyond]
  · exact runningTexts_of_childless neutral.wellFormed (isText_eq_false_of_isNamed named) childless

theorem neutral_of_appendChild (wellFormed : document.WellFormed)
    (closed : document.Closed zone rights) (inZone : zone parent)
    (parentInStore : parent.index < document.size) (inStore : child.index < document.size)
    (childInZone : zone child) (movable : document.Movable zone rights child)
    (empty : document.runningTexts child = [])
    (done : appendChild parent child document = .ok result document') :
    Neutral zone rights document document' ∧ document'.parent child = some parent := by
  have moves := moves_of_appendChild wellFormed parentInStore inStore done
  exact ⟨moves.neutral wellFormed closed inZone childInZone movable empty, by simp [moves.parent_eq]⟩

theorem neutral_of_insertChild (wellFormed : document.WellFormed)
    (closed : document.Closed zone rights) (inZone : zone parent)
    (parentInStore : parent.index < document.size) (inStore : child.index < document.size)
    (childInZone : zone child) (movable : document.Movable zone rights child)
    (empty : document.runningTexts child = [])
    (done : insertChild parent index child document = .ok result document') :
    Neutral zone rights document document' ∧ document'.parent child = some parent := by
  have moves := moves_of_insertChild wellFormed parentInStore inStore done
  exact ⟨moves.neutral wellFormed closed inZone childInZone movable empty, by simp [moves.parent_eq]⟩

theorem neutral_of_insertBefore (wellFormed : document.WellFormed)
    (closed : document.Closed zone rights)
    (beside : ∀ parent, document.parent reference = some parent → zone parent)
    (inStore : node.index < document.size) (nodeInZone : zone node)
    (movable : document.Movable zone rights node) (empty : document.runningTexts node = [])
    (done : insertBefore node reference document = .ok result document') :
    Neutral zone rights document document' ∧
      document'.parent node = document.parent reference := by
  rcases moves_of_insertBefore wellFormed inStore done with
    ⟨parent, left, right, isParent, -, moves⟩
  exact ⟨moves.neutral wellFormed closed (beside parent isParent) nodeInZone movable empty,
    by simp [moves.parent_eq, isParent]⟩

theorem neutral_of_insertAfter (wellFormed : document.WellFormed)
    (closed : document.Closed zone rights)
    (beside : ∀ parent, document.parent reference = some parent → zone parent)
    (inStore : node.index < document.size) (nodeInZone : zone node)
    (movable : document.Movable zone rights node) (empty : document.runningTexts node = [])
    (done : insertAfter node reference document = .ok result document') :
    Neutral zone rights document document' ∧
      document'.parent node = document.parent reference := by
  rcases moves_of_insertAfter wellFormed inStore done with
    ⟨parent, left, right, isParent, -, moves⟩
  exact ⟨moves.neutral wellFormed closed (beside parent isParent) nodeInZone movable empty,
    by simp [moves.parent_eq, isParent]⟩

/-- Empty runs are dropped from among the children of a node. -/
theorem drops_of_removeEmptyRuns (wellFormed : document.WellFormed)
    (done : removeEmptyRuns id document = .ok result document') :
    ∃ runs, Drops document document' runs ∧
      ∀ run ∈ runs, document.parent run = some id ∧ document.isEmptyRun run = true := by
  simp only [removeEmptyRuns, get_bind] at done
  refine ⟨_, drops_of_forM_detach wellFormed done, fun run isMember => ?_⟩
  rw [List.mem_filter, wellFormed.mem_children_iff] at isMember
  exact isMember

theorem isNamed_of_isEmptyRun (isEmpty : document.isEmptyRun id = true) :
    document.isNamed id Word.Name.run = true := by
  rw [isEmptyRun, Bool.and_eq_true] at isEmpty
  exact isEmpty.1

theorem neutral_of_removeEmptyRuns (wellFormed : document.WellFormed)
    (closed : document.Closed zone rights) (inZone : zone id)
    (done : removeEmptyRuns id document = .ok result document') :
    Neutral zone rights document document' := by
  rcases drops_of_removeEmptyRuns wellFormed done with ⟨runs, drops, areEmpty⟩
  refine drops.neutral wellFormed closed ?_ fun run isMember =>
    runningTexts_of_isEmptyRun wellFormed (areEmpty run isMember).2
  intro run isMember
  exact movable_of_parent (areEmpty run isMember).1 inZone

theorem removeSectionBreak_eq_ok :
    removeSectionBreak paragraph document = .ok result document' ↔
      document' = match document.paragraphProperty? paragraph Word.Name.sectionProperties with
        | some sectionBreak => document.detach sectionBreak
        | none => document := by
  simp only [removeSectionBreak, get_bind]
  rcases document.paragraphProperty? paragraph Word.Name.sectionProperties with _ | found
  · simp [eq_comm]
  · simp [detach_eq_ok]

/-- A property of a paragraph stands in the properties of the paragraph. -/
theorem parent_of_paragraphProperty? (wellFormed : document.WellFormed)
    (found : document.paragraphProperty? paragraph name = some id) :
    ∃ properties, document.parent properties = some paragraph ∧
      document.isNamed properties Word.Name.paragraphProperties = true ∧
      document.parent id = some properties ∧ document.isNamed id name = true := by
  rw [paragraphProperty?, Option.bind_eq_some_iff] at found
  rcases found with ⟨properties, isProperties, found⟩
  rcases parent_of_childNamed? wellFormed isProperties with ⟨isParent, named⟩
  rcases parent_of_childNamed? wellFormed found with ⟨isParent', named'⟩
  exact ⟨properties, isParent, named, isParent', named'⟩

theorem neutral_of_ensureProperties (wellFormed : document.WellFormed)
    (closed : document.Closed zone rights) (inZone : zone parent)
    (parentInStore : parent.index < document.size)
    (done : ensureProperties parent name leading document = .ok properties document') :
    Neutral zone rights document document' ∧ document'.parent properties = some parent ∧
      document'.isNamed properties name = true := by
  simp only [ensureProperties, get_bind] at done
  rcases found : document.childNamed? parent name with _ | existing
  · simp only [found, bind_eq_ok, pure_eq_ok] at done
    rcases done with ⟨created, middle, createDone, ⟨⟩, after, insertDone, rfl, rfl⟩
    rcases neutral_of_createElement wellFormed closed createDone with
      ⟨added, beyond, createdInZone, detached, -, named, empty⟩
    have created_lt := lt_size_of_isNamed named
    rcases neutral_of_insertChild added.wellFormed added.closed inZone
      (Nat.lt_of_lt_of_le parentInStore added.size_le) created_lt createdInZone
      (movable_of_parent_none detached (closed.freshPlaces beyond)) empty insertDone with ⟨inserted, isParent⟩
    exact ⟨added.trans inserted, isParent, by rw [inserted.isNamed_eq created_lt, named]⟩
  · simp only [found, pure_eq_ok] at done
    rcases done with ⟨rfl, rfl⟩
    rcases parent_of_childNamed? wellFormed found with ⟨isParent, named⟩
    exact ⟨Neutral.refl wellFormed closed, isParent, named⟩

theorem neutral_of_setFlag (wellFormed : document.WellFormed) (closed : document.Closed zone rights)
    (inZone : zone properties) (inStore : properties.index < document.size)
    (done : setFlag properties flag document = .ok id document') :
    Neutral zone rights document document' ∧ document'.parent id = some properties ∧
      document'.isNamed id flag = true := by
  simp only [setFlag, get_bind] at done
  rcases found : document.childNamed? properties flag with _ | existing
  · simp only [found, bind_eq_ok, pure_eq_ok] at done
    rcases done with ⟨created, middle, createDone, ⟨⟩, after, appendDone, rfl, rfl⟩
    rcases neutral_of_createElement wellFormed closed createDone with
      ⟨added, beyond, createdInZone, detached, -, named, empty⟩
    have created_lt := lt_size_of_isNamed named
    rcases neutral_of_appendChild added.wellFormed added.closed inZone
      (Nat.lt_of_lt_of_le inStore added.size_le) created_lt createdInZone
      (movable_of_parent_none detached (closed.freshPlaces beyond)) empty appendDone with ⟨appended, isParent⟩
    exact ⟨added.trans appended, isParent, by rw [appended.isNamed_eq created_lt, named]⟩
  · simp only [found, pure_eq_ok] at done
    rcases done with ⟨rfl, rfl⟩
    rcases parent_of_childNamed? wellFormed found with ⟨isParent, named⟩
    exact ⟨Neutral.refl wellFormed closed, isParent, named⟩

end Edit

end WordTemplate
