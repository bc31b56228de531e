import WordTemplate.Proofs.Total.Splitting

/-!
# Setting properties succeeds

A new element without children bears no text, so that it can be placed below any node of a document
with tiers.
-/

namespace WordTemplate

open Document Outcome

namespace Document

variable {document after : Document} {node parent host id : NodeId} {stray : NodeId → Prop}

/-- A detached element without children that numbers no paragraph. -/
structure Blank (document : Document) (stray : NodeId → Prop) (node : NodeId) : Prop where
  counts : ¬stray node
  inStore : node.index < document.size
  detached : document.parent node = none
  childless : document.children node = []
  notText : document.isText node = false
  notNumber : document.isNamed node Word.Name.numberingProperties = false

theorem Tiered.blank_add (tiered : document.Tiered stray) (held : Element)
    (differ : held.name ≠ Word.Name.numberingProperties) :
    (document.add (.element held)).Blank stray document.nextId where
  counts := tiered.not_stray_new (Nat.le_refl document.size)
  inStore := document.nextId_lt_size_add _
  detached := by rw [parent_add, parent_nextId]
  childless := by rw [children_add, children_nextId]
  notText := by
    rw [Document.isText, text?, content_add, if_pos rfl]
    rfl
  notNumber := by
    rw [isNamed, name?, element?, content_add, if_pos rfl]
    simpa [Content.element?] using differ

namespace Blank

variable (blank : document.Blank stray node)
include blank

theorem not_hasText (wellFormed : document.WellFormed) : ¬document.HasText stray node := by
  rintro ⟨text, isText, -, inside⟩
  rcases inside.cases_child with rfl | ⟨child, isParent, -⟩
  · rw [blank.notText] at isText
    cases isText
  · rw [← wellFormed.mem_children_iff, blank.childless] at isParent
    cases isParent

theorem fits (wellFormed : document.WellFormed) (parent : NodeId) : document.Fits stray node parent where
  counts := blank.counts
  stands hasText := absurd hasText (blank.not_hasText wellFormed)
  numbers := by
    rintro - ⟨-, number, isNumber, -⟩
    rw [← wellFormed.mem_children_iff, blank.childless] at isNumber
    cases isNumber
  number _ := blank.notNumber

theorem outside (wellFormed : document.WellFormed) (differ : id ≠ node) :
    ¬document.LiesIn node id := by
  intro inside
  rcases inside.cases_child with rfl | ⟨child, isParent, -⟩
  · exact differ rfl
  · rw [← wellFormed.mem_children_iff, blank.childless] at isParent
    cases isParent

theorem add (content : Content) : (document.add content).Blank stray node where
  counts := blank.counts
  inStore := by
    rw [size_add]
    exact Nat.lt_succ_of_lt blank.inStore
  detached := by rw [parent_add, blank.detached]
  childless := by rw [children_add, blank.childless]
  notText := by
    rw [Document.isText, text?, Document.content, node_add_of_lt blank.inStore]
    exact blank.notText
  notNumber := by
    rw [isNamed, name?, element?, Document.content, node_add_of_lt blank.inStore]
    exact blank.notNumber

theorem moves {other : NodeId} {left right : List NodeId}
    (moves : Moves document after other parent left right) (differ : node ≠ other)
    (notParent : node ≠ parent) : after.Blank stray node where
  counts := blank.counts
  inStore := by
    rw [moves.size_eq]
    exact blank.inStore
  detached := by rw [moves.parent_eq, if_neg differ, blank.detached]
  childless := by rw [moves.children_eq, if_neg notParent, blank.childless, List.filter_nil]
  notText := by rw [moves.isText_eq, blank.notText]
  notNumber := by rw [moves.isNamed_eq, blank.notNumber]

end Blank

theorem Housed.add (housed : document.Housed stray host) (content : Content) :
    (document.add content).Housed stray host :=
  housed.retains (retains_add document content) (housed.toTiered.add content)

end Document

namespace Edit

variable {document : Document} {parent host node reference id : NodeId} {name : String}
  {stray : NodeId → Prop}

/-- A blank node can be placed before or after any node that has a parent. -/
theorem succeeds_insertBeside_blank (housed : document.Housed stray host) (blank : document.Blank stray node)
    (isParent : document.parent reference = some parent) (differ : node ≠ host) (offset : Nat) :
    Succeeds (insertBeside offset node reference) document fun _ after => after.Housed stray host ∧
      ∃ left right, Moves document after node parent left right := by
  have wellFormed := housed.toWellFormed
  have notReference : node ≠ reference := by
    rintro rfl
    rw [blank.detached] at isParent
    cases isParent
  have notParent : parent ≠ node := by
    rintro rfl
    rw [← wellFormed.mem_children_iff, blank.childless] at isParent
    cases isParent
  refine (succeeds_insertBeside housed.toTiered blank.inStore isParent notReference
    (blank.outside wellFormed notParent) (blank.fits wellFormed parent) offset).imp ?_
  rintro - after - ⟨tiered, left, right, moves⟩
  exact ⟨housed.of_moves moves tiered (blank.outside wellFormed differ.symm), left, right, moves⟩

theorem succeeds_ensureProperties (housed : document.Housed stray host)
    (inStore : parent.index < document.size) (differ : name ≠ Word.Name.numberingProperties)
    (leading : List String) :
    Succeeds (ensureProperties parent name leading) document fun properties after =>
      after.Housed stray host ∧ after.parent properties = some parent ∧
        after.isNamed properties name = true ∧ document.size ≤ after.size ∧
        ∀ id, id.index < document.size → after.parent id = document.parent id := by
  refine Succeeds.of_get ?_
  rcases found : document.childNamed? parent name with _ | existing
  · refine Succeeds.bind (P := fun created after => created = document.nextId ∧
      after = document.add (.element { name })) (Succeeds.of_done rfl ⟨rfl, rfl⟩) ?_
    rintro _ _ - ⟨rfl, rfl⟩
    have housed' := housed.add (.element { name })
    have wellFormed := housed'.toWellFormed
    have blank := housed.toTiered.blank_add { name } differ
    refine (succeeds_insertChild housed'.toTiered (by rw [size_add]; omega) blank.inStore
      (blank.outside wellFormed (nextId_ne inStore).symm) (blank.fits wellFormed parent) _).bind ?_
    rintro ⟨⟩ after - ⟨tiered, left, right, moves⟩
    refine Succeeds.of_pure ⟨housed'.of_moves moves tiered
      (blank.outside wellFormed (nextId_ne housed.lt_size).symm), by rw [moves.parent_eq, if_pos rfl], ?_,
      by rw [moves.size_eq, size_add]; omega, fun id isOld => ?_⟩
    · rw [moves.isNamed_eq, isNamed, name?, element?, content_add, if_pos rfl]
      simp [Content.element?]
    · rw [moves.parent_eq, if_neg (nextId_ne isOld).symm, parent_add]
  · rcases parent_of_childNamed? housed.toWellFormed found with ⟨isParent, named⟩
    exact Succeeds.of_pure ⟨housed, isParent, named, Nat.le_refl _, fun _ _ => rfl⟩

theorem succeeds_setFlag (housed : document.Housed stray host) (inStore : parent.index < document.size)
    (differ : name ≠ Word.Name.numberingProperties) :
    Succeeds (setFlag parent name) document fun _ after => after.Housed stray host := by
  refine Succeeds.of_get ?_
  rcases found : document.childNamed? parent name with _ | existing
  · refine Succeeds.bind (P := fun created after => created = document.nextId ∧
      after = document.add (.element { name })) (Succeeds.of_done rfl ⟨rfl, rfl⟩) ?_
    rintro _ _ - ⟨rfl, rfl⟩
    have housed' := housed.add (.element { name })
    have wellFormed := housed'.toWellFormed
    have blank := housed.toTiered.blank_add { name } differ
    refine (succeeds_appendChild housed'.toTiered (by rw [size_add]; omega) blank.inStore
      (blank.outside wellFormed (nextId_ne inStore).symm) (blank.fits wellFormed parent)).bind ?_
    rintro ⟨⟩ after - ⟨moves, tiered⟩
    exact Succeeds.of_pure (housed'.of_moves moves tiered
      (blank.outside wellFormed (nextId_ne housed.lt_size).symm))
  · exact Succeeds.of_pure housed

end Edit

end WordTemplate
