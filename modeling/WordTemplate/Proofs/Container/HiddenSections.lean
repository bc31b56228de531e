import WordTemplate.Proofs.Container.Intact
import WordTemplate.Proofs.Container.Regions
import WordTemplate.Proofs.Container.Vanishing

/-!
# Hidden sections

A hidden section that stays in the document is merged like any other one. Then its nodes are flagged,
and bookmarks are put around its blocks. The nodes were collected before the region was put back, and
putting it back leaves their contents alone, so what is flagged are the nodes of the section that are
part of the tree by then.
-/

namespace WordTemplate

open Document Outcome

/-! ## Bookmarks -/

/-- Nothing happened but that bookmarks were put among the nodes. -/
structure Document.Bookmarked (before after : Document) : Prop where
  wellFormed : after.WellFormed
  size_le : before.size ≤ after.size
  root_eq : after.root = before.root
  content_eq : ∀ id, id.index < before.size → after.content id = before.content id
  parent_eq : ∀ id, id.index < before.size → after.parent id = before.parent id
  children_eq : ∀ id,
    (after.children id).filter (fun child => child.index < before.size) = before.children id
  added : ∀ id, before.size ≤ id.index → id.index < after.size →
    after.isNamed id Word.Name.bookmarkStart = true ∨ after.isNamed id Word.Name.bookmarkEnd = true

namespace Document.Bookmarked

variable {document before middle after : Document} {node parent : NodeId} {left right : List NodeId}
  {held : Element}

theorem refl (wellFormed : document.WellFormed) : Bookmarked document document where
  wellFormed := wellFormed
  size_le := Nat.le_refl _
  root_eq := rfl
  content_eq _ _ := rfl
  parent_eq _ _ := rfl
  children_eq id := List.filter_eq_self.mpr fun child isChild => by
    simpa using lt_size_of_parent ((wellFormed.mem_children_iff _ _).mp isChild)
  added _ isNew inStore := absurd inStore (Nat.not_lt_of_le isNew)

theorem add (bookmarked : Bookmarked before middle)
    (named : held.name = Word.Name.bookmarkStart ∨ held.name = Word.Name.bookmarkEnd) :
    Bookmarked before (middle.add (.element held)) where
  wellFormed := bookmarked.wellFormed.add _
  size_le := by
    rw [size_add]
    exact Nat.le_succ_of_le bookmarked.size_le
  root_eq := bookmarked.root_eq
  content_eq id isOld := by
    rw [content_add, if_neg (nextId_ne (Nat.lt_of_lt_of_le isOld bookmarked.size_le)).symm,
      bookmarked.content_eq id isOld]
  parent_eq id isOld := by rw [parent_add, bookmarked.parent_eq id isOld]
  children_eq id := by rw [children_add, bookmarked.children_eq id]
  added id isNew inStore := by
    simp only [isNamed, name?, element?, content_add]
    split
    · simpa [Content.element?] using named
    · next differ =>
        rw [size_add] at inStore
        have isOld : id.index < middle.size :=
          (Nat.lt_succ_iff_lt_or_eq.mp inStore).resolve_right fun same =>
            differ (congrArg NodeId.mk same)
        exact bookmarked.added id isNew isOld

theorem moves (bookmarked : Bookmarked before middle) (isNew : before.size ≤ node.index)
    (moves : Moves middle after node parent left right) : Bookmarked before after where
  wellFormed := moves.wellFormed
  size_le := moves.size_eq ▸ bookmarked.size_le
  root_eq := moves.root_eq.trans bookmarked.root_eq
  content_eq id isOld := (moves.content_eq id).trans (bookmarked.content_eq id isOld)
  parent_eq id isOld := by
    rw [moves.parent_eq, if_neg, bookmarked.parent_eq id isOld]
    rintro rfl
    exact absurd isOld (Nat.not_lt_of_le isNew)
  children_eq id := by
    have dropped : decide (node.index < before.size) = false := by simpa using isNew
    have others : ((middle.children id).filter (· != node)).filter
        (fun child => child.index < before.size) = before.children id := by
      rw [← bookmarked.children_eq id, List.filter_filter]
      refine List.filter_congr fun child _ => ?_
      by_cases same : child = node <;> simp [same, isNew]
    rw [moves.children_eq]
    split
    · next same =>
        rw [List.filter_append, List.filter_cons_of_neg (by simp [dropped]), ← List.filter_append,
          ← moves.others_eq, ← same, others]
    · exact others
  added id isNew inStore := by
    simp only [isNamed, name?, element?, moves.content_eq]
    exact bookmarked.added id isNew (moves.size_eq ▸ inStore)

/-- Bookmarks hold no text. -/
theorem textContent_eq {id : NodeId} (bookmarked : Bookmarked before after)
    (wellFormed : before.WellFormed) (isOld : id.index < before.size) :
    after.textContent id = before.textContent id :=
  textContent_of_additions wellFormed bookmarked.wellFormed bookmarked.content_eq
    bookmarked.children_eq
    (fun id isNew inStore => (bookmarked.added id isNew inStore).elim isText_eq_false_of_isNamed
      isText_eq_false_of_isNamed)
    bookmarked.size_le isOld

/-- Nothing that was there came to lie below a new node. -/
theorem not_liesIn {id : NodeId} (bookmarked : Bookmarked before middle) (wellFormed : before.WellFormed)
    (isNew : before.size ≤ node.index) (isOld : id.index < before.size) : ¬middle.LiesIn node id := by
  intro inside
  induction inside using Relation.ReflTransGen.head_induction_on with
  | refl => exact absurd isOld (Nat.not_lt_of_le isNew)
  | head isParent _ inductionHypothesis =>
      rw [bookmarked.parent_eq _ isOld] at isParent
      exact inductionHypothesis (parent_lt_size wellFormed isParent)

section Inserting

variable {reference : NodeId} (bookmarked : Bookmarked before middle) (wellFormed : before.WellFormed)
  (isNew : before.size ≤ node.index) (isParent : before.parent reference = some parent)
include bookmarked wellFormed isNew isParent

theorem insertable : middle.parent reference = some parent ∧ node ≠ reference ∧
    ¬middle.LiesIn node parent := by
  have isOld := lt_size_of_parent isParent
  refine ⟨(bookmarked.parent_eq _ isOld).trans isParent, ?_,
    bookmarked.not_liesIn wellFormed isNew (parent_lt_size wellFormed isParent)⟩
  rintro rfl
  exact absurd isOld (Nat.not_lt_of_le isNew)

variable (inStore : node.index < middle.size)
include inStore

theorem insertBefore : Succeeds (Edit.insertBefore node reference) middle fun _ after =>
    Bookmarked before after ∧ after.size = middle.size := by
  rcases bookmarked.insertable wellFormed isNew isParent with ⟨isParent', differ, outside⟩
  rcases Edit.exists_moves_insertBefore bookmarked.wellFormed isParent' inStore differ outside with
    ⟨after, left, right, done, moves⟩
  exact ⟨⟨⟩, after, done, bookmarked.moves isNew moves, moves.size_eq⟩

theorem insertAfter : Succeeds (Edit.insertAfter node reference) middle fun _ after =>
    Bookmarked before after := by
  rcases bookmarked.insertable wellFormed isNew isParent with ⟨isParent', differ, outside⟩
  rcases Edit.exists_moves_insertAfter bookmarked.wellFormed isParent' inStore differ outside with
    ⟨after, left, right, done, moves⟩
  exact ⟨⟨⟩, after, done, bookmarked.moves isNew moves⟩

end Inserting

end Document.Bookmarked

namespace Edit

variable {document : Document} {first last parent : NodeId} {part : Section} {nodes : SectionNodes}
  {zone : NodeId → Prop}

end Edit

/-! ## Merging and hiding -/

namespace SectionNodes

variable {document : Document} {topmost : List NodeId} {nodes : SectionNodes} {head id : NodeId}
  {kind : HiddenKind}

theorem Sorted.carries {after : Document} (sorted : nodes.Sorted head document)
    (carries : document.Carries after) : nodes.Sorted head after where
  inStore kind id isMember := Nat.lt_of_lt_of_le (sorted.inStore kind id isMember) carries.size_le
  named kind differs id isMember := by
    rw [carries.isNamed_eq (sorted.inStore kind id isMember)]
    exact sorted.named kind differs id isMember

theorem Sorted.known (sorted : nodes.Sorted head document) : nodes.Known (fun _ => True) document where
  topmost _ _ _ _ := trivial
  runs id isMember := ⟨trivial, sorted.inStore .run id isMember⟩
  paragraphs id isMember := ⟨trivial, sorted.inStore .paragraph id (List.mem_append_left _ isMember)⟩
  rows id isMember := ⟨trivial, sorted.inStore .row id isMember⟩
  controlProperties id isMember := ⟨trivial, sorted.inStore .controlProperties id isMember⟩

end SectionNodes

namespace Section

variable {style : HidingStyle} {context : Context} {region : Region} {compile : RegionCompiler region}
  {bound : Option Section} {part : Section} {nodes : SectionNodes} {head : NodeId}
  {before middle merged : Workspace}

end Section

end WordTemplate
