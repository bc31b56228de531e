import WordTemplate.Proofs.Document.Adding
import WordTemplate.Proofs.Document.Placing

/-!
# On the way from one tag to the next

Filling a tag takes several edits. Between them the document differs from the one at the start only
in a zone of nodes that are new enough, and the text nodes of the tags that come later are pending in
trees of the zone.
-/

namespace WordTemplate.Document

variable {zone : NodeId → Prop} {rights : Rights} {base : Nat}
  {start document document' before middle after : Document}
  {node parent text pivot id : NodeId} {texts rest kept left right : List NodeId}

/-- The rights over all nodes from the address `base` on, where the nodes of `start` keep their
places. -/
def Rights.since (base : Nat) (start : Document) : Rights where
  writes id := base ≤ id.index
  places id := start.size ≤ id.index

theorem Rights.within_since (document : Document) (fewer : before.size ≤ after.size) :
    (Rights.since base after).Within document (.since base before) where
  writes _ _ := id
  places _ _ := Nat.le_trans fewer

/-- `document` came about from `start` within the zone, and `texts` are pending in it. -/
structure Reached (zone : NodeId → Prop) (base : Nat) (start document : Document)
    (texts : List NodeId) : Prop extends
    ChangesWithin zone (.since base start) start document where
  fresh : ∀ id : NodeId, start.size ≤ id.index → zone id
  low : ∀ id, zone id → base ≤ id.index
  pending : ∃ tops, (∀ top ∈ tops, zone top ∧ top.index < start.size) ∧ document.Pending tops texts

/-- Tags in the given text nodes can be filled within the zone. -/
def Ready (zone : NodeId → Prop) (base : Nat) (document : Document) (texts : List NodeId) : Prop :=
  Reached zone base document document texts

namespace Reached

variable (reached : Reached zone base start document texts)
include reached

/-- What was reached is a place to start from. -/
theorem ready : Ready zone base document texts where
  toChangesWithin := ChangesWithin.refl reached.wellFormed
    { reached.closed with freshPlaces := id }
  fresh id beyond := reached.closed.fresh beyond
  low := reached.low
  pending := by
    rcases reached.pending with ⟨tops, known, pending⟩
    exact ⟨tops, fun top isTop => ⟨(known top isTop).1, pending.inStore top isTop⟩, pending⟩

theorem sublist (fewer : kept.Sublist texts) : Reached zone base start document kept where
  toChangesWithin := reached.toChangesWithin
  fresh := reached.fresh
  low := reached.low
  pending := by
    rcases reached.pending with ⟨tops, known, pending⟩
    exact ⟨tops, known, pending.sublist fewer⟩

/-- Whatever stands above a pending text node is in the zone. -/
theorem inZone (isMember : text ∈ texts) (inside : document.LiesIn id text) : zone id := by
  rcases reached.pending with ⟨tops, known, pending⟩
  exact pending.inZone reached.wellFormed reached.closed (fun top isTop => (known top isTop).1)
    isMember inside

theorem lt_size (isMember : text ∈ texts) : text.index < document.size := by
  rcases reached.pending with ⟨tops, known, pending⟩
  exact pending.lt_size reached.wellFormed isMember

theorem isText (isMember : text ∈ texts) : document.isText text = true := by
  rcases reached.pending with ⟨tops, known, pending⟩
  exact pending.isText isMember

theorem solitary (isMember : text ∈ texts) : document.Solitary text := by
  rcases reached.pending with ⟨tops, known, pending⟩
  exact pending.solitary text isMember

/-- New nodes stand above no pending text node as long as they are detached. -/
theorem not_liesIn_new (detached : document.parent node = none) (isNew : start.size ≤ node.index)
    (isMember : text ∈ texts) : ¬document.LiesIn node text := by
  rcases reached.pending with ⟨tops, known, pending⟩
  refine pending.not_liesIn_detached reached.wellFormed detached (fun isTop => ?_) isMember
  exact absurd (known node isTop).2 (Nat.not_lt_of_le isNew)

/-- A further edit that keeps all running text. -/
theorem neutral (neutral : Neutral zone (.since base start) document document') :
    Reached zone base start document' texts where
  toChangesWithin := reached.toChangesWithin.trans neutral.toChangesWithin
  fresh := reached.fresh
  low := reached.low
  pending := by
    rcases reached.pending with ⟨tops, known, pending⟩
    exact ⟨tops, known, pending.neutral neutral reached.wellFormed fun top isTop =>
      Nat.not_le_of_lt (known top isTop).2⟩

/-- A further edit that adds detached nodes. -/
theorem adds (adds : Adds document document') : Reached zone base start document' texts :=
  reached.neutral (adds.neutral reached.wellFormed reached.closed)

/-- A new node is placed where it stands beside something around a pending text node. -/
theorem place (moves : Moves document document' node parent left right)
    (detached : document.parent node = none) (isNew : start.size ≤ node.index)
    (isMember : text ∈ texts) (hosts : document.Hosts text parent) :
    Reached zone base start document' texts where
  toChangesWithin := reached.toChangesWithin.trans
    (moves.changesWithin reached.wellFormed reached.closed (reached.inZone isMember hosts.above)
      (reached.fresh node isNew) (movable_of_parent_none detached isNew))
  fresh := reached.fresh
  low := reached.low
  pending := by
    rcases reached.pending with ⟨tops, known, pending⟩
    refine ⟨tops, known, pending.place reached.wellFormed moves detached (fun isTop => ?_) isMember
      hosts⟩
    exact absurd (known node isTop).2 (Nat.not_lt_of_le isNew)

end Reached

/-- Something around the first pending text node is detached. -/
theorem Reached.detach (reached : Reached zone base start document (text :: rest))
    (above : document.LiesIn pivot text) (isOld : pivot.index < start.size) :
    Reached zone base start (document.detach pivot) rest := by
  rcases isParent : document.parent pivot with _ | parent
  · rw [detach_of_parent_none isParent]
    exact reached.sublist (List.sublist_cons_self text rest)
  · have isMember : text ∈ text :: rest := List.mem_cons_self
    have parentAbove := above.trans (LiesIn.parent isParent)
    rcases reached.pending with ⟨tops, known, pending⟩
    have movable : document.Movable zone (.since base start) pivot :=
      movable_of_parent isParent (reached.inZone isMember parentAbove)
    refine ⟨reached.toChangesWithin.trans
      (changesWithin_detach reached.wellFormed reached.closed movable), reached.fresh, reached.low, ?_⟩
    rcases pending.detach reached.wellFormed above isParent with ⟨earlier, top, later, rfl, pending'⟩
    refine ⟨_, ?_, pending'⟩
    intro other isOther
    simp only [List.mem_append, List.mem_cons] at isOther known
    rcases isOther with isOther | rfl | isOther
    · exact known other (Or.inl isOther)
    · exact ⟨reached.inZone isMember above, isOld⟩
    · exact known other (Or.inr isOther)

/-- An element around a pending text node is split in two halves. -/
theorem Reached.halves {whole half : NodeId} {kept moved : List NodeId}
    (reached : Reached zone base start document texts)
    (halves : Halves document document' whole half kept moved)
    (changes : ChangesWithin zone (.since base start) document document')
    (shows : document.showsChildren whole = true)
    (notText : document.isNamed whole Word.Name.text = false) :
    Reached zone base start document' texts where
  toChangesWithin := reached.toChangesWithin.trans changes
  fresh := reached.fresh
  low := reached.low
  pending := by
    rcases reached.pending with ⟨tops, known, pending⟩
    exact ⟨tops, known, pending.halves reached.wellFormed halves shows notText⟩

/-- Added nodes stand above no older text node. -/
theorem Hosts.adds (hosts : before.Hosts text parent) (adds : Adds before after)
    (wellFormed : before.WellFormed) (isOld : text.index < before.size) :
    after.Hosts text parent := by
  refine hosts.of_parent_eq (fun id above => ?_) fun holder isHolder => ?_
  · exact adds.parent_eq (lt_size_of_liesIn wellFormed above isOld)
  · exact isNamed_of_content_eq (adds.content_eq (parent_lt_size wellFormed isHolder)) _

end WordTemplate.Document

namespace WordTemplate.Edit

open Outcome Document

variable {zone : NodeId → Prop} {base : Nat} {start document document' : Document}
  {node reference parent text : NodeId} {texts : List NodeId} {result : Unit}

/-- A new node now stands below `parent`, which hosts a pending text node. -/
structure Placed (zone : NodeId → Prop) (base : Nat) (start before after : Document)
    (node parent text : NodeId) (texts : List NodeId) : Prop extends
    Reached zone base start after texts where
  size_eq : after.size = before.size
  parent_eq : ∀ id, after.parent id = if id = node then some parent else before.parent id
  hosts : ∀ outer, after.parent node = some outer → after.Hosts text outer
  above : ∀ id, before.LiesIn id text → after.LiesIn id text

theorem parent_eq_of_moves {left right : List NodeId}
    (reached : Reached zone base start document texts)
    (moves : Moves document document' node parent left right)
    (detached : document.parent node = none) (isNew : start.size ≤ node.index)
    (isMember : text ∈ texts) (id : NodeId) (above : document.LiesIn id text) :
    document'.parent id = document.parent id := by
  have differ : id ≠ node := by
    rintro rfl
    exact reached.not_liesIn_new detached isNew isMember above
  rw [moves.parent_eq, if_neg differ]

theorem placed_of_moves {left right : List NodeId}
    (reached : Reached zone base start document texts)
    (moves : Moves document document' node parent left right)
    (detached : document.parent node = none) (isNew : start.size ≤ node.index)
    (isMember : text ∈ texts) (hosts : document.Hosts text parent) :
    Placed zone base start document document' node parent text texts where
  toReached := reached.place moves detached isNew isMember hosts
  size_eq := moves.size_eq
  parent_eq := moves.parent_eq
  hosts outer isOuter := by
    rw [moves.parent_eq, if_pos rfl, Option.some.injEq] at isOuter
    exact isOuter ▸ hosts.of_parent_eq
      (parent_eq_of_moves reached moves detached isNew isMember)
      fun holder _ => isNamed_of_content_eq (moves.content_eq _) _
  above id := (liesIn_iff_of_parent_eq
    (parent_eq_of_moves reached moves detached isNew isMember)).mpr

theorem placed_of_insertAfter (reached : Reached zone base start document texts)
    (isMember : text ∈ texts)
    (hosts : ∀ parent, document.parent reference = some parent → document.Hosts text parent)
    (detached : document.parent node = none) (isNew : start.size ≤ node.index)
    (inStore : node.index < document.size)
    (done : insertAfter node reference document = .ok result document') :
    ∃ parent, document.parent reference = some parent ∧
      Placed zone base start document document' node parent text texts := by
  rcases moves_of_insertAfter reached.wellFormed inStore done with
    ⟨parent, _, _, isParent, -, moves⟩
  exact ⟨parent, isParent,
    placed_of_moves reached moves detached isNew isMember (hosts parent isParent)⟩

theorem placed_of_insertBefore (reached : Reached zone base start document texts)
    (isMember : text ∈ texts)
    (hosts : ∀ parent, document.parent reference = some parent → document.Hosts text parent)
    (detached : document.parent node = none) (isNew : start.size ≤ node.index)
    (inStore : node.index < document.size)
    (done : insertBefore node reference document = .ok result document') :
    ∃ parent, document.parent reference = some parent ∧
      Placed zone base start document document' node parent text texts := by
  rcases moves_of_insertBefore reached.wellFormed inStore done with
    ⟨parent, _, _, isParent, -, moves⟩
  exact ⟨parent, isParent,
    placed_of_moves reached moves detached isNew isMember (hosts parent isParent)⟩

/-- A new tree is placed after something older. -/
theorem placed_of_fresh {middle : Document} (reached : Reached zone base start document texts)
    (isMember : text ∈ texts) (isOld : reference.index < document.size)
    (hosts : ∀ parent, document.parent reference = some parent → document.Hosts text parent)
    (fresh : Fresh document middle node)
    (done : insertAfter node reference middle = .ok result document') :
    ∃ parent, Placed zone base start middle document' node parent text texts := by
  have hosts' : ∀ parent, middle.parent reference = some parent → middle.Hosts text parent := by
    intro parent isParent
    rw [fresh.parent_eq isOld] at isParent
    exact (hosts parent isParent).adds fresh.toAdds reached.wellFormed (reached.lt_size isMember)
  rcases placed_of_insertAfter (reached.adds fresh.toAdds) isMember hosts' fresh.detached
    (Nat.le_trans reached.size_le fresh.isNew) fresh.inStore done with ⟨parent, -, placed⟩
  exact ⟨parent, placed⟩

end WordTemplate.Edit
