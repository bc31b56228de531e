import WordTemplate.Proofs.Document.Adding
import WordTemplate.Proofs.Document.Siblings

/-!
# Sheltered nodes

A shelter keeps one node as it is, together with everything below it, while edits go on in a zone on
one side of it. Edits reach into the child lists of the nodes above the sheltered node as well, but
there they only move nodes of the zone, which stand side by side, and drop nodes from elsewhere.
-/

namespace WordTemplate

open Document

/-- The names of the elements that are looked for around a tag. -/
def Word.Name.enclosing : List String :=
  [paragraph, run, text, tableRow, contentControl]

/-- A node that is kept, and a zone on one side of it where edits go on. -/
structure Shelter where
  core : NodeId
  /-- The nodes above the core. -/
  above : NodeId → Prop
  zone : NodeId → Prop
  /-- What stood before the zone among the children of a node above the core. -/
  ahead : NodeId → List NodeId
  /-- What stood behind the zone among the children of a node above the core. -/
  behind : NodeId → List NodeId

namespace Shelter

variable {shelter : Shelter} {document before middle after : Document}
  {id child parent node reference : NodeId} {left right children : List NodeId}

/-- The core and the nodes above it. -/
def Stem (shelter : Shelter) (id : NodeId) : Prop := id = shelter.core ∨ shelter.above id

/-- The zone is one stretch of a child list. What surrounds it was there before. -/
def Frames (shelter : Shelter) (parent : NodeId) (children : List NodeId) : Prop :=
  ∃ lead inner trail, children = lead ++ inner ++ trail ∧ (∀ id ∈ inner, shelter.zone id) ∧
    (∀ id ∈ lead ++ trail, ¬shelter.zone id) ∧ lead.Sublist (shelter.ahead parent) ∧
    trail.Sublist (shelter.behind parent)

/-- A member of two lists one after the other stands in one of them. -/
theorem append_eq_append_cons_cases {first second : List NodeId}
    (split : first ++ second = left ++ id :: right) :
    (∃ between, first = left ++ id :: between ∧ right = between ++ second) ∨
      ∃ between, left = first ++ between ∧ second = between ++ id :: right := by
  rcases List.append_eq_append_iff.mp split with ⟨between, rfl, rest⟩ | ⟨between, rfl, rest⟩
  · exact Or.inr ⟨between, rfl, rest⟩
  · cases between with
    | nil => exact Or.inr ⟨[], by simp, rest.symm⟩
    | cons head between =>
        rw [List.cons_append, List.cons.injEq] at rest
        rcases rest with ⟨rfl, rfl⟩
        exact Or.inl ⟨between, rfl, rfl⟩

namespace Frames

theorem filter (frames : shelter.Frames parent children) (keep : NodeId → Bool) :
    shelter.Frames parent (children.filter keep) := by
  rcases frames with ⟨lead, inner, trail, rfl, inside, outside, isLead, isTrail⟩
  refine ⟨lead.filter keep, inner.filter keep, trail.filter keep, by simp, ?_, ?_,
    List.filter_sublist.trans isLead, List.filter_sublist.trans isTrail⟩
  · exact fun id isMember => inside id (List.mem_of_mem_filter isMember)
  · rw [← List.filter_append]
    exact fun id isMember => outside id (List.mem_of_mem_filter isMember)

/-- Around a node of the zone there is the rest of the zone, and then what surrounds it. -/
theorem exists_around (frames : shelter.Frames parent (left ++ id :: right))
    (inZone : shelter.zone id) :
    ∃ lead first second trail, left = lead ++ first ∧ right = second ++ trail ∧
      (∀ other ∈ first ++ second, shelter.zone other) ∧
      (∀ other ∈ lead ++ trail, ¬shelter.zone other) ∧ lead.Sublist (shelter.ahead parent) ∧
      trail.Sublist (shelter.behind parent) := by
  rcases frames with ⟨lead, inner, trail, split, inside, outside, isLead, isTrail⟩
  rcases append_eq_append_cons_cases split.symm with ⟨second, isInner, rfl⟩ | ⟨first, -, isTrail'⟩
  · rcases append_eq_append_cons_cases isInner with ⟨first, isLead', -⟩ | ⟨first, rfl, rfl⟩
    · refine absurd inZone (outside id (List.mem_append_left _ ?_))
      simp [isLead']
    · refine ⟨lead, first, second, trail, rfl, rfl, fun other isMember => inside other ?_, outside,
        isLead, isTrail⟩
      simp only [List.mem_append, List.mem_cons] at isMember ⊢
      exact isMember.imp_right Or.inr
  · refine absurd inZone (outside id (List.mem_append_right _ ?_))
    simp [isTrail']

/-- A node of the zone may come to stand beside another one. -/
theorem insert (frames : shelter.Frames parent (left ++ id :: right)) (inZone : shelter.zone id)
    (nodeInZone : shelter.zone node) :
    shelter.Frames parent (left ++ id :: node :: right) ∧
      shelter.Frames parent (left ++ node :: id :: right) := by
  rcases frames.exists_around inZone with
    ⟨lead, first, second, trail, rfl, rfl, inside, outside, isLead, isTrail⟩
  have inside' : ∀ other ∈ first ++ id :: node :: second, shelter.zone other := by
    intro other isMember
    simp only [List.mem_append, List.mem_cons] at isMember inside
    rcases isMember with isFirst | rfl | rfl | isSecond
    · exact inside other (Or.inl isFirst)
    · exact inZone
    · exact nodeInZone
    · exact inside other (Or.inr isSecond)
  refine ⟨⟨lead, first ++ id :: node :: second, trail, by simp, inside', outside, isLead, isTrail⟩,
    lead, first ++ node :: id :: second, trail, by simp, fun other isMember => inside' other ?_,
    outside, isLead, isTrail⟩
  simp only [List.mem_append, List.mem_cons] at isMember ⊢
  rcases isMember with isMember | isMember | isMember | isMember <;> simp [isMember]

/-- Between nodes of the zone there are only nodes of the zone. -/
theorem zone_of_mem {first last : NodeId} {range : List NodeId}
    (frames : shelter.Frames parent (left ++ range ++ right)) (isFirst : range.head? = some first)
    (isLast : range.getLast? = some last) (firstInZone : shelter.zone first)
    (lastInZone : shelter.zone last) : ∀ other ∈ range, shelter.zone other := by
  rcases List.head?_eq_some_iff.mp isFirst with ⟨rest, rfl⟩
  rw [List.append_assoc, List.cons_append] at frames
  rcases frames.exists_around firstInZone with
    ⟨lead, earlier, later, trail, -, split, inside, outside, -, -⟩
  have restInZone : ∀ other ∈ rest, shelter.zone other := by
    rcases rest.eq_nil_or_concat with rfl | ⟨init, final, rfl⟩
    · simp
    rw [List.concat_eq_append] at split isLast ⊢
    rw [← List.cons_append, List.getLast?_concat, Option.some.injEq] at isLast
    subst isLast
    rw [List.append_assoc] at split
    rcases append_eq_append_cons_cases split.symm with ⟨between, rfl, -⟩ | ⟨between, -, isTrail⟩
    · intro other isMember
      refine inside other ?_
      simp only [List.mem_append, List.mem_cons, List.not_mem_nil, or_false] at isMember ⊢
      rcases isMember with isInit | rfl
      · exact Or.inr (Or.inl isInit)
      · exact Or.inr (Or.inr (Or.inl rfl))
    · refine absurd lastInZone (outside final (List.mem_append_right _ ?_))
      simp [isTrail]
  intro other isMember
  rcases List.mem_cons.mp isMember with rfl | isRest
  · exact firstInZone
  · exact restInZone other isRest

end Frames

/-! ## The shelter holds -/

/-- The core stands where the shelter says, and the zone with its surroundings as well. -/
structure Holds (shelter : Shelter) (document : Document) : Prop where
  wellFormed : document.WellFormed
  fresh : ∀ {id}, document.size ≤ id.index → shelter.zone id
  child : ∀ {child parent}, document.parent child = some parent → shelter.zone parent →
    shelter.zone child
  parent : ∀ {child parent}, document.parent child = some parent → shelter.zone child →
    shelter.zone parent ∨ shelter.above parent
  climb : ∀ {child parent}, shelter.Stem child → document.parent child = some parent →
    shelter.above parent
  outside : ∀ {id}, shelter.Stem id → ¬shelter.zone id
  descend : ∀ {id}, shelter.above id →
    ∃ child, shelter.Stem child ∧ document.parent child = some id
  frames : ∀ {id}, shelter.above id → shelter.Frames id (document.children id)
  names : ∀ {id name}, shelter.above id → name ∈ Word.Name.enclosing →
    document.isNamed id name = false
  notRun : ∀ {id}, shelter.Stem id → document.isNamed id Word.Name.run = false

/-- A node of the zone that is in the store. -/
structure Open (shelter : Shelter) (document : Document) (id : NodeId) : Prop where
  inZone : shelter.zone id
  inStore : id.index < document.size

namespace Holds

variable (holds : shelter.Holds document)
include holds

theorem lt_size (notInZone : ¬shelter.zone id) : id.index < document.size := by
  by_contra beyond
  exact notInZone (holds.fresh (Nat.le_of_not_lt beyond))

theorem open_child (isParent : document.parent child = some parent) (inZone : shelter.zone parent) :
    shelter.Open document child :=
  ⟨holds.child isParent inZone, lt_size_of_parent isParent⟩

theorem open_of_mem_children (isChild : child ∈ document.children parent)
    (inZone : shelter.zone parent) : shelter.Open document child :=
  holds.open_child ((holds.wellFormed.mem_children_iff _ _).mp isChild) inZone

theorem open_of_childNamed? {name : String} (found : document.childNamed? parent name = some child)
    (inZone : shelter.zone parent) : shelter.Open document child :=
  holds.open_of_mem_children (List.mem_of_find?_eq_some found) inZone

theorem zone_of_liesIn (inside : document.LiesIn parent id) (inZone : shelter.zone parent) :
    shelter.zone id := by
  induction inside using Relation.ReflTransGen.head_induction_on with
  | refl => exact inZone
  | head isParent _ inductionHypothesis => exact holds.child isParent inductionHypothesis

/-- Nothing but nodes of the zone and nodes above the core stands around the zone. -/
theorem zone_or_above (inside : document.LiesIn node id) (inZone : shelter.zone id) :
    shelter.zone node ∨ shelter.above node := by
  induction inside with
  | refl => exact Or.inl inZone
  | tail _ isParent inductionHypothesis =>
      rcases inductionHypothesis with inZone | isAbove
      · exact holds.parent isParent inZone
      · exact Or.inr (holds.climb (Or.inr isAbove) isParent)

/-- An element with one of the enclosing names around the zone is in the zone. -/
theorem open_of_named {name : String} (inside : document.LiesIn node id) (inZone : shelter.zone id)
    (named : document.isNamed node name = true) (isEnclosing : name ∈ Word.Name.enclosing) :
    shelter.Open document node := by
  refine ⟨(holds.zone_or_above inside inZone).resolve_right fun isAbove => ?_,
    lt_size_of_isNamed named⟩
  rw [holds.names isAbove isEnclosing] at named
  cases named

theorem open_of_ancestorNamed? {name : String} (inZone : shelter.zone id)
    (found : document.ancestorNamed? id name = some node)
    (isEnclosing : name ∈ Word.Name.enclosing) : shelter.Open document node := by
  have isMember := List.mem_of_find?_eq_some found
  have inside : document.LiesIn node id := by
    rw [← mem_ancestors_iff holds.wellFormed]
    exact (List.mem_cons.mp isMember).imp_left Eq.symm
  exact holds.open_of_named inside inZone (by simpa using List.find?_some found) isEnclosing

theorem open_of_textElement? (inZone : shelter.zone id)
    (found : document.textElement? id = some node) : shelter.Open document node := by
  rcases Option.filter_eq_some_iff.mp found with ⟨isParent, named⟩
  exact holds.open_of_named (LiesIn.parent isParent) inZone named (by simp [Word.Name.enclosing])

theorem open_textUnit (isOpen : shelter.Open document id) :
    shelter.Open document (document.textUnit id) := by
  rw [textUnit]
  cases found : document.textElement? id with
  | none => exact isOpen
  | some element => exact holds.open_of_textElement? isOpen.inZone found

/-- The nodes between two siblings in the zone are in the zone. -/
theorem open_of_siblingRange {first last : NodeId} {range : List NodeId}
    (found : document.siblingRange first last = .ok range) (firstInZone : shelter.zone first)
    (lastInZone : shelter.zone last) : ∀ id ∈ range, shelter.Open document id := by
  rcases stretch_of_siblingRange found with ⟨top, lead, trail, stretch⟩
  intro id isMember
  have isParent := stretch.parent_eq holds.wellFormed isMember
  refine ⟨?_, lt_size_of_parent isParent⟩
  rcases holds.parent stretch.isParent firstInZone with topInZone | isAbove
  · exact holds.child isParent topInZone
  · have frames := holds.frames isAbove
    rw [stretch.children_eq] at frames
    exact frames.zone_of_mem stretch.head_eq stretch.getLast_eq firstInZone lastInZone id isMember

/-- An element above the core always has something to carry. -/
theorem not_isPrunable (isAbove : shelter.above id) : document.isPrunable id = false := by
  rcases holds.descend isAbove with ⟨child, -, isParent⟩
  have isChild := (holds.wellFormed.mem_children_iff _ _).mpr isParent
  have notEmpty : (document.children id).isEmpty = false := by
    rw [List.isEmpty_eq_false_iff]
    exact List.ne_nil_of_mem isChild
  simp [isPrunable, notEmpty, isEmptyRun, holds.notRun (Or.inr isAbove)]

end Holds

/-! ## Edits that spare what is sheltered -/

/-- Edits in the zone, and in the child lists of the nodes above the core, left the rest alone. -/
structure Spares (shelter : Shelter) (before after : Document) : Prop where
  holds : shelter.Holds after
  size_le : before.size ≤ after.size
  root_eq : after.root = before.root
  content_eq : ∀ {id}, ¬shelter.zone id → after.content id = before.content id
  children_eq : ∀ {id}, ¬shelter.zone id → ¬shelter.above id →
    after.children id = before.children id
  parent_eq : ∀ {id}, shelter.Stem id → after.parent id = before.parent id

namespace Spares

theorem refl (holds : shelter.Holds document) : shelter.Spares document document :=
  ⟨holds, Nat.le_refl _, rfl, fun _ => rfl, fun _ _ => rfl, fun _ => rfl⟩

theorem trans (first : shelter.Spares before middle) (second : shelter.Spares middle after) :
    shelter.Spares before after where
  holds := second.holds
  size_le := Nat.le_trans first.size_le second.size_le
  root_eq := second.root_eq.trans first.root_eq
  content_eq outside := (second.content_eq outside).trans (first.content_eq outside)
  children_eq outside notAbove :=
    (second.children_eq outside notAbove).trans (first.children_eq outside notAbove)
  parent_eq isStem := (second.parent_eq isStem).trans (first.parent_eq isStem)

theorem inStore (spares : shelter.Spares before after) (inStore : id.index < before.size) :
    id.index < after.size :=
  Nat.lt_of_lt_of_le inStore spares.size_le

theorem isOpen (spares : shelter.Spares before after) (isOpen : shelter.Open before id) :
    shelter.Open after id :=
  ⟨isOpen.inZone, spares.inStore isOpen.inStore⟩

end Spares

/-- A shelter still holds if the zone and its surroundings are still closed. -/
theorem Holds.of_eq (holds : shelter.Holds before) (wellFormed : after.WellFormed)
    (size_le : before.size ≤ after.size)
    (content_eq : ∀ {id}, ¬shelter.zone id → after.content id = before.content id)
    (parent_eq : ∀ {id}, shelter.Stem id → after.parent id = before.parent id)
    (closed : ∀ {child parent}, after.parent child = some parent →
      (shelter.zone parent → shelter.zone child) ∧
        (shelter.zone child → shelter.zone parent ∨ shelter.above parent))
    (frames : ∀ {id}, shelter.above id → shelter.Frames id (after.children id)) :
    shelter.Holds after where
  wellFormed := wellFormed
  fresh beyond := holds.fresh (Nat.le_trans size_le beyond)
  child isParent := (closed isParent).1
  parent isParent := (closed isParent).2
  climb isStem isParent := holds.climb isStem (parent_eq isStem ▸ isParent)
  outside := holds.outside
  descend isAbove := by
    rcases holds.descend isAbove with ⟨child, isStem, isParent⟩
    exact ⟨child, isStem, (parent_eq isStem).trans isParent⟩
  frames := frames
  names isAbove isEnclosing := by
    rw [isNamed_of_content_eq (content_eq (holds.outside (Or.inr isAbove)))]
    exact holds.names isAbove isEnclosing
  notRun isStem := by
    rw [isNamed_of_content_eq (content_eq (holds.outside isStem))]
    exact holds.notRun isStem

theorem spares_of_adds (holds : shelter.Holds before) (adds : Adds before after) :
    shelter.Spares before after := by
  have old : ∀ {id}, ¬shelter.zone id → id.index < before.size := holds.lt_size
  have content_eq : ∀ {id}, ¬shelter.zone id → after.content id = before.content id :=
    fun outside => adds.content_eq (old outside)
  have parent_eq : ∀ {id}, shelter.Stem id → after.parent id = before.parent id :=
    fun isStem => adds.parent_eq (old (holds.outside isStem))
  refine ⟨holds.of_eq adds.wellFormed adds.size_le content_eq parent_eq (fun isParent => ?_)
    fun isAbove => ?_, adds.size_le, adds.root_eq, content_eq,
    fun outside _ => adds.children_eq (old outside), parent_eq⟩
  · rename_i child parent
    rcases Nat.lt_or_ge child.index before.size with isOld | isNew
    · rw [adds.parent_eq isOld] at isParent
      exact ⟨holds.child isParent, holds.parent isParent⟩
    · refine ⟨fun _ => holds.fresh isNew, fun _ => Or.inl (holds.fresh ?_)⟩
      by_contra parentOld
      have isChild := (adds.wellFormed.mem_children_iff _ _).mpr isParent
      rw [adds.children_eq (Nat.lt_of_not_le parentOld), holds.wellFormed.mem_children_iff] at isChild
      exact absurd (lt_size_of_parent isChild) (Nat.not_lt_of_le isNew)
  · rw [adds.children_eq (old (holds.outside (Or.inr isAbove)))]
    exact holds.frames isAbove

theorem spares_setContent (holds : shelter.Holds document) (inZone : shelter.zone id)
    (content : Content) : shelter.Spares document (document.setContent id content) := by
  have content_eq : ∀ {other}, ¬shelter.zone other →
      (document.setContent id content).content other = document.content other := by
    intro other outside
    have differ : other ≠ id := by
      rintro rfl
      exact outside inZone
    rw [Document.content, node_setContent_of_ne differ]
    rfl
  refine ⟨holds.of_eq (holds.wellFormed.setContent id content) (Nat.le_of_eq (by simp)) content_eq
    (fun _ => parent_setContent _ _ _ _) (fun isParent => ?_) fun isAbove => ?_,
    Nat.le_of_eq (by simp), rfl, content_eq, fun _ _ => children_setContent _ _ _ _,
    fun _ => parent_setContent _ _ _ _⟩
  · rw [parent_setContent] at isParent
    exact ⟨holds.child isParent, holds.parent isParent⟩
  · rw [children_setContent]
    exact holds.frames isAbove

theorem spares_setAttribute (holds : shelter.Holds document) (inZone : shelter.zone id)
    (key value : String) : shelter.Spares document (document.setAttribute id key value) := by
  rw [setAttribute]
  split
  · exact spares_setContent holds inZone _
  · exact Spares.refl holds

/-- Besides nodes of the zone, others may be dropped from child lists of the nodes above the core. -/
theorem spares_detach (holds : shelter.Holds document) (notStem : ¬shelter.Stem id)
    (loose : ∀ parent, document.parent id = some parent →
      shelter.zone parent ∨ shelter.above parent) :
    shelter.Spares document (document.detach id) := by
  have wellFormed := holds.wellFormed
  have parent_eq : ∀ {other}, shelter.Stem other →
      (document.detach id).parent other = document.parent other := by
    intro other isStem
    rw [parent_detach wellFormed, if_neg]
    rintro rfl
    exact notStem isStem
  refine ⟨holds.of_eq (wellFormed.detach id) (Nat.le_of_eq (size_detach _ _).symm)
    (fun _ => content_detach wellFormed _ _) parent_eq (fun isParent => ?_) fun isAbove => ?_,
    Nat.le_of_eq (size_detach _ _).symm, root_detach _ _, fun _ => content_detach wellFormed _ _,
    fun {other} outside notAbove => ?_, parent_eq⟩
  · rw [parent_detach wellFormed] at isParent
    split at isParent
    · cases isParent
    · exact ⟨holds.child isParent, holds.parent isParent⟩
  · rw [children_detach wellFormed]
    exact (holds.frames isAbove).filter _
  · rw [children_detach wellFormed]
    refine filter_children_of_ne wellFormed fun isParent => ?_
    exact (loose other isParent).elim outside notAbove

theorem spares_detach_of_zone (holds : shelter.Holds document) (inZone : shelter.zone id) :
    shelter.Spares document (document.detach id) :=
  spares_detach holds (fun isStem => holds.outside isStem inZone)
    fun _ isParent => holds.parent isParent inZone

/-- A node of the zone is moved to a place in the zone. -/
theorem spares_of_moves (holds : shelter.Holds before)
    (moves : Moves before after node parent left right) (inZone : shelter.zone node)
    (fits : shelter.zone parent ∨
      shelter.above parent ∧ shelter.Frames parent (left ++ node :: right)) :
    shelter.Spares before after := by
  have parent_eq : ∀ {id}, shelter.Stem id → after.parent id = before.parent id := by
    intro id isStem
    rw [moves.parent_eq, if_neg]
    rintro rfl
    exact holds.outside isStem inZone
  refine ⟨holds.of_eq moves.wellFormed (Nat.le_of_eq moves.size_eq.symm)
    (fun _ => moves.content_eq _) parent_eq (fun isParent => ?_) fun {id} isAbove => ?_,
    Nat.le_of_eq moves.size_eq.symm, moves.root_eq, fun _ => moves.content_eq _,
    fun {id} outside notAbove => ?_, parent_eq⟩
  · rw [moves.parent_eq] at isParent
    split at isParent
    · next same =>
        rw [Option.some.injEq] at isParent
        exact ⟨fun _ => same ▸ inZone, fun _ => isParent ▸ fits.imp_right And.left⟩
    · exact ⟨holds.child isParent, holds.parent isParent⟩
  · rw [moves.children_eq]
    split
    · next same =>
        rcases fits with parentInZone | ⟨-, frames⟩
        · exact absurd (same ▸ parentInZone) (holds.outside (Or.inr isAbove))
        · exact same ▸ frames
    · exact (holds.frames isAbove).filter _
  · have differ : id ≠ parent := by
      rintro rfl
      exact fits.elim outside fun isAbove => notAbove isAbove.1
    rw [moves.children_eq, if_neg differ]
    refine filter_children_of_ne holds.wellFormed fun isParent => ?_
    exact (holds.parent isParent inZone).elim outside notAbove

end Shelter

end WordTemplate
