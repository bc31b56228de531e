import Mathlib.Data.List.Forall2
import WordTemplate.Document.Copy
import WordTemplate.Proofs.Document.Neutral

/-!
# Copies of subtrees

A copy of nodes with everything below them consists of new nodes, one for each copied node. The
pairs of a copy list the copied nodes in document order; children correspond to children and every
copy carries what the copied node carries, so the running text of a copy is the copy of the running
text.
-/

namespace WordTemplate.Document

variable {zone : NodeId → Prop} {rights : Rights} {document source before middle after : Document}
  {id other top node parent child holder : NodeId} {ids roots : List NodeId}
  {pairs : List (NodeId × NodeId)}

/-- No path down from a node is longer than `levels`. -/
def HeightLe (document : Document) : Nat → NodeId → Prop
  | 0, id => document.children id = []
  | levels + 1, id => ∀ child ∈ document.children id, HeightLe document levels child

theorem heightLe_of_size_le (wellFormed : document.WellFormed) {levels : Nat}
    (enough : document.size ≤ levels + document.depth id) : document.HeightLe levels id := by
  induction levels generalizing id with
  | zero =>
      have outside : document.size ≤ id.index := by
        by_contra inStore
        have bounded := depth_lt_size wellFormed (Nat.lt_of_not_le inStore)
        omega
      exact children_of_size_le outside
  | succ levels inductionHypothesis =>
      intro child isChild
      have deeper := depth_of_parent wellFormed ((wellFormed.mem_children_iff _ _).mp isChild)
      exact inductionHypothesis (by omega)

theorem treeWithin_congr (wellFormed : before.WellFormed) {levels fewer : Nat}
    (height : before.HeightLe levels id) (height' : before.HeightLe fewer id)
    (same : ∀ other, before.LiesIn id other →
      after.content other = before.content other ∧ after.children other = before.children other) :
    after.treeWithin levels id = before.treeWithin fewer id := by
  rcases same id LiesIn.refl with ⟨content_eq, children_eq⟩
  induction levels generalizing id fewer with
  | zero =>
      have childless : before.children id = [] := height
      cases fewer with
      | zero => rw [treeWithin, treeWithin, content_eq]
      | succ fewer =>
          rw [treeWithin, treeWithin, content_eq]
          simp [childless]
  | succ levels inductionHypothesis =>
      cases fewer with
      | zero =>
          have childless : before.children id = [] := height'
          rw [treeWithin, treeWithin, content_eq]
          simp [children_eq, childless]
      | succ fewer =>
          have each : (before.children id).map (after.treeWithin levels) =
              (before.children id).map (before.treeWithin fewer) := by
            refine List.map_congr_left fun child isChild => ?_
            have below := LiesIn.parent ((wellFormed.mem_children_iff _ _).mp isChild)
            have same' : ∀ other, before.LiesIn child other → after.content other = before.content other ∧
                after.children other = before.children other := fun other inside =>
              same other (inside.trans below)
            exact inductionHypothesis (height child isChild) (height' child isChild) same'
              (same' child LiesIn.refl).1 (same' child LiesIn.refl).2
          rw [treeWithin, treeWithin, content_eq, children_eq]
          simp only [each]

/-- The tree below a node depends on nothing but what lies below it. -/
theorem tree_congr (wellFormed : before.WellFormed) (size_le : before.size ≤ after.size)
    (same : ∀ other, before.LiesIn id other →
      after.content other = before.content other ∧ after.children other = before.children other) :
    after.tree id = before.tree id :=
  treeWithin_congr wellFormed (heightLe_of_size_le wellFormed (by omega))
    (heightLe_of_size_le wellFormed (by omega)) same

/-- Whether the nodes of an earlier state of a document are still as they were. -/
structure Retains (source document : Document) : Prop where
  size_le : source.size ≤ document.size
  node_eq : ∀ id, id.index < source.size → document.node id = source.node id

/-- `roots` are copies of `ids` with everything below them, placed at the end of the children of
`holder` if there is one. -/
structure Copies (source before after : Document) (holder : Option NodeId)
    (ids roots : List NodeId) (pairs : List (NodeId × NodeId)) : Prop where
  wellFormed : after.WellFormed
  size_eq : after.size = before.size + pairs.length
  root_eq : after.root = before.root
  node_eq : ∀ id, id.index < before.size → holder ≠ some id → after.node id = before.node id
  holder_content : ∀ id, holder = some id → after.content id = before.content id
  holder_parent : ∀ id, holder = some id → after.parent id = before.parent id
  holder_children : ∀ id, holder = some id → after.children id = before.children id ++ roots
  sources : pairs.map Prod.fst = ids.flatMap source.subtree
  copies : pairs.map Prod.snd = (List.range' before.size pairs.length).map NodeId.mk
  tops : List.Forall₂ (fun id root => (id, root) ∈ pairs) ids roots
  parent_eq : ∀ root ∈ roots, after.parent root = holder
  content_eq : ∀ pair ∈ pairs, after.content pair.2 = source.content pair.1
  children_eq : ∀ pair ∈ pairs, List.Forall₂ (fun id copy => (id, copy) ∈ pairs)
    (source.children pair.1) (after.children pair.2)

theorem copies_nil (wellFormed : before.WellFormed) (holder : Option NodeId) :
    Copies source before before holder [] [] [] where
  wellFormed := wellFormed
  size_eq := rfl
  root_eq := rfl
  node_eq _ _ _ := rfl
  holder_content _ _ := rfl
  holder_parent _ _ := rfl
  holder_children _ _ := by simp
  sources := rfl
  copies := rfl
  tops := .nil
  parent_eq _ isRoot := by simp at isRoot
  content_eq _ isPair := by simp at isPair
  children_eq _ isPair := by simp at isPair

/-- Copies have addresses from the end of the store on. -/
theorem Copies.le_index {holder : Option NodeId}
    (copied : Copies source before after holder ids roots pairs)
    (isPair : (id, other) ∈ pairs) :
    before.size ≤ other.index ∧ other.index < after.size := by
  have isCopy : other ∈ pairs.map Prod.snd := List.mem_map.mpr ⟨_, isPair, rfl⟩
  rw [copied.copies, List.mem_map] at isCopy
  rcases isCopy with ⟨index, isIndex, rfl⟩
  rw [List.mem_range'_1] at isIndex
  rw [copied.size_eq]
  exact isIndex

theorem forall₂_mem_mono {ids copies : List NodeId} {few many : List (NodeId × NodeId)}
    (subset : few ⊆ many) (related : List.Forall₂ (fun id copy => (id, copy) ∈ few) ids copies) :
    List.Forall₂ (fun id copy => (id, copy) ∈ many) ids copies :=
  related.imp fun _ _ isPair => subset isPair

theorem exists_of_forall₂ {related : NodeId → NodeId → Prop} {ids copies : List NodeId}
    (matched : List.Forall₂ related ids copies) (isMember : other ∈ copies) :
    ∃ id ∈ ids, related id other := by
  induction matched with
  | nil => simp at isMember
  | cons first _ inductionHypothesis =>
      rcases List.mem_cons.mp isMember with rfl | isMember
      · exact ⟨_, List.mem_cons_self, first⟩
      · rcases inductionHypothesis isMember with ⟨id, isId, found⟩
        exact ⟨id, List.mem_cons_of_mem _ isId, found⟩

theorem Copies.size_le {holder : Option NodeId}
    (copied : Copies source before after holder ids roots pairs) : before.size ≤ after.size := by
  rw [copied.size_eq]
  exact Nat.le_add_right _ _

/-- Copies of more nodes, placed after the copies before them. -/
theorem Copies.append {holder : Option NodeId} {rest restRoots : List NodeId}
    {restPairs : List (NodeId × NodeId)}
    (holder_lt : ∀ id, holder = some id → id.index < before.size)
    (first : Copies source before middle holder ids roots pairs)
    (others : Copies source middle after holder rest restRoots restPairs) :
    Copies source before after holder (ids ++ rest) (roots ++ restRoots)
      (pairs ++ restPairs) := by
  -- the holder is older than both copies, so the later nodes leave the earlier copy as it is
  have kept : ∀ {id copy}, (id, copy) ∈ pairs → after.node copy = middle.node copy := by
    intro id copy isPair
    have bounds := first.le_index isPair
    refine others.node_eq copy bounds.2 fun isHolder => ?_
    exact absurd (holder_lt copy isHolder) (Nat.not_lt_of_le bounds.1)
  exact {
    wellFormed := others.wellFormed
    size_eq := by rw [others.size_eq, first.size_eq, List.length_append, Nat.add_assoc]
    root_eq := others.root_eq.trans first.root_eq
    node_eq := fun id isOld notHolder =>
      (others.node_eq id (Nat.lt_of_lt_of_le isOld first.size_le) notHolder).trans
        (first.node_eq id isOld notHolder)
    holder_content := fun id isHolder =>
      (others.holder_content id isHolder).trans (first.holder_content id isHolder)
    holder_parent := fun id isHolder =>
      (others.holder_parent id isHolder).trans (first.holder_parent id isHolder)
    holder_children := fun id isHolder => by
      rw [others.holder_children id isHolder, first.holder_children id isHolder,
        List.append_assoc]
    sources := by rw [List.map_append, first.sources, others.sources, List.flatMap_append]
    copies := by
      rw [List.map_append, first.copies, others.copies, first.size_eq, List.length_append,
        List.range'_append_1.symm, List.map_append]
    tops := List.rel_append (forall₂_mem_mono (List.subset_append_left _ _) first.tops)
      (forall₂_mem_mono (List.subset_append_right _ _) others.tops)
    parent_eq := by
      intro root isRoot
      rcases List.mem_append.mp isRoot with isRoot | isRoot
      · rcases exists_of_forall₂ first.tops isRoot with ⟨id, -, isPair⟩
        rw [Document.parent, kept isPair]
        exact first.parent_eq root isRoot
      · exact others.parent_eq root isRoot
    content_eq := by
      intro pair isPair
      rcases List.mem_append.mp isPair with isPair | isPair
      · rw [Document.content, kept isPair]
        exact first.content_eq pair isPair
      · exact others.content_eq pair isPair
    children_eq := by
      intro pair isPair
      rcases List.mem_append.mp isPair with isPair | isPair
      · rw [Document.children.eq_1 after, kept isPair]
        exact forall₂_mem_mono (List.subset_append_left _ _) (first.children_eq pair isPair)
      · exact forall₂_mem_mono (List.subset_append_right _ _) (others.children_eq pair isPair) }

namespace Retains

theorem refl (document : Document) : Retains document document := ⟨Nat.le_refl _, fun _ _ => rfl⟩

theorem trans (first : Retains before middle) (second : Retains middle after) :
    Retains before after :=
  ⟨Nat.le_trans first.size_le second.size_le, fun id isOld =>
    (second.node_eq id (Nat.lt_of_lt_of_le isOld first.size_le)).trans (first.node_eq id isOld)⟩

theorem children_eq (retains : Retains source document) (isOld : id.index < source.size) :
    document.children id = source.children id := by
  simp only [Document.children, retains.node_eq id isOld]

theorem content_eq (retains : Retains source document) (isOld : id.index < source.size) :
    document.content id = source.content id := by
  simp only [Document.content, retains.node_eq id isOld]

/-- No new node stands above an old one. -/
theorem lt_size_of_liesIn (retains : Retains before after) (wellFormed : before.WellFormed)
    (inside : after.LiesIn top id) (isOld : id.index < before.size) :
    top.index < before.size := by
  induction inside using Relation.ReflTransGen.head_induction_on with
  | refl => exact isOld
  | @head id parent isParent _ inductionHypothesis =>
      have isParent : before.parent id = some parent := by
        simp only [Document.parent, ← retains.node_eq id isOld]
        exact isParent
      exact inductionHypothesis (parent_lt_size wellFormed isParent)

theorem parent_eq (retains : Retains source document) (isOld : id.index < source.size) :
    document.parent id = source.parent id := by
  simp only [Document.parent, retains.node_eq id isOld]

/-- Adding nodes keeps the running text of the nodes that are there. -/
theorem neutral (retains : Retains before after) (wellFormed : before.WellFormed)
    (wellFormed' : after.WellFormed) (closed : before.Closed zone rights)
    (root_eq : after.root = before.root) : Neutral zone rights before after := by
  have changes : ChangesWithin zone rights before after := {
    wellFormed := wellFormed'
    closed := {
      child := by
        intro child parent isParent inZone
        rcases Nat.lt_or_ge child.index before.size with isOld | isNew
        · rw [retains.parent_eq isOld] at isParent
          exact closed.child isParent inZone
        · exact closed.fresh isNew
      fresh := fun beyond => closed.fresh (Nat.le_trans retains.size_le beyond)
      freshPlaces := fun beyond => closed.freshPlaces (Nat.le_trans retains.size_le beyond) }
    size_le := retains.size_le
    root_eq := root_eq
    children_eq := fun outside => retains.children_eq (closed.lt_size outside)
    content_eq := fun outside => retains.content_eq (closed.lt_size outside)
    name_eq := fun isOld => by simp only [name?, element?, retains.content_eq isOld]
    isText_eq := fun isOld => by simp only [isText, text?, retains.content_eq isOld]
    text_eq := fun isOld _ => by simp only [text?, retains.content_eq isOld]
    detached := fun _ isOld _ isDetached => by rw [retains.parent_eq isOld, isDetached] }
  refine ⟨changes, ?_, ?_⟩
  · intro id isOld
    refine runningTexts_eq_of_children (fun id => id.index < before.size) wellFormed
      wellFormed' ?_ ?_ ?_ ?_ isOld
    · exact fun id _ child isChild => lt_size_of_mem_children wellFormed isChild
    · exact fun id isOld => changes.isText_eq isOld
    · exact fun id isOld => changes.isProperties_eq isOld
    · intro id isOld _ sameBelow
      rw [retains.children_eq isOld]
      exact List.flatMap_congr sameBelow
  · intro id parent isOld _ isParent _
    rwa [retains.parent_eq isOld] at isParent

end Retains

theorem node_eq_of_fields (content_eq : after.content id = before.content id)
    (parent_eq : after.parent id = before.parent id)
    (children_eq : after.children id = before.children id) : after.node id = before.node id := by
  simp only [Document.content, Document.parent, Document.children] at *
  rcases isNode : before.node id with ⟨content, parent, children⟩
  rcases isNode' : after.node id with ⟨content', parent', children'⟩
  simp_all

/-- Moving a new detached node below a new node leaves the older nodes as they are. -/
theorem Moves.retains {base : Document} {left rest : List NodeId}
    (moves : Moves before after node parent left rest)
    (retains : Retains base before) (wellFormed : before.WellFormed)
    (nodeNew : base.size ≤ node.index) (parentNew : base.size ≤ parent.index)
    (detached : before.parent node = none) : Retains base after := by
  refine ⟨by rw [moves.size_eq]; exact retains.size_le, fun id isOld => ?_⟩
  have notNode : id ≠ node := by
    rintro rfl
    omega
  have notParent : id ≠ parent := by
    rintro rfl
    omega
  rw [← retains.node_eq id isOld]
  refine node_eq_of_fields (moves.content_eq id) ?_ ?_
  · rw [moves.parent_eq, if_neg notNode]
  · rw [moves.children_eq, if_neg notParent, filter_children_of_parent_none wellFormed detached]

theorem Copies.retains (copied : Copies source before after none ids roots pairs) :
    Retains before after :=
  ⟨copied.size_le, fun id isOld => copied.node_eq id isOld (by simp)⟩

theorem retains_add (document : Document) (content : Content) :
    Retains document (document.add content) :=
  ⟨by simp, fun _ isOld => node_add_of_lt isOld content⟩

theorem retains_placeLast (retains : Retains source document)
    (holderNew : source.size ≤ holder.index) (childNew : source.size ≤ child.index)
    (holder_lt : holder.index < document.size) (child_lt : child.index < document.size)
    (differ : child ≠ holder) : Retains source (document.placeLast holder child) := by
  refine ⟨by rw [placeLast, size_place]; exact retains.size_le, fun id isOld => ?_⟩
  have notChild : id ≠ child := by
    rintro rfl
    omega
  have notHolder : id ≠ holder := by
    rintro rfl
    omega
  rw [placeLast, node_place holder_lt child_lt differ, if_neg notChild, if_neg notHolder,
    retains.node_eq id isOld]

theorem WellFormed.placeLast_detached (wellFormed : document.WellFormed)
    (holder_lt : holder.index < document.size) (child_lt : child.index < document.size)
    (detached : document.parent child = none) (outside : ¬document.LiesIn child holder) :
    (document.placeLast holder child).WellFormed :=
  wellFormed.place holder_lt child_lt detached outside _

/-- Placing the copy of a node below an older node. -/
theorem Copies.placeLast {root : NodeId} (wellFormed : before.WellFormed)
    (holder_lt : holder.index < before.size)
    (copied : Copies source before middle none [id] [root] pairs) :
    Copies source before (middle.placeLast holder root) (some holder) [id] [root] pairs := by
  have bounds := copied.le_index (List.forall₂_cons.mp copied.tops).1
  have isNew : ∀ other, before.size ≤ other.index → other ≠ holder := by
    rintro other isNew rfl
    exact absurd holder_lt (Nat.not_lt_of_le isNew)
  have differ := isNew root bounds.1
  have holder_lt' := Nat.lt_of_lt_of_le holder_lt copied.size_le
  have holderNode := copied.node_eq holder holder_lt (by simp)
  have outside : ¬middle.LiesIn root holder := fun inside =>
    absurd (copied.retains.lt_size_of_liesIn wellFormed inside holder_lt)
      (Nat.not_lt_of_le bounds.1)
  have content_placed : ∀ other, (middle.placeLast holder root).content other =
      middle.content other := content_place holder_lt' bounds.2 differ _
  have parent_placed : ∀ other, (middle.placeLast holder root).parent other =
      if other = root then some holder else middle.parent other :=
    parent_place holder_lt' bounds.2 differ _
  have children_placed := children_place holder_lt' bounds.2 differ
    (middle.children holder).length
  exact {
    wellFormed := copied.wellFormed.placeLast_detached holder_lt' bounds.2
      (copied.parent_eq root List.mem_cons_self) outside
    size_eq := (size_place _ _ _ _).trans copied.size_eq
    root_eq := (root_place _ _ _ _).trans copied.root_eq
    node_eq := by
      intro other isOld notHolder
      have notRoot : other ≠ root := by
        rintro rfl
        exact absurd isOld (Nat.not_lt_of_le bounds.1)
      rw [Document.placeLast, node_place holder_lt' bounds.2 differ, if_neg notRoot,
        if_neg fun same => notHolder (congrArg some same.symm)]
      exact copied.node_eq other isOld (by simp)
    holder_content := by
      rintro other ⟨⟩
      rw [content_placed, Document.content, holderNode]
      rfl
    holder_parent := by
      rintro other ⟨⟩
      rw [parent_placed, if_neg differ.symm, Document.parent, holderNode]
      rfl
    holder_children := by
      rintro other ⟨⟩
      have children_eq : middle.children holder = before.children holder := by
        rw [Document.children, holderNode]
        rfl
      rw [Document.placeLast, children_placed, if_pos rfl, insertIdx_min_length, children_eq,
        List.take_length, List.drop_length]
    sources := copied.sources
    copies := copied.copies
    tops := copied.tops
    parent_eq := by
      intro other isRoot
      rw [parent_placed, if_pos (List.mem_singleton.mp isRoot)]
    content_eq := fun pair isPair =>
      (content_placed pair.2).trans (copied.content_eq pair isPair)
    children_eq := by
      intro pair isPair
      rw [Document.placeLast, children_placed, if_neg (isNew _ (copied.le_index isPair).1)]
      exact copied.children_eq pair isPair }

/-- Copies below a new node leave the older nodes as they are. -/
theorem Copies.retains_of_le {base : Document}
    (copied : Copies source before after (some holder) ids roots pairs)
    (retains : Retains base before) (isNew : base.size ≤ holder.index) : Retains base after := by
  refine ⟨Nat.le_trans retains.size_le copied.size_le, fun id isOld => ?_⟩
  have notHolder : some holder ≠ some id := by
    rintro ⟨⟩
    exact absurd isOld (Nat.not_lt_of_le isNew)
  rw [copied.node_eq id (Nat.lt_of_lt_of_le isOld retains.size_le) notHolder,
    retains.node_eq id isOld]

/-- Copying nodes one after the other below a holder. -/
theorem copies_copyEach {levels : Nat}
    (copyOne : ∀ id, id.index < source.size → source.HeightLe levels id → ∀ before,
      before.WellFormed → Retains source before →
      Copies source before (copyWithin levels id before).1 none [id]
        [(copyWithin levels id before).2.root] (copyWithin levels id before).2.pairs)
    (holderNew : source.size ≤ holder.index) (inStore : ∀ id ∈ ids, id.index < source.size)
    (heights : ∀ id ∈ ids, source.HeightLe levels id) (wellFormed : before.WellFormed)
    (holder_lt : holder.index < before.size) (retains : Retains source before) :
    ∃ roots, Copies source before (copyEach (copyWithin levels) holder ids before).1 (some holder)
      ids roots (copyEach (copyWithin levels) holder ids before).2 := by
  induction ids generalizing before with
  | nil => exact ⟨[], copies_nil wellFormed _⟩
  | cons id rest inductionHypothesis =>
      have id_lt := inStore id List.mem_cons_self
      have first := (copyOne id id_lt (heights id List.mem_cons_self) before wellFormed
        retains).placeLast wellFormed holder_lt
      rcases inductionHypothesis (fun other isMember => inStore other (List.mem_cons_of_mem _ isMember))
        (fun other isMember => heights other (List.mem_cons_of_mem _ isMember)) first.wellFormed
        (Nat.lt_of_lt_of_le holder_lt first.size_le) (first.retains_of_le retains holderNew) with
        ⟨roots, others⟩
      exact ⟨_, first.append (by rintro _ ⟨⟩; exact holder_lt) others⟩

/-- A node is copied by adding a node with its content and copying its children below that one. -/
theorem Copies.of_children (sourceFormed : source.WellFormed) (id_lt : id.index < source.size)
    (retains : Retains source before)
    (copied : Copies source (before.add (before.content id)) after (some before.nextId)
      (source.children id) roots pairs) :
    Copies source before after none [id] [before.nextId] ((id, before.nextId) :: pairs) := by
  have beyond : before.size ≤ before.nextId.index := Nat.le_refl _
  exact {
    wellFormed := copied.wellFormed
    size_eq := by
      rw [copied.size_eq, size_add, List.length_cons]
      omega
    root_eq := copied.root_eq
    node_eq := by
      intro other isOld _
      rw [copied.node_eq other (by rw [size_add]; omega), node_add_of_lt isOld]
      rintro ⟨⟩
      exact Nat.lt_irrefl _ (Nat.lt_of_lt_of_le isOld beyond)
    holder_content := by simp
    holder_parent := by simp
    holder_children := by simp
    sources := by
      rw [List.map_cons, copied.sources]
      simp [subtree_eq sourceFormed id]
    copies := by
      rw [List.map_cons, copied.copies, size_add, List.length_cons, List.range'_succ]
      rfl
    tops := .cons List.mem_cons_self .nil
    parent_eq := by
      intro root isRoot
      rw [List.mem_singleton.mp isRoot, copied.holder_parent _ rfl, parent_add,
        parent_of_size_le beyond]
    content_eq := by
      intro pair isPair
      rcases List.mem_cons.mp isPair with rfl | isPair
      · rw [copied.holder_content _ rfl, content_add, if_pos rfl, retains.content_eq id_lt]
      · exact copied.content_eq pair isPair
    children_eq := by
      intro pair isPair
      rcases List.mem_cons.mp isPair with rfl | isPair
      · rw [copied.holder_children _ rfl, children_add, children_of_size_le beyond,
          List.nil_append]
        exact forall₂_mem_mono (List.subset_cons_self _ _) copied.tops
      · exact forall₂_mem_mono (List.subset_cons_self _ _) (copied.children_eq pair isPair) }

/-- Copying a node with everything below it. -/
theorem copies_copyWithin (sourceFormed : source.WellFormed) {levels : Nat}
    (id_lt : id.index < source.size) (height : source.HeightLe levels id)
    (wellFormed : before.WellFormed) (retains : Retains source before) :
    Copies source before (copyWithin levels id before).1 none [id]
      [(copyWithin levels id before).2.root] (copyWithin levels id before).2.pairs := by
  induction levels generalizing id before with
  | zero =>
      have childless : source.children id = [] := height
      have nothing : Copies source (before.add (before.content id))
          (before.add (before.content id)) (some before.nextId) (source.children id) [] [] := by
        rw [childless]
        exact copies_nil (wellFormed.add _) _
      exact nothing.of_children sourceFormed id_lt retains
  | succ levels inductionHypothesis =>
      have children_eq := retains.children_eq id_lt
      have copyChildren : ∃ roots, Copies source (before.add (before.content id)) _
          (some before.nextId) (source.children id) roots _ :=
        copies_copyEach (fun id id_lt height before wellFormed retains =>
            inductionHypothesis id_lt height wellFormed retains)
          retains.size_le (fun child => lt_size_of_mem_children sourceFormed) height
          (wellFormed.add _) (by simp [nextId]) (retains.trans (retains_add _ _))
      rcases copyChildren with ⟨roots, copied⟩
      simp only [copyWithin, children_eq]
      exact copied.of_children sourceFormed id_lt retains

/-- A copied subtree consists of new detached nodes. -/
theorem copies_copySubtree (wellFormed : document.WellFormed) (inStore : id.index < document.size) :
    Copies document document (document.copySubtree id).1 none [id]
      [(document.copySubtree id).2.root] (document.copySubtree id).2.pairs :=
  copies_copyWithin wellFormed inStore
    (heightLe_of_size_le wellFormed (Nat.le_add_right _ _)) wellFormed (Retains.refl document)

theorem forall₂_flatMap {related : NodeId → NodeId → Prop} {texts texts' : NodeId → List NodeId}
    {ids copies : List NodeId} (matched : List.Forall₂ related ids copies)
    (each : ∀ id ∈ ids, ∀ copy, related id copy →
      List.Forall₂ related (texts id) (texts' copy)) :
    List.Forall₂ related (ids.flatMap texts) (copies.flatMap texts') := by
  induction matched with
  | nil => exact .nil
  | cons isRelated _ inductionHypothesis =>
      simp only [List.flatMap_cons]
      exact List.rel_append (each _ List.mem_cons_self _ isRelated)
        (inductionHypothesis fun id isMember => each id (List.mem_cons_of_mem _ isMember))

namespace Copies

variable {start : Option NodeId}

/-- The running text of a copy is the copy of the running text. -/
theorem runningTexts (copied : Copies source before after start ids roots pairs)
    (wellFormed : source.WellFormed) (isPair : (id, other) ∈ pairs) :
    List.Forall₂ (fun id copy => (id, copy) ∈ pairs) (source.runningTexts id)
      (after.runningTexts other) := by
  induction id using wellFormed.induction_children generalizing other with
  | step id inductionHypothesis =>
      have content_eq := copied.content_eq _ isPair
      simp only at content_eq
      have isText_eq : after.isText other = source.isText id := by
        simp only [isText, text?, content_eq]
      have isProperties_eq : after.isProperties other = source.isProperties id := by
        exact isProperties_of_content_eq content_eq
      rw [runningTexts_eq wellFormed, runningTexts_eq copied.wellFormed, isText_eq,
        isProperties_eq]
      split
      · exact .cons isPair .nil
      · split
        · exact .nil
        · exact forall₂_flatMap (copied.children_eq _ isPair) fun child isChild copy isPair =>
            inductionHypothesis child isChild isPair

theorem runningTexts_roots (copied : Copies source before after start ids roots pairs)
    (wellFormed : source.WellFormed) :
    List.Forall₂ (fun id copy => (id, copy) ∈ pairs) (ids.flatMap source.runningTexts)
      (roots.flatMap after.runningTexts) :=
  forall₂_flatMap copied.tops fun _ _ _ isPair => copied.runningTexts wellFormed isPair

theorem name_eq (copied : Copies source before after start ids roots pairs)
    (isPair : (id, other) ∈ pairs) : after.name? other = source.name? id := by
  simp only [name?, element?, copied.content_eq _ isPair]

theorem text_eq (copied : Copies source before after start ids roots pairs)
    (isPair : (id, other) ∈ pairs) : after.text? other = source.text? id := by
  simp only [text?, copied.content_eq _ isPair]

/-- No node is copied twice. -/
theorem nodup_sources (copied : Copies source before after start ids roots pairs)
    (nodup : (ids.flatMap source.subtree).Nodup) : (pairs.map Prod.fst).Nodup := by
  rwa [copied.sources]

theorem nodup_copies (copied : Copies source before after start ids roots pairs) :
    (pairs.map Prod.snd).Nodup := by
  rw [copied.copies]
  refine List.Nodup.map ?_ List.nodup_range'
  intro first second same
  simpa using same

end Copies

end WordTemplate.Document

namespace WordTemplate.Edit

open Document

theorem copySubtree_eq_ok {document document' : Document} {id : NodeId} {copy : SubtreeCopy} :
    copySubtree id document = .ok copy document' ↔
      document' = (document.copySubtree id).1 ∧ copy = (document.copySubtree id).2 := by
  simp [copySubtree, eq_comm, and_comm]

theorem copies_of_copySubtree {document document' : Document} {id : NodeId} {copy : SubtreeCopy}
    (wellFormed : document.WellFormed) (inStore : id.index < document.size)
    (done : copySubtree id document = .ok copy document') :
    Copies document document document' none [id] [copy.root] copy.pairs := by
  rcases copySubtree_eq_ok.mp done with ⟨rfl, rfl⟩
  exact copies_copySubtree wellFormed inStore

end WordTemplate.Edit
