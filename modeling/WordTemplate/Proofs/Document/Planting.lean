import WordTemplate.Document.Plant
import WordTemplate.Proofs.Document.Copying

/-!
# Planted trees

Planting a tree adds exactly the nodes of the tree, so the tree that is read off the document
afterwards is the one that was planted.
-/

namespace WordTemplate.Document

variable {document before middle after : Document} {id parent : NodeId} {low : Nat}

/-! ## Trees in a document -/

mutual

/-- A node holds a tree, whose nodes all have addresses from `low` on. -/
def Bears (document : Document) (low : Nat) : Tree → NodeId → Prop
  | .text characters, id =>
      low ≤ id.index ∧ id.index < document.size ∧ document.content id = .text characters
  | .markup raw, id =>
      low ≤ id.index ∧ id.index < document.size ∧ document.content id = .markup raw
  | .element held trees, id =>
      low ≤ id.index ∧ id.index < document.size ∧ document.content id = .element held ∧
        BearsAll document low trees (document.children id)

/-- Nodes hold trees, one after the other. -/
def BearsAll (document : Document) (low : Nat) : List Tree → List NodeId → Prop
  | [], ids => ids = []
  | tree :: trees, ids => ∃ id rest, ids = id :: rest ∧ Bears document low tree id ∧
      BearsAll document low trees rest

end

mutual

/-- A tree stays while its nodes keep their content and their children. -/
theorem Bears.stays (size_le : before.size ≤ after.size)
    (same : ∀ id, low ≤ id.index → id.index < before.size →
      after.content id = before.content id ∧ after.children id = before.children id)
    (fewer : Nat) (fewer_le : fewer ≤ low) : ∀ (tree : Tree) (id : NodeId),
      Bears before low tree id → Bears after fewer tree id
  | .text _, id, bears => by
      rcases bears with ⟨isNew, inStore, isContent⟩
      refine ⟨Nat.le_trans fewer_le isNew, Nat.lt_of_lt_of_le inStore size_le, ?_⟩
      rw [(same id isNew inStore).1]
      exact isContent
  | .markup _, id, bears => by
      rcases bears with ⟨isNew, inStore, isContent⟩
      refine ⟨Nat.le_trans fewer_le isNew, Nat.lt_of_lt_of_le inStore size_le, ?_⟩
      rw [(same id isNew inStore).1]
      exact isContent
  | .element _ trees, id, bears => by
      rcases bears with ⟨isNew, inStore, isContent, below⟩
      refine ⟨Nat.le_trans fewer_le isNew, Nat.lt_of_lt_of_le inStore size_le, ?_, ?_⟩
      · rw [(same id isNew inStore).1]
        exact isContent
      · rw [(same id isNew inStore).2]
        exact BearsAll.stays size_le same fewer fewer_le trees _ below

theorem BearsAll.stays (size_le : before.size ≤ after.size)
    (same : ∀ id, low ≤ id.index → id.index < before.size →
      after.content id = before.content id ∧ after.children id = before.children id)
    (fewer : Nat) (fewer_le : fewer ≤ low) : ∀ (trees : List Tree) (ids : List NodeId),
      BearsAll before low trees ids → BearsAll after fewer trees ids
  | [], _, isNone => isNone
  | tree :: trees, _, ⟨id, rest, isCons, here, later⟩ =>
      ⟨id, rest, isCons, Bears.stays size_le same fewer fewer_le tree id here,
        BearsAll.stays size_le same fewer fewer_le trees rest later⟩

end

/-! ## Planting -/

/-- `after` is `before` with trees planted at the end of the children of `parent`. -/
structure Planted (before after : Document) (parent : NodeId) (trees : List Tree) : Prop where
  size_le : before.size ≤ after.size
  node_eq : ∀ id, id.index < before.size → id ≠ parent → after.node id = before.node id
  content_eq : after.content parent = before.content parent
  children_eq : ∃ ids, after.children parent = before.children parent ++ ids ∧
    BearsAll after before.size trees ids

theorem node_addChild (inStore : parent.index < document.size) (content : Content) (id : NodeId) :
    (document.addChild parent content).node id =
      if id = document.nextId then { content, parent := some parent }
      else if id = parent then
        { document.node id with children := document.children id ++ [document.nextId] }
      else document.node id := by
  have inStore' : parent.index < (document.add content).size := by
    rw [size_add]
    omega
  have next_lt : document.nextId.index < (document.add content).size := by
    rw [size_add]
    exact Nat.lt_succ_self _
  have differ : document.nextId ≠ parent := by
    intro same
    rw [← same] at inStore
    exact Nat.lt_irrefl _ inStore
  rw [addChild, placeLast, node_place inStore' next_lt differ]
  by_cases isNext : id = document.nextId
  · subst isNext
    simp [node_add]
  · by_cases isParent : id = parent
    · subst isParent
      simp [isNext, node_add]
    · simp [isNext, isParent, node_add]

theorem BearsAll.append {trees others : List Tree} {ids rest : List NodeId}
    (first : BearsAll document low trees ids) (second : BearsAll document low others rest) :
    BearsAll document low (trees ++ others) (ids ++ rest) := by
  induction trees generalizing ids with
  | nil =>
      obtain rfl : ids = [] := first
      exact second
  | cons tree trees inductionHypothesis =>
      rcases first with ⟨id, more, rfl, here, later⟩
      exact ⟨id, more ++ rest, rfl, here, inductionHypothesis later⟩

namespace Planted

theorem refl (document : Document) (parent : NodeId) : Planted document document parent [] :=
  ⟨Nat.le_refl _, fun _ _ _ => rfl, rfl, [], by simp, rfl⟩

theorem trans {trees others : List Tree} (inStore : parent.index < before.size)
    (first : Planted before middle parent trees) (second : Planted middle after parent others) :
    Planted before after parent (trees ++ others) where
  size_le := Nat.le_trans first.size_le second.size_le
  node_eq id isOld notParent := by
    rw [second.node_eq id (Nat.lt_of_lt_of_le isOld first.size_le) notParent,
      first.node_eq id isOld notParent]
  content_eq := second.content_eq.trans first.content_eq
  children_eq := by
    rcases first.children_eq with ⟨ids, children, bears⟩
    rcases second.children_eq with ⟨rest, children', bears'⟩
    refine ⟨ids ++ rest, by rw [children', children, List.append_assoc], ?_⟩
    -- The nodes of the earlier trees are new, so they differ from the parent.
    have unchanged : ∀ id, before.size ≤ id.index → id.index < middle.size →
        after.content id = middle.content id ∧ after.children id = middle.children id := by
      intro id isNew isOld
      have node_eq := second.node_eq id isOld
        fun same => absurd inStore (Nat.not_lt_of_le (same ▸ isNew))
      exact ⟨congrArg Node.content node_eq, congrArg Node.children node_eq⟩
    have kept := BearsAll.stays second.size_le unchanged _ (Nat.le_refl _) _ _ bears
    have fewer := BearsAll.stays (Nat.le_refl _) (fun _ _ _ => ⟨rfl, rfl⟩) _ first.size_le _ _ bears'
    exact kept.append fewer

/-- What is planted below a new child turns the child into a tree. -/
theorem nest {held : Element} {trees : List Tree} (inStore : parent.index < before.size)
    (below : Planted (before.addChild parent (.element held)) after before.nextId trees) :
    Planted before after parent [.element held trees] := by
  have size_eq : (before.addChild parent (.element held)).size = before.size + 1 := by
    rw [addChild, placeLast, size_place, size_add]
  have grown := below.size_le
  have differ : parent ≠ before.nextId := by
    rintro rfl
    exact Nat.lt_irrefl _ inStore
  have old : ∀ id, id.index < before.size → id ≠ before.nextId := by
    rintro id isOld rfl
    exact Nat.lt_irrefl _ isOld
  have node_parent : after.node parent = (before.addChild parent (.element held)).node parent :=
    below.node_eq parent (by omega) differ
  rw [node_addChild inStore, if_neg differ, if_pos rfl] at node_parent
  rcases below.children_eq with ⟨ids, children, bears⟩
  have childless : (before.addChild parent (.element held)).children before.nextId = [] := by
    rw [Document.children, node_addChild inStore, if_pos rfl]
  rw [childless, List.nil_append] at children
  refine ⟨by omega, fun id isOld notParent => ?_, ?_, [before.nextId], ?_, ?_⟩
  · rw [below.node_eq id (by omega) (old id isOld), node_addChild inStore, if_neg (old id isOld),
      if_neg notParent]
  · rw [Document.content, node_parent]
    rfl
  · rw [Document.children, node_parent]
  · refine ⟨before.nextId, [], rfl, ⟨Nat.le_refl _, ?_, ?_, ?_⟩, rfl⟩
    · show before.size < after.size
      omega
    · rw [below.content_eq, Document.content, node_addChild inStore, if_pos rfl]
    · rw [children]
      exact BearsAll.stays (Nat.le_refl _) (fun _ _ _ => ⟨rfl, rfl⟩) _ (by omega) _ _ bears

/-- A new child without children of its own. -/
theorem leaf {content : Content} {tree : Tree} (inStore : parent.index < before.size)
    (bears : ∀ after : Document, before.size < after.size →
      after.content before.nextId = content → Bears after before.size tree before.nextId) :
    Planted before (before.addChild parent content) parent [tree] := by
  have size_eq : (before.addChild parent content).size = before.size + 1 := by
    rw [addChild, placeLast, size_place, size_add]
  have differ : parent ≠ before.nextId := by
    rintro rfl
    exact Nat.lt_irrefl _ inStore
  refine ⟨by omega, fun id isOld notParent => ?_, ?_, [before.nextId], ?_, ?_⟩
  · have notNew : id ≠ before.nextId := by
      rintro rfl
      exact Nat.lt_irrefl _ isOld
    rw [node_addChild inStore, if_neg notNew, if_neg notParent]
  · rw [Document.content, node_addChild inStore, if_neg differ, if_pos rfl]
    rfl
  · rw [Document.children, node_addChild inStore, if_neg differ, if_pos rfl]
  · refine ⟨before.nextId, [], rfl, bears _ (by omega) ?_, rfl⟩
    rw [Document.content, node_addChild inStore, if_pos rfl]

end Planted

mutual

/-- Planting a tree adds the tree. -/
theorem planted_plantBelow : ∀ (tree : Tree) (document : Document) (parent : NodeId),
    parent.index < document.size →
      Planted document (plantBelow parent tree document) parent [tree]
  | .text _, _, _, inStore => Planted.leaf inStore fun _ grown isContent =>
      ⟨Nat.le_refl _, grown, isContent⟩
  | .markup _, _, _, inStore => Planted.leaf inStore fun _ grown isContent =>
      ⟨Nat.le_refl _, grown, isContent⟩
  | .element held children, document, parent, inStore => by
      have size_eq : (document.addChild parent (.element held)).size = document.size + 1 := by
        rw [addChild, placeLast, size_place, size_add]
      refine Planted.nest inStore (planted_plantAllBelow children _ document.nextId ?_)
      rw [size_eq]
      exact Nat.lt_succ_self _

theorem planted_plantAllBelow : ∀ (trees : List Tree) (document : Document) (parent : NodeId),
    parent.index < document.size →
      Planted document (plantAllBelow parent trees document) parent trees
  | [], document, parent, _ => Planted.refl document parent
  | tree :: trees, document, parent, inStore => by
      have first := planted_plantBelow tree document parent inStore
      exact first.trans inStore
        (planted_plantAllBelow trees _ parent (Nat.lt_of_lt_of_le inStore first.size_le))

end

/-- The tree that a node holds is the tree that is read off it. -/
theorem Bears.tree_eq {tree : Tree} (wellFormed : document.WellFormed)
    (bears : Bears document low tree id) : document.tree id = tree := by
  have within : ∀ (levels : Nat) (tree : Tree) (id : NodeId), document.HeightLe levels id →
      Bears document low tree id → document.treeWithin levels id = tree := by
    intro levels
    induction levels with
    | zero =>
        intro tree id childless bears
        cases tree with
        | text characters => simp [treeWithin, bears.2.2]
        | markup raw => simp [treeWithin, bears.2.2]
        | element held trees =>
            rcases bears with ⟨-, -, isContent, below⟩
            have isNone : document.children id = [] := childless
            rw [isNone] at below
            cases trees with
            | nil => simp [treeWithin, isContent]
            | cons tree trees =>
                rcases below with ⟨child, rest, isCons, -⟩
                cases isCons
    | succ levels inductionHypothesis =>
        intro tree id height bears
        cases tree with
        | text characters => simp [treeWithin, bears.2.2]
        | markup raw => simp [treeWithin, bears.2.2]
        | element held trees =>
            rcases bears with ⟨-, -, isContent, below⟩
            have each : ∀ (trees : List Tree) (ids : List NodeId),
                (∀ child ∈ ids, document.HeightLe levels child) → BearsAll document low trees ids →
                  ids.map (document.treeWithin levels) = trees := by
              intro trees
              induction trees with
              | nil =>
                  rintro ids - isNone
                  rw [isNone]
                  rfl
              | cons tree trees later =>
                  rintro _ heights ⟨child, rest, rfl, here, further⟩
                  rw [List.map_cons, inductionHypothesis tree child
                    (heights child List.mem_cons_self) here,
                    later rest (fun other isMember => heights other
                      (List.mem_cons_of_mem _ isMember)) further]
            have children := each trees _ height below
            simp [treeWithin, isContent, children]
  exact within _ _ _ (heightLe_of_size_le wellFormed (Nat.le_add_right _ _)) bears

end WordTemplate.Document
