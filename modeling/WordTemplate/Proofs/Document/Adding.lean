import WordTemplate.Document.Plant
import WordTemplate.Markup.Build
import WordTemplate.Proofs.Document.Copying

/-!
# Adding nodes

What is planted, copied or read from markup consists of new nodes, which nothing older knows about.
-/

namespace WordTemplate

namespace Document

variable {zone : NodeId → Prop} {rights : Rights} {base document after : Document}
  {id parent child node : NodeId} {left right : List NodeId}

/-- `document` is `base` with nodes added that no older node knows about. -/
structure Adds (base document : Document) : Prop extends Retains base document where
  wellFormed : document.WellFormed
  root_eq : document.root = base.root

namespace Adds

theorem refl (wellFormed : document.WellFormed) : Adds document document :=
  ⟨Retains.refl document, wellFormed, rfl⟩

theorem trans (first : Adds base document) (second : Adds document after) : Adds base after :=
  ⟨first.toRetains.trans second.toRetains, second.wellFormed,
    second.root_eq.trans first.root_eq⟩

theorem neutral (adds : Adds base document) (wellFormed : base.WellFormed)
    (closed : base.Closed zone rights) : Neutral zone rights base document :=
  adds.toRetains.neutral wellFormed adds.wellFormed closed adds.root_eq

theorem add (adds : Adds base document) (content : Content) :
    Adds base (document.add content) :=
  ⟨adds.toRetains.trans (retains_add document content), adds.wellFormed.add content,
    adds.root_eq⟩

/-- A child of a new node is new. -/
theorem isNew_of_parent (adds : Adds base document)
    (inside : ∀ child parent, base.parent child = some parent → parent.index < base.size)
    (isParent : document.parent child = some parent) (isNew : base.size ≤ parent.index) :
    base.size ≤ child.index := by
  by_contra isOld
  rw [adds.parent_eq (Nat.lt_of_not_le isOld)] at isParent
  exact absurd (inside child parent isParent) (Nat.not_lt_of_le isNew)

theorem moves (adds : Adds base document) (moves : Moves document after node parent left right)
    (nodeNew : base.size ≤ node.index) (parentNew : base.size ≤ parent.index)
    (detached : document.parent node = none) : Adds base after where
  toRetains := moves.retains adds.toRetains adds.wellFormed nodeNew parentNew detached
  wellFormed := moves.wellFormed
  root_eq := moves.root_eq.trans adds.root_eq

theorem setContent (adds : Adds base document) (isNew : base.size ≤ id.index)
    (content : Content) : Adds base (document.setContent id content) where
  size_le := by
    rw [size_setContent]
    exact adds.size_le
  node_eq other isOld := by
    have differ : other ≠ id := by
      rintro rfl
      exact absurd isOld (Nat.not_lt_of_le isNew)
    rw [node_setContent_of_ne differ, adds.node_eq other isOld]
  wellFormed := adds.wellFormed.setContent id content
  root_eq := adds.root_eq

theorem addChild (adds : Adds base document) (isNew : base.size ≤ parent.index)
    (inStore : parent.index < document.size) (content : Content) :
    Adds base (document.addChild parent content) := by
  have beyond : document.size ≤ document.nextId.index := Nat.le_refl _
  have child_lt : document.nextId.index < (document.add content).size := by simp [nextId]
  have parent_lt : parent.index < (document.add content).size :=
    Nat.lt_of_lt_of_le inStore (retains_add document content).size_le
  have differ : document.nextId ≠ parent := by
    rintro same
    exact absurd (same ▸ inStore) (Nat.not_lt_of_le beyond)
  have added := adds.add content
  have detached : (document.add content).parent document.nextId = none := by
    rw [parent_add, parent_of_size_le beyond]
  refine ⟨retains_placeLast added.toRetains isNew (Nat.le_trans adds.size_le beyond) parent_lt
    child_lt differ, added.wellFormed.placeLast_detached parent_lt child_lt detached ?_,
    adds.root_eq⟩
  intro inside
  rcases inside.cases_child with same | ⟨other, isParent, -⟩
  · exact differ same.symm
  · rw [parent_add] at isParent
    exact absurd (parent_lt_size adds.wellFormed isParent) (Nat.not_lt_of_le beyond)

theorem setAttribute (adds : Adds base document) (isNew : base.size ≤ id.index)
    (key value : String) : Adds base (document.setAttribute id key value) := by
  rw [Document.setAttribute]
  split
  · exact adds.setContent isNew _
  · exact adds

end Adds

/-- Adding a child keeps the parents of the nodes that are there. -/
theorem parent_addChild (inStore : parent.index < document.size) (content : Content)
    (isOld : id.index < document.size) :
    (document.addChild parent content).parent id = document.parent id := by
  have differ : document.nextId ≠ parent := by
    rintro same
    rw [← same] at inStore
    exact Nat.lt_irrefl _ inStore
  have notNew : id ≠ document.nextId := by
    rintro rfl
    exact Nat.lt_irrefl _ isOld
  rw [addChild, placeLast, parent_place _ _ differ, if_neg notNew, parent_add]
  · rw [size_add]
    omega
  · rw [size_add]
    exact Nat.lt_succ_self _

theorem size_addChild (document : Document) (parent : NodeId) (content : Content) :
    (document.addChild parent content).size = document.size + 1 := by
  rw [addChild, placeLast, size_place, size_add]

/-- A new node that is still detached. -/
structure Fresh (base document : Document) (node : NodeId) : Prop extends Adds base document where
  isNew : base.size ≤ node.index
  inStore : node.index < document.size
  detached : document.parent node = none

theorem fresh_add (wellFormed : document.WellFormed) (content : Content) :
    Fresh document (document.add content) document.nextId where
  toAdds := (Adds.refl wellFormed).add content
  isNew := Nat.le_refl _
  inStore := by simp [nextId]
  detached := by
    rw [parent_add]
    exact parent_of_size_le (Nat.le_refl document.size)

namespace Fresh

variable (fresh : Fresh base document node)
include fresh

/-- A node that is newer than new ones is new. -/
theorem since (adds : Adds after base) : Fresh after document node where
  toAdds := adds.trans fresh.toAdds
  isNew := Nat.le_trans adds.size_le fresh.isNew
  inStore := fresh.inStore
  detached := fresh.detached

omit fresh in
theorem ne_of_later (fresh : Fresh base document node) (later : Fresh document after child) :
    node ≠ child := by
  rintro rfl
  exact absurd fresh.inStore (Nat.not_lt_of_le later.isNew)

/-- A new node stays detached while others are added. -/
theorem adds (adds : Adds document after) : Fresh base after node where
  toAdds := fresh.toAdds.trans adds
  isNew := fresh.isNew
  inStore := Nat.lt_of_lt_of_le fresh.inStore adds.size_le
  detached := by rw [adds.parent_eq fresh.inStore, fresh.detached]

theorem setAttribute (isNew : base.size ≤ id.index) (key value : String) :
    Fresh base (document.setAttribute id key value) node where
  toAdds := fresh.toAdds.setAttribute isNew key value
  isNew := fresh.isNew
  inStore := by rw [size_setAttribute]; exact fresh.inStore
  detached := by rw [parent_setAttribute, fresh.detached]

/-- A new node stays detached while another one is put below a new node. -/
theorem moves (other : Fresh base document child) (differ : node ≠ child)
    (moves : Moves document after child parent left right) (parentNew : base.size ≤ parent.index) :
    Fresh base after node where
  toAdds := fresh.toAdds.moves moves other.isNew parentNew other.detached
  isNew := fresh.isNew
  inStore := by rw [moves.size_eq]; exact fresh.inStore
  detached := by rw [moves.parent_eq, if_neg differ, fresh.detached]

end Fresh

/-! ## Planting -/

/-- `after` is `base` with more nodes, like `document`, whose nodes keep their parents. -/
structure AddsTo (base document after : Document) : Prop extends Adds base after where
  grows : document.size ≤ after.size
  parent_kept : ∀ id, id.index < document.size → after.parent id = document.parent id

theorem AddsTo.trans {middle : Document} (first : AddsTo base document middle)
    (second : AddsTo base middle after) : AddsTo base document after where
  toAdds := second.toAdds
  grows := Nat.le_trans first.grows second.grows
  parent_kept id isOld := by
    rw [second.parent_kept id (Nat.lt_of_lt_of_le isOld first.grows), first.parent_kept id isOld]

theorem Adds.addsTo_addChild (adds : Adds base document) (isNew : base.size ≤ parent.index)
    (inStore : parent.index < document.size) (content : Content) :
    AddsTo base document (document.addChild parent content) where
  toAdds := adds.addChild isNew inStore content
  grows := by
    rw [size_addChild]
    exact Nat.le_succ _
  parent_kept _ := parent_addChild inStore content

mutual

/-- Planting below a new node adds nodes only. -/
theorem addsTo_plantBelow (tree : Tree) (document : Document) (parent : NodeId)
    (adds : Adds base document) (isNew : base.size ≤ parent.index)
    (inStore : parent.index < document.size) :
    AddsTo base document (plantBelow parent tree document) := by
  match tree with
  | .text _ => exact adds.addsTo_addChild isNew inStore _
  | .markup _ => exact adds.addsTo_addChild isNew inStore _
  | .element held children =>
      have added := adds.addsTo_addChild isNew inStore (.element held)
      have root_lt : document.nextId.index < (document.addChild parent (.element held)).size := by
        rw [size_addChild]
        exact Nat.lt_succ_self _
      exact added.trans (addsTo_plantAllBelow children _ _ added.toAdds adds.size_le root_lt)

theorem addsTo_plantAllBelow (trees : List Tree) (document : Document) (parent : NodeId)
    (adds : Adds base document) (isNew : base.size ≤ parent.index)
    (inStore : parent.index < document.size) :
    AddsTo base document (plantAllBelow parent trees document) := by
  match trees with
  | [] => exact ⟨adds, Nat.le_refl _, fun _ _ => rfl⟩
  | first :: rest =>
      have planted := addsTo_plantBelow first document parent adds isNew inStore
      exact planted.trans (addsTo_plantAllBelow rest _ parent planted.toAdds isNew
        (Nat.lt_of_lt_of_le inStore planted.grows))

end

/-- A planted tree is new, and its topmost node is detached. -/
theorem fresh_plant (tree : Tree) (wellFormed : document.WellFormed) :
    Fresh document (document.plant tree) document.nextId := by
  match tree with
  | .text _ => exact fresh_add wellFormed _
  | .markup _ => exact fresh_add wellFormed _
  | .element held children =>
      have top := fresh_add wellFormed (.element held)
      have planted := addsTo_plantAllBelow children _ document.nextId top.toAdds top.isNew
        top.inStore
      exact ⟨planted.toAdds, top.isNew, Nat.lt_of_lt_of_le top.inStore planted.grows,
        (planted.parent_kept _ top.inStore).trans top.detached⟩

/-! ## Reading markup -/

/-- The nodes that a reader may add children to are in the store and new. -/
structure Reads (base : Document) (growing : GrowingDocument) : Prop where
  adds : Adds base growing.document
  container_new : base.size ≤ growing.container.index
  container_lt : growing.container.index < growing.document.size
  open_new : ∀ id ∈ growing.openElements, base.size ≤ id.index
  open_lt : ∀ id ∈ growing.openElements, id.index < growing.document.size

theorem addsTo_addText (adds : Adds base document)
    (inside : ∀ child parent, base.parent child = some parent → parent.index < base.size)
    (isNew : base.size ≤ parent.index) (inStore : parent.index < document.size)
    (characters : String) : AddsTo base document (document.addText parent characters) := by
  rw [addText]
  split
  case h_2 => exact adds.addsTo_addChild isNew inStore _
  case h_1 last isLast =>
    split
    case h_2 => exact adds.addsTo_addChild isNew inStore _
    case h_1 existing _ =>
      have isChild : last ∈ document.children parent := List.mem_of_getLast? isLast
      have isParent := (adds.wellFormed.mem_children_iff _ _).mp isChild
      refine ⟨adds.setContent (adds.isNew_of_parent inside isParent isNew) _, ?_, ?_⟩
      · exact Nat.le_of_eq (size_setContent _ _ _).symm
      · exact fun id _ => parent_setContent _ _ _ _

namespace Reads

variable {growing : GrowingDocument}

theorem top_new (reads : Reads base growing) : base.size ≤ growing.top.index := by
  rw [GrowingDocument.top]
  cases isOpen : growing.openElements with
  | nil => exact reads.container_new
  | cons first rest => exact reads.open_new first (by simp [isOpen])

theorem top_lt (reads : Reads base growing) : growing.top.index < growing.document.size := by
  rw [GrowingDocument.top]
  cases isOpen : growing.openElements with
  | nil => exact reads.container_lt
  | cons first rest => exact reads.open_lt first (by simp [isOpen])

/-- A reader keeps its places while the document grows. -/
theorem grow (reads : Reads base growing)
    (addsTo : AddsTo base growing.document after) {openElements : List NodeId}
    (stillOpen : ∀ id ∈ openElements, id ∈ growing.openElements ∨
      (base.size ≤ id.index ∧ id.index < after.size)) :
    Reads base { growing with document := after, openElements } where
  adds := addsTo.toAdds
  container_new := reads.container_new
  container_lt := Nat.lt_of_lt_of_le reads.container_lt addsTo.grows
  open_new id isOpen := (stillOpen id isOpen).elim (reads.open_new id) And.left
  open_lt id isOpen := (stillOpen id isOpen).elim
    (fun isOld => Nat.lt_of_lt_of_le (reads.open_lt id isOld) addsTo.grows) And.right

theorem add (reads : Reads base growing)
    (inside : ∀ child parent, base.parent child = some parent → parent.index < base.size)
    (event : Markup.Event) :
    Reads base (growing.add event) ∧ AddsTo base growing.document (growing.add event).document := by
  have addsChild := fun content => reads.adds.addsTo_addChild reads.top_new reads.top_lt content
  have addsText := fun characters => addsTo_addText reads.adds inside reads.top_new reads.top_lt
    characters
  cases event with
  | opening name attributes =>
      refine ⟨reads.grow (addsChild _) fun id isOpen => ?_, addsChild _⟩
      rcases List.mem_cons.mp isOpen with rfl | isOpen
      · refine Or.inr ⟨reads.adds.size_le, ?_⟩
        rw [size_addChild]
        exact Nat.lt_succ_self _
      · exact Or.inl isOpen
  | empty name attributes => exact ⟨reads.grow (addsChild _) fun _ => Or.inl, addsChild _⟩
  | closing name =>
      have unchanged : AddsTo base growing.document growing.document :=
        ⟨reads.adds, Nat.le_refl _, fun _ _ => rfl⟩
      exact ⟨reads.grow unchanged fun _ isOpen => Or.inl (List.mem_of_mem_drop isOpen), unchanged⟩
  | text characters => exact ⟨reads.grow (addsText _) fun _ => Or.inl, addsText _⟩
  | reference name => exact ⟨reads.grow (addsText _) fun _ => Or.inl, addsText _⟩
  | markup raw => exact ⟨reads.grow (addsChild _) fun _ => Or.inl, addsChild _⟩

end Reads

/-- Adding events below a new container adds nodes only. -/
theorem addsTo_addEvents (adds : Adds base document)
    (inside : ∀ child parent, base.parent child = some parent → parent.index < base.size)
    (isNew : base.size ≤ parent.index) (inStore : parent.index < document.size)
    (events : List Markup.Event) : AddsTo base document (document.addEvents parent events) := by
  have each : ∀ growing, Reads base growing →
      AddsTo base growing.document (events.foldl GrowingDocument.add growing).document := by
    induction events with
    | nil => exact fun growing reads => ⟨reads.adds, Nat.le_refl _, fun _ _ => rfl⟩
    | cons event events inductionHypothesis =>
        intro growing reads
        rcases reads.add inside event with ⟨reads', addsTo⟩
        exact addsTo.trans (inductionHypothesis _ reads')
  exact each ⟨document, parent, []⟩ ⟨adds, isNew, inStore, by simp, by simp⟩

/-- New nodes are detached from each other. -/
theorem Adds.drops {ids : List NodeId} (adds : Adds base document) (wellFormed : base.WellFormed)
    (drops : Drops document after ids) (isNew : ∀ id ∈ ids, base.size ≤ id.index) :
    Adds base after where
  size_le := drops.size_eq ▸ adds.size_le
  node_eq id isOld := by
    have notDropped : id ∉ ids := fun isDropped =>
      absurd isOld (Nat.not_lt_of_le (isNew id isDropped))
    have keepsChildren : (document.children id).filter (· ∉ ids) = document.children id := by
      refine List.filter_eq_self.mpr fun child isChild => ?_
      rw [adds.children_eq isOld, wellFormed.mem_children_iff] at isChild
      simpa using fun isDropped =>
        absurd (lt_size_of_parent isChild) (Nat.not_lt_of_le (isNew child isDropped))
    rw [← adds.node_eq id isOld]
    refine node_eq_of_fields (drops.content_eq id) ?_ ?_
    · rw [drops.parent_eq, if_neg notDropped]
    · rw [drops.children_eq, keepsChildren]
  wellFormed := drops.wellFormed
  root_eq := drops.root_eq.trans adds.root_eq

end Document

namespace Edit

open Outcome Document

variable {document document' : Document} {nodes : List NodeId}

@[simp]
theorem plant_eq_ok {tree : Tree} {id : NodeId} :
    plant tree document = .ok id document' ↔
      id = document.nextId ∧ document' = document.plant tree := by
  simp only [plant, EStateM.Result.ok.injEq]
  exact and_congr eq_comm eq_comm

/-- A fragment that was read consists of detached new nodes. -/
theorem adds_of_readFragment {source : String} (wellFormed : document.WellFormed)
    (done : readFragment source document = .ok nodes document') :
    Adds document document' ∧ nodes.Nodup ∧ ∀ node ∈ nodes, document.size ≤ node.index ∧
      node.index < document'.size ∧ document'.parent node = none := by
  simp only [readFragment, bind_eq_ok, createElement_eq_ok, modify_eq_ok] at done
  rcases done with ⟨container, _, ⟨rfl, rfl⟩, ⟨⟩, filled, isFilled, done⟩
  have container_lt : document.nextId.index <
      (document.add (.element { name := containerName })).size := by simp [nextId]
  have inside : ∀ child parent, document.parent child = some parent →
      parent.index < document.size := fun _ _ => parent_lt_size wellFormed
  have added : AddsTo document _ filled := isFilled ▸
    addsTo_addEvents ((Adds.refl wellFormed).add _) inside (Nat.le_refl _) container_lt _
  rcases failed : (Markup.Reading.of source).failure with _ | cause
  · simp only [failed, get_bind, bind_eq_ok, pure_eq_ok] at done
    rcases done with ⟨⟨⟩, dropped, dropDone, rfl, rfl⟩
    have isChild : ∀ node ∈ filled.children document.nextId,
        filled.parent node = some document.nextId := fun node isChild =>
      (added.wellFormed.mem_children_iff _ _).mp isChild
    have isNew : ∀ node ∈ filled.children document.nextId, document.size ≤ node.index :=
      fun node isMember => added.isNew_of_parent inside (isChild node isMember) (Nat.le_refl _)
    have drops := drops_of_forM_detach added.wellFormed dropDone
    refine ⟨added.toAdds.drops wellFormed drops isNew, added.wellFormed.nodup_children _, ?_⟩
    intro node isMember
    refine ⟨isNew node isMember, ?_, ?_⟩
    · rw [drops.size_eq]
      exact lt_size_of_parent (isChild node isMember)
    · rw [drops.parent_eq, if_pos isMember]
  · simp only [failed, throw_ne_ok] at done

end Edit

end WordTemplate
