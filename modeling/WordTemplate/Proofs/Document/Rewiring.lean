import WordTemplate.Proofs.Document.Adding
import WordTemplate.Proofs.Document.Succeeding
import WordTemplate.Proofs.Document.Trees

/-!
# Rewiring a document

An edit that adds, moves and drops nodes changes the child lists of some nodes and the parents of
some nodes, and leaves what the nodes carry. `Rewires` names the nodes whose child lists and the nodes
whose parents may change. Everything else is a frame: a subtree in which no child list changes keeps
its tree.
-/

namespace WordTemplate.Document

variable {document before middle after : Document} {id node parent target : NodeId}
  {part moved : NodeId → Prop} {ids left right : List NodeId}

/-- Among the nodes of `before` only those of `part` have other children in `after`, and only those
of `moved` have another parent. -/
structure Rewires (part moved : NodeId → Prop) (before after : Document) : Prop where
  wellFormed : after.WellFormed
  size_le : before.size ≤ after.size
  content_eq : ∀ id, id.index < before.size → after.content id = before.content id
  children_eq : ∀ id, id.index < before.size → ¬part id → after.children id = before.children id
  parent_eq : ∀ id, id.index < before.size → ¬moved id → after.parent id = before.parent id

theorem rewires_add (wellFormed : document.WellFormed) (content : Content) :
    Rewires (fun _ => False) (fun _ => False) document (document.add content) where
  wellFormed := wellFormed.add content
  size_le := by
    rw [size_add]
    exact Nat.le_succ _
  content_eq id isOld := by rw [Document.content, node_add_of_lt isOld, ← Document.content]
  children_eq id _ _ := children_add document content id
  parent_eq id _ _ := parent_add document content id

theorem Retains.rewires (retains : Retains before after) (wellFormed : after.WellFormed) :
    Rewires (fun _ => False) (fun _ => False) before after where
  wellFormed := wellFormed
  size_le := retains.size_le
  content_eq id isOld := retains.content_eq isOld
  children_eq id isOld _ := retains.children_eq isOld
  parent_eq id isOld _ := by simp only [Document.parent, retains.node_eq id isOld]

theorem Moves.rewires (moves : Moves before after node parent left right)
    (wellFormed : before.WellFormed) :
    Rewires (fun id => id = parent ∨ before.parent node = some id) (· = node) before after where
  wellFormed := moves.wellFormed
  size_le := Nat.le_of_eq moves.size_eq.symm
  content_eq id _ := moves.content_eq id
  children_eq id _ untouched := by
    rw [moves.children_eq, if_neg fun same => untouched (Or.inl same),
      filter_children_of_ne wellFormed fun isParent => untouched (Or.inr isParent)]
  parent_eq id _ notMoved := by rw [moves.parent_eq, if_neg notMoved]

theorem Drops.rewires (drops : Drops before after ids) (wellFormed : before.WellFormed) :
    Rewires (fun id => ∃ child ∈ ids, before.parent child = some id) (· ∈ ids) before after where
  wellFormed := drops.wellFormed
  size_le := Nat.le_of_eq drops.size_eq.symm
  content_eq id _ := drops.content_eq id
  children_eq _ _ untouched := drops.children_of_not_parent wellFormed fun child isMember isParent =>
    untouched ⟨child, isMember, isParent⟩
  parent_eq id _ notMoved := by rw [drops.parent_eq, if_neg notMoved]

theorem Gathers.rewires (gathers : Gathers before after target ids)
    (wellFormed : before.WellFormed) :
    Rewires (fun id => id = target ∨ ∃ child ∈ ids, before.parent child = some id) (· ∈ ids)
      before after where
  wellFormed := gathers.wellFormed
  size_le := Nat.le_of_eq gathers.size_eq.symm
  content_eq id _ := gathers.content_eq id
  children_eq id _ untouched := by
    rw [gathers.children_eq, if_neg fun same => untouched (Or.inl same), List.append_nil]
    refine List.filter_eq_self.mpr fun child isChild => ?_
    rw [decide_eq_true_eq]
    exact fun isMember =>
      untouched (Or.inr ⟨child, isMember, (wellFormed.mem_children_iff _ _).mp isChild⟩)
  parent_eq id _ notMoved := by rw [gathers.parent_eq, if_neg notMoved]

namespace Rewires

theorem refl (wellFormed : document.WellFormed) : Rewires part moved document document :=
  ⟨wellFormed, Nat.le_refl _, fun _ _ => rfl, fun _ _ _ => rfl, fun _ _ _ => rfl⟩

/-- One edit after another, as long as both stay within bounds that are set in the document before
them. -/
theorem trans {part' moved' part'' moved'' : NodeId → Prop}
    (first : Rewires part' moved' before middle) (second : Rewires part'' moved'' middle after)
    (first_part : ∀ id, part' id → part id) (first_moved : ∀ id, moved' id → moved id)
    (second_part : ∀ id, id.index < before.size → part'' id → part id)
    (second_moved : ∀ id, id.index < before.size → moved'' id → moved id) :
    Rewires part moved before after where
  wellFormed := second.wellFormed
  size_le := Nat.le_trans first.size_le second.size_le
  content_eq id isOld := by
    rw [second.content_eq id (Nat.lt_of_lt_of_le isOld first.size_le), first.content_eq id isOld]
  children_eq id isOld untouched := by
    rw [second.children_eq id (Nat.lt_of_lt_of_le isOld first.size_le)
        fun isPart => untouched (second_part id isOld isPart),
      first.children_eq id isOld fun isPart => untouched (first_part id isPart)]
  parent_eq id isOld untouched := by
    rw [second.parent_eq id (Nat.lt_of_lt_of_le isOld first.size_le)
        fun isMoved => untouched (second_moved id isOld isMoved),
      first.parent_eq id isOld fun isMoved => untouched (first_moved id isMoved)]

variable (rewires : Rewires part moved before after)
include rewires

/-- Wider bounds hold as well. -/
theorem mono {part' moved' : NodeId → Prop} (part_le : ∀ id, part id → part' id)
    (moved_le : ∀ id, moved id → moved' id) : Rewires part' moved' before after :=
  rewires.trans (refl rewires.wellFormed) part_le moved_le (fun _ _ => id) fun _ _ => id

theorem isNamed_eq (isOld : id.index < before.size) (name : String) :
    after.isNamed id name = before.isNamed id name := by
  exact isNamed_of_content_eq (rewires.content_eq id isOld) _

/-- A subtree in which no child list changes keeps its tree. -/
theorem tree_eq (wellFormed : before.WellFormed) (isOld : id.index < before.size)
    (untouched : ∀ other, before.LiesIn id other → ¬part other) : after.tree id = before.tree id :=
  tree_congr wellFormed rewires.size_le fun other inside =>
    ⟨rewires.content_eq other (lt_size_below inside isOld),
      rewires.children_eq other (lt_size_below inside isOld) (untouched other inside)⟩

/-- A subtree in which no child list changes keeps its running text. -/
theorem runningTexts_eq (wellFormed : before.WellFormed) (isOld : id.index < before.size)
    (untouched : ∀ other, before.LiesIn id other → ¬part other) :
    after.runningTexts id = before.runningTexts id := by
  refine runningTexts_eq_of_children (before.LiesIn id) wellFormed rewires.wellFormed
    (fun other inside child isChild => .of_parent ((wellFormed.mem_children_iff _ _).mp isChild) inside)
    ?_ ?_ ?_ LiesIn.refl
  · intro other inside
    simp only [isText, text?, rewires.content_eq other (lt_size_below inside isOld)]
  · exact fun other inside =>
      isProperties_of_content_eq (rewires.content_eq other (lt_size_below inside isOld))
  · intro other inside _ sameBelow
    rw [rewires.children_eq other (lt_size_below inside isOld) (untouched other inside)]
    exact List.flatMap_congr sameBelow

/-- What stands above a node stays there if nothing above it is moved. -/
theorem liesIn_iff (wellFormed : before.WellFormed) (isOld : id.index < before.size)
    (untouched : ∀ other, before.LiesIn other id → ¬moved other) :
    after.LiesIn node id ↔ before.LiesIn node id :=
  liesIn_iff_of_parent_eq fun other above =>
    rewires.parent_eq other (lt_size_of_liesIn wellFormed above isOld) (untouched other above)

end Rewires

/-! ## Placing a new node -/

/-- A node that was added in `middle` was placed among the children of an old one. -/
structure Placed (before middle after : Document) (outer node : NodeId) (left right : List NodeId) :
    Prop extends Rewires (· = outer) (fun _ => False) before after where
  root_eq : after.root = before.root
  children_outer : after.children outer = left ++ node :: right
  size_eq : after.size = middle.size
  content_new : ∀ id, before.size ≤ id.index → after.content id = middle.content id
  children_new : ∀ id, before.size ≤ id.index → after.children id = middle.children id

namespace Fresh

variable {outer reference : NodeId} (fresh : Fresh before middle node)
include fresh

theorem ne_of_old (isOld : id.index < before.size) : id ≠ node := by
  rintro rfl
  exact Nat.not_lt_of_le fresh.isNew isOld

/-- Where a new node is moved below an old one, nothing else changes. -/
theorem placed (moves : Moves middle after node outer left right)
    (outer_lt : outer.index < before.size) : Placed before middle after outer node left right where
  wellFormed := moves.wellFormed
  size_le := by
    rw [moves.size_eq]
    exact fresh.size_le
  content_eq id isOld := by rw [moves.content_eq, fresh.toRetains.content_eq isOld]
  children_eq id isOld apart := by
    rw [moves.children_eq, if_neg apart, filter_children_of_parent_none fresh.wellFormed fresh.detached,
      fresh.toRetains.children_eq isOld]
  parent_eq id isOld _ := by
    rw [moves.parent_eq, if_neg (fresh.ne_of_old isOld), fresh.parent_eq isOld]
  root_eq := by rw [moves.root_eq, fresh.root_eq]
  children_outer := by rw [moves.children_eq, if_pos rfl]
  size_eq := moves.size_eq
  content_new id _ := moves.content_eq id
  children_new id isNew := by
    have apart : id ≠ outer := by
      rintro rfl
      exact Nat.not_lt_of_le isNew outer_lt
    rw [moves.children_eq, if_neg apart, filter_children_of_parent_none fresh.wellFormed fresh.detached]

/-- A new node can be placed right behind any child. -/
theorem exists_placed_insertAfter (wellFormed : before.WellFormed)
    (children : before.children outer = left ++ reference :: right) :
    ∃ after, Edit.insertAfter node reference middle = .ok ⟨⟩ after ∧
      Placed before middle after outer node (left ++ [reference]) right := by
  have isParent : before.parent reference = some outer := by
    rw [← wellFormed.mem_children_iff, children]
    simp
  have reference_lt := lt_size_of_parent isParent
  have outer_lt := parent_lt_size wellFormed isParent
  have outside : ¬middle.LiesIn node outer := fun inside => Nat.not_le_of_lt
    (fresh.toRetains.lt_size_of_liesIn wellFormed inside outer_lt) fresh.isNew
  rcases Edit.exists_moves_insertAfter fresh.wellFormed ((fresh.parent_eq reference_lt).trans isParent)
    fresh.inStore (fresh.ne_of_old reference_lt).symm outside with ⟨after, left', right', done, moves⟩
  have others := moves.others_eq
  have nodup := wellFormed.nodup_children outer
  rw [filter_children_of_parent_none fresh.wellFormed fresh.detached,
    fresh.toRetains.children_eq outer_lt, children, List.append_assoc, List.singleton_append] at others
  rw [children] at nodup
  rcases append_cons_inj nodup others with ⟨rfl, rfl⟩
  exact ⟨after, done, fresh.placed moves outer_lt⟩

end Fresh

end WordTemplate.Document
