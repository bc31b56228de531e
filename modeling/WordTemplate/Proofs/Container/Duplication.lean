import WordTemplate.Proofs.Container.Repetition
import WordTemplate.Proofs.Operations
import WordTemplate.Proofs.Total.Steps

/-!
# Copies of a region look like the region

A node below a list of nodes is at a place: the number of the tree in the list, then the number of
the child at each level. Copies of a region have the nodes with the same contents at the same
places, they are new, no two of them share a node, and every tag of the region is found in each copy
at the place that it has in the region.
-/

namespace WordTemplate

namespace Document

variable {document source before middle after : Document} {id other root top : NodeId}
  {ids nodes roots : List NodeId} {pairs : List (NodeId × NodeId)} {position : Nat} {path : List Nat}

/-- The node below a node that the numbers of the children at each level lead to. -/
def reach? (document : Document) : List Nat → NodeId → Option NodeId
  | [], id => some id
  | position :: path, id => (document.children id)[position]?.bind (document.reach? path)

/-- The node at a place below a list of nodes. -/
def locate? (document : Document) (nodes : List NodeId) (position : Nat) (path : List Nat) :
    Option NodeId :=
  nodes[position]?.bind (document.reach? path)

/-- Nothing lies below both nodes. -/
def DisjointBelow (document : Document) (id other : NodeId) : Prop :=
  ∀ inner, document.LiesIn id inner → ¬document.LiesIn other inner

theorem reach?_append_singleton (path : List Nat) (position : Nat) (id : NodeId) :
    document.reach? (path ++ [position]) id =
      (document.reach? path id).bind fun last => (document.children last)[position]? := by
  induction path generalizing id with
  | nil => simp [reach?]
  | cons first path inductionHypothesis =>
      simp only [List.cons_append, reach?, Option.bind_assoc]
      congr 1
      exact funext inductionHypothesis

/-- What lies below a node is at some place below it. -/
theorem LiesIn.exists_reach? (wellFormed : document.WellFormed) (inside : document.LiesIn top id) :
    ∃ path, document.reach? path top = some id := by
  induction inside using Relation.ReflTransGen.head_induction_on with
  | refl => exact ⟨[], rfl⟩
  | @head id parent isParent _ inductionHypothesis =>
      rcases inductionHypothesis with ⟨path, found⟩
      rcases List.getElem?_of_mem ((wellFormed.mem_children_iff _ _).mpr isParent) with
        ⟨position, isChild⟩
      exact ⟨path ++ [position], by rw [reach?_append_singleton, found]; exact isChild⟩

theorem exists_locate? (wellFormed : document.WellFormed) (isNode : top ∈ nodes)
    (inside : document.LiesIn top id) :
    ∃ position path, document.locate? nodes position path = some id := by
  rcases List.getElem?_of_mem isNode with ⟨position, isTop⟩
  rcases inside.exists_reach? wellFormed with ⟨path, found⟩
  exact ⟨position, path, by rw [locate?, isTop]; exact found⟩

/-- Nodes that are added later do not change what is reached from the older ones. -/
theorem Retains.reach?_eq (retains : Retains before after) (wellFormed : before.WellFormed)
    (isOld : id.index < before.size) : after.reach? path id = before.reach? path id := by
  induction path generalizing id with
  | nil => rfl
  | cons position path inductionHypothesis =>
      rw [reach?, reach?, retains.children_eq isOld]
      refine Option.bind_congr fun child isChild => inductionHypothesis ?_
      exact lt_size_of_mem_children wellFormed (List.mem_of_getElem? isChild)

theorem Retains.locate?_eq (retains : Retains before after) (wellFormed : before.WellFormed)
    (inStore : ∀ root ∈ roots, root.index < before.size) :
    after.locate? roots position path = before.locate? roots position path :=
  Option.bind_congr fun root isRoot =>
    retains.reach?_eq wellFormed (inStore root (List.mem_of_getElem? isRoot))

/-- Related lists have related elements at every position. -/
theorem rel_getElem? {related : NodeId → NodeId → Prop} {copies : List NodeId}
    (matched : List.Forall₂ related ids copies) (position : Nat) :
    Option.Rel related ids[position]? copies[position]? := by
  induction matched generalizing position with
  | nil => exact .none
  | cons first _ inductionHypothesis =>
      cases position with
      | zero => exact .some first
      | succ position => exact inductionHypothesis position

theorem rel_bind {related : NodeId → NodeId → Prop} {id? other? : Option NodeId}
    {next next' : NodeId → Option NodeId} (matched : Option.Rel related id? other?)
    (onwards : ∀ id other, related id other → Option.Rel related (next id) (next' other)) :
    Option.Rel related (id?.bind next) (other?.bind next') := by
  cases matched with
  | none => exact .none
  | some isRelated => exact onwards _ _ isRelated

namespace Copies

variable {holder : Option NodeId} (copied : Copies source before after holder nodes roots pairs)
include copied

/-- At the same place below a copied node and below its copy are a copied node and its copy. -/
theorem rel_reach? (isPair : (id, other) ∈ pairs) (path : List Nat) :
    Option.Rel (fun id copy => (id, copy) ∈ pairs) (source.reach? path id)
      (after.reach? path other) := by
  induction path generalizing id other with
  | nil => exact .some isPair
  | cons position path inductionHypothesis =>
      exact rel_bind (rel_getElem? (copied.children_eq _ isPair) position) fun _ _ isPair =>
        inductionHypothesis isPair

theorem rel_locate? (position : Nat) (path : List Nat) :
    Option.Rel (fun id copy => (id, copy) ∈ pairs) (source.locate? nodes position path)
      (after.locate? roots position path) :=
  rel_bind (rel_getElem? copied.tops position) fun _ _ isPair => copied.rel_reach? isPair path

theorem content_locate? (position : Nat) (path : List Nat) :
    (after.locate? roots position path).map after.content =
      (source.locate? nodes position path).map source.content := by
  have matched := copied.rel_locate? position path
  generalize source.locate? nodes position path = id? at matched ⊢
  generalize after.locate? roots position path = copy? at matched ⊢
  cases matched with
  | none => rfl
  | some isPair => exact congrArg some (copied.content_eq _ isPair)

theorem root_lt_size (isRoot : root ∈ roots) : root.index < after.size := by
  rcases exists_of_forall₂ copied.tops isRoot with ⟨id, -, isPair⟩
  exact (copied.le_index isPair).2

/-- What is reached from the top of a copy is new. -/
theorem le_index_of_reach? (isRoot : root ∈ roots) (found : after.reach? path root = some id) :
    before.size ≤ id.index ∧ id.index < after.size := by
  rcases exists_of_forall₂ copied.tops isRoot with ⟨top, -, isPair⟩
  have matched := copied.rel_reach? isPair path
  rw [found] at matched
  generalize source.reach? path top = original? at matched
  cases matched with
  | some isPair => exact copied.le_index isPair

end Copies

/-- Subtrees that lie apart have no node twice. -/
theorem nodup_subtrees_of_apart (wellFormed : document.WellFormed)
    (apart : nodes.Pairwise document.DisjointBelow) :
    (nodes.flatMap document.subtree).Nodup := by
  rw [List.nodup_flatMap]
  refine ⟨fun node _ => nodup_subtree wellFormed node, apart.imp fun {id other} apart inner => ?_⟩
  rw [mem_subtree_iff wellFormed, mem_subtree_iff wellFormed]
  exact apart inner

/-- Different topmost nodes lie apart. -/
theorem pairwise_apart_of_nodup (nodup : roots.Nodup)
    (detached : ∀ root ∈ roots, document.parent root = none) :
    roots.Pairwise document.DisjointBelow := by
  refine List.Pairwise.imp_of_mem (fun {id other} isRoot isRoot' differ inner inside inside' => ?_) nodup
  exact differ (eq_of_liesIn_detached (detached id isRoot) (detached other isRoot') inside inside')

/-- A copy of nodes of `document`: the nodes of `after` at the places below its topmost nodes have
the contents of the nodes at the same places below `nodes`, and none of them was there before. -/
structure Duplicates (document after : Document) (nodes : List NodeId) (copy : RegionCopy) : Prop where
  detached : ∀ root ∈ copy.roots, after.parent root = none
  contents : ∀ position path, (after.locate? copy.roots position path).map after.content =
    (document.locate? nodes position path).map document.content
  isNew : ∀ root ∈ copy.roots, ∀ id, after.LiesIn root id →
    document.size ≤ id.index ∧ id.index < after.size

/-- A tag that has moved from its place below `nodes` to the same place below `roots`. -/
structure Follows (document after : Document) (nodes roots : List NodeId) (tag moved : Tag) : Prop where
  relocated : moved = tag.relocated moved.textNode
  place : ∃ position path, document.locate? nodes position path = some tag.textNode ∧
    after.locate? roots position path = some moved.textNode

namespace Copies

variable {start : Document} {copy : RegionCopy} {inner : List Tag}
  (copied : Copies source start middle none nodes copy.roots copy.pairs)
include copied

/-- A copy is one of the same nodes when more nodes have been added. -/
theorem duplicates (onwards : Retains middle after) (wellFormed : after.WellFormed)
    (earlier : source.size ≤ start.size) : Duplicates source after nodes copy where
  detached root isRoot := by
    rw [onwards.parent_eq (copied.root_lt_size isRoot), copied.parent_eq root isRoot]
  contents position path := by
    rw [onwards.locate?_eq copied.wellFormed fun root => copied.root_lt_size,
      ← copied.content_locate? position path]
    refine Option.map_congr fun id found => onwards.content_eq ?_
    rcases Option.bind_eq_some_iff.mp found with ⟨root, isRoot, found⟩
    exact (copied.le_index_of_reach? (List.mem_of_getElem? isRoot) found).2
  isNew root isRoot id inside := by
    rcases inside.exists_reach? wellFormed with ⟨path, found⟩
    rw [onwards.reach?_eq copied.wellFormed (copied.root_lt_size isRoot)] at found
    have bounds := copied.le_index_of_reach? isRoot found
    exact ⟨Nat.le_trans earlier bounds.1, Nat.lt_of_lt_of_le bounds.2 onwards.size_le⟩

/-- Every tag below the copied nodes is found once in the copy, at the same place. -/
theorem follows (onwards : Retains middle after) (sourceFormed : source.WellFormed)
    (keys : (copy.pairs.map Prod.fst).Nodup)
    (inside : ∀ tag ∈ inner, ∃ node ∈ nodes, source.LiesIn node tag.textNode) :
    List.Forall₂ (Follows source after nodes copy.roots) inner (copy.tags inner) := by
  induction inner with
  | nil => exact .nil
  | cons tag inner inductionHypothesis =>
      have rest := inductionHypothesis fun other isOther =>
        inside other (List.mem_cons_of_mem _ isOther)
      rcases inside tag List.mem_cons_self with ⟨node, isNode, below⟩
      rcases exists_locate? sourceFormed isNode below with ⟨position, path, isPlace⟩
      have matched := copied.rel_locate? position path
      rw [isPlace] at matched
      rcases isPlace' : middle.locate? copy.roots position path with _ | image <;>
        rw [isPlace'] at matched <;> cases matched
      next isPair =>
        rw [RegionCopy.tags] at rest ⊢
        rw [List.filterMap_cons, lookup_of_mem_pairs keys isPair]
        refine .cons ⟨rfl, position, path, isPlace, ?_⟩ rest
        rw [onwards.locate?_eq copied.wellFormed fun root => copied.root_lt_size]
        exact isPlace'

end Copies

end Document

namespace Edit

open Document Outcome

variable {source document before after : Document} {nodes : List NodeId} {copies : List RegionCopy}
  {inner : List Tag} {times : Nat}

/-- Copying never fails. -/
theorem copyRegion_succeeds (nodes : List NodeId) (document : Document) :
    Succeeds (copyRegion nodes) document fun _ _ => True := by
  induction nodes generalizing document with
  | nil => exact Succeeds.of_pure trivial
  | cons node nodes inductionHypothesis =>
      refine Succeeds.of_step (copySubtree_eq_ok.mpr ⟨rfl, rfl⟩) ?_
      exact (inductionHypothesis _).bind fun _ _ _ _ => Succeeds.of_pure trivial

theorem repeatRegion_succeeds (nodes : List NodeId) (times : Nat) (document : Document) :
    Succeeds (repeatRegion nodes times) document fun _ _ => True := by
  induction times generalizing document with
  | zero => exact Succeeds.of_pure trivial
  | succ times inductionHypothesis =>
      refine (copyRegion_succeeds nodes document).bind fun _ middle _ _ => ?_
      exact (inductionHypothesis middle).bind fun _ _ _ _ => Succeeds.of_pure trivial

/-- Each repetition copies the nodes as they are, and the later ones only add nodes. -/
theorem copies_of_repeatRegion (sourceFormed : source.WellFormed) (wellFormed : before.WellFormed)
    (retains : Retains source before) (inStore : ∀ node ∈ nodes, node.index < source.size)
    (nodup : (nodes.flatMap source.subtree).Nodup)
    (done : repeatRegion nodes times before = .ok copies after) :
    ∀ copy ∈ copies, ∃ start middle, source.size ≤ start.size ∧
      Copies source start middle none nodes copy.roots copy.pairs ∧ Retains middle after := by
  induction times generalizing before copies with
  | zero =>
      simp only [repeatRegion, pure_eq_ok] at done
      rcases done with ⟨rfl, rfl⟩
      simp
  | succ times inductionHypothesis =>
      simp only [repeatRegion, bind_eq_ok, pure_eq_ok] at done
      rcases done with ⟨first, middle, firstDone, others, _, restDone, rfl, rfl⟩
      have copied := copies_of_copyRegion sourceFormed wellFormed retains inStore firstDone
      have retains' := retains.trans copied.retains
      have repeated :=
        (repeated_of_repeatRegion sourceFormed copied.wellFormed retains' inStore nodup restDone).2
      intro copy isCopy
      rcases List.mem_cons.mp isCopy with rfl | isLater
      · exact ⟨before, middle, retains.size_le, copied, repeated.retains⟩
      · exact inductionHypothesis copied.wellFormed retains' restDone copy isLater

/-- Repeating nodes that lie apart never fails and returns as many copies as were asked for, which
look like the nodes and share nothing with each other. Every tag below the nodes is in each copy
once, in the same order and at the same place, and everything older stays as it was. -/
theorem repeatRegion_duplicates (wellFormed : document.WellFormed)
    (inStore : ∀ node ∈ nodes, node.index < document.size)
    (apart : nodes.Pairwise document.DisjointBelow)
    (inside : ∀ tag ∈ inner, ∃ node ∈ nodes, document.LiesIn node tag.textNode) (times : Nat) :
    Succeeds (repeatRegion nodes times) document fun copies after =>
      copies.length = times ∧ after.WellFormed ∧ Retains document after ∧
      (∀ copy ∈ copies, Duplicates document after nodes copy ∧
        List.Forall₂ (Follows document after nodes copy.roots) inner (copy.tags inner)) ∧
      (copies.flatMap RegionCopy.roots).Pairwise after.DisjointBelow := by
  rcases repeatRegion_succeeds nodes times document with ⟨copies, after, done, -⟩
  have nodup := nodup_subtrees_of_apart wellFormed apart
  rcases repeated_of_repeatRegion wellFormed wellFormed (.refl document) inStore nodup done with
    ⟨length_eq, repeated⟩
  have each := copies_of_repeatRegion wellFormed wellFormed (.refl document) inStore nodup done
  refine ⟨copies, after, done, length_eq, repeated.wellFormed, repeated.retains, ?_, ?_⟩
  · intro copy isCopy
    rcases each copy isCopy with ⟨start, middle, earlier, copied, onwards⟩
    exact ⟨copied.duplicates onwards repeated.wellFormed earlier,
      copied.follows onwards wellFormed (copied.nodup_sources nodup) inside⟩
  · refine pairwise_apart_of_nodup repeated.nodup fun root isRoot => ?_
    rcases List.mem_flatMap.mp isRoot with ⟨copy, isCopy, isRoot⟩
    exact (repeated.copied copy isCopy).detached root isRoot

/-- A paragraph with two runs, a break in the first of them. -/
def twoRuns : Document :=
  .ofTree (Tree.node "w:p" []
    [Tree.node "w:r" [] [Tree.node "w:br" [] [], Tree.node "w:t" [] [.text "a"]],
      Tree.node "w:r" [] [Tree.node "w:t" [] [.text "b"]]])

/-- The runs of the paragraph. -/
def bothRuns : List NodeId := [⟨2⟩, ⟨6⟩]

/-- A tag in the text of the second run. -/
def tagInSecondRun : Tag := ⟨"b", "b", .leaf, [], ⟨8⟩⟩

/-- The two runs are repeated three times, and so is the tag in the second one. -/
theorem repeatRegion_duplicates_twoRuns :
    twoRuns.WellFormed ∧ (∀ node ∈ bothRuns, node.index < twoRuns.size) ∧
      bothRuns.Pairwise twoRuns.DisjointBelow ∧
      (∀ tag ∈ [tagInSecondRun], ∃ node ∈ bothRuns, twoRuns.LiesIn node tag.textNode) ∧
      Succeeds (repeatRegion bothRuns 3) twoRuns fun copies after =>
        copies.length = 3 ∧ Retains twoRuns after ∧ ∀ copy ∈ copies, List.Forall₂
          (Follows twoRuns after bothRuns copy.roots) [tagInSecondRun] (copy.tags [tagInSecondRun]) := by
  have wellFormed : twoRuns.WellFormed := wellFormed_ofTree _
  have inStore : ∀ node ∈ bothRuns, node.index < twoRuns.size := by decide +kernel
  have below : ∀ {node id}, id ∈ twoRuns.subtree node ↔ twoRuns.LiesIn node id :=
    mem_subtree_iff wellFormed
  have disjoint : ∀ inner ∈ twoRuns.subtree ⟨2⟩, inner ∉ twoRuns.subtree ⟨6⟩ := by decide +kernel
  have apart : bothRuns.Pairwise twoRuns.DisjointBelow := by
    refine List.pairwise_pair.mpr fun inner inside inside' => ?_
    exact disjoint inner (below.mpr inside) (below.mpr inside')
  have inside : ∀ tag ∈ [tagInSecondRun], ∃ node ∈ bothRuns, twoRuns.LiesIn node tag.textNode := by
    intro tag isTag
    rw [List.mem_singleton.mp isTag]
    exact ⟨⟨6⟩, by decide, below.mp (by decide +kernel)⟩
  refine ⟨wellFormed, inStore, apart, inside, ?_⟩
  exact (repeatRegion_duplicates wellFormed inStore apart inside 3).imp
    fun _ _ _ ⟨length_eq, _, retains, each, _⟩ =>
      ⟨length_eq, retains, fun copy isCopy => (each copy isCopy).2⟩

end Edit

end WordTemplate
