import WordTemplate.Proofs.Document.Copying
import WordTemplate.Proofs.Word.Properties

/-!
# Trees of nodes

The tree of an element is made of the trees of its children, so what can be read off the names and
children below a node can be read off its tree. Nodes have the same tree if what lies below them
corresponds, node by node.
-/

namespace WordTemplate

namespace Tree

/-- Whether a tree is an element with the given name. -/
def isNamed (name : String) : Tree → Bool
  | element held _ => held.name == name
  | _ => false

/-- The trees right below a tree. -/
def children : Tree → List Tree
  | element _ children => children
  | _ => []

/-- The first child that is an element with the given name. -/
def childNamed? (tree : Tree) (name : String) : Option Tree :=
  tree.children.find? (isNamed name)

end Tree

namespace Document

variable {document source before after : Document} {id other copy : NodeId} {name : String}
  {related : NodeId → NodeId → Prop}

theorem map_eq_of_forall₂ {α : Type} {ids copies : List NodeId} {value value' : NodeId → α}
    (matched : List.Forall₂ related ids copies)
    (each : ∀ id ∈ ids, ∀ copy, related id copy → value' copy = value id) :
    copies.map value' = ids.map value := by
  induction matched with
  | nil => rfl
  | cons isRelated _ inductionHypothesis =>
      rw [List.map_cons, List.map_cons, each _ List.mem_cons_self _ isRelated,
        inductionHypothesis fun id isMember => each id (List.mem_cons_of_mem _ isMember)]

theorem treeWithin_eq_of_related
    (content_eq : ∀ id copy, related id copy → after.content copy = source.content id)
    (children_eq : ∀ id copy, related id copy →
      List.Forall₂ related (source.children id) (after.children copy))
    {levels fewer : Nat} (height : source.HeightLe levels id) (height' : source.HeightLe fewer id)
    (isRelated : related id copy) :
    after.treeWithin levels copy = source.treeWithin fewer id := by
  have carries := content_eq id copy isRelated
  have matched := children_eq id copy isRelated
  induction levels generalizing id copy fewer with
  | zero =>
      have childless : source.children id = [] := height
      cases fewer with
      | zero => rw [treeWithin, treeWithin, carries]
      | succ fewer =>
          rw [treeWithin, treeWithin, carries]
          simp [childless]
  | succ levels inductionHypothesis =>
      cases fewer with
      | zero =>
          have childless : source.children id = [] := height'
          rw [childless, List.forall₂_nil_left_iff] at matched
          rw [treeWithin, treeWithin, carries]
          simp [matched]
      | succ fewer =>
          have each : (after.children copy).map (after.treeWithin levels) =
              (source.children id).map (source.treeWithin fewer) :=
            map_eq_of_forall₂ matched fun child isChild copy isRelated =>
              inductionHypothesis (height child isChild) (height' child isChild) isRelated
                (content_eq child copy isRelated) (children_eq child copy isRelated)
          rw [treeWithin, treeWithin, carries]
          simp only [each]

/-- Nodes have the same tree if what lies below them corresponds. -/
theorem tree_eq_of_related (wellFormed : source.WellFormed) (size_le : source.size ≤ after.size)
    (content_eq : ∀ id copy, related id copy → after.content copy = source.content id)
    (children_eq : ∀ id copy, related id copy →
      List.Forall₂ related (source.children id) (after.children copy))
    (isRelated : related id copy) : after.tree copy = source.tree id :=
  treeWithin_eq_of_related content_eq children_eq (heightLe_of_size_le wellFormed (by omega))
    (heightLe_of_size_le wellFormed (by omega)) isRelated

/-- A tree stays as it is while nothing below it changes. -/
theorem ChangesWithin.tree_eq {zone : NodeId → Prop} {rights : Rights} {before after : Document}
    (changes : ChangesWithin zone rights before after) (wellFormed : before.WellFormed)
    (outside : ∀ other, before.LiesIn id other → ¬zone other) : after.tree id = before.tree id :=
  tree_congr wellFormed changes.size_le fun other inside =>
    ⟨changes.content_eq (outside other inside), changes.children_eq (outside other inside)⟩

/-- The tree of an element is made of the trees of its children. -/
theorem tree_eq_element {held : Element} (wellFormed : document.WellFormed)
    (isElement : document.content id = .element held) :
    document.tree id = .element held ((document.children id).map document.tree) := by
  rw [tree]
  rcases sizeIs : document.size with _ | levels
  · have outside : document.size ≤ id.index := by omega
    rw [Document.content, node_of_size_le outside] at isElement
    cases isElement
  · rw [treeWithin, isElement]
    simp only [Tree.element.injEq, true_and]
    refine List.map_congr_left fun child isChild => ?_
    have deeper := depth_of_parent wellFormed ((wellFormed.mem_children_iff _ _).mp isChild)
    refine treeWithin_congr wellFormed (heightLe_of_size_le wellFormed (by omega))
      (heightLe_of_size_le wellFormed (by omega)) fun _ _ => ⟨rfl, rfl⟩

/-- The name of an element can be read off its tree. -/
theorem isNamed_tree (document : Document) (id : NodeId) (name : String) :
    (document.tree id).isNamed name = document.isNamed id name := by
  rw [tree, isNamed, name?, element?]
  cases document.size <;> rw [treeWithin] <;> rcases document.content id with _ | _ | _ <;>
    simp [Tree.isNamed, Content.element?]

/-- The children of an element can be read off its tree. -/
theorem children_tree (wellFormed : document.WellFormed) (named : document.isNamed id name = true) :
    (document.tree id).children = (document.children id).map document.tree := by
  rcases isContent : document.content id with characters | held | raw
  · simp [isNamed, name?, element?, isContent, Content.element?] at named
  · rw [tree_eq_element wellFormed isContent, Tree.children]
  · simp [isNamed, name?, element?, isContent, Content.element?] at named

theorem find?_map_tree (document : Document) (ids : List NodeId) (name : String) :
    (ids.map document.tree).find? (Tree.isNamed name) =
      (ids.find? (document.isNamed · name)).map document.tree := by
  rw [List.find?_map]
  congr 2
  funext id
  exact isNamed_tree document id name

/-- The child of an element with a name can be read off its tree. -/
theorem childNamed?_tree (wellFormed : document.WellFormed) {name' : String}
    (named : document.isNamed id name = true) :
    (document.tree id).childNamed? name' = (document.childNamed? id name').map document.tree := by
  rw [Tree.childNamed?, children_tree wellFormed named, find?_map_tree, childNamed?]

/-- A property of a paragraph can be read off the trees of the properties that it has. -/
theorem paragraphProperty?_tree (wellFormed : document.WellFormed) (paragraph : NodeId)
    (name : String) :
    (document.paragraphProperty? paragraph name).map document.tree =
      ((((document.children paragraph).filter document.isProperties).map document.tree).find?
        (Tree.isNamed Word.Name.paragraphProperties)).bind (·.childNamed? name) := by
  have sameFirst : ((document.children paragraph).filter document.isProperties).find?
      (document.isNamed · Word.Name.paragraphProperties) =
      (document.children paragraph).find?
        (document.isNamed · Word.Name.paragraphProperties) := by
    rw [List.find?_filter]
    congr 1
    funext child
    rcases named : document.isNamed child Word.Name.paragraphProperties with _ | _
    · simp
    · have isProperties : document.isProperties child = true :=
        (isProperties_of_isNamed named).trans (by decide)
      simp [isProperties]
  rw [find?_map_tree, sameFirst, paragraphProperty?, childNamed?]
  rcases found : (document.children paragraph).find?
    (document.isNamed · Word.Name.paragraphProperties) with _ | properties
  · rfl
  · have named : document.isNamed properties Word.Name.paragraphProperties = true := by
      simpa using List.find?_some found
    simp only [Option.bind_some, Option.map_some]
    exact (childNamed?_tree wellFormed named).symm

end Document

end WordTemplate
