import WordTemplate.Document.Plant
import WordTemplate.Markup.Build
import WordTemplate.Proofs.Document.Moves

/-!
# Elements that are added to a document

Moving nodes and changing texts bring in no elements. What holds of the elements of a tree holds of the
elements that planting the tree adds, and what holds of the elements that markup spells holds of those
that reading it adds.
-/

namespace WordTemplate

mutual

/-- Something holds of all elements of a tree. -/
def Tree.EachElement (holds : Element → Prop) : Tree → Prop
  | .text _ => True
  | .markup _ => True
  | .element held children => holds held ∧ Tree.AllEachElement holds children

/-- Something holds of all elements of several trees. -/
def Tree.AllEachElement (holds : Element → Prop) : List Tree → Prop
  | [] => True
  | first :: rest => first.EachElement holds ∧ Tree.AllEachElement holds rest

end

theorem Tree.allEachElement_iff {holds : Element → Prop} (trees : List Tree) :
    AllEachElement holds trees ↔ ∀ tree ∈ trees, tree.EachElement holds := by
  induction trees with
  | nil => simp [AllEachElement]
  | cons first rest inductionHypothesis => simp [AllEachElement, inductionHypothesis]

/-- What holds of all elements of a tree holds of its topmost one and of those of its children. -/
theorem Tree.eachElement_node {holds : Element → Prop} {name : String}
    {attributes : List (String × String)} {children : List Tree} :
    (Tree.node name attributes children).EachElement holds ↔
      holds ⟨name, attributes.map fun (key, value) => ⟨key, value⟩⟩ ∧
        ∀ child ∈ children, child.EachElement holds := by
  rw [Tree.node, EachElement, allEachElement_iff]

/-- The element that an event begins. -/
def Markup.Event.element? : Event → Option Element
  | .opening name attributes | .empty name attributes => some { name, attributes }
  | _ => none

namespace Document

variable {holds : Element → Prop} {document : Document} {since : Nat} {content : Content}

/-- Something holds of all elements from an address on. -/
def EachSince (since : Nat) (holds : Element → Prop) (document : Document) : Prop :=
  ∀ id, since ≤ id.index → ∀ element, document.element? id = some element → holds element

/-- No element is new yet. -/
theorem eachSince_size (document : Document) : document.EachSince document.size holds := by
  intro id isNew element isElement
  rw [element?, Document.content, node_of_size_le isNew] at isElement
  cases isElement

/-- Changes that leave the content of nodes alone bring in no element. -/
theorem content_modifyNode {change : Node → Node} (keeps : ∀ node, (change node).content = node.content)
    (document : Document) (id other : NodeId) :
    (document.modifyNode id change).content other = document.content other := by
  rcases Nat.lt_or_ge id.index document.size with inStore | beyond
  · rw [content, content, node_modifyNode document change inStore]
    split
    · exact keeps _
    · rfl
  · rw [modifyNode_of_size_le beyond]

namespace EachSince

theorem add (each : document.EachSince since holds)
    (holdsContent : ∀ element, content.element? = some element → holds element) :
    (document.add content).EachSince since holds := by
  intro id isNew element isElement
  rw [element?, content_add] at isElement
  split at isElement
  · exact holdsContent element isElement
  · exact each id isNew element isElement

theorem modifyNode (each : document.EachSince since holds) (id : NodeId) {change : Node → Node}
    (keeps : ∀ node, (change node).content = node.content) :
    (document.modifyNode id change).EachSince since holds := by
  intro other isNew element isElement
  rw [element?, content_modifyNode keeps] at isElement
  exact each other isNew element isElement

theorem detach (each : document.EachSince since holds) (id : NodeId) :
    (document.detach id).EachSince since holds := by
  rw [Document.detach]
  split
  · apply EachSince.modifyNode
    · exact each.modifyNode _ fun _ => rfl
    · exact fun _ => rfl
  · exact each

theorem place (each : document.EachSince since holds) (parent : NodeId) (index : Nat) (child : NodeId) :
    (document.place parent index child).EachSince since holds := by
  rw [Document.place]
  apply EachSince.modifyNode
  · exact each.modifyNode parent fun _ => rfl
  · exact fun _ => rfl

theorem addChild (each : document.EachSince since holds) (parent : NodeId)
    (holdsContent : ∀ element, content.element? = some element → holds element) :
    (document.addChild parent content).EachSince since holds :=
  (each.add holdsContent).place _ _ _

theorem setContent (each : document.EachSince since holds) (id : NodeId)
    (holdsContent : ∀ element, content.element? = some element → holds element) :
    (document.setContent id content).EachSince since holds := by
  intro other isNew element isElement
  rcases Nat.lt_or_ge id.index document.size with inStore | beyond
  · rw [element?, content_setContent document inStore] at isElement
    split at isElement
    · exact holdsContent element isElement
    · exact each other isNew element isElement
  · rw [Document.setContent, modifyNode_of_size_le beyond] at isElement
    exact each other isNew element isElement

/-- Text is no element. -/
theorem setText (each : document.EachSince since holds) (id : NodeId) (characters : String) :
    (document.setContent id (.text characters)).EachSince since holds :=
  each.setContent id (by rintro _ ⟨⟩)

end EachSince

mutual

theorem eachSince_plantBelow (parent : NodeId) (tree : Tree) (document : Document)
    (holdsTree : tree.EachElement holds) (each : document.EachSince since holds) :
    (plantBelow parent tree document).EachSince since holds := by
  match tree with
  | .text _ => exact each.addChild parent (by rintro _ ⟨⟩)
  | .markup _ => exact each.addChild parent (by rintro _ ⟨⟩)
  | .element held children =>
      exact eachSince_plantAllBelow _ children _ holdsTree.2
        (each.addChild parent (by rintro _ ⟨⟩; exact holdsTree.1))

theorem eachSince_plantAllBelow (parent : NodeId) (trees : List Tree) (document : Document)
    (holdsTrees : Tree.AllEachElement holds trees) (each : document.EachSince since holds) :
    (plantAllBelow parent trees document).EachSince since holds := by
  match trees with
  | [] => exact each
  | first :: rest =>
      exact eachSince_plantAllBelow parent rest _ holdsTrees.2
        (eachSince_plantBelow parent first document holdsTrees.1 each)

end

theorem EachSince.plant {tree : Tree} (each : document.EachSince since holds)
    (holdsTree : tree.EachElement holds) : (document.plant tree).EachSince since holds := by
  match tree with
  | .text _ => exact each.add (by rintro _ ⟨⟩)
  | .markup _ => exact each.add (by rintro _ ⟨⟩)
  | .element held children =>
      exact eachSince_plantAllBelow _ children _ holdsTree.2
        (each.add (by rintro _ ⟨⟩; exact holdsTree.1))

theorem EachSince.addText (each : document.EachSince since holds) (parent : NodeId)
    (characters : String) : (document.addText parent characters).EachSince since holds := by
  have added : (document.addChild parent (.text characters)).EachSince since holds :=
    each.addChild parent (by rintro _ ⟨⟩)
  rw [Document.addText]
  split
  · split
    · exact each.setText _ _
    · exact added
  · exact added

/-- An event adds the element that it begins, if any. -/
theorem eachSince_addEvent {growing : GrowingDocument} {event : Markup.Event}
    (holdsEvent : ∀ element, event.element? = some element → holds element)
    (each : growing.document.EachSince since holds) :
    (growing.add event).document.EachSince since holds := by
  cases event with
  | opening name attributes => exact each.addChild _ holdsEvent
  | empty name attributes => exact each.addChild _ holdsEvent
  | closing name => exact each
  | text characters => exact each.addText _ _
  | reference name => exact each.addText _ _
  | markup raw => exact each.addChild _ (by rintro _ ⟨⟩)

theorem EachSince.addEvents {events : List Markup.Event} (each : document.EachSince since holds)
    (holdsEvents : ∀ event ∈ events, ∀ element, event.element? = some element → holds element)
    (container : NodeId) : (document.addEvents container events).EachSince since holds := by
  suffices folded : ∀ growing : GrowingDocument, growing.document.EachSince since holds →
      (events.foldl GrowingDocument.add growing).document.EachSince since holds from
    folded ⟨document, container, []⟩ each
  clear each
  induction events with
  | nil => exact fun _ each => each
  | cons event rest inductionHypothesis =>
      intro growing each
      rw [List.foldl_cons]
      refine inductionHypothesis
        (fun other isMember => holdsEvents other (List.mem_cons_of_mem _ isMember))
        _ (eachSince_addEvent (holdsEvents event List.mem_cons_self) each)

end Document

end WordTemplate
