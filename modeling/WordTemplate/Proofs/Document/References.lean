import WordTemplate.Package.Resources
import WordTemplate.Proofs.Document.Contents
import WordTemplate.Proofs.Lasting
import WordTemplate.Word.Name

/-!
# References of documents

A hyperlink and an image refer to a resource of the package by the id of a relationship. The
references of a document are those of all its nodes, detached ones included. Steps of an edit move
nodes, copy them and change their text; none of that brings a reference into the document that was
not there before. Planting a tree and reading markup bring in the references written there.
-/

namespace WordTemplate

/-- The name of the element that shows an image. -/
def Word.Name.blip : String := "a:blip"

/-- The attribute by which an image names a relationship. -/
def Word.Name.embeddedId : String := "r:embed"

/-- The kind and the id of the relationship that an element names. -/
structure Reference where
  kind : RelationshipKind
  id : String
deriving DecidableEq

/-- The reference of an element with the given name and attributes. -/
def Element.reference? (element : Element) : Option Reference :=
  if element.name = Word.Name.hyperlink then
    (element.attribute? Word.Name.relationshipId).map (⟨.hyperlink, ·⟩)
  else if element.name = Word.Name.blip then
    (element.attribute? Word.Name.embeddedId).map (⟨.image, ·⟩)
  else
    none

/-- The reference that a node makes. -/
def Content.reference? (content : Content) : Option Reference :=
  content.element?.bind Element.reference?

/-- The reference of an element, if any, is allowed. -/
def Element.CitesOnly (allowed : Reference → Prop) (element : Element) : Prop :=
  ∀ reference, element.reference? = some reference → allowed reference

/-- Only elements make references. -/
theorem Content.citesOnly_iff {allowed : Reference → Prop} {content : Content} :
    (∀ reference, content.reference? = some reference → allowed reference) ↔
      ∀ element, content.element? = some element → element.CitesOnly allowed := by
  simp only [Content.reference?, Option.bind_eq_some_iff, Element.CitesOnly]
  constructor
  · intro isAllowed held isElement reference made
    exact isAllowed reference ⟨held, isElement, made⟩
  · rintro isAllowed reference ⟨held, isElement, made⟩
    exact isAllowed held isElement reference made

namespace Document

variable {allowed : Reference → Prop} {document : Document}

/-- All references of a document are allowed. -/
def CitesOnly (allowed : Reference → Prop) (document : Document) : Prop :=
  ∀ id reference, (document.content id).reference? = some reference → allowed reference

/-- A document cites what its elements make references to. -/
theorem citesOnly_iff_eachSince :
    document.CitesOnly allowed ↔ document.EachSince 0 (Element.CitesOnly allowed) :=
  ⟨fun cites id _ => Content.citesOnly_iff.mp (cites id),
    fun each id => Content.citesOnly_iff.mpr (each id (Nat.zero_le _))⟩

namespace CitesOnly

theorem detach (cites : document.CitesOnly allowed) (id : NodeId) :
    (document.detach id).CitesOnly allowed :=
  citesOnly_iff_eachSince.mpr ((citesOnly_iff_eachSince.mp cites).detach id)

theorem place (cites : document.CitesOnly allowed) (parent : NodeId) (index : Nat) (child : NodeId) :
    (document.place parent index child).CitesOnly allowed :=
  citesOnly_iff_eachSince.mpr ((citesOnly_iff_eachSince.mp cites).place parent index child)

theorem add {content : Content} (cites : document.CitesOnly allowed)
    (isAllowed : ∀ reference, content.reference? = some reference → allowed reference) :
    (document.add content).CitesOnly allowed :=
  citesOnly_iff_eachSince.mpr
    ((citesOnly_iff_eachSince.mp cites).add (Content.citesOnly_iff.mp isAllowed))

theorem setContent {content : Content} (cites : document.CitesOnly allowed) (id : NodeId)
    (isAllowed : ∀ reference, content.reference? = some reference → allowed reference) :
    (document.setContent id content).CitesOnly allowed :=
  citesOnly_iff_eachSince.mpr
    ((citesOnly_iff_eachSince.mp cites).setContent id (Content.citesOnly_iff.mp isAllowed))

/-- What a document cites is allowed where more is. -/
theorem mono {wider : Reference → Prop} (cites : document.CitesOnly allowed)
    (widens : ∀ reference, allowed reference → wider reference) : document.CitesOnly wider :=
  fun id reference isReference => widens reference (cites id reference isReference)

end CitesOnly

end Document

/-! ## Attributes -/

namespace Element

variable {element : Element} {key value : String}

/-- The value of an attribute after an attribute was set. -/
theorem attribute?_setAttribute (element : Element) (key value other : String) :
    (element.setAttribute key value).attribute? other =
      if other = key then some value else element.attribute? other := by
  simp only [attribute?, setAttribute]
  induction element.attributes with
  | nil =>
      by_cases same : other = key
      · simp [replaceOrAdd, same]
      · simp [replaceOrAdd, same, Ne.symm same]
  | cons first rest inductionHypothesis =>
      rw [replaceOrAdd]
      split
      case isTrue isKey =>
          by_cases same : other = key
          · simp [same]
          · have differs : first.key ≠ other := fun isOther => same (isOther ▸ isKey)
            simp [same, Ne.symm same, differs]
      case isFalse notKey =>
          rw [List.find?_cons, List.find?_cons]
          by_cases isOther : first.key = other
          · have differs : other ≠ key := fun same => notKey (isOther.trans same)
            simp [isOther, differs]
          · simp only [beq_eq_false_iff_ne.mpr isOther]
            exact inductionHypothesis

/-- Setting an attribute that names no relationship changes no reference. -/
theorem reference?_setAttribute (notHyperlink : key ≠ Word.Name.relationshipId)
    (notImage : key ≠ Word.Name.embeddedId) :
    (element.setAttribute key value).reference? = element.reference? := by
  rw [reference?, reference?, attribute?_setAttribute, attribute?_setAttribute,
    if_neg notHyperlink.symm, if_neg notImage.symm]
  rfl

end Element

/-! ## Steps of edits -/

namespace Edit

open Document

variable {allowed : Reference → Prop}

theorem lasts_create {content : Content}
    (isAllowed : ∀ reference, content.reference? = some reference → allowed reference) :
    Lasts (CitesOnly allowed) (create content) :=
  fun _ cites => .ok (cites.add isAllowed)

/-- A new element has no attributes and so makes no reference. -/
theorem lasts_createElement (name : String) : Lasts (CitesOnly allowed) (createElement name) := by
  apply lasts_create
  simp [Content.reference?, Content.element?, Element.reference?, Element.attribute?]

theorem lasts_createText (characters : String) : Lasts (CitesOnly allowed) (createText characters) := by
  apply lasts_create
  simp [Content.reference?, Content.element?]

theorem lasts_setText (id : NodeId) (characters : String) :
    Lasts (CitesOnly allowed) (setText id characters) := by
  apply Lasts.of_get.bind
  intro document
  split
  · exact Lasts.of_modify fun _ cites =>
      citesOnly_iff_eachSince.mpr ((citesOnly_iff_eachSince.mp cites).setText id characters)
  · exact Lasts.of_throw _

/-- Setting an attribute brings in no more than the reference that the attribute makes. -/
theorem lasts_setAttribute_of {id : NodeId} {key value : String}
    (isAllowed : ∀ (element : Element) reference,
      (element.setAttribute key value).reference? = some reference →
      element.reference? = some reference ∨ allowed reference) :
    Lasts (CitesOnly allowed) (setAttribute id key value) := by
  apply Lasts.of_modify
  intro document cites
  rw [Document.setAttribute]
  split
  next element isElement =>
    apply cites.setContent
    intro reference isReference
    rcases isAllowed element reference isReference with old | isAllowed
    · apply cites id reference
      rw [Content.reference?]
      change document.element? id >>= Element.reference? = some reference
      simpa [isElement] using old
    · exact isAllowed
  · exact cites

theorem lasts_setAttribute {id : NodeId} {key value : String}
    (notHyperlink : key ≠ Word.Name.relationshipId) (notImage : key ≠ Word.Name.embeddedId) :
    Lasts (CitesOnly allowed) (setAttribute id key value) := by
  apply lasts_setAttribute_of
  intro element reference isReference
  exact .inl (Element.reference?_setAttribute notHyperlink notImage ▸ isReference)

/-- Naming a relationship in a hyperlink refers to that relationship. -/
theorem lasts_setRelationshipId {id : NodeId} {value : String} (isAllowed : allowed ⟨.hyperlink, value⟩) :
    Lasts (CitesOnly allowed) (setAttribute id Word.Name.relationshipId value) := by
  apply lasts_setAttribute_of
  intro element reference isReference
  have apart : Word.Name.embeddedId ≠ Word.Name.relationshipId := by decide
  rw [Element.reference?, Element.attribute?_setAttribute, Element.attribute?_setAttribute,
    if_pos rfl, if_neg apart] at isReference
  change (if element.name = _ then _ else _) = _ at isReference
  rw [Element.reference?]
  by_cases isHyperlink : element.name = Word.Name.hyperlink
  · right
    rw [if_pos isHyperlink, Option.map_some, Option.some.injEq] at isReference
    exact isReference ▸ isAllowed
  · left
    rw [if_neg isHyperlink] at isReference ⊢
    exact isReference

theorem lasts_detach (id : NodeId) : Lasts (CitesOnly allowed) (detach id) :=
  Lasts.of_modify fun _ cites => cites.detach id

theorem lasts_detachAll (ids : List NodeId) : Lasts (CitesOnly allowed) (ids.forM detach) :=
  Lasts.of_forM lasts_detach

theorem lasts_parentOf (id : NodeId) : Lasts (CitesOnly allowed) (parentOf id) := by
  apply Lasts.of_get.bind
  intro document
  split
  · exact Lasts.of_pure _
  · exact Lasts.of_throw _

theorem lasts_indexOf (id : NodeId) : Lasts (CitesOnly allowed) (indexOf id) := by
  apply Lasts.of_get.bind
  intro document
  split
  · exact Lasts.of_pure _
  · exact Lasts.of_throw _

theorem lasts_checkCycle (parent node : NodeId) : Lasts (CitesOnly allowed) (checkCycle parent node) := by
  apply Lasts.of_get.bind
  intro document
  split
  · exact Lasts.of_throw _
  · exact Lasts.of_pure _

theorem lasts_appendChild (parent child : NodeId) :
    Lasts (CitesOnly allowed) (appendChild parent child) := by
  apply (lasts_checkCycle parent child).bind
  intro _
  exact Lasts.of_modify fun _ cites => (cites.detach child).place _ _ _

theorem lasts_insertChild (parent : NodeId) (index : Nat) (child : NodeId) :
    Lasts (CitesOnly allowed) (insertChild parent index child) := by
  apply (lasts_checkCycle parent child).bind
  intro _
  exact Lasts.of_modify fun _ cites => (cites.detach child).place _ _ _

theorem lasts_insertBeside (offset : Nat) (node reference : NodeId) :
    Lasts (CitesOnly allowed) (insertBeside offset node reference) := by
  apply (lasts_parentOf reference).bind
  intro parent
  apply (lasts_checkCycle parent node).bind
  intro _
  apply (lasts_detach node).bind
  intro _
  apply (lasts_indexOf reference).bind
  intro index
  exact lasts_insertChild parent _ node

theorem lasts_insertBefore (node reference : NodeId) :
    Lasts (CitesOnly allowed) (insertBefore node reference) := lasts_insertBeside 0 node reference

theorem lasts_insertAfter (node reference : NodeId) :
    Lasts (CitesOnly allowed) (insertAfter node reference) := lasts_insertBeside 1 node reference

theorem lasts_siblingRange (first last : NodeId) :
    Lasts (CitesOnly allowed) (siblingRange first last) := by
  apply Lasts.of_get.bind
  intro document
  split
  · exact Lasts.of_pure _
  · exact Lasts.of_throw _

theorem lasts_removeBetween (first last : NodeId) :
    Lasts (CitesOnly allowed) (removeBetween first last) := by
  apply (lasts_siblingRange first last).bind
  intro range
  apply (lasts_detachAll _).bind
  intro _
  exact Lasts.of_pure _

end Edit

/-! ## Copies -/

namespace Document

variable {allowed : Reference → Prop} {document : Document}

/-- Copies make the references of what was copied. -/
theorem citesOnly_copyEach {copy : NodeId → Document → Document × SubtreeCopy}
    (each : ∀ id document, CitesOnly allowed document → (copy id document).1.CitesOnly allowed)
    (parent : NodeId) (ids : List NodeId) (cites : document.CitesOnly allowed) :
    (copyEach copy parent ids document).1.CitesOnly allowed := by
  induction ids generalizing document with
  | nil => exact cites
  | cons child rest inductionHypothesis =>
      apply inductionHypothesis
      exact (each child document cites).place _ _ _

theorem citesOnly_copyWithin (levels : Nat) (id : NodeId) (document : Document)
    (cites : document.CitesOnly allowed) : (copyWithin levels id document).1.CitesOnly allowed := by
  induction levels generalizing id document with
  | zero => exact cites.add (cites id)
  | succ levels inductionHypothesis =>
      apply citesOnly_copyEach inductionHypothesis
      exact cites.add (cites id)

end Document

namespace Edit

open Document

variable {allowed : Reference → Prop}

theorem lasts_copyNode (id : NodeId) : Lasts (CitesOnly allowed) (copyNode id) :=
  fun _ cites => .ok (cites.add (cites id))

theorem lasts_copySubtree (id : NodeId) : Lasts (CitesOnly allowed) (copySubtree id) :=
  fun document cites => .ok (citesOnly_copyWithin document.size id document cites)

end Edit

/-! ## Trees and events -/

mutual

/-- A tree makes a reference somewhere. -/
def Tree.Cites (reference : Reference) : Tree → Prop
  | .text _ => False
  | .markup _ => False
  | .element held children =>
      held.reference? = some reference ∨ Tree.SomeCites reference children

/-- One of several trees makes a reference. -/
def Tree.SomeCites (reference : Reference) : List Tree → Prop
  | [] => False
  | first :: rest => first.Cites reference ∨ Tree.SomeCites reference rest

end

namespace Tree

variable {reference : Reference} {name : String} {attributes : List (String × String)}
  {children : List Tree}

theorem someCites_iff (trees : List Tree) :
    SomeCites reference trees ↔ ∃ tree ∈ trees, tree.Cites reference := by
  induction trees with
  | nil => simp [SomeCites]
  | cons first rest inductionHypothesis => simp [SomeCites, inductionHypothesis]

/-- The references of an element are its own and those of its children. -/
theorem cites_node :
    (Tree.node name attributes children).Cites reference ↔
      Element.reference? { name, attributes := attributes.map fun (key, value) => ⟨key, value⟩ } =
          some reference ∨
        ∃ child ∈ children, child.Cites reference := by
  rw [Tree.node, Cites, someCites_iff]

/-- An element that is neither a hyperlink nor an image makes no reference of its own. -/
theorem cites_node_iff (notHyperlink : name ≠ Word.Name.hyperlink) (notImage : name ≠ Word.Name.blip) :
    (Tree.node name attributes children).Cites reference ↔
      ∃ child ∈ children, child.Cites reference := by
  simp [cites_node, Element.reference?, notHyperlink, notImage]

theorem not_cites_leaf (notHyperlink : name ≠ Word.Name.hyperlink) (notImage : name ≠ Word.Name.blip) :
    ¬(Tree.node name attributes []).Cites reference := by
  simp [cites_node_iff notHyperlink notImage]

theorem not_cites_text (characters : String) : ¬(Tree.text characters).Cites reference := by
  simp [Cites]

mutual

/-- The references of a tree are those of its elements. -/
theorem eachElement_citesOnly_iff {allowed : Reference → Prop} (tree : Tree) :
    tree.EachElement (Element.CitesOnly allowed) ↔
      ∀ reference, tree.Cites reference → allowed reference := by
  match tree with
  | .text _ => simp [EachElement, Cites]
  | .markup _ => simp [EachElement, Cites]
  | .element held children =>
      simp only [EachElement, Cites, Element.CitesOnly, or_imp, forall_and,
        allEachElement_citesOnly_iff children]

theorem allEachElement_citesOnly_iff {allowed : Reference → Prop} (trees : List Tree) :
    AllEachElement (Element.CitesOnly allowed) trees ↔
      ∀ reference, SomeCites reference trees → allowed reference := by
  match trees with
  | [] => simp [AllEachElement, SomeCites]
  | first :: rest =>
      simp only [AllEachElement, SomeCites, or_imp, forall_and, eachElement_citesOnly_iff first,
        allEachElement_citesOnly_iff rest]

end

end Tree

/-- The reference of the element that an event begins. -/
def Markup.Event.reference? : Event → Option Reference
  | .opening name attributes | .empty name attributes =>
      Element.reference? { name, attributes }
  | _ => none

/-- The references of an event are those of the element that it begins. -/
theorem Markup.Event.reference?_eq (event : Event) :
    event.reference? = event.element?.bind Element.reference? := by
  cases event <;> rfl

/-- The references that a text spells as markup, up to its first fault. -/
def Markup.references (source : String) : List Reference :=
  (Reading.of source).events.filterMap Event.reference?

namespace Document

variable {allowed : Reference → Prop} {document : Document}

theorem CitesOnly.addEvents {events : List Markup.Event} (cites : document.CitesOnly allowed)
    (isAllowed : ∀ reference ∈ events.filterMap Markup.Event.reference?, allowed reference)
    (container : NodeId) : (document.addEvents container events).CitesOnly allowed := by
  refine citesOnly_iff_eachSince.mpr ((citesOnly_iff_eachSince.mp cites).addEvents ?_ container)
  intro event isEvent element begun reference made
  refine isAllowed reference (List.mem_filterMap.mpr ⟨event, isEvent, ?_⟩)
  rw [Markup.Event.reference?_eq, begun, Option.bind_some, made]

/-- A document that was read makes the references that its source spells. -/
theorem citesOnly_read {source : String} {document : Document} (done : read source = .ok document) :
    document.CitesOnly (· ∈ Markup.references source) := by
  have start : (withRoot containerName).CitesOnly (· ∈ Markup.references source) := by
    intro id reference isReference
    -- There is one node, and it has no attributes.
    rcases id with ⟨_ | index⟩
    · simp [Document.content, node, withRoot, Content.reference?, Content.element?, Element.reference?,
        Element.attribute?] at isReference
    · simp [Document.content, node, withRoot, Content.reference?, Content.element?] at isReference
  have added := start.addEvents (fun _ isReference => isReference) (withRoot containerName).root
  rw [read] at done
  dsimp only at done
  split at done
  · cases done
  · split at done
    · cases done
    next root _ =>
      cases done
      exact added.detach root

end Document

namespace Edit

open Document

variable {allowed : Reference → Prop}

/-- Planting a tree brings in the references of the tree. -/
theorem lasts_plant {tree : Tree} (isAllowed : ∀ reference, tree.Cites reference → allowed reference) :
    Lasts (CitesOnly allowed) (plant tree) := by
  intro document cites
  have each := (Tree.eachElement_citesOnly_iff tree).mpr isAllowed
  exact .ok (citesOnly_iff_eachSince.mpr ((citesOnly_iff_eachSince.mp cites).plant each))

/-- Reading markup brings in the references that it spells. -/
theorem lasts_readFragment {source : String}
    (isAllowed : ∀ reference ∈ Markup.references source, allowed reference) :
    Lasts (CitesOnly allowed) (readFragment source) := by
  apply (lasts_createElement _).bind
  intro container
  have added : Lasts (CitesOnly allowed) (modify (·.addEvents container (Markup.Reading.of source).events)
      : Edit Unit) :=
    Lasts.of_modify fun _ cites => CitesOnly.addEvents cites isAllowed container
  apply added.bind
  intro _
  split
  · exact Lasts.of_throw _
  · apply Lasts.of_get.bind
    intro document
    apply (lasts_detachAll _).bind
    intro _
    exact Lasts.of_pure _

end Edit

end WordTemplate
