import WordTemplate.Proofs.Document.TextChanges
import WordTemplate.Proofs.Word.Properties

/-!
# Splitting and joining text nodes keeps the text

Seen from a root above them, splitting puts a new text node behind an old one, and joining takes
text nodes out behind the one that receives their characters. Both need a root that a text node can
be split below: text stands alone in its text element, and the properties of runs, which go away
with a run that is left empty, hold no text.
-/

namespace WordTemplate

namespace Document

/-- The text nodes that are passed over: those in the properties of runs, which go away with a run
that is left empty, and those in properties of any kind. -/
structure Aside where
  lossy : NodeId → Prop
  hidden : NodeId → Prop

/-- A text node that is not passed over. That hidden text nodes are free where all are hidden is for
those who do not care where text is hidden. -/
structure Aside.Free (aside : Aside) (id : NodeId) : Prop where
  notLossy : ¬aside.lossy id
  passes : aside.hidden id → ∀ other, aside.hidden other

variable {document before after : Document} {id top sub root parent child node text : NodeId}
  {left right : List NodeId} {aside : Aside}

/-! ## Neat subtrees -/

/-- A subtree whose text nodes can be split and joined one by one. -/
structure Neat (document : Document) (aside : Aside) (top : NodeId) : Prop where
  plain : document.PlainBelow top
  /-- A text node in a text element is the only one below it. -/
  single : ∀ element text, document.LiesIn top element →
    document.isNamed element Word.Name.text = true → text ∈ document.children element →
      document.isText text = true → document.texts element = [text]
  lossy : ∀ run properties text, document.LiesIn top run →
    document.isNamed run Word.Name.run = true → properties ∈ document.children run →
      document.isNamed properties Word.Name.runProperties = true →
        text ∈ document.texts properties → aside.lossy text
  hidden : ∀ properties text, document.LiesIn top properties →
    document.isProperties properties = true → text ∈ document.texts properties → aside.hidden text

theorem liesIn_of_children_eq (wellFormed : before.WellFormed) (wellFormed' : after.WellFormed)
    (same : ∀ id, before.LiesIn top id → after.children id = before.children id)
    (inside : after.LiesIn top id) : before.LiesIn top id := by
  induction inside using Relation.ReflTransGen.head_induction_on with
  | refl => exact LiesIn.refl
  | @head id parent isParent above inductionHypothesis =>
      refine LiesIn.of_parent ?_ inductionHypothesis
      rw [← wellFormed.mem_children_iff, ← same parent inductionHypothesis,
        wellFormed'.mem_children_iff]
      exact isParent

theorem isProperties_congr
    (isNamed_eq : ∀ name, after.isNamed id name = before.isNamed id name) :
    after.isProperties id = before.isProperties id := by
  have name_eq : after.name? id = before.name? id := by
    refine Option.ext fun name => ?_
    simpa [isNamed] using isNamed_eq name
  rw [isProperties, isProperties, name_eq]

theorem isProperties_eq_false_of_isText (isText : document.isText id = true) :
    document.isProperties id = false := by
  rcases isName : document.name? id with _ | name
  · simp [isProperties, isName]
  · have named : document.isNamed id name = true := by simp [isNamed, isName]
    rw [isText_eq_false_of_isNamed named] at isText
    cases isText

/-- Whether a subtree is neat depends on its child lists, its texts and its names. -/
theorem Neat.congr (wellFormed : before.WellFormed) (wellFormed' : after.WellFormed)
    (same : ∀ id, before.LiesIn top id → after.children id = before.children id ∧
      after.isText id = before.isText id ∧
      ∀ name, after.isNamed id name = before.isNamed id name)
    (neat : before.Neat aside top) : after.Neat aside top := by
  have inside : ∀ {id}, after.LiesIn top id → before.LiesIn top id := fun lies =>
    liesIn_of_children_eq wellFormed wellFormed' (fun id below => (same id below).1) lies
  have texts_eq : ∀ {id}, before.LiesIn top id → after.texts id = before.texts id :=
    fun lies => texts_congr wellFormed wellFormed' fun other below =>
      ⟨(same other (below.trans lies)).1, (same other (below.trans lies)).2.1⟩
  have childInside : ∀ {parent child}, before.LiesIn top parent → child ∈ before.children parent →
      before.LiesIn top child := fun lies isChild =>
    LiesIn.of_parent ((wellFormed.mem_children_iff _ _).mp isChild) lies
  refine ⟨fun text lies isText => ?_, fun element text lies named isChild isText => ?_,
    fun run properties text lies runNamed isChild named isMember => ?_,
    fun properties text lies isProperties isMember => ?_⟩
  · have lies := inside lies
    rw [(same text lies).2.1] at isText
    rw [texts_eq lies]
    exact neat.plain text lies isText
  · have lies := inside lies
    rw [(same element lies).2.2] at named
    rw [(same element lies).1] at isChild
    rw [(same text (childInside lies isChild)).2.1] at isText
    rw [texts_eq lies]
    exact neat.single element text lies named isChild isText
  · have lies := inside lies
    rw [(same run lies).2.2] at runNamed
    rw [(same run lies).1] at isChild
    have childLies := childInside lies isChild
    rw [(same properties childLies).2.2] at named
    rw [texts_eq childLies] at isMember
    exact neat.lossy run properties text lies runNamed isChild named isMember
  · have lies := inside lies
    rw [isProperties_congr (same properties lies).2.2] at isProperties
    rw [texts_eq lies] at isMember
    exact neat.hidden properties text lies isProperties isMember

theorem isNamed_detach (wellFormed : document.WellFormed) (node id : NodeId) (name : String) :
    (document.detach node).isNamed id name = document.isNamed id name := by
  exact isNamed_of_content_eq (content_detach wellFormed _ _) _

theorem eq_singleton_of_sublist {ids : List NodeId} (fewer : ids.Sublist [text])
    (isMember : text ∈ ids) : ids = [text] := by
  rcases List.sublist_singleton.mp fewer with rfl | same
  · cases isMember
  · exact same

/-- Detaching a node leaves a neat subtree neat. -/
theorem Neat.detach (wellFormed : document.WellFormed) (neat : document.Neat aside top)
    (node : NodeId) : (document.detach node).Neat aside top := by
  have wellFormed' := wellFormed.detach node
  have inside : ∀ {id}, (document.detach node).LiesIn top id → document.LiesIn top id :=
    fun lies => liesIn_of_liesIn_detach wellFormed lies
  have isChild_before : ∀ {parent child}, child ∈ (document.detach node).children parent →
      child ∈ document.children parent := by
    intro parent child isChild
    rw [children_detach wellFormed] at isChild
    exact List.mem_of_mem_filter isChild
  refine ⟨fun text lies isText => ?_, fun element text lies named isChild isText => ?_,
    fun run properties text lies runNamed isChild named isMember => ?_,
    fun properties text lies isProperties isMember => ?_⟩
  · have isMember := (mem_texts_iff wellFormed').mpr ⟨LiesIn.refl, isText⟩
    rw [isText_detach wellFormed] at isText
    have fewer := sublist_texts_detach wellFormed node text
    rw [neat.plain text (inside lies) isText] at fewer
    exact eq_singleton_of_sublist fewer isMember
  · have isParent := (wellFormed'.mem_children_iff _ _).mp isChild
    have isMember := (mem_texts_iff wellFormed').mpr ⟨LiesIn.parent isParent, isText⟩
    rw [isText_detach wellFormed] at isText
    rw [isNamed_detach wellFormed] at named
    have fewer := sublist_texts_detach wellFormed node element
    rw [neat.single element text (inside lies) named (isChild_before isChild) isText] at fewer
    exact eq_singleton_of_sublist fewer isMember
  · rw [isNamed_detach wellFormed] at runNamed named
    exact neat.lossy run properties text (inside lies) runNamed (isChild_before isChild) named
      ((sublist_texts_detach wellFormed node properties).subset isMember)
  · rw [isProperties_congr (isNamed_detach wellFormed node properties)] at isProperties
    exact neat.hidden properties text (inside lies) isProperties
      ((sublist_texts_detach wellFormed node properties).subset isMember)

/-- A neat subtree stays neat when a neat node is placed beside the unit of one of its text
nodes. -/
theorem Neat.place (neat : before.Neat aside top) (neatNode : before.Neat aside node)
    (moves : Moves before after node parent left right) (wellFormed : before.WellFormed)
    (detached : before.parent node = none) (isMember : text ∈ before.texts top)
    (around : before.LiesIn parent text) (differ : text ≠ parent)
    (notElement : before.isNamed parent Word.Name.text = true →
      text ∉ before.children parent ∧ before.isText node = false)
    (notProperties : before.isNamed node Word.Name.runProperties = false)
    (free : aside.Free text) : after.Neat aside top := by
  have textIsText := ((mem_texts_iff wellFormed).mp isMember).2
  have exists_whole : ∀ {id}, after.LiesIn top id →
      ∃ whole, before.Neat aside whole ∧ before.LiesIn whole id := by
    intro id inside
    rcases moves.liesIn_cases inside with lies | ⟨lies, -⟩
    · exact ⟨top, neat, lies⟩
    · exact ⟨node, neatNode, lies⟩
  have unmoved : ∀ {id}, ¬before.LiesIn id parent → after.texts id = before.texts id :=
    fun apart => moves.texts_outside wellFormed detached apart
  have isBelow : ∀ {id}, before.LiesIn id parent → text ∈ before.texts id := fun above =>
    (mem_texts_iff wellFormed).mpr ⟨around.trans above, textIsText⟩
  -- Only the text of what is above the new place changes, and that holds the old text node.
  refine ⟨fun other inside isText => ?_, fun element other inside named isChild isText => ?_,
    fun run properties other inside runNamed isChild named isMember => ?_,
    fun properties other inside isProperties isMember => ?_⟩
  · rw [moves.isText_eq] at isText
    rcases exists_whole inside with ⟨whole, neatWhole, lies⟩
    have single := neatWhole.plain other lies isText
    rw [unmoved, single]
    intro above
    obtain rfl := List.mem_singleton.mp (single ▸ isBelow above)
    exact differ (around.antisymm wellFormed above)
  · rw [moves.isText_eq] at isText
    rw [moves.isNamed_eq] at named
    rcases moves.child_cases wellFormed isChild with ⟨rfl, rfl⟩ | isChild
    · rw [(notElement named).2] at isText
      cases isText
    rcases exists_whole inside with ⟨whole, neatWhole, lies⟩
    have single := neatWhole.single element other lies named isChild isText
    rw [unmoved, single]
    intro above
    obtain rfl := List.mem_singleton.mp (single ▸ isBelow above)
    rcases around.cases_above ((wellFormed.mem_children_iff _ _).mp isChild) with same | above'
    · exact differ same
    · obtain rfl := above.antisymm wellFormed above'
      exact (notElement named).1 isChild
  · rw [moves.isNamed_eq] at runNamed named
    rcases moves.child_cases wellFormed isChild with ⟨rfl, rfl⟩ | isChild
    · rw [notProperties] at named
      cases named
    rcases exists_whole inside with ⟨whole, neatWhole, lies⟩
    have lossy := neatWhole.lossy run properties
    rw [unmoved fun above =>
      free.notLossy (lossy text lies runNamed isChild named (isBelow above))] at isMember
    exact lossy other lies runNamed isChild named isMember
  · rw [isProperties_congr (moves.isNamed_eq properties)] at isProperties
    rcases exists_whole inside with ⟨whole, neatWhole, lies⟩
    by_cases above : before.LiesIn properties parent
    · exact free.passes (neatWhole.hidden properties text lies isProperties (isBelow above)) other
    · exact neatWhole.hidden properties other lies isProperties (unmoved above ▸ isMember)

/-! ## Changes that keep the shape -/

/-- `after` has the tree of `before` with the same names and the same nodes as text. -/
structure SameShape (before after : Document) : Prop where
  wellFormed : after.WellFormed
  size_eq : after.size = before.size
  root_eq : after.root = before.root
  parent_eq : ∀ id, after.parent id = before.parent id
  children_eq : ∀ id, after.children id = before.children id
  isText_eq : ∀ id, after.isText id = before.isText id
  isNamed_eq : ∀ id name, after.isNamed id name = before.isNamed id name

theorem SameShape.refl (wellFormed : document.WellFormed) : SameShape document document :=
  ⟨wellFormed, rfl, rfl, fun _ => rfl, fun _ => rfl, fun _ => rfl, fun _ _ => rfl⟩

theorem SameShape.trans {middle : Document} (first : SameShape before middle)
    (second : SameShape middle after) : SameShape before after where
  wellFormed := second.wellFormed
  size_eq := second.size_eq.trans first.size_eq
  root_eq := second.root_eq.trans first.root_eq
  parent_eq id := (second.parent_eq id).trans (first.parent_eq id)
  children_eq id := (second.children_eq id).trans (first.children_eq id)
  isText_eq id := (second.isText_eq id).trans (first.isText_eq id)
  isNamed_eq id name := (second.isNamed_eq id name).trans (first.isNamed_eq id name)

theorem SameShape.name?_eq (same : SameShape before after) (id : NodeId) :
    after.name? id = before.name? id := by
  refine Option.ext fun name => ?_
  have isNamed_eq := same.isNamed_eq id name
  rwa [isNamed, isNamed, Bool.eq_iff_iff, beq_iff_eq, beq_iff_eq] at isNamed_eq

theorem SameShape.texts_eq (same : SameShape before after) (wellFormed : before.WellFormed)
    (top : NodeId) : after.texts top = before.texts top :=
  texts_congr wellFormed same.wellFormed fun id _ => ⟨same.children_eq id, same.isText_eq id⟩

theorem SameShape.neat (same : SameShape before after) (wellFormed : before.WellFormed)
    (neat : before.Neat aside top) : after.Neat aside top :=
  neat.congr wellFormed same.wellFormed fun id _ =>
    ⟨same.children_eq id, same.isText_eq id, same.isNamed_eq id⟩

theorem sameShape_setText (wellFormed : document.WellFormed) (isText : document.isText id = true)
    (inStore : id.index < document.size) (characters : String) :
    SameShape document (document.setContent id (.text characters)) := by
  have content_eq := content_setContent document inStore (.text characters)
  refine ⟨wellFormed.setContent id _, size_setContent _ _ _, rfl, parent_setContent _ _ _,
    children_setContent _ _ _, fun other => ?_, fun other name => ?_⟩
  · rw [Document.isText, text?, content_eq]
    split
    · next isId => rw [isId, isText]; rfl
    · rfl
  · rw [isNamed, name?, element?, content_eq]
    split
    · next isId =>
        subst isId
        have notNamed : document.isNamed other name = false := by
          by_contra named
          rw [isText_eq_false_of_isNamed (Bool.not_eq_false _ ▸ named)] at isText
          cases isText
        rw [notNamed]
        rfl
    · rfl

theorem textOf_setText (inStore : id.index < document.size) (characters : String) (other : NodeId) :
    (document.setContent id (.text characters)).textOf other =
      if other = id then characters else document.textOf other := by
  rw [textOf, text?, content_setContent document inStore]
  split
  · rfl
  · rfl

theorem sameShape_setAttribute (wellFormed : document.WellFormed) (id : NodeId)
    (key value : String) : SameShape document (document.setAttribute id key value) ∧
      ∀ other, (document.setAttribute id key value).textOf other = document.textOf other := by
  rw [setAttribute]
  split
  · next held isElement =>
      have isName : document.name? id = some held.name := by rw [name?, isElement, Option.map_some]
      have inStore := lt_size_of_name? isName
      have isContent : document.content id = .element held := by
        rw [element?] at isElement
        cases isContent : document.content id <;> rw [isContent] at isElement <;> cases isElement
        rfl
      have content_eq := content_setContent document inStore (.element (held.setAttribute key value))
      refine ⟨⟨wellFormed.setContent id _, size_setContent _ _ _, rfl, parent_setContent _ _ _,
        children_setContent _ _ _, fun other => ?_, fun other name => ?_⟩, fun other => ?_⟩
      · rw [Document.isText, Document.isText, text?, text?, content_eq]
        split
        · next isId => rw [isId, isContent]; rfl
        · rfl
      · rw [isNamed, isNamed, name?, name?, element?, element?, content_eq]
        split
        · next isId => rw [isId, isContent]; rfl
        · rfl
      · rw [textOf, textOf, text?, text?, content_eq]
        split
        · next isId => rw [isId, isContent]; rfl
        · rfl
  · exact ⟨.refl wellFormed, fun _ => rfl⟩

theorem lt_size_of_element {held : Element} (isElement : document.content id = .element held) :
    id.index < document.size := by
  have isName : document.name? id = some held.name := by
    rw [name?, element?, isElement]
    rfl
  exact lt_size_of_name? isName

theorem content_setAttribute {held : Element} (isElement : document.content id = .element held)
    (key value : String) :
    (document.setAttribute id key value).content id = .element (held.setAttribute key value) := by
  have inStore := lt_size_of_element isElement
  have isElement' : document.element? id = some held := by
    rw [element?, isElement, Content.element?]
  rw [Document.setAttribute, isElement']
  exact (content_setContent document inStore _ id).trans (if_pos rfl)

theorem content_setAttribute_of_ne (differ : other ≠ id) (key value : String) :
    (document.setAttribute id key value).content other = document.content other := by
  rw [setAttribute]
  split
  · next held isElement =>
      have isName : document.name? id = some held.name := by rw [name?, isElement, Option.map_some]
      have inStore := lt_size_of_name? isName
      rw [content_setContent document inStore, if_neg differ]
  · rfl

/-- The text element of a text node keeps its blanks, if there is one. -/
def keepingSpace (document : Document) (id : NodeId) : Document :=
  match document.textElement? id with
  | some element => document.setAttribute element Word.Name.space "preserve"
  | none => document

theorem sameShape_keepingSpace (wellFormed : document.WellFormed) (id : NodeId) :
    SameShape document (document.keepingSpace id) ∧
      ∀ other, (document.keepingSpace id).textOf other = document.textOf other := by
  rw [keepingSpace]
  split
  · exact sameShape_setAttribute wellFormed _ _ _
  · exact ⟨.refl wellFormed, fun _ => rfl⟩

theorem content_keepingSpace (differ : document.textElement? id ≠ some other) :
    (document.keepingSpace id).content other = document.content other := by
  rw [keepingSpace]
  split
  · next element isElement =>
      refine content_setAttribute_of_ne (fun same => differ ?_) _ _
      rw [isElement, same]
  · rfl

/-! ## Documents whose text can be split -/

/-- The text below the root can be split and joined one node at a time. -/
structure Splittable (document : Document) (aside : Aside) (root : NodeId) : Prop extends
    Neat document aside root where
  wellFormed : document.WellFormed
  fresh : ∀ id, document.size ≤ id.index → aside.Free id
  inStore : root.index < document.size
  notText : document.isText root = false
  notTextElement : document.isNamed root Word.Name.text = false

theorem SameShape.splittable (same : SameShape before after) (splittable : before.Splittable aside root) :
    after.Splittable aside root where
  toNeat := same.neat splittable.wellFormed splittable.toNeat
  wellFormed := same.wellFormed
  fresh := by
    rw [same.size_eq]
    exact splittable.fresh
  inStore := by
    rw [same.size_eq]
    exact splittable.inStore
  notText := by
    rw [same.isText_eq]
    exact splittable.notText
  notTextElement := by
    rw [same.isNamed_eq]
    exact splittable.notTextElement

theorem Splittable.detach (splittable : document.Splittable aside root) (node : NodeId) :
    (document.detach node).Splittable aside root where
  toNeat := splittable.toNeat.detach splittable.wellFormed node
  wellFormed := splittable.wellFormed.detach node
  fresh := by
    rw [size_detach]
    exact splittable.fresh
  inStore := by
    rw [size_detach]
    exact splittable.inStore
  notText := by
    rw [isText_detach splittable.wellFormed]
    exact splittable.notText
  notTextElement := by
    rw [isNamed_detach splittable.wellFormed]
    exact splittable.notTextElement

/-- Adding a node elsewhere. -/
theorem Splittable.add (splittable : document.Splittable aside root) (content : Content) :
    (document.add content).Splittable aside root := by
  have old : ∀ {id}, document.LiesIn root id → id ≠ document.nextId := by
    rintro id inside rfl
    exact Nat.lt_irrefl _ (lt_size_below inside splittable.inStore)
  have content_eq : ∀ {id}, document.LiesIn root id →
      (document.add content).content id = document.content id := by
    intro id inside
    rw [content_add, if_neg (old inside)]
  have same : ∀ id, document.LiesIn root id →
      (document.add content).children id = document.children id ∧
        (document.add content).isText id = document.isText id ∧
        ∀ name, (document.add content).isNamed id name = document.isNamed id name := by
    intro id inside
    refine ⟨children_add _ _ _, ?_, fun name => ?_⟩
    · rw [isText, isText, text?, text?, content_eq inside]
    · rw [isNamed, isNamed, name?, name?, element?, element?, content_eq inside]
  refine ⟨splittable.toNeat.congr splittable.wellFormed (splittable.wellFormed.add content) same,
    splittable.wellFormed.add content, fun id beyond => splittable.fresh id ?_, ?_, ?_, ?_⟩
  · rw [size_add] at beyond
    exact Nat.le_of_succ_le beyond
  · rw [size_add]
    exact Nat.lt_succ_of_lt splittable.inStore
  · rw [(same root LiesIn.refl).2.1]
    exact splittable.notText
  · rw [(same root LiesIn.refl).2.2]
    exact splittable.notTextElement

/-- The root is no text node. -/
theorem Splittable.parent_inside (splittable : document.Splittable aside root)
    (isMember : id ∈ document.texts root) (isParent : document.parent id = some parent) :
    document.LiesIn root parent := by
  rcases (mem_texts_iff splittable.wellFormed).mp isMember with ⟨inside, isText⟩
  rcases inside.cases_above isParent with rfl | above
  · rw [splittable.notText] at isText
    cases isText
  · exact above

/-- The root is no text element. -/
theorem Splittable.exists_outer {element : NodeId} (splittable : document.Splittable aside root)
    (inside : document.LiesIn root element)
    (named : document.isNamed element Word.Name.text = true) :
    ∃ outer, document.parent element = some outer ∧ document.LiesIn root outer := by
  rcases inside.cases_parent with rfl | above
  · rw [splittable.notTextElement] at named
    cases named
  · exact above

/-! ## Units of text -/

theorem texts_of_childless (wellFormed : document.WellFormed) (isText : document.isText text = true)
    (childless : document.children text = []) : document.texts text = [text] := by
  rw [texts_eq wellFormed, if_pos isText, childless]
  rfl

theorem eq_of_liesIn_childless (wellFormed : document.WellFormed)
    (childless : document.children top = []) (inside : document.LiesIn top id) : id = top := by
  rcases inside.cases_child with same | ⟨child, isParent, -⟩
  · exact same
  · rw [← wellFormed.mem_children_iff, childless] at isParent
    cases isParent

theorem neat_of_childless (wellFormed : document.WellFormed) (isText : document.isText text = true)
    (childless : document.children text = []) : document.Neat aside text := by
  have only : ∀ {id}, document.LiesIn text id → id = text :=
    fun inside => eq_of_liesIn_childless wellFormed childless inside
  refine ⟨fun id inside _ => ?_, fun element _ inside _ isChild _ => ?_,
    fun run _ _ inside _ isChild _ _ => ?_, fun properties _ inside isProperties _ => ?_⟩
  · rw [only inside]
    exact texts_of_childless wellFormed isText childless
  · rw [only inside, childless] at isChild
    cases isChild
  · rw [only inside, childless] at isChild
    cases isChild
  · rw [only inside, isProperties_eq_false_of_isText isText] at isProperties
    cases isProperties

/-- A text element with a text node and nothing else. -/
theorem neat_of_textElement {element : NodeId} (wellFormed : document.WellFormed)
    (named : document.isNamed element Word.Name.text = true)
    (children : document.children element = [text]) (isText : document.isText text = true)
    (childless : document.children text = []) :
    document.Neat aside element ∧ document.texts element = [text] := by
  have single : document.texts element = [text] := by
    rw [texts_eq wellFormed, isText_eq_false_of_isNamed named, children]
    simp [texts_of_childless wellFormed isText childless]
  have cases_inside : ∀ {id}, document.LiesIn element id → id = element ∨ id = text := by
    intro id inside
    rcases inside.cases_child with same | ⟨child, isParent, below⟩
    · exact Or.inl same
    · rw [← wellFormed.mem_children_iff, children, List.mem_singleton] at isParent
      subst isParent
      exact Or.inr (eq_of_liesIn_childless wellFormed childless below)
  refine ⟨⟨fun id inside isText' => ?_, fun id other inside _ isChild _ => ?_,
    fun run _ _ inside runNamed isChild _ _ => ?_, fun properties _ inside isProperties _ => ?_⟩,
    single⟩
  · rcases cases_inside inside with rfl | rfl
    · rw [isText_eq_false_of_isNamed named] at isText'
      cases isText'
    · exact texts_of_childless wellFormed isText childless
  · rcases cases_inside inside with rfl | rfl
    · rw [children, List.mem_singleton] at isChild
      rw [isChild, single]
    · rw [childless] at isChild
      cases isChild
  · rcases cases_inside inside with rfl | rfl
    · have runName : document.name? run = some Word.Name.run := by simpa [isNamed] using runNamed
      have name : document.name? run = some Word.Name.text := by simpa [isNamed] using named
      rw [runName] at name
      exact absurd name (by decide)
    · rw [childless] at isChild
      cases isChild
  · rcases cases_inside inside with rfl | rfl
    · rw [isProperties_of_isNamed named] at isProperties
      exact absurd isProperties (by decide)
    · rw [isProperties_eq_false_of_isText isText] at isProperties
      cases isProperties

/-! ## Inserting a unit -/

/-- Moving nodes about elsewhere. -/
theorem Splittable.place_outside (splittable : before.Splittable aside root)
    (moves : Moves before after node parent left right) (detached : before.parent node = none)
    (outside : ¬before.LiesIn root parent) : after.Splittable aside root := by
  have wellFormed := splittable.wellFormed
  have same : ∀ id, before.LiesIn root id → after.children id = before.children id ∧
      after.isText id = before.isText id ∧ ∀ name, after.isNamed id name = before.isNamed id name := by
    intro id inside
    refine ⟨moves.children_of_ne wellFormed detached ?_, moves.isText_eq id, moves.isNamed_eq id⟩
    rintro rfl
    exact outside inside
  refine ⟨splittable.toNeat.congr wellFormed moves.wellFormed same, moves.wellFormed, ?_, ?_, ?_, ?_⟩
  · rw [moves.size_eq]
    exact splittable.fresh
  · rw [moves.size_eq]
    exact splittable.inStore
  · rw [moves.isText_eq]
    exact splittable.notText
  · rw [moves.isNamed_eq]
    exact splittable.notTextElement

/-- A new unit with one text node is placed behind the unit of another text node. -/
theorem exists_insertAfter_unit {unit reference tail : NodeId}
    (splittable : document.Splittable aside root) (whole : document.texts root = left ++ id :: right)
    (isParent : document.parent reference = some parent) (inside : document.LiesIn root parent)
    (isReference : document.texts reference = [id]) (isUnit : document.texts unit = [tail])
    (free : aside.Free id) (neatUnit : document.Neat aside unit) (unitInStore : unit.index < document.size)
    (detached : document.parent unit = none) (isNew : tail ≠ id)
    (notElement : document.isNamed parent Word.Name.text = true →
      id ∉ document.children parent ∧ document.isText unit = false)
    (notProperties : document.isNamed unit Word.Name.runProperties = false) :
    ∃ after, Edit.insertAfter unit reference document = .ok ⟨⟩ after ∧ after.Splittable aside root ∧
      after.root = document.root ∧ after.size = document.size ∧
      after.texts root = left ++ id :: tail :: right ∧
      ∀ other, after.content other = document.content other := by
  have wellFormed := splittable.wellFormed
  have isMember : id ∈ document.texts root := by
    rw [whole]
    exact List.mem_append_right _ List.mem_cons_self
  have isBelow : id ∈ document.texts reference := by
    rw [isReference]
    exact List.mem_singleton_self _
  rcases (mem_texts_iff wellFormed).mp isBelow with ⟨below, isText⟩
  have around : document.LiesIn parent id := below.trans (LiesIn.parent isParent)
  have outside : ¬document.LiesIn unit parent := by
    intro above
    have isTail := (mem_texts_iff wellFormed).mpr ⟨around.trans above, isText⟩
    rw [isUnit, List.mem_singleton] at isTail
    exact isNew isTail.symm
  have unit_ne : unit ≠ reference := by
    rintro rfl
    rw [isParent] at detached
    cases detached
  have differ : id ≠ parent := by
    rintro rfl
    exact not_liesIn_of_parent wellFormed isParent below
  have done : Edit.insertAfter unit reference document = .ok ⟨⟩ _ :=
    (Edit.insertBeside_eq_ok wellFormed).mpr ⟨parent, isParent, unit_ne, outside, rfl⟩
  rcases Edit.moves_of_insertAfter wellFormed unitInStore done with
    ⟨parent', before, behind, isParent', -, moves⟩
  rw [isParent, Option.some.injEq] at isParent'
  subst isParent'
  refine ⟨_, done, ?_, moves.root_eq, moves.size_eq, ?_, moves.content_eq⟩
  · refine ⟨splittable.toNeat.place neatUnit moves wellFormed detached isMember around differ
      notElement notProperties free, moves.wellFormed, ?_, ?_, ?_, ?_⟩
    · rw [moves.size_eq]
      exact splittable.fresh
    · rw [moves.size_eq]
      exact splittable.inStore
    · rw [moves.isText_eq]
      exact splittable.notText
    · rw [isNamed, name?, element?, moves.content_eq]
      exact splittable.notTextElement
  · rcases moves.texts_around wellFormed detached inside with ⟨outer, beyond, old, new⟩
    simp only [List.flatMap_append, List.flatMap_cons, isReference, isUnit, List.append_assoc,
      List.singleton_append] at old new
    have nodup := nodup_texts wellFormed root
    rw [whole] at nodup old
    rw [← List.append_assoc] at old new
    rcases append_cons_inj nodup old with ⟨rfl, rfl⟩
    exact new

/-! ## A text node that is cut -/

/-- The text node `id` keeps `head`, and a new text node that is not placed yet carries `rest`. -/
def snip (document : Document) (id : NodeId) (head rest : List Char) : Document :=
  (document.setContent id (.text (String.ofList head))).add (.text (String.ofList rest))

section Snip

variable {other : NodeId} {head rest : List Char}

@[simp]
theorem size_snip : (document.snip id head rest).size = document.size + 1 := by
  rw [snip, size_add, size_setContent]

@[simp]
theorem root_snip : (document.snip id head rest).root = document.root := rfl

@[simp]
theorem parent_snip : (document.snip id head rest).parent other = document.parent other := by
  rw [snip, parent_add, parent_setContent]

@[simp]
theorem children_snip : (document.snip id head rest).children other = document.children other := by
  rw [snip, children_add, children_setContent]

theorem WellFormed.snip (wellFormed : document.WellFormed) :
    (document.snip id head rest).WellFormed :=
  (wellFormed.setContent id _).add _

theorem nextId_setContent (content : Content) :
    (document.setContent id content).nextId = document.nextId := by
  rw [nextId, nextId, size_setContent]

theorem content_snip (isOld : other.index < document.size) :
    (document.snip id head rest).content other =
      (document.setContent id (.text (String.ofList head))).content other := by
  rw [snip, content_add, nextId_setContent, if_neg (nextId_ne isOld).symm]

theorem content_snip_nextId :
    (document.snip id head rest).content document.nextId = .text (String.ofList rest) := by
  rw [snip, content_add, nextId_setContent, if_pos rfl]

theorem isText_snip_nextId : (document.snip id head rest).isText document.nextId = true := by
  rw [isText, text?, content_snip_nextId]
  rfl

theorem textOf_snip_nextId :
    (document.snip id head rest).textOf document.nextId = String.ofList rest := by
  rw [textOf, text?, content_snip_nextId]
  rfl

theorem textOf_snip (inStore : id.index < document.size) (isOld : other.index < document.size) :
    (document.snip id head rest).textOf other =
      if other = id then String.ofList head else document.textOf other := by
  rw [← textOf_setText inStore, textOf, textOf, text?, text?, content_snip isOld]

variable (wellFormed : document.WellFormed) (isText : document.isText id = true)
  (inStore : id.index < document.size)
include wellFormed isText inStore

theorem isText_snip (isOld : other.index < document.size) :
    (document.snip id head rest).isText other = document.isText other := by
  rw [Document.isText, text?, content_snip isOld, ← text?, ← Document.isText,
    (sameShape_setText wellFormed isText inStore _).isText_eq]

theorem isNamed_snip (isOld : other.index < document.size) (name : String) :
    (document.snip id head rest).isNamed other name = document.isNamed other name := by
  rw [isNamed_of_content_eq (content_snip isOld),
    (sameShape_setText wellFormed isText inStore _).isNamed_eq]

theorem texts_snip (isOld : top.index < document.size) :
    (document.snip id head rest).texts top = document.texts top := by
  have same := sameShape_setText wellFormed isText inStore (String.ofList head)
  rw [snip, texts_add same.wellFormed _ (same.size_eq ▸ isOld), same.texts_eq wellFormed]

theorem textElement?_snip : (document.snip id head rest).textElement? other =
    document.textElement? other := by
  rw [textElement?, textElement?, parent_snip]
  rcases isParent : document.parent other with _ | parent
  · rfl
  · rw [Option.filter_some, Option.filter_some,
      isNamed_snip wellFormed isText inStore (parent_lt_size wellFormed isParent)]

end Snip

theorem Splittable.snip (splittable : document.Splittable aside root)
    (isText : document.isText id = true) (inStore : id.index < document.size)
    (head rest : List Char) : (document.snip id head rest).Splittable aside root :=
  ((sameShape_setText splittable.wellFormed isText inStore _).splittable splittable).add _

/-! ## A copy that is filled -/

/-- `after` is `before` with a copy of the node `source`, which is not placed yet and holds nothing but
the node `tail`. -/
structure FillsCopy (before after : Document) (source tail : NodeId) : Prop where
  formed : before.WellFormed
  detached : before.parent tail = none
  inStore : tail.index < before.size
  moves : Moves (before.add (before.content source)) after tail before.nextId [] []

namespace FillsCopy

variable {source tail other : NodeId}

theorem of_done {result : Unit} (formed : before.WellFormed) (detached : before.parent tail = none)
    (inStore : tail.index < before.size)
    (done : Edit.appendChild before.nextId tail (before.add (before.content source)) =
      .ok result after) : FillsCopy before after source tail where
  formed := formed
  detached := detached
  inStore := inStore
  moves := by
    have tail_lt : tail.index < (before.add (before.content source)).size := by
      rw [size_add]
      exact Nat.lt_succ_of_lt inStore
    have moves := Edit.moves_of_appendChild (formed.add _) (nextId_lt_size_add before _) tail_lt done
    rwa [children_add, children_nextId, List.filter_nil] at moves

theorem exists_done (formed : before.WellFormed) (detached : before.parent tail = none)
    (inStore : tail.index < before.size) (source : NodeId) :
    ∃ after, Edit.appendChild before.nextId tail (before.add (before.content source)) =
      .ok ⟨⟩ after ∧ FillsCopy before after source tail := by
  have outside : ¬(before.add (before.content source)).LiesIn tail before.nextId := fun inside =>
    nextId_ne inStore (inside.eq_of_parent_none (by rw [parent_add, parent_nextId]))
  have done : Edit.appendChild before.nextId tail (before.add (before.content source)) = .ok ⟨⟩ _ :=
    (Edit.appendChild_eq_ok (formed.add _)).mpr ⟨outside, rfl⟩
  exact ⟨_, done, of_done formed detached inStore done⟩

variable (fills : FillsCopy before after source tail)
include fills

theorem wellFormed : after.WellFormed := fills.moves.wellFormed

theorem size_eq : after.size = before.size + 1 := by
  rw [fills.moves.size_eq, size_add]

theorem root_eq : after.root = before.root := fills.moves.root_eq

theorem nextId_lt : before.nextId.index < after.size := by
  rw [fills.size_eq]
  exact Nat.lt_succ_self _

theorem tail_ne : before.nextId ≠ tail := nextId_ne fills.inStore

theorem detached_copied : (before.add (before.content source)).parent tail = none := by
  rw [parent_add, fills.detached]

theorem parent_eq (differ : other ≠ tail) : after.parent other = before.parent other := by
  rw [fills.moves.parent_eq, if_neg differ, parent_add]

theorem parent_tail : after.parent tail = some before.nextId := by
  rw [fills.moves.parent_eq, if_pos rfl]

theorem parent_copy : after.parent before.nextId = none := by
  rw [fills.parent_eq fills.tail_ne, parent_nextId]

theorem children_eq (isOld : other.index < before.size) :
    after.children other = before.children other := by
  rw [fills.moves.children_of_ne (fills.formed.add _) fills.detached_copied (nextId_ne isOld).symm,
    children_add]

theorem children_copy : after.children before.nextId = [tail] := by
  rw [fills.moves.children_eq, if_pos rfl, List.nil_append]

theorem content_eq (isOld : other.index < before.size) : after.content other = before.content other := by
  rw [fills.moves.content_eq, content_add, if_neg (nextId_ne isOld).symm]

theorem content_copy : after.content before.nextId = before.content source := by
  rw [fills.moves.content_eq, content_add, if_pos rfl]

theorem isText_eq (isOld : other.index < before.size) : after.isText other = before.isText other := by
  rw [isText, isText, text?, text?, fills.content_eq isOld]

theorem textOf_eq (isOld : other.index < before.size) : after.textOf other = before.textOf other := by
  rw [textOf, textOf, text?, text?, fills.content_eq isOld]

theorem isNamed_eq (isOld : other.index < before.size) (name : String) :
    after.isNamed other name = before.isNamed other name :=
  isNamed_of_content_eq (fills.content_eq isOld) name

theorem isNamed_copy (name : String) :
    after.isNamed before.nextId name = before.isNamed source name :=
  isNamed_of_content_eq fills.content_copy name

omit fills in
/-- What is old stays outside the copy. -/
theorem outside (isOld : top.index < before.size) :
    ¬(before.add (before.content source)).LiesIn top before.nextId := fun inside =>
  nextId_ne isOld (inside.eq_of_parent_none (by rw [parent_add, parent_nextId]))

theorem texts_eq (isOld : top.index < before.size) : after.texts top = before.texts top := by
  rw [fills.moves.texts_outside (fills.formed.add _) fills.detached_copied (outside isOld),
    texts_add fills.formed _ isOld]

theorem splittable (splittable : before.Splittable aside root) : after.Splittable aside root :=
  (splittable.add _).place_outside fills.moves fills.detached_copied (outside splittable.inStore)

end FillsCopy

end Document

namespace Edit

open Document Outcome

variable {document : Document} {id root : NodeId} {left right : List NodeId} {aside : Aside}

theorem textAt_eq_ok {characters : String} {document' : Document} :
    textAt id document = .ok characters document' ↔
      document.text? id = some characters ∧ document = document' := by
  simp only [textAt, get_bind]
  rcases document.text? id with _ | found
  · simp
  · simp

theorem keepSpace_eq_ok {result : Unit} {document' : Document} :
    keepSpace id document = .ok result document' ↔
      document' = document.setAttribute id Word.Name.space "preserve" := setAttribute_eq_ok

/-- What splitting a text node comes down to. -/
theorem splitText_eq_ok {offset : Nat} {tail : NodeId} {after : Document} :
    splitText id offset document = .ok tail after ↔ ∃ head rest,
      Text.splitAtByte? offset (document.textOf id).toList = some (head, rest) ∧
      document.isText id = true ∧ tail = document.nextId ∧
      ((document.snip id head rest).textElement? id = none ∧
          insertAfter tail id (document.snip id head rest) = .ok ⟨⟩ after ∨
        ∃ element copy copied filled placed,
          (document.snip id head rest).textElement? id = some element ∧
          copyNode element (document.snip id head rest) = .ok copy copied ∧
          appendChild copy tail copied = .ok ⟨⟩ filled ∧
          insertAfter copy element filled = .ok ⟨⟩ placed ∧
          after = (placed.setAttribute element Word.Name.space "preserve").setAttribute copy
            Word.Name.space "preserve") := by
  simp only [splitText, bind_eq_ok, textAt_eq_ok]
  constructor
  · rintro ⟨characters, _, ⟨isCharacters, rfl⟩, done⟩
    rcases cut : Text.splitAtByte? offset characters.toList with _ | ⟨head, rest⟩
    · simp [cut] at done
    simp only [cut, bind_eq_ok, get_bind] at done
    rcases done with ⟨⟨⟩, shortened, setDone, created, extended, createDone, done⟩
    rcases setText_eq_ok.mp setDone with ⟨isText, rfl⟩
    rcases createText_eq_ok.mp createDone with ⟨rfl, rfl⟩
    have isCut : Text.splitAtByte? offset (document.textOf id).toList = some (head, rest) := by
      rw [textOf, isCharacters, Option.getD_some, cut]
    rw [nextId_setContent, ← snip] at done
    refine ⟨head, rest, isCut, isText, ?_⟩
    rcases isElement : (document.snip id head rest).textElement? id with _ | element
    · simp only [isElement, bind_eq_ok, pure_eq_ok] at done
      rcases done with ⟨⟨⟩, _, placeDone, rfl, rfl⟩
      exact ⟨rfl, Or.inl ⟨rfl, placeDone⟩⟩
    · simp only [isElement, bind_eq_ok, pure_eq_ok, keepSpace_eq_ok] at done
      rcases done with ⟨copy, copied, copyDone, ⟨⟩, filled, fillDone, ⟨⟩, placed, placeDone, ⟨⟩, _,
        rfl, ⟨⟩, _, rfl, rfl, rfl⟩
      exact ⟨rfl, Or.inr ⟨element, copy, copied, filled, placed, rfl, copyDone, fillDone,
        placeDone, rfl⟩⟩
  · rintro ⟨head, rest, cut, isText, rfl, placed⟩
    rcases Option.isSome_iff_exists.mp isText with ⟨characters, isCharacters⟩
    rw [textOf, isCharacters, Option.getD_some] at cut
    refine ⟨characters, document, ⟨isCharacters, rfl⟩, ?_⟩
    simp only [cut, bind_eq_ok, get_bind]
    refine ⟨⟨⟩, _, setText_eq_ok.mpr ⟨isText, rfl⟩, document.nextId, document.snip id head rest,
      createText_eq_ok.mpr ⟨(nextId_setContent _).symm, rfl⟩, ?_⟩
    rcases placed with ⟨isElement, placeDone⟩ | ⟨element, copy, copied, filled, placed, isElement,
      copyDone, fillDone, placeDone, rfl⟩
    · simp only [isElement, bind_eq_ok, pure_eq_ok]
      exact ⟨⟨⟩, after, placeDone, trivial, rfl⟩
    · simp only [isElement, bind_eq_ok, pure_eq_ok, keepSpace_eq_ok]
      exact ⟨copy, copied, copyDone, ⟨⟩, filled, fillDone, ⟨⟩, placed, placeDone, ⟨⟩, _, rfl, ⟨⟩, _,
        rfl, trivial, rfl⟩

/-- What joining a stretch of text nodes comes down to. -/
theorem joinText_eq_ok {start stop : NodeId} {result : Unit} {after : Document} :
    joinText start stop document = .ok result after ↔ start = stop ∧ document = after ∨
      start ≠ stop ∧ ∃ absorbed extended pruned,
        document.textRange? (document.size + 1) start stop = some absorbed ∧
        setText start (document.textOf start ++ String.join (absorbed.map document.textOf))
          document = .ok ⟨⟩ extended ∧
        absorbed.forM (removeAbsorbed start) extended = .ok ⟨⟩ pruned ∧
        after = pruned.keepingSpace start := by
  by_cases isSame : start = stop
  · simp [joinText, isSame]
  have ending : ∀ pruned : Document,
      (match pruned.textElement? start with
        | some element => keepSpace element
        | none => pure () : Edit Unit) pruned = .ok result after ↔
      after = pruned.keepingSpace start := by
    intro pruned
    rw [keepingSpace]
    rcases pruned.textElement? start with _ | element
    · exact pure_eq_ok.trans ((and_iff_right rfl).trans eq_comm)
    · exact keepSpace_eq_ok
  simp only [joinText, isSame, if_false, bind_eq_ok, get_bind, textAt_eq_ok, false_and, false_or,
    ne_eq, not_false_eq_true, true_and]
  constructor
  · rintro ⟨characters, _, ⟨isText, rfl⟩, done⟩
    rcases found : document.textRange? (document.size + 1) start stop with _ | absorbed
    · simp [found] at done
    simp only [found, bind_eq_ok, get_bind] at done
    rcases done with ⟨⟨⟩, extended, setDone, ⟨⟩, pruned, pruneDone, endDone⟩
    refine ⟨absorbed, extended, pruned, rfl, ?_, pruneDone, (ending pruned).mp endDone⟩
    rwa [textOf, isText, Option.getD_some]
  · rintro ⟨absorbed, extended, pruned, found, setDone, pruneDone, isAfter⟩
    rcases Option.isSome_iff_exists.mp (setText_eq_ok.mp setDone).1 with ⟨characters, isText⟩
    rw [textOf, isText, Option.getD_some] at setDone
    refine ⟨characters, document, ⟨isText, rfl⟩, ?_⟩
    simp only [found, bind_eq_ok, get_bind]
    exact ⟨⟨⟩, extended, setDone, ⟨⟩, pruned, pruneDone, (ending pruned).mpr isAfter⟩

/-- The filled copy of a text element is placed behind it. -/
theorem exists_secondHalf {element tail : NodeId} {filled : Document}
    (splittable : document.Splittable aside root) (whole : document.texts root = left ++ id :: right)
    (isElement : document.textElement? id = some element) (isText : document.isText tail = true)
    (childless : document.children tail = []) (free : aside.Free id)
    (fills : FillsCopy document filled element tail) :
    ∃ placed, insertAfter document.nextId element filled = .ok ⟨⟩ placed ∧
      placed.Splittable aside root ∧ placed.root = document.root ∧
      placed.texts root = left ++ id :: tail :: right ∧
      ∀ other, other.index < document.size → placed.textOf other = document.textOf other := by
  rcases Option.filter_eq_some_iff.mp isElement with ⟨isParent, named⟩
  have id_ne : id ≠ tail := by
    rintro rfl
    rw [fills.detached] at isParent
    cases isParent
  have wellFormed := fills.wellFormed
  have splittable' := fills.splittable splittable
  have whole' : filled.texts root = left ++ id :: right := by
    rw [fills.texts_eq splittable.inStore, whole]
  have isParent' : filled.parent id = some element := by rw [fills.parent_eq id_ne, isParent]
  have named' : filled.isNamed element Word.Name.text = true := by
    rw [fills.isNamed_eq (parent_lt_size splittable.wellFormed isParent), named]
  have isMember : id ∈ filled.texts root := by
    rw [whole']
    exact List.mem_append_right _ List.mem_cons_self
  have inside := splittable'.parent_inside isMember isParent'
  rcases splittable'.exists_outer inside named' with ⟨outer, isOuter, outerInside⟩
  have isReference : filled.texts element = [id] :=
    splittable'.single element id inside named' ((wellFormed.mem_children_iff _ _).mpr isParent')
      ((mem_texts_iff wellFormed).mp isMember).2
  have copyNamed : filled.isNamed document.nextId Word.Name.text = true := by
    rw [fills.isNamed_copy, named]
  have tailIsText : filled.isText tail = true := by rw [fills.isText_eq fills.inStore, isText]
  have tailChildless : filled.children tail = [] := by
    rw [fills.children_eq fills.inStore, childless]
  have isNeat : filled.Neat aside document.nextId ∧ filled.texts document.nextId = [tail] :=
    neat_of_textElement wellFormed copyNamed fills.children_copy tailIsText tailChildless
  rcases isNeat with ⟨neatCopy, isCopy⟩
  have notElement : filled.isNamed outer Word.Name.text = true →
      id ∉ filled.children outer ∧ filled.isText document.nextId = false := by
    refine fun _ => ⟨?_, isText_eq_false_of_isNamed copyNamed⟩
    rw [wellFormed.mem_children_iff, isParent', Option.some.injEq]
    exact ne_of_parent wellFormed isOuter
  rcases exists_insertAfter_unit splittable' whole' isOuter outerInside isReference isCopy free
      neatCopy fills.nextId_lt fills.parent_copy id_ne.symm notElement
      (isNamed_eq_false copyNamed (by decide)) with
    ⟨placed, placeDone, placedSplittable, root_eq, -, texts, content_eq⟩
  refine ⟨placed, placeDone, placedSplittable, root_eq.trans fills.root_eq, texts,
    fun other isOld => ?_⟩
  rw [← fills.textOf_eq isOld, textOf, textOf, text?, text?, content_eq]

/-- A new text node is placed right behind a text node that is in no text element. -/
theorem exists_insertAfter_text {tail : NodeId} (splittable : document.Splittable aside root)
    (whole : document.texts root = left ++ id :: right) (noElement : document.textElement? id = none)
    (isText : document.isText tail = true) (detached : document.parent tail = none)
    (childless : document.children tail = []) (inStore : tail.index < document.size)
    (free : aside.Free id) :
    ∃ after, insertAfter tail id document = .ok ⟨⟩ after ∧ after.Splittable aside root ∧
      after.root = document.root ∧ after.texts root = left ++ id :: tail :: right ∧
      ∀ other, after.textOf other = document.textOf other := by
  have wellFormed := splittable.wellFormed
  have isMember : id ∈ document.texts root := by
    rw [whole]
    exact List.mem_append_right _ List.mem_cons_self
  rcases (mem_texts_iff wellFormed).mp isMember with ⟨inside, idIsText⟩
  rcases inside.cases_parent with rfl | ⟨parent, isParent, parentInside⟩
  · rw [splittable.notText] at idIsText
    cases idIsText
  have notElement : document.isNamed parent Word.Name.text = true →
      id ∉ document.children parent ∧ document.isText tail = false := by
    intro named
    rw [textElement?, isParent, Option.filter_some, if_pos named] at noElement
    cases noElement
  have notProperties : document.isNamed tail Word.Name.runProperties = false := by
    by_contra named
    rw [isText_eq_false_of_isNamed (Bool.not_eq_false _ ▸ named)] at isText
    cases isText
  have differ : tail ≠ id := by
    rintro rfl
    rw [isParent] at detached
    cases detached
  rcases exists_insertAfter_unit splittable whole isParent parentInside
      (splittable.plain id inside idIsText) (texts_of_childless wellFormed isText childless) free
      (neat_of_childless wellFormed isText childless) inStore detached differ notElement
      notProperties with
    ⟨after, placeDone, afterSplittable, root_eq, -, texts, content_eq⟩
  refine ⟨after, placeDone, afterSplittable, root_eq, texts, fun other => ?_⟩
  rw [textOf, textOf, text?, text?, content_eq]

/-- A text node is split into itself and a new one right behind it. -/
theorem exists_splitText {offset : Nat} {first second : List Char}
    (splittable : document.Splittable aside root) (whole : document.texts root = left ++ id :: right)
    (free : aside.Free id)
    (cut : Text.splitAtByte? offset (document.textOf id).toList = some (first, second)) :
    ∃ tail after, splitText id offset document = .ok tail after ∧ aside.Free tail ∧
      after.Splittable aside root ∧
      after.root = document.root ∧ after.texts root = left ++ id :: tail :: right ∧
      after.textOf id = String.ofList first ∧ after.textOf tail = String.ofList second ∧
      ∀ other ∈ left ++ right, after.textOf other = document.textOf other := by
  have wellFormed := splittable.wellFormed
  have isMember : id ∈ document.texts root := by
    rw [whole]
    exact List.mem_append_right _ List.mem_cons_self
  rcases (mem_texts_iff wellFormed).mp isMember with ⟨inside, isText⟩
  have inStore := lt_size_below inside splittable.inStore
  have tailFree : aside.Free document.nextId := splittable.fresh _ (Nat.le_refl _)
  have siblings : ∀ other ∈ left ++ right, other.index < document.size ∧ other ≠ id := by
    intro other isOther
    have nodup := nodup_texts wellFormed root
    rw [whole, List.nodup_middle, List.nodup_cons] at nodup
    refine ⟨lt_size_of_mem_texts wellFormed splittable.inStore ?_, fun same => nodup.1 (same ▸ isOther)⟩
    rw [whole, List.mem_append, List.mem_cons]
    exact (List.mem_append.mp isOther).imp_right Or.inr
  let extended := document.snip id first second
  have toExtended : extended.Splittable aside root := splittable.snip isText inStore first second
  have whole' : extended.texts root = left ++ id :: right := by
    rw [texts_snip wellFormed isText inStore splittable.inStore, whole]
  have tailIsText : extended.isText document.nextId = true := isText_snip_nextId
  have tailDetached : extended.parent document.nextId = none := by
    rw [parent_snip, parent_nextId]
  have tailChildless : extended.children document.nextId = [] := by
    rw [children_snip, children_nextId]
  have known : ∀ {other : NodeId}, other.index < document.size → other.index < extended.size := by
    intro other isOld
    rw [size_snip]
    exact Nat.lt_succ_of_lt isOld
  have tail_lt : document.nextId.index < extended.size := by
    rw [size_snip]
    exact Nat.lt_succ_self _
  -- What the texts are is settled once the new text node is created.
  suffices placed : ∃ after, splitText id offset document = .ok document.nextId after ∧
      after.Splittable aside root ∧ after.root = document.root ∧
      after.texts root = left ++ id :: document.nextId :: right ∧
      ∀ other, other.index < extended.size → after.textOf other = extended.textOf other by
    rcases placed with ⟨after, done, afterSplittable, root_eq, texts, textOf_eq⟩
    refine ⟨_, after, done, tailFree, afterSplittable, root_eq, texts, ?_, ?_, fun other isOther => ?_⟩
    · rw [textOf_eq id (known inStore), textOf_snip inStore inStore, if_pos rfl]
    · rw [textOf_eq _ tail_lt, textOf_snip_nextId]
    · rcases siblings other isOther with ⟨isOld, differ⟩
      rw [textOf_eq other (known isOld), textOf_snip inStore isOld, if_neg differ]
  rcases isElement : extended.textElement? id with _ | element
  · rcases exists_insertAfter_text toExtended whole' isElement tailIsText tailDetached tailChildless
      tail_lt free with ⟨after, placeDone, afterSplittable, root_eq, texts, textOf_eq⟩
    exact ⟨after, splitText_eq_ok.mpr ⟨first, second, cut, isText, rfl, Or.inl ⟨isElement, placeDone⟩⟩,
      afterSplittable, root_eq, texts, fun other _ => textOf_eq other⟩
  · rcases FillsCopy.exists_done toExtended.wellFormed tailDetached tail_lt element with
      ⟨filled, fillDone, fills⟩
    rcases exists_secondHalf toExtended whole' isElement tailIsText tailChildless free fills with
      ⟨placed, placeDone, placedSplittable, root_eq, texts, textOf_placed⟩
    rcases sameShape_setAttribute placedSplittable.wellFormed element Word.Name.space "preserve" with
      ⟨toSpaced, textOf_spaced⟩
    rcases sameShape_setAttribute toSpaced.wellFormed extended.nextId Word.Name.space "preserve" with
      ⟨toAfter, textOf_after⟩
    have toAll := toSpaced.trans toAfter
    refine ⟨_, splitText_eq_ok.mpr ⟨first, second, cut, isText, rfl, Or.inr ⟨element, extended.nextId,
      _, filled, placed, isElement, copyNode_eq_ok.mpr ⟨rfl, rfl⟩, fillDone, placeDone, rfl⟩⟩,
      toAll.splittable placedSplittable, toAll.root_eq.trans root_eq, ?_, fun other isOld => ?_⟩
    · rw [toAll.texts_eq placedSplittable.wellFormed, texts]
    · rw [textOf_after, textOf_spaced, textOf_placed _ isOld]

end Edit

end WordTemplate
