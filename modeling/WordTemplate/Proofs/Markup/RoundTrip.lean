import WordTemplate.Markup.Build
import WordTemplate.Proofs.Document.Intact
import WordTemplate.Proofs.Document.Planting
import WordTemplate.Proofs.Markup.Pieces
import WordTemplate.Proofs.Markup.Tags

/-!
# Reading undoes writing

What is written for a tree is read as the same tree again, except that the reader cannot see where
one text ends and the next one begins. `Tree.merged` is the tree that is left: neighbouring texts
are one, and empty ones are gone.

The proof follows the trees. For each of them it gives the events that its written form is read as,
and shows that these events plant the merged tree below the element that is open.
-/

namespace WordTemplate

open Markup

/-! ## Merged trees -/

/-- A tree in front of others, its text joined to the text that follows. -/
def Tree.joinedTo : Tree → List Tree → List Tree
  | .text characters, .text more :: rest => .text (characters ++ more) :: rest
  | .text characters, rest => if characters = "" then rest else .text characters :: rest
  | tree, rest => tree :: rest

mutual

/-- The tree with neighbouring texts merged and empty texts dropped. -/
def Tree.merged : Tree → Tree
  | .text characters => .text characters
  | .markup raw => .markup raw
  | .element held children => .element held (mergedAll children)

/-- Neighbouring trees with their texts merged and empty texts dropped. -/
def mergedAll : List Tree → List Tree
  | [] => []
  | first :: rest => first.merged.joinedTo (mergedAll rest)

end

/-- Trees whose elements can be written as tags and whose markup is as the reader keeps it. -/
inductive Tree.Writable : Tree → Prop
  | text (characters : String) : Writable (.text characters)
  | markup {raw : String} (isKept : IsKept raw) : Writable (.markup raw)
  | element {held : Element} {children : List Tree} (writable : IsWritable held)
      (below : ∀ child ∈ children, Writable child) : Writable (.element held children)

theorem joinedTo_joinedTo (characters more : String) (trees : List Tree) :
    (Tree.text characters).joinedTo ((Tree.text more).joinedTo trees) =
      (Tree.text (characters ++ more)).joinedTo trees := by
  rcases trees with _ | ⟨_ | _ | _, rest⟩
  case cons.text => simp [Tree.joinedTo, String.append_assoc]
  all_goals
    by_cases isNone : more = ""
    · simp [Tree.joinedTo, isNone]
    · simp [Tree.joinedTo, isNone]

theorem joinedTo_empty (trees : List Tree) : (Tree.text "").joinedTo trees = trees := by
  rcases trees with _ | ⟨_ | _ | _, rest⟩ <;> simp [Tree.joinedTo]

namespace Document

variable {document : Document} {parent : NodeId}

theorem plantAllBelow_append (trees others : List Tree) (document : Document) :
    plantAllBelow parent (trees ++ others) document =
      plantAllBelow parent others (plantAllBelow parent trees document) := by
  induction trees generalizing document with
  | nil => rfl
  | cons tree trees inductionHypothesis => exact inductionHypothesis _

/-! ## Text nodes -/

theorem ext_of_nodes {other : Document} (size_eq : document.size = other.size)
    (node_eq : ∀ id, document.node id = other.node id) (root_eq : document.root = other.root)
    (prolog_eq : document.prolog = other.prolog) : document = other := by
  rcases document with ⟨nodes, root, prolog⟩
  rcases other with ⟨nodes', root', prolog'⟩
  obtain rfl : root = root' := root_eq
  obtain rfl : prolog = prolog' := prolog_eq
  have same : nodes = nodes' := by
    refine Array.ext size_eq fun index inStore inStore' => ?_
    have entry := node_eq ⟨index⟩
    simpa [node, inStore, inStore'] using entry
  rw [same]

/-- A node that was added with another text. -/
theorem setContent_addChild (inStore : parent.index < document.size) (content content' : Content) :
    (document.addChild parent content).setContent document.nextId content' =
      document.addChild parent content' := by
  have inStore' : document.nextId.index < (document.addChild parent content).size := by
    rw [size_addChild]
    exact Nat.lt_succ_self _
  refine ext_of_nodes ?_ (fun id => ?_) rfl rfl
  · rw [size_setContent, size_addChild, size_addChild]
  · rw [setContent, node_modifyNode _ _ inStore', node_addChild inStore, node_addChild inStore]
    by_cases isNew : id = document.nextId <;> simp [isNew]

theorem lastChild?_addChild (inStore : parent.index < document.size) (content : Content) :
    (document.addChild parent content).lastChild? parent = some document.nextId := by
  have differ : parent ≠ document.nextId := by
    rintro rfl
    exact Nat.lt_irrefl _ inStore
  rw [lastChild?, Document.children, node_addChild inStore, if_neg differ, if_pos rfl]
  simp

theorem addText_addChild (inStore : parent.index < document.size) (existing characters : String) :
    (document.addChild parent (.text existing)).addText parent characters =
      document.addChild parent (.text (existing ++ characters)) := by
  have isText : (document.addChild parent (.text existing)).text? document.nextId =
      some existing := by
    rw [text?, Document.content, node_addChild inStore, if_pos rfl]
    rfl
  unfold addText
  rw [lastChild?_addChild inStore]
  dsimp only
  rw [isText]
  exact setContent_addChild inStore _ _

/-- The last child of a node is no text. -/
def NoTextLast (document : Document) (parent : NodeId) : Prop :=
  ∀ last, document.lastChild? parent = some last → document.text? last = none

theorem addText_of_noTextLast (noText : document.NoTextLast parent) (characters : String) :
    document.addText parent characters = document.addChild parent (.text characters) := by
  unfold addText
  split
  · next last isLast =>
      rw [noText last isLast]
  · rfl

end Document

namespace GrowingDocument

variable {growing : GrowingDocument}

/-- The reader's state with another document. -/
def withDocument (growing : GrowingDocument) (document : Document) : GrowingDocument :=
  { growing with document }

/-- Further character data is added to the text node that was begun. -/
theorem foldl_spells_begun {events : List Event} {chars : List Char} (spells : Spells events chars)
    {document : Document} (inStore : growing.top.index < document.size) (existing : String) :
    events.foldl add (growing.withDocument (document.addChild growing.top (.text existing))) =
      growing.withDocument (document.addChild growing.top
        (.text (existing ++ String.ofList chars))) := by
  induction spells generalizing existing with
  | nil => simp
  | @text events chars stretch _ later inductionHypothesis =>
      have first : add (growing.withDocument (document.addChild growing.top (.text existing)))
          (.text (String.ofList stretch)) = growing.withDocument (document.addChild growing.top
            (.text (existing ++ String.ofList stretch))) := by
        rw [add]
        exact congrArg growing.withDocument (Document.addText_addChild inStore _ _)
      rw [List.foldl_cons, first, inductionHypothesis, String.append_assoc, ← String.ofList_append]
  | @reference events chars name char denotes later inductionHypothesis =>
      have first : add (growing.withDocument (document.addChild growing.top (.text existing)))
          (.reference name) = growing.withDocument (document.addChild growing.top
            (.text (existing ++ char.toString))) := by
        rw [add, denotes]
        exact congrArg growing.withDocument (Document.addText_addChild inStore _ _)
      have spelled : char.toString ++ String.ofList chars = String.ofList (char :: chars) := by
        simp [Char.toString]
      rw [List.foldl_cons, first, inductionHypothesis, String.append_assoc, spelled]

/-- Character data becomes one text node. -/
theorem foldl_spells {events : List Event} {chars : List Char} (spells : Spells events chars)
    (inStore : growing.top.index < growing.document.size)
    (noText : growing.document.NoTextLast growing.top) :
    events.foldl add growing = growing.withDocument (Document.plantAllBelow growing.top
      ((Tree.text (String.ofList chars)).joinedTo []) growing.document) := by
  cases spells with
  | nil => rfl
  | @text events chars stretch nonempty later =>
      have first : add growing (.text (String.ofList stretch)) = growing.withDocument
          (growing.document.addChild growing.top (.text (String.ofList stretch))) := by
        rw [add]
        exact congrArg growing.withDocument (Document.addText_of_noTextLast noText _)
      rw [List.foldl_cons, first, foldl_spells_begun later inStore, ← String.ofList_append]
      simp [Tree.joinedTo, nonempty, Document.plantAllBelow, Document.plantBelow]
  | @reference events chars name char denotes later =>
      have first : add growing (.reference name) = growing.withDocument
          (growing.document.addChild growing.top (.text char.toString)) := by
        rw [add, denotes]
        exact congrArg growing.withDocument (Document.addText_of_noTextLast noText _)
      have spelled : char.toString ++ String.ofList chars = String.ofList (char :: chars) := by
        simp [Char.toString]
      rw [List.foldl_cons, first, foldl_spells_begun later inStore, spelled]
      simp [Tree.joinedTo, Document.plantAllBelow, Document.plantBelow]

/-- The state after an opening tag. -/
def opened (growing : GrowingDocument) (held : Element) : GrowingDocument :=
  add growing (.opening held.name held.attributes)

theorem top_opened_inStore (growing : GrowingDocument) (held : Element) :
    (growing.opened held).top.index < (growing.opened held).document.size := by
  have grown := Document.size_addChild growing.document growing.top (.element held)
  show growing.document.size < (growing.document.addChild growing.top (.element held)).size
  omega

/-- An element has no children yet when its tag has been read. -/
theorem noTextLast_opened (inStore : growing.top.index < growing.document.size)
    (held : Element) : (growing.opened held).document.NoTextLast (growing.opened held).top := by
  have childless : (growing.document.addChild growing.top (.element held)).lastChild?
      growing.document.nextId = none := by
    rw [Document.lastChild?, Document.children, Document.node_addChild inStore, if_pos rfl]
    rfl
  intro last isLast
  exact absurd (childless.symm.trans isLast) (Option.some_ne_none last).symm

end GrowingDocument

/-! ## Written trees -/

/-- Events that stand in front of others when the written form of trees is read. -/
def ReadAs (written rest : List Char) (events : List Event) : Prop :=
  ∀ openNames, readEvents openNames (written ++ rest) =
    (readEvents openNames rest).prepend events

/-- Events that plant trees below the element that is open. -/
def Plants (events : List Event) (trees : List Tree) (growing : GrowingDocument) : Prop :=
  events.foldl GrowingDocument.add growing = growing.withDocument
    (Document.plantAllBelow growing.top trees growing.document)

theorem ReadAs.append {first second rest : List Char} {events more : List Event}
    (firstRead : ReadAs first (second ++ rest) events) (secondRead : ReadAs second rest more) :
    ReadAs (first ++ second) rest (events ++ more) := by
  intro openNames
  rw [List.append_assoc, firstRead, secondRead, Reading.prepend_append]

theorem Plants.append {events more : List Event} {trees others : List Tree}
    {growing : GrowingDocument} (first : Plants events trees growing)
    (second : Plants more others (growing.withDocument
      (Document.plantAllBelow growing.top trees growing.document))) :
    Plants (events ++ more) (trees ++ others) growing := by
  unfold Plants at first second ⊢
  rw [List.foldl_append, first, second, Document.plantAllBelow_append]
  rfl

/-- A tree that is not a text. -/
def Tree.IsBounded : Tree → Prop
  | .text _ => False
  | _ => True

theorem Tree.IsBounded.merged {tree : Tree} (bounded : tree.IsBounded) :
    tree.merged.IsBounded := by
  cases tree with
  | text characters => exact bounded
  | markup raw => simp only [Tree.merged, Tree.IsBounded]
  | element held children => simp only [Tree.merged, Tree.IsBounded]

/-- No text is joined across another tree. -/
theorem joinedTo_of_isBounded {tree : Tree} (bounded : tree.IsBounded) (characters : String)
    (trees : List Tree) : (Tree.text characters).joinedTo (tree.joinedTo trees) =
      (Tree.text characters).joinedTo [] ++ ([tree] ++ trees) := by
  cases tree with
  | text more => exact bounded.elim
  | markup raw =>
      simp only [Tree.joinedTo]
      split <;> rfl
  | element held children =>
      simp only [Tree.joinedTo]
      split <;> rfl

theorem Tree.head?_written {tree : Tree} (bounded : tree.IsBounded) (writable : tree.Writable) :
    tree.written.head? = some '<' := by
  cases writable with
  | text characters => exact bounded.elim
  | @markup raw isKept =>
      have form := isKept.form
      rw [Tree.written]
      cases form <;> simp
  | @element held children writable below =>
      cases children <;> simp [Tree.written, Element.tagStart]

theorem noTextLast_plantBelow {document : Document} {parent : NodeId} {tree : Tree}
    (bounded : tree.IsBounded) (inStore : parent.index < document.size) :
    (Document.plantBelow parent tree document).NoTextLast parent := by
  rcases (Document.planted_plantBelow tree document parent inStore).children_eq with
    ⟨ids, children, id, rest, rfl, bears, isNone⟩
  obtain rfl : rest = [] := isNone
  intro last isLast
  obtain rfl : id = last := by
    rw [Document.lastChild?, children, List.getLast?_concat, Option.some.injEq] at isLast
    exact isLast
  cases tree with
  | text characters => exact bounded.elim
  | markup raw =>
      rw [Document.text?, bears.2.2]
      rfl
  | element held trees =>
      rw [Document.text?, bears.2.2.1]
      rfl

/-- A tree that ends a text that was begun, and what comes behind the tree. -/
theorem plants_bounded {tree : Tree} {trees : List Tree} {rest : List Char}
    (bounded : tree.IsBounded) (writable : tree.Writable) (begun : List Char)
    (here : ∀ rest, ∃ events, ReadAs tree.written rest events ∧ ∀ growing : GrowingDocument,
      growing.top.index < growing.document.size → Plants events [tree.merged] growing)
    (behind : ∃ events, ReadAs (([] : List Char).flatMap escapeTextChar ++ writtenAll trees)
      rest events ∧ ∀ growing : GrowingDocument, growing.top.index < growing.document.size →
        growing.document.NoTextLast growing.top →
          Plants events ((Tree.text (String.ofList [])).joinedTo (mergedAll trees)) growing) :
    ∃ events, ReadAs (begun.flatMap escapeTextChar ++ writtenAll (tree :: trees)) rest events ∧
      ∀ growing : GrowingDocument, growing.top.index < growing.document.size →
        growing.document.NoTextLast growing.top →
          Plants events ((Tree.text (String.ofList begun)).joinedTo (mergedAll (tree :: trees)))
            growing := by
  rcases behind with ⟨later, laterRead, laterPlants⟩
  rcases here (writtenAll trees ++ rest) with ⟨middle, middleRead, middlePlants⟩
  have ends : EndsText (tree.written ++ (writtenAll trees ++ rest)) := by
    intro char isHead
    rw [List.head?_append, Tree.head?_written bounded writable] at isHead
    cases isHead
    rfl
  rcases exists_spells begun ends with ⟨first, spells, firstRead⟩
  rw [List.flatMap_nil, List.nil_append] at laterRead
  refine ⟨first ++ (middle ++ later), ?_, fun growing inStore noText => ?_⟩
  · have spelled : ReadAs (begun.flatMap escapeTextChar)
        ((tree.written ++ writtenAll trees) ++ rest) first := by
      intro openNames
      rw [List.append_assoc]
      exact firstRead openNames
    rw [writtenAll]
    exact spelled.append (middleRead.append laterRead)
  · have joined : (Tree.text (String.ofList begun)).joinedTo (mergedAll (tree :: trees)) =
        (Tree.text (String.ofList begun)).joinedTo [] ++ ([tree.merged] ++ mergedAll trees) :=
      joinedTo_of_isBounded bounded.merged _ _
    rw [joined]
    refine Plants.append (GrowingDocument.foldl_spells spells inStore noText) ?_
    have grown := (Document.planted_plantAllBelow ((Tree.text (String.ofList begun)).joinedTo [])
      growing.document growing.top inStore).size_le
    have inStore' := Nat.lt_of_lt_of_le inStore grown
    refine Plants.append (middlePlants _ inStore') ?_
    have grown' := (Document.planted_plantBelow tree.merged _ growing.top inStore').size_le
    have planted := laterPlants (growing.withDocument (Document.plantBelow growing.top tree.merged _))
      (Nat.lt_of_lt_of_le inStore' grown') (noTextLast_plantBelow bounded.merged inStore')
    rw [String.ofList_nil, joinedTo_empty] at planted
    exact planted

mutual

/-- A tree that is not a text is read as events that plant it merged, whatever follows it. -/
theorem exists_events_tree : ∀ (tree : Tree), tree.IsBounded → tree.Writable → ∀ rest,
    ∃ events, ReadAs tree.written rest events ∧ ∀ growing : GrowingDocument,
      growing.top.index < growing.document.size → Plants events [tree.merged] growing
  | .text _, bounded, _, _ => bounded.elim
  | .markup raw, _, writable, rest => by
      cases writable with
      | markup isKept =>
          refine ⟨[.markup raw], fun openNames => ?_, fun growing _ => rfl⟩
          rw [Tree.written]
          exact readEvents_of_found (nextEvent_kept isKept rest) rfl
  | .element held [], _, writable, rest => by
      cases writable with
      | element writable below =>
          refine ⟨[.empty held.name held.attributes], fun openNames => ?_, fun growing _ => rfl⟩
          rw [Tree.written, List.append_assoc]
          exact readEvents_of_found (nextEvent_tagStart writable rest).2 rfl
  | .element held (first :: more), _, writable, rest => by
      cases writable with
      | element writable below =>
          have ends : EndsText ('<' :: '/' :: (held.name.toList ++ '>' :: rest)) := by
            rintro _ ⟨⟩
            rfl
          rcases exists_events_forest (first :: more) below [] _ ends with ⟨events, read, plants⟩
          refine ⟨.opening held.name held.attributes :: (events ++ [.closing held.name]), ?_, ?_⟩
          · intro openNames
            have closes : openAfter (held.name :: openNames) (.closing held.name) =
                .ok openNames := by simp [openAfter]
            have whole : (Tree.element held (first :: more)).written ++ rest =
                held.tagStart ++ '>' :: (([] : List Char).flatMap escapeTextChar ++
                  writtenAll (first :: more) ++
                    '<' :: '/' :: (held.name.toList ++ '>' :: rest)) := by
              simp [Tree.written, writtenAll]
            rw [whole, readEvents_of_found (nextEvent_tagStart writable _).1 rfl, read,
              readEvents_of_found (nextEvent_closing writable.name rest) closes,
              Reading.prepend_append, Reading.prepend_append]
            rfl
          · intro growing inStore
            have opened := GrowingDocument.noTextLast_opened inStore held
            have inside := plants (growing.opened held)
              (GrowingDocument.top_opened_inStore growing held) opened
            rw [String.ofList_nil, joinedTo_empty] at inside
            unfold Plants at inside ⊢
            rw [List.foldl_cons, List.foldl_append]
            exact congrArg (GrowingDocument.add · (.closing held.name)) inside

/-- Trees behind a text that was begun are read as events that plant them merged. -/
theorem exists_events_forest : ∀ (trees : List Tree), (∀ tree ∈ trees, tree.Writable) →
    ∀ (begun rest : List Char), EndsText rest →
      ∃ events, ReadAs (begun.flatMap escapeTextChar ++ writtenAll trees) rest events ∧
        ∀ growing : GrowingDocument, growing.top.index < growing.document.size →
          growing.document.NoTextLast growing.top →
            Plants events ((Tree.text (String.ofList begun)).joinedTo (mergedAll trees)) growing
  | [], _, begun, rest, ends => by
      rcases exists_spells begun ends with ⟨events, spells, read⟩
      refine ⟨events, fun openNames => ?_, fun growing inStore noText =>
        GrowingDocument.foldl_spells spells inStore noText⟩
      rw [writtenAll, List.append_nil]
      exact read openNames
  | .text characters :: trees, writable, begun, rest, ends => by
      have later := fun tree isMember => writable tree (List.mem_cons_of_mem _ isMember)
      rcases exists_events_forest trees later (begun ++ characters.toList) rest ends with
        ⟨events, read, plants⟩
      refine ⟨events, ?_, fun growing inStore noText => ?_⟩
      · have whole : begun.flatMap escapeTextChar ++ writtenAll (.text characters :: trees) =
            (begun ++ characters.toList).flatMap escapeTextChar ++ writtenAll trees := by
          simp [writtenAll, Tree.written, escapeText]
        rw [whole]
        exact read
      · have joined : (Tree.text (String.ofList begun)).joinedTo
            (mergedAll (.text characters :: trees)) =
              (Tree.text (String.ofList (begun ++ characters.toList))).joinedTo
                (mergedAll trees) := by
          rw [mergedAll, Tree.merged, joinedTo_joinedTo, String.ofList_append,
            String.ofList_toList]
        rw [joined]
        exact plants growing inStore noText
  | .markup raw :: trees, writable, begun, rest, ends => by
      have bounded : (Tree.markup raw).IsBounded := True.intro
      have here := writable _ List.mem_cons_self
      have later := fun tree isMember => writable tree (List.mem_cons_of_mem _ isMember)
      exact plants_bounded bounded here begun (exists_events_tree (.markup raw) bounded here)
        (exists_events_forest trees later [] rest ends)
  | .element held children :: trees, writable, begun, rest, ends => by
      have bounded : (Tree.element held children).IsBounded := True.intro
      have here := writable _ List.mem_cons_self
      have later := fun tree isMember => writable tree (List.mem_cons_of_mem _ isMember)
      exact plants_bounded bounded here begun
        (exists_events_tree (.element held children) bounded here)
        (exists_events_forest trees later [] rest ends)

end

theorem Reading.of_append {written : List Char} (begun : written.head? = some '<') :
    Reading.of (String.ofList written) = readEvents [] written := by
  unfold Reading.of
  rw [String.toList_ofList]
  split
  · simp at begun
  · rfl

namespace Document

variable {document : Document} {id : NodeId} {tree : Tree}

/-- A planted tree is read off its topmost node, also when that is taken out of its parent. -/
theorem tree_detach_of_bears {low : Nat} (wellFormed : document.WellFormed)
    (bears : document.Bears low tree id) (outside : ∀ other, low ≤ other.index →
      id ∉ document.children other) : (document.detach id).tree id = tree := by
  have same : ∀ other, low ≤ other.index → other.index < document.size →
      (document.detach id).content other = document.content other ∧
        (document.detach id).children other = document.children other := by
    intro other isNew _
    refine ⟨content_detach wellFormed id other, ?_⟩
    rw [children_detach wellFormed, List.filter_eq_self]
    intro child isChild
    rw [bne_iff_ne]
    rintro rfl
    exact outside other isNew isChild
  have size_le : document.size ≤ (document.detach id).size := Nat.le_of_eq (size_detach _ _).symm
  exact Bears.tree_eq (wellFormed.detach id)
    (Bears.stays size_le same low (Nat.le_refl low) tree id bears)

/-- A fragment of one written tree is read as that tree, merged. -/
theorem readFragment_written (wellFormed : document.WellFormed) (bounded : tree.IsBounded)
    (writable : tree.Writable) : ∃ root after,
      Edit.readFragment (String.ofList tree.written) document = .ok [root] after ∧
        after.tree root = tree.merged := by
  let held : Element := { name := containerName }
  let begun := document.add (.element held)
  let grown := plantBelow document.nextId tree.merged begun
  have inStore : document.nextId.index < begun.size := by
    rw [size_add]
    exact Nat.lt_succ_self _
  rcases exists_events_tree tree bounded writable [] with ⟨events, read, plants⟩
  have reading : Reading.of (String.ofList tree.written) = ⟨events, none⟩ := by
    have whole := read []
    rw [List.append_nil] at whole
    rw [Reading.of_append (Tree.head?_written bounded writable), whole]
    simp [readEvents, nextEvent, Reading.prepend]
  have added : begun.addEvents document.nextId events = grown := by
    have planted := plants ⟨begun, document.nextId, []⟩ inStore
    unfold Plants at planted
    rw [addEvents, planted]
    rfl
  have growth := planted_plantBelow tree.merged begun document.nextId inStore
  have childless : begun.children document.nextId = [] := by
    rw [Document.children, node_add, if_pos rfl]
  rcases growth.children_eq with ⟨ids, children, root, rest, rfl, bears, isNone⟩
  obtain rfl : rest = [] := isNone
  rw [childless, List.nil_append] at children
  have wellFormed' : grown.WellFormed :=
    (addsTo_plantBelow tree.merged begun document.nextId ((Adds.refl wellFormed).add _)
      (Nat.le_refl _) inStore).wellFormed
  have isParent : grown.parent root = some document.nextId := by
    rw [← wellFormed'.mem_children_iff, children]
    exact List.mem_singleton_self _
  refine ⟨root, grown.detach root, ?_, tree_detach_of_bears wellFormed' bears ?_⟩
  · simp only [Edit.readFragment, Outcome.bind_eq_ok, Edit.createElement_eq_ok,
      Outcome.modify_eq_ok, reading]
    refine ⟨_, _, ⟨rfl, rfl⟩, ⟨⟩, _, added, ?_⟩
    have detached : Edit.detach root grown = .ok ⟨⟩ (grown.detach root) :=
      Edit.detach_eq_ok.mpr rfl
    refine ⟨grown, grown, Outcome.get_eq_ok.mpr ⟨rfl, rfl⟩, ⟨⟩, grown.detach root, ?_, ?_⟩
    · rw [children]
      exact Outcome.forM_cons_eq_ok.mpr ⟨_, detached, Outcome.forM_nil_eq_ok.mpr rfl⟩
    · rw [children]
      rfl
  · intro other isNew isChild
    rw [wellFormed'.mem_children_iff, isParent, Option.some.injEq] at isChild
    rw [← isChild] at isNew
    exact absurd inStore (Nat.not_lt_of_le isNew)

/-- Reading the markup of an element gives its tree again, with neighbouring texts merged and empty
texts dropped. -/
theorem readFragment_nodeMarkup {other : Document} {held : Element} (wellFormed : other.WellFormed)
    (isElement : document.content id = .element held) (writable : (document.tree id).Writable) :
    ∃ root after, Edit.readFragment (document.nodeMarkup id) other = .ok [root] after ∧
      after.tree root = (document.tree id).merged := by
  refine readFragment_written wellFormed ?_ writable
  rw [Document.tree]
  cases document.size with
  | zero => simp [treeWithin, isElement, Tree.IsBounded]
  | succ levels => simp [treeWithin, isElement, Tree.IsBounded]

/-- Two texts become one between a tag whose value is escaped and a comment; an empty text is
gone. -/
theorem readFragment_escaped :
    let held : Element := ⟨"w:t", [⟨"w:val", "a<\"b\""⟩]⟩
    let document := (withRoot "w:p").plant
      (.element held [.text "x", .text " & y", .markup "<!-- z -->", .text ""])
    document.nodeMarkup ⟨1⟩ = "<w:t w:val=\"a&lt;&quot;b&quot;\">x &amp; y<!-- z --></w:t>" ∧
      ∃ root after, Edit.readFragment (document.nodeMarkup ⟨1⟩) document = .ok [root] after ∧
        after.tree root = .element held [.text "x & y", .markup "<!-- z -->"] := by
  intro held document
  have wellFormed : document.WellFormed := (fresh_plant _ (wellFormed_withRoot "w:p")).wellFormed
  have isElement : document.content ⟨1⟩ = .element held := by cbv
  have isTree : document.tree ⟨1⟩ =
      .element held [.text "x", .text " & y", .markup "<!-- z -->", .text ""] := by cbv
  have isName : ∀ name ∈ ["w:t", "w:val"], IsName name := by
    intro name isMember
    simp only [List.mem_cons, List.not_mem_nil, or_false] at isMember
    rcases isMember with rfl | rfl
    all_goals exact ⟨by simp, by simp [Text.isSpacing], by simp, by simp⟩
  have writable : (document.tree ⟨1⟩).Writable := by
    rw [isTree]
    refine Tree.Writable.element ⟨isName "w:t" List.mem_cons_self, fun item isItem => ?_,
      List.nodup_singleton _⟩ fun child isMember => ?_
    · obtain rfl := List.mem_singleton.mp isItem
      exact isName "w:val" (List.mem_cons_of_mem _ List.mem_cons_self)
    simp only [List.mem_cons, List.not_mem_nil, or_false] at isMember
    rcases isMember with rfl | rfl | rfl | rfl
    · exact Tree.Writable.text _
    · exact Tree.Writable.text _
    · exact Tree.Writable.markup ⟨⟨"<!-- z -->".toList, [], rfl⟩, by decide⟩
    · exact Tree.Writable.text _
  have found := readFragment_nodeMarkup wellFormed isElement writable
  rw [isTree] at found
  exact ⟨by cbv, found⟩

end Document

end WordTemplate
