import WordTemplate.Proofs.Document.Copying
import WordTemplate.Proofs.Word.Absorbing

/-!
# Leading text nodes

The text nodes that lead the text below a root, up to the one that is split or that others are joined
into, are not affected by splitting or joining, whatever the elements around them are.
-/

namespace WordTemplate

namespace Document

variable {document before after : Document} {id root parent child node reference kept : NodeId}
  {front left right : List NodeId}

/-- Nothing is below a text node. -/
def TextChildless (document : Document) : Prop :=
  ∀ id, document.isText id = true → document.children id = []

/-- It is enough to look at the nodes of the store. -/
theorem textChildless_of_store (each : ∀ index, index < document.size →
    document.isText ⟨index⟩ = true → document.children ⟨index⟩ = []) : document.TextChildless := by
  intro id isText
  rcases Nat.lt_or_ge id.index document.size with inStore | beyond
  · exact each id.index inStore isText
  · exact children_of_size_le beyond

theorem TextChildless.texts_eq (childless : document.TextChildless) (wellFormed : document.WellFormed)
    (isText : document.isText id = true) : document.texts id = [id] :=
  texts_of_childless wellFormed isText (childless id isText)

theorem TextChildless.plainBelow (childless : document.TextChildless)
    (wellFormed : document.WellFormed) (top : NodeId) : document.PlainBelow top :=
  fun _ _ isText => childless.texts_eq wellFormed isText

theorem SameShape.textChildless (same : SameShape before after) (childless : before.TextChildless) :
    after.TextChildless := fun id isText => by
  rw [same.children_eq]
  exact childless id (by rwa [← same.isText_eq])

theorem TextChildless.detach (childless : document.TextChildless) (wellFormed : document.WellFormed)
    (node : NodeId) : (document.detach node).TextChildless := fun id isText => by
  rw [isText_detach wellFormed] at isText
  rw [children_detach wellFormed, childless id isText]
  rfl

theorem TextChildless.add (childless : document.TextChildless) (content : Content) :
    (document.add content).TextChildless := fun id isText => by
  rw [children_add]
  rcases Nat.lt_or_ge id.index document.size with isOld | beyond
  · refine childless id ?_
    rwa [Document.isText, text?, (retains_add document content).content_eq isOld] at isText
  · exact children_of_size_le beyond

theorem TextChildless.moves (childless : before.TextChildless)
    (moves : Moves before after node parent left right) (notText : before.isText parent = false) :
    after.TextChildless := fun id isText => by
  rw [moves.isText_eq] at isText
  rw [moves.children_eq, if_neg, childless id isText]
  · rfl
  · rintro rfl
    rw [notText] at isText
    cases isText

theorem TextChildless.notText (childless : document.TextChildless) (wellFormed : document.WellFormed)
    (isParent : document.parent child = some parent) : document.isText parent = false := by
  by_contra isText
  have isChild := (wellFormed.mem_children_iff _ _).mpr isParent
  rw [childless parent (Bool.not_eq_false _ ▸ isText)] at isChild
  cases isChild

/-- The text below a root begins with the given text nodes. -/
structure Leading (document : Document) (root : NodeId) (front : List NodeId) : Prop where
  wellFormed : document.WellFormed
  inStore : root.index < document.size
  detached : document.parent root = none
  childless : document.TextChildless
  leads : front <+: document.texts root

namespace Leading

theorem plain (leading : document.Leading root front) : document.PlainBelow root :=
  leading.childless.plainBelow leading.wellFormed root

theorem mem_iff (leading : document.Leading root front) (isMember : id ∈ front) :
    document.LiesIn root id ∧ document.isText id = true :=
  (mem_texts_iff leading.wellFormed).mp (leading.leads.subset isMember)

theorem last_mem (leading : document.Leading root (left ++ [id])) :
    document.LiesIn root id ∧ document.isText id = true :=
  leading.mem_iff (List.mem_append_right _ (List.mem_singleton_self id))

theorem shorter (leading : document.Leading root front) (shorter : left <+: front) :
    document.Leading root left :=
  ⟨leading.wellFormed, leading.inStore, leading.detached, leading.childless,
    shorter.trans leading.leads⟩

theorem sameShape (leading : before.Leading root front) (same : SameShape before after) :
    after.Leading root front where
  wellFormed := same.wellFormed
  inStore := same.size_eq ▸ leading.inStore
  detached := by rw [same.parent_eq, leading.detached]
  childless := same.textChildless leading.childless
  leads := by
    rw [same.texts_eq leading.wellFormed]
    exact leading.leads

theorem add (leading : document.Leading root front) (content : Content) :
    (document.add content).Leading root front where
  wellFormed := leading.wellFormed.add content
  inStore := Nat.lt_of_lt_of_le leading.inStore (retains_add document content).size_le
  detached := by rw [parent_add, leading.detached]
  childless := leading.childless.add content
  leads := by
    rw [texts_add leading.wellFormed _ leading.inStore]
    exact leading.leads

/-- Detaching a node that none of the leading text nodes lies in. -/
theorem detach (leading : document.Leading root front) (rootApart : ¬document.LiesIn node root)
    (apart : ∀ text ∈ front, ¬document.LiesIn node text) :
    (document.detach node).Leading root front where
  wellFormed := leading.wellFormed.detach node
  inStore := by
    rw [size_detach]
    exact leading.inStore
  detached := by
    rw [parent_detach leading.wellFormed, leading.detached, ite_self]
  childless := leading.childless.detach leading.wellFormed node
  leads := by
    rcases leading.leads with ⟨rest, whole⟩
    have kept : front.filter (fun text => !document.contains node text) = front :=
      List.filter_eq_self.mpr fun text isMember => by
        rw [Bool.not_eq_true', ← Bool.not_eq_true, contains_iff leading.wellFormed]
        exact apart text isMember
    rw [texts_detach leading.wellFormed rootApart, ← whole, List.filter_append, kept]
    exact List.prefix_append _ _

/-- What is put behind a node around the last of the leading text nodes comes behind it. -/
theorem insertAfter {result : Unit} (leading : document.Leading root (left ++ [id]))
    (isBelow : id ∈ document.texts reference) (detached : document.parent node = none)
    (inStore : node.index < document.size)
    (done : Edit.insertAfter node reference document = .ok result after) :
    after.Leading root (left ++ [id]) ∧ (∀ other, after.content other = document.content other) ∧
      ∃ rest, after.texts root = left ++ id :: rest ∧ ∀ text ∈ document.texts node, text ∈ rest := by
  have wellFormed := leading.wellFormed
  rcases Edit.moves_of_insertAfter wellFormed inStore done with
    ⟨parent, earlier, later, isParent, -, moves⟩
  have rootAround := leading.last_mem.1
  have inside : document.LiesIn root parent := by
    rcases rootAround.total ((mem_texts_iff wellFormed).mp isBelow).1 with around | around
    · rcases around.cases_above isParent with rfl | around
      · rw [leading.detached] at isParent
        cases isParent
      · exact around
    · have same := around.eq_of_parent_none leading.detached
      rw [← same, leading.detached] at isParent
      cases isParent
  rcases moves.texts_around wellFormed detached inside with ⟨outer, beyond, old, new⟩
  rcases List.append_of_mem isBelow with ⟨first, second, isReference⟩
  rcases leading.leads with ⟨rest, whole⟩
  have nodup := nodup_texts wellFormed root
  have split : left ++ id :: rest = (outer ++ (earlier.flatMap document.texts ++ first)) ++
      id :: (second ++ (later.flatMap document.texts ++ beyond)) := by
    have same := whole.trans old
    simpa [isReference] using same
  have whole' : document.texts root = left ++ id :: rest := by rw [← whole]; simp
  rw [whole'] at nodup
  rcases append_cons_inj nodup split with ⟨isLeft, -⟩
  have new' : after.texts root = left ++ id :: (second ++ (document.texts node ++
      (later.flatMap document.texts ++ beyond))) := by
    rw [new, isLeft]
    simp [isReference]
  refine ⟨⟨moves.wellFormed, moves.size_eq ▸ leading.inStore, ?_, leading.childless.moves moves
    (leading.childless.notText wellFormed isParent), ?_⟩, moves.content_eq, _, new', ?_⟩
  · rw [moves.parent_eq, if_neg, leading.detached]
    rintro rfl
    exact moves.outside inside
  · rw [new']
    exact ⟨_, (List.append_cons _ _ _).symm⟩
  · intro text isMember
    simp [isMember]

theorem snip (leading : document.Leading root (left ++ [id]))
    (head rest : List Char) : (document.snip id head rest).Leading root (left ++ [id]) := by
  rcases leading.last_mem with ⟨inside, isText⟩
  have same := sameShape_setText leading.wellFormed isText (lt_size_below inside leading.inStore)
  exact (leading.sameShape (same _)).add _

theorem fillsCopy {element tail : NodeId} {filled : Document}
    (leading : document.Leading root front) (fills : FillsCopy document filled element tail)
    (named : document.isNamed element Word.Name.text = true) (differ : root ≠ tail) :
    filled.Leading root front where
  wellFormed := fills.wellFormed
  inStore := by
    rw [fills.size_eq]
    exact Nat.lt_succ_of_lt leading.inStore
  detached := by rw [fills.parent_eq differ, leading.detached]
  childless := by
    refine (leading.childless.add _).moves fills.moves ?_
    rw [← fills.moves.isText_eq]
    exact isText_eq_false_of_isNamed ((fills.isNamed_copy _).trans named)
  leads := by
    rw [fills.texts_eq leading.inStore]
    exact leading.leads

end Leading

end Document

namespace Edit

open Document Outcome

variable {document after : Document} {id root kept start stop tail : NodeId}
  {left absorbed : List NodeId}

/-! ## Splitting -/

/-- The filled copy of the text element around the last of the leading text nodes is put behind that
element. -/
theorem leading_of_secondHalf {element : NodeId} {filled placed : Document} {result : Unit}
    (leading : document.Leading root (left ++ [id]))
    (isElement : document.textElement? id = some element) (isText : document.isText tail = true)
    (fills : FillsCopy document filled element tail)
    (placeDone : insertAfter document.nextId element filled = .ok result placed) :
    placed.Leading root (left ++ [id]) ∧
      (∀ other, other.index < document.size → placed.textOf other = document.textOf other) ∧
      ∃ rest, placed.texts root = left ++ id :: rest ∧ tail ∈ rest := by
  have wellFormed := leading.wellFormed
  rcases Option.filter_eq_some_iff.mp isElement with ⟨isParent, named⟩
  rcases leading.last_mem with ⟨rootAround, idIsText⟩
  have id_ne : id ≠ tail := by
    rintro rfl
    rw [fills.detached] at isParent
    cases isParent
  have root_ne : root ≠ tail := by
    rintro rfl
    exact id_ne (eq_of_liesIn_childless wellFormed (leading.childless _ isText) rootAround)
  have isBelow : id ∈ filled.texts element := by
    rw [fills.texts_eq (parent_lt_size wellFormed isParent), mem_texts_iff wellFormed]
    exact ⟨LiesIn.parent isParent, idIsText⟩
  have isCopied : tail ∈ filled.texts document.nextId := by
    rw [mem_texts_iff fills.wellFormed, fills.isText_eq fills.inStore]
    exact ⟨LiesIn.parent fills.parent_tail, isText⟩
  rcases (leading.fillsCopy fills named root_ne).insertAfter isBelow fills.parent_copy
    fills.nextId_lt placeDone with ⟨placedLeads, content_eq, rest, whole, isRest⟩
  refine ⟨placedLeads, fun other isOld => ?_, rest, whole, isRest tail isCopied⟩
  rw [← fills.textOf_eq isOld, textOf, textOf, text?, text?, content_eq]

/-- Splitting the last of the leading text nodes shortens it and keeps the others. What is cut off
comes behind it. -/
theorem leading_of_splitText {offset : Nat} (leading : document.Leading root (left ++ [id]))
    (done : splitText id offset document = .ok tail after) :
    ∃ first second, Text.splitAtByte? offset (document.textOf id).toList = some (first, second) ∧
      after.Leading root (left ++ [id]) ∧ after.textOf id = String.ofList first ∧
      (∀ other, other.index < document.size → other ≠ id →
        after.textOf other = document.textOf other) ∧
      ∃ rest, after.texts root = left ++ id :: rest ∧ tail ∈ rest := by
  rcases splitText_eq_ok.mp done with ⟨first, second, isCut, isText, rfl, placed⟩
  have inStore := lt_size_below leading.last_mem.1 leading.inStore
  have extendedLeads := leading.snip first second
  have known : ∀ {other : NodeId}, other.index < document.size →
      other.index < (document.snip id first second).size := by
    intro other isOld
    rw [size_snip]
    exact Nat.lt_succ_of_lt isOld
  have tail_lt : document.nextId.index < (document.snip id first second).size := by
    rw [size_snip]
    exact Nat.lt_succ_self _
  have tailDetached : (document.snip id first second).parent document.nextId = none := by
    rw [parent_snip, parent_nextId]
  -- What the texts are is settled once the new text node is created.
  suffices split : after.Leading root (left ++ [id]) ∧
      (∀ other, other.index < document.size →
        after.textOf other = (document.snip id first second).textOf other) ∧
      ∃ rest, after.texts root = left ++ id :: rest ∧ document.nextId ∈ rest by
    rcases split with ⟨afterLeads, textOf_eq, texts⟩
    refine ⟨first, second, isCut, afterLeads, ?_, fun other isOld differ => ?_, texts⟩
    · rw [textOf_eq id inStore, textOf_snip inStore inStore, if_pos rfl]
    · rw [textOf_eq other isOld, textOf_snip inStore isOld, if_neg differ]
  have single : ∀ {text : NodeId}, (document.snip id first second).isText text = true →
      text ∈ (document.snip id first second).texts text := fun isText =>
    (mem_texts_iff extendedLeads.wellFormed).mpr ⟨LiesIn.refl, isText⟩
  rcases placed with ⟨-, placeDone⟩ | ⟨element, copy, copied, filled, placed, isElement, copyDone,
    fillDone, placeDone, rfl⟩
  · rcases extendedLeads.insertAfter (single extendedLeads.last_mem.2) tailDetached tail_lt placeDone
      with ⟨placedLeads, content_eq, rest, whole, isRest⟩
    refine ⟨placedLeads, fun other _ => ?_, rest, whole, isRest _ (single isText_snip_nextId)⟩
    rw [textOf, textOf, text?, text?, content_eq]
  · rcases copyNode_eq_ok.mp copyDone with ⟨rfl, rfl⟩
    have fills := FillsCopy.of_done extendedLeads.wellFormed tailDetached tail_lt fillDone
    rcases leading_of_secondHalf extendedLeads isElement isText_snip_nextId fills placeDone with
      ⟨placedLeads, textOf_placed, texts⟩
    rcases sameShape_setAttribute placedLeads.wellFormed element Word.Name.space "preserve" with
      ⟨toSpaced, textOf_spaced⟩
    rcases sameShape_setAttribute toSpaced.wellFormed (document.snip id first second).nextId
      Word.Name.space "preserve" with ⟨toLast, textOf_last⟩
    have toAll := toSpaced.trans toLast
    refine ⟨placedLeads.sameShape toAll, fun other isOld => ?_, ?_⟩
    · rw [textOf_last, textOf_spaced, textOf_placed _ (known isOld)]
    · rwa [toAll.texts_eq placedLeads.wellFormed root]

/-! ## Joining -/

/-- Pruning takes away no leading text node. -/
theorem leading_of_pruneUpwards {candidates : List NodeId} {result : Unit}
    (leading : document.Leading root (left ++ [kept]))
    (behind : ∀ candidate ∈ candidates, document.LiesIn candidate kept ∨
      ∀ text ∈ left, ¬document.LiesIn candidate text)
    (done : pruneUpwards kept candidates document = .ok result after) :
    after.Leading root (left ++ [kept]) ∧ ∀ other, after.content other = document.content other := by
  induction candidates generalizing document with
  | nil =>
      rw [pruneUpwards, pure_eq_ok] at done
      exact done.2 ▸ ⟨leading, fun _ => rfl⟩
  | cons candidate outer inductionHypothesis =>
      have wellFormed := leading.wellFormed
      simp only [pruneUpwards, get_bind] at done
      split at done
      · rw [pure_eq_ok] at done
        exact done.2 ▸ ⟨leading, fun _ => rfl⟩
      · next goesOn =>
          rcases bind_eq_ok.mp done with ⟨⟨⟩, middle, detachDone, restDone⟩
          rw [detach_eq_ok] at detachDone
          subst detachDone
          have apart : ¬document.LiesIn candidate kept := by
            rw [← contains_iff wellFormed]
            intro contains
            simp [contains] at goesOn
          have leftApart := (behind candidate List.mem_cons_self).resolve_left apart
          have detached : (document.detach candidate).Leading root (left ++ [kept]) := by
            refine leading.detach (fun above => apart (leading.last_mem.1.trans above)) ?_
            intro text isMember
            rcases List.mem_append.mp isMember with isLeft | isKept
            · exact leftApart text isLeft
            · exact List.mem_singleton.mp isKept ▸ apart
          have behind' : ∀ other ∈ outer, (document.detach candidate).LiesIn other kept ∨
              ∀ text ∈ left, ¬(document.detach candidate).LiesIn other text := by
            intro other isOuter
            refine (behind other (List.mem_cons_of_mem _ isOuter)).imp
              (liesIn_detach_iff wellFormed apart).mpr fun outside text isLeft inside => ?_
            exact outside text isLeft (liesIn_of_liesIn_detach wellFormed inside)
          rcases inductionHypothesis detached behind' restDone with ⟨afterLeads, content_eq⟩
          exact ⟨afterLeads, fun other =>
            (content_eq other).trans (content_detach wellFormed candidate other)⟩

/-- A later text node goes away without one of the leading text nodes. -/
theorem leading_of_removeAbsorbed {result : Unit} (leading : document.Leading root (left ++ [kept]))
    (isText : document.isText id = true) (later : id ∉ left ++ [kept])
    (done : removeAbsorbed kept id document = .ok result after) :
    after.Leading root (left ++ [kept]) ∧ ∀ other, after.content other = document.content other := by
  have wellFormed := leading.wellFormed
  simp only [removeAbsorbed, get_bind] at done
  rcases bind_eq_ok.mp done with ⟨⟨⟩, bare, detachDone, pruneDone⟩
  rw [detach_eq_ok] at detachDone
  subst detachDone
  have apart : ∀ text ∈ left ++ [kept], ¬document.LiesIn id text := by
    intro text isMember inside
    exact later (eq_of_liesIn_childless wellFormed (leading.childless id isText) inside ▸ isMember)
  have keptApart := apart kept (by simp)
  have detached := leading.detach (fun above => keptApart (leading.last_mem.1.trans above)) apart
  have behind : ∀ candidate ∈ document.ancestors id,
      (document.detach id).LiesIn candidate kept ∨
        ∀ text ∈ left, ¬(document.detach id).LiesIn candidate text := by
    intro candidate isAncestor
    by_cases aboveKept : document.LiesIn candidate kept
    · exact Or.inl ((liesIn_detach_iff wellFormed keptApart).mpr aboveKept)
    · refine Or.inr fun text isLeft inside => aboveKept ?_
      have inside := liesIn_of_liesIn_detach wellFormed inside
      have above := (mem_ancestors_iff wellFormed).mp (Or.inr isAncestor)
      have rootAround := (leading.mem_iff (List.mem_append_left _ isLeft)).1
      rcases inside.total rootAround with up | down
      · exact leading.last_mem.1.trans up
      · have isMember := (mem_texts_iff wellFormed).mpr ⟨above.trans down, isText⟩
        rcases leading.leads with ⟨rest, whole⟩
        have whole' : document.texts root = left ++ kept :: rest := by
          rw [← whole]
          exact (List.append_cons _ _ _).symm
        rw [whole'] at isMember
        have isRest : id ∈ rest := by
          simp only [List.mem_append, List.mem_cons, List.not_mem_nil, or_false, not_or] at isMember later
          exact (isMember.resolve_left later.1).resolve_left later.2
        exact liesIn_between wellFormed leading.plain whole' isLeft isRest inside above
  rcases leading_of_pruneUpwards detached behind pruneDone with ⟨afterLeads, content_eq⟩
  exact ⟨afterLeads, fun other => (content_eq other).trans (content_detach wellFormed id other)⟩

/-- Joining later text nodes into the last of the leading ones keeps the others. -/
theorem leading_of_joinText {result : Unit} (leading : document.Leading root (left ++ [start]))
    (later : ∀ absorbed, document.textRange? (document.size + 1) start stop = some absorbed →
      ∀ id ∈ absorbed, document.isText id = true ∧ id ∉ left ++ [start])
    (done : joinText start stop document = .ok result after) :
    after.Leading root (left ++ [start]) ∧
      ∀ other, other ≠ start → after.textOf other = document.textOf other := by
  rcases joinText_eq_ok.mp done with
    ⟨-, rfl⟩ | ⟨-, absorbed, extended, pruned, found, setDone, pruneDone, rfl⟩
  · exact ⟨leading, fun _ _ => rfl⟩
  rcases setText_eq_ok.mp setDone with ⟨isText, rfl⟩
  have inStore := lt_size_below leading.last_mem.1 leading.inStore
  have same := sameShape_setText leading.wellFormed isText inStore
    (document.textOf start ++ String.join (absorbed.map document.textOf))
  have textOf_extended := textOf_setText inStore
    (document.textOf start ++ String.join (absorbed.map document.textOf))
  generalize document.setContent start
    (.text (document.textOf start ++ String.join (absorbed.map document.textOf))) = extended at *
  have prunedLeads : pruned.Leading root (left ++ [start]) ∧
      ∀ other, pruned.content other = extended.content other := by
    refine forM_invariant (fun middle => middle.Leading root (left ++ [start]) ∧
      ∀ other, middle.content other = extended.content other) ?_
      ⟨leading.sameShape same, fun _ => rfl⟩ pruneDone
    rintro id isAbsorbed middle last ⟨middleLeads, content_eq⟩ removeDone
    rcases later absorbed found id isAbsorbed with ⟨isText, isLater⟩
    have isText' : middle.isText id = true := by
      rw [Document.isText, text?, content_eq, ← text?, ← Document.isText, same.isText_eq, isText]
    rcases leading_of_removeAbsorbed middleLeads isText' isLater removeDone with
      ⟨lastLeads, content_eq'⟩
    exact ⟨lastLeads, fun other => (content_eq' other).trans (content_eq other)⟩
  have textOf_pruned : ∀ other, other ≠ start → pruned.textOf other = document.textOf other := by
    intro other differ
    rw [textOf, text?, prunedLeads.2, ← text?, ← textOf, textOf_extended, if_neg differ]
  rcases sameShape_keepingSpace prunedLeads.1.wellFormed start with ⟨toAfter, textOf_after⟩
  exact ⟨prunedLeads.1.sameShape toAfter, fun other differ =>
    (textOf_after other).trans (textOf_pruned other differ)⟩

end Edit

end WordTemplate
