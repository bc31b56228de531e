import WordTemplate.Proofs.Document.TextOrder
import WordTemplate.Proofs.Word.Taking
import WordTemplate.Proofs.Word.Parting

/-!
# The levels of a split paragraph

A paragraph is split at each node from the carrier of a text up to the paragraph itself. Every such
node is a level of the split: its left half is the node, its right half is new, and the halves of one
level stand in the halves of the next one. When the paragraph has been tidied up both halves still
have their properties, and both keep their place unless they are runs that were left empty.
-/

namespace WordTemplate

namespace Document

variable {document before middle after : Document} {id node child parent paragraph tail cut text outer
  half top : NodeId} {lefts rights path halves runs : List NodeId}

/-! ## The path from the carrier to the paragraph -/

/-- The carrier of a text in a paragraph lies in the paragraph, and is no run and no properties. -/
theorem textUnit_of_paragraph? (wellFormed : document.WellFormed)
    (isText : document.isText text = true) (inParagraph : document.paragraph? text = some paragraph) :
    document.isNamed paragraph Word.Name.paragraph = true ∧
      document.LiesIn paragraph (document.textUnit text) ∧ paragraph ≠ document.textUnit text ∧
      document.isProperties (document.textUnit text) = false ∧
      document.isNamed (document.textUnit text) Word.Name.run = false := by
  rcases liesIn_of_ancestorNamed? wellFormed inParagraph with ⟨around, named⟩
  rcases liesIn_textUnit_of_isNamed around named (by decide) isText with ⟨above, differ⟩
  refine ⟨named, above, differ, ?_⟩
  rcases textUnit_cases document text with ⟨same, -⟩ | ⟨-, holderNamed⟩
  · rw [same]
    rcases carried : document.content text with characters | held | raw <;>
      simp_all [Document.isProperties, Document.isNamed, Document.isText, Document.text?,
        Document.name?, Document.element?, Content.element?, Content.text?]
  · exact ⟨(isProperties_of_isNamed holderNamed).trans (by decide),
      isNamed_eq_false holderNamed (by decide)⟩

/-- A text is among the leaves of its carrier. -/
theorem mem_leaves_textUnit (wellFormed : document.WellFormed) (isText : document.isText text = true)
    (inStore : text.index < document.size) :
    text ∈ document.leaves document (document.textUnit text) := by
  have notElement : document.element? text = none := by
    rcases carried : document.content text with characters | held | raw <;>
      simp_all [Document.isText, Document.text?, Document.element?, Content.element?, Content.text?]
  have isLeaf : document.isLeaf text = true :=
    isLeaf_of_lt_size notElement inStore
  have own : text ∈ document.leaves document text := by
    have shown : document.isProperties text = false := by
      simp [Document.isProperties, Document.name?, notElement]
    rw [leaves_eq wellFormed, if_neg (by simp [shown])]
    simp [isLeaf]
  rcases textUnit_cases document text with ⟨same, -⟩ | ⟨isHolder, holderNamed⟩
  · rwa [same]
  · have shown : document.isProperties (document.textUnit text) = false :=
      (isProperties_of_isNamed holderNamed).trans (by decide)
    rw [leaves_eq wellFormed, if_neg (by simp [shown])]
    exact List.mem_append_right _
      (List.mem_flatMap.mpr ⟨text, (wellFormed.mem_children_iff _ _).mpr isHolder, own⟩)

/-- The path up to a node has all nodes that lie in between. -/
theorem mem_pathTo_of_liesIn {ids : List NodeId} (wellFormed : document.WellFormed)
    (climbs : document.ClimbsFrom cut ids) (isMember : id ∈ ids) (inside : document.LiesIn top id) :
    id ∈ pathTo top ids := by
  induction ids generalizing cut with
  | nil => simp at isMember
  | cons first rest inductionHypothesis =>
      rw [pathTo]
      split
      · rename_i isTop
        subst isTop
        rcases List.mem_cons.mp isMember with rfl | further
        · exact List.mem_singleton_self _
        · have same := inside.antisymm wellFormed (climbs.2.liesIn further)
          exact absurd same (climbs.2.ne wellFormed further)
      · rcases List.mem_cons.mp isMember with rfl | further
        · exact List.mem_cons_self
        · exact List.mem_cons_of_mem _ (inductionHypothesis climbs.2 further)

theorem ClimbsFrom.exists_holder {ids : List NodeId} (climbs : document.ClimbsFrom cut ids)
    (isMember : id ∈ ids) : ∃ holder, document.parent cut = some holder ∧ document.LiesIn id holder := by
  rcases ids with _ | ⟨holder, rest⟩
  · simp at isMember
  refine ⟨holder, climbs.1, ?_⟩
  rcases List.mem_cons.mp isMember with rfl | further
  · exact LiesIn.refl
  · exact climbs.2.liesIn further

/-- The last node of a path is on it. -/
theorem SplitAlong.top_mem (split : SplitAlong before middle cut top tail lefts rights path halves) :
    top ∈ path := by
  rcases split.ends with ⟨lower, -, path_eq, -⟩
  simp [path_eq]

/-- Taking the cut out of the left half leaves the paragraph split along the path. -/
theorem SplitAlong.detach_cut
    (split : SplitAlong before middle cut top tail [cut] [] path halves)
    (wellFormed : before.WellFormed) (climbs : before.ClimbsFrom cut path) :
    SplitAlong before (middle.detach cut) cut top tail [] [] path halves := by
  rcases climbs.exists_holder split.top_mem with ⟨parent, isHolder, inside⟩
  obtain ⟨onPath, isHolder'⟩ : parent ∈ path ∧ middle.parent cut = some parent := by
    rcases split.along with _ | ⟨cleaved, -⟩
    · cases split.top_mem
    · rw [climbs.1, Option.some.injEq] at isHolder
      subst isHolder
      rcases cleaved.parts with ⟨leading, _, _, _, children_left, _⟩
      refine ⟨List.mem_cons_self, ?_⟩
      rw [← split.wellFormed.mem_children_iff, children_left]
      simp
  have notOuter : before.parent top ≠ some parent := fun isOuter =>
    not_liesIn_of_parent wellFormed isOuter inside
  have children_eq : ∀ id, id ≠ parent → (middle.detach cut).children id = middle.children id := by
    intro id notParent
    rw [children_detach split.wellFormed, filter_children_of_ne split.wellFormed]
    rw [isHolder']
    simpa using notParent.symm
  refine ⟨split.wellFormed.detach cut, ?_, ?_, ?_, split.ends, ?_, ?_, ?_⟩
  · rw [size_detach]
    exact split.size_le
  · intro id isOld
    rw [content_detach split.wellFormed, split.content_eq id isOld]
  · have along := split.along.detach_cut wellFormed split.wellFormed climbs LiesIn.refl isHolder
      isHolder' fun id above => split.parent_eq id parent isHolder above
    simpa using along
  · rcases split.beside with ⟨outer, left, rest, isOuter, around, around'⟩
    refine ⟨outer, left, rest, isOuter, around, ?_⟩
    rw [children_eq outer, around']
    rintro rfl
    exact notOuter isOuter
  · intro id isOld notOnPath notAbove
    rw [children_eq id, split.children_eq id isOld notOnPath notAbove]
    rintro rfl
    exact notOnPath onPath
  · intro id parent' isParent above
    rw [parent_detach split.wellFormed, if_neg, split.parent_eq id parent' isParent above]
    rintro rfl
    exact not_liesIn_of_parent wellFormed isParent above

/-! ## Levels of the split -/

/-- Whatever lies between a node of a path and the last one is on the path. -/
theorem ClimbsFrom.mem_of_liesIn {ids : List NodeId} {other : NodeId}
    (climbs : document.ClimbsFrom id ids) (wellFormed : document.WellFormed)
    (isLast : (id :: ids).getLast? = some top) (isMember : other ∈ id :: ids)
    (above : document.LiesIn node other) (below : document.LiesIn top node) : node ∈ id :: ids := by
  induction ids generalizing id other with
  | nil =>
      rw [List.mem_singleton.mp isMember] at above
      rw [List.getLast?_singleton, Option.some.injEq] at isLast
      subst isLast
      rw [below.antisymm wellFormed above]
      exact List.mem_singleton_self _
  | cons first rest inductionHypothesis =>
      rcases climbs with ⟨isParent, climbs⟩
      rw [List.getLast?_cons_cons] at isLast
      rcases List.mem_cons.mp isMember with rfl | further
      · rcases above.cases_above isParent with rfl | above
        · exact List.mem_cons_self
        · exact List.mem_cons_of_mem _ (inductionHypothesis climbs isLast List.mem_cons_self above)
      · exact List.mem_cons_of_mem _ (inductionHypothesis climbs isLast further above)

/-- `id` is a node of the path from `cut` to `top`, and `half` is its right half. The halves stand in
the halves of the node above, up to `top` and `tail`. -/
structure Level (before middle : Document) (top tail cut id half : NodeId) : Prop where
  cleaved : ∃ child lefts rights, Cleaved before middle child id half lefts rights ∧
    before.LiesIn child cut ∧ ∀ part ∈ lefts ++ rights, middle.isProperties part = false
  inside : middle.LiesIn top id
  insideTail : middle.LiesIn tail half
  place : id = top ∧ half = tail ∨ id ≠ top ∧ ∃ outer outerHalf, middle.parent id = some outer ∧
    middle.parent half = some outerHalf ∧ (outerHalf = tail → outer = top)

/-- The nodes of a path lie below the last one. -/
theorem ClimbsFrom.liesIn_of_getLast? {ids : List NodeId} (climbs : document.ClimbsFrom id ids)
    (isLast : (id :: ids).getLast? = some top) (isMember : node ∈ id :: ids) :
    document.LiesIn top node := by
  induction ids generalizing id node with
  | nil =>
      rw [List.getLast?_singleton, Option.some.injEq] at isLast
      rw [List.mem_singleton.mp isMember, isLast]
  | cons first rest inductionHypothesis =>
      rw [List.getLast?_cons_cons] at isLast
      rcases List.mem_cons.mp isMember with rfl | further
      · exact LiesIn.of_parent climbs.1 (inductionHypothesis climbs.2 isLast List.mem_cons_self)
      · exact inductionHypothesis climbs.2 isLast further

/-- Every half is that of a node on the path. -/
theorem CleavedAlong.exists_cleaved_of_mem
    (along : CleavedAlong before middle child lefts rights path halves) (isHalf : half ∈ halves) :
    ∃ id ∈ path, ∃ child lefts rights, Cleaved before middle child id half lefts rights := by
  induction along with
  | nil => simp at isHalf
  | cons cleaved _ inductionHypothesis =>
      rcases List.mem_cons.mp isHalf with rfl | further
      · exact ⟨_, List.mem_cons_self, _, _, _, cleaved⟩
      · rcases inductionHypothesis further with ⟨id, onPath, others⟩
        exact ⟨id, List.mem_cons_of_mem _ onPath, others⟩

/-- Every node of the path is a level of the split. -/
theorem CleavedAlong.levels
    (along : CleavedAlong before middle child lefts rights path halves)
    (wellFormed : before.WellFormed) (middleFormed : middle.WellFormed)
    (content_eq : ∀ id, id.index < before.size → middle.content id = before.content id)
    (climbs : before.ClimbsFrom child path) (above : before.LiesIn child cut)
    (isTop : path.getLast? = some top) (isTail : halves.getLast? = some tail)
    (tailPlace : ∀ outer, middle.parent tail = some outer → outer.index < before.size)
    (shown : ∀ part ∈ lefts ++ rights, middle.isProperties part = false)
    (pathShown : ∀ id ∈ path, before.isProperties id = false) (onPath : id ∈ path) :
    ∃ half ∈ halves, Level before middle top tail cut id half := by
  induction along with
  | nil => simp at onPath
  | @cons child parent half lefts rights path halves cleaved further inductionHypothesis =>
      rcases climbs with ⟨isParent, climbs⟩
      have parent_lt := parent_lt_size wellFormed isParent
      rcases further.climbs middleFormed with ⟨climbs', halfClimbs⟩
      rcases List.mem_cons.mp onPath with rfl | onPath
      · refine ⟨half, List.mem_cons_self, ⟨child, lefts, rights, cleaved, above, shown⟩,
          climbs'.liesIn_of_getLast? isTop List.mem_cons_self,
          halfClimbs.liesIn_of_getLast? isTail List.mem_cons_self, ?_⟩
        rcases further with _ | @⟨_, next, nextHalf, _, _, path, halves, cleavedNext, more⟩
        · rw [List.getLast?_singleton, Option.some.injEq] at isTop isTail
          exact Or.inl ⟨isTop, isTail⟩
        · have differ : id ≠ top := by
            rw [List.getLast?_cons_cons] at isTop
            exact (climbs.ne wellFormed (List.mem_of_getLast? isTop)).symm
          refine Or.inr ⟨differ, next, nextHalf, climbs'.1, halfClimbs.1, ?_⟩
          rintro rfl
          rcases more with _ | @⟨_, _, nextNextHalf, _, _, _, _, cleavedNext', -⟩
          · rw [List.getLast?_cons_cons, List.getLast?_singleton, Option.some.injEq] at isTop
            exact isTop
          · exact absurd cleavedNext'.half_new
              (Nat.not_le_of_lt (tailPlace nextNextHalf halfClimbs.2.1))
      · rcases path with _ | ⟨next, path⟩
        · simp at onPath
        rcases halves with _ | ⟨nextHalf, halves⟩
        · cases further
        rw [List.getLast?_cons_cons] at isTop isTail
        have partsShown : ∀ part ∈ [parent] ++ [half], middle.isProperties part = false := by
          intro part isPart
          rw [← pathShown parent List.mem_cons_self]
          rcases List.mem_cons.mp isPart with rfl | isHalf
          · exact isProperties_of_content_eq (content_eq part parent_lt)
          · rw [List.mem_singleton.mp isHalf]
            exact isProperties_of_content_eq cleaved.half_content
        rcases inductionHypothesis climbs (above.trans (LiesIn.parent isParent)) isTop isTail
          partsShown (fun id isMember => pathShown id (List.mem_cons_of_mem _ isMember)) onPath with
          ⟨half', isHalf, level⟩
        exact ⟨half', List.mem_cons_of_mem _ isHalf, level⟩

/-! ## The two halves of a node -/

/-- The node `id` on the way from `cut` to `paragraph` is left in the head, and `half` is its right
half in `tail`. A run that is left empty there has been dropped from its paragraph. -/
structure Halved (before after : Document) (paragraph tail cut id half : NodeId) : Prop where
  half_new : before.size ≤ half.index
  half_of_paragraph : id = paragraph → half = tail
  content_left : after.content id = before.content id
  content_right : after.content half = before.content id
  /-- The left half keeps the properties before the cut, the paragraph without its section break. -/
  properties_left : ∃ leading child trailing, before.children id = leading ++ child :: trailing ∧
    before.LiesIn child cut ∧
    (after.children id).filter after.isProperties = leading.filter before.isProperties ∧
    ∀ properties ∈ leading.filter before.isProperties, after.tree properties =
      (if id = paragraph then before.withoutSectionBreak paragraph else before).tree properties
  /-- The right half has all properties, copies of those before the cut and those after it. -/
  properties_right : ((after.children half).filter after.isProperties).map after.tree =
    ((before.children id).filter before.isProperties).map before.tree
  place_left : after.LiesIn paragraph id ∨
    before.parent id = some paragraph ∧ after.isEmptyRun id = true
  place_right : after.LiesIn tail half ∨
    before.parent id = some paragraph ∧ after.isEmptyRun half = true

/-- No child of a node in a subtree stands above a sibling of the top of the subtree. -/
theorem not_liesIn_beside {other : NodeId} (wellFormed : document.WellFormed)
    (isOuter : document.parent top = some outer) (isOuter' : document.parent other = some outer)
    (inside : document.LiesIn top parent) (isParent : document.parent id = some parent) :
    ¬document.LiesIn id other := by
  intro above
  rcases above.cases_above isOuter' with rfl | above
  · rw [isOuter', Option.some.injEq] at isParent
    exact not_liesIn_of_parent wellFormed isOuter (isParent ▸ inside)
  · exact not_liesIn_of_parent wellFormed isParent
      (inside.trans ((LiesIn.parent isOuter).trans above))

/-- What a subtree shares with the children of two siblings are children of its top, if that is one
of the siblings. -/
theorem own_of_siblings {other : NodeId} (wellFormed : document.WellFormed)
    (isOuter : document.parent top = some outer) (isOuter' : document.parent other = some outer)
    (differ : top ≠ other) (run : NodeId)
    (isParent : document.parent run = some top ∨ document.parent run = some other)
    (inside : document.LiesIn top run) : document.parent run = some top := by
  refine isParent.resolve_right fun isOther => ?_
  rcases inside.cases_above isOther with rfl | inside
  · rw [isOuter, Option.some.injEq] at isOther
    exact not_liesIn_of_parent wellFormed isOuter' (isOther ▸ LiesIn.refl)
  · exact not_liesIn_of_siblings wellFormed isOuter isOuter' differ inside LiesIn.refl

/-- The properties of a cleaved paragraph are its own, unless they stood after the cut. -/
theorem Cleaved.paragraphProperty?_cases
    (cleaved : Cleaved before middle child paragraph half lefts rights) (name : String)
    (wellFormed : before.WellFormed)
    (content_eq : ∀ id, id.index < before.size → middle.content id = before.content id)
    (childShown : before.isProperties child = false)
    (shown : ∀ part ∈ lefts, middle.isProperties part = false) :
    (middle.childNamed? paragraph Word.Name.paragraphProperties =
        before.childNamed? paragraph Word.Name.paragraphProperties ∧
      middle.paragraphProperty? paragraph name = before.paragraphProperty? paragraph name) ∨
    middle.childNamed? paragraph Word.Name.paragraphProperties = none ∧
      ∃ leading trailing, before.children paragraph = leading ++ child :: trailing ∧
        ∀ properties, before.childNamed? paragraph Word.Name.paragraphProperties = some properties →
          properties ∈ trailing := by
  rcases cleaved.parts with ⟨leading, trailing, -, around, children_left, -, -, -⟩
  have notNamed : ∀ {document : Document} {id : NodeId}, document.isProperties id = false →
      document.isNamed id Word.Name.paragraphProperties = false := by
    intro document id shown
    by_contra named
    rw [Bool.not_eq_false] at named
    rw [isProperties_of_isNamed named] at shown
    exact absurd shown (by decide)
  have isSibling : ∀ sibling ∈ leading, sibling ∈ before.children paragraph ∧ sibling ≠ child :=
    fun sibling isMember => isSibling_of_around wellFormed around (List.mem_append_left _ isMember)
  have sameFirst : leading.find? (middle.isNamed · Word.Name.paragraphProperties) =
      leading.find? (before.isNamed · Word.Name.paragraphProperties) :=
    List.find?_congr fun sibling isMember => by
      have sibling_lt := lt_size_of_mem_children wellFormed (isSibling sibling isMember).1
      exact isNamed_of_content_eq (content_eq sibling sibling_lt) _
  have noneLeft : lefts.find? (middle.isNamed · Word.Name.paragraphProperties) = none :=
    List.find?_eq_none.mpr fun part isPart => by simp [notNamed (shown part isPart)]
  have middleFirst : middle.childNamed? paragraph Word.Name.paragraphProperties =
      leading.find? (before.isNamed · Word.Name.paragraphProperties) := by
    rw [childNamed?, children_left, List.find?_append, sameFirst, noneLeft, Option.or_none]
  rcases found : leading.find? (before.isNamed · Word.Name.paragraphProperties) with _ | properties
  · refine Or.inr ⟨by rw [middleFirst, found], leading, trailing, around, fun properties isFirst => ?_⟩
    rw [childNamed?, around, List.find?_append, found, Option.none_or, List.find?_cons,
      notNamed childShown] at isFirst
    exact List.mem_of_find?_eq_some isFirst
  · have beforeFirst : before.childNamed? paragraph Word.Name.paragraphProperties =
        some properties := by
      rw [childNamed?, around, List.find?_append, found, Option.some_or]
    rw [found] at middleFirst
    refine Or.inl ⟨by rw [middleFirst, beforeFirst], ?_⟩
    rcases isSibling properties (List.mem_of_find?_eq_some found) with ⟨isChild, differ⟩
    rw [paragraphProperty?, paragraphProperty?, middleFirst, beforeFirst, Option.bind_some,
      Option.bind_some, childNamed?, childNamed?,
      cleaved.siblings_kept properties isChild differ properties LiesIn.refl]
    refine List.find?_congr fun other isOther => ?_
    exact isNamed_of_content_eq (content_eq other (lt_size_of_mem_children wellFormed isOther)) _

/-- The first properties of a cleaved paragraph have no child that they did not have. -/
theorem Cleaved.single_of_single {name : String}
    (cleaved : Cleaved before middle child paragraph half lefts rights)
    (wellFormed : before.WellFormed)
    (content_eq : ∀ id, id.index < before.size → middle.content id = before.content id)
    (childShown : before.isProperties child = false)
    (shown : ∀ part ∈ lefts, middle.isProperties part = false)
    (single : ∀ properties,
      before.childNamed? paragraph Word.Name.paragraphProperties = some properties →
        ((before.children properties).filter (before.isNamed · name)).length ≤ 1)
    {properties : NodeId}
    (isFirst : middle.childNamed? paragraph Word.Name.paragraphProperties = some properties) :
    ((middle.children properties).filter (middle.isNamed · name)).length ≤ 1 := by
  rcases cleaved.paragraphProperty?_cases name wellFormed content_eq childShown shown with
    ⟨same, -⟩ | ⟨isNone, -⟩
  · rw [same] at isFirst
    have isChild := List.mem_of_find?_eq_some isFirst
    have named : before.isNamed properties Word.Name.paragraphProperties = true := by
      simpa [childNamed?] using List.find?_some isFirst
    have differ : properties ≠ child := by
      rintro rfl
      rw [isProperties_of_isNamed named] at childShown
      exact absurd childShown (by decide)
    rw [cleaved.siblings_kept properties isChild differ properties LiesIn.refl]
    have sameFilter : (before.children properties).filter (middle.isNamed · name) =
        (before.children properties).filter (before.isNamed · name) :=
      List.filter_congr fun lower isLower => by
        exact isNamed_of_content_eq (content_eq lower (lt_size_of_mem_children wellFormed isLower)) _
    rw [sameFilter]
    exact single properties isFirst
  · rw [isNone] at isFirst
    cases isFirst

/-- The other children of a cleaved node keep their trees. -/
theorem Cleaved.tree_sibling {sibling : NodeId}
    (cleaved : Cleaved before middle child node half lefts rights) (wellFormed : before.WellFormed)
    (size_le : before.size ≤ middle.size)
    (content_eq : ∀ id, id.index < before.size → middle.content id = before.content id)
    (isSibling : sibling ∈ before.children node) (differ : sibling ≠ child) :
    middle.tree sibling = before.tree sibling :=
  tree_congr wellFormed size_le fun id inside =>
    ⟨content_eq id (lt_size_below inside (lt_size_of_mem_children wellFormed isSibling)),
      cleaved.siblings_kept sibling isSibling differ id inside⟩

section Assembly

variable (split : SplitAlong before middle cut paragraph tail lefts rights path halves)
  (tidied : Tidied middle after paragraph tail runs) (wellFormed : before.WellFormed)
  (climbs : before.ClimbsFrom cut path)
  (between : ∀ id, before.LiesIn paragraph id → before.LiesIn id cut →
    before.isProperties id = false)

include split wellFormed in
/-- The head and the tail stand side by side. -/
theorem SplitAlong.exists_outer : ∃ outer, before.parent paragraph = some outer ∧
    middle.parent paragraph = some outer ∧ middle.parent tail = some outer ∧
    outer.index < before.size := by
  rcases split.beside with ⟨outer, left, rest, isOuter, -, around⟩
  refine ⟨outer, isOuter, ?_, ?_, parent_lt_size wellFormed isOuter⟩
  · rw [← split.wellFormed.mem_children_iff, around]
    simp
  · rw [← split.wellFormed.mem_children_iff, around]
    simp

include split climbs in
/-- What stands at or above a node of the path keeps its parent. -/
theorem SplitAlong.parent_above (onPath : id ∈ path) (above : before.LiesIn node id) :
    middle.parent node = before.parent node := by
  rcases climbs.exists_holder onPath with ⟨holder, isHolder, inside⟩
  exact split.parent_eq node holder isHolder (inside.trans above)

include split climbs in
theorem SplitAlong.liesIn_iff (onPath : id ∈ path) :
    middle.LiesIn node id ↔ before.LiesIn node id :=
  liesIn_iff_of_parent_eq fun _ => split.parent_above climbs onPath

include split climbs in
theorem SplitAlong.liesIn_top (onPath : id ∈ path) : before.LiesIn paragraph id := by
  rcases split.ends with ⟨lower, -, path_eq, -⟩
  rcases path with _ | ⟨first, rest⟩
  · cases onPath
  · exact climbs.2.liesIn_of_getLast? (by rw [path_eq]; simp) onPath

include split tidied wellFormed in
/-- Nothing is dropped below the children of the two halves, besides the section break. -/
theorem SplitAlong.tree_kept (inside : middle.LiesIn paragraph parent ∨ middle.LiesIn tail parent)
    (isParent : middle.parent node = some parent) (differ : parent ≠ paragraph) :
    after.tree node = middle.tree node := by
  rcases split.exists_outer wellFormed with ⟨outer, -, isOuter, tailOuter, -⟩
  have notAbove : ∀ {id : NodeId}, middle.LiesIn id parent → ¬middle.LiesIn node id :=
    fun inside above => not_liesIn_of_parent split.wellFormed isParent (inside.trans above)
  rcases inside with inside | inside
  · exact tidied.tree_eq split.wellFormed isParent differ (notAbove inside)
      (not_liesIn_beside split.wellFormed isOuter tailOuter inside isParent)
  · exact tidied.tree_eq split.wellFormed isParent differ
      (not_liesIn_beside split.wellFormed tailOuter isOuter inside isParent) (notAbove inside)

include split tidied wellFormed between in
/-- The properties of a right half have the trees of the properties of the node that was split. -/
theorem Level.properties_right (level : Level before middle paragraph tail cut id half)
    (inside : before.LiesIn paragraph id) :
    ((after.children half).filter after.isProperties).map after.tree =
      ((before.children id).filter before.isProperties).map before.tree := by
  rcases split.exists_outer wellFormed with ⟨outer, isOuter, -, -, -⟩
  rcases level.cleaved with ⟨child, lefts, rights, cleaved, above, shown⟩
  rcases cleaved.parts with
    ⟨leading, trailing, copies, around, -, children_half, copiesNew, trees⟩
  have isChild : before.parent child = some id := by
    rw [← wellFormed.mem_children_iff, around]
    simp
  have childShown := between child (LiesIn.of_parent isChild inside) above
  have halfShown : middle.isProperties half = false := by
    rw [← between id inside ((above.trans (LiesIn.parent isChild)))]
    exact isProperties_of_content_eq cleaved.half_content
  have half_ne : half ≠ paragraph := by
    rintro rfl
    exact absurd cleaved.half_new (Nat.not_le_of_lt (lt_size_of_parent isOuter))
  have kept : ∀ node ∈ middle.children half, after.tree node = middle.tree node := by
    intro node isMember
    exact split.tree_kept tidied wellFormed (Or.inr level.insideTail)
      ((split.wellFormed.mem_children_iff _ _).mp isMember) half_ne
  have trailing_old : ∀ sibling ∈ trailing, sibling ∈ before.children id ∧ sibling ≠ child :=
    fun sibling isMember => isSibling_of_around wellFormed around (List.mem_append_right _ isMember)
  have copiesAll : copies.filter middle.isProperties = copies :=
    List.filter_eq_self.mpr fun copy isCopy => (copiesNew copy isCopy).2
  have rightsNone : rights.filter middle.isProperties = [] :=
    List.filter_eq_nil_iff.mpr fun part isPart => by
      simp [shown part (List.mem_append_right _ isPart)]
  have trailingSame : trailing.filter middle.isProperties = trailing.filter before.isProperties :=
    List.filter_congr fun sibling isMember => by
      exact isProperties_of_content_eq (split.content_eq sibling
        (lt_size_of_mem_children wellFormed (trailing_old sibling isMember).1))
  have trailingTrees : (trailing.filter before.isProperties).map middle.tree =
      (trailing.filter before.isProperties).map before.tree :=
    List.map_congr_left fun sibling isMember => by
      rcases trailing_old sibling (List.mem_of_mem_filter isMember) with ⟨isSibling, differ⟩
      exact cleaved.tree_sibling wellFormed split.size_le split.content_eq isSibling differ
  calc ((after.children half).filter after.isProperties).map after.tree
    _ = ((middle.children half).filter middle.isProperties).map middle.tree := by
        rw [tidied.filter_properties split.wellFormed halfShown]
        exact List.map_congr_left fun node isMember => kept node (List.mem_of_mem_filter isMember)
    _ = (copies ++ trailing.filter before.isProperties).map middle.tree := by
        rw [children_half, List.filter_append, List.filter_append, copiesAll, rightsNone,
          trailingSame, List.append_nil]
    _ = ((before.children id).filter before.isProperties).map before.tree := by
        rw [List.map_append, trees, trailingTrees, around, List.filter_append,
          List.filter_cons_of_neg (by simp [childShown]), List.map_append]

include split tidied wellFormed in
/-- The properties before the cut lose the section break of the paragraph and nothing else. -/
theorem SplitAlong.tree_of_paragraph {sibling : NodeId}
    {leading trailing lefts rights : List NodeId}
    (cleaved : Cleaved before middle child paragraph tail lefts rights)
    (childShown : before.isProperties child = false)
    (shown : ∀ part ∈ lefts, middle.isProperties part = false)
    (around : before.children paragraph = leading ++ child :: trailing) (isMember : sibling ∈ leading)
    (isParent : middle.parent sibling = some paragraph) :
    after.tree sibling = (before.withoutSectionBreak paragraph).tree sibling := by
  rcases split.exists_outer wellFormed with ⟨outer, isOuter, isOuter', tailOuter, -⟩
  have drops := drops_withoutSectionBreak wellFormed paragraph
  have nodup := wellFormed.nodup_children paragraph
  have isSibling : sibling ∈ before.children paragraph := by
    rw [around]
    exact List.mem_append_left _ isMember
  rw [around, List.nodup_append] at nodup
  have apartFrom : ∀ other ∈ child :: trailing, sibling ≠ other := nodup.2.2 sibling isMember
  have differ := apartFrom child List.mem_cons_self
  refine tree_congr drops.wellFormed ?_ fun other inside => ?_
  · rw [drops.size_eq, tidied.drops.size_eq]
    exact split.size_le
  have inside := drops.liesIn inside
  have other_lt := lt_size_below inside (lt_size_of_mem_children wellFormed isSibling)
  have kept := cleaved.siblings_kept sibling isSibling differ
  have inside' : middle.LiesIn sibling other :=
    inside.of_children_eq wellFormed split.wellFormed kept
  refine ⟨by rw [tidied.drops.content_eq, split.content_eq other other_lt, drops.content_eq], ?_⟩
  rw [tidied.children_below split.wellFormed (not_liesIn_of_parent split.wellFormed isParent)
    (not_liesIn_beside split.wellFormed isOuter' tailOuter LiesIn.refl isParent) inside',
    drops.children_eq, kept other inside]
  rcases cleaved.paragraphProperty?_cases Word.Name.sectionProperties wellFormed
    split.content_eq childShown shown with ⟨-, same⟩ | ⟨isNone, leading', trailing', around', later⟩
  · rw [same]
  -- The first properties stand after the cut, and so does the section break in them.
  have noBreak : middle.paragraphProperty? paragraph Word.Name.sectionProperties = none := by
    rw [paragraphProperty?, isNone, Option.bind_none]
  rw [noBreak]
  refine List.filter_congr fun lower isLower => ?_
  rw [Option.toList_none, decide_eq_decide]
  refine iff_of_true List.not_mem_nil fun isBreak => ?_
  rw [Option.mem_toList, paragraphProperty?] at isBreak
  rcases Option.bind_eq_some_iff.mp isBreak with ⟨properties, isFirst, isBreak⟩
  have isTrailing := later properties isFirst
  have nodup' := wellFormed.nodup_children paragraph
  rw [around'] at nodup'
  rcases append_cons_inj nodup' (around'.symm.trans around) with ⟨-, rfl⟩
  have isFirstChild : before.parent properties = some paragraph := by
    rw [← wellFormed.mem_children_iff, around]
    simp [isTrailing]
  have isBreakChild : before.parent lower = some properties := by
    rw [← wellFormed.mem_children_iff]
    exact List.mem_of_find?_eq_some isBreak
  have same : other = properties := by
    rw [wellFormed.mem_children_iff, isBreakChild, Option.some.injEq] at isLower
    exact isLower.symm
  exact not_liesIn_of_siblings wellFormed ((wellFormed.mem_children_iff _ _).mp isSibling)
    isFirstChild (apartFrom properties (List.mem_cons_of_mem _ isTrailing)) (same ▸ inside) LiesIn.refl

include split tidied wellFormed between in
/-- The left half of a node keeps the properties before the cut, without the section break of the
paragraph. -/
theorem Level.properties_left (level : Level before middle paragraph tail cut id half)
    (inside : before.LiesIn paragraph id) :
    ∃ leading child trailing, before.children id = leading ++ child :: trailing ∧
      before.LiesIn child cut ∧
      (after.children id).filter after.isProperties = leading.filter before.isProperties ∧
      ∀ properties ∈ leading.filter before.isProperties, after.tree properties =
        (if id = paragraph then before.withoutSectionBreak paragraph else before).tree properties := by
  rcases split.exists_outer wellFormed with ⟨outer, isOuter, isOuter', tailOuter, -⟩
  rcases level.cleaved with ⟨child, lefts, rights, cleaved, above, shown⟩
  rcases cleaved.parts with ⟨leading, trailing, copies, around, children_id, -⟩
  have isChild : before.parent child = some id := by
    rw [← wellFormed.mem_children_iff, around]
    simp
  have childShown := between child (LiesIn.of_parent isChild inside) above
  have id_lt := parent_lt_size wellFormed isChild
  have idShown : middle.isProperties id = false := by
    rw [← between id inside (above.trans (LiesIn.parent isChild))]
    exact isProperties_of_content_eq (split.content_eq id id_lt)
  have leading_old : ∀ sibling ∈ leading, sibling ∈ before.children id ∧ sibling ≠ child :=
    fun sibling isMember => isSibling_of_around wellFormed around (List.mem_append_left _ isMember)
  have leadingSame : leading.filter middle.isProperties = leading.filter before.isProperties :=
    List.filter_congr fun sibling isMember => by
      exact isProperties_of_content_eq (split.content_eq sibling
        (lt_size_of_mem_children wellFormed (leading_old sibling isMember).1))
  have leftsNone : lefts.filter middle.isProperties = [] :=
    List.filter_eq_nil_iff.mpr fun part isPart => by
      simp [shown part (List.mem_append_left _ isPart)]
  refine ⟨leading, child, trailing, around, above, ?_, fun properties isMember => ?_⟩
  · rw [tidied.filter_properties split.wellFormed idShown, children_id, List.filter_append,
      leadingSame, leftsNone, List.append_nil]
  have isLeading := List.mem_of_mem_filter isMember
  rcases leading_old properties isLeading with ⟨isSibling, differ⟩
  have isParent : middle.parent properties = some id := by
    rw [← split.wellFormed.mem_children_iff, children_id]
    exact List.mem_append_left _ isLeading
  split
  · rename_i isParagraph
    subst isParagraph
    have isTail : half = tail := level.place.elim And.right fun further => absurd rfl further.1
    subst isTail
    exact split.tree_of_paragraph tidied wellFormed cleaved childShown
      (fun part isPart => shown part (List.mem_append_left _ isPart)) around isLeading isParent
  · rename_i notParagraph
    rw [split.tree_kept tidied wellFormed (Or.inl level.inside) isParent notParagraph,
      cleaved.tree_sibling wellFormed split.size_le split.content_eq isSibling differ]

include split wellFormed in
theorem SplitAlong.tail_ne : paragraph ≠ tail := by
  rcases split.exists_outer wellFormed with ⟨outer, isOuter, -, -, -⟩
  rcases split.ends with ⟨lower, lowerHalves, -, halves_eq⟩
  have isHalf : tail ∈ halves := by simp [halves_eq]
  rcases split.along.exists_cleaved_of_mem isHalf with ⟨_, -, _, _, _, cleaved⟩
  rintro rfl
  exact absurd cleaved.half_new (Nat.not_le_of_lt (lt_size_of_parent isOuter))

include split climbs wellFormed between in
/-- No node between the paragraph and a node on the path is an element of properties. -/
theorem SplitAlong.isProperties_between {other : NodeId} (onPath : id ∈ path)
    (below : middle.LiesIn paragraph other) (above : middle.LiesIn other id) :
    middle.isProperties other = false := by
  rcases split.exists_outer wellFormed with ⟨outer, isOuter, -, -, -⟩
  have above' := (split.liesIn_iff climbs onPath).mp above
  have below' : before.LiesIn paragraph other := by
    have topAbove := (split.liesIn_iff climbs onPath).mp (above.trans below)
    refine (topAbove.total above').elim (fun below => below) fun around => ?_
    have same := below.antisymm split.wellFormed ((split.liesIn_iff climbs split.top_mem).mpr around)
    exact same ▸ LiesIn.refl
  have other_lt := lt_size_below below' (lt_size_of_parent isOuter)
  rw [← between other below' ((climbs.liesIn onPath).trans above')]
  exact isProperties_of_content_eq (split.content_eq other other_lt)

include split tidied climbs wellFormed between in
/-- A left half keeps its place, unless it was a run of the paragraph and is left empty. -/
theorem Level.place_left (level : Level before middle paragraph tail cut id half)
    (onPath : id ∈ path) :
    after.LiesIn paragraph id ∨
      before.parent id = some paragraph ∧ after.isEmptyRun id = true := by
  rcases split.exists_outer wellFormed with ⟨outer, -, isOuter, tailOuter, -⟩
  rcases tidied.place (own_of_siblings split.wellFormed isOuter tailOuter (split.tail_ne wellFormed))
    split.wellFormed level.inside fun other below above =>
      split.isProperties_between wellFormed climbs between onPath below above with
    kept | ⟨isParent, isEmpty⟩
  · exact Or.inl kept
  · exact Or.inr ⟨by rw [← split.parent_above climbs onPath LiesIn.refl, isParent], isEmpty⟩

include split tidied wellFormed climbs between in
/-- A right half stands in the tail, unless it was a run of the paragraph and is left empty. -/
theorem Level.place_right (level : Level before middle paragraph tail cut id half)
    (onPath : id ∈ path) (isHalf : half ∈ halves) :
    after.LiesIn tail half ∨ before.parent id = some paragraph ∧ after.isEmptyRun half = true := by
  rcases split.exists_outer wellFormed with ⟨outer, isOuter', isOuter, tailOuter, -⟩
  have shown : ∀ other, middle.LiesIn tail other → middle.LiesIn other half →
      middle.isProperties other = false := by
    intro other below above
    have isHalf' : other ∈ halves := by
      rcases split.ends with ⟨lower, lowerHalves, -, halves_eq⟩
      rcases split.along with _ | @⟨_, whole, first, _, _, _, rest, -, further⟩
      · cases isHalf
      · refine (further.climbs split.wellFormed).2.mem_of_liesIn split.wellFormed ?_ isHalf above below
        rw [halves_eq]
        simp
    rcases split.along.exists_cleaved_of_mem isHalf' with ⟨id', onPath', _, _, _, cleaved⟩
    rw [← split.isProperties_between wellFormed climbs between onPath'
      ((split.liesIn_iff climbs onPath').mpr (split.liesIn_top climbs onPath')) LiesIn.refl]
    have isOld := lt_size_below (split.liesIn_top climbs onPath') (lt_size_of_parent isOuter')
    exact isProperties_of_content_eq (cleaved.half_content.trans (split.content_eq id' isOld).symm)
  rcases tidied.place (fun run isRun => own_of_siblings split.wellFormed tailOuter isOuter
    (split.tail_ne wellFormed).symm run isRun.symm) split.wellFormed level.insideTail shown with
    kept | ⟨isParent, isEmpty⟩
  · exact Or.inl kept
  · refine Or.inr ⟨?_, isEmpty⟩
    rw [← split.parent_above climbs onPath LiesIn.refl]
    rcases level.place with ⟨-, rfl⟩ | ⟨-, outer', outerHalf, isOuter', isOuterHalf, isTail⟩
    · exact absurd (LiesIn.refl) (not_liesIn_of_parent split.wellFormed isParent)
    · rw [isParent, Option.some.injEq] at isOuterHalf
      rw [isOuter', isTail isOuterHalf.symm]

include split wellFormed climbs between in
theorem SplitAlong.exists_level
    (shown : ∀ part ∈ lefts ++ rights, middle.isProperties part = false) (onPath : id ∈ path) :
    ∃ half ∈ halves, Level before middle paragraph tail cut id half := by
  rcases split.exists_outer wellFormed with ⟨outer, -, -, tailOuter, outer_lt⟩
  rcases split.ends with ⟨lower, lowerHalves, path_eq, halves_eq⟩
  have tailPlace : ∀ outer', middle.parent tail = some outer' → outer'.index < before.size := by
    intro outer' isOuter'
    rw [tailOuter, Option.some.injEq] at isOuter'
    exact isOuter' ▸ outer_lt
  have pathShown : ∀ id ∈ path, before.isProperties id = false := fun id onPath =>
    between id (split.liesIn_top climbs onPath) (climbs.liesIn onPath)
  have isTop : path.getLast? = some paragraph := by simp [path_eq]
  have isTail : halves.getLast? = some tail := by simp [halves_eq]
  exact split.along.levels wellFormed split.wellFormed split.content_eq climbs LiesIn.refl isTop
    isTail tailPlace shown pathShown onPath

include split tidied wellFormed climbs between in
/-- Every node of the path has two halves. -/
theorem SplitAlong.exists_halved
    (shown : ∀ part ∈ lefts ++ rights, middle.isProperties part = false) (onPath : id ∈ path) :
    ∃ half, Halved before after paragraph tail cut id half := by
  rcases split.exists_outer wellFormed with ⟨outer, isOuter, -⟩
  rcases split.exists_level wellFormed climbs between shown onPath with ⟨half, isHalf, level⟩
  have inside := split.liesIn_top climbs onPath
  have id_lt := lt_size_below inside (lt_size_of_parent isOuter)
  rcases level.cleaved with ⟨child, _, _, cleaved, -, -⟩
  exact ⟨half, {
    half_new := cleaved.half_new
    half_of_paragraph := fun same => level.place.elim And.right fun further => absurd same further.1
    content_left := by rw [tidied.drops.content_eq, split.content_eq id id_lt]
    content_right := by rw [tidied.drops.content_eq, cleaved.half_content]
    properties_left := level.properties_left split tidied wellFormed between inside
    properties_right := level.properties_right split tidied wellFormed between inside
    place_left := level.place_left split tidied wellFormed climbs between onPath
    place_right := level.place_right split tidied wellFormed climbs between onPath isHalf }⟩

end Assembly

end Document

end WordTemplate
