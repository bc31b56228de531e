import WordTemplate.Proofs.Document.TextOrder
import WordTemplate.Proofs.Operations
import WordTemplate.Proofs.Word.Levels

/-!
# The head and the tail of a split paragraph

Splitting a paragraph at a text in it always succeeds. The head is the paragraph itself and the tail
its new next sibling; the leaves of the two are those of the paragraph, cut at the carrier of the
text. Every node from the carrier up to the paragraph has a half on either side, with its name, its
attributes and its properties, and the section break goes with the tail.
-/

namespace WordTemplate

namespace Document

variable {before middle after : Document} {paragraph tail cut text : NodeId} {path halves runs : List NodeId}
  {removesText : Bool}

/-- `paragraph` was split at the carrier of `text`, and `tail` has what stood after it. -/
structure FallsApart (before after : Document) (paragraph tail text : NodeId) (removesText : Bool) :
    Prop where
  beside : ∃ outer left rest, before.children outer = left ++ paragraph :: rest ∧
    after.children outer = left ++ paragraph :: tail :: rest
  nextSibling : after.nextSibling? paragraph = some tail
  /-- The leaves in order: those before the cut, those of the carrier, and those after the cut. -/
  leaves : ∃ first unit last, text ∈ unit ∧
    unit = before.leaves before (before.textUnit text) ∧
    before.paragraphLeaves before paragraph = first ++ unit ++ last ∧
    before.paragraphLeaves after paragraph = first ∧
    before.paragraphLeaves after tail = (if removesText then [] else unit) ++ last
  halved : ∀ id, before.LiesIn paragraph id → before.LiesIn id (before.textUnit text) →
    id ≠ before.textUnit text →
    ∃ half, Halved before after paragraph tail (before.textUnit text) id half
  /-- The section break is in the tail only. -/
  headBreak : after.hasSectionBreak paragraph = false
  tailBreak : (after.paragraphProperty? tail Word.Name.sectionProperties).map after.tree =
    (before.paragraphProperty? paragraph Word.Name.sectionProperties).map before.tree

/-- The carrier itself is cut off: its leaves are dropped with it, or go to the right. -/
theorem SplitAlong.parted_cut
    (split : SplitAlong before middle cut paragraph tail [] (if removesText then [] else [cut]) path
      halves)
    (wellFormed : before.WellFormed) (climbs : before.ClimbsFrom cut path)
    (shown : before.isProperties cut = false) (notRun : before.isNamed cut Word.Name.run = false) :
    Parted before middle cut [] (if removesText then [] else [cut]) (before.leaves before cut)
      (if removesText then [] else before.leaves before cut) := by
  rcases split.exists_outer wellFormed with ⟨outer, isOuter, -⟩
  have cut_lt : cut.index < before.size := by
    rcases climbs.exists_holder split.top_mem with ⟨holder, isHolder, -⟩
    exact lt_size_of_parent isHolder
  have notEmpty : ∀ {document : Document}, document.isNamed cut Word.Name.run = false →
      document.isEmptyRun cut = false := fun notRun => by rw [isEmptyRun, notRun, Bool.false_and]
  -- Nothing changes below the carrier, which the path leaves upwards.
  have kept : before.leaves middle cut = before.leaves before cut := by
    refine leaves_congr wellFormed split.wellFormed fun id inside =>
      ⟨split.content_eq id (lt_size_below inside cut_lt), split.children_eq id
        (lt_size_below inside cut_lt) (fun onPath => ?_) fun isOuter' => ?_⟩
    · exact climbs.ne wellFormed onPath ((climbs.liesIn onPath).antisymm wellFormed inside).symm
    · exact not_liesIn_of_parent wellFormed isOuter' (inside.trans (climbs.liesIn split.top_mem))
  have notRun' : middle.isNamed cut Word.Name.run = false := by
    rw [← notRun]
    exact isNamed_of_content_eq (split.content_eq cut cut_lt) _
  refine ⟨⟨[], [], by simp, by simp, ?_⟩, ?_, shown, notEmpty notRun⟩
  · cases removesText <;> simp [kept]
  · intro id isPart isEmpty
    have same : id = cut := by
      cases removesText <;> simp_all
    rw [same, notEmpty notRun'] at isEmpty
    cases isEmpty

theorem nextSibling?_of_children {parent id next : NodeId} {left rest : List NodeId}
    (wellFormed : before.WellFormed) (around : before.children parent = left ++ id :: next :: rest) :
    before.nextSibling? id = some next := by
  have isParent : before.parent id = some parent := by
    rw [← wellFormed.mem_children_iff, around]
    simp
  rcases siblings_around wellFormed isParent with ⟨left', right, around', -, later⟩
  have nodup := wellFormed.nodup_children parent
  rw [around] at nodup around'
  rcases append_cons_inj nodup around' with ⟨-, rfl⟩
  rw [nextSibling?, later, List.head?_cons]

/-- The leaves before the carrier are in the head, and those after it in the tail. -/
theorem SplitAlong.paragraphLeaves
    (split : SplitAlong before middle cut paragraph tail [] (if removesText then [] else [cut]) path
      halves)
    (tidied : Tidied middle after paragraph tail runs) (wellFormed : before.WellFormed)
    (climbs : before.ClimbsFrom cut path) (notRun : before.isNamed cut Word.Name.run = false)
    (between : ∀ id, before.LiesIn paragraph id → before.LiesIn id cut →
      before.isProperties id = false)
    (paragraphShown : middle.isProperties paragraph = false)
    (tailShown : middle.isProperties tail = false) :
    ∃ first last, before.paragraphLeaves before paragraph = first ++ before.leaves before cut ++ last ∧
      before.paragraphLeaves after paragraph = first ∧
      before.paragraphLeaves after tail =
        (if removesText then [] else before.leaves before cut) ++ last := by
  rcases split.exists_outer wellFormed with ⟨outer, -, isOuter, tailOuter, -⟩
  have cutShown := between cut (climbs.liesIn split.top_mem) LiesIn.refl
  rcases split.ends with ⟨lower, lowerHalves, rfl, rfl⟩
  have lowerShown : ∀ id ∈ lower, before.isProperties id = false := fun id isLower =>
    have onPath := List.mem_append_left [paragraph] isLower
    between id (split.liesIn_top climbs onPath) (climbs.liesIn onPath)
  rcases split.along.parted (split.parted_cut wellFormed climbs cutShown notRun) wellFormed
    split.wellFormed split.content_eq lowerShown with ⟨_, _, _, cleaved, parted⟩
  rcases cleaved.paragraphLeaves parted wellFormed split.wellFormed split.content_eq with
    ⟨first, last, all, onLeft, onRight⟩
  have own := own_of_siblings split.wellFormed isOuter tailOuter (split.tail_ne wellFormed)
  have own' := own_of_siblings split.wellFormed tailOuter isOuter (split.tail_ne wellFormed).symm
  refine ⟨first, last, all, ?_, ?_⟩
  · rw [tidied.paragraphLeaves_eq own split.wellFormed before paragraphShown, onLeft]
  · rw [tidied.paragraphLeaves_eq (fun run isRun => own' run isRun.symm) split.wellFormed before
      tailShown, onRight]

/-- A paragraph that was split along the path to the carrier of a text and tidied up falls apart. -/
theorem SplitAlong.fallsApart
    (split : SplitAlong before middle cut paragraph tail [] (if removesText then [] else [cut]) path
      halves)
    (tidied : Tidied middle after paragraph tail runs) (wellFormed : before.WellFormed)
    (climbs : before.ClimbsFrom cut path) (isUnit : before.textUnit text = cut)
    (unitShows : text ∈ before.leaves before cut)
    (notRun : before.isNamed cut Word.Name.run = false)
    (between : ∀ id, before.LiesIn paragraph id → before.LiesIn id cut →
      before.isProperties id = false)
    (isOnPath : ∀ id, before.LiesIn paragraph id → before.LiesIn id cut → id ≠ cut → id ∈ path)
    (single : ∀ properties,
      before.childNamed? paragraph Word.Name.paragraphProperties = some properties →
        ((before.children properties).filter
          (before.isNamed · Word.Name.sectionProperties)).length ≤ 1) :
    FallsApart before after paragraph tail text removesText := by
  subst isUnit
  rcases split.exists_outer wellFormed with ⟨outer, isOuter, isOuter', tailOuter, -⟩
  rcases split.beside with ⟨outer', left, rest, isOuter'', around, around'⟩
  rw [isOuter, Option.some.injEq] at isOuter''
  subst isOuter''
  rw [← tidied.children_outer split.wellFormed isOuter' tailOuter] at around'
  have unitAbove : before.LiesIn paragraph (before.textUnit text) := climbs.liesIn split.top_mem
  have unitShown := between _ unitAbove LiesIn.refl
  have unit_lt := lt_size_below unitAbove (lt_size_of_parent isOuter)
  have shown : ∀ part ∈ [] ++ (if removesText then [] else [before.textUnit text]),
      middle.isProperties part = false := by
    intro part isPart
    have same : part = before.textUnit text := by
      cases removesText <;> simp_all
    rw [same, ← unitShown]
    exact isProperties_of_content_eq (split.content_eq _ unit_lt)
  rcases split.exists_level wellFormed climbs between shown split.top_mem with ⟨half, -, level⟩
  have isTail : half = tail := level.place.elim And.right fun further => absurd rfl further.1
  subst isTail
  rcases level.cleaved with ⟨child, lefts, rights, cleaved, above, partsShown⟩
  have childShown : before.isProperties child = false := by
    rcases cleaved.parts with ⟨_, _, _, around, -⟩
    refine between child (LiesIn.parent ?_) above
    rw [← wellFormed.mem_children_iff, around]
    simp
  have paragraphShown : middle.isProperties paragraph = false := by
    rw [← between paragraph LiesIn.refl unitAbove]
    exact isProperties_of_content_eq (split.content_eq _ (lt_size_of_parent isOuter))
  have tailShown : middle.isProperties half = false := by
    rw [← between paragraph LiesIn.refl unitAbove]
    exact isProperties_of_content_eq cleaved.half_content
  refine ⟨⟨outer, left, rest, around, around'⟩,
    nextSibling?_of_children tidied.drops.wellFormed around', ?_, ?_, ?_, ?_⟩
  · rcases split.paragraphLeaves tidied wellFormed climbs notRun between paragraphShown tailShown with
      ⟨first, last, all, onLeft, onRight⟩
    exact ⟨first, _, last, unitShows, rfl, all, onLeft, onRight⟩
  · intro id below above notUnit
    exact split.exists_halved tidied wellFormed climbs between shown (isOnPath id below above notUnit)
  · exact tidied.hasSectionBreak_eq_false split.wellFormed paragraphShown fun _ =>
      cleaved.single_of_single wellFormed split.content_eq childShown
        (fun part isPart => partsShown part (List.mem_append_left _ isPart)) single
  · rw [paragraphProperty?_tree tidied.drops.wellFormed, paragraphProperty?_tree wellFormed,
      level.properties_right split tidied wellFormed between LiesIn.refl]

end Document

namespace Edit

open Outcome Document

variable {document : Document} {paragraph cut outer text : NodeId}

/-- A paragraph can be split along the path that climbs to it from a node in it. -/
theorem exists_cut (wellFormed : document.WellFormed)
    (isOuter : document.parent paragraph = some outer) (above : document.LiesIn paragraph cut)
    (differ : paragraph ≠ cut)
    (between : ∀ id, document.LiesIn paragraph id → document.LiesIn id cut →
      document.isProperties id = false) (removesText : Bool) :
    ∃ tail split middle halves,
      splitUpTo paragraph (!removesText) cut (document.ancestors cut) document = .ok tail split ∧
      middle = (if removesText then split.detach cut else split) ∧
      SplitAlong document middle cut paragraph tail [] (if removesText then [] else [cut])
        (pathTo paragraph (document.ancestors cut)) halves := by
  have climbs := climbsFrom_ancestors wellFormed cut
  have isAncestor : paragraph ∈ document.ancestors cut :=
    ((mem_ancestors_iff wellFormed).mpr above).resolve_left differ.symm
  have pathShown : ∀ id ∈ pathTo paragraph (document.ancestors cut),
      document.isProperties id = false := fun id onPath =>
    between id (climbs.liesIn_of_mem_pathTo isAncestor onPath)
      (climbs.liesIn (pathTo_subset _ onPath))
  rcases exists_splitAlong wellFormed climbs isAncestor isOuter
    (between cut above LiesIn.refl) pathShown (!removesText) with ⟨tail, split, halves, done, along⟩
  refine ⟨tail, split, _, halves, done, rfl, ?_⟩
  cases removesText with
  | false => exact along
  | true =>
      have along : SplitAlong document split cut paragraph tail [cut] [] _ halves := along
      exact along.detach_cut wellFormed (climbs.pathTo paragraph)

/-- Splitting a paragraph at a text in it succeeds and parts it in two, provided that no properties
stand between the two and that the first properties of the paragraph have one section break at
most. -/
theorem splitParagraph_fallsApart (wellFormed : document.WellFormed)
    (isOuter : document.parent paragraph = some outer) (isText : document.isText text = true)
    (inParagraph : document.paragraph? text = some paragraph)
    (between : ∀ id, document.LiesIn paragraph id → document.LiesIn id text →
      document.isProperties id = false)
    (single : ∀ properties,
      document.childNamed? paragraph Word.Name.paragraphProperties = some properties →
        ((document.children properties).filter
          (document.isNamed · Word.Name.sectionProperties)).length ≤ 1)
    (removesText : Bool) :
    ∃ tail after, splitParagraph paragraph text removesText document = .ok tail after ∧
      FallsApart document after paragraph tail text removesText := by
  rcases textUnit_of_paragraph? wellFormed isText inParagraph with
    ⟨named, above, differ, unitShown, notRun⟩
  have between' : ∀ id, document.LiesIn paragraph id →
      document.LiesIn id (document.textUnit text) → document.isProperties id = false :=
    fun id below above => between id below ((liesIn_textUnit document text).trans above)
  have text_lt : text.index < document.size := by
    rcases textUnit_cases document text with ⟨same, -⟩ | ⟨isHolder, -⟩
    · rw [same] at above differ
      exact lt_size_below above (lt_size_of_parent isOuter)
    · exact lt_size_of_parent isHolder
  have unitShows := mem_leaves_textUnit wellFormed isText text_lt
  have climbs := climbsFrom_ancestors wellFormed (document.textUnit text)
  have pathClimbs := climbs.pathTo paragraph
  have isOnPath : ∀ id, document.LiesIn paragraph id →
      document.LiesIn id (document.textUnit text) → id ≠ document.textUnit text →
      id ∈ pathTo paragraph (document.ancestors (document.textUnit text)) :=
    fun id below above notUnit => mem_pathTo_of_liesIn wellFormed climbs
      (((mem_ancestors_iff wellFormed).mpr above).resolve_left notUnit.symm) below
  rcases exists_cut wellFormed isOuter above differ between' removesText with
    ⟨tail, cutOff, middle, halves, cutDone, isMiddle, split⟩
  generalize isUnit : document.textUnit text = cut at *
  generalize pathTo paragraph (document.ancestors cut) = path at *
  have named' : middle.isNamed paragraph Word.Name.paragraph = true := by
    rw [← named]
    exact isNamed_of_content_eq (split.content_eq paragraph (lt_size_of_parent isOuter)) _
  rcases exists_tidied split.wellFormed named' tail with ⟨after, runs, tidyDone, tidied⟩
  refine ⟨tail, after, ?_, split.fallsApart tidied wellFormed pathClimbs isUnit unitShows notRun
    between' isOnPath single⟩
  simp only [bind_eq_ok] at tidyDone
  rcases tidyDone with ⟨_, unbroken, breakDone, _, headTidied, headDone, tailDone⟩
  cases removesText
  · simp only [splitParagraph, get_bind, inParagraph, isUnit, ne_eq, not_true_eq_false, if_false,
      Bool.false_eq_true, bind_eq_ok, pure_eq_ok]
    exact ⟨tail, cutOff, cutDone, _, unbroken, isMiddle ▸ breakDone, _, headTidied, headDone, _, after,
      tailDone, rfl, rfl⟩
  · simp only [splitParagraph, get_bind, inParagraph, isUnit, ne_eq, not_true_eq_false, if_false,
      if_true, bind_eq_ok, pure_eq_ok, detach_eq_ok]
    exact ⟨tail, cutOff, cutDone, ⟨⟩, middle, isMiddle, _, unbroken, breakDone, _, headTidied,
      headDone, _, after, tailDone, rfl, rfl⟩

/-- A paragraph that ends a section, with formatted text in a link. -/
def linkedText : Document :=
  .ofTree (Tree.node "w:body" []
    [Tree.node "w:p" []
      [Tree.node "w:pPr" [] [Tree.node "w:jc" [] [], Tree.node "w:sectPr" [] []],
        Tree.node "w:hyperlink" []
          [Tree.node "w:r" []
            [Tree.node "w:rPr" [] [Tree.node "w:b" [] []],
              Tree.node "w:t" [] [.text "a"], Tree.node "w:br" [] [],
              Tree.node "w:t" [] [.text "b"]]],
        Tree.node "w:r" [] [Tree.node "w:t" [] [.text "c"]]]])

theorem splitParagraph_fallsApart_linkedText :
    linkedText.paragraphLeaves linkedText ⟨2⟩ = [⟨11⟩, ⟨12⟩, ⟨14⟩, ⟨17⟩] ∧
      ∃ tail after, splitParagraph ⟨2⟩ ⟨14⟩ true linkedText = .ok tail after ∧
        FallsApart linkedText after ⟨2⟩ tail ⟨14⟩ true := by
  have wellFormed : linkedText.WellFormed := wellFormed_ofTree _
  have isOuter : linkedText.parent ⟨2⟩ = some ⟨1⟩ := by decide +kernel
  refine ⟨by decide +kernel, splitParagraph_fallsApart wellFormed isOuter (by decide +kernel)
    (by decide +kernel) ?_ ?_ true⟩
  · have each : ∀ id ∈ (⟨14⟩ : NodeId) :: linkedText.ancestors ⟨14⟩,
        linkedText.isProperties id = false := by decide +kernel
    intro id _ above
    rcases (mem_ancestors_iff wellFormed).mpr above with rfl | isAbove
    · exact each _ List.mem_cons_self
    · exact each id (List.mem_cons_of_mem _ isAbove)
  · have isFirst : linkedText.childNamed? ⟨2⟩ Word.Name.paragraphProperties = some ⟨3⟩ := by
      decide +kernel
    rintro properties isProperties
    rw [isFirst, Option.some.injEq] at isProperties
    subst isProperties
    decide +kernel

/-- A paragraph whose properties have two section breaks. -/
def twoSectionBreaks : Document :=
  .ofTree (Tree.node "w:body" []
    [Tree.node "w:p" []
      [Tree.node "w:pPr" [] [Tree.node "w:sectPr" [] [], Tree.node "w:sectPr" [] []],
        Tree.node "w:r" [] [Tree.node "w:t" [] [.text "a"]]]])

/-- Of two section breaks the second one stays in the head. -/
theorem hasSectionBreak_of_twoSectionBreaks :
    twoSectionBreaks.isAttached ⟨2⟩ = true ∧ twoSectionBreaks.parent ⟨2⟩ = some ⟨1⟩ ∧
      twoSectionBreaks.isText ⟨8⟩ = true ∧ twoSectionBreaks.paragraph? ⟨8⟩ = some ⟨2⟩ ∧
      (∀ id ∈ (⟨8⟩ : NodeId) :: twoSectionBreaks.ancestors ⟨8⟩,
        twoSectionBreaks.isProperties id = false) ∧
      ∃ tail after, splitParagraph ⟨2⟩ ⟨8⟩ true twoSectionBreaks = .ok tail after ∧
        after.hasSectionBreak ⟨2⟩ = true := by
  have breaks : (match splitParagraph ⟨2⟩ ⟨8⟩ true twoSectionBreaks with
      | .ok _ after => after.hasSectionBreak ⟨2⟩
      | .error _ _ => false) = true := by decide +kernel
  refine ⟨by decide +kernel, by decide +kernel, by decide +kernel, by decide +kernel,
    by decide +kernel, ?_⟩
  split at breaks
  · next tail after done => exact ⟨tail, after, done, breaks⟩
  · cases breaks

end Edit

end WordTemplate
