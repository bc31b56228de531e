import WordTemplate.Markup.Printer
import WordTemplate.Proofs.Filling.Compiling
import WordTemplate.Proofs.Filling.Dispatching
import WordTemplate.Proofs.Leaf.Sparing
import WordTemplate.Proofs.Tag.Sites

/-!
# What no tag touches

A child of the body that holds no text of a tag and does not lie inside a container has the tags on its
two sides. Those before it are taken out and filled without an edit on the other side, and then those
after it, because no container reaches over it. So the child and everything below it is as it was, and
what stood before it still does.
-/

namespace WordTemplate.Compiler

open Document Outcome Shelter

variable {shelter : Shelter} {compiler : Compiler} {context : Context} {style : HidingStyle}
  {workspace after : Workspace} {tag : Tag} {tags : List Tag} {result : Unit}

theorem keepsIn_pluginFor (isStandard : compiler.plugins = Plugin.standard style) :
    shelter.KeepsIn (compiler.pluginFor context tag) workspace fun plugin _ =>
      plugin ∈ Plugin.standard style := by
  intro holds plugin after done
  rcases idles_of_pluginFor done with ⟨idles, contentType, found, -⟩
  refine ⟨?_, isStandard ▸ mem_of_plugin? found⟩
  rw [idles.document_eq]
  exact Spares.refl holds

theorem keepsIn_fillLeaf (isStandard : compiler.plugins = Plugin.standard style)
    (services : context.services.Idle)
    (textOpen : shelter.Open workspace.document tag.textNode) :
    shelter.KeepsIn (compiler.fillLeaf context tag) workspace fun _ _ => True := by
  refine KeepsIn.withPart ?_
  refine (keepsIn_pluginFor isStandard).bind ?_
  intro plugin found toFound isMember
  refine (KeepsIn.of_dispatch tag).bind ?_
  intro _ dispatched toDispatched _
  exact Plugin.keepsIn_replaceLeaf isMember services
    ((toFound.trans toDispatched).isOpen textOpen)

theorem keepsIn_fillRegion {region : Region} (isStandard : compiler.plugins = Plugin.standard style)
    (keeps : shelter.KeepsTags (compiler.regionCompiler context region))
    (opensIn : shelter.Open workspace.document region.openingTag.textNode)
    (closesIn : shelter.Open workspace.document region.closingTag.textNode) :
    shelter.KeepsIn (compiler.fillRegion context region) workspace fun _ _ => True := by
  refine KeepsIn.withPart ?_
  refine (keepsIn_pluginFor isStandard).bind ?_
  intro plugin found toFound isMember
  exact Plugin.keepsIn_replaceRegion isMember keeps (toFound.isOpen opensIn)
    (toFound.isOpen closesIn)

/-- Filling tags of the zone spares what is sheltered. -/
theorem keepsIn_fillTags (isStandard : compiler.plugins = Plugin.standard style)
    (services : context.services.Idle)
    (tagsOpen : ∀ tag ∈ tags, shelter.Open workspace.document tag.textNode) :
    shelter.KeepsIn (compiler.fillTags context tags) workspace fun _ _ => True := by
  induction tags using fillTags.induct compiler generalizing workspace with
  | case1 =>
      rw [fillTags]
      exact KeepsIn.of_pure trivial
  | case2 tag rest isSkipped inductionHypothesis =>
      rw [fillTags, if_pos isSkipped]
      refine (KeepsIn.of_edit (Edit.keeps_setText
        (tagsOpen tag List.mem_cons_self).inZone _)).bind ?_
      intro _ written toWritten _
      exact inductionHypothesis fun other isMember =>
        toWritten.isOpen (tagsOpen other (List.mem_cons_of_mem _ isMember))
  | case3 tag rest notSkipped isLeaf inductionHypothesis =>
      rw [fillTags, if_neg notSkipped]
      simp only [isLeaf]
      refine (keepsIn_fillLeaf isStandard services (tagsOpen tag List.mem_cons_self)).bind ?_
      intro _ filled toFilled _
      exact inductionHypothesis fun other isMember =>
        toFilled.isOpen (tagsOpen other (List.mem_cons_of_mem _ isMember))
  | case4 tag rest notSkipped isClosing inductionHypothesis =>
      rw [fillTags, if_neg notSkipped]
      simp only [isClosing]
      have ignored : shelter.KeepsIn (Work.withPart (.key tag.name) do
          discard (compiler.pluginFor context tag)
          Work.note .warn
            ("Ignoring close tag '" ++ tag.rawText ++ "' without a matching open tag"))
          workspace fun _ _ => True := by
        refine KeepsIn.withPart ?_
        refine (keepsIn_pluginFor isStandard).discard.bind ?_
        intro _ found _ _
        exact (KeepsIn.of_note _ _).imp fun _ _ _ _ => trivial
      refine ignored.bind ?_
      intro _ noted toNoted _
      exact inductionHypothesis fun other isMember =>
        toNoted.isOpen (tagsOpen other (List.mem_cons_of_mem _ isMember))
  | case5 tag rest notSkipped container isOpening unclosed =>
      rw [fillTags_of_unclosed isOpening unclosed (by simpa using notSkipped)]
      refine KeepsIn.withPart ?_
      refine (keepsIn_pluginFor isStandard).discard.bind ?_
      intro _ found _ _
      exact KeepsIn.of_throw
  | case6 tag rest notSkipped container isOpening inner closing later split innerHypothesis
      laterHypothesis =>
      rw [fillTags_of_closed isOpening split (by simpa using notSkipped)]
      have keeps : shelter.KeepsTags (compiler.regionCompiler context ⟨tag, inner, closing⟩) := by
        intro tags fits start tagsOpen
        refine (KeepsIn.of_announce context tags).bind ?_
        intro _ announced toAnnounced _
        exact innerHypothesis tags fits fun other isMember =>
          toAnnounced.isOpen (tagsOpen other isMember)
      have isClosing : closing ∈ rest := by
        rw [← append_eq_of_splitAtClosing? split]
        simp
      refine (keepsIn_fillRegion isStandard keeps (tagsOpen tag List.mem_cons_self)
        (tagsOpen closing (List.mem_cons_of_mem _ isClosing))).bind ?_
      intro _ filled toFilled _
      refine laterHypothesis fun other isMember => toFilled.isOpen (tagsOpen other ?_)
      refine List.mem_cons_of_mem _ ?_
      rw [← append_eq_of_splitAtClosing? split]
      exact List.mem_append_right _ (List.mem_cons_of_mem _ isMember)

end WordTemplate.Compiler

namespace WordTemplate

open Document Outcome

namespace Compiler

variable {compiler : Compiler} {context : Context} {style : HidingStyle}
  {before after workspace : Workspace} {result : Unit}

/-! ## Containers -/

/-- Whether a tag opens a container when it is filled. -/
def opens (compiler : Compiler) (tag : Tag) : Bool :=
  match tag.kind with
  | .opening _ => !(tag.name.isEmpty && compiler.options.skipEmptyTags)
  | _ => false

/-- The containers among tags that are filled one after the other, each by its opening tag and its
closing tag, where `pending` is an opening tag whose closing tag is still to come. What is inside a
container is not listed. -/
def containers (compiler : Compiler) : Option TagSite → List TagSite → List (TagSite × TagSite)
  | _, [] => []
  | none, site :: later =>
      if compiler.opens site.tag then containers compiler (some site) later
      else containers compiler none later
  | some opening, site :: later =>
      if site.tag.closes opening.tag.name then (opening, site) :: containers compiler none later
      else containers compiler (some opening) later

theorem containers_of_not_closes {opening : TagSite} {inner later : List TagSite}
    (others : ∀ tag ∈ inner.map TagSite.tag, tag.closes opening.tag.name = false) :
    compiler.containers (some opening) (inner ++ later) = compiler.containers (some opening) later := by
  induction inner with
  | nil => rfl
  | cons site inner inductionHypothesis =>
      rw [List.map_cons, List.forall_mem_cons] at others
      rw [List.cons_append, containers, others.1, if_neg (by decide), inductionHypothesis others.2]

/-- An opening tag has a closing tag if there is one of its name. -/
theorem exists_container {opening : TagSite} {later : List TagSite} {inner rest : List Tag}
    {closing : Tag}
    (split : splitAtClosing? opening.tag.name (later.map TagSite.tag) = some (inner, closing, rest)) :
    ∃ site ∈ later, (opening, site) ∈ compiler.containers (some opening) later := by
  rcases List.map_eq_append_iff.mp (append_eq_of_splitAtClosing? split).symm with
    ⟨inner, behind, rfl, rfl, isBehind⟩
  rcases List.map_eq_cons_iff.mp isBehind with ⟨site, rest, rfl, rfl, rfl⟩
  rcases closes_of_splitAtClosing? split with ⟨others, closes⟩
  refine ⟨site, by simp, ?_⟩
  rw [containers_of_not_closes others, containers, if_pos closes]
  exact List.mem_cons_self

/-- A tag that opens no container is filled on its own. -/
theorem exists_work_of_not_opens {tag : Tag} (alone : compiler.opens tag = false) :
    ∃ work : Work Unit, ∀ rest, compiler.fillTags context (tag :: rest) =
      (do work; compiler.fillTags context rest) := by
  by_cases isSkipped : (tag.name.isEmpty && compiler.options.skipEmptyTags) = true
  · refine ⟨Edit.setText tag.textNode tag.rawText, fun rest => ?_⟩
    rw [fillTags, if_pos isSkipped]
  · rcases kind : tag.kind with _ | container | _
    · refine ⟨compiler.fillLeaf context tag, fun rest => ?_⟩
      rw [fillTags, if_neg isSkipped]
      simp only [kind]
      rfl
    · simp [opens, kind, isSkipped] at alone
    · refine ⟨Work.withPart (.key tag.name) do
        discard (compiler.pluginFor context tag)
        Work.note .warn ("Ignoring close tag '" ++ tag.rawText ++ "' without a matching open tag"),
        fun rest => ?_⟩
      rw [fillTags, if_neg isSkipped]
      simp only [kind]

theorem opening_of_opens {tag : Tag} (isOpening : compiler.opens tag = true) :
    (tag.name.isEmpty && compiler.options.skipEmptyTags) = false ∧
      ∃ container, tag.kind = .opening container := by
  rw [opens] at isOpening
  split at isOpening
  · next container kind => exact ⟨(Bool.not_eq_true' _).mp isOpening, container, kind⟩
  · cases isOpening

/-- Tags are filled one part after the other, unless a container reaches from the one part into the
other. -/
theorem exists_of_fillTags_append {former latter : List TagSite}
    (done : compiler.fillTags context ((former ++ latter).map TagSite.tag) workspace =
      .ok result after) :
    (∃ middle, compiler.fillTags context (former.map TagSite.tag) workspace = .ok ⟨⟩ middle ∧
      compiler.fillTags context (latter.map TagSite.tag) middle = .ok result after) ∨
      ∃ opening ∈ former, ∃ closing ∈ latter,
        (opening, closing) ∈ compiler.containers none (former ++ latter) := by
  induction lengths : former.length using Nat.strongRecOn generalizing former workspace with
  | _ size inductionHypothesis =>
      subst lengths
      rcases former with _ | ⟨site, former⟩
      · rw [List.nil_append] at done
        rw [List.map_nil, fillTags]
        exact Or.inl ⟨workspace, rfl, done⟩
      rw [List.cons_append, List.map_cons] at done
      rw [List.map_cons, List.cons_append, containers]
      rcases isOpening : compiler.opens site.tag with _ | _
      · rcases exists_work_of_not_opens isOpening with ⟨work, filled⟩
        rw [filled] at done ⊢
        rcases bind_eq_ok.mp done with ⟨⟨⟩, middle, workDone, laterDone⟩
        rw [if_neg Bool.false_ne_true]
        rcases inductionHypothesis _ (Nat.lt_succ_self _) laterDone rfl with
          ⟨last, formerDone, latterDone⟩ | ⟨opening, isFormer, closing, isLatter, isContainer⟩
        · exact Or.inl ⟨last, bind_eq_ok.mpr ⟨⟨⟩, middle, workDone, formerDone⟩, latterDone⟩
        · exact Or.inr ⟨opening, List.mem_cons_of_mem _ isFormer, closing, isLatter, isContainer⟩
      · rw [if_pos rfl]
        rcases opening_of_opens isOpening with ⟨notSkipped, container, kind⟩
        rcases split : splitAtClosing? site.tag.name (former.map TagSite.tag) with
          _ | ⟨inner, closing, rest⟩
        · -- The closing tag is in the other part.
          have others := not_closes_of_splitAtClosing? split
          rcases behind : splitAtClosing? site.tag.name (latter.map TagSite.tag) with
            _ | ⟨inner, closing, rest⟩
          · have unclosed := splitAtClosing?_append_eq_none split behind
            rw [← List.map_append] at unclosed
            rw [fillTags_of_unclosed kind unclosed notSkipped, Work.withPart_eq_ok] at done
            rcases done with ⟨inner, failed, -⟩
            rcases bind_eq_ok.mp failed with ⟨⟨⟩, middle, -, thrown⟩
            exact absurd thrown throw_ne_ok
          · rcases exists_container behind with ⟨closing, isLatter, isContainer⟩
            rw [containers_of_not_closes others]
            exact Or.inr ⟨site, List.mem_cons_self, closing, isLatter, isContainer⟩
        · have closed := closes_of_splitAtClosing? split
          rcases List.map_eq_append_iff.mp (append_eq_of_splitAtClosing? split).symm with
            ⟨inner, behind, rfl, rfl, isBehind⟩
          rcases List.map_eq_cons_iff.mp isBehind with ⟨closingSite, later, rfl, rfl, rfl⟩
          have split' : splitAtClosing? site.tag.name
              ((inner ++ closingSite :: later ++ latter).map TagSite.tag) =
                some (inner.map TagSite.tag, closingSite.tag, (later ++ latter).map TagSite.tag) := by
            rw [List.map_append, splitAtClosing?_append split, List.map_append]
          rw [fillTags_of_closed kind split' notSkipped] at done
          rcases bind_eq_ok.mp done with ⟨⟨⟩, middle, regionDone, laterDone⟩
          rw [fillTags_of_closed kind split notSkipped, List.append_assoc,
            containers_of_not_closes closed.1, List.cons_append, containers, if_pos closed.2]
          have shorter : later.length < (site :: (inner ++ closingSite :: later)).length := by
            simp only [List.length_cons, List.length_append]
            omega
          rcases inductionHypothesis _ shorter laterDone rfl with
            ⟨last, formerDone, latterDone⟩ | ⟨opening, isFormer, other, isLatter, isContainer⟩
          · exact Or.inl ⟨last, bind_eq_ok.mpr ⟨⟨⟩, middle, regionDone, formerDone⟩, latterDone⟩
          · exact Or.inr ⟨opening, by simp [isFormer], other, isLatter,
              List.mem_cons_of_mem _ isContainer⟩

end Compiler

/-! ## Children of the body -/

/-- A document with a body that no paragraph, run, text, table row or content control encloses and in
which no run is. The scan meets every text node, and nothing is below a text node. -/
structure Document.Bodied (document : Document) (levels : Nat) (body : NodeId) : Prop where
  wellFormed : document.WellFormed
  detached : document.parent document.root = none
  inStore : document.root.index < document.size
  childless : document.TextChildless
  visited : ∀ text ∈ document.texts document.root,
    ∃ segment ∈ document.segments levels document.root, text ∈ segment
  isBody : document.isNamed body Word.Name.body = true
  attached : document.LiesIn document.root body
  around : ∀ id, document.LiesIn id body → ∀ name ∈ Word.Name.enclosing,
    document.isNamed id name = false
  children : ∀ child ∈ document.children body, document.isNamed child Word.Name.run = false

namespace Compiler

variable {compiler : Compiler} {context : Context} {style : HidingStyle}
  {before after : Workspace} {body core id : NodeId} {kept : List NodeId} {result : Unit}

/-- The tags of a document, with where they stand. -/
def sites (compiler : Compiler) (document : Document) : List TagSite :=
  Extraction.sites compiler.delimiters (Scan.run compiler.delimiters compiler.options.maxDepth document
    document.root).marks document

/-- A node holds no text that stands within the text of a tag and does not lie between the tags of a
container. -/
structure Untouched (compiler : Compiler) (document : Document) (id : NodeId) : Prop where
  outside : ∀ site ∈ compiler.sites document, ∀ text ∈ document.texts id,
    ¬site.Covers document document.root text
  between : ∀ pair ∈ compiler.containers none (compiler.sites document),
    ¬[pair.1.first, id, pair.2.first].Sublist (document.subtree document.root)

/-- Filling tags on both sides of a node leaves it alone. -/
theorem exists_divides_of_fillTags {former latter : List Tag}
    {above : NodeId → Prop} {part : Side → NodeId → Prop} {middle : Workspace}
    (isStandard : compiler.plugins = Plugin.standard style) (services : context.services.Idle)
    (divided : before.document.Divided core above part)
    (isBefore : ∀ tag ∈ former, part .before tag.textNode)
    (isAfter : ∀ tag ∈ latter, part .after tag.textNode)
    (formerDone : compiler.fillTags context former before = .ok ⟨⟩ middle)
    (latterDone : compiler.fillTags context latter middle = .ok result after) :
    ∃ part', Divides before.document after.document core above part part' := by
  have toMiddle := divided.divides_of_spares (keepsIn_fillTags isStandard services
    (fun tag isTag => divided.isOpen (isBefore tag isTag)) (divided.holds .before) _ _ formerDone).1
  have toAfter := toMiddle.divided.divides_of_spares (keepsIn_fillTags isStandard services
    (fun tag isTag => toMiddle.divided.isOpen (toMiddle.grows (isAfter tag isTag)))
    (toMiddle.divided.holds .after) _ _ latterDone).1
  exact ⟨_, toMiddle.trans toAfter divided.wellFormed⟩

/-- A child of the body divides the document. -/
theorem divided_of_bodied {document : Document} {levels : Nat} (bodied : document.Bodied levels body)
    (isChild : core ∈ document.children body) :
    document.Divided core (fun id => document.LiesIn id core ∧ id ≠ core) (document.standsOn core) := by
  have wellFormed := bodied.wellFormed
  have isParent := (wellFormed.mem_children_iff _ _).mp isChild
  have names : ∀ id name, document.LiesIn id core → id ≠ core → name ∈ Word.Name.enclosing →
      document.isNamed id name = false := by
    intro id name inside differ isEnclosing
    rcases inside.cases_above isParent with rfl | inside
    · exact absurd rfl differ
    · exact bodied.around id inside name isEnclosing
  have notText : ∀ id, document.LiesIn id core → id ≠ core → document.isText id = false := by
    intro id around differ
    rcases around.cases_child with same | ⟨child, isParent, -⟩
    · exact absurd same.symm differ
    · exact bodied.childless.notText wellFormed isParent
  exact divided_of_names wellFormed (lt_size_of_parent isParent) names (bodied.children core isChild)
    notText

/-- Compiling edits the two sides of an untouched child of the body. -/
theorem exists_divides_of_compile (isStandard : compiler.plugins = Plugin.standard style)
    (usable : compiler.delimiters.validate = .ok ()) (services : context.services.Idle)
    (bodied : before.document.Bodied compiler.options.maxDepth body)
    (isChild : core ∈ before.document.children body)
    (untouched : compiler.Untouched before.document core)
    (done : compiler.compile context before.document.root before = .ok result after) :
    ∃ part', Divides before.document after.document core
      (fun id => before.document.LiesIn id core ∧ id ≠ core) (before.document.standsOn core) part' := by
  have wellFormed := bodied.wellFormed
  have isParent := (wellFormed.mem_children_iff _ _).mp isChild
  have inside := (LiesIn.parent isParent).trans bodied.attached
  have divided := divided_of_bodied bodied isChild
  have leading : before.document.Leading before.document.root
      (before.document.texts before.document.root) :=
    ⟨wellFormed, bodied.inStore, bodied.detached, bodied.childless, List.prefix_refl _⟩
  simp only [compile, compileTags, bind_eq_ok] at done
  rcases done with ⟨tags, taken, takeDone, ⟨⟩, announced, announceDone, fillDone⟩
  rcases takeTags_eq_ok takeDone with ⟨takeDone, -⟩
  rcases Extraction.exists_of_takeTags divided inside leading usable bodied.visited untouched.outside
    takeDone with ⟨part₁, former, latter, toTaken, isSites, rfl, isText, isFormer, isLatter⟩
  have isSites : compiler.sites before.document = former ++ latter := isSites
  have sameDocument := (idles_of_announce announceDone).document_eq
  rw [← List.map_append] at fillDone
  rcases exists_of_fillTags_append fillDone with
    ⟨middle, formerDone, latterDone⟩ | ⟨opening, isOpening, closing, isClosing, isContainer⟩
  · rw [← sameDocument] at toTaken
    have isBefore : ∀ tag ∈ former.map TagSite.tag, part₁ .before tag.textNode :=
      List.forall_mem_map.mpr fun site isSite => (isFormer site isSite).2
    have isAfter : ∀ tag ∈ latter.map TagSite.tag, part₁ .after tag.textNode :=
      List.forall_mem_map.mpr fun site isSite => (isLatter site isSite).2
    rcases exists_divides_of_fillTags isStandard services toTaken.divided isBefore isAfter formerDone
      latterDone with ⟨part', toAfter⟩
    exact ⟨part', toTaken.trans toAfter wellFormed⟩
  · -- A container around the child has its tags on both sides.
    have isMember : ∀ site ∈ former ++ latter,
        site.first ∈ before.document.subtree before.document.root := fun site isSite =>
      List.mem_of_mem_filter (isText site isSite)
    exact absurd (divided.sublist_subtree inside (isFormer opening isOpening).1
      (isLatter closing isClosing).1 (isMember opening (List.mem_append_left _ isOpening))
      (isMember closing (List.mem_append_right _ isClosing)))
      (untouched.between (opening, closing) (isSites ▸ isContainer))

/-- **What no tag touches is preserved.** Children of the body that hold no text within the text of a
tag and do not lie inside a container are still children of the body in the same order, and they are
written as before. -/
theorem preserved_of_untouched (isStandard : compiler.plugins = Plugin.standard style)
    (usable : compiler.delimiters.validate = .ok ()) (services : context.services.Idle)
    (bodied : before.document.Bodied compiler.options.maxDepth body)
    (areChildren : kept.Sublist (before.document.children body))
    (untouched : ∀ id ∈ kept, compiler.Untouched before.document id)
    (done : compiler.compile context before.document.root before = .ok result after) :
    kept.Sublist (after.document.children body) ∧ ∀ id ∈ kept,
      after.document.isAttached id = true ∧
        after.document.nodeMarkup id = before.document.nodeMarkup id := by
  have wellFormed := bodied.wellFormed
  have dividesAll := fun id (isKept : id ∈ kept) => exists_divides_of_compile isStandard usable services
    bodied (areChildren.subset isKept) (untouched id isKept) done
  constructor
  · clear untouched
    induction kept with
    | nil => exact List.nil_sublist _
    | cons id kept inductionHypothesis =>
        have isChild := areChildren.subset List.mem_cons_self
        rcases dividesAll id List.mem_cons_self with ⟨part', divides⟩
        rcases List.cons_sublist_iff.mp areChildren with ⟨lead, behind, children, isLead, isBehind⟩
        rcases List.append_of_mem isLead with ⟨earlier, between, rfl⟩
        rw [List.append_assoc, List.cons_append] at children
        refine divides.cons_sublist_children (divided_of_bodied bodied isChild)
          ((wellFormed.mem_children_iff _ _).mp isChild) (fun sibling isSibling => ?_)
          (inductionHypothesis (List.sublist_of_cons_sublist areChildren) fun other isKept =>
            dividesAll other (List.mem_cons_of_mem _ isKept))
        exact ⟨body, earlier, id, between ++ behind, children, LiesIn.refl, sibling,
          List.mem_append_right _ (isBehind.subset isSibling), LiesIn.refl⟩
  · intro id isKept
    have isChild := areChildren.subset isKept
    rcases dividesAll id isKept with ⟨part', divides⟩
    have inside := (LiesIn.parent ((wellFormed.mem_children_iff _ _).mp isChild)).trans bodied.attached
    refine ⟨?_, ?_⟩
    · rw [isAttached_iff divides.divided.wellFormed, divides.root_eq]
      exact divides.liesIn_core (divided_of_bodied bodied isChild) inside
    · rw [nodeMarkup, nodeMarkup, divides.tree_core wellFormed]

/-- What a document is after compiling, if that succeeds. -/
def compiled? (compiler : Compiler) (context : Context) (document : Document) : Option Document :=
  match compiler.compile context document.root { document } with
  | .ok _ after => some after.document
  | .error _ _ => none

theorem exists_of_compiled? {document after : Document}
    (found : compiler.compiled? context document = some after) :
    ∃ workspace, compiler.compile context document.root { document } = .ok ⟨⟩ workspace ∧
      workspace.document = after := by
  rw [compiled?] at found
  split at found
  · next workspace done => exact ⟨workspace, done, Option.some.inj found⟩
  · cases found

/-- A paragraph with a run of text. -/
def textParagraph (characters : String) : Tree :=
  .node "w:p" [] [.node "w:r" [] [.node "w:t" [] [.text characters]]]

/-- A body with a paragraph, a loop, a table and the properties of a section. -/
def framedLoop : Document :=
  .ofTree (.node "w:document" [] [.node "w:body" [] [
    textParagraph "before", textParagraph "\x7b#a\x7d", textParagraph "\x7bn\x7d",
    textParagraph "\x7b/a\x7d",
    .node "w:tbl" [] [.node "w:tr" [] [.node "w:tc" [] [textParagraph "cell"]]],
    .node "w:sectPr" [] []]])

/-- Data for two repetitions of a loop. -/
def twiceData : Context where
  part := "word/document.xml"
  data := .object [("a", .array [.object [("n", .string "1")], .object [("n", .string "2")]])]

/-- A tag that reaches over three paragraphs, of which the middle one has an empty text node. -/
def tagAcross : Document :=
  .ofTree (.node "w:document" [] [.node "w:body" [] [
    textParagraph "\x7ba", textParagraph "", textParagraph "b\x7d"]])

/-- A body inside a paragraph. The content control in the body holds a tag. -/
def enclosedBody : Document :=
  .ofTree (.node "w:document" [] [.node "w:p" [] [.node "w:body" [] [
    .node "w:sdt" [] [.text "\x7ba\x7d"], .node "w:p" [] []]]])

/-- Data for raw markup that replaces a paragraph by nothing. -/
def removalData : Context where
  part := "word/document.xml"
  data := .object [("a", .object [("_type", .string "rawXml"), ("replaceParagraph", .bool true)])]

/-- A child of the body without a character of a tag is not always preserved: a tag that reaches over
paragraphs takes the empty text nodes in between with it, and markup that replaces the paragraph around
the body replaces the body. -/
theorem not_preserved_of_textless :
    (tagAcross.children ⟨2⟩ = [⟨3⟩, ⟨7⟩, ⟨11⟩] ∧ tagAcross.textContent ⟨7⟩ = "" ∧
      (plain.containers none (plain.sites tagAcross)).length = 0 ∧
      (plain.compiled? onceData tagAcross).map (·.children ⟨2⟩) = some [⟨3⟩]) ∧
    (enclosedBody.children ⟨3⟩ = [⟨4⟩, ⟨6⟩] ∧ enclosedBody.textContent ⟨6⟩ = "" ∧
      (plain.containers none (plain.sites enclosedBody)).length = 0 ∧
      (plain.compiled? removalData enclosedBody).map (·.isAttached ⟨6⟩) = some false) := by
  decide +kernel

theorem bodied_framedLoop : framedLoop.Bodied 20 ⟨2⟩ where
  wellFormed := wellFormed_ofTree _
  detached := by decide +kernel
  inStore := by decide +kernel
  childless := textChildless_of_store (by decide +kernel)
  visited := by decide +kernel
  isBody := by decide +kernel
  attached := (isAttached_iff (wellFormed_ofTree _)).mp (by decide +kernel)
  around := by
    have each : ∀ id ∈ (⟨2⟩ : NodeId) :: framedLoop.ancestors ⟨2⟩, ∀ name ∈ Word.Name.enclosing,
        framedLoop.isNamed id name = false := by decide +kernel
    intro id inside
    rcases (mem_ancestors_iff (wellFormed_ofTree _)).mpr inside with rfl | isAbove
    · exact each _ List.mem_cons_self
    · exact each id (List.mem_cons_of_mem _ isAbove)
  children := by decide +kernel

theorem preserved_of_untouched_framedLoop :
    ∃ workspace, plain.compile twiceData framedLoop.root { document := framedLoop } =
        .ok ⟨⟩ workspace ∧ workspace.document.textContent ⟨2⟩ = "before12cell" ∧
      ([⟨3⟩, ⟨19⟩, ⟨26⟩] : List NodeId).Sublist (workspace.document.children ⟨2⟩) ∧
      ∀ id ∈ ([⟨3⟩, ⟨19⟩, ⟨26⟩] : List NodeId), workspace.document.isAttached id = true ∧
        workspace.document.nodeMarkup id = framedLoop.nodeMarkup id := by
  have filled : (plain.compiled? twiceData framedLoop).map (·.textContent ⟨2⟩) =
      some "before12cell" := by decide +kernel
  rcases Option.map_eq_some_iff.mp filled with ⟨after, found, text⟩
  rcases exists_of_compiled? found with ⟨workspace, done, rfl⟩
  have untouched : ∀ id ∈ ([⟨3⟩, ⟨19⟩, ⟨26⟩] : List NodeId), plain.Untouched framedLoop id := by
    have outside : ∀ id ∈ ([⟨3⟩, ⟨19⟩, ⟨26⟩] : List NodeId), ∀ site ∈ plain.sites framedLoop,
        ∀ text ∈ framedLoop.texts id, ¬site.Covers framedLoop framedLoop.root text := by
      decide +kernel
    have between : ∀ id ∈ ([⟨3⟩, ⟨19⟩, ⟨26⟩] : List NodeId),
        ∀ pair ∈ plain.containers none (plain.sites framedLoop),
          ¬[pair.1.first, id, pair.2.first].Sublist (framedLoop.subtree framedLoop.root) := by
      decide +kernel
    exact fun id isKept => ⟨outside id isKept, between id isKept⟩
  refine ⟨workspace, done, text, ?_⟩
  exact @preserved_of_untouched plain twiceData .vanishRuns { document := framedLoop } workspace ⟨2⟩
    [⟨3⟩, ⟨19⟩, ⟨26⟩] ⟨⟩ rfl (by decide +kernel) Services.idle_recording bodied_framedLoop
    (by decide +kernel) untouched done

end Compiler

end WordTemplate
