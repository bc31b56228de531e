import WordTemplate.Proofs.Filling.Compiling
import WordTemplate.Proofs.Total.Filling
import WordTemplate.Proofs.Total.Taking

/-!
# Compiling renders flat documents

In a flat document the body holds paragraphs, these hold runs and these text elements, with properties
without text before them. However its text is divided into runs, compiling such a document succeeds
if the text is that of a template with nested tags, and the text of the body is then what the template
stands for.
-/

namespace WordTemplate

open Document Outcome

variable {document : Document} {body paragraph run unit id text : NodeId}

namespace Document

/-- Nodes in a row are at most one element of properties without text, and then items. -/
def Lists (document : Document) (properties : String) (isItem : NodeId → Prop) : List NodeId → Prop
  | [] => True
  | first :: rest =>
      (document.isNamed first properties = true ∧ document.texts first = [] ∨ isItem first) ∧
        ∀ id ∈ rest, isItem id

instance (document : Document) (properties : String) (isItem : NodeId → Prop) [DecidablePred isItem] :
    DecidablePred (document.Lists properties isItem)
  | [] => isTrue trivial
  | first :: rest => inferInstanceAs (Decidable
      ((document.isNamed first properties = true ∧ document.texts first = [] ∨ isItem first) ∧
        ∀ id ∈ rest, isItem id))

/-- A text element with nothing but one text in it. -/
def IsPlainUnit (document : Document) (unit : NodeId) : Prop :=
  document.isNamed unit Word.Name.text = true ∧ (document.children unit).length = 1 ∧
    ∀ text ∈ document.children unit, document.isText text = true

instance (document : Document) : DecidablePred document.IsPlainUnit :=
  fun _ => inferInstanceAs (Decidable (_ ∧ _ ∧ _))

/-- A run with nothing but text elements in it. -/
def IsPlainRun (document : Document) (run : NodeId) : Prop :=
  document.isNamed run Word.Name.run = true ∧
    document.Lists Word.Name.runProperties document.IsPlainUnit (document.children run)

instance (document : Document) : DecidablePred document.IsPlainRun :=
  fun _ => inferInstanceAs (Decidable (_ ∧ _))

/-- A paragraph with nothing but runs in it. -/
def IsPlainParagraph (document : Document) (paragraph : NodeId) : Prop :=
  document.isNamed paragraph Word.Name.paragraph = true ∧
    document.Lists Word.Name.paragraphProperties document.IsPlainRun (document.children paragraph)

instance (document : Document) : DecidablePred document.IsPlainParagraph :=
  fun _ => inferInstanceAs (Decidable (_ ∧ _))

/-- A document with nothing but paragraphs in its body, none of which is numbered. -/
structure Flat (document : Document) (body : NodeId) : Prop where
  wellFormed : document.WellFormed
  detached : document.parent document.root = none
  rootNamed : document.isNamed document.root Word.Name.document = true
  bodyNamed : document.isNamed body Word.Name.body = true
  children_root : document.children document.root = [body]
  paragraphs : ∀ paragraph ∈ document.children body, document.IsPlainParagraph paragraph
  unnumbered : ∀ paragraph ∈ document.subtree document.root,
    document.isNamed paragraph Word.Name.paragraph = true →
      ∀ properties ∈ document.children paragraph,
        document.isNamed properties Word.Name.paragraphProperties = true →
          ∀ number ∈ document.children properties,
            document.isNamed number Word.Name.numberingProperties = false

/-- Text below a node is in one of its items. -/
theorem exists_item_of_lists {properties : String} {isItem : NodeId → Prop}
    (wellFormed : document.WellFormed) (notText : document.isText id = false)
    (lists : document.Lists properties isItem (document.children id))
    (isText : document.isText text = true) (inside : document.LiesIn id text) :
    ∃ item, document.parent item = some id ∧ isItem item ∧ document.LiesIn item text := by
  rcases inside.cases_child with rfl | ⟨child, isParent, below⟩
  · rw [isText] at notText
    cases notText
  have isChild := (wellFormed.mem_children_iff _ _).mpr isParent
  refine ⟨child, isParent, ?_, below⟩
  rcases children_eq : document.children id with _ | ⟨first, rest⟩
  · rw [children_eq] at isChild
    cases isChild
  rw [children_eq] at lists isChild
  rcases List.mem_cons.mp isChild with rfl | isRest
  · rcases lists.1 with ⟨-, silent⟩ | isItem
    · have isMember := (mem_texts_iff wellFormed).mpr ⟨below, isText⟩
      rw [silent] at isMember
      cases isMember
    · exact isItem
  · exact lists.2 child isRest

/-- What is above text is one tier below its parent, up to the host. -/
theorem Sits.supports {host child parent : NodeId} (sits : document.Sits host paragraph run unit text)
    (isText : document.isText text = true) (isHost : document.tier? host = some 4)
    (isParent : document.parent child = some parent) (inside : document.LiesIn child text) :
    document.Supports child parent ∨ document.LiesIn child host := by
  have climb : ∀ {lower upper}, document.parent lower = some upper → document.Supports lower upper →
      document.LiesIn child lower → document.Supports child parent ∨ document.LiesIn child upper := by
    intro lower upper isUpper supports inside
    rcases inside.cases_above isUpper with rfl | inside
    · rw [isUpper, Option.some.injEq] at isParent
      exact Or.inl (isParent ▸ supports)
    · exact Or.inr inside
  have unitTier := tier?_of_isNamed sits.unitNamed
  have runTier := tier?_of_isNamed sits.runNamed
  have paragraphTier := tier?_of_isNamed sits.paragraphNamed
  rcases climb sits.unitIs ⟨0, tier?_of_isText isText, unitTier⟩ inside with supports | inUnit
  · exact Or.inl supports
  rcases climb sits.runIs ⟨1, unitTier, runTier⟩ inUnit with supports | inRun
  · exact Or.inl supports
  rcases climb sits.paragraphIs ⟨2, runTier, paragraphTier⟩ inRun with supports | inParagraph
  · exact Or.inl supports
  exact climb sits.hostIs ⟨3, paragraphTier, isHost⟩ inParagraph

/-- What does not lie in the tree of a document. -/
def Stray (document : Document) (id : NodeId) : Prop :=
  id.index < document.size ∧ ¬document.LiesIn document.root id

theorem not_stray_root (document : Document) : ¬document.Stray document.root :=
  fun strays => strays.2 LiesIn.refl

/-- Tags were taken out of a document so that the body is prepared for filling them. -/
def Prepares (document : Document) (body : NodeId) (pieces : List Piece) (tags : List Tag)
    (after : Document) : Prop :=
  ∃ shown, Piece.tags shown = tags ∧ shown.map Piece.bare = pieces.map Piece.bare ∧
    Prepared document.Stray (fun _ => True) 0 after body shown

namespace Flat

variable (flat : document.Flat body)
include flat

theorem bodyParent : document.parent body = some document.root := by
  rw [← flat.wellFormed.mem_children_iff, flat.children_root]
  exact List.mem_singleton_self body

theorem bodyCounts : ¬document.Stray body :=
  fun strays => strays.2 (LiesIn.parent flat.bodyParent)

/-- Text stands in a text element, this in a run, and this in a paragraph of the body. -/
theorem exists_sits (plain : document.PlainBelow document.root)
    (isText : document.isText text = true) (inside : document.LiesIn document.root text) :
    ∃ paragraph run unit, document.Sits body paragraph run unit text ∧
      document.children unit = [text] := by
  have wellFormed := flat.wellFormed
  have inBody : document.LiesIn body text := by
    rcases inside.cases_child with rfl | ⟨child, isParent, below⟩
    · rw [isText_eq_false_of_isNamed flat.rootNamed] at isText
      cases isText
    · rw [← wellFormed.mem_children_iff, flat.children_root, List.mem_singleton] at isParent
      exact isParent ▸ below
  rcases inBody.cases_child with rfl | ⟨paragraph, paragraphIs, inParagraph⟩
  · rw [isText_eq_false_of_isNamed flat.bodyNamed] at isText
    cases isText
  rcases flat.paragraphs paragraph ((wellFormed.mem_children_iff _ _).mpr paragraphIs) with
    ⟨paragraphNamed, runs⟩
  rcases exists_item_of_lists wellFormed (isText_eq_false_of_isNamed paragraphNamed) runs isText
    inParagraph with ⟨run, runIs, ⟨runNamed, units⟩, inRun⟩
  rcases exists_item_of_lists wellFormed (isText_eq_false_of_isNamed runNamed) units isText inRun with
    ⟨unit, unitIs, ⟨unitNamed, single, areTexts⟩, inUnit⟩
  rcases inUnit.cases_child with rfl | ⟨child, isParent, below⟩
  · rw [isText_eq_false_of_isNamed unitNamed] at isText
    cases isText
  have isChild := (wellFormed.mem_children_iff _ _).mpr isParent
  have inRoot : document.LiesIn document.root child :=
    (LiesIn.of_parent isParent (.of_parent unitIs (.of_parent runIs (.of_parent paragraphIs
      (LiesIn.parent flat.bodyParent)))))
  have isMember := (mem_texts_iff wellFormed).mpr ⟨below, isText⟩
  rw [plain child inRoot (areTexts child isChild), List.mem_singleton] at isMember
  subst isMember
  refine ⟨paragraph, run, unit, ⟨isParent, unitNamed, unitIs, runNamed, runIs, paragraphNamed,
    paragraphIs⟩, ?_⟩
  rcases List.length_eq_one_iff.mp single with ⟨only, children_eq⟩
  rw [children_eq, List.mem_singleton] at isChild
  rw [children_eq, isChild]

theorem supports {child parent : NodeId} (isParent : document.parent child = some parent)
    (inside : document.LiesIn child body) : document.Supports child parent := by
  rcases inside.cases_above flat.bodyParent with rfl | above
  · rw [flat.bodyParent, Option.some.injEq] at isParent
    exact ⟨4, tier?_of_isNamed flat.bodyNamed, isParent ▸ tier?_of_isNamed flat.rootNamed⟩
  · rw [← above.eq_of_parent_none flat.detached, flat.detached] at isParent
    cases isParent

theorem housed (plain : document.PlainBelow document.root) : document.Housed document.Stray body where
  toWellFormed := flat.wellFormed
  known strays := strays.1
  apart isParent strays :=
    ⟨parent_lt_size flat.wellFormed isParent, fun inside => strays.2 (.of_parent isParent inside)⟩
  supports := by
    rintro child parent isParent ⟨text, isText, counts, inside⟩
    have text_lt : text.index < document.size := by
      rcases inside.cases_parent with rfl | ⟨upper, isUpper, -⟩
      · exact lt_size_of_parent isParent
      · exact lt_size_of_parent isUpper
    have inRoot : document.LiesIn document.root text := by
      by_contra outside
      exact counts ⟨text_lt, outside⟩
    rcases flat.exists_sits plain isText inRoot with ⟨paragraph, run, unit, sits, -⟩
    rcases sits.supports isText (tier?_of_isNamed flat.bodyNamed) isParent inside with supports | inBody
    · exact supports
    · exact flat.supports isParent inBody
  unnumbered := by
    rintro properties paragraph isParent counts ⟨named, number, isNumber, numbering⟩
    have isChild := flat.wellFormed.mem_children_iff
    by_contra paragraphNamed
    have inRoot : document.LiesIn document.root paragraph := by
      by_contra outside
      exact counts ⟨parent_lt_size flat.wellFormed isParent, outside⟩
    rw [flat.unnumbered paragraph ((mem_subtree_iff flat.wellFormed).mpr inRoot)
      (by simpa using paragraphNamed) properties ((isChild _ _).mpr isParent) named number
      ((isChild _ _).mpr isNumber)] at numbering
    cases numbering
  counts := flat.bodyCounts
  isHost := tier?_of_isNamed flat.bodyNamed
  stands _ _ inside isParent := flat.supports isParent inside

theorem texts_root : document.texts document.root = document.texts body := by
  rw [texts_eq flat.wellFormed, isText_eq_false_of_isNamed flat.rootNamed, flat.children_root]
  simp

theorem splittable {top : NodeId} (plain : document.PlainBelow document.root)
    (inRoot : document.LiesIn document.root top) (notText : document.isText top = false)
    (notTextElement : document.isNamed top Word.Name.text = false) :
    document.Splittable Aside.none top where
  plain text inside isText := plain text (inside.trans inRoot) isText
  single element text inside named isChild isText := by
    have isParent := (flat.wellFormed.mem_children_iff _ _).mp isChild
    have textInRoot := LiesIn.of_parent isParent (inside.trans inRoot)
    rcases flat.exists_sits plain isText textInRoot with ⟨paragraph, run, unit, sits, children_eq⟩
    obtain rfl : unit = element := by
      have unitIs := sits.unitIs
      rwa [isParent, Option.some.injEq, eq_comm] at unitIs
    rw [texts_eq flat.wellFormed, isText_eq_false_of_isNamed named, children_eq]
    simp [plain text textInRoot isText]
  lossy run properties text inside _ isChild named isMember := by
    have isParent := (flat.wellFormed.mem_children_iff _ _).mp isChild
    have below := ((mem_texts_iff flat.wellFormed).mp isMember).1
    have textInRoot := (below.trans (LiesIn.parent isParent)).trans (inside.trans inRoot)
    rw [(flat.housed plain).toTiered.isNamed_eq_false
      (.of_mem_texts flat.wellFormed (fun strays => strays.2 textInRoot) isMember) rfl] at named
    cases named
  hidden _ _ _ _ _ := trivial
  wellFormed := flat.wellFormed
  fresh id _ := Aside.free_none id
  inStore := lt_size_below inRoot flat.wellFormed.root_lt
  notText := notText
  notTextElement := notTextElement

/-- The tags of a flat document whose text spells a template can be taken out. -/
theorem succeeds_takeTags {levels : Nat} {pieces : List Piece}
    (visited : ∀ text ∈ document.texts document.root,
      ∃ segment ∈ document.segments levels document.root, text ∈ segment)
    (spells : Spells (document.segmentText (document.texts body)) pieces)
    (nested : Nested (Piece.tags pieces)) :
    Succeeds (Extraction.takeTags .standard
        (Scan.run .standard levels document document.root).marks) document
      (document.Prepares body pieces) := by
  have plain := plainBelow_of_visited flat.wellFormed visited
  have housed := flat.housed plain
  have areMarks := Scan.marks_run flat.wellFormed visited
  have inRoot := LiesIn.parent flat.bodyParent
  have bodySplittable := flat.splittable plain inRoot (isText_eq_false_of_isNamed flat.bodyNamed)
    (isNamed_eq_false flat.bodyNamed (by decide))
  have rootSplittable := flat.splittable plain LiesIn.refl (isText_eq_false_of_isNamed flat.rootNamed)
    (isNamed_eq_false flat.rootNamed (by decide))
  rcases Extraction.succeeds_takeTags housed (not_stray_root document) rootSplittable areMarks
    (flat.texts_root ▸ spells) with ⟨tags, after, done, -, splittable, ordered, isOrdered, -, inOrder⟩
  rcases Extraction.succeeds_takeTags housed flat.bodyCounts bodySplittable
    (flat.texts_root ▸ areMarks) spells with ⟨_, _, done', housed', -, shown, isShown, alike, shows⟩
  rw [done, EStateM.Result.ok.injEq] at done'
  rcases done' with ⟨rfl, rfl⟩
  refine Succeeds.of_done done ⟨shown, isShown, alike, ?_, housed', ?_, nested.congr_pieces alike⟩
  · have intact : Intact True document after := Extraction.intact_of_takeTags flat.wellFormed done
    rw [isShown]
    refine Compiler.ready_of_pending intact.wellFormed fun nonempty => ?_
    have nodesInOrder := inOrder.sublist
    rw [isOrdered] at nodesInOrder
    rw [intact.root_eq]
    refine pending_of_texts intact.wellFormed (intact.root_detached trivial flat.detached)
      splittable.inStore splittable.plain splittable.single nodesInOrder ?_ (by simpa using nonempty)
    intro node isNode id _ above
    rcases (mem_texts_iff intact.wellFormed).mp (nodesInOrder.subset isNode) with ⟨inside, isText⟩
    exact housed'.isProperties_eq_false
      ⟨node, isText, housed'.not_stray (not_stray_root document) inside, above⟩
  · rwa [housed'.runningTexts_eq_texts flat.bodyCounts]

end Flat

end Document

namespace Compiler

variable {compiler : Compiler} {context : Context} {before : Workspace} {pieces : List Piece}

/-- **Compiling renders flat documents.** If the text of the body of a flat document is that of a
template with nested tags whose leaves stand for text, then compiling succeeds, and the text of the
body is then what the template stands for. -/
theorem renders_of_flat (usual : compiler.IsUsual) (isStandard : compiler.delimiters = .standard)
    (services : context.services.Idle) (flat : before.document.Flat body)
    (visited : ∀ text ∈ before.document.texts before.document.root,
      ∃ segment ∈ before.document.segments compiler.options.maxDepth before.document.root,
        text ∈ segment)
    (reads : Piece.read (before.document.textContent body).toList = some pieces)
    (nested : Nested (Piece.tags pieces))
    (plain : compiler.PlainAt context before.path (Piece.tags pieces)) :
    ∃ after, compiler.compile context before.document.root before = .ok ⟨⟩ after ∧
      after.document.textContent body =
        String.ofList (compiler.expand context before.path pieces) := by
  have spells := Spells.of_read reads
  rw [toList_textContent] at spells
  have taking := flat.succeeds_takeTags visited spells nested
  have compiles : Succeeds (compiler.compile context before.document.root) before fun _ after =>
      after.document.Housed before.document.Stray body ∧
        after.document.segmentText (after.document.runningTexts body) =
          compiler.expand context before.path pieces := by
    have takes : Succeeds (compiler.takeTags before.document.root) before fun tags after =>
        before.document.Prepares body pieces tags after.document ∧ after.path = before.path := by
      refine Succeeds.of_get (Succeeds.of_noteAll fun noted idles => ?_)
      rw [isStandard, ← idles.path_eq]
      refine Succeeds.of_extraction ?_
      rw [idles.document_eq]
      exact taking
    refine takes.bind ?_
    rintro tags taken - ⟨⟨shown, rfl, alike, prepared⟩, path_eq⟩
    refine (succeeds_announce context _ taken).bind ?_
    rintro ⟨⟩ announced - idles
    rw [← idles.document_eq] at prepared
    have path_eq' : announced.path = before.path := idles.path_eq.trans path_eq
    have plain' : compiler.PlainAt context announced.path (Piece.tags shown) := by
      rw [PlainAt, path_eq', unroll_congr alike]
      exact plain
    refine (usual.succeeds_fillTags services _ rfl prepared plain').imp ?_
    rintro ⟨⟩ after - ⟨housed, text⟩
    exact ⟨housed, by rw [text, path_eq', expand_congr alike]⟩
  rcases compiles with ⟨⟨⟩, after, done, housed, text⟩
  refine ⟨after, done, ?_⟩
  rw [← text, housed.runningTexts_eq_texts flat.bodyCounts, ← toList_textContent, String.ofList_toList]

/-- Two paragraphs with a loop around them and another loop within it. Their text is divided into runs
in the middle of tags. -/
def dividedLoops : Document :=
  let run (characters : String) := Tree.node "w:r" [] [Tree.node "w:t" [] [.text characters]]
  let paragraph (texts : List String) :=
    Tree.node "w:p" [] (Tree.node "w:pPr" [] [] :: texts.map run)
  .ofTree (Tree.node "w:document" [] [Tree.node "w:body" []
    [paragraph ["A\x7b#a\x7d\x7b", "#b\x7d"], paragraph ["\x7by", "\x7d;\x7b/b\x7d\x7b/a\x7dZ"]]])

/-- Data for one repetition of the outer loop and two of the inner one. -/
def dividedData : Context where
  part := "word/document.xml"
  data := .object [("a", .array [.object [("b",
    .array [.object [("y", .string "1")], .object [("y", .string "2\r\n3")]])]])]

theorem flat_dividedLoops : dividedLoops.Flat ⟨2⟩ where
  wellFormed := wellFormed_ofTree _
  detached := by decide +kernel
  rootNamed := by decide +kernel
  bodyNamed := by decide +kernel
  children_root := by decide +kernel
  paragraphs := by decide +kernel
  unnumbered := by decide +kernel

/-- The tags of a loop with another loop around a leaf in it. -/
theorem nested_loops {tags : List Tag} (roles : tags.map Tag.role =
      [(.opening .loop, "a"), (.opening .loop, "b"), (.leaf, "y"), (.closing, "b"), (.closing, "a")]) :
    Nested tags := by
  let tag (kind : TagKind) (name : String) : Tag := ⟨name, "", kind, [], ⟨0⟩⟩
  have leaf : Nested [tag .leaf "y"] := .leaf rfl .nil
  have inside : Nested [tag (.opening .loop) "b", tag .leaf "y", tag .closing "b"] :=
    @Nested.container (tag (.opening .loop) "b") (tag .closing "b") .loop _ [] rfl rfl rfl (by simp [tag])
      leaf .nil
  have whole : Nested (tag (.opening .loop) "a" ::
      ([tag (.opening .loop) "b", tag .leaf "y", tag .closing "b"] ++ [tag .closing "a"])) :=
    @Nested.container _ _ .loop _ _ rfl rfl rfl (by simp [tag]) inside .nil
  exact whole.congr roles

theorem renders_of_flat_dividedLoops :
    ∃ pieces after, Piece.read (dividedLoops.textContent ⟨2⟩).toList = some pieces ∧
      plain.compile dividedData dividedLoops.root { document := dividedLoops } = .ok ⟨⟩ after ∧
      after.document.textContent ⟨2⟩ = "A1;23;Z" := by
  have expands : (Piece.read (dividedLoops.textContent ⟨2⟩).toList).map
      (fun pieces => String.ofList (plain.expand dividedData [] pieces)) = some "A1;23;Z" := by
    decide +kernel
  have roles : (Piece.read (dividedLoops.textContent ⟨2⟩).toList).map
      (fun pieces => (Piece.tags pieces).map Tag.role) = some [(.opening .loop, "a"),
        (.opening .loop, "b"), (.leaf, "y"), (.closing, "b"), (.closing, "a")] := by
    decide +kernel
  have untyped : ∀ pieces ∈ Piece.read (dividedLoops.textContent ⟨2⟩).toList,
      ∀ dispatch ∈ plain.unroll dividedData [] (Piece.tags pieces),
        (dividedData.valueAt dispatch.path).bind ContentType.declaredBy = none := by
    have none : ∀ pieces ∈ Piece.read (dividedLoops.textContent ⟨2⟩).toList,
        ∀ dispatch ∈ plain.unroll dividedData [] (Piece.tags pieces),
          ((dividedData.valueAt dispatch.path).bind ContentType.declaredBy).isNone = true := by
      decide +kernel
    simpa using none
  rcases reads : Piece.read (dividedLoops.textContent ⟨2⟩).toList with _ | pieces
  · rw [reads] at roles
    cases roles
  rw [reads, Option.map_some, Option.some.injEq] at expands roles
  have isPlain : plain.PlainAt dividedData [] (Piece.tags pieces) := by
    intro dispatch isMember value isValue declared isDeclared
    have isNone := untyped pieces reads dispatch isMember
    rw [Option.mem_def.mp isValue, Option.bind_some, Option.mem_def.mp isDeclared] at isNone
    cases isNone
  rcases @renders_of_flat ⟨2⟩ plain dividedData { document := dividedLoops } pieces ⟨rfl, rfl⟩ rfl
    Services.idle_recording flat_dividedLoops (by decide +kernel) reads (nested_loops roles) isPlain with
    ⟨after, done, text⟩
  refine ⟨pieces, after, rfl, done, ?_⟩
  rw [text]
  exact expands

end Compiler

end WordTemplate
