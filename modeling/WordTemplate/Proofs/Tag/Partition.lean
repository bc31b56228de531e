import WordTemplate.Proofs.Operations
import WordTemplate.Proofs.Tag.Extraction

/-!
# Taking out the tags leaves the text around them

Once every tag has a text node of its own, the text nodes below the root fall into a lead and one
part for each tag: its node and the nodes up to the next tag. Emptying the nodes of the tags then
leaves the lead and the literals.
-/

namespace WordTemplate

open Document

/-! ## Parts of the text -/

/-- The text nodes of a tag and of the text up to the next tag. -/
structure TagPart where
  node : NodeId
  literals : List NodeId

namespace TagPart

/-- The text nodes of a part, in document order. -/
def texts (part : TagPart) : List NodeId := part.node :: part.literals

/-- The nodes of a part carry the characters of a region. -/
structure Carries (document : Document) (part : TagPart) (region : TagRegion) : Prop where
  tag : (document.textOf part.node).toList = region.tag.map Place.char
  following : document.segmentText part.literals = region.following.map Place.char

theorem Carries.congr {document after : Document} {parts : List TagPart}
    {regions : List TagRegion} (carries : List.Forall₂ (Carries document) parts regions)
    (same : ∀ id ∈ parts.flatMap texts, after.textOf id = document.textOf id) :
    List.Forall₂ (Carries after) parts regions := by
  induction carries with
  | nil => exact List.Forall₂.nil
  | @cons part region parts regions here _ inductionHypothesis =>
      rw [List.flatMap_cons, texts, List.cons_append] at same
      refine List.Forall₂.cons ⟨?_, ?_⟩ (inductionHypothesis fun id isMember =>
        same id (List.mem_cons_of_mem _ (List.mem_append_right _ isMember)))
      · rw [same part.node List.mem_cons_self]
        exact here.tag
      · rw [segmentText_congr fun id isMember =>
          same id (List.mem_cons_of_mem _ (List.mem_append_left _ isMember))]
        exact here.following

theorem Carries.map_textOf {document : Document} {parts : List TagPart} {regions : List TagRegion}
    (carries : List.Forall₂ (Carries document) parts regions) :
    (parts.map node).map document.textOf =
      regions.map fun region => String.ofList (region.tag.map Place.char) := by
  induction carries with
  | nil => rfl
  | cons here _ inductionHypothesis =>
      rw [List.map_cons, List.map_cons, List.map_cons, inductionHypothesis, ← here.tag,
        String.ofList_toList]

theorem Carries.flatMap_literals {document : Document} {parts : List TagPart}
    {regions : List TagRegion} (carries : List.Forall₂ (Carries document) parts regions) :
    parts.flatMap (fun part => document.segmentText part.literals) =
      regions.flatMap fun region => region.following.map Place.char := by
  induction carries with
  | nil => rfl
  | cons here _ inductionHypothesis =>
      rw [List.flatMap_cons, List.flatMap_cons, inductionHypothesis, here.following]

theorem sublist_texts (parts : List TagPart) :
    (parts.map node).Sublist (parts.flatMap texts) := by
  induction parts with
  | nil => exact List.Sublist.refl _
  | cons part parts inductionHypothesis =>
      rw [List.map_cons, List.flatMap_cons]
      exact (inductionHypothesis.trans (List.sublist_append_right part.literals _)).cons_cons
        part.node

/-- Emptying the nodes of the tags leaves all other text nodes as they are. -/
theorem textOf_emptied {document after : Document} {front : List NodeId}
    {parts : List TagPart} (nodup : (front ++ parts.flatMap texts).Nodup)
    (emptied : ∀ id, after.textOf id =
      if id ∈ parts.map node then "" else document.textOf id) :
    ∀ id ∈ front ++ parts.flatMap literals, after.textOf id = document.textOf id := by
  have perm : (parts.map node ++ parts.flatMap literals).Perm (parts.flatMap texts) :=
    List.map_append_flatMap_perm parts node literals
  have apart : ∀ id ∈ front ++ parts.flatMap literals, id ∉ parts.map node := by
    intro id isMember isNode
    rw [List.nodup_append] at nodup
    rcases List.mem_append.mp isMember with isFront | isLiteral
    · have isText : id ∈ parts.flatMap texts := perm.subset (List.mem_append_left _ isNode)
      exact nodup.2.2 id isFront id isText rfl
    · have distinct := List.nodup_append.mp (perm.nodup_iff.mpr nodup.2.1)
      exact distinct.2.2 id isNode id isLiteral rfl
  exact fun id isMember => by rw [emptied, if_neg (apart id isMember)]

/-- Emptying the nodes of the tags leaves the literals. -/
theorem segmentText_emptied {document after : Document} {front : List NodeId}
    {parts : List TagPart} (nodup : (front ++ parts.flatMap texts).Nodup)
    (emptied : ∀ id, after.textOf id =
      if id ∈ parts.map node then "" else document.textOf id) :
    after.segmentText (front ++ parts.flatMap texts) =
      document.segmentText front ++
        parts.flatMap fun part => document.segmentText part.literals := by
  have kept := textOf_emptied nodup emptied
  have isFront : after.segmentText front = document.segmentText front :=
    segmentText_congr fun id isMember => kept id (List.mem_append_left _ isMember)
  have isPart : ∀ part ∈ parts,
      after.segmentText part.texts = document.segmentText part.literals := by
    intro part isMember
    have isEmpty : after.textOf part.node = "" := by
      rw [emptied, if_pos (List.mem_map_of_mem isMember)]
    have isLiteral : after.segmentText part.literals = document.segmentText part.literals :=
      segmentText_congr fun id inside => kept id (List.mem_append_right _
        (List.mem_flatMap.mpr ⟨part, isMember, inside⟩))
    rw [← isLiteral, texts, segmentText, List.flatMap_cons, isEmpty]
    rfl
  have assoc : after.segmentText (parts.flatMap texts) =
      parts.flatMap fun part => after.segmentText part.texts := List.flatMap_assoc
  rw [segmentText_append, isFront, assoc, List.flatMap_congr isPart]

end TagPart

/-- A tag is spelled with both delimiters. -/
theorem TagRegion.exists_inner {delimiters : Delimiters} {pairs : List TagMarks}
    {regions : List TagRegion} (fits : List.Forall₂ (Fits delimiters) pairs regions) :
    ∀ region ∈ regions, ∃ inner, String.ofList (region.tag.map Place.char) =
      delimiters.tagStart ++ inner ++ delimiters.tagEnd := by
  induction fits with
  | nil => simp
  | cons here _ inductionHypothesis =>
      rintro region isMember
      rcases List.mem_cons.mp isMember with rfl | isMember
      · refine ⟨String.ofList (region.inner.map Place.char), ?_⟩
        rw [tag, List.map_append, List.map_append, here.opens, here.closes, String.ofList_append,
          String.ofList_append, String.ofList_toList, String.ofList_toList]
      · exact inductionHypothesis region isMember

namespace Extraction

open Outcome

variable {document : Document} {root node : NodeId} {delimiters : Delimiters}

/-- Each tag is in a node of its own, in the order of the tags. -/
structure Isolated (aside : Aside) (document after : Document) (root : NodeId) (lead : List Place)
    (regions : List TagRegion) (parts : List TagPart) : Prop where
  splittable : after.Splittable aside root
  root_eq : after.root = document.root
  free : ∀ part ∈ parts, aside.Free part.node
  texts_eq : ∃ front kept, after.texts root = front ++ kept ∧ after.places front = lead ∧
    aside.Thins (parts.flatMap TagPart.texts) kept ∧
    ((∀ id, ¬aside.lossy id) → List.Forall₂ (TagPart.Carries after) parts regions)

/-- The nodes of isolated tags stand below the root in the order of the tags. -/
theorem Isolated.ordered {aside : Aside} {after : Document} {lead : List Place}
    {regions : List TagRegion} {parts : List TagPart}
    (isolated : Isolated aside document after root lead regions parts) :
    (parts.map TagPart.node).Sublist (after.texts root) := by
  rcases isolated.texts_eq with ⟨front, kept, texts, -, thins, -⟩
  rw [texts]
  refine (thins.sublist_of_not_lossy (TagPart.sublist_texts parts) ?_).trans
    (List.sublist_append_right front kept)
  intro node isNode
  rcases List.mem_map.mp isNode with ⟨part, isPart, rfl⟩
  exact (isolated.free part isPart).notLossy

/-- All tags are taken into nodes of their own. -/
theorem exists_isolateAll {pairs : List TagMarks} {regions : List TagRegion} {lead : List Place}
    {aside : Aside} (splittable : document.Splittable aside root)
    (fits : List.Forall₂ (TagRegion.Fits delimiters) pairs regions)
    (nonempty : delimiters.tagStart.toList ≠ [])
    (free : ∀ region ∈ regions, ∀ place ∈ region.tag, aside.Free place.node)
    (split : document.places (document.texts root) = lead ++ regions.flatMap TagRegion.places) :
    ∃ parts after, isolateAll delimiters pairs document = .ok (parts.map TagPart.node) after ∧
      Isolated aside document after root lead regions parts := by
  induction fits generalizing lead with
  | nil =>
      refine ⟨[], document, rfl, splittable, rfl, by simp, document.texts root, [], ?_, ?_, .nil,
        fun _ => .nil⟩
      · rw [List.append_nil]
      · rw [split, List.flatMap_nil, List.append_nil]
  | @cons marks region pairs regions here _ inductionHypothesis =>
      have split' : document.places (document.texts root) =
          (lead ++ region.places) ++ regions.flatMap TagRegion.places := by
        rw [split, List.flatMap_cons, List.append_assoc]
      rcases inductionHypothesis (fun other isMember =>
          free other (List.mem_cons_of_mem _ isMember)) split' with
        ⟨parts, middle, laterDone, isolated⟩
      rcases isolated.texts_eq with ⟨front, back, middleTexts, isFront, thinsBack, carries⟩
      rcases exists_isolate isolated.splittable here nonempty (free region List.mem_cons_self)
          middleTexts isFront with
        ⟨node, after, before, literals, kept, done, afterSplittable, root_eq, texts, thins, nodeFree,
          isLead, isTag, isFollowing, same⟩
      refine ⟨⟨node, literals⟩ :: parts, after,
        bind_eq_ok.mpr ⟨_, middle, laterDone, bind_eq_ok.mpr ⟨node, after, done, rfl⟩⟩,
        afterSplittable, root_eq.trans isolated.root_eq, ?_, before, node :: kept, texts, isLead, ?_,
        fun none => ?_⟩
      · rintro part isPart
        rcases List.mem_cons.mp isPart with rfl | isPart
        · exact nodeFree
        · exact isolated.free part isPart
      · exact .keep node (((Aside.Thins.refl aside literals).append thinsBack).trans thins)
      · refine .cons ⟨isTag, isFollowing⟩ (TagPart.Carries.congr (carries none) ?_)
        rwa [← thinsBack.eq none]

theorem read_cases (delimiters : Delimiters) (node : NodeId) (rawText : String) :
    (∃ cause, Tag.read delimiters node rawText = .error (.invalidOptions rawText cause)) ∨
      ∃ tag, Tag.read delimiters node rawText = .ok tag ∧ tag.textNode = node ∧
        tag.rawText = rawText := by
  unfold Tag.read
  cases Tag.splitOptions delimiters (Tag.innerText delimiters rawText) with
  | error cause =>
      left
      exact ⟨cause, rfl⟩
  | ok parts =>
      right
      exact ⟨_, rfl, rfl, rfl⟩

/-- Reading a tag fails in its options only, and empties its node otherwise. -/
theorem takeTag_cases (isText : document.isText node = true) :
    (∃ text cause after,
        takeTag delimiters node document = .error (.invalidOptions text cause) after) ∨
      ∃ tag, takeTag delimiters node document = .ok tag (document.setContent node (.text "")) ∧
        tag.textNode = node ∧ tag.rawText = document.textOf node := by
  rcases read_cases delimiters node (document.textOf node) with
    ⟨cause, failed⟩ | ⟨tag, done, isNode, isRaw⟩
  · left
    refine ⟨document.textOf node, cause, document, ?_⟩
    rw [takeTag, get_bind, failed]
    rfl
  · right
    refine ⟨tag, ?_, isNode, isRaw⟩
    rw [takeTag, get_bind]
    exact bind_eq_ok.mpr ⟨tag, document, ofExcept_eq_ok.mpr ⟨done, rfl⟩,
      bind_eq_ok.mpr ⟨⟨⟩, _, edit_eq_ok.mpr (Edit.setText_eq_ok.mpr ⟨isText, rfl⟩), rfl⟩⟩

/-- Reading several tags fails in the options of one of them, and empties their nodes otherwise. -/
theorem takeAll_cases {nodes : List NodeId} (wellFormed : document.WellFormed)
    (areTexts : ∀ node ∈ nodes, document.isText node = true)
    (inStore : ∀ node ∈ nodes, node.index < document.size) (distinct : nodes.Nodup) :
    (∃ text cause after,
        nodes.mapM (takeTag delimiters) document = .error (.invalidOptions text cause) after) ∨
      ∃ tags after, nodes.mapM (takeTag delimiters) document = .ok tags after ∧
        SameShape document after ∧ tags.map Tag.textNode = nodes ∧
        tags.map Tag.rawText = nodes.map document.textOf ∧
        ∀ id, after.textOf id = if id ∈ nodes then "" else document.textOf id := by
  induction nodes generalizing document with
  | nil =>
      right
      refine ⟨[], document, rfl, ⟨wellFormed, rfl, rfl, fun _ => rfl, fun _ => rfl, fun _ => rfl,
        fun _ _ => rfl⟩, rfl, rfl, fun id => ?_⟩
      rw [if_neg List.not_mem_nil]
  | cons node nodes inductionHypothesis =>
      have isText := areTexts node List.mem_cons_self
      rw [List.nodup_cons] at distinct
      rw [List.mapM_cons]
      rcases takeTag_cases isText with ⟨text, cause, after, failed⟩ | ⟨tag, taken, isNode, isRaw⟩
      · left
        exact ⟨text, cause, after, bind_eq_error.mpr (Or.inl failed)⟩
      have same := sameShape_setText wellFormed isText (inStore node List.mem_cons_self) ""
      have textOf_eq := textOf_setText (inStore node List.mem_cons_self) ""
      rcases inductionHypothesis same.wellFormed
        (fun other isMember => (same.isText_eq other).trans
          (areTexts other (List.mem_cons_of_mem _ isMember)))
        (fun other isMember => same.size_eq ▸ inStore other (List.mem_cons_of_mem _ isMember))
        distinct.2 with
        ⟨text, cause, after, failed⟩ | ⟨tags, after, done, sameAfter, areNodes, areRaw, emptied⟩
      · left
        exact ⟨text, cause, after, bind_eq_error.mpr (Or.inr ⟨tag, _, taken,
          bind_eq_error.mpr (Or.inl failed)⟩)⟩
      · right
        refine ⟨tag :: tags, after, bind_eq_ok.mpr ⟨tag, _, taken,
          bind_eq_ok.mpr ⟨tags, after, done, rfl⟩⟩, same.trans sameAfter, ?_, ?_, fun id => ?_⟩
        · rw [List.map_cons, isNode, areNodes]
        · have others : nodes.map (document.setContent node (.text "")).textOf =
              nodes.map document.textOf := by
            refine List.map_congr_left fun other isMember => ?_
            rw [textOf_eq, if_neg]
            rintro rfl
            exact distinct.1 isMember
          rw [List.map_cons, List.map_cons, isRaw, areRaw, others]
        · rw [emptied, textOf_eq]
          by_cases isNode : id = node
          · rw [if_pos isNode, if_pos (List.mem_cons.mpr (Or.inl isNode)), ite_self]
          · rw [if_neg isNode]
            exact if_congr (by rw [List.mem_cons, or_iff_right isNode]) rfl rfl

end Extraction

/-! ## The text of a root -/

namespace Document

variable {document : Document} {levels : Nat} {root id : NodeId}

theorem content_of_textOf {characters : String} (isText : document.isText id = true)
    (text : document.textOf id = characters) : document.content id = .text characters := by
  rw [Document.isText, text?] at isText
  rw [textOf, text?] at text
  cases isContent : document.content id with
  | text characters' =>
      rw [isContent] at text
      exact congrArg Content.text text
  | element held =>
      rw [isContent] at isText
      cases isText
  | markup raw =>
      rw [isContent] at isText
      cases isText

theorem toList_textContent (document : Document) (root : NodeId) :
    (document.textContent root).toList = document.segmentText (document.texts root) := by
  rw [textContent_eq, String.toList_join, List.flatMap_map, segmentText]

/-- A document whose tags can be taken out below a root. The root is an element other than a text
element, the scan meets every text node below it, text stands alone in its text element, and the
properties of runs hold no text. -/
structure Taggable (document : Document) (levels : Nat) (root : NodeId) : Prop where
  wellFormed : document.WellFormed
  isElement : ∃ held, document.content root = .element held
  notTextElement : document.isNamed root Word.Name.text = false
  visited : ∀ text ∈ document.texts root, ∃ segment ∈ document.segments levels root,
    text ∈ segment
  single : ∀ element text, document.LiesIn root element →
    document.isNamed element Word.Name.text = true → text ∈ document.children element →
      document.isText text = true → document.texts element = [text]
  unstyled : ∀ run properties, document.LiesIn root run →
    document.isNamed run Word.Name.run = true → properties ∈ document.children run →
      document.isNamed properties Word.Name.runProperties = true → document.texts properties = []

/-- No text node is lossy, and where text is hidden does not matter. -/
def Aside.none : Aside where
  lossy _ := False
  hidden _ := True

theorem Aside.free_none (id : NodeId) : Aside.none.Free id :=
  ⟨not_false, fun _ _ => trivial⟩

theorem Taggable.splittable (taggable : document.Taggable levels root) :
    document.Splittable Aside.none root := by
  rcases taggable.isElement with ⟨held, isElement⟩
  refine ⟨⟨plainBelow_of_visited taggable.wellFormed taggable.visited, taggable.single,
    fun run properties text inside runNamed isChild named isMember => ?_, fun _ _ _ _ _ => trivial⟩,
    taggable.wellFormed, fun id _ => Aside.free_none id, ?_, ?_, taggable.notTextElement⟩
  · rw [taggable.unstyled run properties inside runNamed isChild named] at isMember
    cases isMember
  · have isName : document.name? root = some held.name := by
      rw [name?, element?, isElement]
      rfl
    exact lt_size_of_name? isName
  · rw [isText, text?, isElement]
    rfl

end Document

theorem Delimiters.marker_ne_nil {delimiters : Delimiters} (usable : delimiters.validate = .ok ())
    (isStart : Bool) : (delimiters.marker isStart).toList ≠ [] := by
  have noFault : delimiters.fields.findSome? fieldError? = none := by
    rw [validate, error?] at usable
    split at usable
    · cases usable
    · next isNone =>
        cases isFault : delimiters.fields.findSome? fieldError? with
        | none => rfl
        | some cause =>
            rw [isFault] at isNone
            cases isNone
  rw [List.findSome?_eq_none_iff] at noFault
  have filled : ∀ field ∈ delimiters.fields, field.2 ≠ "" := by
    intro field isField isEmpty
    have accepted := noFault field isField
    rw [fieldError?, isEmpty, if_pos (by rfl)] at accepted
    cases accepted
  rw [Ne, String.toList_eq_nil_iff]
  cases isStart with
  | true => exact filled ("tagStart", delimiters.tagStart) (by simp [fields])
  | false => exact filled ("tagEnd", delimiters.tagEnd) (by simp [fields])

/-! ## All tags of a document -/

/-- The tags are taken out of the text below a root, and nothing else is. -/
structure TakenOut (delimiters : Delimiters) (before after : Document) (root : NodeId)
    (tags : List Tag) : Prop where
  /-- The text before is made up of the texts of the tags and the literals around them, and the
  literals are left. -/
  partition : ∃ lead literals, literals.length = tags.length ∧
    before.textContent root =
      lead ++ String.join (List.zipWith (· ++ ·) (tags.map Tag.rawText) literals) ∧
    after.textContent root = lead ++ String.join literals
  /-- A tag is spelled with a start delimiter and an end delimiter that do not overlap. -/
  delimited : ∀ tag ∈ tags, ∃ inner,
    tag.rawText = delimiters.tagStart ++ inner ++ delimiters.tagEnd
  /-- The nodes of the tags stand below the root in the order of the tags. -/
  ordered : (tags.map Tag.textNode).Sublist (after.subtree root)
  distinct : (tags.map Tag.textNode).Nodup
  empty : ∀ tag ∈ tags, after.content tag.textNode = .text ""
  below : ∀ tag ∈ tags, after.contains root tag.textNode = true
  attached : root = before.root → ∀ tag ∈ tags, after.isAttached tag.textNode = true

namespace Extraction

open Outcome

variable {document middle after : Document} {levels : Nat} {root : NodeId}
  {delimiters : Delimiters}

/-- Emptying the nodes of tags that carry the texts of regions takes these tags out. -/
theorem takenOut_of_carries {front : List NodeId} {parts : List TagPart} {lead : List Place}
    {regions : List TagRegion} {tags : List Tag}
    (split : document.places (document.texts root) = lead ++ regions.flatMap TagRegion.places)
    (spelled : ∀ region ∈ regions, ∃ inner, String.ofList (region.tag.map Place.char) =
      delimiters.tagStart ++ inner ++ delimiters.tagEnd)
    (wellFormed : middle.WellFormed) (root_eq : middle.root = document.root)
    (texts : middle.texts root = front ++ parts.flatMap TagPart.texts)
    (isFront : middle.places front = lead)
    (carries : List.Forall₂ (TagPart.Carries middle) parts regions)
    (same : SameShape middle after) (areNodes : tags.map Tag.textNode = parts.map TagPart.node)
    (areRaw : tags.map Tag.rawText = (parts.map TagPart.node).map middle.textOf)
    (emptied : ∀ id, after.textOf id =
      if id ∈ parts.map TagPart.node then "" else middle.textOf id) :
    TakenOut delimiters document after root tags := by
  have afterTexts : after.texts root = front ++ parts.flatMap TagPart.texts :=
    (same.texts_eq wellFormed root).trans texts
  have rawTexts : tags.map Tag.rawText =
      regions.map fun region => String.ofList (region.tag.map Place.char) :=
    areRaw.trans (TagPart.Carries.map_textOf carries)
  have nodup : (front ++ parts.flatMap TagPart.texts).Nodup := texts ▸ nodup_texts wellFormed root
  have ordered : (tags.map Tag.textNode).Sublist (after.texts root) := by
    rw [areNodes, afterTexts]
    exact (TagPart.sublist_texts parts).trans (List.sublist_append_right front _)
  have isMember : ∀ tag ∈ tags, tag.textNode ∈ after.texts root := fun tag isTag =>
    ordered.subset (List.mem_map_of_mem isTag)
  have inside : ∀ tag ∈ tags, after.LiesIn root tag.textNode := fun tag isTag =>
    ((mem_texts_iff same.wellFormed).mp (isMember tag isTag)).1
  refine ⟨⟨String.ofList (lead.map Place.char), regions.map fun region =>
    String.ofList (region.following.map Place.char), ?_, ?_, ?_⟩, ?_, ?_, ?_, ?_, ?_, ?_⟩
  · rw [List.length_map, ← carries.length_eq, ← List.length_map TagPart.node, ← areNodes,
      List.length_map]
  · rw [← String.toList_inj, toList_textContent, ← Scan.map_char_places, split, List.map_append,
      List.map_flatMap, rawTexts, List.zipWith_map, List.zipWith_self, String.toList_append,
      String.toList_ofList, String.toList_join, List.flatMap_map]
    refine congrArg _ (List.flatMap_congr fun region _ => ?_)
    rw [String.toList_append, String.toList_ofList, String.toList_ofList, ← List.map_append]
    rfl
  · rw [← String.toList_inj, toList_textContent, afterTexts,
      TagPart.segmentText_emptied nodup emptied, ← Scan.map_char_places, isFront,
      TagPart.Carries.flatMap_literals carries, String.toList_append, String.toList_ofList,
      String.toList_join, List.flatMap_map]
    refine congrArg _ (List.flatMap_congr fun region _ => ?_)
    rw [String.toList_ofList]
  · intro tag isTag
    have isRaw : tag.rawText ∈ tags.map Tag.rawText := List.mem_map_of_mem isTag
    rw [rawTexts] at isRaw
    rcases List.mem_map.mp isRaw with ⟨region, isRegion, isText⟩
    rw [← isText]
    exact spelled region isRegion
  · exact ordered.trans List.filter_sublist
  · exact (nodup_texts same.wellFormed root).sublist ordered
  · intro tag isTag
    have isNode : tag.textNode ∈ parts.map TagPart.node := areNodes ▸ List.mem_map_of_mem isTag
    have isText := ((mem_texts_iff same.wellFormed).mp (isMember tag isTag)).2
    have isEmpty := emptied tag.textNode
    rw [if_pos isNode] at isEmpty
    exact content_of_textOf isText isEmpty
  · exact fun tag isTag => (contains_iff same.wellFormed).mpr (inside tag isTag)
  · rintro rfl tag isTag
    rw [isAttached_iff same.wellFormed, same.root_eq, root_eq]
    exact inside tag isTag

/-- Tags whose delimiters come in pairs are taken out unless the options of one cannot be read. -/
theorem takeTags_cases {marks : List DelimiterMark} {pairs : List TagMarks} {lead : List Place}
    {regions : List TagRegion} {aside : Aside} (splittable : document.Splittable aside root)
    (nonempty : delimiters.tagStart.toList ≠ [])
    (paired : TagMarks.pair document none marks = .ok pairs)
    (split : document.places (document.texts root) = lead ++ regions.flatMap TagRegion.places)
    (fits : List.Forall₂ (TagRegion.Fits delimiters) pairs regions)
    (free : ∀ region ∈ regions, ∀ place ∈ region.tag, aside.Free place.node) :
    (∃ text reason after,
        takeTags delimiters marks document = .error (.invalidOptions text reason) after) ∨
      ∃ parts middle tags after, takeTags delimiters marks document = .ok tags after ∧
        Isolated aside document middle root lead regions parts ∧ SameShape middle after ∧
        tags.map Tag.textNode = parts.map TagPart.node ∧
        tags.map Tag.rawText = (parts.map TagPart.node).map middle.textOf ∧
        (∀ id, after.textOf id =
          if id ∈ parts.map TagPart.node then "" else middle.textOf id) := by
  rcases exists_isolateAll splittable fits nonempty free split with
    ⟨parts, middle, isolateDone, isolated⟩
  have wellFormed := isolated.splittable.wellFormed
  have taken : takeTags delimiters marks document =
      (parts.map TagPart.node).mapM (takeTag delimiters) middle := by
    rw [takeTags, get_bind, paired]
    change (isolateAll delimiters pairs >>= fun nodes => nodes.mapM (takeTag delimiters)) document = _
    simp only [bind, EStateM.bind, isolateDone]
  have ordered := isolated.ordered
  rw [taken]
  rcases takeAll_cases wellFormed
      (fun node isNode => ((mem_texts_iff wellFormed).mp (ordered.subset isNode)).2)
      (fun node isNode =>
        lt_size_of_mem_texts wellFormed isolated.splittable.inStore (ordered.subset isNode))
      ((nodup_texts wellFormed root).sublist ordered) with
    failed | ⟨tags, after, done, same, areNodes, areRaw, emptied⟩
  · exact Or.inl failed
  · exact Or.inr ⟨parts, middle, tags, after, done, isolated, same, areNodes, areRaw, emptied⟩

/-- **The tags of a document partition its text.** Taking them out fails only when a delimiter has
no partner or the options of a tag cannot be read. Otherwise the text is cut into the tags and the
literals around them, and the tags leave empty text nodes behind. -/
theorem takeTags_partition (taggable : document.Taggable levels root)
    (usable : delimiters.validate = .ok ()) :
    (∀ cause after,
        takeTags delimiters (Scan.run delimiters levels document root).marks document =
          .error cause after →
        (∃ text, cause = .missingStart text) ∨ (∃ text, cause = .missingClose text) ∨
          ∃ text reason, cause = .invalidOptions text reason) ∧
      ∀ tags after,
        takeTags delimiters (Scan.run delimiters levels document root).marks document =
          .ok tags after →
        TakenOut delimiters document after root tags := by
  have marked := Marked.of_located (Delimiters.marker_ne_nil usable)
    (Scan.located_run delimiters levels document root)
  rw [flatMap_places_segments, flatten_segments_eq_texts taggable.wellFormed taggable.visited]
    at marked
  cases paired : TagMarks.pair document none (Scan.run delimiters levels document root).marks with
  | error cause =>
      have failed : takeTags delimiters (Scan.run delimiters levels document root).marks document =
          .error cause document := by
        rw [takeTags, get_bind, paired]
        rfl
      rw [failed]
      constructor
      · rintro cause after ⟨⟩
        rcases TagMarks.pair_eq_error paired with missing | missing
        · exact Or.inl missing
        · exact Or.inr (Or.inl missing)
      · rintro tags after ⟨⟩
  | ok pairs =>
      rcases TagMarks.pair_eq_ok (by simp) paired with ⟨isFlat, kinds⟩
      rw [Option.toList_none, List.nil_append] at isFlat
      rw [isFlat] at marked
      rcases exists_regions kinds marked with ⟨lead, regions, split, fits⟩
      rcases takeTags_cases taggable.splittable (Delimiters.marker_ne_nil usable true) paired split
        fits (fun _ _ _ _ => Aside.free_none _) with
        ⟨text, reason, after, failed⟩ |
          ⟨parts, middle, tags, after, done, isolated, same, areNodes, areRaw, emptied⟩
      · rw [failed]
        constructor
        · rintro cause after ⟨⟩
          exact Or.inr (Or.inr ⟨text, reason, rfl⟩)
        · rintro tags after ⟨⟩
      · rw [done]
        constructor
        · rintro cause after ⟨⟩
        · rintro tags after ⟨⟩
          rcases isolated.texts_eq with ⟨front, kept, texts, isFront, thins, carries⟩
          rw [thins.eq fun _ => not_false] at texts
          exact takenOut_of_carries split (TagRegion.exists_inner fits)
            isolated.splittable.wellFormed isolated.root_eq texts isFront (carries fun _ => not_false)
            same areNodes areRaw emptied

/-- How the marks of a scan that meets every text node cut the text into the tags taken out. -/
theorem exists_regions_of_takeTags {tags : List Tag} (wellFormed : document.WellFormed)
    (usable : delimiters.validate = .ok ())
    (visited : ∀ text ∈ document.texts root, ∃ segment ∈ document.segments levels root, text ∈ segment)
    (done : takeTags delimiters (Scan.run delimiters levels document root).marks document =
      .ok tags after) :
    ∃ pairs lead regions,
      TagMarks.pair document none (Scan.run delimiters levels document root).marks = .ok pairs ∧
      document.places (document.texts root) = lead ++ regions.flatMap TagRegion.places ∧
      List.Forall₂ (TagRegion.Fits delimiters) pairs regions := by
  have marked := Marked.of_located (Delimiters.marker_ne_nil usable)
    (Scan.located_run delimiters levels document root)
  rw [flatMap_places_segments, flatten_segments_eq_texts wellFormed visited] at marked
  simp only [takeTags, get_bind, bind_eq_ok, ofExcept_eq_ok] at done
  rcases done with ⟨pairs, _, ⟨paired, rfl⟩, -⟩
  rcases TagMarks.pair_eq_ok (by simp) paired with ⟨isFlat, kinds⟩
  rw [Option.toList_none, List.nil_append] at isFlat
  rw [isFlat] at marked
  rcases exists_regions kinds marked with ⟨lead, regions, split, fits⟩
  exact ⟨pairs, lead, regions, paired, split, fits⟩

/-- A paragraph in which a tag reaches over two runs. -/
def tagAcrossRuns : Document :=
  let run (characters : String) := Tree.node "w:r" [] [Tree.node "w:t" [] [.text characters]]
  .ofTree (Tree.node "w:p" [] [run "x\x7ba", run "\x7dy"])

theorem taggable_tagAcrossRuns : tagAcrossRuns.Taggable 3 tagAcrossRuns.root := by
  have wellFormed : tagAcrossRuns.WellFormed := wellFormed_ofTree _
  have single : ∀ element ∈ tagAcrossRuns.subtree tagAcrossRuns.root,
      ∀ text ∈ tagAcrossRuns.children element,
        tagAcrossRuns.isNamed element Word.Name.text = true → tagAcrossRuns.isText text = true →
          tagAcrossRuns.texts element = [text] := by decide +kernel
  have unstyled : ∀ run ∈ tagAcrossRuns.subtree tagAcrossRuns.root,
      ∀ properties ∈ tagAcrossRuns.children run,
        tagAcrossRuns.isNamed run Word.Name.run = true →
          tagAcrossRuns.isNamed properties Word.Name.runProperties = true →
            tagAcrossRuns.texts properties = [] := by decide +kernel
  refine ⟨wellFormed, ⟨_, rfl⟩, by decide +kernel, by decide +kernel, ?_, ?_⟩
  · intro element text inside named isChild isText
    exact single element ((mem_subtree_iff wellFormed).mpr inside) text isChild named isText
  · intro run properties inside runNamed isChild named
    exact unstyled run ((mem_subtree_iff wellFormed).mpr inside) properties isChild runNamed named

/-- The texts of the tags of a document and the text that they leave. -/
def tagTexts (levels : Nat) (document : Document) : Except TemplateError (List String × String) :=
  match takeTags .standard (Scan.run .standard levels document document.root).marks document with
  | .ok tags after => .ok (tags.map Tag.rawText, after.textContent document.root)
  | .error cause _ => .error cause

theorem takeTags_partition_acrossRuns :
    ∃ tags after, takeTags .standard
        (Scan.run .standard 3 tagAcrossRuns tagAcrossRuns.root).marks tagAcrossRuns =
          .ok tags after ∧ tags.map Tag.rawText = ["\x7ba\x7d"] ∧
      TakenOut .standard tagAcrossRuns after tagAcrossRuns.root tags := by
  have usable : Delimiters.standard.validate = .ok () := by decide +kernel
  have texts : tagTexts 3 tagAcrossRuns = .ok (["\x7ba\x7d"], "xy") := by decide +kernel
  rw [tagTexts] at texts
  split at texts
  · next tags after done =>
      rw [Except.ok.injEq, Prod.mk.injEq] at texts
      exact ⟨tags, after, done, texts.1,
        (takeTags_partition taggable_tagAcrossRuns usable).2 tags after done⟩
  · cases texts

/-- Each text element has one child that is text, and the scan meets every text node. -/
def SingleTexts (levels : Nat) (document : Document) : Prop :=
  (∀ element ∈ document.subtree document.root,
      document.isNamed element Word.Name.text = true →
        ((document.children element).filter document.isText).length = 1) ∧
    ∀ text ∈ document.texts document.root,
      ∃ segment ∈ document.segments levels document.root, text ∈ segment

instance (levels : Nat) (document : Document) : Decidable (SingleTexts levels document) :=
  inferInstanceAs (Decidable (_ ∧ _))

/-- A document that is nothing but a text element. -/
def textElementAlone : Document := .ofTree (Tree.node "w:t" [] [.text "\x7ba\x7dx"])

/-- A paragraph with text below an element beside the text of a text element. -/
def textBelowText : Document :=
  .ofTree (Tree.node "w:p" []
    [Tree.node "w:t" [] [.text "x\x7ba", Tree.node "w:x" [] [.text "b\x7d"]]])

/-- A paragraph with text in the properties of a run. -/
def textInProperties : Document :=
  .ofTree (Tree.node "w:p" []
    [Tree.node "w:r" [] [Tree.node "w:t" [] [.text "\x7ba"]],
      Tree.node "w:r" [] [Tree.node "w:t" [] [.text "b\x7d"],
        Tree.node "w:rPr" [] [.text "zz"]]])

/-- One text child in each text element is not enough: a text element without a parent cannot be
split, text below a text element is not joined, and text in the properties of a run that joining
leaves empty is lost. -/
theorem tagTexts_astray :
    (SingleTexts 3 textElementAlone ∧
      tagTexts 3 textElementAlone = .error (.document (.detached ⟨1⟩))) ∧
    (SingleTexts 3 textBelowText ∧
      tagTexts 3 textBelowText = .error (.document (.notInRange ⟨6⟩ ⟨5⟩))) ∧
    SingleTexts 3 textInProperties ∧
      textInProperties.textContent textInProperties.root = "\x7bab\x7dzz" ∧
      tagTexts 3 textInProperties = .ok (["\x7bab\x7d"], "") := by
  decide +kernel

end Extraction

end WordTemplate
