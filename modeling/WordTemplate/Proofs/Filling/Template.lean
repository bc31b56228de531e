import WordTemplate.Leaf.Text
import WordTemplate.Proofs.Filling.Unrolling
import WordTemplate.Proofs.Tag.Extraction

/-!
# The text that a template stands for

Apart from its markup a template is a text with tags in it. What it stands for depends on the data
alone: characters stand for themselves, a leaf for the lines of its value, and a container for what
is inside it, once for each repetition. How the text is divided into runs and paragraphs does not
count.
-/

namespace WordTemplate

/-- A piece of a template. -/
inductive Piece where
  /-- A character that stands for itself. -/
  | char (char : Char)
  | tag (tag : Tag)

namespace Piece

/-- The tag that a piece is, if it is one. -/
def tag? : Piece → Option Tag
  | .char _ => none
  | .tag held => some held

/-- Whether a piece closes the containers with the given name. -/
def closes (name : String) : Piece → Bool
  | .char _ => false
  | .tag held => held.closes name

/-- The same piece, where a tag is tied to another text node. -/
def relocated (move : Tag → Tag) : Piece → Piece
  | .char held => .char held
  | .tag held => .tag (move held)

/-- The same piece, wherever its tag stands. -/
def bare : Piece → Piece := relocated (·.relocated ⟨0⟩)

@[simp]
theorem bare_relocated (held : Tag) (node : NodeId) : bare (.tag (held.relocated node)) = bare (.tag held) :=
  rfl

/-- The tags among pieces. -/
def tags (pieces : List Piece) : List Tag := pieces.filterMap tag?

variable {pieces : List Piece} {held : Tag} {first second rest : List Tag}

@[simp]
theorem tags_nil : tags [] = [] := rfl

@[simp]
theorem tags_append (pieces others : List Piece) : tags (pieces ++ others) = tags pieces ++ tags others :=
  List.filterMap_append

@[simp]
theorem tags_cons_tag (held : Tag) (pieces : List Piece) :
    tags (.tag held :: pieces) = held :: tags pieces :=
  rfl

@[simp]
theorem tags_chars (chars : List Char) : tags (chars.map char) = [] := by
  simp [tags, tag?]

@[simp]
theorem tags_map_char {α : Type} (items : List α) (of : α → Char) :
    tags (items.map fun item => char (of item)) = [] := by
  simp [tags, tag?]

@[simp]
theorem tags_relocated (move : Tag → Tag) (pieces : List Piece) :
    tags (pieces.map (relocated move)) = (tags pieces).map move := by
  rw [tags, tags, List.filterMap_map, List.map_filterMap]
  refine List.filterMap_congr fun piece _ => ?_
  cases piece <;> rfl

/-- Without tags there are only characters. -/
theorem exists_chars_of_tags_nil (none : tags pieces = []) :
    ∃ chars : List Char, pieces = chars.map char := by
  induction pieces with
  | nil => exact ⟨[], rfl⟩
  | cons piece pieces inductionHypothesis =>
      cases piece with
      | char held =>
          rcases inductionHypothesis none with ⟨chars, rfl⟩
          exact ⟨held :: chars, rfl⟩
      | tag held => simp at none

/-- Before the first tag there are only characters. -/
theorem exists_chars_of_tags_cons (tags_eq : tags pieces = held :: rest) :
    ∃ (chars : List Char) (later : List Piece), pieces = chars.map char ++ tag held :: later ∧
      tags later = rest := by
  rw [tags, List.filterMap_eq_cons_iff] at tags_eq
  rcases tags_eq with ⟨before, piece, later, rfl, none, isTag, tags_later⟩
  have noTags : tags before = [] := List.filterMap_eq_nil_iff.mpr none
  rcases exists_chars_of_tags_nil noTags with ⟨chars, rfl⟩
  cases piece with
  | char _ => cases isTag
  | tag held' =>
      cases isTag
      exact ⟨chars, later, rfl, tags_later⟩

theorem exists_append_of_tags (tags_eq : tags pieces = first ++ second) :
    ∃ before after, pieces = before ++ after ∧ tags before = first ∧ tags after = second := by
  rw [tags, List.filterMap_eq_append_iff] at tags_eq
  rcases tags_eq with ⟨before, after, rfl, rfl, rfl⟩
  exact ⟨before, after, rfl, rfl, rfl⟩

/-- The pieces between two tags and those after them. -/
theorem exists_container_of_tags {opening closing : Tag}
    (tags_eq : tags pieces = opening :: (first ++ closing :: second)) :
    ∃ (lead : List Char) (inside outside : List Piece),
      pieces = lead.map char ++ tag opening :: (inside ++ tag closing :: outside) ∧
        tags inside = first ∧ tags outside = second := by
  rcases exists_chars_of_tags_cons tags_eq with ⟨lead, between, rfl, between_eq⟩
  rcases exists_append_of_tags between_eq with ⟨before, after, rfl, rfl, after_eq⟩
  rcases exists_chars_of_tags_cons after_eq with ⟨chars, outside, rfl, rfl⟩
  exact ⟨lead, before ++ chars.map char, outside, by simp, by simp, rfl⟩

end Piece

/-- What a tag does in a template, wherever it stands. -/
def Tag.role (tag : Tag) : TagKind × String := (tag.kind, tag.name)

/-- Tags in which every opening tag has a closing tag of its name, the containers lie within each
other, and none lies within one of the same name. -/
inductive Nested : List Tag → Prop
  | nil : Nested []
  | leaf {tag : Tag} {later : List Tag} (isLeaf : tag.kind = .leaf) (rest : Nested later) :
      Nested (tag :: later)
  | container {opening closing : Tag} {container : Container} {inner later : List Tag}
      (isOpening : opening.kind = .opening container) (isClosing : closing.kind = .closing)
      (same : closing.name = opening.name)
      (others : ∀ tag ∈ inner, ∀ container, tag.kind = .opening container → tag.name ≠ opening.name)
      (inside : Nested inner) (rest : Nested later) :
      Nested (opening :: (inner ++ closing :: later))

namespace Nested

variable {tags rest : List Tag} {tag : Tag} {name : String}

/-- A closing tag is that of a container. -/
theorem not_closes (nested : Nested tags)
    (others : ∀ tag ∈ tags, ∀ container, tag.kind = .opening container → tag.name ≠ name) :
    ∀ tag ∈ tags, tag.closes name = false := by
  induction nested with
  | nil => simp
  | leaf isLeaf _ inductionHypothesis =>
      intro tag isMember
      rcases List.mem_cons.mp isMember with rfl | isLater
      · simp [Tag.closes, isLeaf]
      · exact inductionHypothesis (fun tag isMember => others tag (List.mem_cons_of_mem _ isMember)) tag
          isLater
  | @container opening closing container inner later isOpening isClosing same _ _ _ innerHypothesis
      laterHypothesis =>
      intro tag isMember
      simp only [List.mem_cons, List.mem_append] at isMember others
      rcases isMember with rfl | isInner | rfl | isLater
      · simp [Tag.closes, isOpening]
      · exact innerHypothesis (fun tag isMember => others tag (by simp [isMember])) tag isInner
      · simp [Tag.closes, same, others opening (Or.inl rfl) container isOpening]
      · exact laterHypothesis (fun tag isMember => others tag (by simp [isMember])) tag isLater

/-- Only the kinds and the names of tags count. -/
theorem congr {others : List Tag} (nested : Nested tags)
    (alike : others.map Tag.role = tags.map Tag.role) : Nested others := by
  have eqs : ∀ {held tag : Tag}, held.role = tag.role → held.kind = tag.kind ∧ held.name = tag.name :=
    fun same => Prod.mk.inj same
  induction nested generalizing others with
  | nil =>
      rw [List.map_nil, List.map_eq_nil_iff] at alike
      rw [alike]
      exact .nil
  | leaf isLeaf _ inductionHypothesis =>
      rcases List.map_eq_cons_iff.mp alike with ⟨held, rest, rfl, role, restAlike⟩
      exact .leaf ((eqs role).1.trans isLeaf) (inductionHypothesis restAlike)
  | @container opening closing _ _ _ isOpening isClosing same apart _ _ innerHypothesis
      laterHypothesis =>
      rw [List.map_cons, List.map_append, List.map_cons] at alike
      rcases List.map_eq_cons_iff.mp alike with ⟨first, rest, rfl, firstRole, restAlike⟩
      rcases List.map_eq_append_iff.mp restAlike with ⟨inside, behind, rfl, insideAlike, behindAlike⟩
      rcases List.map_eq_cons_iff.mp behindAlike with ⟨last, outside, rfl, lastRole, outsideAlike⟩
      refine .container ((eqs firstRole).1.trans isOpening) ((eqs lastRole).1.trans isClosing) ?_ ?_
        (innerHypothesis insideAlike) (laterHypothesis outsideAlike)
      · rw [(eqs firstRole).2, (eqs lastRole).2, same]
      · intro tag isMember container isOpening'
        have isRole : tag.role ∈ inside.map Tag.role := List.mem_map_of_mem isMember
        rw [insideAlike] at isRole
        rcases List.mem_map.mp isRole with ⟨original, isOriginal, role⟩
        rw [← (eqs role).2, (eqs firstRole).2]
        exact apart original isOriginal container ((eqs role).1.trans isOpening')

theorem map {move : Tag → Tag} (nested : Nested tags)
    (relocates : ∀ tag, ∃ node, move tag = tag.relocated node) : Nested (tags.map move) := by
  refine nested.congr ?_
  rw [List.map_map]
  refine List.map_congr_left fun tag _ => ?_
  rcases relocates tag with ⟨node, same⟩
  rw [Function.comp_apply, same]
  rfl

/-- The first tag is a leaf or opens a container. -/
theorem not_closing (nested : Nested (tag :: rest)) : tag.kind ≠ .closing := by
  cases nested with
  | leaf isLeaf _ => simp [isLeaf]
  | container isOpening => simp [isOpening]

theorem of_leaf (nested : Nested (tag :: rest)) (isLeaf : tag.kind = .leaf) : Nested rest := by
  cases nested with
  | leaf _ rest => exact rest
  | container isOpening => simp [isLeaf] at isOpening

theorem exists_container {container : Container} (nested : Nested (tag :: rest))
    (isOpening : tag.kind = .opening container) :
    ∃ inner closing later, rest = inner ++ closing :: later ∧ closing.closes tag.name = true ∧
      (∀ held ∈ inner, held.closes tag.name = false) ∧ Nested inner ∧ Nested later := by
  cases nested with
  | leaf isLeaf _ => simp [isLeaf] at isOpening
  | @container _ closing _ inner later _ isClosing same others inside outside =>
      exact ⟨inner, closing, later, rfl, by simp [Tag.closes, isClosing, same], inside.not_closes others,
        inside, outside⟩

theorem congr_pieces {pieces others : List Piece} (nested : Nested (Piece.tags pieces))
    (alike : others.map Piece.bare = pieces.map Piece.bare) : Nested (Piece.tags others) := by
  have anywhere : ∀ pieces : List Piece, (Piece.tags (pieces.map Piece.bare)).map Tag.role =
      (Piece.tags pieces).map Tag.role := fun pieces => by
    rw [Piece.bare, Piece.tags_relocated, List.map_map]
    rfl
  refine nested.congr ?_
  rw [← anywhere, alike, anywhere]

end Nested

/-- The lines of the text of the value at a path, one after the other. -/
def Context.linesAt (context : Context) (path : ScopePath) : List Char :=
  (Text.lines (((context.valueAt path).map Data.Value.shownText).getD "")).flatMap String.toList

/-- The value at a path declares no content type but text. -/
def Context.PlainAt (context : Context) (path : ScopePath) : Prop :=
  ∀ value ∈ context.valueAt path, ∀ declared ∈ ContentType.declaredBy value, declared = .ok .text

namespace Compiler

variable {compiler : Compiler} {context : Context} {path : ScopePath}
  {opening closing : Tag} {container : Container}

/-- The text that pieces of a template stand for. An opening tag takes the pieces up to the first
later closing tag of the same name with it. -/
def expand (compiler : Compiler) (context : Context) (path : ScopePath) : List Piece → List Char
  | [] => []
  | .char char :: rest => char :: expand compiler context path rest
  | .tag tag :: rest =>
      match tag.kind with
      | .leaf => context.linesAt (path.enter (.key tag.name)) ++ expand compiler context path rest
      | .closing => expand compiler context path rest
      | .opening container =>
          ((compiler.innerPaths context container (path.enter (.key tag.name))).flatMap
            fun inside => expand compiler context inside (rest.takeWhile (!·.closes tag.name))) ++
          expand compiler context path ((rest.dropWhile (!·.closes tag.name)).drop 1)
termination_by pieces => pieces.length
decreasing_by
  all_goals simp_wf
  · have shorter := (List.takeWhile_sublist (!·.closes tag.name) (l := rest)).length_le
    omega
  · have shorter := (List.dropWhile_sublist (!·.closes tag.name) (l := rest)).length_le
    omega

theorem expand_chars (chars : List Char) (pieces : List Piece) :
    compiler.expand context path (chars.map .char ++ pieces) =
      chars ++ compiler.expand context path pieces := by
  induction chars with
  | nil => rfl
  | cons char chars inductionHypothesis =>
      rw [List.map_cons, List.cons_append, expand, inductionHypothesis, List.cons_append]

/-- Characters stand for themselves. -/
theorem expand_map_char (chars : List Char) :
    compiler.expand context path (chars.map .char) = chars := by
  have whole : compiler.expand context path (chars.map .char ++ []) = chars ++ _ :=
    expand_chars chars []
  simpa [expand] using whole

/-- Expanding does not depend on the text nodes of the tags. -/
theorem expand_relocated {move : Tag → Tag} (relocates : ∀ tag, ∃ node, move tag = tag.relocated node)
    (path : ScopePath) (pieces : List Piece) :
    compiler.expand context path (pieces.map (Piece.relocated move)) =
      compiler.expand context path pieces := by
  have kind_eq : ∀ tag, (move tag).kind = tag.kind := fun tag => by
    rcases relocates tag with ⟨node, same⟩
    rw [same, Tag.relocated]
  have name_eq : ∀ tag, (move tag).name = tag.name := fun tag => by
    rcases relocates tag with ⟨node, same⟩
    rw [same, Tag.relocated]
  have closes_eq : ∀ name, (fun piece : Piece => !piece.closes name) ∘ Piece.relocated move =
      fun piece => !piece.closes name := fun name => by
    funext piece
    cases piece <;> simp [Piece.closes, Piece.relocated, Tag.closes, kind_eq, name_eq]
  induction path, pieces using expand.induct with
  | case1 => simp [expand]
  | case2 path char rest inductionHypothesis =>
      simp [expand, Piece.relocated, inductionHypothesis]
  | case3 path tag rest isLeaf inductionHypothesis =>
      simp [expand, Piece.relocated, kind_eq, name_eq, isLeaf, inductionHypothesis]
  | case4 path tag rest isClosing inductionHypothesis =>
      simp [expand, Piece.relocated, kind_eq, isClosing, inductionHypothesis]
  | case5 path tag rest container isOpening inside outside =>
      rw [List.map_cons, Piece.relocated, expand, expand, kind_eq, isOpening]
      simp only [name_eq, List.takeWhile_map, List.dropWhile_map, ← List.map_drop, closes_eq]
      rw [outside]
      congr 1
      exact List.flatMap_congr fun path _ => inside path

/-- Pieces that are alike but for the places of their tags stand for the same text. -/
theorem expand_congr {pieces others : List Piece} (alike : pieces.map Piece.bare = others.map Piece.bare) :
    compiler.expand context path pieces = compiler.expand context path others := by
  have anywhere : ∀ pieces : List Piece, compiler.expand context path (pieces.map Piece.bare) =
      compiler.expand context path pieces := expand_relocated (fun _ => ⟨_, rfl⟩) path
  rw [← anywhere, alike, anywhere]

theorem unroll_congr {pieces others : List Piece} (alike : pieces.map Piece.bare = others.map Piece.bare) :
    compiler.unroll context path (Piece.tags pieces) =
      compiler.unroll context path (Piece.tags others) := by
  have anywhere : ∀ pieces : List Piece,
      compiler.unroll context path (Piece.tags (pieces.map Piece.bare)) =
        compiler.unroll context path (Piece.tags pieces) := fun pieces => by
    rw [Piece.bare, Piece.tags_relocated, unroll_map fun _ => ⟨_, rfl⟩]
  rw [← anywhere, alike, anywhere]

section Container

variable (isOpening : opening.kind = .opening container)
  (closes : closing.closes opening.name = true)
include isOpening closes

theorem expand_container {inner later : List Piece}
    (none : ∀ tag ∈ Piece.tags inner, tag.closes opening.name = false) :
    compiler.expand context path (.tag opening :: (inner ++ .tag closing :: later)) =
      (compiler.innerPaths context container (path.enter (.key opening.name))).flatMap
          (compiler.expand context · inner) ++
        compiler.expand context path later := by
  have inside : ∀ piece ∈ inner, (!piece.closes opening.name) = true := by
    intro piece isMember
    cases piece with
    | char _ => rfl
    | tag tag =>
        rw [Piece.closes, none tag (List.mem_filterMap.mpr ⟨_, isMember, rfl⟩)]
        rfl
  have ends : Piece.closes opening.name (.tag closing) = true := closes
  rw [expand, isOpening]
  simp [List.takeWhile_append_of_pos inside, List.dropWhile_append_of_pos inside, ends]

theorem unroll_container {inner later : List Tag}
    (none : ∀ tag ∈ inner, tag.closes opening.name = false) :
    compiler.unroll context path (opening :: (inner ++ closing :: later)) =
      (compiler.innerPaths context container (path.enter (.key opening.name))).flatMap
          (compiler.unroll context · inner) ++
        compiler.unroll context path later := by
  have inside : ∀ tag ∈ inner, (!tag.closes opening.name) = true := fun tag isMember => by
    rw [none tag isMember]
    rfl
  rw [unroll, isOpening]
  simp [List.takeWhile_append_of_pos inside, List.dropWhile_append_of_pos inside, closes]

end Container

end Compiler

namespace Document

variable {document after : Document} {ids others : List NodeId} {pieces later : List Piece}

/-- Text nodes show pieces of a template: each tag has a text node of its own, and the characters of
the others stand for themselves. -/
inductive Shows (document : Document) : List NodeId → List Piece → Prop
  | nil : Shows document [] []
  | text {id : NodeId} {ids : List NodeId} {pieces : List Piece} (rest : Shows document ids pieces) :
      Shows document (id :: ids) ((document.textOf id).toList.map .char ++ pieces)
  | tag {tag : Tag} {ids : List NodeId} {pieces : List Piece} (rest : Shows document ids pieces) :
      Shows document (tag.textNode :: ids) (.tag tag :: pieces)

namespace Shows

theorem append (first : document.Shows ids pieces) (second : document.Shows others later) :
    document.Shows (ids ++ others) (pieces ++ later) := by
  induction first with
  | nil => exact second
  | text _ inductionHypothesis =>
      rw [List.cons_append, List.append_assoc]
      exact .text inductionHypothesis
  | tag _ inductionHypothesis => exact .tag inductionHypothesis

theorem of_texts (document : Document) (ids : List NodeId) :
    document.Shows ids ((document.segmentText ids).map .char) := by
  induction ids with
  | nil => exact .nil
  | cons id ids inductionHypothesis =>
      rw [← List.singleton_append, segmentText_append, segmentText_singleton, List.map_append]
      exact .text inductionHypothesis

theorem congr (shows : document.Shows ids pieces)
    (same : ∀ id ∈ ids, after.textOf id = document.textOf id) : after.Shows ids pieces := by
  induction shows with
  | nil => exact .nil
  | @text id ids pieces _ inductionHypothesis =>
      rw [← same id List.mem_cons_self]
      exact .text (inductionHypothesis fun id isMember => same id (List.mem_cons_of_mem _ isMember))
  | tag _ inductionHypothesis =>
      exact .tag (inductionHypothesis fun id isMember => same id (List.mem_cons_of_mem _ isMember))

/-- The tags stand in order in the text nodes. -/
theorem sublist (shows : document.Shows ids pieces) :
    ((Piece.tags pieces).map Tag.textNode).Sublist ids := by
  induction shows with
  | nil => exact List.Sublist.refl []
  | text _ inductionHypothesis => simpa using inductionHypothesis.cons _
  | tag _ inductionHypothesis => simpa using inductionHypothesis

/-- The text nodes on both sides of a tag show the pieces on both sides. -/
theorem exists_around {held : Tag} (shows : document.Shows ids (pieces ++ .tag held :: later)) :
    ∃ front back, ids = front ++ held.textNode :: back ∧ document.Shows front pieces ∧
      document.Shows back later := by
  generalize whole : pieces ++ .tag held :: later = all at shows
  induction shows generalizing pieces with
  | nil => simp at whole
  | @text id ids others rest inductionHypothesis =>
      rcases List.append_eq_append_iff.mp whole with ⟨more, chars_eq, others_eq⟩ | ⟨more, rfl, others_eq⟩
      · rcases more with _ | ⟨piece, more⟩
        · rcases @inductionHypothesis [] others_eq with ⟨front, back, rfl, first, second⟩
          rw [List.append_nil] at chars_eq
          refine ⟨id :: front, back, rfl, ?_, second⟩
          rw [← chars_eq, ← List.append_nil (List.map _ _)]
          exact .text first
        · rw [List.cons_append, List.cons.injEq] at others_eq
          have isMember : Piece.tag held ∈ (document.textOf id).toList.map Piece.char := by
            rw [chars_eq, others_eq.1]
            simp
          simp at isMember
      · rcases inductionHypothesis others_eq.symm with ⟨front, back, rfl, first, second⟩
        exact ⟨id :: front, back, rfl, .text first, second⟩
  | @tag tag ids others rest inductionHypothesis =>
      rcases pieces with _ | ⟨piece, pieces⟩
      · rw [List.nil_append, List.cons.injEq, Piece.tag.injEq] at whole
        rcases whole with ⟨rfl, rfl⟩
        exact ⟨[], ids, rfl, .nil, rest⟩
      · rw [List.cons_append, List.cons.injEq] at whole
        rcases whole with ⟨rfl, whole⟩
        rcases inductionHypothesis whole with ⟨front, back, rfl, first, second⟩
        exact ⟨tag.textNode :: front, back, rfl, .tag first, second⟩

theorem segmentText_eq {chars : List Char} (shows : document.Shows ids (chars.map .char)) :
    document.segmentText ids = chars := by
  generalize whole : chars.map Piece.char = all at shows
  induction shows generalizing chars with
  | nil =>
      rw [List.map_eq_nil_iff] at whole
      rw [whole]
      rfl
  | text _ inductionHypothesis =>
      rw [List.map_eq_append_iff] at whole
      rcases whole with ⟨front, back, rfl, front_eq, back_eq⟩
      have injective : Function.Injective Piece.char := fun _ _ same => Piece.char.inj same
      rw [← List.singleton_append, segmentText_append, segmentText_singleton,
        inductionHypothesis back_eq, List.map_injective_iff.mpr injective front_eq]
  | tag _ _ =>
      rcases List.map_eq_cons_iff.mp whole with ⟨_, _, _, same, _⟩
      cases same

/-- Copies of text nodes show the same pieces with the tags in the copies. -/
theorem image {place : NodeId → NodeId} (shows : document.Shows ids pieces)
    (same : ∀ id ∈ ids, after.textOf (place id) = document.textOf id) :
    after.Shows (ids.map place) (pieces.map
      (Piece.relocated fun tag => tag.relocated (place tag.textNode))) := by
  induction shows with
  | nil => exact .nil
  | @text id ids pieces _ inductionHypothesis =>
      rw [List.map_append, List.map_map, List.map_cons, ← same id List.mem_cons_self]
      exact .text (inductionHypothesis fun id isMember => same id (List.mem_cons_of_mem _ isMember))
  | @tag tag ids pieces _ inductionHypothesis =>
      exact @Shows.tag after (tag.relocated (place tag.textNode)) _ _
        (inductionHypothesis fun id isMember => same id (List.mem_cons_of_mem _ isMember))

end Shows

end Document

end WordTemplate
