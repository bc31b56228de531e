import WordTemplate.Proofs.Tag.Sides

/-!
# Where tags stand

The text of a tag reaches from one text node to another. A node below which no text stands within the
text of a tag has each tag on one of its sides, and in the order of the tags those before it come
first. Taking the tags out keeps each on its side.
-/

namespace WordTemplate

open Document

/-- A tag with the text nodes in which its text begins and ends. -/
structure TagSite where
  tag : Tag
  first : NodeId
  last : NodeId

/-- A text node stands within the text of a tag. -/
def TagSite.Covers (site : TagSite) (document : Document) (root text : NodeId) : Prop :=
  text = site.first ∨ text = site.last ∨
    [site.first, text, site.last].Sublist (document.texts root)

instance (site : TagSite) (document : Document) (root text : NodeId) :
    Decidable (site.Covers document root text) :=
  inferInstanceAs (Decidable (_ ∨ _))

/-- Where the tag with the given marks stands. -/
def TagMarks.site (delimiters : Delimiters) (document : Document) (marks : TagMarks) (tag : Tag) :
    TagSite where
  tag
  first :=
    match document.tagBegin delimiters marks.start with
    | .ok (first, _) => first
    | .error _ => marks.start.node
  last := marks.stop.node

/-- The tags whose delimiters are marked, with where they stand. -/
def Extraction.sites (delimiters : Delimiters) (marks : List DelimiterMark) (document : Document) :
    List TagSite :=
  match TagMarks.pair document none marks, takeTags delimiters marks document with
  | .ok pairs, .ok tags _ =>
      (pairs.zip tags).map fun (marks, tag) => marks.site delimiters document tag
  | _, _ => []

namespace Document

variable {document : Document} {ids : List NodeId} {place : Place}

theorem node_mem_of_mem_places (isMember : place ∈ document.places ids) : place.node ∈ ids := by
  rcases List.append_of_mem isMember with ⟨lead, rest, split⟩
  rcases exists_of_places_eq split with ⟨earlier, later, -, -, rfl, -⟩
  simp

end Document

/-- What follows of the right member of each related pair. -/
theorem forall_of_forall₂ {α β : Type} {related : α → β → Prop} {holds : β → Prop} {left : List α}
    {right : List β} (pairs : List.Forall₂ related left right)
    (implied : ∀ first second, related first second → holds second) :
    ∀ second ∈ right, holds second := by
  have flipped : List.Forall₂ (fun second first => holds second ∧ flip related second first)
      right left := pairs.flip.imp fun second first here => ⟨implied first second here, here⟩
  exact ((List.forall₂_and_left right left).mp flipped).1

namespace Extraction

open Outcome

variable {document after : Document} {core root : NodeId} {above : NodeId → Prop}
  {part part' : Side → NodeId → Prop} {delimiters : Delimiters} {marks : TagMarks}
  {region : TagRegion} {lead : List Place} {pairs : List TagMarks} {regions : List TagRegion}
  {tags : List Tag} {levels : Nat}

/-- A tag begins and ends beside a node below which no text stands within the text of the tag, and
on the same side of it if there is text below it. -/
theorem clear_of_not_covers {place : Place} (divided : document.Divided core above part)
    (inside : document.LiesIn root core) {site : TagSite}
    (ends : region.opening.head? = some place ∧ place.node = site.first)
    (fits : region.Fits delimiters marks) (isLast : marks.stop.node = site.last)
    (sublist : region.places.Sublist (document.places (document.texts root)))
    (outside : ∀ text ∈ document.texts core, ¬site.Covers document root text) :
    region.Clear part (document.texts core = []) marks := by
  rcases divided.exists_texts inside with ⟨earlier, later, around, isEarlier, isLater⟩
  rcases fits.stop_eq with ⟨front, char, isClosing⟩
  rcases List.head?_eq_some_iff.mp ends.1 with ⟨opening, isOpening⟩
  have firstOutside : place.node ∉ document.texts core := fun isMember =>
    outside _ isMember (Or.inl ends.2)
  have lastOutside : marks.stop.node ∉ document.texts core := fun isMember =>
    outside _ isMember (Or.inr (Or.inl isLast))
  have sublist : [place, marks.stop.place char].Sublist
      (document.places (earlier ++ document.texts core) ++ document.places later) := by
    rw [← places_append, ← around]
    refine List.Sublist.trans ?_ sublist
    rw [TagRegion.places, TagRegion.tag, isOpening, isClosing]
    refine List.Sublist.trans ?_ (List.sublist_append_left _ _)
    refine List.Sublist.cons_cons _ (List.singleton_sublist.mpr ?_)
    simp
  have isBefore : ∀ {other : Place}, other ∈ document.places (earlier ++ document.texts core) →
      other.node ∉ document.texts core → part .before other.node := fun isMember outside =>
    isEarlier _ ((List.mem_append.mp (node_mem_of_mem_places isMember)).resolve_right outside)
  have isAfter : ∀ {other : Place}, other ∈ document.places later → part .after other.node :=
    fun isMember => isLater _ (node_mem_of_mem_places isMember)
  rcases List.sublist_append_iff.mp sublist with ⟨former, latter, whole, isFormer, isLatter⟩
  rcases former with _ | ⟨first, _ | ⟨second, former⟩⟩
  · rw [List.nil_append] at whole
    subst whole
    have lastMember := isLatter.subset (List.mem_cons_of_mem _ List.mem_cons_self)
    exact ⟨place, .after, .after, ends.1, isAfter (isLatter.subset List.mem_cons_self),
      isAfter lastMember, Or.inr rfl⟩
  · -- The text of the tag reaches from one side to the other.
    rw [List.singleton_append, List.cons.injEq] at whole
    rcases whole with ⟨rfl, rfl⟩
    have firstMember := isFormer.subset List.mem_cons_self
    have lastMember := isLatter.subset List.mem_cons_self
    refine ⟨place, .before, .after, ends.1, isBefore firstMember firstOutside, isAfter lastMember,
      Or.inl (List.eq_nil_iff_forall_not_mem.mpr fun text isText => ?_)⟩
    refine outside text isText (Or.inr (Or.inr ?_))
    rw [around, ← ends.2, ← isLast]
    have isFirst := (List.mem_append.mp (node_mem_of_mem_places firstMember)).resolve_right firstOutside
    exact ((List.singleton_sublist.mpr isFirst).append (List.singleton_sublist.mpr isText)).append
      (List.singleton_sublist.mpr (node_mem_of_mem_places lastMember))
  · rw [List.cons_append, List.cons_append, List.cons.injEq, List.cons.injEq] at whole
    rcases whole with ⟨rfl, rfl, -⟩
    have lastMember := isFormer.subset (List.mem_cons_of_mem _ List.mem_cons_self)
    exact ⟨place, .before, .before, ends.1,
      isBefore (isFormer.subset List.mem_cons_self) firstOutside, isBefore lastMember lastOutside,
      Or.inr rfl⟩

/-- A tag stands from the text node in which its start delimiter begins. -/
theorem exists_first (leading : document.Leading root (document.texts root))
    (nonempty : delimiters.tagStart.toList ≠ []) (fits : region.Fits delimiters marks)
    (split : document.places (document.texts root) = lead ++ regions.flatMap TagRegion.places)
    (isMember : region ∈ regions) :
    ∃ place : Place, region.opening.head? = some place ∧
      ∀ tag, place.node = (marks.site delimiters document tag).first := by
  rcases isOpening : region.opening with _ | ⟨place, opening⟩
  · have opens := fits.opens
    rw [isOpening] at opens
    exact absurd opens.symm nonempty
  rcases fits.start_eq with ⟨ahead, char, isStart⟩
  rcases List.append_of_mem isMember with ⟨earlier, later, rfl⟩
  have split' : document.places (document.texts root) =
      (lead ++ earlier.flatMap TagRegion.places) ++ region.opening ++
        (region.inner ++ region.closing ++ region.following ++ later.flatMap TagRegion.places) := by
    rw [split, List.flatMap_append, List.flatMap_cons, TagRegion.places, TagRegion.tag]
    simp
  have begins := tagBegin_of_places leading.wellFormed leading.plain leading.inStore
    (List.append_nil _).symm split' isStart fits.opens (by rw [isOpening]; rfl)
  refine ⟨place, rfl, fun tag => ?_⟩
  rw [TagMarks.site, begins]

/-- The tag of a region stands at a site, and its node is on the side of the core on which it begins. -/
structure Stands (part part' : Side → NodeId → Prop) (region : TagRegion) (site : TagSite) : Prop where
  first : ∃ place, region.opening.head? = some place ∧ place.node = site.first
  beside : ∃ side, part side site.first ∧ part' side site.tag.textNode

theorem stands_of_beside
    (first : List.Forall₂ (fun marks region => ∃ place : Place, region.opening.head? = some place ∧
      ∀ tag, place.node = (TagMarks.site delimiters document marks tag).first) pairs regions)
    (beside : List.Forall₂ (Beside part part') regions (tags.map Tag.textNode)) :
    List.Forall₂ (Stands part part') regions
      ((pairs.zip tags).map fun (marks, tag) => marks.site delimiters document tag) := by
  induction first generalizing tags with
  | nil => exact .nil
  | @cons marks region pairs regions here _ inductionHypothesis =>
      rcases tags with _ | ⟨tag, tags⟩
      · cases beside
      · rcases List.forall₂_cons.mp beside with ⟨⟨place, side, isFirst, isPart, isNode⟩, beside⟩
        rcases here with ⟨place', isFirst', isSite⟩
        obtain rfl := Option.some.inj (isFirst.symm.trans isFirst')
        exact .cons ⟨⟨place, isFirst, isSite tag⟩, side, isSite tag ▸ isPart, isNode⟩
          (inductionHypothesis beside)

/-- The sites of tags come in the order of the text. -/
theorem sublist_first {sites : List TagSite} (stands : List.Forall₂ (Stands part part') regions sites) :
    (sites.map TagSite.first).Sublist ((regions.flatMap TagRegion.places).map Place.node) := by
  induction stands with
  | nil => exact List.Sublist.refl _
  | @cons region site regions sites here _ inductionHypothesis =>
      rcases here.first with ⟨place, isFirst, isSite⟩
      rcases List.head?_eq_some_iff.mp isFirst with ⟨opening, isOpening⟩
      rw [List.map_cons, List.flatMap_cons, List.map_append, ← isSite, TagRegion.places, TagRegion.tag,
        isOpening]
      exact (inductionHypothesis.trans (List.sublist_append_right _ _)).cons_cons place.node

/-- The tags fall into those before the core and those after it. -/
theorem exists_sides {sites : List TagSite} (divided : document.Divided core above part)
    (inside : document.LiesIn root core)
    (split : document.places (document.texts root) = lead ++ regions.flatMap TagRegion.places)
    (stands : List.Forall₂ (Stands part part') regions sites) :
    ∃ former latter, sites = former ++ latter ∧ (∀ site ∈ sites, site.first ∈ document.texts root) ∧
      (∀ site ∈ former, part .before site.first ∧ part' .before site.tag.textNode) ∧
      ∀ site ∈ latter, part .after site.first ∧ part' .after site.tag.textNode := by
  rcases divided.exists_texts inside with ⟨earlier, later, around, isEarlier, isLater⟩
  have sublist : (sites.map TagSite.first).Sublist
      ((document.places (earlier ++ document.texts core)).map Place.node ++
        (document.places later).map Place.node) := by
    rw [← List.map_append, ← places_append, ← around, split, List.map_append]
    exact (sublist_first stands).trans (List.sublist_append_right _ _)
  have beside : ∀ site ∈ sites, ∃ side, part side site.first ∧ part' side site.tag.textNode :=
    forall_of_forall₂ stands fun _ _ => Stands.beside
  have isNode : ∀ {ids : List NodeId} {node : NodeId}, node ∈ (document.places ids).map Place.node →
      node ∈ ids := by
    intro ids node isMember
    rcases List.mem_map.mp isMember with ⟨place, isPlace, rfl⟩
    exact node_mem_of_mem_places isPlace
  have isText : ∀ site ∈ sites, site.first ∈ document.texts root := by
    intro site isSite
    rw [around, List.append_assoc, ← List.append_assoc, List.mem_append]
    exact (List.mem_append.mp (sublist.subset (List.mem_map_of_mem isSite))).imp isNode isNode
  rcases List.sublist_append_iff.mp sublist with ⟨isFormer, isLatter, whole, formerSublist, latterSublist⟩
  rcases List.map_eq_append_iff.mp whole with ⟨former, latter, rfl, rfl, rfl⟩
  refine ⟨former, latter, rfl, isText, fun site isSite => ?_, fun site isSite => ?_⟩
  · rcases beside site (List.mem_append_left _ isSite) with ⟨side, isFirst, isTag⟩
    have isMember := isNode (formerSublist.subset (List.mem_map_of_mem isSite))
    have isBefore := isEarlier _ ((List.mem_append.mp isMember).resolve_right fun isBelow =>
      (divided.inner ((mem_texts_iff divided.wellFormed).mp isBelow).1).2 side isFirst)
    obtain rfl := divided.apart isFirst isBefore
    exact ⟨isFirst, isTag⟩
  · rcases beside site (List.mem_append_right _ isSite) with ⟨side, isFirst, isTag⟩
    obtain rfl := divided.apart isFirst
      (isLater _ (isNode (latterSublist.subset (List.mem_map_of_mem isSite))))
    exact ⟨isFirst, isTag⟩

theorem length_of_isolateAll {nodes : List NodeId}
    (done : isolateAll delimiters pairs document = .ok nodes after) : nodes.length = pairs.length := by
  induction pairs generalizing nodes after with
  | nil =>
      rw [isolateAll, pure_eq_ok] at done
      rw [← done.1]
      rfl
  | cons marks pairs inductionHypothesis =>
      simp only [isolateAll, bind_eq_ok, pure_eq_ok] at done
      rcases done with ⟨nodes, middle, laterDone, node, _, -, rfl, -⟩
      rw [List.length_cons, inductionHypothesis laterDone, List.length_cons]

/-- Where no tag covers a text below the core, the tags keep clear of it. -/
theorem clear_of_outside (divided : document.Divided core above part)
    (inside : document.LiesIn root core)
    (split : document.places (document.texts root) = lead ++ regions.flatMap TagRegion.places)
    (fits : List.Forall₂ (TagRegion.Fits delimiters) pairs regions)
    (ends : List.Forall₂ (fun marks region => ∃ place : Place, region.opening.head? = some place ∧
      ∀ tag, place.node = (TagMarks.site delimiters document marks tag).first) pairs regions)
    (lengths : pairs.length = tags.length)
    (outside : ∀ site ∈ (pairs.zip tags).map fun (marks, tag) => marks.site delimiters document tag,
      ∀ text ∈ document.texts core, ¬site.Covers document root text) :
    List.Forall₂ (fun marks region => TagRegion.Fits delimiters marks region ∧
      region.Clear part (document.texts core = []) marks) pairs regions := by
  rw [List.forall₂_iff_zip] at fits ends ⊢
  refine ⟨fits.1, fun {marks region} isPair => ⟨fits.2 isPair, ?_⟩⟩
  rcases ends.2 isPair with ⟨place, isFirst, isSite⟩
  have isMember := (List.of_mem_zip isPair).1
  rw [← List.map_fst_zip (Nat.le_of_eq lengths), List.mem_map] at isMember
  rcases isMember with ⟨⟨_, tag⟩, isMember, rfl⟩
  refine clear_of_not_covers divided inside ⟨isFirst, isSite tag⟩ (fits.2 isPair) rfl ?_
    (outside _ (List.mem_map_of_mem isMember))
  rw [split, List.flatMap_def]
  exact (List.sublist_flatten_of_mem (List.mem_map_of_mem (List.of_mem_zip isPair).2)).trans
    (List.sublist_append_right _ _)

/-- **Tags are taken out beside a node.** Where no text below a node stands within the text of a tag,
the tags fall into those before the node and those after it, and taking them out edits each on its own
side. -/
theorem exists_of_takeTags (divided : document.Divided core above part)
    (inside : document.LiesIn root core) (leading : document.Leading root (document.texts root))
    (usable : delimiters.validate = .ok ())
    (visited : ∀ text ∈ document.texts root, ∃ segment ∈ document.segments levels root, text ∈ segment)
    (outside : ∀ site ∈ sites delimiters (Scan.run delimiters levels document root).marks document,
      ∀ text ∈ document.texts core, ¬site.Covers document root text)
    (done : takeTags delimiters (Scan.run delimiters levels document root).marks document =
      .ok tags after) :
    ∃ part' former latter, Divides document after core above part part' ∧
      sites delimiters (Scan.run delimiters levels document root).marks document = former ++ latter ∧
      tags = former.map TagSite.tag ++ latter.map TagSite.tag ∧
      (∀ site ∈ former ++ latter, site.first ∈ document.texts root) ∧
      (∀ site ∈ former, part .before site.first ∧ part' .before site.tag.textNode) ∧
      ∀ site ∈ latter, part .after site.first ∧ part' .after site.tag.textNode := by
  have wellFormed := leading.wellFormed
  rcases exists_regions_of_takeTags wellFormed usable visited done with
    ⟨pairs, lead, regions, paired, split, fits⟩
  have isDone := done
  simp only [takeTags, get_bind, bind_eq_ok, ofExcept_eq_ok] at done
  rcases done with ⟨pairs', _, ⟨paired', rfl⟩, nodes, isolated, isolateDone, readDone⟩
  rw [paired, Except.ok.injEq] at paired'
  subst paired'
  have isSites : sites delimiters (Scan.run delimiters levels document root).marks document =
      (pairs.zip tags).map fun (marks, tag) => marks.site delimiters document tag := by
    rw [sites, paired, isDone]
  have lengths : pairs.length = tags.length := by
    rw [← length_of_isolateAll isolateDone, ← textNodes_of_takeAll readDone, List.length_map]
  have nonempty := Delimiters.marker_ne_nil usable true
  have ends : List.Forall₂ (fun marks region => ∃ place : Place,
      region.opening.head? = some place ∧
        ∀ tag, place.node = (TagMarks.site delimiters document marks tag).first) pairs regions := by
    rw [List.forall₂_iff_zip] at fits ⊢
    refine fits.imp_right fun here marks region isPair => ?_
    exact exists_first leading nonempty (here isPair) split (List.of_mem_zip isPair).2
  have clear := clear_of_outside divided inside split fits ends lengths (isSites ▸ outside)
  rcases exists_of_isolateAll divided inside leading clear split isolateDone with
    ⟨part₁, front, toIsolated, -, -, beside⟩
  have isPart : ∀ node ∈ nodes, ∃ side, part₁ side node := by
    refine forall_of_forall₂ beside ?_
    rintro region node ⟨place, side, -, -, isNode⟩
    exact ⟨side, isNode⟩
  rcases exists_of_takeAll toIsolated.divided isPart readDone with ⟨part', toAfter⟩
  have beside : List.Forall₂ (Beside part part') regions (tags.map Tag.textNode) := by
    rw [textNodes_of_takeAll readDone]
    refine beside.imp ?_
    rintro region node ⟨place, side, isFirst, isStart, isNode⟩
    exact ⟨place, side, isFirst, isStart, toAfter.grows isNode⟩
  rw [isSites]
  rcases exists_sides divided inside split (stands_of_beside ends beside) with
    ⟨former, latter, whole, isText, isFormer, isLatter⟩
  rw [whole] at isText
  refine ⟨part', former, latter, toIsolated.trans toAfter wellFormed, whole, ?_, isText, isFormer,
    isLatter⟩
  rw [← List.map_append, ← whole, List.map_map]
  exact (List.map_snd_zip (Nat.le_of_eq lengths.symm)).symm

end Extraction

end WordTemplate
