import WordTemplate.Proofs.Document.Dividing
import WordTemplate.Proofs.Tag.Partition
import WordTemplate.Proofs.Word.Leading
import WordTemplate.Proofs.Word.Sparing

/-!
# Taking tags out beside a node

Each step of taking a tag out is an edit on one side of a node that is kept, provided that no text
below that node stands within the text of the tag. The induction is on the tags from the last to the
first: the leading text nodes, in which the earlier tags stand, are as they were.
-/

namespace WordTemplate

open Outcome

namespace Document

variable {document after : Document} {core id root start stop tail : NodeId} {above : NodeId → Prop}
  {part : Side → NodeId → Prop} {side other : Side} {left right first middle last : List NodeId}

/-- Of three stretches of a list the first is before and the last is behind what is in the middle. -/
theorem subset_around_middle (nodup : (left ++ id :: right).Nodup)
    (whole : left ++ id :: right = first ++ middle ++ last) (isMiddle : id ∈ middle) :
    first ⊆ left ∧ last ⊆ right := by
  rcases List.append_of_mem isMiddle with ⟨lead, trail, rfl⟩
  have regrouped : left ++ id :: right = (first ++ lead) ++ id :: (trail ++ last) := by
    rw [whole]
    simp
  rcases append_cons_inj nodup regrouped with ⟨rfl, rfl⟩
  exact ⟨List.subset_append_left _ _, List.subset_append_right _ _⟩

namespace Divided

variable (divided : document.Divided core above part)
include divided

theorem exists_of_splitText {offset : Nat} (isPart : part side id)
    (done : Edit.splitText id offset document = .ok tail after) :
    ∃ part', Divides document after core above part part' ∧ part' side tail := by
  rcases divided.divides_of_keeps (Edit.keeps_splitText (Or.inl isPart) offset) done with
    ⟨divides, isOpen⟩
  exact ⟨_, divides, part_of_open isOpen⟩

theorem exists_of_setText {characters : String} {result : Unit} (isPart : part side id)
    (done : Edit.setText id characters document = .ok result after) :
    ∃ part', Divides document after core above part part' :=
  ⟨_, (divided.divides_of_keeps (Edit.keeps_setText (Or.inl isPart) characters) done).1⟩

/-- Text nodes go away, each from its own side. -/
theorem exists_of_removeAll {absorbed : List NodeId} {result : Unit} (kept : NodeId)
    (sided : ∀ id ∈ absorbed, ∃ side, part side id)
    (done : absorbed.forM (Edit.removeAbsorbed kept) document = .ok result after) :
    ∃ part', Divides document after core above part part' := by
  induction absorbed generalizing document part with
  | nil =>
      obtain rfl := forM_nil_eq_ok.mp done
      exact ⟨part, Divides.refl divided⟩
  | cons id absorbed inductionHypothesis =>
      rcases forM_cons_eq_ok.mp done with ⟨middle, removeDone, restDone⟩
      rcases sided id List.mem_cons_self with ⟨side, isPart⟩
      have divides := (divided.divides_of_keeps
        (Edit.keeps_removeAbsorbed kept (Or.inl isPart)) removeDone).1
      rcases inductionHypothesis divides.divided (fun other isMember =>
        (sided other (List.mem_cons_of_mem _ isMember)).imp fun _ => divides.grows) restDone with
        ⟨part', divides'⟩
      exact ⟨part', divides.trans divides' divided.wellFormed⟩

theorem exists_of_joinText {result : Unit} (startPart : part side start)
    (sided : ∀ absorbed, document.textRange? (document.size + 1) start stop = some absorbed →
      ∀ id ∈ absorbed, ∃ side, part side id)
    (done : Edit.joinText start stop document = .ok result after) :
    ∃ part', Divides document after core above part part' := by
  rcases Edit.joinText_eq_ok.mp done with
    ⟨-, rfl⟩ | ⟨-, absorbed, extended, pruned, found, setDone, pruneDone, isAfter⟩
  · exact ⟨part, Divides.refl divided⟩
  rcases divided.exists_of_setText startPart setDone with ⟨part₁, toExtended⟩
  rcases toExtended.divided.exists_of_removeAll start (fun id isMember =>
    (sided absorbed found id isMember).imp fun _ => toExtended.grows) pruneDone with
    ⟨part₂, toPruned⟩
  have toPruned := toExtended.trans toPruned divided.wellFormed
  rw [keepingSpace] at isAfter
  split at isAfter
  · next element isElement =>
      have elementOpen := (toPruned.divided.holds side).open_of_textElement?
        (Or.inl (toPruned.grows startPart)) isElement
      have done : Edit.keepSpace element pruned = .ok ⟨⟩ after := Edit.keepSpace_eq_ok.mpr isAfter
      exact ⟨_, toPruned.trans
        (toPruned.divided.divides_of_keeps (Edit.keeps_keepSpace elementOpen.inZone) done).1
        divided.wellFormed⟩
  · exact ⟨part₂, isAfter ▸ toPruned⟩

/-- Text nodes that are joined stand beside the core if there is no text below it or if the joint is
on one side of it. -/
theorem sided_of_textRange? {steps : Nat} {absorbed : List NodeId}
    (inside : document.LiesIn root core) (plain : document.PlainBelow root)
    (detached : document.parent root = none) (whole : document.texts root = left ++ start :: right)
    (found : document.textRange? steps start stop = some absorbed) (startPart : part side start)
    (stopPart : part other stop) (clear : document.texts core = [] ∨ side = other) :
    ∀ id ∈ absorbed, ∃ side, part side id := by
  have wellFormed := divided.wellFormed
  intro id isAbsorbed
  rcases divided.exists_texts inside with ⟨earlier, later, around, isEarlier, isLater⟩
  rcases exists_of_textRange? wellFormed plain detached whole found with ⟨rest, rfl, isLast⟩
  have isMember : id ∈ earlier ++ document.texts core ++ later := by
    rw [← around, whole]
    simp [isAbsorbed]
  rcases List.mem_append.mp isMember with isMember | isMember
  · rcases List.mem_append.mp isMember with isMember | isBelow
    · exact ⟨.before, isEarlier id isMember⟩
    rcases clear with silent | rfl
    · rw [silent] at isBelow
      cases isBelow
    -- Below the core the joint would reach over from its side.
    have nodup := nodup_texts wellFormed root
    rcases List.append_of_mem isAbsorbed with ⟨lead, trail, rfl⟩
    have split : document.texts root = (left ++ start :: lead) ++ id :: (trail ++ rest) := by
      rw [whole]
      simp
    have outside : ∀ {text}, part side text → text ∉ document.texts core := fun isPart isText =>
      (divided.inner ((mem_texts_iff wellFormed).mp isText).1).2 side isPart
    have stopBehind : stop ∈ trail := by
      have isMember : stop ∈ id :: trail := by
        rw [← List.cons_append, List.getLast?_append_of_ne_nil _ (by simp)] at isLast
        exact List.mem_of_getLast? isLast
      refine (List.mem_cons.mp isMember).resolve_left ?_
      rintro rfl
      exact outside stopPart isBelow
    rcases subset_around_middle (split ▸ nodup) (split ▸ around) isBelow with ⟨isLead, isTrail⟩
    rw [split] at nodup
    have apart := List.disjoint_of_nodup_append nodup
    have elsewhere : ∀ {text}, part side text → text ∈ document.texts root →
        (side = .before → text ∈ earlier) ∧ (side = .after → text ∈ later) := by
      intro text isPart isText
      rw [around, List.mem_append, List.mem_append] at isText
      rcases isText with (isMember | isMember) | isMember
      · exact ⟨fun _ => isMember, fun isSide =>
          absurd (divided.apart (isEarlier text isMember) isPart) (by simp [isSide])⟩
      · exact absurd isMember (outside isPart)
      · exact ⟨fun isSide => absurd (divided.apart (isLater text isMember) isPart) (by simp [isSide]),
          fun _ => isMember⟩
    cases side with
    | before =>
        have isEarlier := (elsewhere stopPart (by rw [split]; simp [stopBehind])).1 rfl
        exact absurd (List.mem_cons_of_mem id (List.mem_append_left rest stopBehind))
          (apart (isLead isEarlier))
    | after =>
        have isLater := (elsewhere startPart (by rw [whole]; simp)).2 rfl
        have isBehind : start ∈ id :: (trail ++ rest) := List.mem_cons_of_mem _ (isTrail isLater)
        have isAhead : start ∈ left ++ start :: lead := by simp
        exact absurd isBehind (apart isAhead)
  · exact ⟨.after, isLater id isMember⟩

end Divided

end Document

open Document

/-- No text below the core stands within the text of a tag: the tag begins and ends beside the core,
and on the same side of it if there is text below it. -/
def TagRegion.Clear (region : TagRegion) (part : Side → NodeId → Prop) (silent : Prop)
    (marks : TagMarks) : Prop :=
  ∃ place side other, region.opening.head? = some place ∧ part side place.node ∧
    part other marks.stop.node ∧ (silent ∨ side = other)

namespace Extraction

variable {document after : Document} {core root id node : NodeId} {above : NodeId → Prop}
  {part : Side → NodeId → Prop} {side other : Side} {front left : List NodeId}
  {before behind : List Char} {delimiters : Delimiters} {marks : TagMarks} {region : TagRegion}
  {lead : List Place}

/-- The text behind an offset is cut off on the side of its text node. -/
theorem exists_of_trim (divided : document.Divided core above part) (isPart : part side id)
    (leading : document.Leading root (left ++ [id]))
    (text : (document.textOf id).toList = before ++ behind)
    (trims : if Text.byteLength before < (document.textOf id).utf8ByteSize then
        ∃ tail, Edit.splitText id (Text.byteLength before) document = .ok tail after
      else after = document) :
    ∃ part', Divides document after core above part part' ∧ after.Leading root (left ++ [id]) ∧
      after.textOf id = String.ofList before ∧
      ∀ other ∈ left, after.textOf other = document.textOf other := by
  have size : (document.textOf id).utf8ByteSize = Text.byteLength before + Text.byteLength behind := by
    rw [Text.utf8ByteSize_eq, text, Text.byteLength_append]
  split at trims
  · rcases trims with ⟨tail, splitDone⟩
    rcases divided.exists_of_splitText isPart splitDone with ⟨part', divides, -⟩
    rcases Edit.leading_of_splitText leading splitDone with
      ⟨first, second, isCut, afterLeads, isFirst, same, -⟩
    rw [text, Text.splitAtByte?_byteLength_append, Option.some.injEq, Prod.mk.injEq] at isCut
    refine ⟨part', divides, afterLeads, isCut.1 ▸ isFirst, fun other isLeft => same other ?_ ?_⟩
    · exact lt_size_below (leading.mem_iff (List.mem_append_left _ isLeft)).1 leading.inStore
    · rintro rfl
      have nodup := (nodup_texts leading.wellFormed root).sublist leading.leads.sublist
      exact (List.nodup_append.mp nodup).2.2 other isLeft other (by simp) rfl
  · next isWhole =>
      subst trims
      have isNone : behind = [] := Text.byteLength_eq_zero_iff.mp (by omega)
      refine ⟨part, Divides.refl divided, leading, ?_, fun _ _ => rfl⟩
      rw [← String.ofList_toList (s := after.textOf id), text, isNone, List.append_nil]

/-- The leading text nodes stay when later ones are joined into the last of them. -/
theorem exists_of_join {start stop : NodeId} {result : Unit} (divided : document.Divided core above part)
    (inside : document.LiesIn root core) (leading : document.Leading root (left ++ [start]))
    (startPart : part side start) (stopPart : part other stop)
    (clear : document.texts core = [] ∨ side = other)
    (done : Edit.joinText start stop document = .ok result after) :
    ∃ part', Divides document after core above part part' ∧ after.Leading root (left ++ [start]) ∧
      ∀ other ∈ left, after.textOf other = document.textOf other := by
  have wellFormed := leading.wellFormed
  rcases leading.leads with ⟨rest, whole⟩
  have whole' : document.texts root = left ++ start :: rest := by
    rw [← whole]
    exact (List.append_cons _ _ _).symm
  have nodup := nodup_texts wellFormed root
  rcases divided.exists_of_joinText startPart (fun absorbed found =>
    divided.sided_of_textRange? inside leading.plain leading.detached whole' found startPart stopPart
      clear) done with ⟨part', divides⟩
  have later : ∀ absorbed, document.textRange? (document.size + 1) start stop = some absorbed →
      ∀ id ∈ absorbed, document.isText id = true ∧ id ∉ left ++ [start] := by
    intro absorbed found id isAbsorbed
    rcases exists_of_textRange? wellFormed leading.plain leading.detached whole' found with
      ⟨beyond, rfl, -⟩
    have isMember : id ∈ document.texts root := by
      rw [whole']
      simp [isAbsorbed]
    refine ⟨((mem_texts_iff wellFormed).mp isMember).2, fun isLeading => ?_⟩
    rw [← whole] at nodup
    exact (List.nodup_append.mp nodup).2.2 id isLeading id (List.mem_append_left _ isAbsorbed) rfl
  rcases Edit.leading_of_joinText leading later done with ⟨afterLeads, same⟩
  refine ⟨part', divides, afterLeads, fun other isLeft => same other ?_⟩
  rintro rfl
  rw [whole', List.nodup_middle, List.nodup_cons] at nodup
  exact nodup.1 (List.mem_append_left _ isLeft)

/-- The text of a tag is gathered beside the core, and the text nodes before it keep their text. -/
theorem exists_of_gather {first last : NodeId} (divided : document.Divided core above part)
    (inside : document.LiesIn root core) (leading : document.Leading root (left ++ [first]))
    (text : (document.textOf first).toList = before ++ behind) (firstPart : part side first)
    (lastPart : part other last) (clear : document.texts core = [] ∨ side = other)
    (done : gather first last (Text.byteLength before) document = .ok node after) :
    ∃ part' front', Divides document after core above part part' ∧ part' side node ∧
      after.Leading root front' ∧
      after.places front' = document.places left ++ Place.allFrom first 0 before := by
  have wellFormed := leading.wellFormed
  have nodup := (nodup_texts wellFormed root).sublist leading.leads.sublist
  rw [gather] at done
  split at done
  · next isStart =>
      simp only [bind_eq_ok, edit_eq_ok, pure_eq_ok] at done
      rcases done with ⟨⟨⟩, joined, joinDone, rfl, rfl⟩
      have isNone : before = [] := Text.byteLength_eq_zero_iff.mp isStart
      subst isNone
      rcases exists_of_join divided inside leading firstPart lastPart clear joinDone with
        ⟨part', divides, joinedLeads, same⟩
      refine ⟨part', left, divides, divides.grows firstPart,
        joinedLeads.shorter (List.prefix_append _ _), ?_⟩
      rw [Place.allFrom, List.append_nil]
      exact places_congr same
  · simp only [bind_eq_ok, edit_eq_ok, pure_eq_ok] at done
    rcases done with ⟨tail, cutDocument, splitDone, ⟨⟩, joined, joinDone, rfl, rfl⟩
    rcases divided.exists_of_splitText firstPart splitDone with ⟨part₁, toCut, tailPart⟩
    rcases Edit.leading_of_splitText leading splitDone with
      ⟨head, extra, isCut, cutLeads, isHead, cutSame, rest, cutTexts, isRest⟩
    rw [text, Text.splitAtByte?_byteLength_append, Option.some.injEq, Prod.mk.injEq] at isCut
    rcases List.append_of_mem isRest with ⟨between, beyond, rfl⟩
    have cutTexts' : cutDocument.texts root = (left ++ first :: between) ++ [tail] ++ beyond := by
      rw [cutTexts]
      simp
    have tailLeads : cutDocument.Leading root ((left ++ first :: between) ++ [tail]) :=
      ⟨cutLeads.wellFormed, cutLeads.inStore, cutLeads.detached, cutLeads.childless, beyond,
        cutTexts'.symm⟩
    have stopPart : part₁ (if first = last then side else other)
        (if first = last then tail else last) := by
      split
      · exact tailPart
      · exact toCut.grows lastPart
    have cutClear : cutDocument.texts core = [] ∨ side = if first = last then side else other := by
      rw [toCut.texts_core wellFormed]
      refine clear.imp_right fun same => ?_
      rw [← same, ite_self]
    rcases exists_of_join toCut.divided (toCut.liesIn_core divided inside) tailLeads tailPart stopPart
      cutClear joinDone with ⟨part', toJoined, joinedLeads, same⟩
    have isPrefix : left ++ [first] <+: (left ++ first :: between) ++ [tail] :=
      ⟨between ++ [tail], by simp⟩
    refine ⟨part', left ++ [first], toCut.trans toJoined wellFormed, toJoined.grows tailPart,
      joinedLeads.shorter isPrefix, ?_⟩
    rw [places_congr fun other isMember => same other (by
        simp only [List.mem_append, List.mem_cons, List.not_mem_nil, or_false] at isMember ⊢
        exact isMember.imp_right Or.inl), places_append, places_singleton, isHead, ← isCut.1,
      String.toList_ofList]
    refine congrArg (· ++ _) (places_congr fun other isLeft => cutSame other ?_ ?_)
    · exact lt_size_below (leading.mem_iff (List.mem_append_left _ isLeft)).1 leading.inStore
    · rintro rfl
      exact (List.nodup_append.mp nodup).2.2 other isLeft other (by simp) rfl

/-- The last tag of a leading part of the text nodes is taken into a node on the side of the core on
which the tag begins. -/
theorem exists_of_isolate {place : Place} (divided : document.Divided core above part)
    (inside : document.LiesIn root core) (leading : document.Leading root front)
    (fits : region.Fits delimiters marks)
    (split : document.places front = lead ++ region.places)
    (isFirst : region.opening.head? = some place) (startPart : part side place.node)
    (stopPart : part other marks.stop.node) (clear : document.texts core = [] ∨ side = other)
    (done : isolate delimiters marks document = .ok node after) :
    ∃ part' front', Divides document after core above part part' ∧ part' side node ∧
      after.Leading root front' ∧ after.places front' = lead := by
  have wellFormed := leading.wellFormed
  rcases leading.leads with ⟨back, whole⟩
  rcases fits.start_eq with ⟨ahead, startChar, isOpening⟩
  rcases isolate_eq_ok.mp done with ⟨first, offset, trimmed, begins, trims, gathers⟩
  have split' : document.places front =
      lead ++ region.opening ++ (region.inner ++ region.closing ++ region.following) := by
    rw [split, TagRegion.places, TagRegion.tag]
    simp
  rw [tagBegin_of_places wellFormed leading.plain leading.inStore whole.symm split' isOpening fits.opens
    isFirst, Except.ok.injEq, Prod.mk.injEq] at begins
  rcases begins with ⟨rfl, rfl⟩
  rcases List.head?_eq_some_iff.mp isFirst with ⟨opening, isPlaces⟩
  -- The text behind the tag is cut off on the side on which the tag ends.
  rcases exists_of_stop fits split with ⟨earlier, later, left, right, rfl, text, isCut, isTag, -⟩
  have toStop : document.Leading root (earlier ++ [marks.stop.node]) :=
    leading.shorter ⟨later, by simp⟩
  rcases exists_of_trim divided stopPart toStop text (isCut ▸ trims) with
    ⟨part₁, toTrimmed, trimmedLeads, isTrimmed, trimmedSame⟩
  have trimmedPlaces : trimmed.places (earlier ++ [marks.stop.node]) =
      lead ++ place :: (opening ++ region.inner ++ region.closing) := by
    rw [places_append, places_congr trimmedSame, places_singleton, isTrimmed, String.toList_ofList,
      isTag, TagRegion.tag, isPlaces]
    rfl
  -- From its beginning on the tag is gathered.
  rcases exists_of_places_eq trimmedPlaces with
    ⟨before, others, ahead', right', whole', text', offset', isLead', -⟩
  have toStart : trimmed.Leading root (before ++ [place.node]) :=
    trimmedLeads.shorter (whole' ▸ ⟨others, by simp⟩)
  have clear' : trimmed.texts core = [] ∨ side = other := by
    rwa [toTrimmed.texts_core wellFormed]
  rcases exists_of_gather toTrimmed.divided (toTrimmed.liesIn_core divided inside) toStart text'
    (toTrimmed.grows startPart) (toTrimmed.grows stopPart) clear' (offset' ▸ gathers) with
    ⟨part', front', toAfter, isPart, afterLeads, isFront⟩
  exact ⟨part', front', toTrimmed.trans toAfter wellFormed, isPart, afterLeads,
    isFront.trans isLead'.symm⟩

/-- A tag has its node on the side of the core on which it begins. -/
def Beside (part part' : Side → NodeId → Prop) (region : TagRegion) (node : NodeId) : Prop :=
  ∃ place side, region.opening.head? = some place ∧ part side place.node ∧ part' side node

/-- All tags are taken into nodes of their own beside the core. -/
theorem exists_of_isolateAll {pairs : List TagMarks} {regions : List TagRegion} {nodes : List NodeId}
    (divided : document.Divided core above part) (inside : document.LiesIn root core)
    (leading : document.Leading root (document.texts root))
    (fits : List.Forall₂ (fun marks region => TagRegion.Fits delimiters marks region ∧
      region.Clear part (document.texts core = []) marks) pairs regions)
    (split : document.places (document.texts root) = lead ++ regions.flatMap TagRegion.places)
    (done : isolateAll delimiters pairs document = .ok nodes after) :
    ∃ part' front', Divides document after core above part part' ∧ after.Leading root front' ∧
      after.places front' = lead ∧ List.Forall₂ (Beside part part') regions nodes := by
  induction fits generalizing lead nodes after with
  | nil =>
      rw [isolateAll, pure_eq_ok] at done
      rcases done with ⟨rfl, rfl⟩
      rw [List.flatMap_nil, List.append_nil] at split
      exact ⟨part, _, Divides.refl divided, leading, split, .nil⟩
  | @cons marks region pairs regions here _ inductionHypothesis =>
      simp only [isolateAll, bind_eq_ok, pure_eq_ok] at done
      rcases done with ⟨laterNodes, middle, laterDone, node, after', nodeDone, rfl, rfl⟩
      have split' : document.places (document.texts root) =
          (lead ++ region.places) ++ regions.flatMap TagRegion.places := by
        rw [split, List.flatMap_cons, List.append_assoc]
      rcases inductionHypothesis split' laterDone with
        ⟨part₁, front, toMiddle, middleLeads, isFront, beside⟩
      rcases here with ⟨hereFits, place, side, other, isFirst, startPart, stopPart, clear⟩
      have clear' : middle.texts core = [] ∨ side = other := by
        rwa [toMiddle.texts_core divided.wellFormed]
      rcases exists_of_isolate toMiddle.divided (toMiddle.liesIn_core divided inside) middleLeads
        hereFits isFront isFirst (toMiddle.grows startPart) (toMiddle.grows stopPart) clear' nodeDone with
        ⟨part', front', toAfter, isPart, afterLeads, isLead⟩
      refine ⟨part', front', toMiddle.trans toAfter divided.wellFormed, afterLeads, isLead,
        .cons ⟨place, side, isFirst, startPart, isPart⟩ (beside.imp ?_)⟩
      rintro region node ⟨place, side, isFirst, isStart, isNode⟩
      exact ⟨place, side, isFirst, isStart, toAfter.grows isNode⟩

/-- Each tag is tied to the node that it was read from. -/
theorem textNodes_of_takeAll {nodes : List NodeId} {tags : List Tag}
    (done : nodes.mapM (takeTag delimiters) document = .ok tags after) :
    tags.map Tag.textNode = nodes := by
  induction nodes generalizing document after tags with
  | nil =>
      rw [List.mapM_nil, pure_eq_ok] at done
      rw [← done.1]
      rfl
  | cons node nodes inductionHypothesis =>
      simp only [List.mapM_cons, bind_eq_ok, pure_eq_ok] at done
      rcases done with ⟨tag, middle, takeDone, laterTags, _, laterDone, rfl, -⟩
      simp only [takeTag, get_bind, bind_eq_ok, ofExcept_eq_ok, pure_eq_ok] at takeDone
      rcases takeDone with ⟨tag, _, ⟨isRead, -⟩, _, _, -, rfl, -⟩
      rcases read_cases delimiters node (document.textOf node) with
        ⟨cause, failed⟩ | ⟨tag', isRead', isNode, -⟩
      · rw [failed] at isRead
        cases isRead
      · rw [isRead', Except.ok.injEq] at isRead
        rw [List.map_cons, inductionHypothesis laterDone, ← isRead, isNode]

/-- Reading the tags empties their nodes. -/
theorem exists_of_takeAll {nodes : List NodeId} {tags : List Tag}
    (divided : document.Divided core above part) (isPart : ∀ node ∈ nodes, ∃ side, part side node)
    (done : nodes.mapM (takeTag delimiters) document = .ok tags after) :
    ∃ part', Divides document after core above part part' := by
  induction nodes generalizing document part tags with
  | nil =>
      rw [List.mapM_nil, pure_eq_ok] at done
      exact done.2 ▸ ⟨part, Divides.refl divided⟩
  | cons node nodes inductionHypothesis =>
      simp only [List.mapM_cons, bind_eq_ok, pure_eq_ok] at done
      rcases done with ⟨tag, middle, takeDone, laterTags, after', laterDone, -, rfl⟩
      simp only [takeTag, get_bind, bind_eq_ok, ofExcept_eq_ok, edit_eq_ok, pure_eq_ok] at takeDone
      rcases takeDone with ⟨_, _, ⟨-, rfl⟩, ⟨⟩, emptied, setDone, -, rfl⟩
      rcases isPart node List.mem_cons_self with ⟨side, isNode⟩
      rcases divided.exists_of_setText isNode setDone with ⟨part₁, toEmptied⟩
      rcases inductionHypothesis toEmptied.divided (fun other isMember =>
        (isPart other (List.mem_cons_of_mem _ isMember)).imp fun _ => toEmptied.grows) laterDone with
        ⟨part', toAfter⟩
      exact ⟨part', toEmptied.trans toAfter divided.wellFormed⟩

end Extraction

end WordTemplate
