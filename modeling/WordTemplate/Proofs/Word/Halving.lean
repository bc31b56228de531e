import WordTemplate.Proofs.Document.Succeeding
import WordTemplate.Proofs.Document.Trees
import WordTemplate.Proofs.Word.Splitting

/-!
# Splitting a node and the nodes above it

Any node that has a parent can be split at one of its children. The new right half starts with copies
of the properties that precede the cut, with the same trees, and goes on with the children after the
cut. Climbing from a node and splitting each parent on the way therefore cuts every node up to the
topmost one into a left half, which is the node itself, and a right half: `CleavedAlong` says for
each node of the path what its two halves are.
-/

namespace WordTemplate

namespace Document

variable {document base before middle after : Document} {id child parent half whole : NodeId}
  {leading trailing lefts rights path halves : List NodeId}

/-- `whole` was split around its child `child`: it keeps the children before that, followed by
`lefts`, and the new node `half` has copies of the properties among them, then `rights`, then the
children after the cut. What lies below the other children stays as it was. -/
structure Cleaved (before after : Document) (child whole half : NodeId) (lefts rights : List NodeId) :
    Prop where
  half_new : before.size ≤ half.index
  half_lt : half.index < after.size
  half_content : after.content half = before.content whole
  parts : ∃ leading trailing copies, before.children whole = leading ++ child :: trailing ∧
    after.children whole = leading ++ lefts ∧
    after.children half = copies ++ rights ++ trailing ∧
    (∀ copy ∈ copies, before.size ≤ copy.index ∧ after.isProperties copy = true) ∧
    copies.map after.tree = (leading.filter before.isProperties).map before.tree
  siblings_kept : ∀ sibling ∈ before.children whole, sibling ≠ child →
    ∀ id, before.LiesIn sibling id → after.children id = before.children id

/-- The nodes of a path that climbs from `child` are cleaved, each between the halves of the node
before it. -/
inductive CleavedAlong (before after : Document) :
    (child : NodeId) → (lefts rights path halves : List NodeId) → Prop
  | nil {child : NodeId} {lefts rights : List NodeId} :
      CleavedAlong before after child lefts rights [] []
  | cons {child parent half : NodeId} {lefts rights path halves : List NodeId}
      (cleaved : Cleaved before after child parent half lefts rights)
      (further : CleavedAlong before after parent [parent] [half] path halves) :
      CleavedAlong before after child lefts rights (parent :: path) (half :: halves)

/-- What stands beside a child are other children. -/
theorem isSibling_of_around {sibling : NodeId} (wellFormed : document.WellFormed)
    (around : document.children whole = leading ++ child :: trailing)
    (isMember : sibling ∈ leading ++ trailing) :
    sibling ∈ document.children whole ∧ sibling ≠ child := by
  have nodup := wellFormed.nodup_children whole
  rw [around, List.nodup_middle, List.nodup_cons] at nodup
  constructor
  · rw [around, List.mem_append, List.mem_cons, or_left_comm, ← List.mem_append]
    exact Or.inr isMember
  · rintro rfl
    exact nodup.1 isMember

/-- A node stays below another one if the children of the nodes between them stay. -/
theorem LiesIn.of_children_eq {top : NodeId} (inside : before.LiesIn top id)
    (wellFormed : before.WellFormed) (wellFormed' : after.WellFormed)
    (children_eq : ∀ other, before.LiesIn top other → after.children other = before.children other) :
    after.LiesIn top id := by
  induction inside using Relation.ReflTransGen.head_induction_on with
  | refl => exact LiesIn.refl
  | @head id parent isParent above inductionHypothesis =>
      have above : before.LiesIn top parent := above
      have isChild := (wellFormed.mem_children_iff _ _).mpr isParent
      rw [← children_eq parent above, wellFormed'.mem_children_iff] at isChild
      exact LiesIn.of_parent isChild inductionHypothesis

theorem Halves.size_le {kept moved : List NodeId}
    (halves : Halves before after whole half kept moved) : before.size ≤ after.size :=
  Nat.le_of_lt (Nat.lt_of_le_of_lt halves.right_new halves.right_lt)

/-- What stands at and above the node that is split keeps its place. -/
theorem Halves.parent_above {kept moved : List NodeId} {other : NodeId}
    (halves : Halves before after whole half kept moved) (wellFormed : before.WellFormed)
    (isParent : before.parent child = some whole) (above : before.LiesIn other whole) :
    after.parent other = before.parent other := by
  have isOld := lt_size_of_liesIn wellFormed above (parent_lt_size wellFormed isParent)
  refine halves.parent_eq other isOld fun isMoved => ?_
  refine not_liesIn_of_parent wellFormed ?_ above
  rw [← wellFormed.mem_children_iff, halves.children_before]
  exact List.mem_append_right _ isMoved

/-- Nothing changes below the other children of a node above the one that is split. -/
theorem Halves.children_beside {kept moved : List NodeId} {sibling other : NodeId}
    (halves : Halves before after whole half kept moved) (wellFormed : before.WellFormed)
    (isParent : before.parent child = some parent) (isSibling : before.parent sibling = some parent)
    (differ : sibling ≠ child) (above : before.LiesIn child whole)
    (inside : before.LiesIn sibling other) : after.children other = before.children other := by
  have apart : ∀ id, before.LiesIn child id → ¬before.LiesIn sibling id := fun id =>
    not_liesIn_of_siblings wellFormed isParent isSibling differ.symm
  refine halves.children_eq other (lt_size_below inside (lt_size_of_parent isSibling)) ?_ ?_
  · rintro rfl
    exact apart other above inside
  · intro isOuter
    rcases above.cases_above isOuter with same | above'
    · rw [same, isParent, Option.some.injEq] at isOuter
      subst isOuter
      exact not_liesIn_of_parent wellFormed isSibling inside
    · exact apart other above' inside

namespace Cleaved

/-- What later edits leave of a division: they may take nodes out of the left half, and change
nothing else below the halves. -/
theorem later (lower : Cleaved before middle child whole half lefts rights)
    (middleFormed : middle.WellFormed) (size_le : middle.size ≤ after.size)
    (content_eq : ∀ id, id.index < middle.size → after.content id = middle.content id)
    (keep : NodeId → Bool) (children_eq : after.children whole = (middle.children whole).filter keep)
    (keeps : ∀ id ∈ before.children whole, id ≠ child → keep id = true)
    (half_eq : ∀ id, middle.LiesIn half id → after.children id = middle.children id)
    (wellFormed : before.WellFormed)
    (siblings_eq : ∀ sibling ∈ before.children whole, sibling ≠ child →
      ∀ id, before.LiesIn sibling id → after.children id = middle.children id) :
    Cleaved before after child whole half (lefts.filter keep) rights := by
  rcases lower.parts with
    ⟨leading, trailing, copies, around, children_whole, children_half, copiesNew, trees⟩
  have leadingKept : leading.filter keep = leading := by
    refine List.filter_eq_self.mpr fun id isMember => ?_
    rcases isSibling_of_around wellFormed around (List.mem_append_left _ isMember) with
      ⟨isChild, differ⟩
    exact keeps id isChild differ
  have copyInside : ∀ copy ∈ copies, middle.LiesIn half copy := by
    intro copy isCopy
    refine LiesIn.parent ((middleFormed.mem_children_iff _ _).mp ?_)
    rw [children_half]
    simp [isCopy]
  have below_lt : ∀ id, middle.LiesIn half id → id.index < middle.size := fun id inside =>
    lt_size_below inside lower.half_lt
  refine ⟨lower.half_new, Nat.lt_of_lt_of_le lower.half_lt size_le, ?_, ?_, ?_⟩
  · rw [content_eq half lower.half_lt, lower.half_content]
  · refine ⟨leading, trailing, copies, around, ?_, ?_, ?_, ?_⟩
    · rw [children_eq, children_whole, List.filter_append, leadingKept]
    · rw [half_eq half LiesIn.refl, children_half]
    · intro copy isCopy
      refine ⟨(copiesNew copy isCopy).1, ?_⟩
      have isProperties := (copiesNew copy isCopy).2
      rwa [isProperties_of_content_eq
        (content_eq copy (below_lt copy (copyInside copy isCopy)))]
    · rw [← trees]
      refine List.map_congr_left fun copy isCopy => ?_
      refine tree_congr middleFormed size_le fun id inside => ?_
      have inside := inside.trans (copyInside copy isCopy)
      exact ⟨content_eq id (below_lt id inside), half_eq id inside⟩
  · intro sibling isSibling differ id inside
    rw [siblings_eq sibling isSibling differ id inside,
      lower.siblings_kept sibling isSibling differ id inside]

/-- What is cleaved after an earlier edit is cleaved in the document before it. The earlier edit may
have put nodes right after the child at the cut. -/
theorem earlier {inserted : List NodeId}
    (upper : Cleaved middle after child whole half lefts rights) (wellFormed : before.WellFormed)
    (middleFormed : middle.WellFormed) (size_le : before.size ≤ middle.size)
    (content_eq : ∀ id, id.index < before.size → middle.content id = before.content id)
    (whole_lt : whole.index < before.size)
    (around : before.children whole = leading ++ child :: trailing)
    (around' : middle.children whole = leading ++ child :: (inserted ++ trailing))
    (siblings_eq : ∀ sibling ∈ before.children whole, sibling ≠ child →
      ∀ id, before.LiesIn sibling id → middle.children id = before.children id) :
    Cleaved before after child whole half lefts (rights ++ inserted) := by
  rcases upper.parts with
    ⟨leading', trailing', copies, split, children_whole, children_half, copiesNew, trees⟩
  have nodup := middleFormed.nodup_children whole
  rw [around'] at split nodup
  rcases append_cons_inj nodup split with ⟨rfl, rfl⟩
  have sibling_of_leading : ∀ sibling ∈ leading,
      sibling ∈ before.children whole ∧ sibling ≠ child := fun sibling isMember =>
    isSibling_of_around wellFormed around (List.mem_append_left _ isMember)
  have leading_lt : ∀ sibling ∈ leading, sibling.index < before.size := fun sibling isMember =>
    lt_size_of_mem_children wellFormed (sibling_of_leading sibling isMember).1
  refine ⟨Nat.le_trans size_le upper.half_new, upper.half_lt, ?_, ?_, ?_⟩
  · rw [upper.half_content, content_eq whole whole_lt]
  · refine ⟨leading, trailing, copies, around, children_whole, ?_, ?_, ?_⟩
    · rw [children_half]
      simp
    · exact fun copy isCopy =>
        ⟨Nat.le_trans size_le (copiesNew copy isCopy).1, (copiesNew copy isCopy).2⟩
    · rw [trees]
      have sameFilter : leading.filter middle.isProperties = leading.filter before.isProperties :=
        List.filter_congr fun sibling isMember => by
          exact isProperties_of_content_eq (content_eq sibling (leading_lt sibling isMember))
      rw [sameFilter]
      refine List.map_congr_left fun sibling isMember => ?_
      have isMember := List.mem_of_mem_filter isMember
      rcases sibling_of_leading sibling isMember with ⟨isChild, differ⟩
      refine tree_congr wellFormed size_le fun id inside => ⟨content_eq id ?_, ?_⟩
      · exact lt_size_below inside (leading_lt sibling isMember)
      · exact siblings_eq sibling isChild differ id inside
  · intro sibling isSibling differ id inside
    have isSibling' : sibling ∈ middle.children whole := by
      rw [around] at isSibling
      rw [around']
      simp only [List.mem_append, List.mem_cons] at isSibling ⊢
      rcases isSibling with isMember | isMember | isMember
      · exact Or.inl isMember
      · exact Or.inr (Or.inl isMember)
      · exact Or.inr (Or.inr (Or.inr isMember))
    have inside' : middle.LiesIn sibling id := inside.of_children_eq wellFormed middleFormed
      (siblings_eq sibling isSibling differ)
    rw [upper.siblings_kept sibling isSibling' differ id inside',
      siblings_eq sibling isSibling differ id inside]

end Cleaved

/-- `top` was split in `before` along a path that climbs from `cut`, and `tail` is its right half. At
the lowest node of the path `lefts` and `rights` take the place of the cut. -/
structure SplitAlong (before after : Document) (cut top tail : NodeId)
    (lefts rights path halves : List NodeId) : Prop where
  wellFormed : after.WellFormed
  size_le : before.size ≤ after.size
  content_eq : ∀ id, id.index < before.size → after.content id = before.content id
  along : CleavedAlong before after cut lefts rights path halves
  ends : ∃ lower lowerHalves, path = lower ++ [top] ∧ halves = lowerHalves ++ [tail]
  beside : ∃ outer left rest, before.parent top = some outer ∧
    before.children outer = left ++ top :: rest ∧ after.children outer = left ++ top :: tail :: rest
  children_eq : ∀ id, id.index < before.size → id ∉ path → before.parent top ≠ some id →
    after.children id = before.children id
  parent_eq : ∀ id parent, before.parent cut = some parent → before.LiesIn id parent →
    after.parent id = before.parent id

/-- Splitting one node is splitting along a path of one node. -/
theorem Halves.splitAlong {kept moved : List NodeId}
    (halves : Halves before after whole half kept moved) (wellFormed : before.WellFormed)
    (isParent : before.parent child = some whole)
    (cleaved : Cleaved before after child whole half lefts rights) :
    SplitAlong before after child whole half lefts rights [whole] [half] := by
  refine ⟨halves.wellFormed, halves.size_le, halves.content_eq, .cons cleaved .nil,
    ⟨[], [], rfl, rfl⟩, ?_, ?_, ?_⟩
  · rcases halves.beside with ⟨outer, left, rest, isOuter, -, -, siblings, siblings'⟩
    exact ⟨outer, left, rest, isOuter, siblings, siblings'⟩
  · exact fun id isOld notOnPath => halves.children_eq id isOld (by simpa using notOnPath)
  · intro id parent isParent' above
    rw [isParent, Option.some.injEq] at isParent'
    subst isParent'
    exact halves.parent_above wellFormed isParent above

/-- Levels above an earlier split are cleaved as they are in the document before it. -/
theorem CleavedAlong.earlier {kept moved : List NodeId}
    (lower : Halves before middle whole half kept moved) (wellFormed : before.WellFormed)
    (along : CleavedAlong middle after child lefts rights path halves)
    (climbs : before.ClimbsFrom child path) (above : before.LiesIn child whole)
    (higher : ∀ outer, before.parent whole = some outer → outer ∉ path)
    (notWhole : whole ∉ path) : CleavedAlong before after child lefts rights path halves := by
  induction along with
  | nil => exact .nil
  | @cons child parent half lefts rights path halves cleaved further inductionHypothesis =>
      rcases climbs with ⟨isParent, climbs⟩
      rw [List.mem_cons, not_or] at notWhole
      have parent_lt := parent_lt_size wellFormed isParent
      have notOuter : before.parent whole ≠ some parent := fun isOuter =>
        higher parent isOuter List.mem_cons_self
      rcases Edit.exists_around wellFormed isParent with ⟨leading, trailing, around, -⟩
      have around' : middle.children parent = leading ++ child :: ([] ++ trailing) := by
        rw [lower.children_eq parent parent_lt (Ne.symm notWhole.1) notOuter, around, List.nil_append]
      have cleaved' := cleaved.earlier wellFormed lower.wellFormed lower.size_le lower.content_eq
        parent_lt around around' fun sibling isSibling differ id inside =>
          lower.children_beside wellFormed isParent ((wellFormed.mem_children_iff _ _).mp isSibling)
            differ above inside
      rw [List.append_nil] at cleaved'
      exact .cons cleaved' (inductionHypothesis climbs (above.trans (LiesIn.parent isParent))
        (fun outer isOuter isMember => higher outer isOuter (List.mem_cons_of_mem _ isMember))
        notWhole.2)

/-- The nodes that splits from `next` upwards reach are at and above `next`. -/
theorem ClimbsFrom.liesIn_next {top next : NodeId} (climbs : before.ClimbsFrom whole (next :: path))
    (onPath : top ∈ next :: path) (isReached : id ∈ next :: path ∨ before.parent top = some id) :
    before.LiesIn id next := by
  have above : ∀ other ∈ next :: path, before.LiesIn other next := by
    intro other isMember
    rcases List.mem_cons.mp isMember with rfl | further
    · exact LiesIn.refl
    · exact climbs.2.liesIn further
  rcases isReached with isMember | isOuter
  · exact above id isMember
  · exact (above top onPath).trans (LiesIn.parent isOuter)

namespace SplitAlong

section Climbing

variable {kept moved : List NodeId} {top tail next : NodeId}
  (lower : Halves before middle whole half kept moved)
  (upper : SplitAlong middle after whole top tail [whole] [] (next :: path) halves)
  (wellFormed : before.WellFormed) (isParent : before.parent child = some whole)
  (climbs : before.ClimbsFrom whole (next :: path)) (onPath : top ∈ next :: path)
include lower upper wellFormed isParent climbs onPath

/-- Splits further up change no child lists but of nodes at and above the next one. -/
theorem children_unreached (id_lt : id.index < middle.size) (apart : ¬before.LiesIn id next) :
    after.children id = middle.children id := by
  refine upper.children_eq id id_lt (fun isMember => apart (climbs.liesIn_next onPath (Or.inl isMember)))
    fun isOuter => ?_
  rw [lower.parent_above wellFormed isParent (climbs.liesIn onPath)] at isOuter
  exact apart (climbs.liesIn_next onPath (Or.inr isOuter))

/-- Splits further up leave the node that was split first as it is. -/
theorem cleaved_first (cleaved : Cleaved before middle child whole half lefts rights) :
    Cleaved before after child whole half lefts rights := by
  have whole_lt := parent_lt_size wellFormed isParent
  have isNext := climbs.1
  have unreached : ∀ id, id.index < middle.size → ¬before.LiesIn id next →
      after.children id = middle.children id := fun _ =>
    children_unreached lower upper wellFormed isParent climbs onPath
  have aboveNext : ∀ id, before.LiesIn id next → middle.parent id = before.parent id :=
    fun _ above => lower.parent_above wellFormed isParent (LiesIn.of_parent isNext above)
  have cleaved' := cleaved.later lower.wellFormed upper.size_le upper.content_eq (fun _ => true) ?_
    (fun _ _ _ => rfl) ?_ wellFormed ?_
  · rwa [List.filter_true] at cleaved'
  · rw [List.filter_true]
    exact unreached whole (Nat.lt_of_lt_of_le whole_lt lower.size_le)
      (not_liesIn_of_parent wellFormed isNext)
  · -- The half is new, so nothing below it is above the next node.
    intro id inside
    refine unreached id (lt_size_below inside lower.right_lt) fun above => ?_
    have halfAbove := ((liesIn_iff_of_parent_eq aboveNext).mpr above).trans inside
    rw [liesIn_iff_of_parent_eq aboveNext] at halfAbove
    have isOld := lt_size_of_liesIn wellFormed halfAbove (parent_lt_size wellFormed isNext)
    exact absurd lower.right_new (Nat.not_le_of_lt isOld)
  · intro sibling isSibling _ id inside
    rw [wellFormed.mem_children_iff] at isSibling
    have isOld := lt_size_below inside (lt_size_of_parent isSibling)
    refine unreached id (Nat.lt_of_lt_of_le isOld lower.size_le) fun above => ?_
    exact not_liesIn_of_parent wellFormed isSibling
      ((LiesIn.parent isNext).trans (above.trans inside))

/-- The node that was split first and the nodes further up are cleaved in the document before. -/
theorem along_cons (cleaved : Cleaved before middle child whole half lefts rights) :
    CleavedAlong before after child lefts rights (whole :: next :: path) (half :: halves) := by
  have isNext := climbs.1
  refine .cons (cleaved_first lower upper wellFormed isParent climbs onPath cleaved) ?_
  rcases lower.beside with ⟨outer, left, rest, isOuter, -, -, siblings, siblings'⟩
  rw [isNext, Option.some.injEq] at isOuter
  subst isOuter
  rcases upper.along with _ | ⟨cleavedNext, further⟩
  have around : middle.children next = left ++ whole :: ([half] ++ rest) := siblings'
  have cleavedNext' := cleavedNext.earlier wellFormed lower.wellFormed
    lower.size_le lower.content_eq (parent_lt_size wellFormed isNext) siblings around
    fun sibling isSibling differ id inside =>
      lower.children_beside wellFormed isNext ((wellFormed.mem_children_iff _ _).mp isSibling)
        differ LiesIn.refl inside
  refine .cons cleavedNext' (further.earlier lower wellFormed climbs.2 (LiesIn.parent isNext) ?_ ?_)
  · intro outer isOuter isMember
    rw [isNext, Option.some.injEq] at isOuter
    exact climbs.2.ne wellFormed isMember isOuter.symm
  · exact fun isMember => climbs.ne wellFormed (List.mem_cons_of_mem _ isMember) rfl

theorem beside_first : ∃ outer left rest, before.parent top = some outer ∧
    before.children outer = left ++ top :: rest ∧
    after.children outer = left ++ top :: tail :: rest := by
  have topAbove := climbs.liesIn onPath
  rcases upper.beside with ⟨outer, left, rest, isOuter, around, around'⟩
  rw [lower.parent_above wellFormed isParent topAbove] at isOuter
  refine ⟨outer, left, rest, isOuter, ?_, around'⟩
  rw [← around, lower.children_eq outer (parent_lt_size wellFormed isOuter)]
  · rintro rfl
    exact not_liesIn_of_parent wellFormed isOuter topAbove
  · intro isNext
    rw [climbs.1, Option.some.injEq] at isNext
    subst isNext
    exact not_liesIn_of_parent wellFormed isOuter (climbs.liesIn_next onPath (Or.inl onPath))

/-- Splitting a node and then the nodes further up is splitting along the whole path. -/
theorem cons (cleaved : Cleaved before middle child whole half lefts rights) :
    SplitAlong before after child top tail lefts rights (whole :: next :: path) (half :: halves) := by
  have isNext := climbs.1
  have aboveWhole : ∀ id, before.LiesIn id whole → middle.parent id = before.parent id :=
    fun _ => lower.parent_above wellFormed isParent
  have wholeStays : after.parent whole = some next := by
    rcases upper.along with _ | ⟨cleavedNext, -⟩
    rcases cleavedNext.parts with ⟨leading, _, _, _, children_next, _⟩
    rw [← upper.wellFormed.mem_children_iff, children_next]
    simp
  refine ⟨upper.wellFormed, Nat.le_trans lower.size_le upper.size_le, fun id isOld => ?_,
    along_cons lower upper wellFormed isParent climbs onPath cleaved, ?_,
    beside_first lower upper wellFormed isParent climbs onPath, ?_, ?_⟩
  · rw [upper.content_eq id (Nat.lt_of_lt_of_le isOld lower.size_le), lower.content_eq id isOld]
  · rcases upper.ends with ⟨lowerPath, lowerHalves, path_eq, halves_eq⟩
    exact ⟨whole :: lowerPath, half :: lowerHalves, by rw [path_eq]; rfl, by rw [halves_eq]; rfl⟩
  · intro id isOld notOnPath notOuter
    rw [List.mem_cons, not_or] at notOnPath
    rw [← aboveWhole top (climbs.liesIn onPath)] at notOuter
    rw [upper.children_eq id (Nat.lt_of_lt_of_le isOld lower.size_le) notOnPath.2 notOuter]
    refine lower.children_eq id isOld notOnPath.1 ?_
    rw [isNext]
    rintro ⟨⟩
    exact notOnPath.2 List.mem_cons_self
  · intro id parent isParent' above
    rw [isParent, Option.some.injEq] at isParent'
    subst isParent'
    rcases above.cases_above isNext with rfl | above
    · rw [wholeStays, isNext]
    · have aboveNext : ∀ id, before.LiesIn id next → middle.parent id = before.parent id :=
        fun id above => aboveWhole id (LiesIn.of_parent isNext above)
      rw [upper.parent_eq id next (by rw [aboveWhole whole LiesIn.refl, isNext])
        ((liesIn_iff_of_parent_eq aboveNext).mpr above), aboveNext id above]

end Climbing

end SplitAlong

end Document

namespace Edit

open Outcome Document

variable {document base : Document} {child parent outer right : NodeId} {siblings : List NodeId}
  {movesChild : Bool}

/-- Nodes can be copied below a new detached node. -/
theorem exists_copies_of_copyEach (baseFormed : base.WellFormed) (wellFormed : document.WellFormed)
    (retains : Retains base document) (rightNew : base.size ≤ right.index)
    (right_lt : right.index < document.size) (detached : document.parent right = none)
    (inStore : ∀ sibling ∈ siblings, sibling.index < base.size) :
    ∃ after roots pairs, (forM siblings fun sibling => do
        let copy ← copySubtree sibling
        appendChild right copy.root) document = .ok ⟨⟩ after ∧
      Copies base document after (some right) siblings roots pairs := by
  induction siblings generalizing document with
  | nil => exact ⟨document, [], [], rfl, copies_nil wellFormed _⟩
  | cons sibling rest inductionHypothesis =>
      have sibling_lt := inStore sibling List.mem_cons_self
      obtain ⟨copy, copiedDocument, copyDone, copied⟩ : ∃ copy copiedDocument,
          copySubtree sibling document = .ok copy copiedDocument ∧
            Copies base document copiedDocument none [sibling] [copy.root] copy.pairs :=
        ⟨_, _, rfl, copies_copyWithin baseFormed sibling_lt
          (heightLe_of_size_le baseFormed (Nat.le_trans retains.size_le (Nat.le_add_right _ _)))
          wellFormed retains⟩
      have placed := copied.placeLast wellFormed right_lt
      have rootDetached : copiedDocument.parent copy.root = none :=
        copied.parent_eq _ List.mem_cons_self
      have rightDetached : copiedDocument.parent right = none := by
        rw [copied.retains.parent_eq right_lt, detached]
      have outside : ¬copiedDocument.LiesIn copy.root right := by
        intro inside
        have bounds := copied.le_index (List.forall₂_cons.mp copied.tops).1
        rw [← inside.eq_of_parent_none rightDetached] at bounds
        exact Nat.not_le_of_lt right_lt bounds.1
      rcases inductionHypothesis placed.wellFormed (placed.retains_of_le retains rightNew)
        (Nat.lt_of_lt_of_le right_lt placed.size_le)
        ((placed.holder_parent right rfl).trans detached)
        (fun other isMember => inStore other (List.mem_cons_of_mem _ isMember)) with
        ⟨after, roots, restPairs, restDone, others⟩
      refine ⟨after, copy.root :: roots, copy.pairs ++ restPairs, ?_,
        placed.append (by rintro _ ⟨⟩; exact right_lt) others⟩
      refine forM_cons_eq_ok.mpr ⟨_, bind_eq_ok.mpr ⟨copy, copiedDocument, copyDone, ?_⟩, restDone⟩
      rw [appendChild_eq_ok copied.wellFormed, detach_of_parent_none rootDetached]
      exact ⟨outside, rfl⟩

section NewHalf

variable {content : Content} {copied gathered final : Document} {sources copies moved left rest
  : List NodeId} {pairs : List (NodeId × NodeId)}
  (copying : Copies document (document.add content) copied (some document.nextId) sources copies pairs)

/-! ## The stages of a split: copying properties, gathering children, placing the half -/

include copying

theorem size_le_of_copying : document.size ≤ copied.size := by
  rw [copying.size_eq, size_add]
  omega

theorem half_lt_of_copying : document.nextId.index < copied.size := by
  rw [copying.size_eq]
  exact Nat.lt_of_lt_of_le (nextId_lt_size_add document _) (Nat.le_add_right _ _)

theorem half_detached_of_copying : copied.parent document.nextId = none := by
  rw [copying.holder_parent _ rfl, parent_add, parent_nextId]

theorem parent_eq_of_copying (isOld : child.index < document.size) :
    copied.parent child = document.parent child := by
  have differ : some document.nextId ≠ some child := by
    rintro ⟨⟩
    exact Nat.lt_irrefl _ isOld
  rw [Document.parent, copying.node_eq child (by rw [size_add]; omega) differ,
    node_add_of_lt isOld, ← Document.parent]

/-- The copies are new and none of them is the half. -/
theorem new_of_copying {id copy : NodeId} (isPair : (id, copy) ∈ pairs) :
    document.size < copy.index ∧ copy ≠ document.nextId := by
  have bounds := (copying.le_index isPair).1
  rw [size_add] at bounds
  refine ⟨bounds, ?_⟩
  rintro rfl
  exact Nat.lt_irrefl _ bounds

theorem exists_source_of_copying {copy : NodeId} (isCopy : copy ∈ copies) :
    ∃ id ∈ sources, (id, copy) ∈ pairs := by
  rcases List.forall₂_iff_get.mp copying.tops with ⟨length_eq, each⟩
  rcases List.getElem_of_mem isCopy with ⟨index, bound, rfl⟩
  exact ⟨_, List.getElem_mem _, each index (by rwa [length_eq]) bound⟩

/-- Old children can be gathered below the half, and then it can be placed beside their parent. -/
theorem exists_placed_half (wellFormed : document.WellFormed)
    (isOuter : document.parent parent = some outer) (nodup : moved.Nodup)
    (movedParent : ∀ id ∈ moved, document.parent id = some parent) :
    ∃ gathered final left rest,
      (forM moved (appendChild document.nextId)) copied = .ok ⟨⟩ gathered ∧
      insertAfter document.nextId parent gathered = .ok ⟨⟩ final ∧
      Gathers copied gathered document.nextId moved ∧
      Moves gathered final document.nextId outer left rest := by
  have parent_lt := lt_size_of_parent isOuter
  have detached := half_detached_of_copying copying
  have old_ne : ∀ {id : NodeId}, id.index < document.size → id ≠ document.nextId := by
    rintro id isOld rfl
    exact Nat.lt_irrefl _ isOld
  have movable : ∀ id ∈ moved, id.index < copied.size ∧ ¬copied.LiesIn id document.nextId := by
    intro id isMember
    have isOld := lt_size_of_parent (movedParent id isMember)
    exact ⟨Nat.lt_of_lt_of_le isOld (size_le_of_copying copying),
      fun inside => old_ne isOld (inside.eq_of_parent_none detached).symm⟩
  rcases exists_gathers copying.wellFormed (half_lt_of_copying copying)
    (fun id isMember => (movable id isMember).1) nodup (fun id isMember => (movable id isMember).2) with
    ⟨gathered, gatherDone, gathers⟩
  -- The nodes above the place are still where they were, so the half is not among them.
  have aboveParent : ∀ id, document.LiesIn id parent → gathered.parent id = document.parent id := by
    intro id above
    rw [gathers.parent_eq, if_neg fun isMember =>
        not_liesIn_of_parent wellFormed (movedParent id isMember) above,
      parent_eq_of_copying copying (lt_size_of_liesIn wellFormed above parent_lt)]
  have isOuter' : gathered.parent parent = some outer := by
    rw [aboveParent parent LiesIn.refl, isOuter]
  have outside : ¬gathered.LiesIn document.nextId outer := by
    intro inside
    have inside := (LiesIn.parent isOuter').trans inside
    rw [liesIn_iff_of_parent_eq aboveParent] at inside
    exact Nat.lt_irrefl _ (lt_size_of_liesIn wellFormed inside parent_lt)
  rcases exists_moves_insertAfter gathers.wellFormed isOuter'
    (by rw [gathers.size_eq]; exact half_lt_of_copying copying) (old_ne parent_lt).symm outside with
    ⟨final, left, rest, insertDone, moves⟩
  exact ⟨gathered, final, _, _, gatherDone, insertDone, gathers, moves⟩

variable (gathers : Gathers copied gathered document.nextId moved)
  (moves : Moves gathered final document.nextId outer left rest)
  (inStore : ∀ id ∈ moved, id.index < document.size)
include gathers moves inStore

/-- Placing the half changes the child list of one node only. -/
theorem children_of_placed_half (notOuter : child ≠ outer) :
    final.children child = (copied.children child).filter (· ∉ moved) ++
      if child = document.nextId then moved else [] := by
  have detached : gathered.parent document.nextId = none := by
    rw [gathers.parent_eq, if_neg, half_detached_of_copying copying]
    exact fun isMember => Nat.lt_irrefl _ (inStore _ isMember)
  rw [moves.children_eq, if_neg notOuter, filter_children_of_parent_none gathers.wellFormed detached,
    gathers.children_eq]

theorem children_half (outer_lt : outer.index < document.size) :
    final.children document.nextId = copies ++ moved := by
  have notOuter : document.nextId ≠ outer := by
    rintro rfl
    exact Nat.lt_irrefl _ outer_lt
  have notMoved : copies.filter (· ∉ moved) = copies := by
    refine List.filter_eq_self.mpr fun copy isCopy => ?_
    rw [decide_eq_true_eq]
    intro isMember
    rcases exists_source_of_copying copying isCopy with ⟨id, -, isPair⟩
    exact Nat.lt_asymm (inStore copy isMember) (new_of_copying copying isPair).1
  rw [children_of_placed_half copying gathers moves inStore notOuter, if_pos rfl,
    copying.holder_children _ rfl, children_add, children_nextId, List.nil_append, notMoved]

/-- The copies keep their trees while children are gathered and the half is placed. -/
theorem trees_of_copying (wellFormed : document.WellFormed) (outer_lt : outer.index < document.size)
    (movedParent : ∀ id ∈ moved, document.parent id = some parent)
    (parent_lt : parent.index < document.size) :
    copies.map final.tree = sources.map document.tree := by
  have content_eq : ∀ id copy, (id, copy) ∈ pairs → final.content copy = document.content id :=
    fun id copy isPair => by
      rw [moves.content_eq, gathers.content_eq, copying.content_eq _ isPair]
  refine map_eq_of_forall₂ copying.tops fun id isMember copy isPair => ?_
  refine tree_eq_of_related wellFormed ?_ content_eq ?_ isPair
  · rw [moves.size_eq, gathers.size_eq]
    exact size_le_of_copying copying
  · intro id copy isPair
    have copyNew := new_of_copying copying isPair
    have notOuter : copy ≠ outer := by
      rintro rfl
      exact Nat.lt_asymm outer_lt copyNew.1
    have notMoved : (copied.children copy).filter (· ∉ moved) = copied.children copy := by
      refine List.filter_eq_self.mpr fun other isOther => ?_
      rw [decide_eq_true_eq]
      intro isMember
      rw [copying.wellFormed.mem_children_iff, parent_eq_of_copying copying (inStore other isMember),
        movedParent other isMember, Option.some.injEq] at isOther
      exact Nat.lt_asymm parent_lt (isOther ▸ copyNew.1)
    rw [children_of_placed_half copying gathers moves inStore notOuter, if_neg copyNew.2,
      List.append_nil, notMoved]
    exact copying.children_eq _ isPair

end NewHalf

/-- The steps that give a node with a parent a right half succeed. The half holds copies of the
properties among the children that stay, with the same trees, and then the children that move. -/
theorem exists_half {kept moved : List NodeId} (wellFormed : document.WellFormed)
    (isOuter : document.parent parent = some outer)
    (children_before : document.children parent = kept ++ moved) :
    ∃ copied gathered final copies,
      (forM (kept.filter document.isProperties) fun sibling => do
        let copy ← copySubtree sibling
        appendChild document.nextId copy.root) (document.add (document.content parent)) =
          .ok ⟨⟩ copied ∧
      (forM moved (appendChild document.nextId)) copied = .ok ⟨⟩ gathered ∧
      insertAfter document.nextId parent gathered = .ok ⟨⟩ final ∧
      final.children document.nextId = copies ++ moved ∧
      (∀ copy ∈ copies, document.size ≤ copy.index ∧ final.isProperties copy = true) ∧
      copies.map final.tree = (kept.filter document.isProperties).map document.tree := by
  have isChild : ∀ id ∈ kept ++ moved, document.parent id = some parent := by
    intro id isMember
    rwa [← children_before, wellFormed.mem_children_iff] at isMember
  have movedParent : ∀ id ∈ moved, document.parent id = some parent := fun id isMember =>
    isChild id (List.mem_append_right _ isMember)
  have inStore : ∀ id ∈ moved, id.index < document.size := fun id isMember =>
    lt_size_of_parent (movedParent id isMember)
  have nodup := wellFormed.nodup_children parent
  rw [children_before] at nodup
  have outer_lt := parent_lt_size wellFormed isOuter
  have beyond : document.size ≤ document.nextId.index := Nat.le_refl _
  rcases exists_copies_of_copyEach wellFormed (wellFormed.add (document.content parent))
    (retains_add document _) beyond (nextId_lt_size_add document _) (by simp)
    (fun sibling isMember => lt_size_of_parent
      (isChild sibling (List.mem_append_left _ (List.mem_of_mem_filter isMember)))) with
    ⟨copied, copies, pairs, copiesDone, copying⟩
  rcases exists_placed_half copying wellFormed isOuter (List.nodup_append.mp nodup).2.1 movedParent with
    ⟨gathered, final, left, rest, gatherDone, insertDone, gathers, moves⟩
  refine ⟨copied, gathered, final, copies, copiesDone, gatherDone, insertDone,
    children_half copying gathers moves inStore outer_lt, fun copy isCopy => ?_,
    trees_of_copying copying gathers moves inStore wellFormed outer_lt movedParent
      (lt_size_of_parent isOuter)⟩
  rcases exists_source_of_copying copying isCopy with ⟨id, isKept, isPair⟩
  refine ⟨Nat.le_of_lt (new_of_copying copying isPair).1, ?_⟩
  rw [isProperties_of_content_eq
    ((moves.content_eq copy).trans ((gathers.content_eq copy).trans (copying.content_eq _ isPair)))]
  exact (List.mem_filter.mp isKept).2

/-- A node that has a parent can be split at any of its children. -/
theorem exists_cleaved (wellFormed : document.WellFormed)
    (isParent : document.parent child = some parent) (isOuter : document.parent parent = some outer)
    (notProperties : document.isProperties child = false) (movesChild : Bool) :
    ∃ right after kept moved, splitParent child movesChild document = .ok right after ∧
      Halves document after parent right kept moved ∧
      Cleaved document after child parent right (if movesChild then [] else [child])
        (if movesChild then [child] else []) := by
  rcases exists_around wellFormed isParent with ⟨leading, trailing, around, position⟩
  have children_before : document.children parent =
      (leading ++ if movesChild then [] else [child]) ++
        ((if movesChild then [child] else []) ++ trailing) := by
    rw [around]
    cases movesChild <;> simp
  have start_eq : (leading ++ if movesChild then [] else [child]).length =
      if movesChild then leading.length else leading.length + 1 := by
    cases movesChild <;> simp
  have kept_eq : (leading ++ if movesChild then [] else [child]).filter document.isProperties =
      leading.filter document.isProperties := by
    cases movesChild <;> simp [notProperties]
  rcases exists_half wellFormed isOuter children_before with
    ⟨copied, gathered, final, copies, copiesDone, gatherDone, insertDone, children_eq, copiesNew,
      trees⟩
  have done : splitParent child movesChild document = .ok document.nextId final := by
    simp only [splitParent, bind_eq_ok, parentOf_eq_ok, indexOf_eq_ok, copyNode_eq_ok, get_bind,
      pure_eq_ok]
    refine ⟨parent, document, ⟨isParent, rfl⟩, leading.length, document,
      ⟨by rw [childIndex?_of_parent wellFormed isParent, position], rfl⟩, document.nextId, _,
      ⟨rfl, rfl⟩, ⟨⟩, copied, ?_, ⟨⟩, gathered, ?_, ⟨⟩, final, insertDone, rfl, rfl⟩
    · rw [children_add, children_before, ← start_eq, List.take_left]
      have sameFilter : (leading ++ if movesChild then [] else [child]).filter
          (document.add (document.content parent)).isProperties =
          (leading ++ if movesChild then [] else [child]).filter document.isProperties := by
        refine List.filter_congr fun id isMember => ?_
        have isChild : document.parent id = some parent := by
          rw [← wellFormed.mem_children_iff, children_before]
          exact List.mem_append_left _ isMember
        simp only [Document.isProperties, name?, element?, Document.content,
          node_add_of_lt (lt_size_of_parent isChild)]
      rw [sameFilter]
      exact copiesDone
    · rw [children_add, children_before, ← start_eq, List.drop_left]
      exact gatherDone
  rcases halves_of_splitParent wellFormed document.closed_everywhere isParent trivial
    (fun _ _ => trivial) done with ⟨leading', trailing', around', halves, -⟩
  have nodup := wellFormed.nodup_children parent
  rw [around] at nodup around'
  rcases append_cons_inj nodup around' with ⟨rfl, rfl⟩
  refine ⟨_, final, _, _, done, halves, halves.right_new, halves.right_lt, halves.right_content, ?_,
    ?_⟩
  · refine ⟨leading, trailing, copies, around, halves.children_kept, ?_, copiesNew, ?_⟩
    · rw [children_eq, List.append_assoc]
    · rw [trees, kept_eq]
  · intro sibling isSibling _ id inside
    rw [wellFormed.mem_children_iff] at isSibling
    refine halves.children_eq id (lt_size_below inside (lt_size_of_parent isSibling)) ?_ ?_
    · rintro rfl
      exact not_liesIn_of_parent wellFormed isSibling inside
    · exact fun isOuter => not_liesIn_of_parent wellFormed isSibling
        ((LiesIn.parent isOuter).trans inside)

theorem mem_pathTo {top : NodeId} {ids : List NodeId} (isMember : top ∈ ids) :
    top ∈ pathTo top ids := by
  induction ids with
  | nil => simp at isMember
  | cons first rest inductionHypothesis =>
      rw [pathTo]
      split
      · rename_i same
        simp [same]
      · rename_i differ
        exact List.mem_cons_of_mem _
          (inductionHypothesis ((List.mem_cons.mp isMember).resolve_left (Ne.symm differ)))

/-- Every node on the way from a node to one above it that has a parent can be split. -/
theorem exists_splitAlong {top cut : NodeId} {ids : List NodeId} (wellFormed : document.WellFormed)
    (climbs : document.ClimbsFrom cut ids) (isMember : top ∈ ids)
    (isOuter : document.parent top = some outer) (notProperties : document.isProperties cut = false)
    (between : ∀ id ∈ pathTo top ids, document.isProperties id = false) (movesChild : Bool) :
    ∃ tail after halves, splitUpTo top movesChild cut ids document = .ok tail after ∧
      SplitAlong document after cut top tail (if movesChild then [] else [cut])
        (if movesChild then [cut] else []) (pathTo top ids) halves := by
  induction ids generalizing cut document movesChild with
  | nil => simp at isMember
  | cons first rest inductionHypothesis =>
      rcases climbs with ⟨isParent, climbs⟩
      by_cases isTop : first = top
      · subst isTop
        rcases exists_cleaved wellFormed isParent isOuter notProperties movesChild with
          ⟨tail, after, kept, moved, done, halves, cleaved⟩
        refine ⟨tail, after, [tail], ?_, ?_⟩
        · rw [splitUpTo, bind_of_ok done, if_pos rfl]
          rfl
        · rw [pathTo, if_pos rfl]
          exact halves.splitAlong wellFormed isParent cleaved
      · have isMember := (List.mem_cons.mp isMember).resolve_left (Ne.symm isTop)
        rcases rest with _ | ⟨next, rest⟩
        · simp at isMember
        have path_eq : pathTo top (first :: next :: rest) = first :: pathTo top (next :: rest) := by
          rw [pathTo, if_neg isTop]
        rw [path_eq] at between ⊢
        rcases exists_cleaved wellFormed isParent climbs.1 notProperties movesChild with
          ⟨half, middle, kept, moved, done, lower, cleaved⟩
        have first_lt := parent_lt_size wellFormed isParent
        have aboveFirst : ∀ id, document.LiesIn id first → middle.parent id = document.parent id :=
          fun _ => lower.parent_above wellFormed isParent
        have isProperties_eq : ∀ id, document.LiesIn id first →
            middle.isProperties id = document.isProperties id := fun id above =>
          lower.isProperties_eq (lt_size_of_liesIn wellFormed above first_lt)
        have climbs' : middle.ClimbsFrom first (next :: rest) := by
          refine climbs.of_parent_eq fun id isAbove => aboveFirst id ?_
          rcases isAbove with rfl | isAbove
          · exact LiesIn.refl
          · exact climbs.liesIn isAbove
        rcases inductionHypothesis lower.wellFormed climbs' isMember
          (by rw [aboveFirst top (climbs.liesIn isMember), isOuter])
          (by rw [isProperties_eq first LiesIn.refl, between first List.mem_cons_self])
          (fun id onPath => by
            rw [isProperties_eq id (climbs.liesIn (pathTo_subset _ onPath)),
              between id (List.mem_cons_of_mem _ onPath)]) false with
          ⟨tail, after, halves, restDone, upper⟩
        refine ⟨tail, after, half :: halves, ?_, ?_⟩
        · rw [splitUpTo, bind_of_ok done, if_neg isTop]
          exact restDone
        · have onPath := mem_pathTo isMember
          have pathClimbs := climbs.pathTo top
          obtain ⟨path, isPath⟩ : ∃ path, pathTo top (next :: rest) = next :: path := by
            rw [pathTo]
            split
            · exact ⟨[], rfl⟩
            · exact ⟨_, rfl⟩
          rw [isPath] at upper onPath pathClimbs ⊢
          exact SplitAlong.cons lower upper wellFormed isParent pathClimbs onPath cleaved

end Edit

end WordTemplate
