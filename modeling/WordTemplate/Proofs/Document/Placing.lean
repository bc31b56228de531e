import WordTemplate.Proofs.Document.Local
import WordTemplate.Proofs.Word.Splitting

/-!
# New nodes beside a tag

What replaces a tag is placed beside the carrier of the tag or beside something around the carrier.
That adds running text, but none to the carrier of any pending text node. Afterwards the carrier, or
the whole element around it, is detached. Pending text nodes that it holds stay pending in a tree of
its own.
-/

namespace WordTemplate.Document

variable {zone : NodeId → Prop} {rights : Rights} {document before after : Document}
  {node parent text other pivot top : NodeId} {tops texts rest left right : List NodeId}

/-- `parent` stands above the carrier of `text`. -/
structure Hosts (document : Document) (text parent : NodeId) : Prop where
  above : document.LiesIn parent text
  outside : ∀ holder, document.parent text = some holder →
    document.isNamed holder Word.Name.text = true → ¬document.LiesIn holder parent

/-- The parent of whatever stands at or above the carrier of a text node hosts the node. -/
theorem hosts_of_parent (wellFormed : document.WellFormed)
    (isParent : document.parent pivot = some parent)
    (above : document.LiesIn pivot (document.textUnit text)) : document.Hosts text parent where
  above := (liesIn_textUnit document text).trans (above.trans (LiesIn.parent isParent))
  outside := by
    intro holder isHolder named inside
    rcases textUnit_cases document text with ⟨-, notNamed⟩ | ⟨isUnit, -⟩
    · simp [notNamed holder isHolder] at named
    · rw [isHolder, Option.some.injEq] at isUnit
      rw [← isUnit] at above
      exact not_liesIn_of_parent wellFormed isParent (inside.trans above)

namespace Hosts

/-- An edit that keeps the parents of what is above a text node moves none of it. -/
theorem of_parent_eq (hosts : before.Hosts text parent)
    (parent_eq : ∀ id, before.LiesIn id text → after.parent id = before.parent id)
    (named_eq : ∀ holder, before.parent text = some holder →
      after.isNamed holder Word.Name.text = before.isNamed holder Word.Name.text) :
    after.Hosts text parent where
  above := (liesIn_iff_of_parent_eq parent_eq).mpr hosts.above
  outside := by
    intro holder isHolder named inside
    rw [parent_eq text LiesIn.refl] at isHolder
    rw [named_eq holder isHolder] at named
    rw [liesIn_iff_of_parent_eq fun id above => parent_eq id (hosts.above.trans above)] at inside
    exact hosts.outside holder isHolder named inside

end Hosts

namespace Pending

/-- A detached node that is none of the trees stands above no pending text node. -/
theorem not_liesIn_detached (pending : document.Pending tops texts)
    (wellFormed : document.WellFormed) (detached : document.parent node = none)
    (notTop : node ∉ tops) (isMember : text ∈ texts) : ¬document.LiesIn node text := by
  intro inside
  rcases pending.exists_top isMember with ⟨top, isTop, running⟩
  have around := pending.liesIn_top wellFormed isTop running inside
  exact notTop (around.eq_of_parent_none detached ▸ isTop)

/-- A new node beside what hosts one of the text nodes leaves all of them pending. -/
theorem place (pending : before.Pending tops texts) (wellFormed : before.WellFormed)
    (moves : Moves before after node parent left right) (detached : before.parent node = none)
    (notTop : node ∉ tops) (isMember : text ∈ texts) (hosts : before.Hosts text parent) :
    after.Pending tops texts := by
  have notNode : ∀ other ∈ texts, other ≠ node := by
    rintro other isOther rfl
    exact pending.not_liesIn_detached wellFormed detached notTop isOther LiesIn.refl
  have apart : ∀ other ∈ texts, ∀ holder, before.parent other = some holder →
      before.isNamed holder Word.Name.text = true → ¬before.LiesIn holder parent := by
    intro other isOther holder isHolder named inside
    by_cases same : other = text
    · exact hosts.outside holder (same ▸ isHolder) named inside
    · exact pending.not_liesIn_holder wellFormed isMember isOther same isHolder named
        (hosts.above.trans inside)
  refine ⟨?_, ?_, ?_, pending.nodup_tops, ?_, ?_⟩
  · intro top isTop
    have differ : top ≠ node := fun same => notTop (same ▸ isTop)
    rw [moves.parent_eq, if_neg differ, pending.detached top isTop]
  · intro top isTop
    rw [moves.size_eq]
    exact pending.inStore top isTop
  · intro top isTop
    rw [← pending.notProperties top isTop]
    exact isProperties_of_content_eq (moves.content_eq _)
  · exact pending.ordered.trans (sublist_flatMap (List.Sublist.refl tops) fun top _ =>
      moves.sublist_runningTexts wellFormed detached top)
  · intro other isOther
    have isText : after.isText other = true := by
      rw [← pending.isText isOther]
      simp only [Document.isText, text?, moves.content_eq]
    rw [solitary_iff isText]
    intro holder isHolder named
    rw [moves.parent_eq, if_neg (notNode other isOther)] at isHolder
    simp only [isNamed, name?, element?, moves.content_eq] at named
    rw [moves.runningTexts_eq wellFormed detached (apart other isOther holder isHolder named)]
    exact (solitary_iff (pending.isText isOther)).mp (pending.solitary other isOther) holder
      isHolder named

/-! Something around a text node is detached. The other text nodes stay pending, some of them perhaps
in the tree that was detached. -/

/-- The other text nodes stay alone in their text elements. -/
theorem solitary_detach (pending : document.Pending tops texts) (wellFormed : document.WellFormed)
    (isMember : text ∈ texts) (above : document.LiesIn pivot text) (isOther : other ∈ texts)
    (differ : other ≠ text) : (document.detach pivot).Solitary other := by
  have isText := pending.isText isOther
  have isText' : (document.detach pivot).isText other = true := by
    rw [Document.isText, text?, content_detach wellFormed, ← text?, ← Document.isText, isText]
  rw [solitary_iff isText']
  intro holder isHolder named
  have notPivot : other ≠ pivot := fun same =>
    pending.not_liesIn_text wellFormed isMember isOther differ (same ▸ above)
  rw [parent_detach wellFormed, if_neg notPivot] at isHolder
  rw [isNamed_of_content_eq (content_detach wellFormed pivot holder)] at named
  have alone := (solitary_iff isText).mp (pending.solitary other isOther) holder isHolder named
  by_cases inside : document.LiesIn pivot holder
  · rw [runningTexts_detach_inside wellFormed inside, alone]
  · have notAbove := pending.not_liesIn_holder wellFormed isMember isOther differ isHolder named
    rw [runningTexts_detach_of_apart wellFormed inside fun around => notAbove (above.trans around),
      alone]

/-- Where the detached part comes right before the tree that it stood in, the text nodes behind the
first one keep their order. -/
theorem ordered_detach {earlier later : List NodeId}
    (pending : document.Pending (earlier ++ top :: later) (text :: rest))
    (wellFormed : document.WellFormed) (outside : ¬document.LiesIn pivot top)
    (running : text ∈ document.runningTexts top) (above : document.LiesIn pivot text) :
    rest.Sublist ((earlier ++ pivot :: top :: later).flatMap
      (document.detach pivot).runningTexts) := by
  have isMember : text ∈ text :: rest := List.mem_cons_self
  have isTop : top ∈ earlier ++ top :: later := by simp
  have below := pending.liesIn_top wellFormed isTop running above
  have nodupTops := pending.nodup_tops
  rw [List.nodup_middle, List.nodup_cons] at nodupTops
  -- The running text of the tree falls into that of `pivot` and what is around it.
  rcases runningTexts_split wellFormed (pending.inStore top isTop) below
    (fun id inside around differ =>
      showsChildren_of_mem_runningTexts wellFormed running above inside around differ) with
    ⟨left, right, whole⟩
  rcases List.append_of_mem (pending.mem_runningTexts wellFormed isMember above) with
    ⟨ahead, behind, inner⟩
  have texts_pivot : (document.detach pivot).runningTexts pivot = ahead ++ text :: behind := by
    rw [runningTexts_detach_inside wellFormed LiesIn.refl, inner]
  have texts_top : (document.detach pivot).runningTexts top = left ++ right := by
    have nodup := nodup_runningTexts wellFormed top
    rw [runningTexts_detach wellFormed outside]
    rw [whole] at nodup ⊢
    exact filter_not_mem_middle nodup
  have texts_others : ∀ {ids : List NodeId}, ids ⊆ earlier ++ later →
      ids.flatMap (document.detach pivot).runningTexts = ids.flatMap document.runningTexts := by
    intro ids subset
    refine List.flatMap_congr fun other isOther => ?_
    have isOther := subset isOther
    have differ : other ≠ top := fun same => nodupTops.1 (same ▸ isOther)
    have isKnown : other ∈ earlier ++ top :: later :=
      ((List.sublist_cons_self top later).append_left earlier).subset isOther
    have apart : ∀ {id}, document.LiesIn top id → ¬document.LiesIn other id :=
      pending.not_liesIn_other_top isTop isKnown differ
    refine runningTexts_detach_of_apart wellFormed (fun inside => ?_) (apart below)
    have same := inside.eq_of_parent_none (pending.detached other isKnown)
    exact apart below (same ▸ LiesIn.refl)
  have ordered := pending.ordered
  have nodup := nodup_flatMap_runningTexts wellFormed pending.nodup_tops pending.detached
  have regroup : (earlier ++ top :: later).flatMap document.runningTexts =
      (earlier.flatMap document.runningTexts ++ left ++ ahead) ++
        text :: (behind ++ right ++ later.flatMap document.runningTexts) := by
    simp [whole, inner]
  rw [regroup] at ordered nodup
  have isRight := sublist_right_of_cons ordered nodup
  rw [List.flatMap_append, List.flatMap_cons, List.flatMap_cons, texts_pivot, texts_top,
    texts_others (List.subset_append_left _ _), texts_others (List.subset_append_right _ _)]
  refine isRight.trans ?_
  rw [List.append_assoc, List.append_assoc left]
  refine List.Sublist.trans ?_ (List.sublist_append_right _ _)
  refine List.Sublist.append ?_ (List.sublist_append_right left _)
  exact (List.sublist_cons_self text behind).trans (List.sublist_append_right ahead _)

theorem detach (pending : document.Pending tops (text :: rest)) (wellFormed : document.WellFormed)
    (above : document.LiesIn pivot text) (isParent : document.parent pivot = some parent) :
    ∃ earlier top later, tops = earlier ++ top :: later ∧
      (document.detach pivot).Pending (earlier ++ pivot :: top :: later) rest := by
  have isMember : text ∈ text :: rest := List.mem_cons_self
  rcases List.nodup_cons.mp (pending.nodup_texts wellFormed) with ⟨notLater, -⟩
  rcases pending.exists_top isMember with ⟨top, isTop, running⟩
  have notTop : pivot ∉ tops := by
    intro isTop
    simp [pending.detached pivot isTop] at isParent
  have outside : ¬document.LiesIn pivot top := fun inside =>
    notTop (inside.eq_of_parent_none (pending.detached top isTop) ▸ isTop)
  rcases List.append_of_mem isTop with ⟨earlier, later, rfl⟩
  have sameProperties : ∀ id, (document.detach pivot).isProperties id = document.isProperties id :=
    fun id => isProperties_of_content_eq (content_detach wellFormed pivot id)
  have trees : (document.detach pivot).Pending (earlier ++ top :: later) [] := {
    detached := fun other isOther => by
      rw [parent_detach wellFormed, pending.detached other isOther, ite_self]
    inStore := fun other isOther => by
      rw [size_detach]
      exact pending.inStore other isOther
    notProperties := fun other isOther => by
      rw [sameProperties, pending.notProperties other isOther]
    nodup_tops := pending.nodup_tops
    ordered := List.nil_sublist _
    solitary := by simp }
  refine ⟨earlier, top, later, rfl, trees.insert_top notTop ?_ ?_ ?_
    (pending.ordered_detach wellFormed outside running above) fun other isLater =>
      pending.solitary_detach wellFormed isMember above (List.mem_cons_of_mem text isLater)
        fun same => notLater (same ▸ isLater)⟩
  · rw [parent_detach wellFormed, if_pos rfl]
  · rw [size_detach]
    exact lt_size_of_parent isParent
  · have running := pending.mem_runningTexts wellFormed isMember above
    rw [sameProperties]
    by_contra isProperties
    simp [runningTexts_of_isProperties (Bool.not_eq_false _ ▸ isProperties)] at running

/-- The text nodes stay pending when an element is split in two halves. -/
theorem halves {whole half : NodeId} {kept moved : List NodeId}
    (pending : before.Pending tops texts) (wellFormed : before.WellFormed)
    (halves : Halves before after whole half kept moved)
    (shows : before.showsChildren whole = true)
    (notText : before.isNamed whole Word.Name.text = false) : after.Pending tops texts := by
  rcases halves.beside with ⟨outer, -, -, isParent, -⟩
  have notMoved : ∀ top ∈ tops, top ∉ moved := by
    intro top isTop isMoved
    have isChild : top ∈ before.children whole := by
      rw [halves.children_before]
      exact List.mem_append_right kept isMoved
    rw [wellFormed.mem_children_iff, pending.detached top isTop] at isChild
    simp at isChild
  have notWhole : ∀ top ∈ tops, top ≠ whole := by
    rintro top isTop rfl
    simp [pending.detached top isTop] at isParent
  refine ⟨?_, ?_, ?_, pending.nodup_tops, ?_, ?_⟩
  · intro top isTop
    rw [halves.parent_eq top (pending.inStore top isTop) (notMoved top isTop)]
    exact pending.detached top isTop
  · intro top isTop
    exact Nat.lt_trans (pending.inStore top isTop)
      (Nat.lt_of_le_of_lt halves.right_new halves.right_lt)
  · intro top isTop
    rw [halves.isProperties_eq (pending.inStore top isTop), pending.notProperties top isTop]
  · rw [List.flatMap_congr fun top isTop => halves.runningTexts_eq wellFormed shows
      (pending.inStore top isTop) (notWhole top isTop)]
    exact pending.ordered
  · intro text isMember
    have isOld := pending.lt_size wellFormed isMember
    have isText : after.isText text = true := by
      rw [halves.isText_eq isOld, pending.isText isMember]
    rw [solitary_iff isText]
    intro holder isHolder named
    by_cases isMoved : text ∈ moved
    · rw [halves.parent_moved text isMoved, Option.some.injEq] at isHolder
      subst isHolder
      simp only [isNamed, name?, element?, halves.right_content] at named notText
      simp [named] at notText
    · rw [halves.parent_eq text isOld isMoved] at isHolder
      have holder_lt := parent_lt_size wellFormed isHolder
      simp only [isNamed, name?, element?, halves.content_eq holder holder_lt] at named
      have differ : holder ≠ whole := by
        rintro rfl
        simp only [isNamed, name?, element?] at notText
        simp [named] at notText
      rw [halves.runningTexts_eq wellFormed shows holder_lt differ]
      exact (solitary_iff (pending.isText isMember)).mp (pending.solitary text isMember) holder
        isHolder named

end Pending

end WordTemplate.Document
