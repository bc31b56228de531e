import WordTemplate.Proofs.Word.Splitting

/-!
# Joining paragraphs

Joining moves what a paragraph holds to the end of another one, so the running text of the first
follows that of the second. Section breaks are properties and have no running text.
-/

namespace WordTemplate

namespace Edit

open Outcome Document

variable {zone : NodeId → Prop} {rights : Rights} {document document' : Document}
  {paragraph sectionBreak first second : NodeId} {result : Unit}

/-- A section break goes before the recorded change of the properties or to their end. -/
theorem neutral_of_placedBreak {properties : NodeId} (wellFormed : document.WellFormed)
    (closed : document.Closed zone rights) (inZone : zone properties)
    (inStore : properties.index < document.size) (breakInZone : zone sectionBreak)
    (parentInZone : ∀ parent, document.parent sectionBreak = some parent → zone parent)
    (named : document.isNamed sectionBreak Word.Name.sectionProperties = true)
    (placed : (match document.childNamed? properties Word.Name.paragraphPropertiesChange with
      | some change => insertBefore sectionBreak change
      | none => appendChild properties sectionBreak) document = .ok result document') :
    Neutral zone rights document document' := by
  have break_lt := lt_size_of_isNamed named
  have movable : document.Movable zone rights sectionBreak :=
    movable_of_isProperties parentInZone (by rw [isProperties_of_isNamed named]; decide)
  have empty := runningTexts_of_isNamed named (by decide)
  rcases found : document.childNamed? properties Word.Name.paragraphPropertiesChange with _ | change
  · rw [found] at placed
    exact (neutral_of_appendChild wellFormed closed inZone inStore break_lt breakInZone movable
      empty placed).1
  · rw [found] at placed
    have isParent := (parent_of_childNamed? wellFormed found).1
    refine (neutral_of_insertBefore wellFormed closed ?_ break_lt breakInZone movable empty
      placed).1
    intro parent isParent'
    rw [isParent, Option.some.injEq] at isParent'
    exact isParent' ▸ inZone

theorem neutral_of_adoptSectionBreak (wellFormed : document.WellFormed)
    (closed : document.Closed zone rights) (inZone : zone paragraph)
    (inStore : paragraph.index < document.size) (breakInZone : zone sectionBreak)
    (parentInZone : ∀ parent, document.parent sectionBreak = some parent → zone parent)
    (named : document.isNamed sectionBreak Word.Name.sectionProperties = true)
    (done : adoptSectionBreak paragraph sectionBreak document = .ok result document') :
    Neutral zone rights document document' := by
  have break_lt := lt_size_of_isNamed named
  simp only [adoptSectionBreak, bind_eq_ok, get_bind] at done
  rcases done with ⟨properties, ensured, ensureDone, done⟩
  rcases neutral_of_ensureProperties wellFormed closed inZone inStore ensureDone with
    ⟨toEnsured, isParent, -⟩
  have propertiesInZone : zone properties := toEnsured.closed.child isParent inZone
  have properties_lt := lt_size_of_parent isParent
  rcases found : ensured.childNamed? properties Word.Name.sectionProperties with _ | previous
  · simp only [found] at done
    refine toEnsured.trans (neutral_of_placedBreak toEnsured.wellFormed toEnsured.closed
      propertiesInZone properties_lt breakInZone (toEnsured.parent_mem wellFormed parentInZone)
      ?_ done)
    rw [toEnsured.isNamed_eq break_lt, named]
  · simp only [found, bind_eq_ok, detach_eq_ok, get_bind] at done
    rcases done with ⟨⟨⟩, _, rfl, done⟩
    rcases parent_of_childNamed? toEnsured.wellFormed found with ⟨isParent', previousNamed⟩
    have dropped : Neutral zone rights ensured (ensured.detach previous) :=
      neutral_detach toEnsured.wellFormed toEnsured.closed
        (movable_of_parent isParent' propertiesInZone)
        (runningTexts_of_isNamed previousNamed (by decide))
    have toDropped := toEnsured.trans dropped
    refine toDropped.trans (neutral_of_placedBreak toDropped.wellFormed toDropped.closed
      propertiesInZone (Nat.lt_of_lt_of_le properties_lt dropped.size_le) breakInZone
      (toDropped.parent_mem wellFormed parentInZone) ?_ done)
    rw [toDropped.isNamed_eq break_lt, named]

/-- A section break that is left over in the properties of the second paragraph goes to the first. -/
theorem neutral_of_movedBreak (wellFormed : document.WellFormed)
    (closed : document.Closed zone rights) (inZone : zone first) (secondInZone : zone second)
    (inStore : first.index < document.size)
    (done : (match document.paragraphProperty? second Word.Name.sectionProperties with
      | some sectionBreak => adoptSectionBreak first sectionBreak
      | none => pure ()) document = .ok result document') :
    Neutral zone rights document document' := by
  rcases found : document.paragraphProperty? second Word.Name.sectionProperties with
    _ | sectionBreak
  · simp only [found, pure_eq_ok] at done
    rw [← done.2]
    exact Neutral.refl wellFormed closed
  · simp only [found] at done
    rcases parent_of_paragraphProperty? wellFormed found with
      ⟨properties, isParent, -, isParent', named⟩
    have propertiesInZone := closed.child isParent secondInZone
    refine neutral_of_adoptSectionBreak wellFormed closed inZone inStore
      (closed.child isParent' propertiesInZone) ?_ named done
    intro parent isParent''
    rw [isParent', Option.some.injEq] at isParent''
    exact isParent'' ▸ propertiesInZone

/-- `second` has given its running text to `first`. -/
structure Joined (before after : Document) (first second : NodeId) : Prop where
  texts : after.runningTexts first = before.runningTexts first ++ before.runningTexts second
  emptied : after.runningTexts second = []

theorem Joined.neutral {before middle after : Document} (joined : Joined before middle first second)
    (neutral : Neutral zone rights middle after) (first_lt : first.index < middle.size)
    (second_lt : second.index < middle.size) : Joined before after first second where
  texts := by rw [neutral.runningTexts_eq first_lt, joined.texts]
  emptied := by rw [neutral.runningTexts_eq second_lt, joined.emptied]

end Edit

namespace Document

variable {zone : NodeId → Prop} {rights : Rights} {document gathered : Document}
  {id first second : NodeId}

/-- The properties of a paragraph have no running text. -/
theorem runningTexts_body (wellFormed : document.WellFormed)
    (shows : document.showsChildren id = true) :
    (document.body id).flatMap document.runningTexts = document.runningTexts id := by
  rw [runningTexts_of_showsChildren wellFormed shows]
  refine flatMap_filter_of_silent fun child _ isProperties => ?_
  have named : document.isNamed child Word.Name.paragraphProperties = true := by
    simpa using isProperties
  exact runningTexts_of_isNamed named (by decide)

section Bodies

variable (gathers : Gathers document gathered first (document.body second))
  (wellFormed : document.WellFormed)
  (firstNamed : document.isNamed first Word.Name.paragraph = true)
include gathers wellFormed firstNamed

/-- Neither paragraph lies below the other, so what is gathered keeps its running text. -/
theorem Gathers.joined (secondNamed : document.isNamed second Word.Name.paragraph = true)
    (differ : first ≠ second) (apart : ¬document.LiesIn second first)
    (apart' : ¬document.LiesIn first second) : Edit.Joined document gathered first second := by
  have areChildren : ∀ child ∈ document.body second, document.parent child = some second :=
    fun child isMember => (mem_body wellFormed isMember).1
  have shows_eq : ∀ id, gathered.showsChildren id = document.showsChildren id := fun id => by
    rw [showsChildren, showsChildren, isText, isText, text?, text?, gathers.content_eq,
      isProperties_of_content_eq (gathers.content_eq id)]
  have firstShows := showsChildren_of_isNamed firstNamed (by decide)
  have secondShows := showsChildren_of_isNamed secondNamed (by decide)
  have kept : ∀ child ∈ document.children first,
      gathered.runningTexts child = document.runningTexts child := by
    intro child isChild
    have isParent := (wellFormed.mem_children_iff _ _).mp isChild
    exact gathers.runningTexts_of_apart wellFormed areChildren
      (not_liesIn_of_parent wellFormed isParent)
      fun inside => apart' (inside.trans (LiesIn.parent isParent))
  have moved : ∀ child ∈ document.body second,
      gathered.runningTexts child = document.runningTexts child := by
    intro child isMember
    have isParent := areChildren child isMember
    exact gathers.runningTexts_of_apart wellFormed areChildren
      (fun inside => apart (inside.trans (LiesIn.parent isParent)))
      (not_liesIn_of_parent wellFormed isParent)
  have unmoved : (document.children first).filter (· ∉ document.body second) =
      document.children first := by
    refine List.filter_eq_self.mpr fun child isChild => ?_
    rw [decide_eq_true_eq]
    intro isMember
    rw [wellFormed.mem_children_iff, areChildren child isMember, Option.some.injEq] at isChild
    exact differ isChild.symm
  constructor
  · rw [runningTexts_of_showsChildren gathers.wellFormed (by rw [shows_eq, firstShows]),
      gathers.children_eq, if_pos rfl, List.flatMap_append, unmoved, List.flatMap_congr kept,
      List.flatMap_congr moved, runningTexts_body wellFormed secondShows,
      runningTexts_of_showsChildren wellFormed firstShows]
  · rw [runningTexts_of_showsChildren gathers.wellFormed (by rw [shows_eq, secondShows]),
      gathers.children_eq, if_neg differ.symm, List.append_nil, List.flatMap_eq_nil_iff]
    intro child isMember
    rcases List.mem_filter.mp isMember with ⟨isChild, notMoved⟩
    have isProperties : document.isNamed child Word.Name.paragraphProperties = true := by
      simpa [body, isChild] using notMoved
    rw [← isNamed_of_content_eq (gathers.content_eq child)] at isProperties
    exact runningTexts_of_isNamed isProperties (by decide)

/-- Only what holds one of the paragraphs changes its running text. -/
theorem Gathers.rearranges_bodies (closed : document.Closed zone rights) (inZone : zone first)
    (secondInZone : zone second) :
    Rearranges zone rights
      (fun id => document.LiesIn id first ∨ document.LiesIn id second) document gathered := by
  have areChildren : ∀ child ∈ document.body second, document.parent child = some second :=
    fun child isMember => (mem_body wellFormed isMember).1
  refine ⟨gathers.changesWithin wellFormed closed inZone
    (fun child isMember => closed.child (areChildren child isMember) secondInZone)
    (fun child isMember => movable_of_parent (areChildren child isMember) secondInZone), ?_, ?_⟩
  · intro id _ untouched
    exact gathers.runningTexts_of_apart wellFormed areChildren (fun above => untouched (Or.inl above))
      fun above => untouched (Or.inr above)
  · intro id holder _ _ _ isHolder named
    rw [gathers.parent_eq] at isHolder
    split at isHolder
    · rw [Option.some.injEq] at isHolder
      subst isHolder
      rw [isNamed_of_content_eq (gathers.content_eq first),
        isNamed_eq_false firstNamed (by decide)] at named
      cases named
    · exact Or.inl isHolder

end Bodies

end Document

namespace Edit

open Outcome Document

variable {zone : NodeId → Prop} {rights : Rights} {document document' : Document}
  {first second : NodeId} {result : Unit}

theorem joined_of_joinParagraphs (wellFormed : document.WellFormed)
    (closed : document.Closed zone rights) (differ : first ≠ second)
    (firstNamed : document.isNamed first Word.Name.paragraph = true)
    (secondNamed : document.isNamed second Word.Name.paragraph = true)
    (apart : ¬document.LiesIn second first) (apart' : ¬document.LiesIn first second)
    (inZone : zone first) (secondInZone : zone second)
    (done : joinParagraphs first second document = .ok result document') :
    Joined document document' first second ∧
      Rearranges zone rights
        (fun id => document.LiesIn id first ∨ document.LiesIn id second) document document' := by
  simp only [joinParagraphs, differ, if_false, get_bind, bind_eq_ok] at done
  rcases done with ⟨⟨⟩, gathered, gatherDone, done⟩
  have first_lt := lt_size_of_isNamed firstNamed
  have second_lt := lt_size_of_isNamed secondNamed
  have gathers : Gathers document gathered first (document.body second) :=
    gathers_of_forM_appendChild wellFormed first_lt
      (fun _ isMember => lt_size_of_parent (mem_body wellFormed isMember).1)
      ((wellFormed.nodup_children second).filter _) gatherDone
  have rearranges := gathers.rearranges_bodies wellFormed firstNamed closed inZone secondInZone
  have joined := gathers.joined wellFormed firstNamed secondNamed differ apart apart'
  have moved : Neutral zone rights gathered document' :=
    neutral_of_movedBreak gathers.wellFormed rearranges.closed inZone secondInZone
      (gathers.size_eq ▸ first_lt) done
  exact ⟨joined.neutral moved (gathers.size_eq ▸ first_lt) (gathers.size_eq ▸ second_lt),
    rearranges.trans moved.rearranges wellFormed⟩

end Edit

end WordTemplate
