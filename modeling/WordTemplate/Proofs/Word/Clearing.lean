import WordTemplate.Proofs.Document.Neutral
import WordTemplate.Proofs.Word.Leading

/-!
# What joining text nodes takes away

Joining a stretch of text nodes takes all but the first one out of the tree, and from each of them
upwards the elements that are left with nothing to carry. Nothing is assumed here of the shape of the
tree but that only elements have children, so the nodes that go are described one by one: an element
goes exactly if it lost a child, has nothing left to carry and does not hold the first text node.
Every other node stays where it is among its siblings.
-/

namespace WordTemplate

namespace Document

variable {document before middle after : Document} {id child parent text top kept : NodeId}
  {ids pruned rest absorbed gone left right : List NodeId}

/-! ## Climbing -/

/-- What comes next on the way up from a node is the parent of what came before. -/
theorem mem_or_head_of_ancestors (wellFormed : document.WellFormed)
    (above : document.ancestors text = pruned ++ rest) (isChild : child ∈ text :: pruned)
    (isParent : document.parent child = some parent) :
    parent ∈ pruned ∨ rest.head? = some parent := by
  induction pruned generalizing text with
  | nil =>
      rw [List.mem_singleton] at isChild
      subst isChild
      rw [ancestors_of_parent wellFormed isParent, List.nil_append] at above
      exact Or.inr (by rw [← above, List.head?_cons])
  | cons first pruned inductionHypothesis =>
      rcases isFirst : document.parent text with _ | found
      · rw [ancestors_of_parent_none isFirst] at above
        cases above
      rw [ancestors_of_parent wellFormed isFirst, List.cons_append, List.cons.injEq] at above
      rcases above with ⟨rfl, above⟩
      rcases List.mem_cons.mp isChild with rfl | isLater
      · rw [isFirst, Option.some.injEq] at isParent
        exact Or.inl (isParent ▸ List.mem_cons_self)
      · exact (inductionHypothesis above isLater).imp_left (List.mem_cons_of_mem _)

/-- Whatever is met on the way up from a node is the parent of what came before. -/
theorem exists_child_of_ancestors (wellFormed : document.WellFormed)
    (above : document.ancestors text = pruned ++ rest) (isPruned : id ∈ pruned) :
    ∃ child ∈ text :: pruned, document.parent child = some id := by
  induction pruned generalizing text with
  | nil => cases isPruned
  | cons first pruned inductionHypothesis =>
      rcases isFirst : document.parent text with _ | found
      · rw [ancestors_of_parent_none isFirst] at above
        cases above
      rw [ancestors_of_parent wellFormed isFirst, List.cons_append, List.cons.injEq] at above
      rcases above with ⟨rfl, above⟩
      rcases List.mem_cons.mp isPruned with rfl | isLater
      · exact ⟨text, List.mem_cons_self, isFirst⟩
      · rcases inductionHypothesis above isLater with ⟨child, isChild, isParent⟩
        exact ⟨child, List.mem_cons_of_mem _ isChild, isParent⟩

/-! ## Dropping nodes -/

namespace Drops

theorem isPrunable_of_children_eq (drops : Drops before after ids)
    (children_eq : after.children id = middle.children id)
    (content_eq : ∀ id, middle.content id = before.content id) :
    after.isPrunable id = middle.isPrunable id := by
  have isNamed_eq : ∀ id name, after.isNamed id name = middle.isNamed id name := fun id =>
    isNamed_of_content_eq ((drops.content_eq id).trans (content_eq id).symm)
  simp only [isPrunable, isEmptyRun, children_eq, isNamed_eq, element?, drops.content_eq, content_eq]

/-- An element with nothing left to carry has nothing to carry after further nodes are dropped. -/
theorem isPrunable (drops : Drops before after ids) (prunable : before.isPrunable id = true) :
    after.isPrunable id = true := by
  have isNamed_eq : ∀ id name, after.isNamed id name = before.isNamed id name := fun id =>
    isNamed_of_content_eq (drops.content_eq id)
  simp only [Document.isPrunable, isEmptyRun, isNamed_eq, element?, drops.content_eq,
    drops.children_eq, Bool.and_eq_true, Bool.or_eq_true, List.isEmpty_iff,
    List.all_eq_true] at prunable ⊢
  refine prunable.imp_right (Or.imp (fun childless => by rw [childless, List.filter_nil])
    (And.imp_right fun styled child isChild => styled child (List.mem_of_mem_filter isChild)))

/-- A node loses a child exactly if one of its children is dropped. -/
theorem children_ne_iff (drops : Drops before after ids) :
    after.children id ≠ before.children id ↔ ∃ child ∈ before.children id, child ∈ ids := by
  rw [drops.children_eq, Ne, List.filter_eq_self]
  simp

/-- What stands above a node that is not dropped from below stays there. -/
theorem liesIn_iff (drops : Drops before after ids) (apart : ∀ id ∈ ids, ¬before.LiesIn id kept) :
    after.LiesIn id kept ↔ before.LiesIn id kept :=
  liesIn_iff_of_parent_eq fun node above => by
    rw [drops.parent_eq, if_neg fun isMember => apart node isMember above]

theorem of_cons (drops : Drops before after (id :: ids)) (wellFormed : before.WellFormed) :
    Drops (before.detach id) after ids where
  wellFormed := drops.wellFormed
  size_eq := by rw [drops.size_eq, size_detach]
  root_eq := by rw [drops.root_eq, root_detach]
  content_eq other := by rw [drops.content_eq, content_detach wellFormed]
  parent_eq other := by
    rw [drops.parent_eq, parent_detach wellFormed]
    by_cases isFirst : other = id <;> simp [isFirst]
  children_eq other := by
    rw [drops.children_eq, children_detach wellFormed, List.filter_filter]
    refine List.filter_congr fun child _ => ?_
    by_cases isFirst : child = id <;> simp [isFirst]

/-- Dropping nodes takes out the text below them. -/
theorem texts_eq (drops : Drops before after ids) (wellFormed : before.WellFormed)
    (apart : ∀ id ∈ ids, ¬before.LiesIn id top) :
    after.texts top =
      (before.texts top).filter fun text => ids.all (!before.contains · text) := by
  induction ids generalizing before with
  | nil =>
      have all_kept : (before.texts top).filter (fun text => ([] : List NodeId).all
          (!before.contains · text)) = before.texts top := List.filter_eq_self.mpr fun _ _ => rfl
      rw [all_kept]
      refine texts_congr wellFormed drops.wellFormed fun id _ => ⟨?_, ?_⟩
      · rw [drops.children_eq]
        simp
      · rw [isText, isText, text?, text?, drops.content_eq]
  | cons first ids inductionHypothesis =>
      have firstApart := apart first List.mem_cons_self
      have apart' : ∀ id ∈ ids, ¬(before.detach first).LiesIn id top := fun id isMember inside =>
        apart id (List.mem_cons_of_mem _ isMember) (liesIn_of_liesIn_detach wellFormed inside)
      rw [inductionHypothesis (drops.of_cons wellFormed) (wellFormed.detach first) apart',
        texts_detach wellFormed firstApart, List.filter_filter]
      refine List.filter_congr fun text _ => ?_
      by_cases inside : before.LiesIn first text
      · rw [List.all_cons, (contains_iff wellFormed).mpr inside]
        simp
      · have same : ∀ id, (before.detach first).contains id text = before.contains id text := by
          intro id
          rw [Bool.eq_iff_iff, contains_iff (wellFormed.detach first), contains_iff wellFormed]
          exact liesIn_detach_iff wellFormed inside
        simp only [same, List.all_cons, Bool.and_comm]

end Drops

/-! ## What goes with the absorbed text nodes -/

/-- `gone` are the nodes that went with the absorbed text nodes: these, and the elements that lost a
child, have nothing left to carry and do not hold the node that is kept. -/
structure Sweeps (before after : Document) (kept : NodeId) (absorbed gone : List NodeId) : Prop where
  drops : Drops before after gone
  mem_iff : ∀ id, id ∈ gone ↔ id ∈ absorbed ∨
    ¬before.LiesIn id kept ∧ (∃ child ∈ before.children id, child ∈ gone) ∧
      after.isPrunable id = true

namespace Sweeps

theorem refl (wellFormed : document.WellFormed) (kept : NodeId) :
    Sweeps document document kept [] [] where
  drops := ⟨wellFormed, rfl, rfl, fun _ => rfl, by simp, by simp⟩
  mem_iff id := by simp

variable (sweeps : Sweeps before after kept absorbed gone)
  (apart : ∀ text ∈ absorbed, ¬before.LiesIn text kept)
include sweeps

include apart in
theorem not_liesIn (isGone : id ∈ gone) : ¬before.LiesIn id kept := by
  rcases (sweeps.mem_iff id).mp isGone with isAbsorbed | ⟨outside, -⟩
  · exact apart id isAbsorbed
  · exact outside

/-- Whatever goes holds an absorbed text node. -/
theorem exists_absorbed (wellFormed : before.WellFormed) (isGone : id ∈ gone) :
    ∃ text ∈ absorbed, before.LiesIn id text := by
  induction id using wellFormed.induction_children with
  | step id inductionHypothesis =>
      rcases (sweeps.mem_iff id).mp isGone with isAbsorbed | ⟨-, ⟨child, isChild, childGone⟩, -⟩
      · exact ⟨id, isAbsorbed, LiesIn.refl⟩
      · rcases inductionHypothesis child isChild childGone with ⟨text, isAbsorbed, below⟩
        have isParent := (wellFormed.mem_children_iff _ _).mp isChild
        exact ⟨text, isAbsorbed, below.trans (LiesIn.parent isParent)⟩

end Sweeps

/-! ## What an edit takes out -/

section Loses

variable (before after : Document)

/-- Whether an edit takes a node out of its parent. -/
def Loses (id : NodeId) : Prop :=
  before.parent id ≠ none ∧ after.parent id = none

instance (id : NodeId) : Decidable (before.Loses after id) :=
  inferInstanceAs (Decidable (_ ∧ _))

/-- An element that lost a child and has nothing left to carry. -/
def Emptied (id : NodeId) : Prop :=
  after.children id ≠ before.children id ∧ after.isPrunable id = true

/-- Text in the properties of a run that is taken out. It goes with the run. -/
def CarriedOff (text : NodeId) : Prop :=
  ∃ properties ∈ text :: before.ancestors text,
    before.isNamed properties Word.Name.runProperties = true ∧
      ∃ run ∈ before.parent properties, before.isNamed run Word.Name.run = true ∧
        before.Loses after run

instance (text : NodeId) : Decidable (before.CarriedOff after text) :=
  inferInstanceAs (Decidable (∃ properties ∈ text :: before.ancestors text, _ ∧ _))

/-- The edit takes out the `absorbed` text nodes and the emptied elements around them that do not
hold the text node that is kept. All other nodes stay where they are. -/
structure Sheds (kept : NodeId) (absorbed : List NodeId) : Prop where
  loses_iff : ∀ id, before.Loses after id ↔ id ∈ absorbed ∨
    (∃ text ∈ absorbed, before.LiesIn id text) ∧ ¬before.LiesIn id kept ∧ before.Emptied after id
  parent_eq : ∀ id, ¬before.Loses after id → after.parent id = before.parent id
  children_eq : ∀ id, after.children id =
    (before.children id).filter fun child => ¬before.Loses after child
  texts_eq : ∀ top left right, before.texts top = left ++ kept :: absorbed ++ right →
    after.texts top = left ++ kept :: right.filter fun text => ¬before.CarriedOff after text

end Loses

namespace Sweeps

variable (sweeps : Sweeps before after kept absorbed gone) (wellFormed : before.WellFormed)
  (childless : before.TextChildless) (whole : before.texts top = left ++ kept :: absorbed ++ right)
include sweeps wellFormed childless whole

omit sweeps in
/-- No absorbed text node holds the one that is kept. -/
theorem absorbed_apart : ∀ text ∈ absorbed, ¬before.LiesIn text kept := by
  intro text isAbsorbed inside
  have nodup := nodup_texts wellFormed top
  have isBelow : text ∈ before.texts top := by
    rw [whole]
    simp [isAbsorbed]
  have isText := ((mem_texts_iff wellFormed).mp isBelow).2
  rw [eq_of_liesIn_childless wellFormed (childless text isText) inside] at whole
  rw [whole, List.append_assoc, List.cons_append, List.nodup_middle, List.nodup_cons] at nodup
  exact nodup.1 (by simp [isAbsorbed])

omit sweeps childless in
theorem liesIn_of_absorbed (isMember : text ∈ absorbed ++ right) :
    before.LiesIn top text ∧ before.isText text = true := by
  rw [← mem_texts_iff wellFormed, whole, List.append_assoc, List.cons_append]
  exact List.mem_append_right _ (List.mem_cons_of_mem _ isMember)

omit sweeps childless in
theorem liesIn_kept : before.LiesIn top kept :=
  ((mem_texts_iff wellFormed).mp (by rw [whole]; simp)).1

/-- The nodes that went are those taken out of their parents. -/
theorem mem_iff_loses : id ∈ gone ↔ before.Loses after id := by
  have absorbedApart := absorbed_apart wellFormed childless whole
  refine ⟨fun isGone => ?_, fun isLost => ?_⟩
  · have outside := sweeps.not_liesIn absorbedApart isGone
    rcases sweeps.exists_absorbed wellFormed isGone with ⟨text, isAbsorbed, above⟩
    have below := (liesIn_of_absorbed wellFormed whole (List.mem_append_left right isAbsorbed)).1
    refine ⟨fun detached => outside ?_, by rw [sweeps.drops.parent_eq, if_pos isGone]⟩
    rcases above.total below with around | around
    · exact (liesIn_kept wellFormed whole).trans around
    · exact around.eq_of_parent_none detached ▸ liesIn_kept wellFormed whole
  · by_contra notGone
    rw [Loses, sweeps.drops.parent_eq, if_neg notGone] at isLost
    exact isLost.1 isLost.2

/-- Text behind the absorbed nodes that lies in a node that went is carried off. -/
theorem carriedOff_of_mem (isRight : text ∈ right) (isGone : id ∈ gone)
    (inside : before.LiesIn id text) : before.CarriedOff after text := by
  have isText := (liesIn_of_absorbed wellFormed whole (List.mem_append_right absorbed isRight)).2
  have notAbsorbed : text ∉ absorbed := fun isAbsorbed => by
    have nodup := nodup_texts wellFormed top
    rw [whole, List.nodup_append] at nodup
    exact nodup.2.2 text (by simp [isAbsorbed]) text isRight rfl
  induction id using wellFormed.induction_children with
  | step id inductionHypothesis =>
      rcases (sweeps.mem_iff id).mp isGone with isAbsorbed | ⟨-, -, prunable⟩
      · have idText :=
          (liesIn_of_absorbed wellFormed whole (List.mem_append_left right isAbsorbed)).2
        rw [eq_of_liesIn_childless wellFormed (childless id idText) inside] at notAbsorbed
        exact absurd isAbsorbed notAbsorbed
      rcases inside.cases_child with rfl | ⟨child, isParent, below⟩
      · have notText := isText_eq_false_of_isPrunable prunable
        rw [Document.isText, text?, sweeps.drops.content_eq, ← text?, ← Document.isText,
          isText] at notText
        cases notText
      have isChild := (wellFormed.mem_children_iff _ _).mpr isParent
      by_cases childGone : child ∈ gone
      · exact inductionHypothesis child isChild childGone below
      -- A child that stays shows that the node is a run with properties only.
      have isLeft : child ∈ after.children id := by
        rw [sweeps.drops.children_eq]
        exact List.mem_filter.mpr ⟨isChild, by simpa using childGone⟩
      have isNamed_eq : ∀ id name, after.isNamed id name = before.isNamed id name := fun id =>
        isNamed_of_content_eq (sweeps.drops.content_eq id)
      simp only [isPrunable, Bool.and_eq_true, Bool.or_eq_true, List.isEmpty_iff] at prunable
      rcases prunable.2 with none | styled
      · rw [none] at isLeft
        cases isLeft
      · simp only [isEmptyRun, Bool.and_eq_true, List.all_eq_true, isNamed_eq] at styled
        exact ⟨child, (mem_cons_ancestors_iff wellFormed).mpr below,
          styled.2 child isLeft, id, isParent, styled.1,
          (sweeps.mem_iff_loses wellFormed childless whole).mp isGone⟩

/-- What is left of the text of a tree that holds the stretch. -/
theorem texts_eq : after.texts top =
    left ++ kept :: right.filter fun text => ¬before.CarriedOff after text := by
  have absorbedApart := absorbed_apart wellFormed childless whole
  have keptInside := liesIn_kept wellFormed whole
  let stays := fun text => gone.all (!before.contains · text)
  have stays_iff : ∀ text, stays text = true ↔ ∀ id ∈ gone, ¬before.LiesIn id text := by
    intro text
    simp only [stays, List.all_eq_true, Bool.not_eq_true', ← Bool.not_eq_true,
      contains_iff wellFormed]
  have leftStays : left.filter stays = left := by
    refine List.filter_eq_self.mpr fun text isLeft => (stays_iff text).mpr fun id isGone inside => ?_
    rcases sweeps.exists_absorbed wellFormed isGone with ⟨other, isAbsorbed, above⟩
    refine sweeps.not_liesIn absorbedApart isGone ?_
    exact liesIn_between wellFormed (childless.plainBelow wellFormed top)
      (by rw [whole, List.append_assoc, List.cons_append]) isLeft
      (List.mem_append_left right isAbsorbed) inside above
  have keptStays : stays kept = true :=
    (stays_iff kept).mpr fun id isGone => sweeps.not_liesIn absorbedApart isGone
  have absorbedGo : absorbed.filter stays = [] := by
    refine List.filter_eq_nil_iff.mpr fun text isAbsorbed isStaying => ?_
    exact (stays_iff text).mp isStaying text ((sweeps.mem_iff text).mpr (Or.inl isAbsorbed))
      LiesIn.refl
  have rightStays : right.filter stays =
      right.filter fun text => ¬before.CarriedOff after text := by
    refine List.filter_congr fun text isRight => ?_
    rw [Bool.eq_iff_iff, stays_iff, decide_eq_true_eq]
    refine ⟨?_, fun notCarried id isGone inside =>
      notCarried (sweeps.carriedOff_of_mem wellFormed childless whole isRight isGone inside)⟩
    rintro apart ⟨properties, isAbove, -, run, isParent, -, isLost⟩
    refine apart run ((sweeps.mem_iff_loses wellFormed childless whole).mpr isLost) ?_
    exact ((mem_cons_ancestors_iff wellFormed).mp isAbove).trans (LiesIn.parent isParent)
  rw [sweeps.drops.texts_eq wellFormed fun id isGone above =>
    sweeps.not_liesIn absorbedApart isGone (keptInside.trans above), whole, List.filter_append,
    List.filter_append, leftStays, List.filter_cons_of_pos keptStays, absorbedGo, rightStays,
    List.append_assoc, List.cons_append, List.nil_append]

theorem sheds : before.Sheds after kept absorbed where
  loses_iff id := by
    rw [← sweeps.mem_iff_loses wellFormed childless whole, sweeps.mem_iff id]
    refine or_congr_right ⟨?_, ?_⟩
    · rintro ⟨outside, lost, prunable⟩
      exact ⟨sweeps.exists_absorbed wellFormed
        ((sweeps.mem_iff id).mpr (Or.inr ⟨outside, lost, prunable⟩)), outside,
        sweeps.drops.children_ne_iff.mpr lost, prunable⟩
    · rintro ⟨-, outside, lost, prunable⟩
      exact ⟨outside, sweeps.drops.children_ne_iff.mp lost, prunable⟩
  parent_eq id stays := by
    rw [← sweeps.mem_iff_loses wellFormed childless whole] at stays
    rw [sweeps.drops.parent_eq, if_neg stays]
  children_eq id := by
    rw [sweeps.drops.children_eq]
    refine List.filter_congr fun child _ => decide_eq_decide.mpr (not_congr ?_)
    exact sweeps.mem_iff_loses wellFormed childless whole
  texts_eq top' left' right' whole' := sweeps.texts_eq wellFormed childless whole'

end Sweeps

end Document

namespace Edit

open Document Outcome

variable {document before middle : Document} {id kept text : NodeId}
  {absorbed gone rest left right : List NodeId}

/-- Pruning goes up as far as elements have nothing left to carry and do not hold the node that is
kept. -/
theorem exists_drops_pruneUpwards (wellFormed : document.WellFormed) (kept : NodeId)
    (candidates : List NodeId) :
    ∃ after pruned rest, candidates = pruned ++ rest ∧
      pruneUpwards kept candidates document = .ok ⟨⟩ after ∧ Drops document after pruned ∧
      (∀ id ∈ pruned, ¬document.LiesIn id kept ∧ after.isPrunable id = true) ∧
      ∀ id, rest.head? = some id → document.LiesIn id kept ∨ after.isPrunable id = false := by
  induction candidates generalizing document with
  | nil =>
      exact ⟨document, [], [], rfl, rfl, (Sweeps.refl wellFormed kept).drops, nofun, nofun⟩
  | cons candidate outer inductionHypothesis =>
      by_cases stops : (document.contains candidate kept || !document.isPrunable candidate) = true
      · refine ⟨document, [], candidate :: outer, rfl, ?_, (Sweeps.refl wellFormed kept).drops,
          nofun, fun id isHead => ?_⟩
        · simp only [pruneUpwards, get_bind, stops, if_true]
          rfl
        · rw [List.head?_cons, Option.some.injEq] at isHead
          subst isHead
          simpa [contains_iff wellFormed] using stops
      · have goesOn := stops
        simp only [Bool.or_eq_true, Bool.not_eq_true', not_or, contains_iff wellFormed,
          Bool.not_eq_false] at goesOn
        rcases goesOn with ⟨outside, prunable⟩
        rcases inductionHypothesis (wellFormed.detach candidate) with
          ⟨after, pruned, rest, rfl, done, drops, isPruned, isLeft⟩
        have both := (drops_detach wellFormed candidate).append drops
        refine ⟨after, candidate :: pruned, rest, rfl, ?_, both, fun id isMember => ?_,
          fun id isHead => ?_⟩
        · simp only [pruneUpwards, get_bind, stops]
          exact bind_eq_ok.mpr ⟨⟨⟩, _, detach_eq_ok.mpr rfl, done⟩
        · rcases List.mem_cons.mp isMember with rfl | isLater
          · exact ⟨outside, both.isPrunable prunable⟩
          · rw [← liesIn_detach_iff wellFormed outside]
            exact isPruned id isLater
        · exact (isLeft id isHead).imp_left (liesIn_of_liesIn_detach wellFormed)

/-- One more text node is absorbed. -/
theorem exists_sweeps_removeAbsorbed (wellFormed : before.WellFormed)
    (sweeps : Sweeps before middle kept absorbed gone)
    (apart : ∀ id ∈ absorbed ++ [text], ¬before.LiesIn id kept) :
    ∃ after gone', removeAbsorbed kept text middle = .ok ⟨⟩ after ∧
      Sweeps before after kept (absorbed ++ [text]) gone' := by
  have middleFormed := sweeps.drops.wellFormed
  have goneApart : ∀ id ∈ gone, ¬before.LiesIn id kept := fun id isGone =>
    sweeps.not_liesIn (fun id isAbsorbed => apart id (List.mem_append_left _ isAbsorbed)) isGone
  rcases exists_drops_pruneUpwards (middleFormed.detach text) kept (middle.ancestors text) with
    ⟨after, pruned, rest, above, done, later, isPruned, isLeft⟩
  have taken : Drops middle after (text :: pruned) := (drops_detach middleFormed text).append later
  have drops : Drops before after (gone ++ text :: pruned) := sweeps.drops.append taken
  have liesIn_iff : ∀ id, (middle.detach text).LiesIn id kept ↔ before.LiesIn id kept := by
    intro id
    have outside : ¬middle.LiesIn text kept := by
      rw [sweeps.drops.liesIn_iff goneApart]
      exact apart text (by simp)
    rw [liesIn_detach_iff middleFormed outside, sweeps.drops.liesIn_iff goneApart]
  refine ⟨after, gone ++ text :: pruned, ?_, drops, fun id => ⟨fun isGone => ?_, ?_⟩⟩
  · simp only [removeAbsorbed, get_bind]
    exact bind_eq_ok.mpr ⟨⟨⟩, _, detach_eq_ok.mpr rfl, done⟩
  · rcases List.mem_append.mp isGone with isOld | isNew
    · rcases (sweeps.mem_iff id).mp isOld with
        isAbsorbed | ⟨outside, ⟨child, isChild, childGone⟩, prunable⟩
      · exact Or.inl (List.mem_append_left _ isAbsorbed)
      · exact Or.inr ⟨outside, ⟨child, isChild, List.mem_append_left _ childGone⟩,
          taken.isPrunable prunable⟩
    · rcases List.mem_cons.mp isNew with rfl | isNew
      · exact Or.inl (by simp)
      · rcases exists_child_of_ancestors middleFormed above isNew with ⟨child, isChild, isParent⟩
        rcases isPruned id isNew with ⟨outside, prunable⟩
        rw [liesIn_iff] at outside
        have isParent := sweeps.drops.parent_of_some isParent
        exact Or.inr ⟨outside, ⟨child, (wellFormed.mem_children_iff _ _).mpr isParent,
          List.mem_append_right _ isChild⟩, prunable⟩
  · rintro (isAbsorbed | ⟨outside, ⟨child, isChild, childGone⟩, prunable⟩)
    · rcases List.mem_append.mp isAbsorbed with isOld | isNew
      · exact List.mem_append_left _ ((sweeps.mem_iff id).mpr (Or.inl isOld))
      · rw [List.mem_singleton] at isNew
        exact List.mem_append_right _ (isNew ▸ List.mem_cons_self)
    by_cases isReached : ∃ child ∈ before.children id, child ∈ text :: pruned ∧ child ∉ gone
    · -- The climb came to this node from below, so it did not stop before it.
      rcases isReached with ⟨reached, isChild, isTaken, notOld⟩
      have isParent : middle.parent reached = some id := by
        rw [sweeps.drops.parent_eq, if_neg notOld, (wellFormed.mem_children_iff _ _).mp isChild]
      rcases mem_or_head_of_ancestors middleFormed above isTaken isParent with isMember | isHead
      · exact List.mem_append_right _ (List.mem_cons_of_mem _ isMember)
      · rcases isLeft id isHead with inside | notPrunable
        · exact absurd ((liesIn_iff id).mp inside) outside
        · rw [prunable] at notPrunable
          cases notPrunable
    · -- All children that went had gone before.
      have earlier : ∀ child ∈ before.children id, child ∈ gone ++ text :: pruned → child ∈ gone := by
        intro child isChild isMember
        by_contra notOld
        exact isReached
          ⟨child, isChild, (List.mem_append.mp isMember).resolve_left notOld, notOld⟩
      have children_eq : after.children id = middle.children id := by
        rw [drops.children_eq, sweeps.drops.children_eq]
        refine List.filter_congr fun child isChild => decide_eq_decide.mpr (not_congr ?_)
        exact ⟨earlier child isChild, List.mem_append_left _⟩
      rw [drops.isPrunable_of_children_eq children_eq sweeps.drops.content_eq] at prunable
      exact List.mem_append_left _ ((sweeps.mem_iff id).mpr
        (Or.inr ⟨outside, ⟨child, isChild, earlier child isChild childGone⟩, prunable⟩))

/-- The text nodes of a stretch are absorbed one after the other. -/
theorem exists_sweeps_removeAll (wellFormed : before.WellFormed)
    (sweeps : Sweeps before middle kept absorbed gone)
    (apart : ∀ id ∈ absorbed ++ rest, ¬before.LiesIn id kept) :
    ∃ after gone', rest.forM (removeAbsorbed kept) middle = .ok ⟨⟩ after ∧
      Sweeps before after kept (absorbed ++ rest) gone' := by
  induction rest generalizing middle absorbed gone with
  | nil => exact ⟨middle, gone, rfl, by rwa [List.append_nil]⟩
  | cons text rest inductionHypothesis =>
      rw [← List.singleton_append, ← List.append_assoc] at apart ⊢
      rcases exists_sweeps_removeAbsorbed wellFormed sweeps
        (fun id isMember => apart id (List.mem_append_left _ isMember)) with
        ⟨next, gone', done, sweeps'⟩
      rcases inductionHypothesis sweeps' apart with ⟨after, gone'', restDone, sweeps''⟩
      exact ⟨after, gone'', forM_cons_eq_ok.mpr ⟨next, done, restDone⟩, sweeps''⟩

end Edit

end WordTemplate
