import WordTemplate.Proofs.Document.Adding
import WordTemplate.Proofs.Document.Steps

/-!
# Edits keep documents intact

An edit may fail halfway, and what it did until then stays done. So this file follows both
outcomes: after every step of every edit the document is well-formed, no address is lost, and a
root without a parent gets none. The steps are chained by one rule for sequences and one for loops,
and only the insertions have conditions of their own.
-/

namespace WordTemplate

namespace Document

/-- `after` is a well-formed continuation of `before`. A root without a parent gets none as long as
it is to be spared. -/
structure Intact (spared : Prop) (before after : Document) : Prop where
  wellFormed : after.WellFormed
  size_le : before.size ≤ after.size
  root_eq : after.root = before.root
  root_detached : spared → before.parent before.root = none → after.parent before.root = none

variable {spared : Prop} {base document before middle after : Document} {id other node parent child : NodeId}
  {left right : List NodeId}

namespace Intact

theorem refl (wellFormed : document.WellFormed) : Intact spared document document :=
  ⟨wellFormed, Nat.le_refl _, rfl, fun _ => id⟩

theorem trans (first : Intact spared before middle) (second : Intact spared middle after) :
    Intact spared before after where
  wellFormed := second.wellFormed
  size_le := Nat.le_trans first.size_le second.size_le
  root_eq := second.root_eq.trans first.root_eq
  root_detached isSpared detached := by
    have stillDetached := first.root_detached isSpared detached
    rw [← first.root_eq] at stillDetached ⊢
    exact second.root_detached isSpared stillDetached

theorem inStore (intact : Intact spared before after) (isOld : id.index < before.size) :
    id.index < after.size :=
  Nat.lt_of_lt_of_le isOld intact.size_le

theorem still_detached (intact : Intact spared before after)
    (detached : spared → before.parent before.root = none) (isSpared : spared) :
    after.parent after.root = none := by
  rw [intact.root_eq]
  exact intact.root_detached isSpared (detached isSpared)

/-- A node with a parent is not a root that had none. -/
theorem ne_root (intact : Intact spared before after)
    (detached : spared → before.parent before.root = none)
    (isParent : before.parent child = some parent) (isSpared : spared) : child ≠ after.root := by
  rintro rfl
  rw [intact.root_eq, detached isSpared] at isParent
  cases isParent

end Intact

/-- A node that was added to a document. -/
structure Added (before after : Document) (id : NodeId) : Prop where
  isNew : before.size ≤ id.index
  inStore : id.index < after.size

theorem added_add (document : Document) (content : Content) :
    Added document (document.add content) document.nextId where
  isNew := Nat.le_refl _
  inStore := by
    rw [size_add]
    exact Nat.lt_succ_self _

theorem Added.later (added : Added before middle id) (intact : Intact spared middle after) :
    Added before after id :=
  ⟨added.isNew, intact.inStore added.inStore⟩

/-- The root is older than what was added. -/
theorem Added.ne_root (added : Added before after id) (wellFormed : before.WellFormed)
    (intact : Intact spared before after) : id ≠ after.root := by
  rintro rfl
  have isNew := added.isNew
  rw [intact.root_eq] at isNew
  exact absurd wellFormed.root_lt (Nat.not_lt_of_le isNew)

/-- Adding nodes keeps a document intact. -/
theorem Adds.intact (adds : Adds before after) (wellFormed : before.WellFormed) :
    Intact spared before after where
  wellFormed := adds.wellFormed
  size_le := adds.size_le
  root_eq := adds.root_eq
  root_detached _ detached := (adds.parent_eq wellFormed.root_lt).trans detached

theorem AddsTo.intact (adds : Adds base before) (addsTo : AddsTo base before after) :
    Intact spared before after where
  wellFormed := addsTo.wellFormed
  size_le := addsTo.grows
  root_eq := addsTo.root_eq.trans adds.root_eq.symm
  root_detached _ detached := (addsTo.parent_kept _ adds.wellFormed.root_lt).trans detached

theorem intact_setContent (wellFormed : document.WellFormed) (id : NodeId) (content : Content) :
    Intact spared document (document.setContent id content) where
  wellFormed := wellFormed.setContent id content
  size_le := Nat.le_of_eq (size_setContent _ _ _).symm
  root_eq := rfl
  root_detached _ detached := (parent_setContent _ _ _ _).trans detached

theorem intact_setAttribute (wellFormed : document.WellFormed) (id : NodeId) (key value : String) :
    Intact spared document (document.setAttribute id key value) := by
  rw [setAttribute]
  split
  · exact intact_setContent wellFormed id _
  · exact Intact.refl wellFormed

theorem intact_detach (wellFormed : document.WellFormed) (id : NodeId) :
    Intact spared document (document.detach id) where
  wellFormed := wellFormed.detach id
  size_le := Nat.le_of_eq (size_detach _ _).symm
  root_eq := root_detach _ _
  root_detached _ detached := by
    rw [parent_detach wellFormed]
    split
    · rfl
    · exact detached

/-- A move keeps a document intact unless it puts a spared root below another node. -/
theorem Moves.intact (moves : Moves before after node parent left right)
    (spares : spared → node ≠ before.root) : Intact spared before after where
  wellFormed := moves.wellFormed
  size_le := Nat.le_of_eq moves.size_eq.symm
  root_eq := moves.root_eq
  root_detached isSpared detached := by
    rw [moves.parent_eq, if_neg (spares isSpared).symm]
    exact detached

end Document

namespace Edit

open Document

variable {α β : Type} {spared : Prop}

/-- Whether it succeeds or fails, an edit keeps the document intact; if it succeeds, its value and
the document after it are as stated. -/
def KeepsIntact (spared : Prop) (edit : Edit α) (document : Document)
    (result : α → Document → Prop) : Prop :=
  match edit document with
  | .ok value after => Intact spared document after ∧ result value after
  | .error _ after => Intact spared document after

namespace KeepsIntact

variable {document after : Document} {edit first : Edit α} {next : α → Edit β}
  {between stronger : α → Document → Prop} {result : β → Document → Prop}

theorem of_pure {value : β} (wellFormed : document.WellFormed) (holds : result value document) :
    KeepsIntact spared (pure value) document result :=
  ⟨Intact.refl wellFormed, holds⟩

theorem of_throw {cause : DocumentError} (wellFormed : document.WellFormed) :
    KeepsIntact spared (throw cause) document result :=
  Intact.refl wellFormed

theorem of_modify {change : Document → Document} {result : Unit → Document → Prop}
    (intact : Intact spared document (change document)) (holds : result () (change document)) :
    KeepsIntact spared (modify change) document result :=
  ⟨intact, holds⟩

theorem of_get {next : Document → Edit β} (keeps : KeepsIntact spared (next document) document result) :
    KeepsIntact spared (get >>= next) document result :=
  keeps

/-- Steps that keep the document intact do so one after the other. -/
theorem bind (firstKeeps : KeepsIntact spared first document between)
    (nextKeeps : ∀ value after, Intact spared document after → between value after →
      KeepsIntact spared (next value) after result) :
    KeepsIntact spared (first >>= next) document result := by
  unfold KeepsIntact at firstKeeps ⊢
  simp only [Bind.bind, EStateM.bind]
  cases firstDone : first document with
  | error cause middle =>
      rw [firstDone] at firstKeeps
      exact firstKeeps
  | ok value middle =>
      rw [firstDone] at firstKeeps
      rcases firstKeeps with ⟨intact, holds⟩
      have later := nextKeeps value middle intact holds
      unfold KeepsIntact at later
      dsimp only
      cases nextDone : next value middle with
      | error cause after =>
          rw [nextDone] at later
          exact intact.trans later
      | ok value' after =>
          rw [nextDone] at later
          exact ⟨intact.trans later.1, later.2⟩

theorem imp (keeps : KeepsIntact spared edit document stronger)
    (weaken : ∀ value after, Intact spared document after → stronger value after → between value after) :
    KeepsIntact spared edit document between := by
  unfold KeepsIntact at keeps ⊢
  cases done : edit document with
  | error cause after => simpa [done] using keeps
  | ok value after =>
      rw [done] at keeps
      exact ⟨keeps.1, weaken value after keeps.1 keeps.2⟩

theorem discard (keeps : KeepsIntact spared edit document between) :
    KeepsIntact spared (discard edit) document fun _ _ => True := by
  change KeepsIntact spared ((fun _ => ()) <$> edit) document fun _ _ => True
  unfold KeepsIntact at keeps ⊢
  simp only [Functor.map, EStateM.map]
  cases done : edit document with
  | error cause after => simpa [done] using keeps
  | ok value after =>
      rw [done] at keeps
      exact ⟨keeps.1, trivial⟩

/-- A loop keeps the document intact if each of its steps does, wherever it starts. -/
theorem of_forM {items : List α} {step : α → Edit PUnit} (wellFormed : document.WellFormed)
    (each : ∀ item ∈ items, ∀ middle, Intact spared document middle →
      KeepsIntact spared (step item) middle fun _ _ => True) :
    KeepsIntact spared (items.forM step) document fun _ _ => True := by
  induction items generalizing document with
  | nil => exact of_pure wellFormed trivial
  | cons item items inductionHypothesis =>
      refine bind (each item List.mem_cons_self document (Intact.refl wellFormed)) ?_
      intro _ middle intact _
      exact inductionHypothesis intact.wellFormed fun other isMember later laterIntact =>
        each other (List.mem_cons_of_mem _ isMember) later (intact.trans laterIntact)

end KeepsIntact

variable {document : Document} {id other parent child node reference : NodeId}
  {index offset : Nat}

/-! ## Steps without conditions -/

theorem keepsIntact_create (wellFormed : document.WellFormed) (content : Content) :
    KeepsIntact spared (create content) document fun id after => Added document after id :=
  ⟨((Adds.refl wellFormed).add content).intact wellFormed, added_add document content⟩

theorem keepsIntact_copyNode (wellFormed : document.WellFormed) (id : NodeId) :
    KeepsIntact spared (copyNode id) document fun copy after => Added document after copy :=
  keepsIntact_create wellFormed _

theorem keepsIntact_setText (wellFormed : document.WellFormed) (id : NodeId)
    (characters : String) : KeepsIntact spared (setText id characters) document fun _ _ => True := by
  refine KeepsIntact.of_get ?_
  split
  · exact KeepsIntact.of_modify (intact_setContent wellFormed id _) trivial
  · exact KeepsIntact.of_throw wellFormed

theorem keepsIntact_setAttribute (wellFormed : document.WellFormed) (id : NodeId)
    (key value : String) : KeepsIntact spared (setAttribute id key value) document fun _ _ => True :=
  KeepsIntact.of_modify (intact_setAttribute wellFormed id key value) trivial

theorem keepsIntact_detach (wellFormed : document.WellFormed) (id : NodeId) :
    KeepsIntact spared (detach id) document fun _ _ => True :=
  KeepsIntact.of_modify (intact_detach wellFormed id) trivial

theorem keepsIntact_parentOf (wellFormed : document.WellFormed) (id : NodeId) :
    KeepsIntact spared (parentOf id) document fun parent after =>
      after = document ∧ document.parent id = some parent := by
  refine KeepsIntact.of_get ?_
  split
  · next parent isParent => exact KeepsIntact.of_pure wellFormed ⟨rfl, isParent⟩
  · exact KeepsIntact.of_throw wellFormed

theorem keepsIntact_indexOf (wellFormed : document.WellFormed) (id : NodeId) :
    KeepsIntact spared (indexOf id) document fun _ after => after = document := by
  refine KeepsIntact.of_get ?_
  split
  · exact KeepsIntact.of_pure wellFormed rfl
  · exact KeepsIntact.of_throw wellFormed

theorem keepsIntact_checkCycle (wellFormed : document.WellFormed) (parent node : NodeId) :
    KeepsIntact spared (checkCycle parent node) document fun _ after =>
      after = document ∧ ¬document.LiesIn node parent := by
  refine KeepsIntact.of_get ?_
  split
  · exact KeepsIntact.of_throw wellFormed
  · next notInside =>
      rw [Document.contains_iff wellFormed] at notInside
      exact KeepsIntact.of_pure wellFormed ⟨rfl, notInside⟩

theorem keepsIntact_siblingRange (wellFormed : document.WellFormed) (first last : NodeId) :
    KeepsIntact spared (siblingRange first last) document fun _ after => after = document := by
  refine KeepsIntact.of_get ?_
  split
  · exact KeepsIntact.of_pure wellFormed rfl
  · exact KeepsIntact.of_throw wellFormed

theorem keepsIntact_removeBetween (wellFormed : document.WellFormed) (first last : NodeId) :
    KeepsIntact spared (removeBetween first last) document fun _ _ => True := by
  refine (keepsIntact_siblingRange wellFormed first last).bind ?_
  rintro range _ - rfl
  refine (KeepsIntact.of_forM wellFormed fun id _ middle intact =>
    keepsIntact_detach intact.wellFormed id).bind ?_
  intro _ after intact _
  exact KeepsIntact.of_pure intact.wellFormed trivial

theorem keepsIntact_copySubtree (wellFormed : document.WellFormed)
    (inStore : id.index < document.size) :
    KeepsIntact spared (copySubtree id) document fun copy after =>
      Added document after copy.root := by
  have copied := copies_copySubtree wellFormed inStore
  have isPair : (id, (document.copySubtree id).2.root) ∈ (document.copySubtree id).2.pairs := by
    simpa using copied.tops
  have adds : Adds document (document.copySubtree id).1 :=
    ⟨copied.retains, copied.wellFormed, copied.root_eq⟩
  rcases copied.le_index isPair with ⟨isNew, inStore'⟩
  exact ⟨adds.intact wellFormed, isNew, inStore'⟩

theorem keepsIntact_readFragment (wellFormed : document.WellFormed) (source : String) :
    KeepsIntact spared (readFragment source) document fun _ _ => True := by
  let content : Content := .element { name := Document.containerName }
  have added := (Adds.refl wellFormed).add content
  have created : KeepsIntact spared (create content) document fun id after =>
      after = document.add content ∧ id = document.nextId :=
    ⟨added.intact wellFormed, rfl, rfl⟩
  refine created.bind ?_
  rintro container _ - ⟨rfl, rfl⟩
  have inside : ∀ child parent, document.parent child = some parent →
      parent.index < document.size := fun _ _ isParent => parent_lt_size wellFormed isParent
  have isAdded := added_add document content
  have adds := addsTo_addEvents added inside isAdded.isNew isAdded.inStore
    (Markup.Reading.of source).events
  have read : KeepsIntact spared (modify (·.addEvents document.nextId
      (Markup.Reading.of source).events)) (document.add _) fun _ _ => True :=
    KeepsIntact.of_modify (adds.intact added) trivial
  refine read.bind ?_
  intro _ after intact _
  split
  · exact KeepsIntact.of_throw intact.wellFormed
  · refine KeepsIntact.of_get ?_
    refine (KeepsIntact.of_forM intact.wellFormed fun id _ middle intact' =>
      keepsIntact_detach intact'.wellFormed id).bind ?_
    intro _ bare intact' _
    exact KeepsIntact.of_pure intact'.wellFormed trivial

/-! ## Insertions -/

theorem keepsIntact_appendChild (wellFormed : document.WellFormed)
    (parentInStore : parent.index < document.size) (inStore : child.index < document.size)
    (spares : spared → child ≠ document.root) :
    KeepsIntact spared (appendChild parent child) document fun _ _ => True := by
  refine (keepsIntact_checkCycle wellFormed parent child).bind ?_
  rintro _ _ - ⟨rfl, outside⟩
  refine KeepsIntact.of_modify ?_ trivial
  exact (moves_place wellFormed parentInStore inStore outside _).intact spares

theorem keepsIntact_insertChild (wellFormed : document.WellFormed)
    (parentInStore : parent.index < document.size) (inStore : child.index < document.size)
    (spares : spared → child ≠ document.root) (index : Nat) :
    KeepsIntact spared (insertChild parent index child) document fun _ _ => True := by
  refine (keepsIntact_checkCycle wellFormed parent child).bind ?_
  rintro _ _ - ⟨rfl, outside⟩
  refine KeepsIntact.of_modify ?_ trivial
  exact (moves_place wellFormed parentInStore inStore outside _).intact spares

theorem keepsIntact_insertBeside (wellFormed : document.WellFormed)
    (inStore : node.index < document.size)
    (spares : spared → node ≠ document.root) (offset : Nat) (reference : NodeId) :
    KeepsIntact spared (insertBeside offset node reference) document fun _ _ => True := by
  refine (keepsIntact_parentOf wellFormed reference).bind ?_
  rintro parent _ - ⟨rfl, isParent⟩
  refine (keepsIntact_checkCycle wellFormed parent node).bind ?_
  rintro _ _ - ⟨rfl, -⟩
  refine (keepsIntact_detach wellFormed node).bind ?_
  intro _ detached intact _
  refine (keepsIntact_indexOf intact.wellFormed reference).bind ?_
  rintro index _ - rfl
  refine keepsIntact_insertChild intact.wellFormed
    (intact.inStore (parent_lt_size wellFormed isParent)) (intact.inStore inStore) ?_ _
  intro isSpared
  rw [intact.root_eq]
  exact spares isSpared

end Edit

end WordTemplate
