import WordTemplate.Proofs.Document.Sheltering
import WordTemplate.Proofs.Outcome

/-!
# Edits that spare sheltered nodes

An edit spares what is sheltered if it does so whenever it succeeds. Edits in turn spare it if each of
them does. What an edit is given has to be open to it, that is in the zone and in the store, and what
it returns is open to the edits after it.
-/

namespace WordTemplate

open Document Outcome

namespace Shelter

variable {ε : Type} {α β : Type} {shelter : Shelter} {document before middle after : Document}

/-- If the edit succeeds, it spares what is sheltered, and its value and the document after it are as
stated. -/
def Keeps (shelter : Shelter) (edit : EStateM ε Document α) (document : Document)
    (result : α → Document → Prop) : Prop :=
  shelter.Holds document → ∀ value after, edit document = .ok value after →
    shelter.Spares document after ∧ result value after

namespace Keeps

variable {edit first : EStateM ε Document α} {next : α → EStateM ε Document β}
  {between : α → Document → Prop} {result : β → Document → Prop}

theorem of_pure {value : α} {result : α → Document → Prop} (isResult : result value document) :
    shelter.Keeps (pure value : EStateM ε Document α) document result := by
  intro holds other after done
  rw [pure_eq_ok] at done
  rcases done with ⟨rfl, rfl⟩
  exact ⟨Spares.refl holds, isResult⟩

theorem of_throw {cause : ε} {result : α → Document → Prop} :
    shelter.Keeps (throw cause : EStateM ε Document α) document result := by
  intro _ value after done
  exact absurd done throw_ne_ok

theorem of_get {next : Document → EStateM ε Document β}
    (keeps : shelter.Holds document → shelter.Keeps (next document) document result) :
    shelter.Keeps (get >>= next) document result := by
  intro holds value after done
  exact keeps holds holds value after (by rwa [get_bind] at done)

theorem of_holds {result : α → Document → Prop}
    (keeps : shelter.Holds document → shelter.Keeps edit document result) :
    shelter.Keeps edit document result :=
  fun holds => keeps holds holds

theorem of_modify {change : Document → Document} {result : Unit → Document → Prop}
    (spares : shelter.Holds document → shelter.Spares document (change document))
    (isResult : result () (change document)) :
    shelter.Keeps (modify change : EStateM ε Document Unit) document result := by
  intro holds value after done
  rw [modify_eq_ok] at done
  subst done
  exact ⟨spares holds, isResult⟩

theorem bind (firstKeeps : shelter.Keeps first document between)
    (nextKeeps : ∀ value middle, shelter.Spares document middle → between value middle →
      shelter.Keeps (next value) middle result) :
    shelter.Keeps (first >>= next) document result := by
  intro holds value after done
  rw [bind_eq_ok] at done
  rcases done with ⟨found, middle, firstDone, nextDone⟩
  rcases firstKeeps holds found middle firstDone with ⟨spares, isBetween⟩
  rcases nextKeeps found middle spares isBetween spares.holds value after nextDone with
    ⟨sparesNext, isResult⟩
  exact ⟨spares.trans sparesNext, isResult⟩

theorem discard (keeps : shelter.Keeps edit document between) :
    shelter.Keeps (discard edit) document fun _ _ => True := by
  intro holds value after done
  rw [discard_eq_ok] at done
  rcases done with ⟨found, done⟩
  exact ⟨(keeps holds found after done).1, trivial⟩

/-- A loop spares what is sheltered if each of its steps does, wherever it starts. -/
theorem of_forM {items : List α} {step : α → EStateM ε Document PUnit}
    (each : ∀ item ∈ items, ∀ middle, shelter.Spares document middle →
      shelter.Keeps (step item) middle fun _ _ => True) :
    shelter.Keeps (items.forM step) document fun _ _ => True := by
  induction items generalizing document with
  | nil => exact of_pure trivial
  | cons item items inductionHypothesis =>
      refine of_holds fun holds =>
        (each item List.mem_cons_self document (Spares.refl holds)).bind ?_
      intro _ middle spares _
      exact inductionHypothesis fun other isMember later sparesLater =>
        each other (List.mem_cons_of_mem _ isMember) later (spares.trans sparesLater)

/-- An edit as a part of an extraction. -/
theorem lift {edit : Edit α} {result : α → Document → Prop}
    (keeps : shelter.Keeps edit document result) :
    shelter.Keeps (liftM edit : Extraction α) document result := by
  intro holds value after done
  exact keeps holds value after (edit_eq_ok.mp done)

end Keeps

end Shelter

namespace Edit

open Shelter

variable {shelter : Shelter} {document : Document} {id child parent node reference first last : NodeId}
  {nodes : List NodeId}

/-! ## New nodes -/

theorem keeps_create (content : Content) :
    shelter.Keeps (create content) document fun id after => shelter.Open after id := by
  intro holds id after done
  rcases create_eq_ok.mp done with ⟨rfl, rfl⟩
  have fresh := fresh_add holds.wellFormed content
  exact ⟨spares_of_adds holds fresh.toAdds, holds.fresh fresh.isNew, fresh.inStore⟩

theorem keeps_createElement (name : String) :
    shelter.Keeps (createElement name) document fun id after => shelter.Open after id :=
  keeps_create _

theorem keeps_createText (characters : String) :
    shelter.Keeps (createText characters) document fun id after => shelter.Open after id :=
  keeps_create _

theorem keeps_copyNode (id : NodeId) :
    shelter.Keeps (copyNode id) document fun copy after => shelter.Open after copy :=
  Keeps.of_get fun _ => keeps_create _

theorem keeps_plant (tree : Tree) :
    shelter.Keeps (plant tree) document fun id after => shelter.Open after id := by
  intro holds id after done
  rcases plant_eq_ok.mp done with ⟨rfl, rfl⟩
  have fresh := fresh_plant tree holds.wellFormed
  exact ⟨spares_of_adds holds fresh.toAdds, holds.fresh fresh.isNew, fresh.inStore⟩

theorem keeps_copySubtree (inStore : id.index < document.size) :
    shelter.Keeps (copySubtree id) document fun copy after =>
      shelter.Open after copy.root ∧ ∀ pair ∈ copy.pairs, shelter.Open after pair.2 := by
  intro holds copy after done
  have copied := copies_of_copySubtree holds.wellFormed inStore done
  have adds : Adds document after := ⟨copied.retains, copied.wellFormed, copied.root_eq⟩
  have isOpen : ∀ pair ∈ copy.pairs, shelter.Open after pair.2 := fun pair isPair => by
    rcases copied.le_index isPair with ⟨isNew, inStore'⟩
    exact ⟨holds.fresh isNew, inStore'⟩
  have isTop : (id, copy.root) ∈ copy.pairs := by
    rcases copied.tops with _ | ⟨isTop, -⟩
    exact isTop
  exact ⟨spares_of_adds holds adds, isOpen _ isTop, isOpen⟩

theorem keeps_readFragment (source : String) :
    shelter.Keeps (readFragment source) document fun nodes after =>
      ∀ node ∈ nodes, shelter.Open after node := by
  intro holds nodes after done
  rcases adds_of_readFragment holds.wellFormed done with ⟨adds, -, areNew⟩
  refine ⟨spares_of_adds holds adds, fun node isMember => ?_⟩
  exact ⟨holds.fresh (areNew node isMember).1, (areNew node isMember).2.1⟩

/-! ## What nodes carry -/

theorem keeps_setText (inZone : shelter.zone id) (characters : String) :
    shelter.Keeps (setText id characters) document fun _ _ => True := by
  refine Keeps.of_get fun holds => ?_
  split
  · exact Keeps.of_modify (fun _ => spares_setContent holds inZone _) trivial
  · exact Keeps.of_throw

theorem keeps_setAttribute (inZone : shelter.zone id) (key value : String) :
    shelter.Keeps (setAttribute id key value) document fun _ _ => True :=
  Keeps.of_modify (fun holds => spares_setAttribute holds inZone key value) trivial

theorem keeps_keepSpace (inZone : shelter.zone id) :
    shelter.Keeps (keepSpace id) document fun _ _ => True :=
  keeps_setAttribute inZone _ _

/-! ## Moving nodes -/

theorem keeps_detach (inZone : shelter.zone id) :
    shelter.Keeps (detach id) document fun _ _ => True :=
  Keeps.of_modify (fun holds => spares_detach_of_zone holds inZone) trivial

theorem keeps_forM_detach (inZone : ∀ id ∈ nodes, shelter.zone id) :
    shelter.Keeps (nodes.forM detach) document fun _ _ => True :=
  Keeps.of_forM fun id isMember _ _ => keeps_detach (inZone id isMember)

theorem keeps_appendChild (parentOpen : shelter.Open document parent)
    (childOpen : shelter.Open document child) :
    shelter.Keeps (appendChild parent child) document fun _ _ => True := by
  intro holds _ after done
  have moves := moves_of_appendChild holds.wellFormed parentOpen.inStore childOpen.inStore done
  exact ⟨spares_of_moves holds moves childOpen.inZone (Or.inl parentOpen.inZone), trivial⟩

theorem keeps_forM_appendChild (parentOpen : shelter.Open document parent)
    (childrenOpen : ∀ child ∈ nodes, shelter.Open document child) :
    shelter.Keeps (nodes.forM (appendChild parent)) document fun _ _ => True :=
  Keeps.of_forM fun child isMember _ spares =>
    keeps_appendChild (spares.isOpen parentOpen) (spares.isOpen (childrenOpen child isMember))

theorem keeps_insertChild (parentOpen : shelter.Open document parent)
    (childOpen : shelter.Open document child) (index : Nat) :
    shelter.Keeps (insertChild parent index child) document fun _ _ => True := by
  intro holds _ after done
  have moves := moves_of_insertChild holds.wellFormed parentOpen.inStore childOpen.inStore done
  exact ⟨spares_of_moves holds moves childOpen.inZone (Or.inl parentOpen.inZone), trivial⟩

theorem keeps_insertAfter (nodeOpen : shelter.Open document node)
    (referenceInZone : shelter.zone reference) :
    shelter.Keeps (insertAfter node reference) document fun _ _ => True := by
  intro holds _ after done
  rcases moves_of_insertAfter holds.wellFormed nodeOpen.inStore done with
    ⟨parent, left, right, isParent, -, moves⟩
  refine ⟨spares_of_moves holds moves nodeOpen.inZone ?_, trivial⟩
  refine (holds.parent isParent referenceInZone).imp_right fun isAbove => ⟨isAbove, ?_⟩
  have frames := (holds.frames isAbove).filter (· != node)
  rw [moves.others_eq, List.append_assoc] at frames
  rw [List.append_assoc]
  exact (frames.insert referenceInZone nodeOpen.inZone).1

theorem keeps_insertBefore (nodeOpen : shelter.Open document node)
    (referenceInZone : shelter.zone reference) :
    shelter.Keeps (insertBefore node reference) document fun _ _ => True := by
  intro holds _ after done
  rcases moves_of_insertBefore holds.wellFormed nodeOpen.inStore done with
    ⟨parent, left, right, isParent, -, moves⟩
  refine ⟨spares_of_moves holds moves nodeOpen.inZone ?_, trivial⟩
  refine (holds.parent isParent referenceInZone).imp_right fun isAbove => ⟨isAbove, ?_⟩
  have frames := (holds.frames isAbove).filter (· != node)
  rw [moves.others_eq] at frames
  exact (frames.insert referenceInZone nodeOpen.inZone).2

theorem keeps_forM_insertBefore (nodesOpen : ∀ node ∈ nodes, shelter.Open document node)
    (referenceInZone : shelter.zone reference) :
    shelter.Keeps (nodes.forM (insertBefore · reference)) document fun _ _ => True :=
  Keeps.of_forM fun node isMember _ spares =>
    keeps_insertBefore (spares.isOpen (nodesOpen node isMember)) referenceInZone

/-! ## Siblings -/

theorem keeps_parentOf (id : NodeId) :
    shelter.Keeps (parentOf id) document fun parent after =>
      after = document ∧ document.parent id = some parent := by
  refine Keeps.of_get fun _ => ?_
  split
  · next parent isParent => exact Keeps.of_pure ⟨rfl, isParent⟩
  · exact Keeps.of_throw

theorem keeps_indexOf (id : NodeId) :
    shelter.Keeps (indexOf id) document fun _ after => after = document := by
  refine Keeps.of_get fun _ => ?_
  split
  · exact Keeps.of_pure rfl
  · exact Keeps.of_throw

theorem keeps_siblingRange (firstInZone : shelter.zone first) (lastInZone : shelter.zone last) :
    shelter.Keeps (siblingRange first last) document fun range after =>
      ∀ id ∈ range, shelter.Open after id := by
  refine Keeps.of_get fun holds => ?_
  split
  · next range found =>
      exact Keeps.of_pure (holds.open_of_siblingRange found firstInZone lastInZone)
  · exact Keeps.of_throw

theorem keeps_removeBetween (firstInZone : shelter.zone first) (lastInZone : shelter.zone last) :
    shelter.Keeps (removeBetween first last) document fun inner after =>
      ∀ id ∈ inner, shelter.Open after id := by
  refine (keeps_siblingRange firstInZone lastInZone).bind ?_
  intro range found _ areOpen
  dsimp only
  have innerOpen : ∀ id ∈ (range.drop 1).dropLast, shelter.Open found id := fun id isMember =>
    areOpen id (List.mem_of_mem_drop (List.dropLast_subset _ isMember))
  refine (keeps_forM_detach fun id isMember => (innerOpen id isMember).inZone).bind ?_
  intro _ after spares _
  exact Keeps.of_pure fun id isMember => spares.isOpen (innerOpen id isMember)

end Edit

end WordTemplate
