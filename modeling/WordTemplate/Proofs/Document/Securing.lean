import WordTemplate.Proofs.Document.Sealing
import WordTemplate.Proofs.Filling.Working
import WordTemplate.Proofs.Lasting

/-!
# Edits around wrappers

Whether an edit succeeds or fails, the document after it is related to the one before as
`Document.Seals` says. The rules of this module chain the steps of edits, extractions and work, and
the basic edits are secure as long as what they move is loose and what they move it to is no wrapper.
-/

namespace WordTemplate

open Document

variable {ε σ α β : Type} {view : σ → Document} {base : Nat}

/-- Whether it succeeds or fails, some work on a state that holds a document is secure; if it
succeeds, its value and the state after it are as stated. -/
def Secures (view : σ → Document) (base : Nat) (work : EStateM ε σ α) (state : σ)
    (result : α → σ → Prop) : Prop :=
  match work state with
  | .ok value after => Seals base (view state) (view after) ∧ result value after
  | .error _ after => Seals base (view state) (view after)

/-- An edit or an extraction is secure. -/
abbrev Edit.Secures (base : Nat) (edit : EStateM ε Document α) (document : Document)
    (result : α → Document → Prop) : Prop :=
  WordTemplate.Secures (fun document => document) base edit document result

/-- Work on a workspace is secure. -/
abbrev Work.Secures (base : Nat) (work : Work α) (workspace : Workspace)
    (result : α → Workspace → Prop) : Prop :=
  WordTemplate.Secures Workspace.document base work workspace result

namespace Secures

variable {state : σ} {work first : EStateM ε σ α} {next : α → EStateM ε σ β}
  {between stronger : α → σ → Prop} {result : β → σ → Prop}

theorem of_pure {value : β} (isSealed : (view state).Sealed base) (holds : result value state) :
    Secures view base (pure value : EStateM ε σ β) state result :=
  ⟨Seals.refl isSealed, holds⟩

theorem of_throw {cause : ε} (isSealed : (view state).Sealed base) :
    Secures view base (throw cause : EStateM ε σ β) state result :=
  Seals.refl isSealed

theorem of_get {next : σ → EStateM ε σ β} (secures : Secures view base (next state) state result) :
    Secures view base (get >>= next) state result :=
  secures

theorem of_modify {change : σ → σ} {result : Unit → σ → Prop}
    (seals : Seals base (view state) (view (change state))) (holds : result () (change state)) :
    Secures view base (modify change : EStateM ε σ Unit) state result :=
  ⟨seals, holds⟩

/-- Secure steps are secure one after the other. -/
theorem bind (isSealed : (view state).Sealed base) (firstSecures : Secures view base first state between)
    (nextSecures : ∀ value after, first state = .ok value after →
      Seals base (view state) (view after) → between value after →
      Secures view base (next value) after result) :
    Secures view base (first >>= next) state result := by
  unfold Secures at firstSecures ⊢
  simp only [Bind.bind, EStateM.bind]
  cases done : first state with
  | error cause middle => simpa only [done] using firstSecures
  | ok value middle =>
      rw [done] at firstSecures
      have later := nextSecures value middle done firstSecures.1 firstSecures.2
      unfold Secures at later
      dsimp only
      cases done' : next value middle with
      | error cause after =>
          rw [done'] at later
          exact firstSecures.1.trans later isSealed
      | ok value after =>
          rw [done'] at later
          exact ⟨firstSecures.1.trans later.1 isSealed, later.2⟩

theorem imp (secures : Secures view base work state stronger)
    (weaken : ∀ value after, work state = .ok value after →
      Seals base (view state) (view after) → stronger value after → between value after) :
    Secures view base work state between := by
  unfold Secures at secures ⊢
  cases done : work state with
  | error cause after => simpa only [done] using secures
  | ok value after =>
      rw [done] at secures
      exact ⟨secures.1, weaken value after done secures.1 secures.2⟩

/-- The result of secure work need not be used. -/
theorem forget (secures : Secures view base work state between) :
    Secures view base work state fun _ _ => True :=
  secures.imp fun _ _ _ _ _ => trivial

theorem discard (secures : Secures view base work state between) :
    Secures view base (discard work) state fun _ _ => True := by
  change Secures view base ((fun _ => ()) <$> work) state fun _ _ => True
  unfold Secures at secures ⊢
  simp only [Functor.map, EStateM.map]
  cases done : work state with
  | error cause after => simpa only [done] using secures
  | ok value after =>
      rw [done] at secures
      exact ⟨secures.1, trivial⟩

/-- What is secure with more old nodes is secure with fewer. -/
theorem mono {base' : Nat} (secures : Secures view base' work state between) (base_le : base ≤ base')
    (root_lt : (view state).root.index < base) : Secures view base work state between := by
  unfold Secures at secures ⊢
  cases done : work state with
  | error cause after =>
      rw [done] at secures
      exact secures.mono base_le root_lt
  | ok value after =>
      rw [done] at secures
      exact ⟨secures.1.mono base_le root_lt, secures.2⟩

/-- A loop is secure if each of its steps is and keeps what the later steps rely on. -/
theorem of_forM {items : List α} {step : α → EStateM ε σ PUnit} (invariant : σ → Prop)
    (isSealed : (view state).Sealed base) (start : invariant state)
    (each : ∀ item ∈ items, ∀ middle, Seals base (view state) (view middle) → invariant middle →
      Secures view base (step item) middle fun _ after => invariant after) :
    Secures view base (items.forM step) state fun _ after => invariant after := by
  induction items generalizing state with
  | nil => exact of_pure isSealed start
  | cons item items inductionHypothesis =>
      refine bind isSealed (each item List.mem_cons_self state (Seals.refl isSealed) start) ?_
      intro _ middle _ seals kept
      exact inductionHypothesis seals.toSealed kept fun other isMember later toLater =>
        each other (List.mem_cons_of_mem _ isMember) later (seals.trans toLater isSealed)

end Secures

/-- A loop of edits is secure if each of them is and keeps what the later ones rely on. -/
theorem Edit.secures_forM {document : Document} {items : List α}
    {step : α → EStateM ε Document PUnit} (invariant : Document → Prop)
    (isSealed : document.Sealed base) (start : invariant document)
    (each : ∀ item ∈ items, ∀ middle, Seals base document middle → invariant middle →
      Edit.Secures base (step item) middle fun _ after => invariant after) :
    Edit.Secures base (items.forM step) document fun _ after => invariant after :=
  Secures.of_forM invariant isSealed start each

/-! ## Edits as parts of extractions and of work -/

section Lifting

variable {document : Document} {workspace : Workspace} {result : α → Document → Prop}

theorem Secures.of_edit {edit : Edit α} (secures : Edit.Secures base edit document result) :
    Edit.Secures base (liftM edit : Extraction α) document result := by
  change Edit.Secures base (Edit.toExtraction edit) document result
  unfold Edit.Secures WordTemplate.Secures at secures ⊢
  rw [Edit.toExtraction]
  cases done : edit document <;> simpa only [done] using secures

theorem Secures.of_extraction {extraction : Extraction α}
    (secures : Edit.Secures base extraction workspace.document result) :
    Work.Secures base (liftM extraction : Work α) workspace fun value after =>
      result value after.document := by
  change Work.Secures base (Extraction.toWork extraction) workspace _
  unfold Edit.Secures Work.Secures WordTemplate.Secures at *
  simp only [Extraction.toWork]
  cases done : extraction workspace.document <;> simpa only [done] using secures

theorem Secures.of_edit_work {edit : Edit α}
    (secures : Edit.Secures base edit workspace.document result) :
    Work.Secures base (liftM edit : Work α) workspace fun value after =>
      result value after.document :=
  Secures.of_extraction secures.of_edit

end Lifting

/-! ## Work that leaves the document alone -/

namespace Secures

variable {workspace : Workspace} {work : Work α}

/-- Work that does not touch the document, whether it succeeds or fails. -/
theorem of_untouched {result : α → Workspace → Prop} (isSealed : workspace.document.Sealed base)
    (ends : Ends (fun after => after.document = workspace.document) (work workspace))
    (holds : ∀ value after, work workspace = .ok value after →
      after.document = workspace.document → result value after) :
    Work.Secures base work workspace result := by
  unfold Work.Secures WordTemplate.Secures
  cases done : work workspace with
  | error cause after =>
      rw [done] at ends
      cases ends with
      | error same =>
          dsimp only
          rw [same]
          exact Seals.refl isSealed
  | ok value after =>
      rw [done] at ends
      cases ends with
      | ok same =>
          refine ⟨?_, holds value after done same⟩
          rw [same]
          exact Seals.refl isSealed

theorem of_note (isSealed : workspace.document.Sealed base) (level : Level) (text : String) :
    Work.Secures base (Work.note level text) workspace fun _ after =>
      after.document = workspace.document :=
  ⟨Seals.refl isSealed, rfl⟩

/-- A value is given back after a note. -/
theorem of_note_pure {value : α} {result : α → Workspace → Prop}
    (isSealed : workspace.document.Sealed base) (level : Level) (text : String)
    (holds : ∀ after, result value after) :
    Work.Secures base (do Work.note level text; return value) workspace result := by
  refine Secures.bind isSealed (of_note isSealed level text) ?_
  intro _ noted _ toNoted _
  exact of_pure toNoted.toSealed (holds noted)

theorem of_noteAll (isSealed : workspace.document.Sealed base) (notes : List Note) :
    Work.Secures base (Work.noteAll notes) workspace fun _ after =>
      after.document = workspace.document := by
  refine Secures.of_forM (fun after => after.document = workspace.document) isSealed rfl ?_
  intro entry _ middle seals same
  exact (of_note seals.toSealed entry.level entry.text).imp fun _ _ _ _ same' => same'.trans same

theorem of_boundValue? (isSealed : workspace.document.Sealed base) (context : Context) :
    Work.Secures base context.boundValue? workspace fun value after =>
      value = context.valueAt workspace.path ∧ after = workspace :=
  ⟨Seals.refl isSealed, rfl, rfl⟩

/-- Work with one more step on the scope path. -/
theorem withPart {part : PathPart} {result : α → Prop}
    (secures : Work.Secures base work { workspace with path := workspace.path.enter part }
      fun value _ => result value) :
    Work.Secures base (Work.withPart part work) workspace fun value _ => result value := by
  unfold Work.Secures WordTemplate.Secures at secures ⊢
  rw [Work.withPart]
  cases done : work { workspace with path := workspace.path.enter part } <;>
    simpa only [done] using secures

end Secures

/-- Markup that spells no wrapper. -/
def Markup.SpellsNoWrapper (source : String) : Prop :=
  ∀ event ∈ (Markup.Reading.of source).events, ∀ element, event.element? = some element →
    element.name ≠ Edit.wrapperName

/-! ## Basic edits -/

namespace Edit

variable {document : Document} {id parent child node reference : NodeId} {index : Nat}
  {children : List NodeId}

theorem secures_create (isSealed : document.Sealed base) {content : Content}
    (plain : ∀ element, content.element? = some element → element.name ≠ wrapperName) :
    Secures base (create content) document fun id after => Introduced base document after id := by
  have adds := (Adds.refl isSealed.wellFormed).add content
  have areNoWrappers := (eachSince_size document).add plain
  exact ⟨adds.seals isSealed areNoWrappers, isSealed.recent_of_added areNoWrappers (Nat.le_refl _)
    (nextId_lt_size_add document content), Nat.le_refl _, fun _ => adds.parent_eq⟩

theorem secures_createElement (isSealed : document.Sealed base) {name : String}
    (differ : name ≠ wrapperName) :
    Secures base (createElement name) document fun id after => Introduced base document after id :=
  secures_create isSealed (by rintro _ ⟨⟩; exact differ)

theorem secures_createText (isSealed : document.Sealed base) (characters : String) :
    Secures base (createText characters) document fun id after => Introduced base document after id :=
  secures_create isSealed (by rintro _ ⟨⟩)

/-- A copy of an ordinary node is ordinary. -/
theorem secures_copyNode (isSealed : document.Sealed base) (ordinary : document.Ordinary id) :
    Secures base (copyNode id) document fun copy after => Introduced base document after copy := by
  refine secures_create isSealed fun element isElement => ?_
  have notWrapper := ordinary.notWrapper
  simpa [isWrapper, isNamed, name?, element?, isElement] using notWrapper

theorem secures_setText (isSealed : document.Sealed base) (id : NodeId) (characters : String) :
    Secures base (setText id characters) document fun _ after =>
      ∀ other, after.parent other = document.parent other := by
  refine Secures.of_get ?_
  split
  · next isText =>
      exact Secures.of_modify (seals_setText isSealed isText characters)
        fun other => parent_setContent _ _ _ other
  · exact Secures.of_throw isSealed

theorem secures_setAttribute (isSealed : document.Sealed base) (id : NodeId) (key value : String) :
    Secures base (setAttribute id key value) document fun _ after =>
      ∀ other, after.parent other = document.parent other :=
  Secures.of_modify (seals_setAttribute isSealed id key value)
    fun other => parent_setAttribute _ _ _ _ other

theorem secures_detach (isSealed : document.Sealed base) (id : NodeId) :
    Secures base (detach id) document fun _ after =>
      ∀ other, after.parent other = if other = id then none else document.parent other :=
  Secures.of_modify (seals_detach isSealed id) (parent_detach isSealed.wellFormed id)

theorem secures_detachAll (isSealed : document.Sealed base) (ids : List NodeId) :
    Secures base (ids.forM detach) document fun _ _ => True :=
  secures_forM (fun _ => True) isSealed trivial fun id _ _ seals _ =>
    (secures_detach seals.toSealed id).forget

theorem secures_parentOf (isSealed : document.Sealed base) (id : NodeId) :
    Secures base (parentOf id) document fun parent after =>
      document = after ∧ document.parent id = some parent := by
  refine Secures.of_get ?_
  split
  · next parent isParent => exact Secures.of_pure isSealed ⟨rfl, isParent⟩
  · exact Secures.of_throw isSealed

theorem secures_indexOf (isSealed : document.Sealed base) (id : NodeId) :
    Secures base (indexOf id) document fun _ after => document = after := by
  refine Secures.of_get ?_
  split
  · exact Secures.of_pure isSealed rfl
  · exact Secures.of_throw isSealed

theorem secures_checkCycle (isSealed : document.Sealed base) (parent node : NodeId) :
    Secures base (checkCycle parent node) document fun _ after =>
      document = after ∧ ¬document.LiesIn node parent := by
  refine Secures.of_get ?_
  split
  · exact Secures.of_throw isSealed
  · next notInside =>
      rw [Document.contains_iff isSealed.wellFormed] at notInside
      exact Secures.of_pure isSealed ⟨rfl, notInside⟩

/-- The nodes of a range have a common parent. -/
theorem secures_siblingRange (isSealed : document.Sealed base) (first last : NodeId) :
    Secures base (siblingRange first last) document fun range after => document = after ∧
      ∃ parent, document.parent first = some parent ∧
        ∀ id ∈ range, document.parent id = some parent := by
  refine Secures.of_get ?_
  split
  · next range found =>
      rcases stretch_of_siblingRange found with ⟨parent, before, behind, stretch⟩
      exact Secures.of_pure isSealed ⟨rfl, parent, stretch.isParent,
        fun id isMember => stretch.parent_eq isSealed.wellFormed isMember⟩
  · exact Secures.of_throw isSealed

theorem secures_removeBetween (isSealed : document.Sealed base) (first last : NodeId) :
    Secures base (removeBetween first last) document fun nodes after =>
      ∀ node ∈ nodes, after.Ordinary node := by
  refine Secures.bind isSealed (secures_siblingRange isSealed first last) ?_
  rintro range _ - - ⟨rfl, parent, -, areSiblings⟩
  refine Secures.bind isSealed (secures_detachAll isSealed _) ?_
  intro _ after _ seals _
  refine Secures.of_pure seals.toSealed fun node isNode => seals.ordinary ?_
  exact isSealed.ordinary_of_parent
    (areSiblings node (List.mem_of_mem_drop (List.dropLast_subset _ isNode)))

/-! ## Insertions -/

theorem secures_appendChild (isSealed : document.Sealed base) (hosts : document.Ordinary parent)
    (ordinary : document.Ordinary child) (loose : document.Loose base child) :
    Secures base (appendChild parent child) document fun _ after =>
      ∀ id, after.parent id = if id = child then some parent else document.parent id := by
  refine Secures.bind isSealed (secures_checkCycle isSealed parent child) ?_
  rintro _ _ - - ⟨rfl, outside⟩
  have moves := moves_place isSealed.wellFormed hosts.inStore ordinary.inStore outside
    (((document.detach child).children parent).length)
  exact Secures.of_modify (moves.seals isSealed ordinary loose (Or.inl hosts.notWrapper)) moves.parent_eq

theorem secures_insertChild (isSealed : document.Sealed base) (hosts : document.Ordinary parent)
    (ordinary : document.Ordinary child) (loose : document.Loose base child) (index : Nat) :
    Secures base (insertChild parent index child) document fun _ after =>
      ∀ id, after.parent id = if id = child then some parent else document.parent id := by
  refine Secures.bind isSealed (secures_checkCycle isSealed parent child) ?_
  rintro _ _ - - ⟨rfl, outside⟩
  have moves := moves_place isSealed.wellFormed hosts.inStore ordinary.inStore outside index
  exact Secures.of_modify (moves.seals isSealed ordinary loose (Or.inl hosts.notWrapper)) moves.parent_eq

/-- A loose node may move beside another node below an ordinary one, and a new node beside any. -/
theorem secures_insertBeside (isSealed : document.Sealed base) (ordinary : document.Ordinary node)
    (loose : document.Loose base node)
    (hosts : base ≤ node.index ∨
      ∀ parent, document.parent reference = some parent → document.isWrapper parent = false)
    (offset : Nat) :
    Secures base (insertBeside offset node reference) document fun _ after =>
      ∀ id, id ≠ node → after.parent id = document.parent id := by
  unfold Secures WordTemplate.Secures
  cases done : insertBeside offset node reference document with
  | error cause after =>
      rcases insertBeside_failed done with rfl | rfl
      · exact Seals.refl isSealed
      · exact seals_detach isSealed node
  | ok value after =>
      rcases (insertBeside_eq_ok isSealed.wellFormed).mp done with
        ⟨parent, isParent, -, outside, rfl⟩
      have moves := moves_place isSealed.wellFormed (parent_lt_size isSealed.wellFormed isParent)
        ordinary.inStore outside
        (((document.children parent).filter (· != node)).idxOf reference + offset)
      refine ⟨moves.seals isSealed ordinary loose ?_, fun id differ => ?_⟩
      · rcases hosts with isNew | hosts
        · exact Or.inr ⟨isNew, reference, isParent⟩
        · exact Or.inl (hosts parent isParent)
      · rw [moves.parent_eq, if_neg differ]

theorem secures_insertRecent (isSealed : document.Sealed base) (recent : document.Recent base node)
    (offset : Nat) (reference : NodeId) :
    Secures base (insertBeside offset node reference) document fun _ after =>
      ∀ id, id ≠ node → after.parent id = document.parent id :=
  secures_insertBeside isSealed recent.toOrdinary recent.loose (Or.inl recent.isNew) offset

/-- Loose nodes may be gathered below an ordinary one. -/
theorem secures_forM_appendChild (isSealed : document.Sealed base) (hosts : document.Ordinary parent)
    (ordinary : ∀ child ∈ children, document.Ordinary child)
    (loose : ∀ child ∈ children, document.Loose base child) :
    Secures base (children.forM (appendChild parent)) document fun _ after =>
      ∀ id, id ∉ children → after.parent id = document.parent id := by
  refine (secures_forM (fun after => (∀ child ∈ children, after.Loose base child) ∧
    ∀ id, id ∉ children → after.parent id = document.parent id) isSealed ⟨loose, fun _ _ => rfl⟩
    ?_).imp fun _ _ _ _ kept => kept.2
  rintro child isChild middle toMiddle ⟨stillLoose, kept⟩
  have hosts' := toMiddle.ordinary hosts
  refine (secures_appendChild toMiddle.toSealed hosts' (toMiddle.ordinary (ordinary child isChild))
    (stillLoose child isChild)).imp ?_
  intro _ after _ seals parent_eq
  refine ⟨fun other isOther => ?_, fun id isOutside => ?_⟩
  · by_cases same : other = child
    · exact Loose.of_ordinary_parent (by rw [parent_eq, if_pos same]) (seals.ordinary hosts')
    · exact seals.loose toMiddle.wellFormed (stillLoose other isOther)
        (by rw [parent_eq, if_neg same])
  · have differ : id ≠ child := by
      rintro rfl
      exact isOutside isChild
    rw [parent_eq, if_neg differ, kept id isOutside]

/-! ## Copies -/

/-- What is copied below an ordinary node is ordinary. -/
theorem plain_of_copies {roots ids : List NodeId} {pairs : List (NodeId × NodeId)}
    {before after : Document} (isSealed : before.Sealed base)
    (copied : Copies before before after none ids roots pairs)
    (ordinary : ∀ id ∈ ids, before.Ordinary id) :
    after.EachSince before.size (·.name ≠ wrapperName) := by
  intro id isNew element isElement
  have inStore : id.index < after.size :=
    lt_size_of_name? (by rw [name?, isElement, Option.map_some])
  have isCopy : id ∈ pairs.map Prod.snd := by
    rw [copied.copies, List.mem_map]
    refine ⟨id.index, List.mem_range'_1.mpr ⟨isNew, ?_⟩, rfl⟩
    rwa [copied.size_eq] at inStore
  rcases List.mem_map.mp isCopy with ⟨⟨original, _⟩, isPair, rfl⟩
  have isOriginal : original ∈ ids.flatMap before.subtree := by
    rw [← copied.sources]
    exact List.mem_map_of_mem isPair
  rcases List.mem_flatMap.mp isOriginal with ⟨top, isTop, below⟩
  have notWrapper : before.isWrapper original = false := by
    rcases ((mem_subtree_iff isSealed.wellFormed).mp below).cases_parent with
      rfl | ⟨parent, isParent, -⟩
    · exact (ordinary original isTop).notWrapper
    · exact isSealed.child_ordinary original parent isParent
  rw [isWrapper, ← isNamed_of_content_eq (copied.content_eq _ isPair), isNamed, name?,
    isElement] at notWrapper
  simpa using notWrapper

/-- The copy of a text node is one. -/
theorem holdsText_of_copies {roots ids : List NodeId} {pairs : List (NodeId × NodeId)}
    {before after : Document} {pair : NodeId × NodeId}
    (copied : Copies before before after none ids roots pairs) (isPair : pair ∈ pairs)
    (holdsText : before.HoldsText pair.1) : after.HoldsText pair.2 where
  inStore := (copied.le_index isPair).2
  isText := by
    rw [Document.isText, copied.text_eq isPair]
    exact holdsText.isText

theorem secures_copySubtree (isSealed : document.Sealed base) (ordinary : document.Ordinary id) :
    Secures base (copySubtree id) document fun copy after => Introduced base document after copy.root ∧
      ∀ pair ∈ copy.pairs, document.HoldsText pair.1 → after.HoldsText pair.2 := by
  have copied := copies_copySubtree isSealed.wellFormed ordinary.inStore
  have plain := plain_of_copies isSealed copied (by simpa using ordinary)
  have adds : Adds document (document.copySubtree id).1 :=
    ⟨copied.retains, copied.wellFormed, copied.root_eq⟩
  have isPair : (id, (document.copySubtree id).2.root) ∈ (document.copySubtree id).2.pairs := by
    simpa using copied.tops
  rcases copied.le_index isPair with ⟨isNew, inStore⟩
  exact ⟨adds.seals isSealed plain, ⟨isSealed.recent_of_added plain isNew inStore, isNew,
    fun _ => adds.parent_eq⟩, fun pair isPair => holdsText_of_copies copied isPair⟩

/-! ## Trees and markup -/

/-- A tree without a wrapper is planted. -/
theorem secures_plant (isSealed : document.Sealed base) {tree : Tree}
    (plain : tree.EachElement (·.name ≠ wrapperName)) :
    Secures base (plant tree) document fun id after => Introduced base document after id := by
  have fresh := fresh_plant tree isSealed.wellFormed
  have areNoWrappers := (eachSince_size document).plant plain
  exact ⟨fresh.toAdds.seals isSealed areNoWrappers,
    isSealed.recent_of_added areNoWrappers fresh.isNew fresh.inStore, fresh.isNew,
    fun _ => fresh.toAdds.parent_eq⟩

/-- The elements of markup below a container of their own. -/
def readBelow (source : String) : Edit NodeId := do
  let container ← createElement containerName
  modify (·.addEvents container (Markup.Reading.of source).events)
  return container

theorem readFragment_eq (source : String) :
    readFragment source = do
      let container ← readBelow source
      match (Markup.Reading.of source).failure with
      | some cause => throw (.unreadable cause)
      | none =>
          let nodes := (← get).children container
          nodes.forM detach
          return nodes := rfl

/-- Markup without a wrapper is read into new nodes. -/
theorem secures_readFragment (isSealed : document.Sealed base) {source : String}
    (plain : Markup.SpellsNoWrapper source) :
    Secures base (readFragment source) document fun nodes after =>
      ∀ node ∈ nodes, after.Recent base node := by
  have container_lt := nextId_lt_size_add document (.element { name := containerName })
  have inside : ∀ child parent, document.parent child = some parent →
      parent.index < document.size := fun _ _ => parent_lt_size isSealed.wellFormed
  have adds : AddsTo document _ ((document.add (.element { name := containerName })).addEvents
      document.nextId (Markup.Reading.of source).events) :=
    addsTo_addEvents ((Adds.refl isSealed.wellFormed).add _) inside (Nat.le_refl _) container_lt _
  have areNoWrappers : (document.add (.element { name := containerName })).EachSince document.size
      (·.name ≠ wrapperName) := (eachSince_size document).add (by rintro _ ⟨⟩; decide)
  have areNoWrappers' := areNoWrappers.addEvents plain document.nextId
  have read : Secures base (readBelow source) document fun container after =>
      document.size ≤ container.index ∧ document.Adds after ∧
        after.EachSince document.size (·.name ≠ wrapperName) :=
    ⟨adds.toAdds.seals isSealed areNoWrappers', Nat.le_refl _, adds.toAdds, areNoWrappers'⟩
  rw [readFragment_eq]
  refine Secures.bind isSealed read ?_
  rintro container middle - seals ⟨isNew, adds, areNoWrappers⟩
  split
  · exact Secures.of_throw seals.toSealed
  · refine Secures.of_get (Secures.bind seals.toSealed (secures_detachAll seals.toSealed _) ?_)
    intro _ after _ dropped _
    refine Secures.of_pure dropped.toSealed fun node isNode => dropped.recent ?_
    have isParent := (seals.wellFormed.mem_children_iff _ _).mp isNode
    exact isSealed.recent_of_added areNoWrappers (adds.isNew_of_parent inside isParent isNew)
      (lt_size_of_parent isParent)

end Edit

end WordTemplate
