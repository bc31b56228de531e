import WordTemplate.Container.Repetition
import WordTemplate.Proofs.Document.Copying
import WordTemplate.Proofs.Document.Local
import WordTemplate.Proofs.Document.Reached
import WordTemplate.Proofs.Word.Properties

/-!
# Copies of a region

The copies of a region are new detached nodes. What is done to one of them below its wrapper leaves
the others and everything older as they are, so the copies can be dealt with one by one.
-/

namespace WordTemplate

namespace Document

variable {zone : NodeId → Prop} {rights : Rights} {document source before middle after : Document}
  {id other node holder : NodeId} {nodes roots : List NodeId} {pairs : List (NodeId × NodeId)}

theorem eq_of_mem_pairs {key value value' : NodeId} (nodup : (pairs.map Prod.fst).Nodup)
    (isPair : (key, value) ∈ pairs) (isPair' : (key, value') ∈ pairs) : value = value' := by
  have same := List.inj_on_of_nodup_map nodup isPair isPair' rfl
  rw [Prod.mk.injEq] at same
  exact same.2

theorem lookup_of_mem_pairs (nodup : (pairs.map Prod.fst).Nodup) (isPair : (id, other) ∈ pairs) :
    pairs.lookup id = some other := by
  induction pairs with
  | nil => simp at isPair
  | cons pair pairs inductionHypothesis =>
      rcases pair with ⟨key, value⟩
      rw [List.map_cons, List.nodup_cons] at nodup
      rcases List.mem_cons.mp isPair with same | isLater
      · rcases same
        simp
      · have differ : id ≠ key := by
          rintro rfl
          exact nodup.1 (List.mem_map.mpr ⟨_, isLater, rfl⟩)
        rw [List.lookup_cons, beq_false_of_ne differ]
        exact inductionHypothesis nodup.2 isLater

theorem nodup_of_forall₂ {related : NodeId → NodeId → Prop} {ids copies : List NodeId}
    (matched : List.Forall₂ related ids copies) (nodup : ids.Nodup)
    (injective : ∀ id id' copy, related id copy → related id' copy → id = id') : copies.Nodup := by
  induction matched with
  | nil => exact List.nodup_nil
  | @cons id copy ids copies first rest inductionHypothesis =>
      rw [List.nodup_cons] at nodup ⊢
      refine ⟨fun isMember => ?_, inductionHypothesis nodup.2⟩
      rcases exists_of_forall₂ rest isMember with ⟨id', isId', found⟩
      exact nodup.1 (injective id id' copy first found ▸ isId')

theorem nodup_of_flatMap_nodup {ids : List NodeId} {parts : NodeId → List NodeId}
    (nodup : (ids.flatMap parts).Nodup) (nonempty : ∀ id, ∃ part, part ∈ parts id) : ids.Nodup := by
  rw [List.nodup_flatMap] at nodup
  refine nodup.2.imp fun {id id'} disjoint => ?_
  rintro rfl
  rcases nonempty id with ⟨part, isPart⟩
  exact disjoint isPart isPart

/-- The parent of a copy is a copy of a parent. -/
theorem Copies.exists_parent (copied : Copies source before after none nodes roots pairs)
    (wellFormed : before.WellFormed) (sourceFormed : source.WellFormed)
    (isPair : (id, other) ∈ pairs) (isHolder : after.parent other = some holder) :
    ∃ original, (original, holder) ∈ pairs ∧ source.parent id = some original := by
  have isChild := (copied.wellFormed.mem_children_iff _ _).mpr isHolder
  have holder_lt := parent_lt_size copied.wellFormed isHolder
  have isNew : before.size ≤ holder.index := by
    by_contra isOld
    have isOld := Nat.lt_of_not_le isOld
    rw [copied.retains.children_eq isOld] at isChild
    exact absurd (lt_size_of_mem_children wellFormed isChild)
      (Nat.not_lt_of_le (copied.le_index isPair).1)
  have isCopy : holder ∈ pairs.map Prod.snd := by
    rw [copied.copies, List.mem_map]
    refine ⟨holder.index, List.mem_range'_1.mpr ⟨isNew, ?_⟩, rfl⟩
    rw [copied.size_eq] at holder_lt
    exact holder_lt
  rcases List.mem_map.mp isCopy with ⟨⟨original, _⟩, isOriginal, rfl⟩
  rcases exists_of_forall₂ (copied.children_eq _ isOriginal) isChild with ⟨child, isChild, found⟩
  have same := List.inj_on_of_nodup_map copied.nodup_copies found isPair rfl
  rw [Prod.mk.injEq] at same
  exact ⟨original, isOriginal, (sourceFormed.mem_children_iff _ _).mp (same.1 ▸ isChild)⟩

/-- Copies of text nodes that are alone in their text elements are alone in theirs. -/
theorem Copies.solitary (copied : Copies source before after none nodes roots pairs)
    (wellFormed : before.WellFormed) (sourceFormed : source.WellFormed)
    (keys : (pairs.map Prod.fst).Nodup) (isPair : (id, other) ∈ pairs)
    (solitary : source.Solitary id) : after.Solitary other := by
  have isText : after.isText other = true := by
    rw [isText, copied.text_eq isPair]
    exact solitary.1
  refine (solitary_iff isText).mpr fun holder isHolder named => ?_
  rcases copied.exists_parent wellFormed sourceFormed isPair isHolder with
    ⟨original, isOriginal, isParent⟩
  have named' : source.isNamed original Word.Name.text = true := by
    rwa [isNamed, ← copied.name_eq isOriginal]
  have texts := copied.runningTexts sourceFormed isOriginal
  rw [(solitary_iff solitary.1).mp solitary original isParent named'] at texts
  rcases List.forall₂_cons_left_iff.mp texts with ⟨found, rest, isFound, nothing, whole⟩
  rw [List.forall₂_nil_left_iff] at nothing
  rw [whole, nothing, eq_of_mem_pairs keys isFound isPair]

/-- `copy` is a copy of `nodes` as they are in `source`, and its topmost nodes are detached in
`document`. -/
structure Copied (source document : Document) (nodes : List NodeId) (copy : RegionCopy) : Prop where
  nodup : copy.roots.Nodup
  detached : ∀ root ∈ copy.roots, document.parent root = none
  isNew : ∀ root ∈ copy.roots, source.size ≤ root.index
  inStore : ∀ root ∈ copy.roots, root.index < document.size
  keys : (copy.pairs.map Prod.fst).Nodup
  texts : List.Forall₂ (fun id other => (id, other) ∈ copy.pairs)
    (nodes.flatMap source.runningTexts) (copy.roots.flatMap document.runningTexts)
  solitary : ∀ id other, (id, other) ∈ copy.pairs →
    other ∈ copy.roots.flatMap document.runningTexts → source.Solitary id →
    document.Solitary other
  text_eq : ∀ id other, (id, other) ∈ copy.pairs →
    other ∈ copy.roots.flatMap document.runningTexts → document.text? other = source.text? id

/-- A copy of nodes with different subtrees. -/
theorem Copies.copied (copied : Copies source before after none nodes roots pairs)
    (wellFormed : before.WellFormed) (sourceFormed : source.WellFormed)
    (retains : Retains source before) (nodup : (nodes.flatMap source.subtree).Nodup) :
    Copied source after nodes ⟨roots, pairs⟩ where
  nodup := by
    refine nodup_of_forall₂ copied.tops ?_ fun id id' root isPair isPair' => ?_
    · exact nodup_of_flatMap_nodup nodup fun id => ⟨id, mem_subtree_self source id⟩
    · have same := List.inj_on_of_nodup_map copied.nodup_copies isPair isPair' rfl
      rw [Prod.mk.injEq] at same
      exact same.1
  detached root isRoot := copied.parent_eq root isRoot
  isNew root isRoot := by
    rcases exists_of_forall₂ copied.tops isRoot with ⟨id, -, isPair⟩
    exact Nat.le_trans retains.size_le (copied.le_index isPair).1
  inStore root isRoot := by
    rcases exists_of_forall₂ copied.tops isRoot with ⟨id, -, isPair⟩
    exact (copied.le_index isPair).2
  keys := copied.nodup_sources nodup
  texts := copied.runningTexts_roots sourceFormed
  solitary id other isPair _ solitary :=
    copied.solitary wellFormed sourceFormed (copied.nodup_sources nodup) isPair solitary
  text_eq id other isPair _ := copied.text_eq isPair

/-- A copy stays as it is while something else changes. -/
theorem Copied.of_changes {copy : RegionCopy} (copied : Copied source document nodes copy)
    (changes : ChangesWithin zone rights document after) (wellFormed : document.WellFormed)
    (closed : document.Closed zone rights)
    (outside : ∀ root ∈ copy.roots, ∀ id, document.LiesIn root id → ¬zone id) :
    Copied source after nodes copy := by
  have sameTexts : copy.roots.flatMap after.runningTexts =
      copy.roots.flatMap document.runningTexts :=
    List.flatMap_congr fun root isRoot =>
      changes.runningTexts_eq_of_outside wellFormed (outside root isRoot)
  refine {
    nodup := copied.nodup
    detached := fun root isRoot => ?_
    isNew := copied.isNew
    inStore := fun root isRoot => Nat.lt_of_lt_of_le (copied.inStore root isRoot) changes.size_le
    keys := copied.keys
    texts := sameTexts ▸ copied.texts
    solitary := fun id other isPair isText solitary => ?_
    text_eq := fun id other isPair isText => ?_ }
  · rw [changes.parent_eq wellFormed closed (outside root isRoot root LiesIn.refl),
      copied.detached root isRoot]
  · rw [sameTexts] at isText
    rcases List.mem_flatMap.mp isText with ⟨root, isRoot, running⟩
    exact changes.solitary_of_outside wellFormed closed (copied.detached root isRoot)
      (outside root isRoot) (liesIn_of_mem_runningTexts wellFormed running)
      (copied.solitary id other isPair isText solitary)
  · rw [sameTexts] at isText
    rcases List.mem_flatMap.mp isText with ⟨root, isRoot, running⟩
    rw [← copied.text_eq id other isPair isText, text?, text?,
      changes.content_eq (outside root isRoot other (liesIn_of_mem_runningTexts wellFormed running))]

/-- The rights to do anything with the nodes from an address on. -/
def newRights (base : Nat) : Rights where
  writes id := base ≤ id.index
  places id := base ≤ id.index

/-- What is below the topmost nodes of a copy and what is still to be added. -/
def BelowRoots (document : Document) (roots : List NodeId) (id : NodeId) : Prop :=
  (∃ root ∈ roots, document.LiesIn root id) ∨ document.size ≤ id.index

theorem closed_belowRoots (wellFormed : document.WellFormed)
    (freshPlaces : ∀ id, document.size ≤ id.index → rights.places id) (roots : List NodeId) :
    document.Closed (document.BelowRoots roots) rights where
  child := by
    rintro child parent isParent (⟨root, isRoot, inside⟩ | beyond)
    · exact Or.inl ⟨root, isRoot, LiesIn.of_parent isParent inside⟩
    · exact absurd (parent_lt_size wellFormed isParent) (Nat.not_lt_of_le beyond)
  fresh := Or.inr
  freshPlaces := freshPlaces _

end Document

namespace RegionCopy

/-- The copy of a copied node. -/
def image (copy : RegionCopy) (id : NodeId) : NodeId := (copy.pairs.lookup id).getD id

/-- A tag that follows its text node into a copy. -/
def carried (copy : RegionCopy) (tag : Tag) : Tag := tag.relocated (copy.image tag.textNode)

end RegionCopy

namespace Document.Copied

variable {source document : Document} {nodes : List NodeId} {copy : RegionCopy} {inner : List Tag}
  (copied : Copied source document nodes copy)
include copied

theorem lookup_eq {id : NodeId} (isText : id ∈ nodes.flatMap source.runningTexts) :
    copy.pairs.lookup id = some (copy.image id) ∧ (id, copy.image id) ∈ copy.pairs := by
  have isPair : ∃ other, (id, other) ∈ copy.pairs := by
    rcases exists_of_forall₂ (List.Forall₂.flip copied.texts) isText with ⟨other, -, isPair⟩
    exact ⟨other, isPair⟩
  rcases isPair with ⟨other, isPair⟩
  have found := lookup_of_mem_pairs copied.keys isPair
  rw [RegionCopy.image, found]
  exact ⟨rfl, isPair⟩

/-- The running text of a copy is the image of the running text. -/
theorem texts_eq :
    copy.roots.flatMap document.runningTexts =
      (nodes.flatMap source.runningTexts).map copy.image := by
  have images : List.Forall₂ (fun id other => copy.image id = other)
      (nodes.flatMap source.runningTexts) (copy.roots.flatMap document.runningTexts) := by
    refine copied.texts.imp fun {id other} isPair => ?_
    rw [RegionCopy.image, lookup_of_mem_pairs copied.keys isPair, Option.getD_some]
  rw [← List.forall₂_map_left_iff] at images
  exact (List.forall₂_eq_eq_eq ▸ images).symm

/-- Every tag in the copied running text follows it into the copy, in the same order. -/
theorem tags_eq (within : ∀ tag ∈ inner, tag.textNode ∈ nodes.flatMap source.runningTexts) :
    copy.tags inner = inner.map copy.carried := by
  induction inner with
  | nil => rfl
  | cons tag inner inductionHypothesis =>
      have rest := inductionHypothesis fun other isOther =>
        within other (List.mem_cons_of_mem _ isOther)
      rw [RegionCopy.tags] at rest ⊢
      rw [List.filterMap_cons, (copied.lookup_eq (within tag List.mem_cons_self)).1, rest]
      rfl

end Document.Copied

namespace Edit

open Outcome Document

variable {source before after : Document} {nodes : List NodeId} {copy : RegionCopy} {times : Nat}
  {copies : List RegionCopy}

theorem copies_of_copyRegion (sourceFormed : source.WellFormed) (wellFormed : before.WellFormed)
    (retains : Retains source before) (inStore : ∀ node ∈ nodes, node.index < source.size)
    (done : copyRegion nodes before = .ok copy after) :
    Copies source before after none nodes copy.roots copy.pairs := by
  induction nodes generalizing before copy with
  | nil =>
      simp only [copyRegion, pure_eq_ok] at done
      rcases done with ⟨rfl, rfl⟩
      exact copies_nil wellFormed none
  | cons node nodes inductionHypothesis =>
      simp only [copyRegion, bind_eq_ok, copySubtree_eq_ok, pure_eq_ok] at done
      rcases done with ⟨_, middle, ⟨middleIs, rfl⟩, others, _, done, rfl, rfl⟩
      have height : source.HeightLe before.size node :=
        heightLe_of_size_le sourceFormed (Nat.le_trans retains.size_le (Nat.le_add_right _ _))
      have first := copies_copyWithin sourceFormed (inStore node List.mem_cons_self) height
        wellFormed retains
      subst middleIs
      have others := inductionHypothesis first.wellFormed (retains.trans first.retains)
        (fun other isOther => inStore other (List.mem_cons_of_mem _ isOther)) done
      exact first.append (by simp) others

/-- A region is copied a number of times. -/
structure Repeated (source before after : Document) (nodes : List NodeId)
    (copies : List RegionCopy) : Prop where
  wellFormed : after.WellFormed
  retains : Retains before after
  root_eq : after.root = before.root
  copied : ∀ copy ∈ copies, Copied source after nodes copy
  isNew : ∀ copy ∈ copies, ∀ root ∈ copy.roots, before.size ≤ root.index
  nodup : (copies.flatMap RegionCopy.roots).Nodup

theorem repeated_of_repeatRegion (sourceFormed : source.WellFormed)
    (wellFormed : before.WellFormed) (retains : Retains source before)
    (inStore : ∀ node ∈ nodes, node.index < source.size)
    (nodup : (nodes.flatMap source.subtree).Nodup)
    (done : repeatRegion nodes times before = .ok copies after) :
    copies.length = times ∧ Repeated source before after nodes copies := by
  induction times generalizing before copies with
  | zero =>
      simp only [repeatRegion, pure_eq_ok] at done
      rcases done with ⟨rfl, rfl⟩
      exact ⟨rfl, wellFormed, Retains.refl before, rfl, by simp, by simp, by simp⟩
  | succ times inductionHypothesis =>
      simp only [repeatRegion, bind_eq_ok, pure_eq_ok] at done
      rcases done with ⟨copy, middle, copyDone, others, _, done, rfl, rfl⟩
      have first := copies_of_copyRegion sourceFormed wellFormed retains inStore copyDone
      rcases inductionHypothesis first.wellFormed (retains.trans first.retains) done with
        ⟨length_eq, repeated⟩
      have firstCopied := first.copied wellFormed sourceFormed retains nodup
      have rootBounds : ∀ root ∈ copy.roots, before.size ≤ root.index ∧ root.index < middle.size := by
        intro root isRoot
        rcases exists_of_forall₂ first.tops isRoot with ⟨id, -, isPair⟩
        exact first.le_index isPair
      -- The first copy stays as it is while the others are made.
      have closed : middle.Closed (fun id => middle.size ≤ id.index)
          ⟨fun _ => False, fun _ => True⟩ := closed_fresh first.wellFormed (by simp)
      have changes := (repeated.retains.neutral first.wellFormed repeated.wellFormed closed
        repeated.root_eq).toChangesWithin
      have firstCopied' := firstCopied.of_changes changes first.wellFormed closed
        fun root isRoot id inside => Nat.not_le_of_lt (lt_size_below inside (rootBounds root isRoot).2)
      refine ⟨by rw [List.length_cons, length_eq], repeated.wellFormed,
        first.retains.trans repeated.retains, repeated.root_eq.trans first.root_eq, ?_, ?_, ?_⟩
      · intro other isOther
        rcases List.mem_cons.mp isOther with rfl | isOther
        · exact firstCopied'
        · exact repeated.copied other isOther
      · intro other isOther root isRoot
        rcases List.mem_cons.mp isOther with rfl | isOther
        · exact (rootBounds root isRoot).1
        · exact Nat.le_trans first.retains.size_le (repeated.isNew other isOther root isRoot)
      · rw [List.flatMap_cons, List.nodup_append]
        refine ⟨firstCopied.nodup, repeated.nodup, ?_⟩
        rintro root isRoot _ isLater rfl
        rcases List.mem_flatMap.mp isLater with ⟨other, isOther, isRoot'⟩
        exact absurd (rootBounds root isRoot).2
          (Nat.not_lt_of_le (repeated.isNew other isOther root isRoot'))

/-- The nodes of a copy stand below a new wrapper. -/
structure Wrapped (zone : NodeId → Prop) (rights : Rights) (before after : Document)
    (wrapper : NodeId) (roots : List NodeId) : Prop extends Neutral zone rights before after where
  isNew : before.size ≤ wrapper.index
  wrapper_parent : after.parent wrapper = none
  wrapper_named : after.isNamed wrapper wrapperName = true
  wrapper_children : after.children wrapper = roots

theorem wrapped_of_fillWrapper {zone : NodeId → Prop} {rights : Rights} {wrapper : NodeId}
    {roots : List NodeId} (wellFormed : before.WellFormed) (closed : before.Closed zone rights)
    (nodup : roots.Nodup) (detached : ∀ root ∈ roots, before.parent root = none)
    (inStore : ∀ root ∈ roots, root.index < before.size) (inZone : ∀ root ∈ roots, zone root)
    (places : ∀ root ∈ roots, rights.places root)
    (done : fillWrapper roots before = .ok wrapper after) :
    Wrapped zone rights before after wrapper roots := by
  simp only [fillWrapper, bind_eq_ok, pure_eq_ok] at done
  rcases done with ⟨_, middle, created, ⟨⟩, _, gathered, rfl, rfl⟩
  rcases neutral_of_createElement wellFormed closed created with
    ⟨neutral, isNew, wrapperInZone, isDetached, childless, named, empty⟩
  have inStore' : ∀ root ∈ roots, root.index < middle.size := fun root isRoot =>
    Nat.lt_of_lt_of_le (inStore root isRoot) neutral.size_le
  have detached' : ∀ root ∈ roots, middle.parent root = none := by
    intro root isRoot
    rcases createElement_eq_ok.mp created with ⟨rfl, rfl⟩
    rw [parent_add, detached root isRoot]
  have wrapper_lt := lt_size_of_isNamed named
  have gathers := gathers_of_forM_appendChild neutral.wellFormed wrapper_lt inStore' nodup gathered
  have notRoot : _ ∉ roots := fun isRoot =>
    absurd (inStore _ isRoot) (Nat.not_lt_of_le isNew)
  have changes := gathers.changesWithin neutral.wellFormed neutral.closed wrapperInZone inZone
    fun root isRoot => movable_of_parent_none (detached' root isRoot) (places root isRoot)
  refine {
    toChangesWithin := neutral.toChangesWithin.trans changes
    runningTexts_eq := fun {id} isOld => ?_
    holder_eq := fun {id holder} isOld idText isHolder isText => ?_
    isNew := isNew
    wrapper_parent := by rw [gathers.parent_eq, if_neg notRoot, isDetached]
    wrapper_named := by rw [changes.isNamed_eq wrapper_lt, named]
    wrapper_children := by
      rw [gathers.children_eq, if_pos rfl, childless, List.filter_nil, List.nil_append] }
  · rw [← neutral.runningTexts_eq isOld]
    refine gathers.runningTexts_eq neutral.wellFormed (fun above => ?_) fun root isRoot inside => ?_
    · have same := above.eq_of_parent_none isDetached
      exact absurd (same ▸ isOld) (Nat.not_lt_of_le isNew)
    · exact (inside.eq_of_parent_none (detached' root isRoot)).symm
  · rw [gathers.parent_eq] at isHolder
    split at isHolder
    · rw [Option.some.injEq] at isHolder
      subst isHolder
      rw [changes.isNamed_eq wrapper_lt, isNamed_eq_false named (by decide)] at isText
      simp at isText
    · rw [changes.isNamed_eq (parent_lt_size neutral.wellFormed isHolder)] at isText
      exact neutral.holder_eq isOld idText isHolder isText

theorem Wrapped.runningTexts {zone : NodeId → Prop} {rights : Rights} {wrapper : NodeId}
    {roots : List NodeId} (wrapped : Wrapped zone rights before after wrapper roots)
    (inStore : ∀ root ∈ roots, root.index < before.size) :
    after.runningTexts wrapper = roots.flatMap before.runningTexts := by
  have shows := showsChildren_of_isNamed wrapped.wrapper_named (by decide)
  rw [runningTexts_of_showsChildren wrapped.wellFormed shows, wrapped.wrapper_children]
  exact List.flatMap_congr fun root isRoot => wrapped.runningTexts_eq (inStore root isRoot)

/-- The tags in a copy are pending below the wrapper of the copy. -/
theorem pending_of_wrapped {zone : NodeId → Prop} {rights : Rights} {wrapper : NodeId}
    {inner : List Tag} (copied : Copied source before nodes copy)
    (wrapped : Wrapped zone rights before after wrapper copy.roots)
    (wellFormed : before.WellFormed)
    (ordered : (inner.map Tag.textNode).Sublist (nodes.flatMap source.runningTexts))
    (solitary : ∀ tag ∈ inner, source.Solitary tag.textNode) :
    after.Pending [wrapper] ((copy.tags inner).map Tag.textNode) := by
  have within : ∀ tag ∈ inner, tag.textNode ∈ nodes.flatMap source.runningTexts := fun tag isTag =>
    ordered.subset (List.mem_map_of_mem isTag)
  have images : (copy.tags inner).map Tag.textNode =
      (inner.map Tag.textNode).map copy.image := by
    rw [copied.tags_eq within, List.map_map, List.map_map]
    rfl
  have running : [wrapper].flatMap after.runningTexts =
      (nodes.flatMap source.runningTexts).map copy.image := by
    rw [List.flatMap_singleton, wrapped.runningTexts copied.inStore, copied.texts_eq]
  rw [images]
  refine {
    detached := by simpa using wrapped.wrapper_parent
    inStore := by simpa using lt_size_of_isNamed wrapped.wrapper_named
    notProperties := by
      simpa [isProperties_of_isNamed wrapped.wrapper_named] using by decide
    nodup_tops := List.nodup_singleton _
    ordered := running ▸ ordered.map copy.image
    solitary := ?_ }
  intro text isText
  rcases List.mem_map.mp isText with ⟨_, isOriginal, rfl⟩
  rcases List.mem_map.mp isOriginal with ⟨tag, isTag, rfl⟩
  have isPair := (copied.lookup_eq (within tag isTag)).2
  have inCopy : copy.image tag.textNode ∈ copy.roots.flatMap before.runningTexts := by
    rw [copied.texts_eq]
    exact List.mem_map_of_mem (within tag isTag)
  have isOld : (copy.image tag.textNode).index < before.size := by
    rcases List.mem_flatMap.mp inCopy with ⟨root, isRoot, running⟩
    exact lt_size_below (liesIn_of_mem_runningTexts wellFormed running) (copied.inStore root isRoot)
  have rearranges : Rearranges zone rights (fun _ => False) before after :=
    wrapped.toNeutral.rearranges
  exact rearranges.solitary wellFormed isOld
    (copied.solitary _ _ isPair inCopy (solitary tag isTag)) id fun _ _ _ => id

/-- The nodes below a wrapper are detached from it. -/
structure Unwrapped (zone : NodeId → Prop) (rights : Rights) (before after : Document)
    (wrapper : NodeId) (nodes : List NodeId) : Prop extends
    ChangesWithin zone rights before after where
  nodup : nodes.Nodup
  wasParent : ∀ node ∈ nodes, before.parent node = some wrapper
  node_parent : ∀ node ∈ nodes, after.parent node = none
  texts : nodes.flatMap after.runningTexts = before.runningTexts wrapper

theorem unwrapped_of_emptyWrapper {zone : NodeId → Prop} {rights : Rights} {wrapper : NodeId}
    (wellFormed : before.WellFormed) (closed : before.Closed zone rights) (inZone : zone wrapper)
    (named : before.isNamed wrapper wrapperName = true)
    (done : emptyWrapper wrapper before = .ok nodes after) :
    Unwrapped zone rights before after wrapper nodes := by
  simp only [emptyWrapper, get_bind, bind_eq_ok, pure_eq_ok] at done
  rcases done with ⟨⟨⟩, _, dropped, rfl, rfl⟩
  have drops := drops_of_forM_detach wellFormed dropped
  have isParent : ∀ node ∈ before.children wrapper, before.parent node = some wrapper :=
    fun node => (wellFormed.mem_children_iff _ _).mp
  refine {
    toChangesWithin := drops.changesWithin wellFormed closed fun node isChild =>
      movable_of_parent (isParent node isChild) inZone
    nodup := wellFormed.nodup_children wrapper
    wasParent := isParent
    node_parent := fun node isChild => by rw [drops.parent_eq, if_pos isChild]
    texts := ?_ }
  rw [runningTexts_of_showsChildren wellFormed (showsChildren_of_isNamed named (by decide))]
  refine List.flatMap_congr fun node isChild => drops.runningTexts_eq wellFormed ?_
  intro other isOther inside
  by_contra differ
  exact not_liesIn_of_siblings wellFormed (isParent node isChild) (isParent other isOther) differ
    inside LiesIn.refl

/-- A copy was filled below a wrapper and is `nodes` now. Nothing else has changed. -/
structure Filled (base : Nat) (before after : Document) (roots nodes : List NodeId) : Prop extends
    ChangesWithin (before.BelowRoots roots) (newRights base) before after where
  nodup : nodes.Nodup
  node_parent : ∀ node ∈ nodes, after.parent node = none
  inStore : ∀ node ∈ nodes, node.index < after.size
  inZone : ∀ node ∈ nodes, before.BelowRoots roots node

theorem filled_of_wrapper {base : Nat} {middle filled : Document} {wrapper : NodeId}
    (copied : Copied source before nodes copy) (wellFormed : before.WellFormed)
    (base_le : base ≤ before.size) (isNew : ∀ root ∈ copy.roots, base ≤ root.index)
    {group : List NodeId} (wrapped : fillWrapper copy.roots before = .ok wrapper middle)
    (work : ChangesWithin (middle.Below wrapper) (.since base middle) middle filled)
    (emptied : emptyWrapper wrapper filled = .ok group after) :
    Filled base before after copy.roots group ∧
      group.flatMap after.runningTexts = filled.runningTexts wrapper := by
  have closed : before.Closed (before.BelowRoots copy.roots) (newRights base) :=
    closed_belowRoots wellFormed (fun _ => Nat.le_trans base_le) _
  have wrapped := wrapped_of_fillWrapper wellFormed closed copied.nodup copied.detached copied.inStore
    (fun root isRoot => Or.inl ⟨root, isRoot, LiesIn.refl⟩) isNew wrapped
  have wrapper_lt := lt_size_of_isNamed wrapped.wrapper_named
  have wrapperInZone : before.BelowRoots copy.roots wrapper := Or.inr wrapped.isNew
  have work' : ChangesWithin (before.BelowRoots copy.roots) (newRights base) middle filled := by
    refine work.mono wrapped.wellFormed wrapped.closed ?_ ⟨fun _ _ => id, ?_⟩
    · rintro id (inside | beyond)
      · exact wrapped.closed.liesIn inside wrapperInZone
      · exact wrapped.closed.fresh beyond
    · exact fun id isOld isNew => absurd isOld (Nat.not_lt_of_le isNew)
  have unwrapped := unwrapped_of_emptyWrapper work'.wellFormed work'.closed wrapperInZone
    (by rw [work'.isNamed_eq wrapper_lt, wrapped.wrapper_named]) emptied
  refine ⟨⟨(wrapped.toChangesWithin.trans work').trans unwrapped.toChangesWithin,
    unwrapped.nodup, unwrapped.node_parent, fun node isNode => ?_, fun node isNode => ?_⟩,
    unwrapped.texts⟩
  · exact Nat.lt_of_lt_of_le (lt_size_of_parent (unwrapped.wasParent node isNode))
      unwrapped.size_le
  · exact work'.closed.child (unwrapped.wasParent node isNode) wrapperInZone

end Edit

end WordTemplate
