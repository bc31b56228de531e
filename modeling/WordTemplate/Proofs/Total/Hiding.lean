import WordTemplate.Proofs.Container.Hiding
import WordTemplate.Proofs.Total.Properties

/-!
# Hiding a section succeeds

Flags and bookmarks are new elements without children. They can be placed anywhere, and the host of a
section stays a host.
-/

namespace WordTemplate

open Document Outcome

theorem Succeeds.discard {ε σ α : Type} {work : EStateM ε σ α} {s : σ} {holds : σ → Prop}
    (succeeds : Succeeds work s fun _ => holds) :
    Succeeds (discard work) s fun _ => holds := by
  rcases succeeds with ⟨a, t, done, isSo⟩
  exact ⟨⟨⟩, t, discard_eq_ok.mpr ⟨a, done⟩, isSo⟩

namespace Edit

variable {document : Document} {host node properties first last parent outer : NodeId}
  {name flag : String} {nodes : SectionNodes} {part : Section} {zone : NodeId → Prop}
  {stray : NodeId → Prop}

theorem succeeds_whenAttached {edit : Edit Unit} (housed : document.Housed stray host)
    (succeeds : node.index < document.size → Succeeds edit document fun _ after => after.Housed stray host) :
    Succeeds (whenAttached node edit) document fun _ after => after.Housed stray host := by
  refine Succeeds.of_get ?_
  split
  · next attached =>
      rw [isAttached_iff housed.toWellFormed] at attached
      exact succeeds (lt_size_below attached housed.root_lt)
  · exact Succeeds.of_pure housed

theorem succeeds_flagged (housed : document.Housed stray host) (inStore : node.index < document.size)
    (differ : name ≠ Word.Name.numberingProperties) (leading : List String)
    (differ' : flag ≠ Word.Name.numberingProperties) :
    Succeeds (do
      let properties ← ensureProperties node name leading
      Functor.discard (setFlag properties flag)) document fun _ after => after.Housed stray host := by
  refine (succeeds_ensureProperties housed inStore differ leading).bind ?_
  rintro properties ensured - ⟨housed', isParent, -⟩
  exact (succeeds_setFlag housed' (lt_size_of_parent isParent) differ').discard

theorem succeeds_ensureMarkProperties (housed : document.Housed stray host)
    (inStore : properties.index < document.size) :
    Succeeds (ensureMarkProperties properties) document fun mark after =>
      after.Housed stray host ∧ mark.index < after.size := by
  refine Succeeds.of_get ?_
  rcases found : document.childNamed? properties Word.Name.runProperties with _ | existing
  · refine Succeeds.bind (P := fun created after => created = document.nextId ∧
      after = document.add (.element { name := Word.Name.runProperties }))
      (Succeeds.of_done rfl ⟨rfl, rfl⟩) ?_
    rintro _ _ - ⟨rfl, rfl⟩
    have housed' := housed.add (.element { name := Word.Name.runProperties })
    have blank := housed.toTiered.blank_add { name := Word.Name.runProperties } (by decide)
    rcases follows : [Word.Name.sectionProperties, Word.Name.paragraphPropertiesChange].findSome?
      (document.childNamed? properties) with _ | next
    · refine (succeeds_appendChild housed'.toTiered (by rw [size_add]; omega) blank.inStore
        (blank.outside housed'.toWellFormed (nextId_ne inStore).symm)
        (blank.fits housed'.toWellFormed properties)).bind ?_
      rintro ⟨⟩ after - ⟨moves, tiered⟩
      exact Succeeds.of_pure ⟨housed'.of_moves moves tiered (blank.outside housed'.toWellFormed
        (nextId_ne housed.lt_size).symm), by rw [moves.size_eq]; exact blank.inStore⟩
    · rcases List.exists_of_findSome?_eq_some follows with ⟨name, -, isNext⟩
      refine (succeeds_insertBeside_blank housed' blank
        ((parent_add _ _ _).trans (parent_of_childNamed? housed.toWellFormed isNext).1)
        (nextId_ne housed.lt_size) 0).bind ?_
      rintro ⟨⟩ after - ⟨housed'', left, right, moves⟩
      exact Succeeds.of_pure ⟨housed'', by rw [moves.size_eq]; exact blank.inStore⟩
  · exact Succeeds.of_pure ⟨housed, lt_size_of_parent
      (parent_of_childNamed? housed.toWellFormed found).1⟩

theorem succeeds_hideParagraph (housed : document.Housed stray host) (runs : List NodeId)
    (paragraph : NodeId) :
    Succeeds (hideParagraph runs paragraph) document fun _ after => after.Housed stray host := by
  refine succeeds_whenAttached housed fun inStore => Succeeds.of_get ?_
  split
  · refine (succeeds_ensureProperties housed inStore (by decide) []).bind ?_
    rintro properties ensured - ⟨housed', isParent, -⟩
    refine (succeeds_ensureMarkProperties housed' (lt_size_of_parent isParent)).bind ?_
    rintro mark marked - ⟨housed'', mark_lt⟩
    exact (succeeds_setFlag housed'' mark_lt (by decide)).discard
  · exact Succeeds.of_pure housed

theorem succeeds_hideNodes (housed : document.Housed stray host) (nodes : SectionNodes) (head : NodeId) :
    Succeeds (hideNodes nodes head) document fun _ after => after.Housed stray host := by
  have loop : ∀ {step : NodeId → Edit Unit} (items : List NodeId) {document : Document},
      document.Housed stray host →
      (∀ item (document : Document), document.Housed stray host →
        Succeeds (step item) document fun _ after => after.Housed stray host) →
      Succeeds (forM items step) document fun _ after => after.Housed stray host :=
    fun items _ housed each => Succeeds.of_forM (fun _ (s : Document) => s.Housed stray host)
      (fun item _ s housed => each item s housed) housed
  refine (loop nodes.runs housed fun run s housed =>
    succeeds_whenAttached housed fun inStore =>
      succeeds_flagged housed inStore (by decide) [] (by decide)).bind fun _ _ _ housed => ?_
  refine (loop (nodes.paragraphs ++ [head]) housed fun paragraph s housed =>
    succeeds_hideParagraph housed nodes.runs paragraph).bind fun _ _ _ housed => ?_
  refine (loop nodes.rows housed fun row s housed =>
    succeeds_whenAttached housed fun inStore =>
      succeeds_flagged housed inStore (by decide) _ (by decide)).bind fun _ _ _ housed => ?_
  exact loop nodes.controlProperties housed fun control s housed =>
    succeeds_whenAttached housed fun inStore =>
      succeeds_flagged housed inStore (by decide) [] (by decide)

/-- Bookmarks can be put around nodes that have a parent. -/
theorem succeeds_addBookmarks (housed : document.Housed stray host)
    (isFirst : document.parent first = some parent) (isLast : document.parent last = some outer) :
    Succeeds (addBookmarks part first last) document fun _ after => after.Housed stray host := by
  rw [addBookmarks]
  rcases part.id with _ | identifier
  · exact Succeeds.of_pure housed
  rcases part.bookmarkName with _ | name
  · exact Succeeds.of_pure housed
  refine Succeeds.bind (P := fun start after => start = document.nextId ∧ ∃ held : Element,
    held.name = Word.Name.bookmarkStart ∧ after = document.add (.element held))
    (Succeeds.of_done rfl ⟨rfl, _, rfl, rfl⟩) ?_
  rintro _ _ - ⟨rfl, held, startNamed, rfl⟩
  refine Succeeds.bind (P := fun stop after => stop = (document.add (.element held)).nextId ∧
    ∃ held' : Element, held'.name = Word.Name.bookmarkEnd ∧
      after = (document.add (.element held)).add (.element held'))
    (Succeeds.of_done rfl ⟨rfl, _, rfl, rfl⟩) ?_
  rintro _ _ - ⟨rfl, held', stopNamed, rfl⟩
  have housed' := (housed.add (.element held)).add (.element held')
  have first_lt := parent_lt_size housed.toWellFormed isFirst
  have last_lt := lt_size_of_parent isLast
  have startBlank := (housed.toTiered.blank_add held (by rw [startNamed]; decide)).add
    (.element held')
  have stopBlank := (housed.add (.element held)).toTiered.blank_add held'
    (by rw [stopNamed]; decide)
  have stop_ne : ∀ {id : NodeId}, id.index ≤ document.size → (document.add (.element held)).nextId ≠ id := by
    rintro id isOld rfl
    have size_eq := size_add document (.element held)
    rw [nextId] at isOld
    exact Nat.not_succ_le_self _ (size_eq ▸ isOld)
  refine (succeeds_insertBeside_blank housed' startBlank
    (by rw [parent_add, parent_add, isFirst]) (nextId_ne housed.lt_size) 0).bind ?_
  rintro ⟨⟩ started - ⟨housed'', left, right, moves⟩
  have stopBlank' := stopBlank.moves moves (stop_ne (Nat.le_refl _)) (stop_ne (Nat.le_of_lt first_lt))
  refine (succeeds_insertBeside_blank housed'' stopBlank'
    (by rw [moves.parent_eq, if_neg (nextId_ne last_lt).symm, parent_add, parent_add, isLast])
    (stop_ne (Nat.le_of_lt housed.lt_size)) 1).imp fun _ _ _ holds => holds.1

theorem succeeds_bookmarkSection (housed : document.Housed stray host) (known : nodes.Known zone document) :
    Succeeds (bookmarkSection part nodes) document fun _ after => after.Housed stray host := by
  refine Succeeds.of_get ?_
  rcases found : nodes.attachedRange? document with _ | ⟨first, last⟩
  · exact Succeeds.of_pure housed
  · rcases known.attachedRange? found with ⟨parent, -, isFirst, isLast⟩
    exact succeeds_addBookmarks housed isFirst isLast

end Edit

end WordTemplate
