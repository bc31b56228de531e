import WordTemplate.Container.Placement
import WordTemplate.Container.Repetition
import WordTemplate.Container.Sections
import WordTemplate.Proofs.Word.References

/-!
# References while regions are cut, repeated and put back

Tags are taken out, regions are cut out, copied and put back, and sections are hidden without a new
reference. Only copies repeat the references that are there.
-/

namespace WordTemplate

open Document

variable {allowed : Reference → Prop}

/-! ## Taking tags out -/

namespace Extraction

theorem lasts_isolate (delimiters : Delimiters) (marks : TagMarks) :
    Lasts (CitesOnly allowed) (isolate delimiters marks) := by
  apply Lasts.of_get.bind
  intro document
  apply (Lasts.of_ofExcept _).bind
  rintro ⟨startNode, startOffset⟩
  have joined : Lasts (CitesOnly allowed) (show Extraction NodeId from
      if startOffset = 0 then do
        Edit.joinText startNode marks.stop.node
        return startNode
      else do
        let tagNode ← (Edit.splitText startNode startOffset : Edit NodeId)
        Edit.joinText tagNode (if startNode = marks.stop.node then tagNode else marks.stop.node)
        return tagNode) := by
    split
    · apply (Edit.lasts_joinText _ _).of_edit.bind
      intro _
      exact Lasts.of_pure _
    · apply (Edit.lasts_splitText _ _).of_edit.bind
      intro tagNode
      apply (Edit.lasts_joinText _ _).of_edit.bind
      intro _
      exact Lasts.of_pure _
  dsimp only
  split
  · exact (Edit.lasts_splitText _ _).of_edit.discard.bind fun _ => joined
  · exact joined

theorem lasts_isolateAll (delimiters : Delimiters) (marks : List TagMarks) :
    Lasts (CitesOnly allowed) (isolateAll delimiters marks) := by
  induction marks with
  | nil => exact Lasts.of_pure _
  | cons first later inductionHypothesis =>
      apply inductionHypothesis.bind
      intro laterNodes
      apply (lasts_isolate delimiters first).bind
      intro node
      exact Lasts.of_pure _

theorem lasts_takeTag (delimiters : Delimiters) (node : NodeId) :
    Lasts (CitesOnly allowed) (takeTag delimiters node) := by
  apply Lasts.of_get.bind
  intro document
  apply (Lasts.of_ofExcept (Tag.read delimiters node (document.textOf node))).bind
  intro tag
  apply (Edit.lasts_setText node "").of_edit.bind
  intro _
  exact Lasts.of_pure _

theorem lasts_takeTags (delimiters : Delimiters) (marks : List DelimiterMark) :
    Lasts (CitesOnly allowed) (takeTags delimiters marks) := by
  apply Lasts.of_get.bind
  intro document
  apply (Lasts.of_ofExcept _).bind
  intro pairs
  apply (lasts_isolateAll delimiters pairs).bind
  intro nodes
  apply Lasts.of_mapM
  intro node _
  exact lasts_takeTag delimiters node

end Extraction

/-! ## Cutting -/

theorem Tag.lasts_paragraph (tag : Tag) (cause : PlacementError) :
    Lasts (CitesOnly allowed) (tag.paragraph cause) := by
  apply Lasts.of_get.bind
  intro document
  split
  · exact Lasts.of_pure _
  · exact Lasts.of_throw _

theorem Extraction.lasts_cutFragments (openingTag closingTag : Tag) :
    Lasts (CitesOnly allowed) (cutFragments openingTag closingTag) := by
  apply (Tag.lasts_paragraph _ _).bind
  intro first
  apply (Tag.lasts_paragraph _ _).bind
  intro last
  apply (Edit.lasts_splitParagraph _ _ _).of_edit.bind
  intro afterOpening
  split
  · apply (Edit.lasts_splitParagraph _ _ _).of_edit.bind
    intro tail
    apply (Edit.lasts_detach _).of_edit.bind
    intro _
    exact Lasts.of_pure _
  · apply (Edit.lasts_splitParagraph _ _ _).of_edit.bind
    intro tail
    apply (Edit.lasts_detach _).of_edit.bind
    intro _
    apply (Edit.lasts_detach _).of_edit.bind
    intro _
    apply (Edit.lasts_removeBetween _ _).of_edit.bind
    intro between
    exact Lasts.of_pure _

namespace Strategy

theorem lasts_rowOf (tag : Tag) (cause : PlacementError) :
    Lasts (CitesOnly allowed) (rowOf tag cause) := by
  apply Lasts.of_get.bind
  intro document
  split
  · exact Lasts.of_pure _
  · exact Lasts.of_throw _

theorem lasts_removeTagAndRun (tag : Tag) : Lasts (CitesOnly allowed) (removeTagAndRun tag) := by
  apply Lasts.of_get.bind
  intro document
  apply (Edit.lasts_detach _).bind
  intro _
  split
  · apply Lasts.of_get.bind
    intro document
    split
    · exact Edit.lasts_detach _
    · exact Lasts.of_pure _
  · exact Lasts.of_pure _

theorem lasts_cutRows (openingTag closingTag : Tag) :
    Lasts (CitesOnly allowed) (cutRows openingTag closingTag) := by
  apply (lasts_rowOf _ _).bind
  intro first
  apply (lasts_rowOf _ _).bind
  intro last
  apply (lasts_removeTagAndRun _).of_edit.bind
  intro _
  apply (lasts_removeTagAndRun _).of_edit.bind
  intro _
  apply (Edit.lasts_siblingRange _ _).of_edit.bind
  intro nodes
  exact Lasts.of_pure _

theorem lasts_cutListItems (openingTag closingTag : Tag) :
    Lasts (CitesOnly allowed) (cutListItems openingTag closingTag) := by
  apply (Tag.lasts_paragraph _ _).bind
  intro first
  apply (Tag.lasts_paragraph _ _).bind
  intro last
  apply Lasts.of_get.bind
  intro document
  apply (Edit.lasts_detach _).of_edit.bind
  intro _
  apply Lasts.of_get.bind
  intro document
  apply (Edit.lasts_detach _).of_edit.bind
  intro _
  apply (Edit.lasts_removeEmptyRuns _).of_edit.bind
  intro _
  apply (Edit.lasts_removeEmptyRuns _).of_edit.bind
  intro _
  apply (Edit.lasts_siblingRange _ _).of_edit.bind
  intro range
  apply Lasts.of_get.bind
  intro document
  exact Lasts.of_pure _

end Strategy

/-! ## Copies of a region -/

namespace Edit

theorem lasts_copyRegion (nodes : List NodeId) : Lasts (CitesOnly allowed) (copyRegion nodes) := by
  induction nodes with
  | nil => exact Lasts.of_pure _
  | cons node rest inductionHypothesis =>
      apply (lasts_copySubtree node).bind
      intro first
      apply inductionHypothesis.bind
      intro others
      exact Lasts.of_pure _

theorem lasts_repeatRegion (nodes : List NodeId) (times : Nat) :
    Lasts (CitesOnly allowed) (repeatRegion nodes times) := by
  induction times with
  | zero => exact Lasts.of_pure _
  | succ times inductionHypothesis =>
      apply (lasts_copyRegion nodes).bind
      intro first
      apply inductionHypothesis.bind
      intro others
      exact Lasts.of_pure _

theorem lasts_fillWrapper (nodes : List NodeId) : Lasts (CitesOnly allowed) (fillWrapper nodes) := by
  apply (lasts_createElement _).bind
  intro wrapper
  apply (Lasts.of_forM fun node => lasts_appendChild wrapper node).bind
  intro _
  exact Lasts.of_pure _

theorem lasts_emptyWrapper (wrapper : NodeId) : Lasts (CitesOnly allowed) (emptyWrapper wrapper) := by
  apply Lasts.of_get.bind
  intro document
  apply (lasts_detachAll _).bind
  intro _
  exact Lasts.of_pure _

/-! ## Putting copies back -/

theorem lasts_joinFragment (target fragment : NodeId) :
    Lasts (CitesOnly allowed) (joinFragment target fragment) := by
  apply Lasts.of_get.bind
  intro document
  split
  · apply (lasts_joinParagraphs _ _).bind
    intro _
    apply (lasts_detach _).bind
    intro _
    exact Lasts.of_pure _
  · exact Lasts.of_pure _

theorem lasts_placeFragments (tail target : NodeId) (nodes : List NodeId) :
    Lasts (CitesOnly allowed) (placeFragments tail target nodes) := by
  induction nodes generalizing target with
  | nil => exact Lasts.of_pure _
  | cons node rest inductionHypothesis =>
      exact (lasts_insertBefore node tail).bind fun _ => inductionHypothesis node

theorem lasts_mergeGroup (tail target : NodeId) (group : List NodeId) :
    Lasts (CitesOnly allowed) (mergeGroup tail target group) := by
  cases group with
  | nil => exact Lasts.of_pure _
  | cons first rest =>
      apply (lasts_joinFragment target first).bind
      intro joined
      split
      · exact lasts_placeFragments _ _ _
      · exact lasts_placeFragments _ _ _

theorem lasts_mergeGroups (tail target : NodeId) (groups : List (List NodeId)) :
    Lasts (CitesOnly allowed) (mergeGroups tail target groups) := by
  induction groups generalizing target with
  | nil =>
      apply (lasts_joinFragment target tail).bind
      intro joined
      split
      · exact Lasts.of_pure _
      · exact Lasts.of_pure _
  | cons group rest inductionHypothesis =>
      apply (lasts_mergeGroup tail target group).bind
      intro reached
      apply (inductionHypothesis reached).bind
      intro junctions
      exact Lasts.of_pure _

theorem lasts_tidyJunction (paragraph : NodeId) :
    Lasts (CitesOnly allowed) (tidyJunction paragraph) := by
  apply (lasts_removeEmptyRuns paragraph).bind
  intro _
  apply Lasts.of_get.bind
  intro document
  split
  · exact lasts_detach _
  · exact Lasts.of_pure _

theorem lasts_mergeFragments (groups : List (List NodeId)) (head tail : NodeId) :
    Lasts (CitesOnly allowed) (mergeFragments groups head tail) := by
  apply (lasts_mergeGroups tail head groups).bind
  intro junctions
  exact Lasts.of_forM lasts_tidyJunction

end Edit

namespace Strategy

theorem lasts_replaceRange (groups : List (List NodeId)) (first last : NodeId) :
    Lasts (CitesOnly allowed) (replaceRange groups first last) := by
  apply (Edit.lasts_siblingRange first last).bind
  intro replaced
  apply (Lasts.of_forM fun node => Edit.lasts_insertBefore node first).bind
  intro _
  exact Edit.lasts_detachAll _

theorem lasts_putBack (region : CutRegion) (groups : List (List NodeId)) :
    Lasts (CitesOnly allowed) (putBack region groups) := by
  rw [putBack]
  split
  · exact Edit.lasts_mergeFragments _ _ _
  · exact lasts_replaceRange _ _ _

end Strategy

/-! ## Sections -/

namespace Section

variable {reference : Reference}

/-- The names of the elements that the properties of a section's content control consist of. -/
def propertyNames : List String :=
  [Word.Name.contentControlProperties, Word.Name.runProperties, Word.Name.vanish, "w:alias", "w:tag",
    "w:id", "w:lock", "w15:appearance"]

/-- What holds of all elements with one of the names holds of the properties of the content control. -/
theorem eachElement_controlProperties (part : Section) {holds : Element → Prop}
    (holdsNamed : ∀ name ∈ propertyNames, ∀ attributes, holds ⟨name, attributes⟩) :
    part.controlProperties.EachElement holds := by
  have leaf : ∀ name ∈ propertyNames, ∀ attributes, (Tree.node name attributes []).EachElement holds :=
    fun name isName _ => Tree.eachElement_node.mpr ⟨holdsNamed name isName _, by simp⟩
  rw [controlProperties, Tree.eachElement_node]
  refine ⟨holdsNamed _ (by decide) _, fun tree isPart => ?_⟩
  simp only [List.mem_append] at isPart
  rcases isPart with (((isVanishing | isNaming) | isNumbering) | isLocking) | isDrawing
  · split at isVanishing
    · rw [List.mem_singleton.mp isVanishing, Tree.eachElement_node]
      exact ⟨holdsNamed _ (by decide) _, by simpa using leaf _ (by decide) []⟩
    · cases isVanishing
  · rcases List.mem_flatMap.mp isNaming with ⟨name, -, isNaming⟩
    rcases List.mem_pair.mp isNaming with rfl | rfl
    · exact leaf _ (by decide) _
    · exact leaf _ (by decide) _
  · rcases List.mem_map.mp isNumbering with ⟨id, -, rfl⟩
    exact leaf _ (by decide) _
  · split at isLocking
    · rw [List.mem_singleton.mp isLocking]
      exact leaf _ (by decide) _
    · cases isLocking
  · rcases List.mem_map.mp isDrawing with ⟨appearance, -, rfl⟩
    exact leaf _ (by decide) _

/-- The properties of a content control make no reference. -/
theorem not_cites_controlProperties (part : Section) : ¬part.controlProperties.Cites reference := by
  have apart : ∀ name ∈ propertyNames, name ≠ Word.Name.hyperlink ∧ name ≠ Word.Name.blip := by decide
  have citesNothing : part.controlProperties.EachElement (Element.CitesOnly fun _ => False) := by
    refine part.eachElement_controlProperties fun name isName attributes reference made => ?_
    rcases apart name isName with ⟨notHyperlink, notImage⟩
    simp [Element.reference?, notHyperlink, notImage] at made
  exact (Tree.eachElement_citesOnly_iff _).mp citesNothing reference

end Section

namespace Edit

theorem lasts_whenAttached {edit : Edit Unit} (lasts : Lasts (CitesOnly allowed) edit) (id : NodeId) :
    Lasts (CitesOnly allowed) (whenAttached id edit) := by
  apply Lasts.of_get.bind
  intro document
  split
  · exact lasts
  · exact Lasts.of_pure _

theorem lasts_hideRun (run : NodeId) : Lasts (CitesOnly allowed) (hideRun run) := by
  apply lasts_whenAttached
  apply (lasts_ensureProperties _ _ _).bind
  intro properties
  exact (lasts_setFlag _ _).discard

theorem lasts_ensureMarkProperties (properties : NodeId) :
    Lasts (CitesOnly allowed) (ensureMarkProperties properties) := by
  apply Lasts.of_get.bind
  intro document
  dsimp only
  split
  · exact Lasts.of_pure _
  · apply (lasts_createElement _).bind
    intro created
    split
    · exact (lasts_insertBefore _ _).bind fun _ => Lasts.of_pure _
    · exact (lasts_appendChild _ _).bind fun _ => Lasts.of_pure _

theorem lasts_hideParagraph (runs : List NodeId) (paragraph : NodeId) :
    Lasts (CitesOnly allowed) (hideParagraph runs paragraph) := by
  apply lasts_whenAttached
  apply Lasts.of_get.bind
  intro document
  split
  · apply (lasts_ensureProperties _ _ _).bind
    intro properties
    apply (lasts_ensureMarkProperties _).bind
    intro markProperties
    exact (lasts_setFlag _ _).discard
  · exact Lasts.of_pure _

theorem lasts_hideRow (row : NodeId) : Lasts (CitesOnly allowed) (hideRow row) := by
  apply lasts_whenAttached
  apply (lasts_ensureProperties _ _ _).bind
  intro properties
  exact (lasts_setFlag _ _).discard

theorem lasts_hideControl (properties : NodeId) : Lasts (CitesOnly allowed) (hideControl properties) := by
  apply lasts_whenAttached
  apply (lasts_ensureProperties _ _ _).bind
  intro properties
  exact (lasts_setFlag _ _).discard

theorem lasts_hideNodes (nodes : SectionNodes) (head : NodeId) :
    Lasts (CitesOnly allowed) (hideNodes nodes head) := by
  apply (Lasts.of_forM lasts_hideRun).bind
  intro _
  apply (Lasts.of_forM (lasts_hideParagraph _)).bind
  intro _
  apply (Lasts.of_forM lasts_hideRow).bind
  intro _
  exact Lasts.of_forM lasts_hideControl

/-- Bookmarks make no references. -/
theorem lasts_addBookmarks (part : Section) (first last : NodeId) :
    Lasts (CitesOnly allowed) (addBookmarks part first last) := by
  rw [addBookmarks]
  split
  · apply (lasts_plant fun _ cites => absurd cites (Tree.not_cites_leaf (by decide) (by decide))).bind
    intro start
    apply (lasts_plant fun _ cites => absurd cites (Tree.not_cites_leaf (by decide) (by decide))).bind
    intro stop
    exact (lasts_insertBefore _ _).bind fun _ => lasts_insertAfter _ _
  · exact Lasts.of_pure _

theorem lasts_bookmarkSection (part : Section) (nodes : SectionNodes) :
    Lasts (CitesOnly allowed) (bookmarkSection part nodes) := by
  apply Lasts.of_get.bind
  intro document
  split
  · exact lasts_addBookmarks _ _ _
  · exact Lasts.of_pure _

theorem lasts_wrapInControl (part : Section) (nodes : SectionNodes) :
    Lasts (CitesOnly allowed) (wrapInControl part nodes) := by
  apply Lasts.of_get.bind
  intro document
  split
  · exact Lasts.of_pure _
  · apply (lasts_siblingRange _ _).bind
    intro range
    apply (lasts_createElement _).bind
    intro control
    apply (lasts_plant fun _ cites => absurd cites (Section.not_cites_controlProperties part)).bind
    intro properties
    apply (lasts_createElement _).bind
    intro content
    apply (lasts_appendChild _ _).bind
    intro _
    apply (lasts_appendChild _ _).bind
    intro _
    apply (lasts_insertBefore _ _).bind
    intro _
    apply (Lasts.of_forM fun node => lasts_appendChild content node).bind
    intro _
    apply (lasts_addBookmarks _ _ _).bind
    intro _
    exact Lasts.of_pure _

end Edit

theorem Section.lasts_finish (style : HidingStyle) (part : Section) (nodes : SectionNodes)
    (head : NodeId) : Lasts (CitesOnly allowed) (finish style part nodes head) := by
  cases style with
  | contentControl =>
      apply (Edit.lasts_wrapInControl part nodes).bind
      intro wrapped
      split
      · exact Edit.lasts_hideNodes _ _
      · exact Lasts.of_pure _
  | vanishRuns =>
      rw [finish]
      split
      · exact (Edit.lasts_hideNodes _ _).bind fun _ => Edit.lasts_bookmarkSection _ _
      · exact Edit.lasts_bookmarkSection _ _

end WordTemplate
