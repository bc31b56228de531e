import WordTemplate.Filling.Standard
import WordTemplate.Proofs.Container.HiddenSections
import WordTemplate.Proofs.Leaf.Link

/-!
# Documents stay intact while leaves are replaced

Wherever a tag stands, the document is well-formed after the tag was replaced. What is placed is new,
and it is placed beside a node that is in the document.
-/

namespace WordTemplate

open Document Outcome

namespace Edit

variable {document : Document}

end Edit

namespace Leaf

variable {document after : Document} {context : Context} {tag : Tag}
  {textNode element anchor run : NodeId}

/-! ## Text -/

theorem keepsIntact_readFragment (source : String) (before : Workspace) :
    Work.KeepsIntact (Work.readFragment source) before fun nodes after =>
      ∀ node ∈ nodes, node.index < after.size := by
  intro wellFormed nodes after done
  rcases adds_of_workReadFragment wellFormed done with ⟨-, adds, -, areNew⟩
  exact ⟨adds.intact wellFormed, fun node isMember => (areNew node isMember).2.1⟩

end Leaf

/-! ## Standard plugins -/

namespace Plugin

variable {plugin : Plugin} {context : Context}

end Plugin

end WordTemplate
