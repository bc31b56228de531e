import WordTemplate.Proofs.Word.Ensuring

/-!
# Flagging exactly the nodes of a section

The runs, paragraph marks, rows and content controls of a section that are part of the tree get their
flags, and no other node changes. What is flagged is a set, so the order in which its members are
visited does not show in the trees.
-/

namespace WordTemplate

open Document

/-- The kinds of nodes that are flagged as hidden. -/
inductive HiddenKind where
  | run
  | paragraph
  | row
  | controlProperties
deriving DecidableEq

namespace HiddenKind

/-- The name of the nodes of a kind. -/
def name : HiddenKind → String
  | run => Word.Name.run
  | paragraph => Word.Name.paragraph
  | row => Word.Name.tableRow
  | controlProperties => Word.Name.contentControlProperties

/-- The flag among the properties of a run, or of anything else that is formatted like a run. -/
def vanishing : List Requirement :=
  [⟨Word.Name.runProperties, .after []⟩, ⟨Word.Name.vanish, .before []⟩]

/-- The flag of a node of a kind, with the properties that it stands in. -/
def flag : HiddenKind → List Requirement
  | run => vanishing
  | paragraph =>
      [⟨Word.Name.paragraphProperties, .after []⟩,
        ⟨Word.Name.runProperties,
          .before [Word.Name.sectionProperties, Word.Name.paragraphPropertiesChange]⟩,
        ⟨Word.Name.vanish, .before []⟩]
  | row =>
      [⟨Word.Name.tableRowProperties, .after [Word.Name.tablePropertyExceptions]⟩,
        ⟨Word.Name.hidden, .before []⟩]
  | controlProperties => vanishing

end HiddenKind

namespace SectionNodes

variable {nodes : SectionNodes} {head id : NodeId} {document before middle after : Document}
  {kind : HiddenKind} {order : List NodeId} {path : List Requirement}

/-- The nodes of a kind that are visited, with the paragraph that a section was merged into. -/
def ofKind (nodes : SectionNodes) (head : NodeId) : HiddenKind → List NodeId
  | .run => nodes.runs
  | .paragraph => nodes.paragraphs ++ [head]
  | .row => nodes.rows
  | .controlProperties => nodes.controlProperties

/-- A node of a section that is to be flagged: it is part of the tree, and if it is a paragraph, all
of its runs come from the section. -/
structure Hidden (nodes : SectionNodes) (head : NodeId) (document : Document) (kind : HiddenKind)
    (id : NodeId) : Prop where
  isMember : id ∈ nodes.ofKind head kind
  isAttached : document.isAttached id = true
  isNamed : document.isNamed id kind.name = true
  owned : kind = .paragraph →
    ∀ run ∈ document.descendantsNamed id Word.Name.run, run ∈ nodes.runs

/-- The flags that are demanded of the nodes of a section. -/
def demands (nodes : SectionNodes) (head : NodeId) (document : Document) : Demands :=
  fun id path => ∃ kind, nodes.Hidden head document kind id ∧ path = kind.flag

/-- The nodes of a section are in the store and have the names of their kinds. Only the paragraph that
the section was merged into may be something else. -/
structure Sorted (nodes : SectionNodes) (head : NodeId) (document : Document) : Prop where
  inStore : ∀ kind, ∀ id ∈ nodes.ofKind head kind, id.index < document.size
  named : ∀ kind, kind ≠ .paragraph → ∀ id ∈ nodes.ofKind head kind,
    document.isNamed id kind.name = true

end SectionNodes

namespace Edit

open Outcome SectionNodes

variable {nodes : SectionNodes} {head id : NodeId} {document before middle after : Document}
  {kind : HiddenKind} {demands : Demands}

section Visiting

variable {edit : Edit Unit} (wellFormed : before.WellFormed) (sorted : nodes.Sorted head before)
  (grows : Grows (nodes.demands head before) before middle) (isMember : id ∈ nodes.ofKind head kind)
include grows

include wellFormed sorted isMember

end Visiting

end Edit

/-! ## What hiding a section does -/

namespace SectionNodes

variable {nodes : SectionNodes} {head id child : NodeId} {before after : Document} {kind : HiddenKind}
  {order : List NodeId}

end SectionNodes

namespace Edit

variable {nodes : SectionNodes} {head : NodeId} {before : Document}

end Edit

end WordTemplate
