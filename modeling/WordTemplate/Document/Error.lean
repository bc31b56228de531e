import WordTemplate.Document.Node
import WordTemplate.Markup.Error

/-!
# Faults of document operations

An operation on a document fails because markup cannot be read or because nodes do not stand as
the operation needs them to.
-/

namespace WordTemplate

/-- Why an operation on a document fails. -/
inductive DocumentError where
  | unreadable (cause : Markup.ReadError)
  | missingRoot
  | notText (node : NodeId)
  | detached (node : NodeId)
  | cycle (node parent : NodeId)
  | notSiblings (first last : NodeId)
  | invalidOffset (node : NodeId) (offset : Nat)
  | notInParagraph (node paragraph : NodeId)
  | notInRange (start stop : NodeId)
deriving DecidableEq

namespace DocumentError

/-- The wording of a fault, with nodes named by `label`. -/
def messageWith (label : NodeId → String) : DocumentError → String
  | unreadable cause => cause.message
  | missingRoot => "Markup has no root element"
  | notText node => "Node " ++ label node ++ " is not a text node"
  | detached node => "Node " ++ label node ++ " is not attached to a parent"
  | cycle node parent =>
      "Inserting node " ++ label node ++ " under " ++ label parent ++ " would create a cycle"
  | notSiblings first last =>
      "Nodes " ++ label first ++ " and " ++ label last ++ " are not ordered siblings"
  | invalidOffset node offset =>
      "Offset " ++ Text.decimalText offset ++ " is not a character boundary of text node " ++
        label node
  | notInParagraph node paragraph =>
      "Node " ++ label node ++ " is not inside paragraph " ++ label paragraph
  | notInRange start stop =>
      "Text node " ++ label stop ++ " does not follow text node " ++ label start

/-- The wording of a fault. -/
def message (error : DocumentError) : String := error.messageWith NodeId.label

end DocumentError

end WordTemplate
