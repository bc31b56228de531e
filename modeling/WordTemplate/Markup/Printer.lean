import WordTemplate.Document.Tree
import WordTemplate.Markup.Escape

/-!
# Writing markup

An element without children is written as one empty tag. Markup that was kept as written is
written back unchanged.
-/

namespace WordTemplate

/-- An attribute as it is written, with the space before it. -/
def Attribute.written (item : Attribute) : List Char :=
  ' ' :: (item.key.toList ++ '=' :: '"' :: (Markup.escapeValue item.value ++ ['"']))

/-- The start of a tag up to its last attribute. -/
def Element.tagStart (element : Element) : List Char :=
  '<' :: (element.name.toList ++ element.attributes.flatMap Attribute.written)

mutual

/-- The characters that a tree is written as. -/
def Tree.written : Tree → List Char
  | .text characters => Markup.escapeText characters
  | .markup raw => raw.toList
  | .element held [] => held.tagStart ++ ['/', '>']
  | .element held (first :: rest) =>
      held.tagStart ++ '>' :: (first.written ++ writtenAll rest) ++
        '<' :: '/' :: (held.name.toList ++ ['>'])

/-- The characters that trees are written as, one after the other. -/
def writtenAll : List Tree → List Char
  | [] => []
  | first :: rest => first.written ++ writtenAll rest

end

namespace Document

/-- The markup of a node with everything below it. -/
def nodeMarkup (document : Document) (id : NodeId) : String :=
  String.ofList (document.tree id).written

/-- The markup of the whole document. -/
def toMarkup (document : Document) : String :=
  document.prolog.getD "" ++ document.nodeMarkup document.root

end Document

end WordTemplate
