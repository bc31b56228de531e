import WordTemplate.Container.Loop
import WordTemplate.Container.Sections
import WordTemplate.Leaf.Link
import WordTemplate.Leaf.Picture
import WordTemplate.Leaf.RawMarkup
import WordTemplate.Leaf.Text

/-!
# Standard plugins

One plugin for each content type.
-/

namespace WordTemplate.Plugin

/-- The plugins used unless others are chosen. -/
def standard (style : HidingStyle) : List Plugin :=
  [text, rawXml, link, image, loop, tableLoop, sections style]

end WordTemplate.Plugin
