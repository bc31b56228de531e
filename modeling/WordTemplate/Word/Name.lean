/-!
# Names of word-processing markup

The names of the elements and attributes that give a document part its structure.
-/

namespace WordTemplate.Word.Name

/-- The body of a document. -/
def body : String := "w:body"

/-- A paragraph. -/
def paragraph : String := "w:p"

/-- The properties of a paragraph. -/
def paragraphProperties : String := "w:pPr"

/-- A run of text with one formatting. -/
def run : String := "w:r"

/-- The properties of a run, and of the mark of a paragraph. -/
def runProperties : String := "w:rPr"

/-- The character style of a run. -/
def runStyle : String := "w:rStyle"

/-- An element that holds text. -/
def text : String := "w:t"

/-- A line break. -/
def lineBreak : String := "w:br"

/-- The numbering of a paragraph. -/
def numberingProperties : String := "w:numPr"

/-- A section break. -/
def sectionProperties : String := "w:sectPr"

/-- The recorded change of a paragraph's properties. -/
def paragraphPropertiesChange : String := "w:pPrChange"

/-- A table. -/
def table : String := "w:tbl"

/-- A row of a table. -/
def tableRow : String := "w:tr"

/-- The properties of a table row. -/
def tableRowProperties : String := "w:trPr"

/-- The exceptions of a table row from its table's properties. -/
def tablePropertyExceptions : String := "w:tblPrEx"

/-- A cell of a table row. -/
def tableCell : String := "w:tc"

/-- A content control. -/
def contentControl : String := "w:sdt"

/-- The properties of a content control. -/
def contentControlProperties : String := "w:sdtPr"

/-- The content of a content control. -/
def contentControlContent : String := "w:sdtContent"

/-- The definition of a checkbox. -/
def checkbox : String := "w14:checkbox"

/-- The current state of a checkbox. -/
def checked : String := "w14:checked"

/-- The symbol of a checkbox that is checked. -/
def checkedState : String := "w14:checkedState"

/-- The symbol of a checkbox that is not checked. -/
def uncheckedState : String := "w14:uncheckedState"

/-- The attribute that holds a state or symbol of a checkbox. -/
def checkboxValue : String := "w14:val"

/-- A hyperlink. -/
def hyperlink : String := "w:hyperlink"

/-- A drawing. -/
def drawing : String := "w:drawing"

/-- The properties of a drawing, which carry its number. -/
def drawingProperties : String := "wp:docPr"

/-- The start of a bookmark. -/
def bookmarkStart : String := "w:bookmarkStart"

/-- The end of a bookmark. -/
def bookmarkEnd : String := "w:bookmarkEnd"

/-- The attribute that pairs the ends of a bookmark. -/
def bookmarkId : String := "w:id"

/-- The attribute that names a bookmark. -/
def bookmarkName : String := "w:name"

/-- The flag that hides a run or the mark of a paragraph. -/
def vanish : String := "w:vanish"

/-- The flag that hides a table row. -/
def hidden : String := "w:hidden"

/-- The attribute that holds the value of a property. -/
def value : String := "w:val"

/-- The attribute that names a relationship. -/
def relationshipId : String := "r:id"

/-- The attribute that keeps spacing in text. -/
def space : String := "xml:space"

end WordTemplate.Word.Name
