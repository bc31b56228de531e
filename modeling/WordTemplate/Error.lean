import WordTemplate.ContentType
import WordTemplate.Document.Error

/-!
# Faults of templates

Why a template, its configuration or one of its parts cannot be used. Each fault is a value;
`TemplateError.message` gives its wording.
-/

namespace WordTemplate

/-- Why the option block of a tag cannot be read. -/
inductive OptionsError where
  | unterminated (marker : String)
  | unread (rest : String)
deriving DecidableEq

/-- The wording of a fault in an option block. -/
def OptionsError.message : OptionsError → String
  | unterminated marker => "option block is not terminated by '" ++ marker ++ "'"
  | unread rest => "Parser did not consume all input. Remainder: '" ++ rest ++ "'"

/-- Why a configuration is refused. -/
inductive ConfigError where
  | emptyDelimiter (field : String)
  | paddedDelimiter (field : String)
  | equalContainerDelimiters
  | zeroDepth
  /-- A refusal by a service or an extension. -/
  | refused (reason : String)
deriving DecidableEq

/-- The wording of a refused configuration. -/
def ConfigError.message : ConfigError → String
  | emptyDelimiter field => "delimiter '" ++ field ++ "' must not be empty"
  | paddedDelimiter field => "delimiter '" ++ field ++ "' must not start or end with whitespace"
  | equalContainerDelimiters => "containerTagOpen and containerTagClose must differ"
  | zeroDepth => "max_xml_depth must be positive"
  | refused reason => reason

/-- Why a container cannot be applied where its tags stand. -/
inductive PlacementError where
  | openOutsideParagraph
  | closeOutsideParagraph
  | openOutsideRow
  | closeOutsideRow
  | noLoopStrategy
  | noSectionStrategy
deriving DecidableEq

/-- The wording of a placement fault. -/
def PlacementError.message : PlacementError → String
  | openOutsideParagraph => "open tag is not inside a paragraph"
  | closeOutsideParagraph => "close tag is not inside a paragraph"
  | openOutsideRow => "open tag is not inside a table row"
  | closeOutsideRow => "close tag is not inside a table row"
  | noLoopStrategy => "no loop strategy applies to this location"
  | noSectionStrategy => "no section strategy applies to this location"

/-- Why a part cannot be loaded. -/
inductive PartError where
  | missing
  | unreadable (cause : DocumentError)
deriving DecidableEq

/-- The wording of a part fault inside a message that names the part. -/
def PartError.reason : PartError → String
  | missing => "part not found"
  | unreadable cause => cause.message

/-- The wording of a part fault by itself. -/
def PartError.message (part : String) : PartError → String
  | missing => "Part not found: " ++ part
  | unreadable cause => "Malformed part '" ++ part ++ "': " ++ cause.message

/-- Why a template cannot be scanned, read or compiled. -/
inductive TemplateError where
  | missingStart (text : String)
  | missingClose (text : String)
  | invalidOptions (rawText : String) (cause : OptionsError)
  | unclosedTag (name : String)
  | unknownContentType (contentType rawText path : String)
  | misplacedTag (rawText : String) (cause : PlacementError)
  | malformedPart (part : String) (cause : PartError)
  | config (cause : ConfigError)
  /-- No number is left for another picture. -/
  | picturesExhausted
  | document (cause : DocumentError)
deriving DecidableEq

namespace TemplateError

/-- The wording of a fault, with nodes named by `label`. -/
def messageWith (label : NodeId → String) : TemplateError → String
  | missingStart text => "Close delimiter without a matching open delimiter near '" ++ text ++ "'"
  | missingClose text => "Open delimiter without a matching close delimiter near '" ++ text ++ "'"
  | invalidOptions rawText cause =>
      "Invalid options in tag '" ++ rawText ++ "': " ++ cause.message
  | unclosedTag name => "Tag '" ++ name ++ "' is opened but never closed"
  | unknownContentType contentType rawText path =>
      "Content type '" ++ contentType ++ "' of tag '" ++ rawText ++ "' at '" ++ path ++
        "' has no registered plugin"
  | misplacedTag rawText cause =>
      "Tag '" ++ rawText ++ "' cannot be applied to this document structure: " ++ cause.message
  | malformedPart part cause => "Malformed part '" ++ part ++ "': " ++ cause.reason
  | config cause => "Invalid template configuration: " ++ cause.message
  | picturesExhausted => "No picture number is left"
  | document cause => "Document tree error: " ++ cause.messageWith label

/-- The wording of a fault. -/
def message (error : TemplateError) : String := error.messageWith NodeId.label

end TemplateError

end WordTemplate
