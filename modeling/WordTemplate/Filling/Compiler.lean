import WordTemplate.Filling.Plugin

/-!
# Compiling templates

The tags of a template are filled from left to right, each by the plugin of its content type. An
opening tag takes the tags up to the next closing tag of the same name with it. The name of a tag
is on the scope path while the tag is being filled.
-/

namespace WordTemplate

/-- Settings that do not depend on the plugins. -/
structure CompilerOptions where
  /-- Whether tags without a name stay as they are. -/
  skipEmptyTags : Bool := false
  /-- The content type of leaves whose data declares none. -/
  leafType : ContentType := .text
  loopType : ContentType := .loop
  tableLoopType : ContentType := .tableLoop
  sectionsType : ContentType := .sections
  /-- The number of element levels that are searched for tags. -/
  maxDepth : Nat := 20

/-- A set of plugins with the settings for using them. -/
structure Compiler where
  delimiters : Delimiters
  plugins : List Plugin
  options : CompilerOptions

namespace Compiler

/-- A compiler with usable settings. -/
def create (delimiters : Delimiters) (plugins : List Plugin) (options : CompilerOptions) :
    Except TemplateError Compiler := do
  delimiters.validate
  if options.maxDepth = 0 then
    throw (.config .zeroDepth)
  return { delimiters, plugins, options }

/-- The plugin for a content type; of several the last one counts. -/
def plugin? (compiler : Compiler) (contentType : ContentType) : Option Plugin :=
  compiler.plugins.reverse.find? (·.contentType == contentType)

/-- The content type of a container. -/
def containerType (options : CompilerOptions) : Container → ContentType
  | .loop => options.loopType
  | .tableLoop => options.tableLoopType
  | .sections => options.sectionsType

/-- The content type of a tag. A leaf has the type that the value bound to it declares, and every
closing tag counts as that of a loop. -/
def contentTypeOf (compiler : Compiler) (context : Context) (tag : Tag) : Work ContentType := do
  match tag.kind with
  | .opening container => return containerType compiler.options container
  | .closing => return compiler.options.loopType
  | .leaf =>
      match (← context.boundValue?).bind ContentType.declaredBy with
      | none => return compiler.options.leafType
      | some (.ok contentType) => return contentType
      | some (.error declared) =>
          throw (.unknownContentType declared tag.rawText (← Work.pathText))

/-- The plugin for a tag. -/
def pluginFor (compiler : Compiler) (context : Context) (tag : Tag) : Work Plugin := do
  let contentType ← compiler.contentTypeOf context tag
  match compiler.plugin? contentType with
  | none => throw (.unknownContentType contentType.name tag.rawText (← Work.pathText))
  | some plugin =>
      Work.note .trace
        ("Tag '" ++ tag.rawText ++ "' at '" ++ (← Work.pathText) ++ "' resolved to " ++
          contentType.name)
      return plugin

/-- The tags before the first closing tag with the given name, that tag, and the tags after it. -/
def splitAtClosing? (name : String) : List Tag → Option (List Tag × Tag × List Tag)
  | [] => none
  | tag :: rest =>
      if tag.kind = .closing ∧ tag.name = name then some ([], tag, rest)
      else
        (splitAtClosing? name rest).map fun (inner, closing, after) =>
          (tag :: inner, closing, after)

/-- A split at a closing tag loses no tag. -/
theorem append_eq_of_splitAtClosing? {name : String} {tags inner after : List Tag} {closing : Tag}
    (split : splitAtClosing? name tags = some (inner, closing, after)) :
    inner ++ closing :: after = tags := by
  induction tags generalizing inner with
  | nil => simp [splitAtClosing?] at split
  | cons tag rest ih =>
    simp only [splitAtClosing?] at split
    split at split
    · simp_all
    · simp only [Option.map_eq_some_iff, Prod.exists, Prod.mk.injEq] at split
      rcases split with ⟨inner', closing', after', found, rfl, rfl, rfl⟩
      simp [ih found]

/-- Announces how many tags are going to be filled. -/
def announce (context : Context) (tags : List Tag) : Work Unit := do
  Work.note .debug
    ("Compiling " ++ Text.decimalText tags.length ++ " tag(s) of part '" ++ context.part ++
      "' at scope '" ++ (← Work.pathText) ++ "'")

/-- Fills tags from left to right. -/
def fillTags (compiler : Compiler) (context : Context) : List Tag → Work Unit
  | [] => pure ()
  | tag :: rest =>
      if tag.name.isEmpty && compiler.options.skipEmptyTags then do
        Edit.setText tag.textNode tag.rawText
        fillTags compiler context rest
      else
        match tag.kind with
        | .leaf => do
            Work.withPart (.key tag.name) do
              let plugin ← compiler.pluginFor context tag
              Work.dispatch tag
              plugin.replaceLeaf context tag
            fillTags compiler context rest
        | .closing => do
            Work.withPart (.key tag.name) do
              discard (compiler.pluginFor context tag)
              Work.note .warn
                ("Ignoring close tag '" ++ tag.rawText ++ "' without a matching open tag")
            fillTags compiler context rest
        | .opening _ =>
            match _split : splitAtClosing? tag.name rest with
            | none =>
                Work.withPart (.key tag.name) do
                  discard (compiler.pluginFor context tag)
                  throw (.unclosedTag tag.name)
            | some (inner, closing, after) => do
                Work.withPart (.key tag.name) do
                  (← compiler.pluginFor context tag).replaceRegion context ⟨tag, inner, closing⟩
                    fun tags _fits => do
                      announce context tags
                      fillTags compiler context tags
                fillTags compiler context after
termination_by tags => tags.length
decreasing_by
  all_goals simp_wf
  all_goals
    have lengths := congrArg List.length (append_eq_of_splitAtClosing? _split)
    simp only [List.length_append, List.length_cons] at lengths
  · have fits : tags.length ≤ inner.length := _fits
    omega
  · omega

/-- Fills tags that were taken out of the document of the workspace. -/
def compileTags (compiler : Compiler) (context : Context) (tags : List Tag) : Work Unit := do
  announce context tags
  compiler.fillTags context tags

/-- What is noted about the elements that a scan skipped. -/
def skipNotes (compiler : Compiler) (scan : Scan) : List Note :=
  scan.skipped.map fun name =>
    ⟨.trace, "Skipping '" ++ name ++ "' below the maximum scan depth " ++
      Text.decimalText compiler.options.maxDepth⟩

/-- Takes the tags below `root` out of the document. -/
def takeTags (compiler : Compiler) (root : NodeId) : Work (List Tag) := do
  let scan := Scan.run compiler.delimiters compiler.options.maxDepth (← get).document root
  Work.noteAll (compiler.skipNotes scan)
  Extraction.takeTags compiler.delimiters scan.marks

/-- Fills the tags below `root`. -/
def compile (compiler : Compiler) (context : Context) (root : NodeId) : Work Unit := do
  compiler.compileTags context (← compiler.takeTags root)

end Compiler

end WordTemplate
