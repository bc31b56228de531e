import WordTemplate.Data.Record
import WordTemplate.Document.Plant
import WordTemplate.Filling.Plugin
import WordTemplate.Text.Base64

/-!
# Pictures

A tag is replaced by an inline picture. The image is stored as a media file of the package, and
every picture of a document has a number of its own.
-/

namespace WordTemplate

/-- A picture with its measures in pixels. -/
structure Picture where
  /-- The image in base64, plain or as a data URL. -/
  source : String
  /-- A media type or the extension of a file name. -/
  format : String
  width : Float
  height : Float
  altText : Option String
  transparencyPercent : Option Float

namespace Picture

/-- Reads the record of a picture. -/
def ofValue? (value : Data.Value) : Option Picture := do
  let [source, format, width, height, altText, transparencyPercent] ←
    Data.recordFields?
      ["source", "format", "width", "height", "altText", "transparencyPercent"] value | none
  return {
    source := ← Data.required Data.Value.string? source
    format := ← Data.required Data.Value.string? format
    width := ← Data.required Data.Value.float? width
    height := ← Data.required Data.Value.float? height
    altText := ← Data.optional Data.Value.string? altText
    transparencyPercent := ← Data.optional Data.Value.float? transparencyPercent }

/-- The extension of the media file: the last part of the format in lower case, without the marks of
XML formats. -/
def extension (picture : Picture) : String :=
  let format := Text.lowerAscii (Text.trim picture.format)
  String.ofList (Text.dropTails "+xml".toList (Text.lastPiece '/' format.toList))

/-- The base64 text of the image. In a data URL it follows the first comma. -/
def payload (picture : Picture) : List Char :=
  match Text.afterLead? "data:" picture.source with
  | some url =>
      match Text.splitText? "," url with
      | some (_, encoded) => encoded.toList
      | none => url.toList
  | none => picture.source.toList

/-- The bytes of the image. Blanks in its base64 text do not count. -/
def decode? (picture : Picture) : Option (List UInt8) :=
  Text.decodeBase64? (picture.payload.filter fun char => !Text.isAsciiBlank char)

/-- A floating-point number rounded to the nearest whole one, halves away from zero, and kept within
64 bits. -/
def roundedText (value : Float) : String :=
  Data.integerText value.round.toInt64.toInt

/-- A measure in English Metric Units, of which a pixel has 9525. -/
def measureText (pixels : Float) : String :=
  roundedText ((if 0.0 < pixels then pixels else 0.0) * 9525.0)

/-- The opacity that a transparency leaves, in thousandths of a percent. -/
def opacityText (percent : Float) : String :=
  let percent := if percent < 0.0 then 0.0 else if 100.0 < percent then 100.0 else percent
  roundedText ((100.0 - percent) * 1000.0)

/-- The drawing of a picture with the given number, whose image is found by a relationship. -/
def drawing (picture : Picture) (relationshipId : String) (number : Nat) : Tree :=
  let main := "http://schemas.openxmlformats.org/drawingml/2006/main"
  let pictures := "http://schemas.openxmlformats.org/drawingml/2006/picture"
  let width := measureText picture.width
  let height := measureText picture.height
  let name := "Picture " ++ Text.decimalText number
  let description := picture.altText.getD ""
  let opacity := picture.transparencyPercent.map fun percent =>
    .node "a:alphaModFix" [("amt", opacityText percent)] []
  .node Word.Name.drawing [] [
    .node "wp:inline" [("distT", "0"), ("distB", "0"), ("distL", "0"), ("distR", "0")] [
      .node "wp:extent" [("cx", width), ("cy", height)] [],
      .node "wp:effectExtent" [("l", "0"), ("t", "0"), ("r", "0"), ("b", "0")] [],
      .node Word.Name.drawingProperties
        [("id", Text.decimalText number), ("name", name), ("descr", description)] [],
      .node "wp:cNvGraphicFramePr" [] [
        .node "a:graphicFrameLocks" [("xmlns:a", main), ("noChangeAspect", "1")] []],
      .node "a:graphic" [("xmlns:a", main)] [
        .node "a:graphicData" [("uri", pictures)] [
          .node "pic:pic" [("xmlns:pic", pictures)] [
            .node "pic:nvPicPr" [] [
              .node "pic:cNvPr" [("id", "0"), ("name", name), ("descr", description)] [],
              .node "pic:cNvPicPr" [] []],
            .node "pic:blipFill" [] [
              .node "a:blip" [("r:embed", relationshipId)] opacity.toList,
              .node "a:stretch" [] [.node "a:fillRect" [] []]],
            .node "pic:spPr" [] [
              .node "a:xfrm" [] [
                .node "a:off" [("x", "0"), ("y", "0")] [],
                .node "a:ext" [("cx", width), ("cy", height)] []],
              .node "a:prstGeom" [("prst", "rect")] [.node "a:avLst" [] []]]]]]]]

end Picture

namespace Document

/-- The number of a drawing, if a node is the properties of one. -/
def pictureNumber? (document : Document) (id : NodeId) : Option Nat :=
  if document.isNamed id Word.Name.drawingProperties then
    (document.attribute? id "id").bind fun number =>
      Text.readUnsigned? 10 UInt32.size number.toList
  else
    none

/-- The next number above those of all drawings in the store, unless it needs more than 32 bits.
Detached drawings count as well, since they may return to the tree. -/
def nextPictureNumber? (document : Document) : Option Nat :=
  let next := (document.ids.filterMap document.pictureNumber?).foldl max 0 + 1
  if next < UInt32.size then some next else none

end Document

namespace Leaf

/-- The picture and the bytes of its image that are bound to a tag. -/
def boundPicture? (context : Context) (tag : Tag) : Work (Option (Picture × List UInt8)) := do
  match ← context.boundValue? with
  | none => return none
  | some value =>
      match Picture.ofValue? value with
      | none =>
          Work.note .warn ("Image '" ++ tag.name ++ "' has invalid data (...); removing the tag")
          return none
      | some picture =>
          match picture.decode? with
          | some bytes => return some (picture, bytes)
          | none =>
              Work.note .warn
                ("Image '" ++ tag.name ++ "' is not valid base64 (...); removing the tag")
              return none

/-- Stores the image of a picture and returns the drawing that shows it. -/
def storePicture (context : Context) (tag : Tag) (picture : Picture) (bytes : List UInt8) :
    Work Tree := do
  let path ← context.services.addMedia bytes picture.extension
  let relationshipId ← context.services.addRelationship context.part path .image false
  match (← get).document.nextPictureNumber? with
  | none => throw .picturesExhausted
  | some number =>
      Work.note .debug
        ("Image '" ++ tag.name ++ "' stored as " ++ path ++ " (" ++ relationshipId ++
          "), picture #" ++ Text.decimalText number)
      return picture.drawing relationshipId number

/-- Replaces a tag by a picture. -/
def replaceByPicture (context : Context) (tag : Tag) : Work Unit := do
  let bound ← boundPicture? context tag
  let document := (← get).document
  let carrier := document.textUnit tag.textNode
  match bound, document.run? tag.textNode with
  | none, _ => pure ()
  | some _, none =>
      Work.note .warn ("Image '" ++ tag.name ++ "' is not inside a run; removing the tag")
  | some (picture, bytes), some _ =>
      let drawing ← Edit.plant (← storePicture context tag picture bytes)
      Edit.insertBefore drawing carrier
  Edit.detach carrier

end Leaf

/-- The plugin that inserts pictures. -/
def Plugin.image : Plugin where
  contentType := .image
  replaceLeaf := Leaf.replaceByPicture

end WordTemplate
