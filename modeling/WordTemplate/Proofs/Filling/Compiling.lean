import WordTemplate.Proofs.Filling.Dispatching
import WordTemplate.Proofs.Tag.Readiness

/-!
# Compiling dispatches the unrolled template

Compiling a document takes its tags out and fills them. The tags that were taken out stand in order
in the running text of the root, so that filling them dispatches the leaves of the template in the
order in which unrolling the tags lists them.
-/

namespace WordTemplate

open Outcome Document

namespace Compiler

variable {compiler : Compiler} {context : Context} {style : HidingStyle} {before after : Workspace}
  {root : NodeId} {tags : List Tag} {result : Unit}

/-- Taking the tags out of the document of a workspace changes nothing else in the workspace. -/
theorem takeTags_eq_ok (done : compiler.takeTags root before = .ok tags after) :
    Extraction.takeTags compiler.delimiters
        (Scan.run compiler.delimiters compiler.options.maxDepth before.document root).marks
        before.document = .ok tags after.document ∧
      before.Resumes after := by
  simp only [takeTags, get_bind, bind_eq_ok, extraction_eq_ok] at done
  rcases done with ⟨⟨⟩, noted, noteDone, taken, takeDone, rfl⟩
  have idles := Work.idles_of_noteAll noteDone
  rw [idles.document_eq] at takeDone
  exact ⟨takeDone, idles.toResumes.trans (Workspace.resumes_of_edit noted taken)⟩

/-- Pending tags are ready to be filled anywhere in a document. -/
theorem ready_of_pending {taken : Document} (wellFormed : taken.WellFormed)
    (pending : tags ≠ [] → taken.Pending [taken.root] (tags.map Tag.textNode)) :
    Ready (fun _ => True) 0 taken (tags.map Tag.textNode) where
  toChangesWithin := .refl wellFormed ⟨fun _ _ => trivial, fun _ => trivial, id⟩
  fresh _ _ := trivial
  low _ _ := Nat.zero_le _
  pending := by
    rcases eq_or_ne tags [] with rfl | nonempty
    · exact ⟨[], by simp, ⟨by simp, by simp, by simp, List.nodup_nil, List.nil_sublist _, by simp⟩⟩
    · have pending := pending nonempty
      exact ⟨[taken.root], fun top isTop => ⟨trivial, pending.inStore top isTop⟩, pending⟩

/-- The tags that were taken out of a document are ready to be filled anywhere in it. -/
theorem ready_of_takeTags {delimiters : Delimiters} {levels : Nat} {document taken : Document}
    (fillable : document.Fillable delimiters levels) (usable : delimiters.validate = .ok ())
    (done : Extraction.takeTags delimiters
      (Scan.run delimiters levels document document.root).marks document = .ok tags taken) :
    Ready (fun _ => True) 0 taken (tags.map Tag.textNode) :=
  have intact : Intact True document taken := Extraction.intact_of_takeTags fillable.wellFormed done
  ready_of_pending intact.wellFormed (Extraction.pending_of_takeTags fillable usable done)

/-- **Compiling dispatches the unrolled template.** The leaves of the tags of a document are
dispatched in the order and with the scope paths that unrolling the tags lists, none of them dropped
or repeated, and the scope path is the one from before at the end. -/
theorem dispatches_of_compile (isStandard : compiler.plugins = Plugin.standard style)
    (fillsEmpty : compiler.options.skipEmptyTags = false)
    (usable : compiler.delimiters.validate = .ok ()) (services : context.services.Idle)
    (fillable : before.document.Fillable compiler.delimiters compiler.options.maxDepth)
    (done : compiler.compile context before.document.root before = .ok result after) :
    ∃ tags taken,
      Extraction.takeTags compiler.delimiters (Scan.run compiler.delimiters
        compiler.options.maxDepth before.document before.document.root).marks before.document =
          .ok tags taken ∧
      after.path = before.path ∧
      after.dispatches.toList =
        before.dispatches.toList ++ compiler.unroll context before.path tags := by
  simp only [compile, compileTags, bind_eq_ok] at done
  rcases done with ⟨tags, taken, takeDone, ⟨⟩, announced, announceDone, fillDone⟩
  rcases takeTags_eq_ok takeDone with ⟨takeDone, resumes⟩
  have idles := idles_of_announce announceDone
  have ready := ready_of_takeTags fillable usable takeDone
  have advances := advances_of_fillTags isStandard fillsEmpty services tags
    (idles.document_eq ▸ ready) fillDone
  have resumes := resumes.trans idles.toResumes
  rw [resumes.path_eq] at advances
  exact ⟨tags, taken.document, takeDone, advances.path_eq.trans resumes.path_eq,
    by rw [advances.dispatches_eq, resumes.dispatches_eq]⟩

/-- Properties without text hold no text of a tag. -/
theorem shown_of_emptyProperties {document : Document} {delimiters : Delimiters} {levels : Nat}
    (wellFormed : document.WellFormed)
    (empty : ∀ index, index < document.size → document.isProperties ⟨index⟩ = true →
      document.texts ⟨index⟩ = []) :
    ∀ text, document.HoldsTagText delimiters levels text →
      ∀ properties, document.isProperties properties = true → ¬document.LiesIn properties text := by
  intro text holds properties isProperties inside
  have inStore : properties.index < document.size := by
    rcases isName : document.name? properties with _ | name
    · simp [Document.isProperties, isName] at isProperties
    · exact lt_size_of_name? isName
  have isText := ((mem_texts_iff wellFormed).mp holds.mem_texts).2
  have isMember := (mem_texts_iff wellFormed).mpr ⟨inside, isText⟩
  rw [empty properties.index inStore isProperties] at isMember
  cases isMember

/-- What compiling a document dispatches, beside what unrolling its tags lists. -/
def traces (compiler : Compiler) (context : Context) (document : Document) :
    Except TemplateError (List Dispatch × List Dispatch) := do
  match Extraction.takeTags compiler.delimiters (Scan.run compiler.delimiters
      compiler.options.maxDepth document document.root).marks document with
  | .error cause _ => throw cause
  | .ok tags _ =>
      match compiler.compile context document.root { document } with
      | .error cause _ => throw cause
      | .ok _ after => return (after.dispatches.toList, compiler.unroll context [] tags)

/-- A compiler with the settings that are used when none are given. -/
def plain : Compiler := ⟨.standard, Plugin.standard .vanishRuns, {}⟩

/-- Two paragraphs with a loop around them and another loop within it. -/
def nestedLoops : Document :=
  let paragraph (characters : String) :=
    Tree.node "w:p" [] [Tree.node "w:pPr" [] [],
      Tree.node "w:r" [] [Tree.node "w:t" [] [.text characters]]]
  .ofTree (Tree.node "w:body" []
    [paragraph "\x7b#a\x7d\x7b#b\x7d\x7by\x7d", paragraph "\x7b/b\x7d\x7b/a\x7d"])

/-- Data for one repetition of the outer loop and two of the inner one. -/
def nestedData : Context where
  part := "word/document.xml"
  data := .object
    [("a", .array [.object [("b", .array [.null, .null])]])]

theorem fillable_nestedLoops : nestedLoops.Fillable .standard 20 := by
  have wellFormed : nestedLoops.WellFormed := wellFormed_ofTree _
  have single : ∀ element ∈ nestedLoops.subtree nestedLoops.root,
      nestedLoops.isNamed element Word.Name.text = true →
        ∃ text ∈ nestedLoops.children element, nestedLoops.texts element = [text] := by
    decide +kernel
  refine ⟨wellFormed, ⟨_, rfl⟩, by decide +kernel, by decide +kernel, ?_, ?_⟩
  · intro element inside named
    exact single element ((mem_subtree_iff wellFormed).mpr inside) named
  · exact shown_of_emptyProperties wellFormed (by decide +kernel)

theorem dispatches_of_compile_nestedLoops :
    ∃ after, plain.compile nestedData nestedLoops.root { document := nestedLoops } = .ok ⟨⟩ after ∧
      after.dispatches.toList.map (·.path.text) =
        ["a.0.b.0.y", "a.0.b.1.y"] ∧
      ∃ tags taken,
        Extraction.takeTags .standard (Scan.run .standard 20 nestedLoops nestedLoops.root).marks
          nestedLoops = .ok tags taken ∧ after.path = [] ∧
        after.dispatches.toList = [] ++ plain.unroll nestedData [] tags := by
  have paths : (plain.traces nestedData nestedLoops).map (·.1.map (·.path.text)) =
      .ok ["a.0.b.0.y", "a.0.b.1.y"] := by decide +kernel
  rw [traces] at paths
  split at paths
  · cases paths
  · split at paths
    · cases paths
    · next after done =>
        have usable : Delimiters.standard.validate = .ok () := by decide +kernel
        exact ⟨after, done, Except.ok.inj paths, @dispatches_of_compile plain nestedData .vanishRuns
          { document := nestedLoops } after ⟨⟩ rfl rfl usable Services.idle_recording
          fillable_nestedLoops done⟩

/-- Two paragraphs with a loop around them. The text element in which the loop begins holds another
element with the tag inside the loop. -/
def textBesideText : Document :=
  let paragraph (held : List Tree) := Tree.node "w:p" [] [Tree.node "w:r" [] [Tree.node "w:t" [] held]]
  .ofTree (Tree.node "w:body" []
    [paragraph [.text "\x7b#a\x7d", Tree.node "w:x" [] [.text "\x7bn\x7d"]],
      paragraph [.text "\x7b/a\x7d"]])

/-- Data for one repetition of the loop. -/
def onceData : Context where
  part := "word/document.xml"
  data := .object [("a", .array [.object [("n", .string "1")]])]

/-- One text child in each text element is not enough: cutting a paragraph behind the tag that opens
a loop loses what stands beside the text of the tag. -/
theorem traces_textBesideText :
    Extraction.SingleTexts 20 textBesideText ∧
      (∀ text, textBesideText.HoldsTagText .standard 20 text →
        ∀ properties, textBesideText.isProperties properties = true →
          ¬textBesideText.LiesIn properties text) ∧
      plain.traces onceData textBesideText =
        .ok ([], [⟨"n", "\x7bn\x7d", [.key "a", .index 0, .key "n"]⟩]) :=
  ⟨by decide +kernel, shown_of_emptyProperties (wellFormed_ofTree _) (by decide +kernel),
    by decide +kernel⟩

end Compiler

end WordTemplate
