import WordTemplate.Filling.Compiler
import WordTemplate.Proofs.Outcome

/-!
# Working in a workspace

Most work returns to the scope path that it started with and asks no plugin to replace a leaf. Notes
and lookups leave the document alone as well.
-/

namespace WordTemplate

/-- Work went on and returned to the same scope path without the replacement of a leaf. -/
structure Workspace.Resumes (before after : Workspace) : Prop where
  path_eq : after.path = before.path
  dispatches_eq : after.dispatches = before.dispatches

/-- Nothing but the resources and the journal changed. -/
structure Workspace.Idles (before after : Workspace) : Prop extends before.Resumes after where
  document_eq : after.document = before.document

namespace Workspace

variable {before middle after : Workspace}

theorem Resumes.trans (first : before.Resumes middle) (second : middle.Resumes after) :
    before.Resumes after :=
  ⟨second.path_eq.trans first.path_eq, second.dispatches_eq.trans first.dispatches_eq⟩

theorem Idles.refl (workspace : Workspace) : workspace.Idles workspace := ⟨⟨rfl, rfl⟩, rfl⟩

theorem Idles.trans (first : before.Idles middle) (second : middle.Idles after) :
    before.Idles after :=
  ⟨first.toResumes.trans second.toResumes, second.document_eq.trans first.document_eq⟩

theorem resumes_of_edit (workspace : Workspace) (document : Document) :
    workspace.Resumes { workspace with document } := ⟨rfl, rfl⟩

end Workspace

namespace Work

open Outcome

variable {α β : Type} {workspace workspace' : Workspace} {result : Unit}

theorem idles_of_note {level : Level} {text : String}
    (done : note level text workspace = .ok result workspace') : workspace.Idles workspace' := by
  rw [note, modify_eq_ok] at done
  exact done ▸ ⟨⟨rfl, rfl⟩, rfl⟩

theorem idles_of_noteAll {notes : List Note}
    (done : noteAll notes workspace = .ok result workspace') : workspace.Idles workspace' :=
  forM_invariant workspace.Idles
    (fun _ _ _ _ idles noted => idles.trans (idles_of_note noted)) (.refl workspace) done

@[simp]
theorem pathText_eq_ok {text : String} :
    pathText workspace = .ok text workspace' ↔
      text = workspace.path.text ∧ workspace = workspace' := by
  rw [pathText, get_bind, pure_eq_ok]
  exact and_congr_left' eq_comm

/-- Work that returns to its scope path, with one more step on the path. -/
theorem withPart_eq_ok {part : PathPart} {work : Work α} {a : α} :
    withPart part work workspace = .ok a workspace' ↔
      ∃ inner, work { workspace with path := workspace.path.enter part } = .ok a inner ∧
        workspace' = { inner with path := inner.path.leave workspace.path } := by
  rw [withPart]
  rcases work { workspace with path := workspace.path.enter part } with
    ⟨b, inner⟩ | ⟨cause, inner⟩
  · constructor
    · rintro ⟨⟩
      exact ⟨inner, rfl, rfl⟩
    · rintro ⟨inner, ⟨⟩, rfl⟩
      rfl
  · simp

theorem thenAlways_eq_ok {work : Work α} {finish : Work β} {b : β} :
    thenAlways work finish workspace = .ok b workspace' ↔
      ∃ a middle, work workspace = .ok a middle ∧ finish middle = .ok b workspace' := by
  rw [thenAlways]
  rcases work workspace with ⟨a, middle⟩ | ⟨cause, middle⟩
  · constructor
    · exact fun done => ⟨a, middle, rfl, done⟩
    · rintro ⟨a, middle, ⟨⟩, done⟩
      exact done
  · rcases failed : finish middle with ⟨b, last⟩ | ⟨other, last⟩ <;> simp [failed]

end Work

theorem ScopePath.leave_enter (path : ScopePath) (part : PathPart) :
    (path.enter part).leave path = path := by
  simp [enter, leave]

/-- The value bound to a path. -/
def Context.valueAt (context : Context) (path : ScopePath) : Option Data.Value :=
  context.resolver path context.data

/-- Looking up the bound value hands it on to what follows. -/
theorem Context.boundValue?_bind {α : Type} {context : Context}
    {next : Option Data.Value → Work α} {workspace : Workspace} :
    (context.boundValue? >>= next) workspace = next (context.valueAt workspace.path) workspace := rfl

@[simp]
theorem Context.boundValue?_eq_ok {context : Context} {value : Option Data.Value}
    {workspace workspace' : Workspace} :
    context.boundValue? workspace = .ok value workspace' ↔
      value = context.valueAt workspace.path ∧ workspace = workspace' := by
  rw [boundValue?, Outcome.get_bind, Outcome.pure_eq_ok]
  exact and_congr_left' eq_comm

/-- Services that succeed leave the document, the scope path and the dispatches alone. -/
structure Services.Idle (services : Services) : Prop where
  addRelationship : ∀ {part target kind external id} {before after : Workspace},
    services.addRelationship part target kind external before = .ok id after → before.Idles after
  addMedia : ∀ {bytes extension path} {before after : Workspace},
    services.addMedia bytes extension before = .ok path after → before.Idles after

open Outcome in
theorem Services.idle_recording : Services.recording.Idle where
  addRelationship := by
    intro part target kind external id before after done
    simp only [recording, recordRelationship, get_bind, bind_eq_ok, modify_eq_ok, pure_eq_ok] at done
    rcases done with ⟨⟨⟩, recorded, rfl, ⟨⟩, noted, noteDone, -, rfl⟩
    have noted := Work.idles_of_note noteDone
    exact ⟨⟨noted.path_eq, noted.dispatches_eq⟩, noted.document_eq⟩
  addMedia := by
    intro bytes extension path before after done
    simp only [recording, recordMedia, get_bind, bind_eq_ok, modify_eq_ok, pure_eq_ok] at done
    rcases done with ⟨⟨⟩, noted, noteDone, ⟨⟩, recorded, rfl, -, rfl⟩
    exact (Work.idles_of_note noteDone).trans ⟨⟨rfl, rfl⟩, rfl⟩

namespace Compiler

open Outcome

variable {compiler : Compiler} {context : Context} {workspace workspace' : Workspace} {tag : Tag}

theorem contentTypeOf_eq_ok {contentType : ContentType}
    (done : compiler.contentTypeOf context tag workspace = .ok contentType workspace') :
    workspace = workspace' ∧ ∀ container, tag.kind = .opening container →
      contentType = containerType compiler.options container := by
  rw [contentTypeOf] at done
  rcases kind : tag.kind with _ | container | _
  · simp only [kind, bind_eq_ok, Context.boundValue?_eq_ok] at done
    rcases done with ⟨value, middle, ⟨rfl, rfl⟩, done⟩
    rcases declared : (context.valueAt workspace.path).bind ContentType.declaredBy with
      _ | _ | contentType
    · simp only [declared, pure_eq_ok] at done
      exact ⟨done.2, by simp⟩
    · simp only [declared, bind_eq_ok, throw_ne_ok, and_false, exists_false] at done
    · simp only [declared, pure_eq_ok] at done
      exact ⟨done.2, by simp⟩
  · simp only [kind, pure_eq_ok] at done
    refine ⟨done.2, ?_⟩
    rintro other ⟨⟩
    exact done.1.symm
  · simp only [kind, pure_eq_ok] at done
    exact ⟨done.2, by simp⟩

theorem idles_of_pluginFor {plugin : Plugin}
    (done : compiler.pluginFor context tag workspace = .ok plugin workspace') :
    workspace.Idles workspace' ∧ ∃ contentType, compiler.plugin? contentType = some plugin ∧
      ∀ container, tag.kind = .opening container →
        contentType = containerType compiler.options container := by
  simp only [pluginFor, bind_eq_ok] at done
  rcases done with ⟨contentType, middle, typeDone, done⟩
  rcases contentTypeOf_eq_ok typeDone with ⟨rfl, isContainer⟩
  rcases found : compiler.plugin? contentType with _ | plugin'
  · simp only [found, bind_eq_ok, throw_ne_ok, and_false, exists_false] at done
  · simp only [found, bind_eq_ok, Work.pathText_eq_ok, pure_eq_ok] at done
    rcases done with ⟨text, _, ⟨-, rfl⟩, ⟨⟩, noted, noteDone, rfl, rfl⟩
    exact ⟨Work.idles_of_note noteDone, contentType, found, isContainer⟩

theorem idles_of_announce {tags : List Tag} {result : Unit}
    (done : announce context tags workspace = .ok result workspace') :
    workspace.Idles workspace' := by
  simp only [announce, bind_eq_ok, Work.pathText_eq_ok] at done
  rcases done with ⟨text, _, ⟨-, rfl⟩, noteDone⟩
  exact Work.idles_of_note noteDone

end Compiler

end WordTemplate
