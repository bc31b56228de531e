import WordTemplate.Proofs.Container.References
import WordTemplate.Proofs.Filling.Working
import WordTemplate.Proofs.Leaf.References
import WordTemplate.Proofs.Package.Numbering

/-!
# Ledgers

What is filled depends on the document, the scope path and the data alone. The resources of the
package only grow, by the relationships and media files that links and pictures ask for, and of them
only the ids of relationships come back into the document.

A ledger says what is to hold between the resources of two runs and of the references in their
documents. Two runs of the same work that start with the same document and the same scope path, and
with resources that the ledger relates, go through the same documents, come to the same results or
faults, and return to the scope path that they started with. With one run in place of two this says
what every run keeps.
-/

namespace WordTemplate

/-! ## Two outcomes -/

/-- Two actions had the same result or the same fault, and something holds of the states in which
they ended. -/
inductive Together {ε σ α : Type} (holds : α → σ → σ → Prop) (failed : σ → σ → Prop) :
    EStateM.Result ε σ α → EStateM.Result ε σ α → Prop where
  | ok {value : α} {first second : σ} (ends : holds value first second) :
      Together holds failed (.ok value first) (.ok value second)
  | error {cause : ε} {first second : σ} (ends : failed first second) :
      Together holds failed (.error cause first) (.error cause second)

namespace Together

variable {ε σ α β : Type} {holds : α → σ → σ → Prop} {later : β → σ → σ → Prop}
  {failed : σ → σ → Prop} {first second : σ}

/-- Two sequences end together if their first parts do and what follows does. -/
theorem bind {action : EStateM ε σ α} {next : α → EStateM ε σ β}
    (together : Together holds failed (action first) (action second))
    (each : ∀ value middle middle', holds value middle middle' →
      Together later failed (next value middle) (next value middle')) :
    Together later failed ((action >>= next) first) ((action >>= next) second) := by
  simp only [Bind.bind, EStateM.bind]
  generalize action first = result, action second = result' at together
  cases together with
  | ok ends => exact each _ _ _ ends
  | error ends => exact .error ends

/-- An action compared with itself. -/
theorem ends {result : EStateM.Result ε σ α} {holds : σ → σ → Prop}
    (together : Together (fun _ => holds) holds result result) :
    Ends (fun state => holds state state) result := by
  cases together with
  | ok ends => exact .ok ends
  | error ends => exact .error ends

end Together

/-! ## Recorded resources -/

namespace Resources

/-- The resources with a relationship for a link. -/
def linked (resources : Resources) (part : String) (link : Link) : Resources :=
  resources.related part link.target .hyperlink true

/-- The resources with a media file for the image of a picture and a relationship for it. -/
def pictured (resources : Resources) (part : String) (picture : Picture) (bytes : List UInt8) :
    Resources :=
  (resources.stored bytes picture.extension).related part
    (resources.newMedia bytes picture.extension).path .image false

end Resources

namespace Services

/-- Recording a relationship gives its id and changes nothing but the resources and the journal. -/
theorem addRelationship_recording (part target : String) (kind : RelationshipKind) (external : Bool)
    (workspace : Workspace) :
    ∃ journal, recording.addRelationship part target kind external workspace =
      .ok (workspace.resources.nextId part) { workspace with
        resources := workspace.resources.related part target kind external
        journal } :=
  ⟨_, rfl⟩

/-- Recording a media file gives its path and changes nothing but the resources and the journal. -/
theorem addMedia_recording (bytes : List UInt8) (extension : String) (workspace : Workspace) :
    ∃ journal, recording.addMedia bytes extension workspace =
      .ok (workspace.resources.newMedia bytes extension).path { workspace with
        resources := workspace.resources.stored bytes extension
        journal } :=
  ⟨_, rfl⟩

end Services

/-- The markup that a value offers. -/
def RawMarkup.offered? : Data.Value → Option String
  | .string source => ({ source := some source } : RawMarkup).inserted?
  | .object fields => (ofRecord? (.object fields)).bind inserted?
  | _ => none

/-- The markup at a scope path. -/
def Context.markupAt (context : Context) (path : ScopePath) : Option String :=
  (context.valueAt path).bind RawMarkup.offered?

/-- What is to hold between the resources of two runs, and of the references in their documents. -/
structure Ledger where
  related : Resources → Resources → Prop
  allowed : Resources → Resources → Reference → Prop

namespace Ledger

/-- A ledger covers what a tag at a scope path may record and bring into the document of a part. -/
structure CoversAt (ledger : Ledger) (context : Context) (path : ScopePath) : Prop where
  records : context.services = .recording
  nextId_eq : ∀ {first second}, ledger.related first second →
    first.nextId context.part = second.nextId context.part
  /-- What markup of the data refers to is allowed. -/
  markup : ∀ {first second source}, ledger.related first second →
    context.markupAt path = some source →
    ∀ reference ∈ Markup.references source, ledger.allowed first second reference
  link : ∀ {first second link}, ledger.related first second →
    context.linkAt path = some link →
    ledger.related (first.linked context.part link) (second.linked context.part link)
  /-- A recorded link may be referred to, and whatever could be before still can. -/
  linkAllowed : ∀ {first second link reference}, ledger.related first second →
    context.linkAt path = some link →
    ledger.allowed first second reference ∨ reference = ⟨.hyperlink, first.nextId context.part⟩ →
    ledger.allowed (first.linked context.part link) (second.linked context.part link) reference
  picture : ∀ {first second picture bytes}, ledger.related first second →
    context.pictureAt path = some (picture, bytes) →
    ledger.related (first.pictured context.part picture bytes)
      (second.pictured context.part picture bytes)
  /-- A recorded picture may be referred to, and whatever could be before still can. -/
  pictureAllowed : ∀ {first second picture bytes reference}, ledger.related first second →
    context.pictureAt path = some (picture, bytes) →
    ledger.allowed first second reference ∨ reference = ⟨.image, first.nextId context.part⟩ →
    ledger.allowed (first.pictured context.part picture bytes)
      (second.pictured context.part picture bytes) reference

/-- A ledger covers what the tags of a part may record and bring into its document. -/
def Covers (ledger : Ledger) (context : Context) : Prop := ∀ path, ledger.CoversAt context path

/-- Two workspaces have the same document and stand at the same scope path, and a ledger is right
about their resources and the references in the document. -/
structure Agrees (ledger : Ledger) (path : ScopePath) (first second : Workspace) : Prop where
  document_eq : first.document = second.document
  path_eq : first.path = path
  path_eq' : second.path = path
  related : ledger.related first.resources second.resources
  cites : first.document.CitesOnly (ledger.allowed first.resources second.resources)

/-- Work that a ledger stays right about. -/
def Steady {α : Type} (ledger : Ledger) (path : ScopePath) (work : Work α) : Prop :=
  ∀ first second, ledger.Agrees path first second →
    Together (fun _ => ledger.Agrees path) (ledger.Agrees path) (work first) (work second)

variable {α β : Type} {ledger : Ledger} {context : Context} {path : ScopePath}

namespace Agrees

variable {first second : Workspace}

/-- What is noted does not count. -/
theorem journals (agrees : ledger.Agrees path first second) (journal journal' : Journal) :
    ledger.Agrees path { first with journal := journal } { second with journal := journal' } :=
  ⟨agrees.document_eq, agrees.path_eq, agrees.path_eq', agrees.related, agrees.cites⟩

/-- An extraction is the same in both runs. It may bring in references that the ledger allows at that
moment. -/
theorem together_extraction {extraction : Extraction α} (agrees : ledger.Agrees path first second)
    (lasts : Lasts (Document.CitesOnly (ledger.allowed first.resources second.resources)) extraction) :
    Together (fun _ => ledger.Agrees path) (ledger.Agrees path)
      ((liftM extraction : Work α) first) ((liftM extraction : Work α) second) := by
  change Together _ _ (Extraction.toWork extraction first) (Extraction.toWork extraction second)
  have ends := lasts first.document agrees.cites
  rw [Extraction.toWork, Extraction.toWork, ← agrees.document_eq]
  generalize extraction first.document = result at ends
  cases ends with
  | ok ends => exact .ok ⟨rfl, agrees.path_eq, agrees.path_eq', agrees.related, ends⟩
  | error ends => exact .error ⟨rfl, agrees.path_eq, agrees.path_eq', agrees.related, ends⟩

theorem together_edit {edit : Edit α} (agrees : ledger.Agrees path first second)
    (lasts : Lasts (Document.CitesOnly (ledger.allowed first.resources second.resources)) edit) :
    Together (fun _ => ledger.Agrees path) (ledger.Agrees path)
      ((liftM edit : Work α) first) ((liftM edit : Work α) second) :=
  agrees.together_extraction lasts.of_edit

end Agrees

namespace Steady

theorem of_pure (value : α) : ledger.Steady path (pure value : Work α) :=
  fun _ _ agrees => .ok agrees

theorem of_throw (cause : TemplateError) : ledger.Steady path (throw cause : Work α) :=
  fun _ _ agrees => .error agrees

theorem bind {work : Work α} {next : α → Work β} (steady : ledger.Steady path work)
    (later : ∀ value, ledger.Steady path (next value)) : ledger.Steady path (work >>= next) := by
  intro first second agrees
  apply (steady first second agrees).bind
  intro value middle middle' agrees
  exact later value middle middle' agrees

/-- Work may depend on the document and on the scope path. -/
theorem look {next : Workspace → Work α}
    (same : ∀ first second : Workspace, first.document = second.document →
      first.path = second.path → next first = next second)
    (each : ∀ workspace : Workspace, workspace.path = path → ledger.Steady path (next workspace)) :
    ledger.Steady path (get >>= next) := by
  intro first second agrees
  change Together _ _ (next first first) (next second second)
  rw [same second first agrees.document_eq.symm (agrees.path_eq'.trans agrees.path_eq.symm)]
  exact each first agrees.path_eq first second agrees

theorem note (level : Level) (text : String) : ledger.Steady path (Work.note level text) :=
  fun _ _ agrees => .ok (agrees.journals _ _)

theorem dispatch (tag : Tag) : ledger.Steady path (Work.dispatch tag) :=
  fun _ _ agrees => .ok ⟨agrees.document_eq, agrees.path_eq, agrees.path_eq', agrees.related, agrees.cites⟩

theorem of_forM {step : α → Work PUnit} {items : List α} (each : ∀ item, ledger.Steady path (step item)) :
    ledger.Steady path (forM items step) := by
  induction items with
  | nil =>
      rw [List.forM_nil]
      exact of_pure _
  | cons first rest inductionHypothesis =>
      rw [List.forM_cons]
      exact (each first).bind fun _ => inductionHypothesis

theorem noteAll (notes : List Note) : ledger.Steady path (Work.noteAll notes) :=
  of_forM fun entry => note entry.level entry.text

theorem discard {work : Work α} (steady : ledger.Steady path work) :
    ledger.Steady path (discard work) := by
  intro first second agrees
  have together := steady first second agrees
  change Together _ _ (((fun _ => ()) <$> work) first) (((fun _ => ()) <$> work) second)
  simp only [Functor.map, EStateM.map]
  generalize work first = result, work second = result' at together
  cases together with
  | ok ends => exact .ok ends
  | error ends => exact .error ends

/-- An extraction that brings in no reference is the same in both runs. -/
theorem of_extraction {extraction : Extraction α}
    (lasts : ∀ allowed, Lasts (Document.CitesOnly allowed) extraction) :
    ledger.Steady path (liftM extraction : Work α) :=
  fun _ _ agrees => agrees.together_extraction (lasts _)

/-- An edit that brings in no reference is the same in both runs. -/
theorem of_edit {edit : Edit α} (lasts : ∀ allowed, Lasts (Document.CitesOnly allowed) edit) :
    ledger.Steady path (liftM edit : Work α) :=
  fun _ _ agrees => agrees.together_edit (lasts _)

theorem withPart {part : PathPart} {work : Work α} (steady : ledger.Steady (path.enter part) work) :
    ledger.Steady path (Work.withPart part work) := by
  intro first second agrees
  have together := steady { first with path := first.path.enter part }
    { second with path := second.path.enter part }
    ⟨agrees.document_eq, by rw [agrees.path_eq], by rw [agrees.path_eq'], agrees.related, agrees.cites⟩
  rw [Work.withPart, Work.withPart]
  generalize work { first with path := first.path.enter part } = result,
    work { second with path := second.path.enter part } = result' at together
  cases together with
  | ok ends =>
      refine .ok ⟨ends.document_eq, ?_, ?_, ends.related, ends.cites⟩
      · rw [ends.path_eq, agrees.path_eq, ScopePath.leave_enter]
      · rw [ends.path_eq', agrees.path_eq', ScopePath.leave_enter]
  | error ends =>
      refine .error ⟨ends.document_eq, ?_, ?_, ends.related, ends.cites⟩
      · rw [ends.path_eq, agrees.path_eq, ScopePath.leave_enter]
      · rw [ends.path_eq', agrees.path_eq', ScopePath.leave_enter]

theorem thenAlways {work : Work α} {finish : Work β} (steady : ledger.Steady path work)
    (finishes : ledger.Steady path finish) : ledger.Steady path (Work.thenAlways work finish) := by
  intro first second agrees
  have together := steady first second agrees
  rw [Work.thenAlways, Work.thenAlways]
  generalize work first = result, work second = result' at together
  cases together with
  | ok ends => exact finishes _ _ ends
  | @error cause middle middle' ends =>
      have finished := finishes _ _ ends
      dsimp only
      generalize finish middle = result, finish middle' = result' at finished
      cases finished with
      | ok ends => exact .error ends
      | error ends => exact .error ends

/-- The value that is looked up is the one at the scope path. -/
theorem boundValue {next : Option Data.Value → Work α}
    (steady : ledger.Steady path (next (context.valueAt path))) :
    ledger.Steady path (context.boundValue? >>= next) := by
  intro first second agrees
  change Together _ _ (next (context.valueAt first.path) first)
    (next (context.valueAt second.path) second)
  rw [agrees.path_eq, agrees.path_eq']
  exact steady first second agrees

theorem pathText {next : String → Work α} (steady : ledger.Steady path (next path.text)) :
    ledger.Steady path (Work.pathText >>= next) := by
  intro first second agrees
  change Together _ _ (next first.path.text first) (next second.path.text second)
  rw [agrees.path_eq, agrees.path_eq']
  exact steady first second agrees

end Steady

/-- Work that a ledger stays right about, but that may leave the scope path. -/
def Keeps (ledger : Ledger) (work : Work α) : Prop :=
  ∀ path first second, ledger.Agrees path first second →
    Together (fun _ first second => ∃ path, ledger.Agrees path first second)
      (fun first second => ∃ path, ledger.Agrees path first second) (work first) (work second)

namespace Keeps

theorem of_steady {work : Work α} (steady : ∀ path, ledger.Steady path work) : ledger.Keeps work := by
  intro path first second agrees
  have together := steady path first second agrees
  generalize work first = result, work second = result' at together
  cases together with
  | ok ends => exact .ok ⟨path, ends⟩
  | error ends => exact .error ⟨path, ends⟩

theorem bind {work : Work α} {next : α → Work β} (keeps : ledger.Keeps work)
    (later : ∀ value, ledger.Keeps (next value)) : ledger.Keeps (work >>= next) := by
  intro path first second agrees
  apply (keeps path first second agrees).bind
  rintro value middle middle' ⟨path, agrees⟩
  exact later value path middle middle' agrees

/-- Work may depend on the document. -/
theorem look {next : Workspace → Work α}
    (same : ∀ first second : Workspace, first.document = second.document → next first = next second)
    (each : ∀ workspace, ledger.Keeps (next workspace)) : ledger.Keeps (get >>= next) := by
  intro path first second agrees
  change Together _ _ (next first first) (next second second)
  rw [same second first agrees.document_eq.symm]
  exact each first path first second agrees

theorem of_forM {step : α → Work PUnit} {items : List α}
    (each : ∀ item ∈ items, ledger.Keeps (step item)) : ledger.Keeps (forM items step) := by
  induction items with
  | nil =>
      rw [List.forM_nil]
      exact of_steady fun _ => Steady.of_pure _
  | cons first rest inductionHypothesis =>
      rw [List.forM_cons]
      apply (each first List.mem_cons_self).bind
      intro _
      exact inductionHypothesis fun item isMember => each item (List.mem_cons_of_mem _ isMember)

end Keeps

end Ledger

end WordTemplate
