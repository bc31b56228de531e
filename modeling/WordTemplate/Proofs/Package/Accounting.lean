import WordTemplate.Proofs.Package.Visiting

/-!
# Links and images of filled packages

A reference in a part is the id of a relationship of that part. A link that is filled in refers to a
relationship to its target, and a picture to one to a media file that holds its bytes. Both stay in
place, since resources are only ever added to.

A package starts without resources, and calls fill it one after the other, some of which may fail.
Whatever a call records is a link or a picture of its data, so after any number of calls every
relationship leads to one of these, and the references in the parts that a call wrote back resolve.
References that the markup of a part or of the data spells out are not checked by anything. They are
all that may be left unresolved.
-/

namespace WordTemplate

open Outcome

variable {context : Context} {path : ScopePath} {resources after : Resources} {reference : Reference}

/-! ## References that resolve -/

/-- A relationship leads to what a scope path is bound to: to the target of a link, or to a media file
with the bytes of a picture. -/
inductive Relationship.Serves (context : Context) (path : ScopePath) (resources : Resources) :
    Relationship → Prop where
  | link {link : Link} {id : String} (isLink : context.linkAt path = some link) :
      Serves context path resources ⟨id, link.target, .hyperlink, true⟩
  | picture {picture : Picture} {bytes : List UInt8} {id target : String}
      (isPicture : context.pictureAt path = some (picture, bytes))
      (isStored : resources.mediaBytes? target = some bytes) :
      Serves context path resources ⟨id, target, .image, false⟩

theorem Relationship.Serves.grows {relationship : Relationship}
    (serves : relationship.Serves context path resources) (grows : resources.Grows after) :
    relationship.Serves context path after := by
  cases serves with
  | link isLink => exact .link isLink
  | picture isPicture isStored => exact .picture isPicture (grows.mediaBytes? isStored)

namespace Resources

/-- A reference in a part names a relationship of that part, which leads to what a scope path is bound
to. -/
def Resolves (resources : Resources) (context : Context) (path : ScopePath) (reference : Reference) :
    Prop :=
  ∃ relationship ∈ resources.relationshipsOf context.part,
    relationship.id = reference.id ∧ relationship.kind = reference.kind ∧
      relationship.Serves context path resources

/-- What resolves once resolves from then on. -/
theorem Resolves.grows (resolves : resources.Resolves context path reference)
    (grows : resources.Grows after) : after.Resolves context path reference := by
  rcases resolves with ⟨relationship, isMember, id_eq, kind_eq, serves⟩
  exact ⟨relationship, (grows.relationshipsOf _).subset isMember, id_eq, kind_eq, serves.grows grows⟩

theorem grows_linked {part : String} {link : Link} : resources.Grows (resources.linked part link) :=
  .of_related

theorem grows_pictured {part : String} {picture : Picture} {bytes : List UInt8} :
    resources.Grows (resources.pictured part picture bytes) :=
  Grows.of_stored.trans .of_related

theorem resolves_linked {link : Link} (isLink : context.linkAt path = some link) :
    (resources.linked context.part link).Resolves context path
      ⟨.hyperlink, resources.nextId context.part⟩ := by
  refine ⟨_, ?_, rfl, rfl, .link isLink⟩
  exact mem_relationshipsOf_related.mpr (.inr ⟨rfl, rfl⟩)

theorem serves_pictured (made : resources.Made) {picture : Picture} {bytes : List UInt8}
    (isPicture : context.pictureAt path = some (picture, bytes)) (id : String) :
    Relationship.Serves context path (resources.pictured context.part picture bytes)
      ⟨id, (resources.newMedia bytes picture.extension).path, .image, false⟩ :=
  .picture isPicture made.mediaBytes?_stored

theorem resolves_pictured (made : resources.Made) {picture : Picture} {bytes : List UInt8}
    (isPicture : context.pictureAt path = some (picture, bytes)) :
    (resources.pictured context.part picture bytes).Resolves context path
      ⟨.image, resources.nextId context.part⟩ := by
  refine ⟨_, ?_, rfl, rfl, serves_pictured made isPicture _⟩
  exact mem_relationshipsOf_related.mpr (.inr ⟨rfl, rfl⟩)

end Resources

/-! ## What a leaf refers to -/

namespace Leaf

variable {tag : Tag} {workspace workspace' : Workspace}

end Leaf

/-! ## Calls -/

/-- A call that fills a package with data. -/
structure Call where
  processor : Processor
  data : Data.Value

namespace Call

variable {call : Call} {calls : List Call}

/-- What a call fills a part with. -/
def contextOf (call : Call) (part : String) : Context := call.processor.contextOf call.data part

/-- A call can bring a reference into a part by the markup of the part or of the data. -/
inductive Spells (call : Call) (package : Package) (part : String) (reference : Reference) : Prop where
  | part {source : String} (isPart : package.part? part = some source)
      (isSpelled : reference ∈ Markup.references source)
  | data {path : ScopePath} {source : String} (isMarkup : (call.contextOf part).markupAt path = some source)
      (isSpelled : reference ∈ Markup.references source)

end Call

/-- Resources were made by adding to empty ones, and each relationship leads to what some call bound to
a scope path. -/
structure Resources.Accounted (calls : List Call) (resources : Resources) : Prop where
  made : resources.Made
  served : ∀ part, ∀ relationship ∈ resources.relationshipsOf part,
    ∃ call ∈ calls, ∃ path, relationship.Serves (call.contextOf part) path resources

namespace Resources.Accounted

variable {call : Call} {calls : List Call} {part : String}

theorem mono {more : List Call} (accounted : resources.Accounted calls) (isSubset : calls ⊆ more) :
    resources.Accounted more where
  made := accounted.made
  served part relationship isMember := by
    rcases accounted.served part relationship isMember with ⟨call, isCall, serves⟩
    exact ⟨call, isSubset isCall, serves⟩

theorem linked (accounted : resources.Accounted calls) (isCall : call ∈ calls) {link : Link}
    (isLink : (call.contextOf part).linkAt path = some link) :
    (resources.linked part link).Accounted calls where
  made := accounted.made.related _ _ _ _
  served other relationship isMember := by
    rcases mem_relationshipsOf_related.mp isMember with isOld | ⟨rfl, rfl⟩
    · rcases accounted.served other relationship isOld with ⟨call, isCall, path, serves⟩
      exact ⟨call, isCall, path, serves.grows grows_linked⟩
    · exact ⟨call, isCall, path, .link isLink⟩

theorem pictured (accounted : resources.Accounted calls) (isCall : call ∈ calls) {picture : Picture}
    {bytes : List UInt8} (isPicture : (call.contextOf part).pictureAt path = some (picture, bytes)) :
    (resources.pictured part picture bytes).Accounted calls where
  made := (accounted.made.stored _ _).related _ _ _ _
  served other relationship isMember := by
    rcases mem_relationshipsOf_related.mp isMember with isOld | ⟨rfl, rfl⟩
    · rcases accounted.served other relationship isOld with ⟨call, isCall, path, serves⟩
      exact ⟨call, isCall, path, serves.grows grows_pictured⟩
    · exact ⟨call, isCall, path, serves_pictured accounted.made isPicture _⟩

end Resources.Accounted

/-- The ledger of a call on a part: the resources grow by what the call accounts for, and the document
refers to what resolves or was spelled. -/
def Ledger.resolving (calls : List Call) (context : Context) (start : Resources)
    (spelled : Reference → Prop) : Ledger where
  related first second := first = second ∧ first.Accounted calls ∧ start.Grows first
  allowed first _ reference := spelled reference ∨ ∃ path, first.Resolves context path reference

/-- A ledger that compares a run with itself. -/
def Ledger.IsSingle (ledger : Ledger) : Prop :=
  ∀ first second, ledger.related first second → first = second

theorem Ledger.covers_resolving {call : Call} {calls : List Call} {part : String} {start : Resources}
    {spelled : Reference → Prop} (isCall : call ∈ calls)
    (markup : ∀ path source, (call.contextOf part).markupAt path = some source →
      ∀ reference ∈ Markup.references source, spelled reference) :
    (Ledger.resolving calls (call.contextOf part) start spelled).Covers (call.contextOf part) := by
  intro path
  constructor
  case records => rfl
  case nextId_eq =>
    rintro first _ ⟨rfl, -, -⟩
    rfl
  case markup =>
    intro first _ source _ isMarkup reference isSpelled
    exact .inl (markup path source isMarkup reference isSpelled)
  case link =>
    rintro first _ link ⟨rfl, accounted, grows⟩ isLink
    exact ⟨rfl, accounted.linked isCall isLink, grows.trans Resources.grows_linked⟩
  case linkAllowed =>
    rintro first _ link reference ⟨rfl, accounted, grows⟩ isLink ((isSpelled | ⟨other, resolves⟩) | rfl)
    · exact .inl isSpelled
    · exact .inr ⟨other, resolves.grows Resources.grows_linked⟩
    · exact .inr ⟨path, Resources.resolves_linked isLink⟩
  case picture =>
    rintro first _ picture bytes ⟨rfl, accounted, grows⟩ isPicture
    exact ⟨rfl, accounted.pictured isCall isPicture, grows.trans Resources.grows_pictured⟩
  case pictureAllowed =>
    rintro first _ picture bytes reference ⟨rfl, accounted, grows⟩ isPicture
      ((isSpelled | ⟨other, resolves⟩) | rfl)
    · exact .inl isSpelled
    · exact .inr ⟨other, resolves.grows Resources.grows_pictured⟩
    · exact .inr ⟨path, Resources.resolves_pictured accounted.made isPicture⟩

/-! ## Plugins and extensions that keep account -/

/-- Plugins and extensions that record links and pictures of the data only, and bring in no references
but to those and those that markup of the data spells. -/
structure Processor.Accountable (processor : Processor) : Prop where
  plugins : ∀ plugin ∈ processor.compiler.plugins, ∀ (ledger : Ledger) context, ledger.IsSingle →
    ledger.Covers context → plugin.Steady ledger context
  before : ∀ extension ∈ processor.before, ∀ (ledger : Ledger) context, ledger.IsSingle →
    ledger.Covers context → ledger.Keeps (extension.run context)
  after : ∀ extension ∈ processor.after, ∀ (ledger : Ledger) context, ledger.IsSingle →
    ledger.Covers context → ledger.Keeps (extension.run context)

namespace Extension

variable {ledger : Ledger}

end Extension

/-! ## What a call does to a package -/

/-- A document that was loaded makes the references that its part spells. -/
theorem Package.citesOnly_load {package : Package} {part : String} {document : Document}
    (isLoaded : package.load part = .ok document) :
    document.CitesOnly fun reference => ∃ source, package.part? part = some source ∧
      reference ∈ Markup.references source := by
  rw [load] at isLoaded
  split at isLoaded
  · cases isLoaded
  next source isPart =>
    split at isLoaded
    next document isRead =>
      cases isLoaded
      exact (Document.citesOnly_read isRead).mono fun reference isSpelled => ⟨source, isPart, isSpelled⟩
    · cases isLoaded

/-- A package has the parts of an earlier one, and its resources grew by what calls account for. -/
structure Package.Follows (calls : List Call) (package start : Package) : Prop where
  parts_eq : package.parts = start.parts
  accounted : package.resources.Accounted calls
  grows : start.resources.Grows package.resources

namespace Call

variable {call : Call} {calls : List Call} {start : Package} {part : String} {document : Document}
  {session after : Session}

/-- While a part is filled the resources grow by what the call accounts for. The document refers to
what resolves or was spelled before. -/
theorem ends_fill (isAccountable : call.processor.Accountable) (isCall : call ∈ calls)
    (accounted : start.resources.Accounted calls) (isLoaded : start.load part = .ok document)
    (journal : Journal) :
    Ends (fun workspace => workspace.resources.Accounted calls ∧
        start.resources.Grows workspace.resources ∧
        workspace.document.CitesOnly fun reference => call.Spells start part reference ∨
          ∃ path, workspace.resources.Resolves (call.contextOf part) path reference)
      (call.processor.fill (call.contextOf part) ⟨document, [], start.resources, journal, #[]⟩) := by
  have single : (Ledger.resolving calls (call.contextOf part) start.resources
      (call.Spells start part)).IsSingle := fun _ _ related => related.1
  have covers : (Ledger.resolving calls (call.contextOf part) start.resources
      (call.Spells start part)).Covers (call.contextOf part) :=
    Ledger.covers_resolving isCall fun _ _ isMarkup _ isSpelled => .data isMarkup isSpelled
  have keeps := Processor.keeps_fill
    (fun plugin isMember => isAccountable.plugins plugin isMember _ _ single covers)
    (fun extension isMember => isAccountable.before extension isMember _ _ single covers)
    (fun extension isMember => isAccountable.after extension isMember _ _ single covers)
  have cites : document.CitesOnly fun reference => call.Spells start part reference ∨
      ∃ path, start.resources.Resolves (call.contextOf part) path reference :=
    (Package.citesOnly_load isLoaded).mono fun reference ⟨_, isPart, isSpelled⟩ =>
      .inl (.part isPart isSpelled)
  have together := keeps [] _ ⟨document, [], start.resources, journal, #[]⟩
    ⟨rfl, rfl, rfl, ⟨rfl, accounted, .refl _⟩, cites⟩
  apply together.ends.imp
  rintro workspace ⟨path, agrees⟩
  exact ⟨agrees.related.2.1, agrees.related.2.2, agrees.cites⟩

/-- Filling a part, with success or not, leaves the parts alone and accounts for what it records. -/
theorem lasts_compilePart (isAccountable : call.processor.Accountable) (isCall : call ∈ calls)
    (part : String) :
    Lasts (fun session => session.package.Follows calls start)
      (call.processor.compilePart call.data part) := by
  intro session follows
  apply Processor.ends_compilePart (fun package => package.Follows calls start) follows
  intro document journal isLoaded
  apply (ends_fill isAccountable isCall follows.accounted isLoaded journal).imp
  rintro workspace ⟨accounted, grows, -⟩
  exact ⟨follows.parts_eq, accounted, follows.grows.trans grows⟩

/-- A call, with success or not, accounts for what it records. -/
theorem lasts_process (isAccountable : call.processor.Accountable) (isCall : call ∈ calls)
    (start : Resources) :
    Lasts (fun session => session.package.resources.Accounted calls ∧
      start.Grows session.package.resources) (call.processor.process call.data) := by
  apply Processor.lasts_process fun resources => resources.Accounted calls ∧ start.Grows resources
  rintro part session ⟨accounted, grows⟩
  have follows : session.package.Follows calls session.package := ⟨rfl, accounted, .refl _⟩
  apply (lasts_compilePart isAccountable isCall part session follows).imp
  exact fun after follows => ⟨follows.accounted, grows.trans follows.grows⟩

end Call

/-! ## Calls in turn -/

/-- What a call leaves behind, whether it succeeds or fails. -/
def Session.next (session : Session) (call : Call) : Session :=
  match call.processor.process call.data session with
  | .ok _ after => after
  | .error _ after => after

theorem Session.of_ends {holds : Session → Prop} {session : Session} {call : Call}
    (ends : Ends holds (call.processor.process call.data session)) : holds (session.next call) := by
  rw [next]
  generalize call.processor.process call.data session = result at ends
  cases ends with
  | ok ends => exact ends
  | error ends => exact ends

/-- A package that started without resources was filled by calls, the last of which comes first. -/
inductive Processed : List Call → Session → Prop where
  | start (parts : List (String × String)) (journal : Journal) :
      Processed [] { package := { parts }, journal }
  | next {calls : List Call} {session : Session} (processed : Processed calls session) (call : Call)
      (isAccountable : call.processor.Accountable) : Processed (call :: calls) (session.next call)

namespace Processed

variable {calls : List Call} {session : Session}

/-- Every relationship leads to what one of the calls bound. -/
theorem accounted (processed : Processed calls session) : session.package.resources.Accounted calls := by
  induction processed with
  | start parts journal => exact ⟨.empty, fun part relationship isMember => by cases isMember⟩
  | @next calls session processed call isAccountable inductionHypothesis =>
      have before : session.package.resources.Accounted (call :: calls) :=
        inductionHypothesis.mono (List.subset_cons_self _ _)
      have ends := Call.lasts_process isAccountable List.mem_cons_self session.package.resources session
        ⟨before, .refl _⟩
      exact (Session.of_ends ends).1

end Processed

end WordTemplate
