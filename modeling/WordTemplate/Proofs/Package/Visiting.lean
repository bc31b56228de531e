import WordTemplate.Package.Processing
import WordTemplate.Proofs.Filling.Compiling
import WordTemplate.Proofs.Filling.Steadiness

/-!
# Visiting the parts of a package

A package is filled part by part. Every part is loaded as it was before the first of them was filled,
and is filled with the resources that the parts before it left behind. When all parts are filled they
are written back, which leaves the resources alone.
-/

namespace WordTemplate

open Outcome

/-! ## Parts -/

namespace Package

variable {package : Package} {part name source : String} {document : Document}

end Package

/-! ## Steps -/

namespace Processing

variable {session after : Session} {part : String} {document : Document}

theorem load_eq_ok (done : load part session = .ok document after) :
    session.package.load part = .ok document ∧
      ∃ journal, after = { session with journal } := by
  rw [load, get_bind, bind_eq_ok] at done
  rcases done with ⟨_, noted, noteDone, done⟩
  rw [noteAll, modify_eq_ok] at noteDone
  subst noteDone
  rcases isLoaded : session.package.load part with cause | found
  · simp [isLoaded] at done
  · simp only [isLoaded, pure_eq_ok] at done
    rcases done with ⟨rfl, rfl⟩
    exact ⟨rfl, _, rfl⟩

theorem lasts_noteAll (holds : Package → Prop) (notes : List Note) :
    Lasts (fun session => holds session.package) (noteAll notes) :=
  Lasts.of_modify fun _ holds => holds

/-- Loading a part leaves the package alone, whether it succeeds or fails. -/
theorem ends_load {holds : Package → Prop} (part : String) (start : holds session.package) :
    Ends (fun after => holds after.package) (load part session) := by
  have lasts : Lasts (fun session : Session => holds session.package) (load part) := by
    apply Lasts.of_get.bind
    intro session
    apply (lasts_noteAll holds _).bind
    intro _
    split
    · exact Lasts.of_pure _
    · exact Lasts.of_throw _
  exact lasts session start

end Processing

namespace Processor

variable {processor : Processor} {data : Data.Value} {session after : Session} {part : String}
  {filled : Document}

/-- What a part is filled with. -/
def contextOf (processor : Processor) (data : Data.Value) (part : String) : Context :=
  { part, data, resolver := processor.resolver }

/-- A ledger that stays right about the plugins and the extensions stays right about filling a part. -/
theorem keeps_fill {ledger : Ledger} {context : Context}
    (plugins : ∀ plugin ∈ processor.compiler.plugins, plugin.Steady ledger context)
    (before : ∀ extension ∈ processor.before, ledger.Keeps (extension.run context))
    (after : ∀ extension ∈ processor.after, ledger.Keeps (extension.run context)) :
    ledger.Keeps (processor.fill context) := by
  apply (Ledger.Keeps.of_forM before).bind
  intro _
  apply Ledger.Keeps.look
  · intro first second document_eq
    simp only [document_eq]
  · intro workspace
    apply (Ledger.Keeps.of_steady fun _ => Compiler.steady_compile plugins _).bind
    intro _
    apply (Ledger.Keeps.of_forM after).bind
    intro _
    exact Ledger.Keeps.of_steady fun _ => Ledger.Steady.note _ _

/-- A processor with standard plugins only and without extensions. -/
structure IsStandard (processor : Processor) : Prop where
  plugins : ∃ style, ∀ plugin ∈ processor.compiler.plugins, plugin ∈ Plugin.standard style
  before : processor.before = []
  after : processor.after = []

theorem IsStandard.keeps_fill {ledger : Ledger} {context : Context} (isStandard : processor.IsStandard)
    (covers : ledger.Covers context) : ledger.Keeps (processor.fill context) := by
  rcases isStandard.plugins with ⟨style, plugins⟩
  apply Processor.keeps_fill
  · exact fun plugin isMember => Plugin.steady_standard covers (plugins plugin isMember)
  · simp [isStandard.before]
  · simp [isStandard.after]

/-- Filling a part ends, in success or in failure, with the resources that its filling ends with. -/
theorem ends_compilePart (holds : Package → Prop) (start : holds session.package)
    (fills : ∀ document journal, session.package.load part = .ok document →
      Ends (fun workspace => holds { session.package with resources := workspace.resources })
        (processor.fill (processor.contextOf data part)
          ⟨document, [], session.package.resources, journal, #[]⟩)) :
    Ends (fun after => holds after.package) (processor.compilePart data part session) := by
  apply (Processing.ends_load part start).bind
  · intro document loaded loadDone _
    rcases Processing.load_eq_ok loadDone with ⟨isLoaded, journal, rfl⟩
    have worked : Ends (fun after : Session => holds after.package)
        (Processing.workOn document (processor.fill (processor.contextOf data part))
          { session with journal }) := by
      have ends := fills document journal isLoaded
      rw [Processing.workOn]
      generalize processor.fill (processor.contextOf data part)
        ⟨document, [], session.package.resources, journal, #[]⟩ = result at ends
      cases ends with
      | ok ends => exact .ok ends
      | error ends => exact .error ends
    apply worked.bind
    · exact fun _ _ _ holds => .ok holds
    · exact fun _ holds => holds
  · exact fun _ holds => holds

/-- What is known of the resources lasts through a call if it lasts through the filling of each part. -/
theorem lasts_process (kept : Resources → Prop)
    (each : ∀ part, Lasts (fun session => kept session.package.resources) (processor.compilePart data part)) :
    Lasts (fun session => kept session.package.resources) (processor.process data) := by
  apply Lasts.of_get.bind
  intro session
  apply (Processing.lasts_noteAll (fun package => kept package.resources) _).bind
  intro _
  apply (Lasts.of_mapM fun part _ => each part).bind
  intro documents
  exact Lasts.of_forM fun entry => Lasts.of_modify fun _ holds => holds

/-- A processor with the standard plugins and without extensions. -/
def plain : Processor := ⟨Compiler.plain, Resolver.lexical, [], []⟩

end Processor

/-- The value of a link with a target. -/
def Link.value (target : String) : Data.Value :=
  .object [("_type", .string "link"), ("target", .string target)]

/-- The value of a picture with a base64 text. -/
def Picture.value (source : String) : Data.Value :=
  .object [("_type", .string "image"), ("format", .string "png"), ("height", .number (.integer 1)),
    ("source", .string source), ("width", .number (.integer 1))]

end WordTemplate
