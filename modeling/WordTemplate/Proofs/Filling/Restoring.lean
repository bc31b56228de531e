import WordTemplate.Proofs.Filling.Steadiness

/-!
# Work that restores the scope path

The scope path is a stack that all plugins share. Work that never takes away what was on the path
when it began may leave steps of its own behind; cutting the path back to its old length restores it,
on success and on failure alike. Work that restores the path can be followed by anything that is known
at that path only, which is how the copies of a region are compared for two ways to compile them.
-/

namespace WordTemplate

open Outcome

variable {α β : Type} {context : Context} {path : ScopePath} {workspace : Workspace}

/-- Work that ends at the scope path it started with, whether it succeeds or fails. -/
def Work.Restores (work : Work α) : Prop :=
  ∀ path, Lasts (fun workspace => workspace.path = path) work

/-- The ledger of a single run. -/
def Ledger.single : Ledger := ⟨Eq, fun _ _ _ => True⟩

/-- Steady work returns to its scope path. -/
theorem Ledger.Steady.restores {work : Work α} (steady : ∀ path, Ledger.single.Steady path work) :
    work.Restores := by
  rintro _ workspace rfl
  have agrees : Ledger.single.Agrees workspace.path workspace workspace :=
    ⟨rfl, rfl, rfl, rfl, fun _ _ _ => trivial⟩
  exact (steady workspace.path workspace workspace agrees).ends.imp fun _ agrees => agrees.path_eq

namespace Work

theorem Restores.bind {work : Work α} {next : α → Work β} (restores : work.Restores)
    (later : ∀ value, (next value).Restores) : (work >>= next).Restores :=
  fun path => (restores path).bind fun value => later value path

theorem Restores.discard {work : Work α} (restores : work.Restores) :
    (Functor.discard work).Restores :=
  fun path => (restores path).discard

theorem Restores.path_eq {work : Work α} (restores : work.Restores) {value : α} {after : Workspace}
    (done : work workspace = .ok value after) : after.path = workspace.path := by
  have ends := restores workspace.path workspace rfl
  rw [done] at ends
  cases ends with
  | ok ends => exact ends

/-- Work that ends where it started has not left the scope that it was entered in. -/
theorem Restores.grows {work : Work α} (restores : work.Restores) (workspace : Workspace) :
    Ends (fun after => workspace.path <+: after.path) (work workspace) := by
  apply (restores workspace.path workspace rfl).imp
  intro after path_eq
  exact path_eq ▸ List.prefix_rfl

/-- Sequences that begin alike go on alike if what follows is alike at the same path. -/
theorem Restores.bind_congr {work work' : Work α} {next next' : α → Work β} (restores : work.Restores)
    (first : work' workspace = work workspace)
    (later : ∀ value middle, work workspace = .ok value middle → middle.path = workspace.path →
      next' value middle = next value middle) :
    (work' >>= next') workspace = (work >>= next) workspace := by
  simp only [Bind.bind, EStateM.bind, first]
  cases done : work workspace with
  | ok value middle => exact later value middle done (restores.path_eq done)
  | error cause middle => rfl

end Work

/-- A way to compile tags that restores the scope path. -/
def RegionCompiler.Restores {region : Region} (compile : RegionCompiler region) : Prop :=
  ∀ tags fits, (compile tags fits).Restores

/-! ## Regions -/

namespace Region

variable {region : Region} {compile other : RegionCompiler region}

end Region

namespace Strategy

variable {strategy : Strategy} {region : Region} {compile other : RegionCompiler region}
  {scoping : Region.Scoping} {times : Nat}
  {next : CutRegion → List (List NodeId) → Work Unit}

end Strategy

namespace Loop

variable {strategies : List Strategy} {region : Region} {compile other : RegionCompiler region}

end Loop

namespace Section

variable {style : HidingStyle} {region : Region} {compile other : RegionCompiler region}

end Section

end WordTemplate
