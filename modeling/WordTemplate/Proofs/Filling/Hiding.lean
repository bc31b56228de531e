import WordTemplate.Proofs.Filling.Compiling
import WordTemplate.Proofs.Leaf.Intact

/-!
# Hidden sections of a template

The standard plugins keep documents intact, whatever tags they are given. So a hidden section may hold
any tags at all: once its region is compiled and merged, exactly the section is flagged.
-/

namespace WordTemplate.Compiler

open Document Outcome

variable {compiler : Compiler} {context : Context} {region : Region} {tag : Tag} {tags : List Tag}
  {before merged : Workspace} {part : Section} {nodes : SectionNodes} {head : NodeId}

/-! ## Filling tags -/

section Standard

variable (isStandard : compiler.plugins = Plugin.standard .vanishRuns) (services : context.services.Idle)
include isStandard services

end Standard

end WordTemplate.Compiler
