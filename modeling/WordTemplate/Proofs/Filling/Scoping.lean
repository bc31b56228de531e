import WordTemplate.Proofs.Filling.Compiling
import WordTemplate.Proofs.Filling.Restoring

/-!
# The scope path of plugin calls

A plugin that never leaves the scope it was entered in may leave steps of its own on the scope path;
filling a tag restores it. What a plugin call sees of the path is stated by interception: wherever the
path or the tag of a call is not as described, any other behaviour may be put in place of the plugin
without effect.
-/

namespace WordTemplate

open Outcome

variable {α : Type} {context : Context} {path : ScopePath} {workspace : Workspace}

/-! ## Plugins -/

namespace Plugin

variable {allowed : Tag → ScopePath → Bool} {otherwise plugin : Plugin}

end Plugin

namespace Compiler

variable {compiler : Compiler}

section

variable {enters : ContentType → Entering}

end

/-! ## Plugin calls -/

section

variable {enters : ContentType → Entering} {allowed : Tag → ScopePath → Bool} {otherwise : Plugin}

end

end Compiler

/-! ## Standard plugins -/

namespace Plugin

end Plugin

namespace Compiler

variable {compiler : Compiler}

/-- A plugin that fails. -/
def refusing : Plugin where
  contentType := .text
  replaceLeaf _ _ := throw .picturesExhausted
  replaceRegion _ _ _ := throw .picturesExhausted

end Compiler

end WordTemplate
