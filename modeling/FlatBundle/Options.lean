import FlatBundle.Record.Id

/-!
The options of a build.
-/

namespace FlatBundle

/-- What the bundle is to look like. -/
structure Options where
  /-- The global name to export under; an empty name is as good as none. -/
  standalone : Option String := none
  /-- The module whose exports a standalone bundle returns, in addition to entries with exports. -/
  standaloneModule : Option ModuleId := none
  /-- Whether a bundle that neither stands alone nor exposes modules runs in a function. -/
  iife : Bool := true
  /-- Whether to add a source map. -/
  debug : Bool := false
  /-- The directory that file names in source maps are given relative to. -/
  basedir : Option String := none
deriving Repr

def Options.globalName (o : Options) : Option String :=
  o.standalone.filter (!·.isEmpty)

end FlatBundle
