import FlatBundle.Distinct
import FlatBundle.Text.Position

/-!
Source maps: where each place of a generated text comes from.
-/

namespace FlatBundle

/-- A generated position and its origin, with the source and the name looked up. A position without
a source may still carry an position of origin; it means nothing. -/
structure Segment where
  generated : Position
  origin : Position
  source : Option String
  name : Option String
deriving DecidableEq, Repr

/-- The same with indices into the source and name lists of a map. -/
structure Mapping where
  generated : Position
  origin : Position
  source : Option Nat
  name : Option Nat
deriving DecidableEq, Repr

def Mapping.before (a b : Mapping) : Bool :=
  a.generated.le b.generated

structure SourceMap where
  file : Option String := none
  sourceRoot : Option String := none
  sources : List String
  /-- One entry for each source. -/
  contents : List (Option String)
  names : List String
  /-- In the order of generated positions. -/
  mappings : List Mapping
deriving DecidableEq, Repr

namespace SourceMap

/-- The map of some segments. Sources and names are listed once each, in order of first use, the
sources of `sources` first; `contents` gives the content of sources, later entries winning. -/
def ofSegments (sources : List String) (contents : List (String × Option String))
    (segments : List Segment) : SourceMap :=
  let sources := firstOccurrences (sources ++ segments.filterMap (·.source))
  let names := firstOccurrences (segments.filterMap (·.name))
  let contents := contents.reverse
  { sources
    contents := sources.map fun s => (contents.lookup s).join
    names
    mappings :=
      (segments.map fun s =>
        { generated := s.generated
          origin := s.origin
          source := s.source.bind fun name => sources.findIdx? (· == name)
          name := s.name.bind fun name => names.findIdx? (· == name) }).mergeSort Mapping.before }

/-- Whether a source is found without the root of a map. -/
def isRooted (source : String) : Bool :=
  source.startsWith "/" || source.startsWith "http:" || source.startsWith "https:"

def dropFinalSlash (root : List Char) : List Char :=
  match root.getLast? with
  | some '/' => root.dropLast
  | _ => root

/-- The names of the sources below the map's root. -/
def sourceNames (m : SourceMap) : List String :=
  match m.sourceRoot with
  | none => m.sources
  | some root =>
    if root.isEmpty then m.sources
    else m.sources.map fun source =>
      if isRooted source then source
      else String.ofList (dropFinalSlash root.toList) ++ "/" ++ source

def segment (m : SourceMap) (t : Mapping) : Segment :=
  { generated := t.generated
    origin := t.origin
    source := t.source.bind fun i => m.sourceNames[i]?
    name := t.name.bind fun i => m.names[i]? }

def segments (m : SourceMap) : List Segment :=
  let sources := m.sourceNames
  m.mappings.map fun t =>
    { generated := t.generated
      origin := t.origin
      source := t.source.bind fun i => sources[i]?
      name := t.name.bind fun i => m.names[i]? }

/-- The mapping for a generated position: the first one at exactly that position, or else the last
one before it. -/
def lookup (m : SourceMap) (p : Position) : Option Mapping :=
  match m.mappings.find? (·.generated == p) with
  | some t => some t
  | none => (m.mappings.takeWhile (·.generated.le p)).getLast?

def contentUpdates (m : SourceMap) : List (String × Option String) :=
  m.sourceNames.zip m.contents

/-- Where the segments of `outer`, whose origins are positions in the text that `inner` maps, come
from in the end. A segment whose origin `inner` does not map on its own line is left out. -/
def compose (outer inner : SourceMap) : SourceMap :=
  let segments := outer.mappings.filterMap fun t => do
    let o ← inner.lookup t.origin
    if o.generated.line ≠ t.origin.line || o.source.isNone then none
    else some { inner.segment o with generated := t.generated }
  ofSegments inner.sourceNames inner.contentUpdates segments

/-- The map with its generated text moved down some lines. -/
def shiftedSegments (m : SourceMap) (lines : Nat) : List Segment :=
  m.segments.map fun s =>
    { s with generated := ⟨s.generated.line + lines, s.generated.column⟩ }

end SourceMap

end FlatBundle
