import FlatBundle.SourceMap.Basic
import FlatBundle.SourceMap.Vlq
import FlatBundle.Json.Reader
import FlatBundle.Text.Split

/-!
The JSON text of source maps.
-/

namespace FlatBundle.SourceMap

/-- What the numbers of a segment are counted from. -/
structure Counters where
  column : Nat := 0
  source : Nat := 0
  line : Nat := 0
  originColumn : Nat := 0
  name : Nat := 0

def difference (a b : Nat) : List Char :=
  Vlq.encode ((a : Int) - b)

/-- The fields of a mapping and where the next one counts from. -/
def segmentText (o : Counters) (t : Mapping) : List Char × Counters :=
  let column := difference t.generated.column o.column
  let o := { o with column := t.generated.column }
  match t.source with
  | none => (column, o)
  | some source =>
    let place :=
      difference source o.source ++ difference t.origin.line o.line ++
        difference t.origin.column o.originColumn
    let o :=
      { o with source := source, line := t.origin.line, originColumn := t.origin.column }
    match t.name with
    | none => (column ++ place, o)
    | some name => (column ++ place ++ difference name o.name, { o with name := name })

/-- Mappings from a line on, after the mapping `last`; a mapping equal to it is not repeated. -/
def mappingsFrom (line : Nat) (o : Counters) (last : Option Mapping) : List Mapping → List Char
  | [] => []
  | t :: rest =>
    if last = some t then mappingsFrom line o last rest
    else
      let newLines := t.generated.line - line
      let separator :=
        if newLines > 0 then List.replicate newLines ';'
        else if last.isSome then [',']
        else []
      let o := if newLines > 0 then { o with column := 0 } else o
      let (text, o) := segmentText o t
      separator ++ text ++ mappingsFrom t.generated.line o (some t) rest

def mappingsText (ts : List Mapping) : String :=
  String.ofList (mappingsFrom 0 {} none ts)

def contentText : Option String → String
  | none => "null"
  | some s => Text.quote s

def quotedList (xs : List String) : String :=
  Json.arrayText (xs.map Text.quote)

/-- The keys of a map and the texts of their values, in the order they are written. -/
def fields (m : SourceMap) : List (String × String) :=
  [("version", "3")] ++
  (m.file.map fun s => ("file", Text.quote s)).toList ++
  [("sources", quotedList m.sources)] ++
  (m.sourceRoot.map fun s => ("sourceRoot", Text.quote s)).toList ++
  (if m.contents.any Option.isSome then
    [("sourcesContent", Json.arrayText (m.contents.map contentText))] else []) ++
  [("names", quotedList m.names), ("mappings", Text.quote (mappingsText m.mappings))]

def toText (m : SourceMap) : String :=
  Json.objectText m.fields

/-- Positions and indices are words, so a negative one wraps around. -/
def step (n : Nat) (delta : Int) : Nat :=
  (((n : Int) + delta) % 0x100000000).toNat

/-- One segment of a line: a column alone, or with an position of origin, or also with a name. -/
def readSegment (sources names line : Nat) (o : Counters) (s : List Char) :
    Option (Mapping × Counters) := do
  let numbers ← Vlq.decode s
  let column := step o.column (numbers.headD 0)
  let o := { o with column }
  match numbers with
  | [_] => some (⟨⟨line, column⟩, ⟨o.line, o.originColumn⟩, none, none⟩, o)
  | _ :: source :: originLine :: originColumn :: rest =>
    let o :=
      { o with
        source := step o.source source
        line := step o.line originLine
        originColumn := step o.originColumn originColumn }
    if sources ≤ o.source then none
    else
      match rest with
      | [] =>
        some (⟨⟨line, column⟩, ⟨o.line, o.originColumn⟩, some o.source, none⟩, o)
      | [name] =>
        let o := { o with name := step o.name name }
        if names ≤ o.name then none
        else some (⟨⟨line, column⟩, ⟨o.line, o.originColumn⟩, some o.source, some o.name⟩, o)
      | _ => none
  | _ => none

/-- The segments of one line; empty ones are passed over. -/
def readLine (sources names line : Nat) (o : Counters) :
    List (List Char) → Option (List Mapping × Counters)
  | [] => some ([], o)
  | [] :: rest => readLine sources names line o rest
  | s :: rest => do
    let (t, o) ← readSegment sources names line o s
    let (ts, o) ← readLine sources names line o rest
    return (t :: ts, o)

def readLines (sources names line : Nat) (o : Counters) : List (List Char) → Option (List Mapping)
  | [] => some []
  | s :: rest => do
    let (ts, o) ← readLine sources names line { o with column := 0 } (Text.pieces ',' s)
    let more ← readLines sources names (line + 1) o rest
    return ts ++ more

/-- An optional member; `null` is as good as none. A repeated key spoils the map. -/
def member? (members : List (Option String × Json.Value)) (key : String) :
    Option (Option Json.Value) :=
  match members.filter (·.1 == some key) with
  | [] => some none
  | [(_, .null)] => some none
  | [(_, v)] => some (some v)
  | _ => none

/-- A list member, read item by item; empty when missing. -/
def listMember? {α : Type} (members : List (Option String × Json.Value)) (key : String)
    (item : Json.Value → Option α) : Option (List α) := do
  match ← member? members key with
  | none => some []
  | some (.array items none) => items.mapM item
  | some _ => none

def textMember? (members : List (Option String × Json.Value)) (key : String) :
    Option (Option String) := do
  match ← member? members key with
  | none => some none
  | some (.text s) => some (some s)
  | some _ => none

def textItem? : Json.Value → Option (Option String)
  | .null => some none
  | .text s => some (some s)
  | _ => none

/-- A number as it is written; any other value that is no text counts as empty. -/
def nameItem : Json.Value → String
  | .text s => s
  | .number (.natural n) => toString n
  | .number (.negative n) => "-" ++ toString n
  | .number (.real bits) => Json.Decimal.text bits
  | _ => ""

def versionFits : Option Json.Value → Bool
  | none => true
  | some (.number (.natural n)) => n < 0x100000000
  | some _ => false

/-- A map from the members of its JSON object. -/
def ofMembers? (members : List (Option String × Json.Value)) : Option SourceMap := do
  let version ← member? members "version"
  let file ← member? members "file"
  let sources ← listMember? members "sources" textItem?
  let sourceRoot ← textMember? members "sourceRoot"
  let contents ← listMember? members "sourcesContent" textItem?
  let names ← listMember? members "names" fun v => some (nameItem v)
  let mappings ← textMember? members "mappings"
  let sections ← member? members "sections"
  if !versionFits version || sections.isSome then none
  let mappings ←
    readLines sources.length names.length 0 {} (Text.pieces ';' (mappings.getD "").toList)
  return {
    file := file.map fun
      | .text s => s
      | _ => "<invalid>"
    sourceRoot
    sources := sources.map (·.getD "")
    contents := (List.range sources.length).map fun i => (contents[i]?).join
    names
    mappings := mappings.mergeSort Mapping.before }

def isJunkStart (c : Char) : Bool :=
  c == ')' || c == ']' || c == '\x7d' || c == '\''

/-- The text after the first line; a carriage return must end the line with it. -/
def dropLine : List Char → Option (List Char)
  | [] => some []
  | '\n' :: s => some ('\n' :: s)
  | '\r' :: '\n' :: s => some ('\n' :: s)
  | '\r' :: _ :: _ => none
  | _ :: s => dropLine s

/-- Passes over a first line that guards the map against being run as a script. -/
def dropGuard : List Char → Option (List Char)
  | [] => some []
  | c :: s => if isJunkStart c then dropLine (c :: s) else some (c :: s)

/-- The map that a JSON text holds. -/
def ofText? (s : List Char) : Option SourceMap := do
  let s ← dropGuard s
  match Json.readAll? s with
  | .ok (.object members none) => ofMembers? members
  | _ => none

end FlatBundle.SourceMap
