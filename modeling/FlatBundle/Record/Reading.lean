import FlatBundle.Json.Reader
import FlatBundle.Record.Basic
import FlatBundle.Options
import FlatBundle.Text.Blank

/-!
Reading module records and options from JSON. The first fault in reading order counts, whether it
lies in the text or in what the text says.
-/

namespace FlatBundle

/-- A value that is not what its place asks for. -/
inductive DataFault
  | missing (field : String)
  | repeated (field : String)
  | unknown (field : String) (known : List String)
  | noVariant (type : String)
  | badDependency (specifier : String)
  | wrongKind (found : String) (wanted : String)
  | tooFew (count : Nat) (wanted : String)
deriving DecidableEq, Repr

def ticked (s : String) : String :=
  "\x60" ++ s ++ "\x60"

def DataFault.message : DataFault → String
  | missing field => "missing field " ++ ticked field
  | repeated field => "duplicate field " ++ ticked field
  | unknown field known =>
    "unknown field " ++ ticked field ++ ", expected one of " ++ ", ".intercalate (known.map ticked)
  | noVariant type => "data did not match any variant of untagged enum " ++ type
  | badDependency specifier =>
    "dependency " ++ ticked specifier ++ " must be a module id, " ++ ticked "null" ++ " or " ++
      ticked "false"
  | wrongKind found wanted => "invalid type: " ++ found ++ ", expected " ++ wanted
  | tooFew count wanted => "invalid length " ++ toString count ++ ", expected " ++ wanted

inductive ReadFault
  | data (fault : DataFault)
  | text (failure : Json.Failure)
deriving DecidableEq, Repr

abbrev Reading (α : Type) := Except ReadFault α

namespace Reading

def checked (failure : Option Json.Failure) : Reading Unit :=
  match failure with
  | none => .ok ()
  | some failure => .error (.text failure)

/-- Characters that a message does not show as they are. -/
def isHidden (n : Nat) : Bool :=
  n < 0x20 || (0x7F ≤ n && n ≤ 0xA0) || n == 0xAD || (0x300 ≤ n && n ≤ 0x36F) ||
    (0x600 ≤ n && n ≤ 0x605) || n == 0x61C || n == 0x1680 || n == 0x180E ||
    (0x2000 ≤ n && n ≤ 0x200F) || (0x2028 ≤ n && n ≤ 0x202F) || (0x205F ≤ n && n ≤ 0x206F) ||
    n == 0x3000 || (0xE000 ≤ n && n ≤ 0xF8FF) || n == 0xFEFF || (0xFFF9 ≤ n && n ≤ 0xFFFB)

def shownChar (c : Char) : List Char :=
  match c with
  | '"' => ['\\', '"']
  | '\\' => ['\\', '\\']
  | '\t' => ['\\', 't']
  | '\n' => ['\\', 'n']
  | '\r' => ['\\', 'r']
  | c =>
    if c.toNat = 0 then ['\\', '0']
    else if isHidden c.toNat then
      ['\\', 'u', '\x7b'] ++ Nat.toDigits 16 c.toNat ++ ['\x7d']
    else [c]

/-- A text in quotes as a message shows it. -/
def shown (s : String) : String :=
  String.ofList ('"' :: s.toList.flatMap shownChar ++ ['"'])

/-- The refusal of a value of the wrong kind. -/
def refuse {α : Type} (v : Json.Value) (wanted : String) : Reading α :=
  let wrong := fun (found : String) => Except.error (ReadFault.data (.wrongKind found wanted))
  match v with
  | .null => wrong "null"
  | .bool b => wrong ("boolean " ++ ticked (toString b))
  | .number (.natural n) => wrong ("integer " ++ ticked (toString n))
  | .number (.negative n) => wrong ("integer " ++ ticked ("-" ++ toString n))
  | .number (.real bits) => wrong ("floating point " ++ ticked (Json.Decimal.text bits))
  | .text s => wrong ("string " ++ shown s)
  | .array _ _ => wrong "sequence"
  | .object _ _ => wrong "map"
  | .unreadable => .error (.text .unexpected)
  | .broken failure => .error (.text failure)

def text (wanted : String) (v : Json.Value) : Reading String :=
  match v with
  | .text s => .ok s
  | v => refuse v wanted

def bool (v : Json.Value) : Reading Bool :=
  match v with
  | .bool b => .ok b
  | v => refuse v "a boolean"

def rank (v : Json.Value) : Reading Rank :=
  match v with
  | .number (.natural n) => .ok ⟨(UInt64.ofNat n).toFloat.toBits⟩
  | .number (.negative n) => .ok ⟨(-(UInt64.ofNat n).toFloat).toBits⟩
  | .number (.real bits) => .ok ⟨bits⟩
  | v => refuse v "f64"

def optional {α : Type} (read : Json.Value → Reading α) (v : Json.Value) : Reading (Option α) :=
  match v with
  | .null => .ok none
  | v => (read v).map some

def id? (v : Json.Value) : Option ModuleId :=
  match v with
  | .number (.natural n) => some (.number n)
  | .text s => some (.name s)
  | _ => none

def id (v : Json.Value) : Reading ModuleId := do
  checked v.failure?
  match id? v with
  | some id => return id
  | none => throw (.data (.noVariant "ModuleId"))

/-- What a specifier leads to: an id, or with `null` and `false` nothing; `true` is kept as `none`
to be refused once all specifiers are read. -/
def dep (v : Json.Value) : Reading (Option (Option ModuleId)) := do
  checked v.failure?
  match v with
  | .null => return some none
  | .bool false => return some none
  | .bool true => return none
  | v =>
    match id? v with
    | some id => return some (some id)
    | none => throw (.data (.noVariant "RawDep"))

/-- Sets the value of a key: in place if it occurs, else at the end. -/
def put {α : Type} (key : String) (a : α) : List (String × α) → List (String × α)
  | [] => [(key, a)]
  | (k, b) :: rest => if k == key then (k, a) :: rest else (k, b) :: put key a rest

def depMembers (deps : List (String × Option (Option ModuleId))) :
    List (Option String × Json.Value) → Reading (List (String × Option (Option ModuleId)))
  | [] => .ok deps
  | (none, _) :: _ => .error (.text .unexpected)
  | (some key, v) :: rest => do
    let target ← dep v
    depMembers (put key target deps) rest

def deps (v : Json.Value) : Reading (List (String × Option ModuleId)) :=
  match v with
  | .object members cut => do
    let deps ← depMembers [] members
    checked cut
    deps.mapM fun (specifier, target) =>
      match target with
      | some target => .ok (specifier, target)
      | none => .error (.data (.badDependency specifier))
  | v => refuse v "a map"

/-- The fields of a record as far as they have been read. -/
structure RecordFields where
  id : Option ModuleId := none
  file : Option (Option String) := none
  source : Option String := none
  deps : Option (List (String × Option ModuleId)) := none
  entry : Option Bool := none
  expose : Option (Option String) := none
  order : Option (Option Rank) := none
  sourceFile : Option (Option String) := none
  noMap : Option Bool := none

/-- Refuses a field that has been read before. -/
def once {α : Type} (field : String) (old : Option α) : Reading Unit :=
  if old.isSome then .error (.data (.repeated field)) else .ok ()

def recordField (r : RecordFields) (key : String) (v : Json.Value) : Reading RecordFields := do
  match key with
  | "id" => once key r.id; return { r with id := ← id v }
  | "file" => once key r.file; return { r with file := ← optional (text "a string") v }
  | "source" => once key r.source; return { r with source := ← text "a string" v }
  | "deps" => once key r.deps; return { r with deps := ← deps v }
  | "entry" => once key r.entry; return { r with entry := ← bool v }
  | "expose" => once key r.expose; return { r with expose := ← optional (text "a string") v }
  | "order" => once key r.order; return { r with order := ← optional rank v }
  | "sourceFile" =>
    once key r.sourceFile
    return { r with sourceFile := ← optional (text "a string") v }
  | "nomap" => once key r.noMap; return { r with noMap := ← bool v }
  | _ => checked v.skipFailure?; return r

def RecordFields.complete (r : RecordFields) (absent : String → Nat → ReadFault) :
    Reading Record :=
  match r.id, r.source with
  | none, _ => .error (absent "id" 0)
  | _, none => .error (absent "source" 2)
  | some id, some source =>
    .ok {
      id, source
      file := r.file.join
      deps := r.deps.getD []
      entry := r.entry.getD false
      expose := r.expose.join
      order := r.order.join
      sourceFile := r.sourceFile.join
      noMap := r.noMap.getD false }

def recordMembers (r : RecordFields) : List (Option String × Json.Value) → Reading RecordFields
  | [] => .ok r
  | (none, _) :: _ => .error (.text .unexpected)
  | (some key, v) :: rest => do recordMembers (← recordField r key v) rest

/-- The fields of a record in the order of a record written as a list. -/
def recordKeys : List String :=
  ["id", "file", "source", "deps", "entry", "expose", "order", "sourceFile", "nomap"]

/-- Reads a record that is written as a list; further items are refused. -/
def recordItems (r : RecordFields) : List String → List Json.Value → Reading RecordFields
  | _, [] => .ok r
  | [], _ :: _ => .error (.text .unexpected)
  | key :: keys, v :: rest => do recordItems (← recordField r key v) keys rest

def record (v : Json.Value) : Reading Record :=
  match v with
  | .object members cut => do
    let r ← recordMembers {} members
    checked cut
    r.complete fun field _ => .data (.missing field)
  | .array items cut => do
    let r ← recordItems {} recordKeys items
    checked cut
    r.complete fun _ count => .data (.tooFew count "struct ModuleRecord with 9 elements")
  | v => refuse v "struct ModuleRecord"

def list {α : Type} (item : Json.Value → Reading α) (v : Json.Value) : Reading (List α) :=
  match v with
  | .array items cut => do
    let as ← items.mapM item
    checked cut
    return as
  | v => refuse v "a sequence"

/-- Reads the only value of a text. -/
def wholeText {α : Type} (read : Json.Value → Reading α) (s : List Char) : Reading α := do
  let (v, rest) := Json.read s
  let a ← read v
  if (Json.skipSpace rest).isEmpty then return a else throw (.text .unexpected)

def optionKeys : List String :=
  ["standalone", "standaloneModule", "iife", "debug", "basedir"]

/-- The options as far as they have been read. -/
structure OptionFields where
  standalone : Option (Option String) := none
  standaloneModule : Option (Option ModuleId) := none
  iife : Option (Option Bool) := none
  debug : Option (Option Bool) := none
  basedir : Option (Option String) := none

def optionField (o : OptionFields) (key : String) (v : Json.Value) : Reading OptionFields := do
  match key with
  | "standalone" =>
    once key o.standalone
    return { o with standalone := ← optional (text "a string") v }
  | "standaloneModule" =>
    once key o.standaloneModule
    return { o with standaloneModule := ← optional id v }
  | "iife" => once key o.iife; return { o with iife := ← optional bool v }
  | "debug" => once key o.debug; return { o with debug := ← optional bool v }
  | "basedir" => once key o.basedir; return { o with basedir := ← optional (text "path string") v }
  | _ => throw (.data (.unknown key optionKeys))

def optionMembers (o : OptionFields) : List (Option String × Json.Value) → Reading OptionFields
  | [] => .ok o
  | (none, _) :: _ => .error (.text .unexpected)
  | (some key, v) :: rest => do optionMembers (← optionField o key v) rest

def options (v : Json.Value) : Reading Options :=
  match v with
  | .object members cut => do
    let o ← optionMembers {} members
    checked cut
    return {
      standalone := o.standalone.join
      standaloneModule := o.standaloneModule.join
      iife := o.iife.join.getD true
      debug := o.debug.join.getD false
      basedir := o.basedir.join }
  | v => refuse v "struct BundlerOptions"

end Reading

/-- Where in a text of records the fault lies: in the list as a whole, or in the record with a
number in a sequence of records. -/
inductive RecordsPlace
  | list
  | number (n : Nat)
deriving DecidableEq, Repr

structure RecordsFault where
  place : RecordsPlace
  fault : ReadFault
deriving DecidableEq, Repr

def RecordsPlace.message : RecordsPlace → String
  | list => "Invalid module records"
  | number n => "Invalid module record #" ++ toString n

/-- Records one after the other, with nothing but white space between them; `fuel` bounds their
number. -/
def readSequence : Nat → Nat → List Char → Except RecordsFault (List Record)
  | 0, _, _ => .ok []
  | fuel + 1, number, s =>
    match Json.skipSpace s with
    | [] => .ok []
    | s => do
      let (v, rest) := Json.read s
      let r ← (Reading.record v).mapError fun fault => ⟨.number number, fault⟩
      let more ← readSequence fuel (number + 1) rest
      return r :: more

/-- The records of a text: a list of them, or one after the other. -/
def readRecords (text : String) : Except RecordsFault (List Record) :=
  let s := text.toList
  match s.dropWhile isBlank with
  | '[' :: _ =>
    (Reading.wholeText (Reading.list Reading.record) s).mapError fun fault => ⟨.list, fault⟩
  | _ => readSequence (s.length + 1) 1 s

end FlatBundle
