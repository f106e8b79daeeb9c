import FlatBundle.Bundle.Build
import FlatBundle.Record.Reading

/-!
What the arguments of the command ask for, and what the command answers.
-/

namespace FlatBundle

/-- An option that takes a value. -/
inductive Setting
  | outfile
  | standalone
  | standaloneModule
  | basedir
deriving DecidableEq, Repr

/-- An option without a value. -/
inductive Switch
  | noIife
  | debug
  | help
  | version
deriving DecidableEq, Repr

inductive CommandOption
  | setting (s : Setting)
  | switch (s : Switch)
deriving DecidableEq, Repr

def longOption? : String → Option CommandOption
  | "outfile" => some (.setting .outfile)
  | "standalone" => some (.setting .standalone)
  | "standalone-module" => some (.setting .standaloneModule)
  | "basedir" => some (.setting .basedir)
  | "no-iife" => some (.switch .noIife)
  | "debug" => some (.switch .debug)
  | "help" => some (.switch .help)
  | "version" => some (.switch .version)
  | _ => none

def shortOption? : Char → Option CommandOption
  | 'o' => some (.setting .outfile)
  | 's' => some (.setting .standalone)
  | 'd' => some (.switch .debug)
  | 'h' => some (.switch .help)
  | 'V' => some (.switch .version)
  | _ => none

/-- The arguments read so far. -/
structure Invocation where
  /-- The file to read records from; standard input without one. -/
  input : Option String := none
  /-- The file to write the bundle to; standard output without one. -/
  outfile : Option String := none
  standalone : Option String := none
  standaloneModule : Option String := none
  basedir : Option String := none
  noIife : Bool := false
  debug : Bool := false
deriving DecidableEq, Repr

/-- Why the command does not get to build anything. -/
inductive EarlyEnd
  | usage
  | help
  | version
deriving DecidableEq, Repr

namespace Invocation

/-- Takes a value where there is none yet. -/
def fill (old : Option String) (value : String) : Except EarlyEnd (Option String) :=
  if old.isSome then .error .usage else .ok (some value)

/-- Takes a path where there is none yet. An empty text is no path. -/
def fillPath (old : Option String) (value : String) : Except EarlyEnd (Option String) :=
  if value.isEmpty then .error .usage else fill old value

def set (i : Invocation) (s : Setting) (value : String) : Except EarlyEnd Invocation :=
  match s with
  | .outfile => (fillPath i.outfile value).map fun outfile => { i with outfile }
  | .standalone => (fill i.standalone value).map fun standalone => { i with standalone }
  | .standaloneModule =>
    (fill i.standaloneModule value).map fun standaloneModule => { i with standaloneModule }
  | .basedir => (fillPath i.basedir value).map fun basedir => { i with basedir }

def turnOn (i : Invocation) (s : Switch) : Except EarlyEnd Invocation :=
  match s with
  | .noIife => if i.noIife then .error .usage else .ok { i with noIife := true }
  | .debug => if i.debug then .error .usage else .ok { i with debug := true }
  | .help => .error .help
  | .version => .error .version

def setInput (i : Invocation) (path : String) : Except EarlyEnd Invocation :=
  (fillPath i.input path).map fun input => { i with input }

/-- Reads options of one letter each. One that takes a value takes the rest for it; where nothing
is left, the next argument is still to come. -/
def readShort (i : Invocation) : List Char → Except EarlyEnd (Invocation × Option Setting)
  | [] => .ok (i, none)
  | c :: rest =>
    match shortOption? c, rest with
    | none, _ => .error .usage
    | some (.switch s), rest => do readShort (← i.turnOn s) rest
    | some (.setting s), [] => .ok (i, some s)
    | some (.setting s), '=' :: value => (i.set s (String.ofList value)).map fun i => (i, none)
    | some (.setting s), value => (i.set s (String.ofList value)).map fun i => (i, none)

/-- Reads an option after its two dashes. -/
def readLong (i : Invocation) (arg : List Char) : Except EarlyEnd (Invocation × Option Setting) :=
  let name := arg.takeWhile (· ≠ '=')
  match longOption? (String.ofList name), arg.drop name.length with
  | none, _ => .error .usage
  | some (.switch s), [] => (i.turnOn s).map fun i => (i, none)
  | some (.switch _), _ => .error .usage
  | some (.setting s), [] => .ok (i, some s)
  | some (.setting s), _ :: value => (i.set s (String.ofList value)).map fun i => (i, none)

/-- Reads options; `none` for an argument that is none. -/
def readOption? (i : Invocation) (arg : List Char) :
    Option (Except EarlyEnd (Invocation × Option Setting)) :=
  match arg with
  | '-' :: '-' :: rest => some (i.readLong rest)
  | ['-'] => none
  | '-' :: rest => some (i.readShort rest)
  | _ => none

/-- Reads arguments that are all inputs. -/
def readInputs (i : Invocation) : List String → Except EarlyEnd Invocation
  | [] => .ok i
  | arg :: rest => do readInputs (← i.setInput arg) rest

/-- Reads arguments; `wanted` is the option that waits for a value. -/
def readArguments (i : Invocation) (wanted : Option Setting) :
    List String → Except EarlyEnd Invocation
  | [] => if wanted.isSome then .error .usage else .ok i
  | arg :: rest =>
    if arg = "--" then if wanted.isSome then .error .usage else i.readInputs rest
    else
      match i.readOption? arg.toList, wanted with
      | some _, some _ => .error .usage
      | some read, none => do
        let (i, wanted) ← read
        readArguments i wanted rest
      | none, some s => do readArguments (← i.set s arg) none rest
      | none, none => do readArguments (← i.setInput arg) none rest

/-- Reads all arguments. Naming the module to return takes a global name to return it under. -/
def ofArguments (args : List String) : Except EarlyEnd Invocation := do
  let i ← readArguments {} none args
  if i.standaloneModule.isSome && i.standalone.isNone then throw .usage
  return i

/-- A number of 64 bits, perhaps with a plus sign. -/
def number? (s : List Char) : Option Nat :=
  let digits := if s.head? = some '+' then s.drop 1 else s
  if digits.isEmpty || !digits.all Char.isDigit then none
  else
    let n := digits.foldl (fun n c => 10 * n + (c.toNat - '0'.toNat)) 0
    if n < 0x10000000000000000 then some n else none

/-- An id as an argument gives it. -/
def moduleId (s : String) : ModuleId :=
  match number? s.toList with
  | some n => .number n
  | none => .name s

def options (i : Invocation) : Options where
  standalone := i.standalone
  standaloneModule := i.standaloneModule.map moduleId
  iife := !i.noIife
  debug := i.debug
  basedir := i.basedir

/-- Builds the bundle of the records in a text, or tells what is wrong with them. -/
def build (i : Invocation) (text : String) : Except (List String) BuiltBundle :=
  match readRecords text with
  | .error e => .error [e.place.message]
  | .ok records => (bundle i.options records).mapError (·.map BuildError.message)

end Invocation

namespace Report

/-- A text in a colour of the terminal. -/
def coloured (code : Nat) (text : String) : String :=
  "\x1b[" ++ toString code ++ "m" ++ text ++ "\x1b[0m"

def error (message : String) : String :=
  coloured 31 "Error:" ++ " " ++ message

def warning (message : String) : String :=
  coloured 33 "Warning:" ++ " " ++ message

def done : String :=
  coloured 32 "✔"

/-- A failure of the system, as it describes and numbers it. -/
def systemFailure (action path description : String) (code : Nat) : String :=
  "Failed to " ++ action ++ " " ++ path ++ ": " ++ description ++ " (os error " ++
    toString code ++ ")"

end Report

end FlatBundle
