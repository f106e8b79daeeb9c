import FlatBundle.Bundle.Loader
import FlatBundle.Edit.Apply
import FlatBundle.Options

/-!
Placing a module in the scope of the bundle: its exports become a variable, its top-level names give
way to those of other modules, and calls for other modules become uses of their variables.
-/

namespace FlatBundle

open Script (Span)

def Edit.replacing (span : Span) (text : String) : Edit :=
  ⟨span.start, span.stop, text⟩

/-- The text of a source at a span. -/
def spanText (source : String) (span : Span) : String :=
  String.ofList ((sliceBytes source.toList span.start span.stop).getD [])

/-- Replaces a name; where the name is also a key, the key stays. -/
def renameOccurrence (source : String) (name : String) (r : Reference) : Edit :=
  .replacing r.span (if r.shorthand then spanText source r.span ++ ": " ++ name else name)

/-- There is a `require` for the module's own use in every bundle. -/
def typeofRequireEdits (m : ModuleFacts) : List Edit :=
  m.uses.require.filterMap fun r =>
    match r.usage with
    | .typeof span => some (.replacing span "\"function\"")
    | _ => none

/-- What holds the exports while the module runs. -/
def exportsTarget (m : ModuleFacts) : String :=
  if m.needsModuleObject then m.exportsName ++ ".exports" else m.exportsName

def exportsEdits (m : ModuleFacts) : List Edit :=
  let target := exportsTarget m
  let whole := if m.isSimpleExport then "var " ++ target else target
  m.uses.moduleExports.filterMap (fun r => r.member?.map fun access => .replacing access.span whole) ++
    m.uses.exports.map (renameOccurrence m.record.source target)

/-- Replaces a use of `module` in an eager module. No module has called an entry, so that its parent
is null; of any other parent nothing is known. -/
def moduleEdit (m : ModuleFacts) (r : Reference) : Edit :=
  match r.usage with
  | .typeof span => .replacing span "\"object\""
  | .member access =>
    if access.property = some "parent" then
      .replacing access.span (if m.record.entry then "null" else "(\x7b\x7d)")
    else renameOccurrence m.record.source m.exportsName r
  | .plain => renameOccurrence m.record.source m.exportsName r

/-- What a top-level name changes to. -/
def changedName (m : ModuleFacts) (binding : Nat) : String :=
  let name := "__" ++ (m.scopes.binding binding).name ++ "_" ++ m.record.id.text
  (Text.toIdentifier name).getD name

def collisionEdits (m : ModuleFacts) (binding : Nat) : List Edit :=
  (m.scopes.referencesOf binding).map (renameOccurrence m.record.source (changedName m binding))

/-- Keeps a comment from ending within a text. -/
def escapeCommentEnd : List Char → List Char
  | '*' :: '/' :: s => '*' :: '\\' :: '/' :: escapeCommentEnd s
  | c :: s => c :: escapeCommentEnd s
  | [] => []

/-- Takes a declarator out of its declaration, of which the declarators `gone` are out already; the
last one takes the declaration along. -/
def declaratorEdit? (source : String) (gone : List Span) (d : RequireDeclarator) : Option Edit :=
  let remaining := d.declarators.filter (!gone.contains ·)
  match remaining.findIdx? (· == d.span) with
  | none => none
  | some index =>
    if remaining.length = 1 then
      let removed := String.ofList (escapeCommentEnd (spanText source d.declaration).toList)
      some (.replacing d.declaration ("/* removed: " ++ removed ++ " */;"))
    else if index + 1 = remaining.length then
      some ⟨(remaining.getD (index - 1) default).stop, d.span.stop, ""⟩
    else some ⟨d.span.start, (remaining.getD (index + 1) default).start, ""⟩

/-- Uses the variable of an eager module in place of a call, and in place of the variable that got
its value from the call alone. -/
def inlineEdits (m : ModuleFacts) (gone : List Span) (call : RequireCall) (target : String) :
    List Edit :=
  match call.declarator with
  | none => [.replacing call.span target]
  | some d =>
    (m.scopes.referencesOf d.binding).map (renameOccurrence m.record.source target) ++
      (declaratorEdit? m.record.source gone d).toList

/-- How the exports of a module are had from outside. -/
def Linked.exportsOf (l : Linked) (i : Nat) : String :=
  let name := (l.facts i).exportsName
  if l.isOnDemand i then name ++ "(\x7b\x7d)" else name

/-- The edits for calls; `gone` holds the declarators that earlier calls took out. -/
def requirementEdits (l : Linked) (m : ModuleFacts) (gone : List Span) :
    List Requirement → List Edit
  | [] => []
  | ⟨call, .external id⟩ :: rest =>
    .replacing call.span ("require(" ++ id.literal ++ ")") :: requirementEdits l m gone rest
  | ⟨call, .internal i⟩ :: rest =>
    if l.isOnDemand i then .replacing call.span (l.exportsOf i) :: requirementEdits l m gone rest
    else
      inlineEdits m gone call (l.exportsOf i) ++
        requirementEdits l m ((call.declarator.map (·.span)).toList ++ gone) rest

/-- All edits of the module at an index. -/
def moduleEdits (l : Linked) (i : Nat) : List Edit :=
  let m := l.facts i
  typeofRequireEdits m ++
    (if l.isOnDemand i then []
      else exportsEdits m ++ m.uses.module.map (moduleEdit m) ++
        (l.renamedBindings i).flatMap (collisionEdits m)) ++
    requirementEdits l m [] m.requirements

/-- What comes before and after a module to declare its variable. -/
def moduleFrame (l : Linked) (names : LoaderNames) (i : Nat) : String × String :=
  let m := l.facts i
  let name := m.exportsName
  if l.isOnDemand i then
    ("var " ++ name ++ " = " ++ names.factory ++ "(function (module, exports) \x7b\n", "\n\x7d);")
  else if m.needsModuleObject then
    ("var " ++ name ++ " = \x7b exports: \x7b\x7d \x7d;\n",
      "\n" ++ name ++ " = " ++ exportsTarget m ++ ";")
  else if m.isSimpleExport then ("", "")
  else ("var " ++ name ++ " = \x7b\x7d;\n", "")

/-- The map that a module brings along in a comment, with the place of the comment. -/
def ownMap? (m : ModuleFacts) : Option (Span × SourceMap) := do
  let span ← m.mapComment
  let map ← SourceMap.ofComment? (spanText m.record.source span).toList
  return (span, map)

/-- The map to make of a module in a debug bundle. -/
def moduleMapRequest (options : Options) (r : Record) : Option MapRequest :=
  if options.debug && !r.noMap then
    r.sourceFile.map fun file =>
      { sourceName := Path.relative file options.basedir, includeContent := true }
  else none

/-- The module at an index as it stands in the bundle. -/
def placeModule (options : Options) (l : Linked) (names : LoaderNames) (i : Nat) :
    Except EditError Piece := do
  let m := l.facts i
  let own := if options.debug then ownMap? m else none
  let (intro, outro) := moduleFrame l names i
  let edits := moduleEdits l i ++ (own.map fun (span, _) => Edit.replacing span "").toList
  let piece ← ({ edits, intro, outro } : EditList).apply m.record.source
    (moduleMapRequest options m.record)
  return { piece with
    map :=
      match own with
      | some (_, inner) => piece.map.map (·.compose inner)
      | none => piece.map }

end FlatBundle
