import FlatBundle.Script.Token

/-!
The tree of a script: nodes of a kind, with the bytes they cover and their children in source
order. Parentheses leave no node, names that are only keys leave none, and literals without a use
here are all alike.
-/

namespace FlatBundle.Script

inductive VariableKind
  | var | lexical
deriving DecidableEq, Repr

/-- Functions and classes are statements or values. -/
inductive Role
  | declaration | expression
deriving DecidableEq, Repr

/-- The kinds of nodes, with the children of each. Children in brackets with `?` may be missing. -/
inductive Kind
  /-- Directives and statements. -/
  | program
  | directive
  /-- The expression. -/
  | expressionStatement
  | emptyStatement
  /-- Statements. -/
  | block
  /-- Test, statement, [statement?]. -/
  | ifStatement
  /-- [Head?], [test?], [update?], body. -/
  | forStatement
  /-- Target, object, body. -/
  | forIn
  /-- Target, values, body. -/
  | forOf
  /-- Test, body. -/
  | whileStatement
  /-- Body, test. -/
  | doWhile
  /-- Object, body. -/
  | withStatement
  /-- Value, cases. -/
  | switchStatement
  /-- [Test?], statements. -/
  | switchCase
  /-- Block, [catch clause?], [block?]. -/
  | tryStatement
  /-- [Parameter?], block. -/
  | catchClause
  | catchParameter
  /-- [Value?]. -/
  | returnStatement
  | throwStatement
  /-- `break`, `continue` and `debugger`. -/
  | jump
  /-- The statement. -/
  | labeled
  /-- Declarators. -/
  | variables (kind : VariableKind)
  /-- Pattern, [value?]. -/
  | declarator (kind : VariableKind)
  /-- [Name?], parameters, body. -/
  | function (role : Role) (isAsync isGenerator named : Bool)
  /-- Parameters, body. -/
  | arrow (isAsync : Bool)
  /-- Patterns. -/
  | parameters
  /-- Directives and statements; the expression statement of an arrow without braces. -/
  | body
  /-- Decorators, [name?], [parent?], elements. -/
  | classDef (role : Role) (name : Option String)
  /-- Decorators, [key?], function. -/
  | method (isStatic : Bool)
  /-- Decorators, [key?], [value?]; `initialized` marks that the value is there. -/
  | property (isStatic initialized : Bool)
  /-- Statements. -/
  | staticBlock
  /-- A name that is looked up. -/
  | reference (name : String)
  /-- A name that is declared. -/
  | binding (name : String)
  | string (value : String)
  | literal
  /-- Substitutions, with the values of the text pieces around them. -/
  | template (pieces : List (Option String))
  /-- Function, template. -/
  | tagged
  /-- Items, of which some may be holes. -/
  | array
  | hole
  /-- Members. -/
  | object
  /-- [Key?], value. -/
  | member (shorthand : Bool)
  /-- [Key?], function: a method, getter or setter. -/
  | memberFunction
  /-- Reference, default: only in a literal that turns into a pattern. -/
  | memberDefault
  | spread
  /-- Object of `.property`. -/
  | field (property : String)
  /-- Object, key. -/
  | index
  /-- Object. -/
  | privateField
  /-- Function, arguments. -/
  | call
  /-- Class, arguments. -/
  | new
  | importCall
  /-- Accesses and calls with `?.` among them. -/
  | chain
  | typeof
  | unary
  | update
  | binary (op : BinaryOp)
  | privateIn
  | conditional
  /-- Target, value; `plain` marks the operator `=`. -/
  | assignment (plain : Bool)
  | sequence
  | yield
  | await
  /-- Patterns, of which some may be holes. -/
  | arrayPattern
  | objectPattern
  /-- [Key?], pattern. -/
  | patternMember (shorthand : Bool)
  /-- Pattern, default. -/
  | patternDefault
  | patternRest
  /-- Targets, of which some may be holes. -/
  | arrayTarget
  | objectTarget
  /-- [Key?], target. -/
  | targetMember
  /-- Reference, [default?]. -/
  | targetShorthand
  /-- Target, default. -/
  | targetDefault
  | targetRest
  /-- Bindings. -/
  | importDeclaration
  /-- References or a declaration. -/
  | exportDeclaration
deriving DecidableEq, Repr

inductive Node
  | mk (kind : Kind) (span : Span) (children : List Node)
deriving Repr

namespace Node

instance : Inhabited Node := ⟨mk .literal default []⟩

def kind : Node → Kind
  | mk kind _ _ => kind

def span : Node → Span
  | mk _ span _ => span

def children : Node → List Node
  | mk _ _ children => children

end Node

end FlatBundle.Script
