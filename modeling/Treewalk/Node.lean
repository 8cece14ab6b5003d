/-
  Treewalk.Node — syntax trees.

  One type for statements and expressions: the parser builds only well-shaped trees, the evaluator
  has a rule for every tree. Each node carries the span of the source it stands for.
-/

import Treewalk.Span

namespace Treewalk

/-- The word that introduces a variable declaration; it makes no difference when run. -/
inductive DeclarationWord where
  | var
  | letWord
  | const
  deriving DecidableEq, Repr

def DeclarationWord.text : DeclarationWord → String
  | .var => "var"
  | .letWord => "let"
  | .const => "const"

inductive BinaryOp where
  | add | sub | mul | div | rem | exp
  | eq | notEq | strictEq | strictNotEq
  | lt | ltEq | gt | gtEq
  deriving DecidableEq, Repr

namespace BinaryOp

def all : List BinaryOp :=
  [add, sub, mul, div, rem, exp, eq, notEq, strictEq, strictNotEq, lt, ltEq, gt, gtEq]

def text : BinaryOp → String
  | add => "+"
  | sub => "-"
  | mul => "*"
  | div => "/"
  | rem => "%"
  | exp => "**"
  | eq => "=="
  | notEq => "!="
  | strictEq => "==="
  | strictNotEq => "!=="
  | lt => "<"
  | ltEq => "<="
  | gt => ">"
  | gtEq => ">="

def ofText? (s : String) : Option BinaryOp := all.find? (·.text == s)

end BinaryOp

/-- A parameter of a function: its name and where it is written. -/
structure Param where
  name : String
  span : Span
  deriving DecidableEq, Repr

inductive Node where
  | program (span : Span) (body : List Node)
  | variables (span : Span) (word : DeclarationWord) (declarators : List Node)
  | declarator (span : Span) (id : Node) (init : Option Node)
  | function (span : Span) (id : Node) (params : List Param) (body : Node)
  | returning (span : Span) (argument : Option Node)
  | block (span : Span) (body : List Node)
  | expression (span : Span) (value : Node)
  | empty (span : Span)
  | binary (span : Span) (op : BinaryOp) (left right : Node)
  | ident (span : Span) (name : String)
  | number (span : Span) (value : Float)
  | string (span : Span) (value : String)
  | bool (span : Span) (value : Bool)
  | null (span : Span)
  | this (span : Span)
  | array (span : Span) (elements : List Node)
  | member (span : Span) (object property : Node) (computed : Bool)
  | call (span : Span) (callee : Node) (arguments : List Node)
  /-- A construct that is recognised but cannot be evaluated. -/
  | unsupported (span : Span) (kind : String)
  deriving Inhabited

namespace Node

def span : Node → Span
  | .program s _ => s
  | .variables s _ _ => s
  | .declarator s _ _ => s
  | .function s _ _ _ => s
  | .returning s _ => s
  | .block s _ => s
  | .expression s _ => s
  | .empty s => s
  | .binary s _ _ _ => s
  | .ident s _ => s
  | .number s _ => s
  | .string s _ => s
  | .bool s _ => s
  | .null s => s
  | .this s => s
  | .array s _ => s
  | .member s _ _ _ => s
  | .call s _ _ => s
  | .unsupported s _ => s

/-- The name of the node's kind. -/
def kindName : Node → String
  | .program _ _ => "Program"
  | .variables _ _ _ => "VariableDeclaration"
  | .declarator _ _ _ => "VariableDeclarator"
  | .function _ _ _ _ => "FunctionDeclaration"
  | .returning _ _ => "ReturnStatement"
  | .block _ _ => "BlockStatement"
  | .expression _ _ => "ExpressionStatement"
  | .empty _ => "EmptyStatement"
  | .binary _ _ _ _ => "BinaryExpression"
  | .ident _ _ => "Identifier"
  | .number _ _ => "NumericLiteral"
  | .string _ _ => "StringLiteral"
  | .bool _ _ => "BooleanLiteral"
  | .null _ => "NullLiteral"
  | .this _ => "ThisExpression"
  | .array _ _ => "ArrayExpression"
  | .member _ _ _ _ => "MemberExpression"
  | .call _ _ _ => "CallExpression"
  | .unsupported _ kind => kind

/-- The name an identifier node holds. -/
def name? : Node → Option String
  | .ident _ n => some n
  | _ => none

/-- The nodes directly below, in source order. Parameters are not nodes. -/
def children : Node → List Node
  | .program _ body => body
  | .variables _ _ declarators => declarators
  | .declarator _ id init => id :: init.toList
  | .function _ id _ body => [id, body]
  | .returning _ argument => argument.toList
  | .block _ body => body
  | .expression _ value => [value]
  | .binary _ _ left right => [left, right]
  | .array _ elements => elements
  | .member _ object property _ => [object, property]
  | .call _ callee arguments => callee :: arguments
  | .empty _ | .ident _ _ | .number _ _ | .string _ _ | .bool _ _ | .null _ | .this _ | .unsupported _ _ => []

mutual

/-- The node and all below it in source order, each with its distance from `depth`. -/
def walk (depth : Nat) : Node → List (Nat × Node)
  | .program s body => (depth, .program s body) :: walkAll (depth + 1) body
  | .variables s w ds => (depth, .variables s w ds) :: walkAll (depth + 1) ds
  | .declarator s id none => (depth, .declarator s id none) :: walk (depth + 1) id
  | .declarator s id (some e) =>
    (depth, .declarator s id (some e)) :: (walk (depth + 1) id ++ walk (depth + 1) e)
  | .function s id ps body =>
    (depth, .function s id ps body) :: (walk (depth + 1) id ++ walk (depth + 1) body)
  | .returning s none => [(depth, .returning s none)]
  | .returning s (some e) => (depth, .returning s (some e)) :: walk (depth + 1) e
  | .block s body => (depth, .block s body) :: walkAll (depth + 1) body
  | .expression s e => (depth, .expression s e) :: walk (depth + 1) e
  | .empty s => [(depth, .empty s)]
  | .binary s op l r => (depth, .binary s op l r) :: (walk (depth + 1) l ++ walk (depth + 1) r)
  | .ident s n => [(depth, .ident s n)]
  | .number s x => [(depth, .number s x)]
  | .string s t => [(depth, .string s t)]
  | .bool s b => [(depth, .bool s b)]
  | .null s => [(depth, .null s)]
  | .this s => [(depth, .this s)]
  | .array s es => (depth, .array s es) :: walkAll (depth + 1) es
  | .member s o p c => (depth, .member s o p c) :: (walk (depth + 1) o ++ walk (depth + 1) p)
  | .call s f as => (depth, .call s f as) :: (walk (depth + 1) f ++ walkAll (depth + 1) as)
  | .unsupported s k => [(depth, .unsupported s k)]

def walkAll (depth : Nat) : List Node → List (Nat × Node)
  | [] => []
  | n :: ns => walk depth n ++ walkAll depth ns

end

/-- The node and all below it, each before those below it. -/
def nodes (n : Node) : List Node := (n.walk 0).map (·.2)

end Node

end Treewalk
