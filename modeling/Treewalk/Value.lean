/-
  Treewalk.Value — what programs compute with.
-/

import Treewalk.Node
import Treewalk.Table

namespace Treewalk

/-- A scope of the arena, by its number. -/
structure ScopeId where
  index : Nat
  deriving DecidableEq, Repr, Inhabited

namespace ScopeId

/-- The scope every program runs in. -/
def global : ScopeId := ⟨0⟩

/-- The largest number a scope can have. -/
def maxIndex : Nat := 4294967295

/-- The scope with the largest number. -/
def last : ScopeId := ⟨maxIndex⟩

/-- The scope of a number; all that are too large mean the last scope. -/
def ofIndex (i : Nat) : ScopeId := ⟨min i maxIndex⟩

def debug (s : ScopeId) : String := if s.index = 0 then "ScopeId::GLOBAL" else s!"ScopeId({s.index})"

theorem ofIndex_of_le {i : Nat} (h : i ≤ maxIndex) : ofIndex i = ⟨i⟩ := congrArg mk (Nat.min_eq_left h)

theorem ofIndex_of_ge {i : Nat} (h : maxIndex ≤ i) : ofIndex i = last := congrArg mk (Nat.min_eq_right h)

theorem index_ofIndex_le (i : Nat) : (ofIndex i).index ≤ i := Nat.min_le_left i maxIndex

end ScopeId

/-- A declared function and the scope in which its declaration was evaluated. -/
structure Closure where
  /-- Where the declaration is written. -/
  span : Span
  id : Node
  params : List Param
  body : Node
  scope : ScopeId

namespace Closure

def name (c : Closure) : String := c.id.name?.getD "anonymous"

/-- Functions have no contents to compare: two are the same if they come from one declaration and
    captured one scope. -/
def same (a b : Closure) : Bool := a.span == b.span && a.scope == b.scope

end Closure

inductive Value where
  /-- The value of unbound names and missing arguments. -/
  | undefined
  | null
  | bool (b : Bool)
  | number (x : Float)
  | string (s : String)
  | array (elements : List Value)
  | function (c : Closure)
  /-- A function of the host, which knows it by name. -/
  | native (name : String)
  /-- An object of the host. `serial` tells objects apart that were made separately. -/
  | object (serial : Nat) (name : String) (members : List (String × Value))
  deriving Inhabited

namespace Value

def typeName : Value → String
  | .undefined => "undefined"
  | .null | .array _ | .object _ _ _ => "object"
  | .bool _ => "boolean"
  | .number _ => "number"
  | .string _ => "string"
  | .function _ | .native _ => "function"

def isTruthy : Value → Bool
  | .undefined | .null => false
  | .bool b => b
  | .number x => !(x == 0) && !x.isNaN
  | .string s => !s.isEmpty
  | .array _ | .function _ | .native _ | .object _ _ _ => true

def isCallable : Value → Bool
  | .function _ | .native _ => true
  | _ => false

/-- Missing or null. -/
def isNullish : Value → Bool
  | .undefined | .null => true
  | _ => false

mutual

/-- Equality of values: numbers as numbers, arrays by their elements, functions and objects by
    identity, host functions by name. -/
def same : Value → Value → Bool
  | .undefined, .undefined => true
  | .null, .null => true
  | .bool a, .bool b => a == b
  | .number a, .number b => a == b
  | .string a, .string b => a == b
  | .array as, .array bs => sameAll as bs
  | .function a, .function b => a.same b
  | .native a, .native b => a == b
  | .object a _ _, .object b _ _ => a == b
  | _, _ => false

def sameAll : List Value → List Value → Bool
  | [], [] => true
  | a :: as, b :: bs => same a b && sameAll as bs
  | _, _ => false

end

end Value

end Treewalk
