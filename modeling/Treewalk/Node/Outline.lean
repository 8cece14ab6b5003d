/-
  Treewalk.Node.Outline — a tree as text, one node a line, two more blanks for each level.
-/

import Treewalk.Node
import Treewalk.Text.Escaped
import Treewalk.Decimal.Style

namespace Treewalk.Node

/-- What a line shows behind the name of the node's kind. -/
def detail : Node → String
  | .variables _ word _ => " " ++ word.text
  | .function _ _ params _ => " (" ++ ", ".intercalate (params.map (·.name)) ++ ")"
  | .binary _ op _ _ => " " ++ op.text
  | .ident _ name => " " ++ name
  | .number _ x => " " ++ Decimal.Style.outline.write x
  | .string _ s => " " ++ Text.escaped s
  | .bool _ b => if b then " true" else " false"
  | .member _ _ _ true => " computed"
  | _ => ""

def outlineLine (entry : Nat × Node) : String :=
  String.ofList (List.replicate (2 * entry.1) ' ') ++ entry.2.kindName ++ entry.2.detail ++ "\n"

def outline (n : Node) : String := String.join ((n.walk 0).map outlineLine)

end Treewalk.Node
