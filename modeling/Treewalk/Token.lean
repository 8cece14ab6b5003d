/-
  Treewalk.Token — tokens: what kind they are, what they carry and where they stand.
-/

import Treewalk.Span
import Treewalk.Token.Spelling
import Treewalk.Text.Escaped
import Treewalk.Decimal.Style

namespace Treewalk

/-- The kind of a token without what it carries. -/
inductive Tag where
  | number
  | string
  | ident
  | keyword (k : Keyword)
  | punct (p : Punct)
  | eof
  deriving DecidableEq, Repr

/-- How error messages call a kind of token. -/
def Tag.displayName : Tag → String
  | .number => "number"
  | .string => "string"
  | .ident => "identifier"
  | .keyword k => "`" ++ k.text ++ "`"
  | .punct p => "`" ++ p.text ++ "`"
  | .eof => "end of input"

/-- The kind of a token with what it carries; a string is carried with its escapes resolved. -/
inductive TokenKind where
  | number (value : Float)
  | string (value : String)
  | ident (name : String)
  | keyword (k : Keyword)
  | punct (p : Punct)
  | eof
  deriving DecidableEq, Repr

namespace TokenKind

def tag : TokenKind → Tag
  | .number _ => .number
  | .string _ => .string
  | .ident _ => .ident
  | .keyword k => .keyword k
  | .punct p => .punct p
  | .eof => .eof

def displayName (k : TokenKind) : String := k.tag.displayName

/-- The text a token listing shows. -/
def listing : TokenKind → String
  | .number x => "Number(" ++ Decimal.Style.token.write x ++ ")"
  | .string s => "String(" ++ Text.escaped s ++ ")"
  | .ident n => "Ident(" ++ n ++ ")"
  | .keyword k => k.name
  | .punct p => p.name
  | .eof => "Eof"

end TokenKind

structure Token where
  kind : TokenKind
  span : Span
  deriving DecidableEq, Repr

namespace Token

def tag (t : Token) : Tag := t.kind.tag

/-- The end of an input of no tokens. -/
def missing : Token := ⟨.eof, Span.none⟩

end Token

end Treewalk
