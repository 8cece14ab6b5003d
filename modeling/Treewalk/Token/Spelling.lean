/-
  Treewalk.Token.Spelling — the reserved words and the punctuation, with their spellings and names.
-/

namespace Treewalk

/-- Reserved words. -/
inductive Keyword where
  | varKw | letKw | constKw | functionKw | returnKw | thisKw | trueKw | falseKw | nullKw
  | newKw | ifKw | elseKw | whileKw | forKw | doKw | switchKw | tryKw | catchKw | finallyKw
  | throwKw | classKw | breakKw | continueKw | typeofKw
  deriving DecidableEq, Repr

namespace Keyword

def all : List Keyword :=
  [varKw, letKw, constKw, functionKw, returnKw, thisKw, trueKw, falseKw, nullKw, newKw, ifKw, elseKw,
   whileKw, forKw, doKw, switchKw, tryKw, catchKw, finallyKw, throwKw, classKw, breakKw, continueKw,
   typeofKw]

def text : Keyword → String
  | varKw => "var"
  | letKw => "let"
  | constKw => "const"
  | functionKw => "function"
  | returnKw => "return"
  | thisKw => "this"
  | trueKw => "true"
  | falseKw => "false"
  | nullKw => "null"
  | newKw => "new"
  | ifKw => "if"
  | elseKw => "else"
  | whileKw => "while"
  | forKw => "for"
  | doKw => "do"
  | switchKw => "switch"
  | tryKw => "try"
  | catchKw => "catch"
  | finallyKw => "finally"
  | throwKw => "throw"
  | classKw => "class"
  | breakKw => "break"
  | continueKw => "continue"
  | typeofKw => "typeof"

/-- The name a token listing shows. -/
def name (k : Keyword) : String := k.text.capitalize

def ofText? (s : String) : Option Keyword := all.find? (·.text == s)

end Keyword

/-- Delimiters and operators. -/
inductive Punct where
  | lparen | rparen | lbrace | rbrace | lbracket | rbracket
  | semicolon | comma | dot | colon | question
  | plus | minus | star | starStar | slash | percent
  | eq | eqEq | notEq | eqEqEq | notEqEq | lt | ltEq | gt | gtEq
  | ampAmp | pipePipe | bang
  deriving DecidableEq, Repr

namespace Punct

/-- Longer spellings stand before the shorter ones they begin with. -/
def all : List Punct :=
  [eqEqEq, notEqEq, starStar, eqEq, notEq, ltEq, gtEq, ampAmp, pipePipe, lparen, rparen, lbrace, rbrace,
   lbracket, rbracket, semicolon, comma, dot, colon, question, plus, minus, star, slash, percent, eq,
   lt, gt, bang]

def text : Punct → String
  | lparen => "("
  | rparen => ")"
  | lbrace => "\x7b"
  | rbrace => "\x7d"
  | lbracket => "["
  | rbracket => "]"
  | semicolon => ";"
  | comma => ","
  | dot => "."
  | colon => ":"
  | question => "?"
  | plus => "+"
  | minus => "-"
  | star => "*"
  | starStar => "**"
  | slash => "/"
  | percent => "%"
  | eq => "="
  | eqEq => "=="
  | notEq => "!="
  | eqEqEq => "==="
  | notEqEq => "!=="
  | lt => "<"
  | ltEq => "<="
  | gt => ">"
  | gtEq => ">="
  | ampAmp => "&&"
  | pipePipe => "||"
  | bang => "!"

/-- The name a token listing shows. -/
def name : Punct → String
  | lparen => "LParen"
  | rparen => "RParen"
  | lbrace => "LBrace"
  | rbrace => "RBrace"
  | lbracket => "LBracket"
  | rbracket => "RBracket"
  | semicolon => "Semicolon"
  | comma => "Comma"
  | dot => "Dot"
  | colon => "Colon"
  | question => "Question"
  | plus => "Plus"
  | minus => "Minus"
  | star => "Star"
  | starStar => "StarStar"
  | slash => "Slash"
  | percent => "Percent"
  | eq => "Eq"
  | eqEq => "EqEq"
  | notEq => "NotEq"
  | eqEqEq => "EqEqEq"
  | notEqEq => "NotEqEq"
  | lt => "Lt"
  | ltEq => "LtEq"
  | gt => "Gt"
  | gtEq => "GtEq"
  | ampAmp => "AmpAmp"
  | pipePipe => "PipePipe"
  | bang => "Bang"

/-- The punctuation a text begins with, the longest there is. -/
def ofStart? (cs : List Char) : Option Punct := all.find? fun p => p.text.toList.isPrefixOf cs

/-- Opening brackets. -/
def isOpener (p : Punct) : Bool := p matches lparen | lbrace | lbracket

/-- Closing brackets. -/
def isCloser (p : Punct) : Bool := p matches rparen | rbrace | rbracket

end Punct

end Treewalk
