import Treewalk.Text.Quoted

/-!
# Tokens

The words of the language: seventeen keywords, twenty fixed symbols, and three kinds of
token that carry a value. `Token.text` is how a token is named in a message,
`Token.shown` how a listing of tokens shows it. A string's `text` is its value between
quotes, not its source form.
-/

namespace Treewalk

/-- Reserved words. -/
inductive Keyword where
  | func | cls | var | ifs | els | whiles | ret | brk | print | printLine
  | true | false | nil | this | super | and | or
deriving DecidableEq

namespace Keyword

/-- The spelling of a reserved word. -/
def text : Keyword → String
  | func => "func"
  | cls => "class"
  | var => "var"
  | ifs => "if"
  | els => "else"
  | whiles => "while"
  | ret => "return"
  | brk => "break"
  | print => "print"
  | printLine => "printLine"
  | true => "true"
  | false => "false"
  | nil => "nil"
  | this => "this"
  | super => "super"
  | and => "and"
  | or => "or"

/-- The name of the word's kind in a listing of tokens. -/
def label : Keyword → String
  | func => "Func"
  | cls => "Class"
  | var => "Var"
  | ifs => "If"
  | els => "Else"
  | whiles => "While"
  | ret => "Return"
  | brk => "Break"
  | print => "Print"
  | printLine => "PrintLine"
  | true => "True"
  | false => "False"
  | nil => "Nil"
  | this => "This"
  | super => "Super"
  | and => "And"
  | or => "Or"

/-- Every reserved word. -/
def all : List Keyword :=
  [func, cls, var, ifs, els, whiles, ret, brk, print, printLine,
   true, false, nil, this, super, and, or]

/-- The reserved word spelled so, if there is one. -/
def ofText? (word : String) : Option Keyword :=
  all.find? fun k => k.text == word

end Keyword

/-- Operators, brackets and punctuation. -/
inductive Sign where
  | plus | minus | star | slash | eq | eqEq | notEq | bang | lt | gt | ltEq | gtEq
  | lparen | rparen | lbrace | rbrace | comma | semi | colon | dot
deriving DecidableEq

namespace Sign

/-- The spelling of a sign. -/
def text : Sign → String
  | plus => "+"
  | minus => "-"
  | star => "*"
  | slash => "/"
  | eq => "="
  | eqEq => "=="
  | notEq => "!="
  | bang => "!"
  | lt => "<"
  | gt => ">"
  | ltEq => "<="
  | gtEq => ">="
  | lparen => "("
  | rparen => ")"
  | lbrace => "\x7b"
  | rbrace => "\x7d"
  | comma => ","
  | semi => ";"
  | colon => ":"
  | dot => "."

/-- The name of the sign's kind in a listing of tokens. -/
def label : Sign → String
  | plus => "Plus"
  | minus => "Minus"
  | star => "Star"
  | slash => "Slash"
  | eq => "Eq"
  | eqEq => "EqEq"
  | notEq => "NotEq"
  | bang => "Bang"
  | lt => "Lt"
  | gt => "Gt"
  | ltEq => "LtEq"
  | gtEq => "GtEq"
  | lparen => "LParen"
  | rparen => "RParen"
  | lbrace => "LBrace"
  | rbrace => "RBrace"
  | comma => "Comma"
  | semi => "Semi"
  | colon => "Colon"
  | dot => "Dot"

end Sign

/-- A token: a reserved word, a sign, a number, a string or a name. -/
inductive Token where
  | word (k : Keyword)
  | sign (s : Sign)
  | number (n : Int64)
  | string (s : String)
  | ident (name : String)
deriving DecidableEq

namespace Token

/-- The token as a message names it. -/
def text : Token → String
  | word k => k.text
  | sign s => s.text
  | number n => toString n.toInt
  | string s => "\"" ++ s ++ "\""
  | ident name => name

/-- The token as a listing shows it: its kind, and its value if it carries one. -/
def shown : Token → String
  | word k => k.label
  | sign s => s.label
  | number n => "NumberLit(" ++ toString n.toInt ++ ")"
  | string s => "StringLit(" ++ Text.quoted s ++ ")"
  | ident name => "Ident(" ++ Text.quoted name ++ ")"

end Token

end Treewalk
