import Mathlib.Data.Nat.Size
import NucLlm.Whence.Ast
import Mathlib.Algebra.GroupWithZero.Nat

/-!
# Whence tokens

The tokens of the lexer and how messages spell them.  The end of the input is
the end of the token list.
-/

namespace NucLlm.Whence

inductive Kw where
  | let_ | fn | if_ | else_ | check | rescue | why | snip | miss | true_ | false_ | and | or | not
deriving DecidableEq

namespace Kw

def text : Kw → String
  | let_ => "let"
  | fn => "fn"
  | if_ => "if"
  | else_ => "else"
  | check => "check"
  | rescue => "rescue"
  | why => "why"
  | snip => "snip"
  | miss => "miss"
  | true_ => "true"
  | false_ => "false"
  | and => "and"
  | or => "or"
  | not => "not"

end Kw

inductive Punct where
  | eqEq | notEq | le | ge | record | arrow
  | plus | minus | star | slash | percent
  | lparen | rparen | lbracket | rbracket | lbrace | rbrace
  | comma | colon | dot | assign | lt | gt
deriving DecidableEq

namespace Punct

def text : Punct → String
  | eqEq => "=="
  | notEq => "!="
  | le => "<="
  | ge => ">="
  | record => "@\x7b"
  | arrow => "->"
  | plus => "+"
  | minus => "-"
  | star => "*"
  | slash => "/"
  | percent => "%"
  | lparen => "("
  | rparen => ")"
  | lbracket => "["
  | rbracket => "]"
  | lbrace => "\x7b"
  | rbrace => "\x7d"
  | comma => ","
  | colon => ":"
  | dot => "."
  | assign => "="
  | lt => "<"
  | gt => ">"

end Punct

inductive Tok where
  | number (value : Number)
  | string (value : String)
  | name (value : String)
  | kw (value : Kw)
  | newline
  | punct (value : Punct)
deriving DecidableEq

structure Token where
  tok : Tok
  line : ℕ
  col : ℕ
deriving DecidableEq

/-- The integers `show_int` spells out. -/
def showIntBits : ℕ := 13287

def showInt (n : ℕ) : String :=
  if n < 2 ^ showIntBits then toString n else s!"<integer, {n.size} bits>"

def quoteChar : Char → String
  | '\\' => "\\\\"
  | '"' => "\\\""
  | '\n' => "\\n"
  | '\t' => "\\t"
  | '\r' => "\\r"
  | c => String.singleton c

/-- `quote_str` without a limit. -/
def quoteStr (s : String) : String := "\"" ++ String.join (s.toList.map quoteChar) ++ "\""

namespace Tok

/-- The token's value as text. -/
def text : Tok → String
  | number (.int n) => toString n
  | number (.float repr) => repr
  | string s => s
  | name n => n
  | kw k => k.text
  | newline => "\n"
  | punct p => p.text

/-- `_spell`. -/
def spell : Tok → String
  | string s => quoteStr s
  | t => t.text

/-- `_show`, where nothing is the end of the input. -/
def showTok : Option Tok → String
  | none => "end of input"
  | some newline => "a line break"
  | some (string s) => quoteStr s
  | some (number (.int n)) => showInt n
  | some (number (.float repr)) => repr
  | some t => s!"'{t.text}'"

end Tok

end NucLlm.Whence
