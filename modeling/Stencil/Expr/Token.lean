import Stencil.Number.Style

/-!
# Tokens

The words of the expression language, and how messages name them.
-/

namespace Stencil

/-- Operators and punctuation. -/
inductive Mark where
  | plus
  | minus
  | star
  | slash
  | percent
  | equal
  | notEqual
  | less
  | greater
  | lessEqual
  | greaterEqual
  | and
  | or
  | not
  | question
  | colon
  | range
  | arrow
  | openParen
  | closeParen
  | openBracket
  | closeBracket
  | openBrace
  | closeBrace
  | dot
  | comma
deriving DecidableEq

def Mark.text : Mark → String
  | plus => "+"
  | minus => "-"
  | star => "*"
  | slash => "/"
  | percent => "%"
  | equal => "=="
  | notEqual => "!="
  | less => "<"
  | greater => ">"
  | lessEqual => "<="
  | greaterEqual => ">="
  | and => "&&"
  | or => "||"
  | not => "!"
  | question => "?"
  | colon => ":"
  | range => ".."
  | arrow => "=>"
  | openParen => "("
  | closeParen => ")"
  | openBracket => "["
  | closeBracket => "]"
  | openBrace => "\x7b"
  | closeBrace => "\x7d"
  | dot => "."
  | comma => ","

namespace Token

inductive Kind where
  | float (x : Float)
  | integer (n : Int64)
  | string (s : String)
  | boolean (b : Bool)
  | null
  | name (s : String)
  | mark (m : Mark)
  /-- The end of the source. -/
  | eof

def Kind.describe : Kind → String
  | float x => "number " ++ Style.message.render x
  | integer n => "number " ++ toString n.toInt
  | string s => "string '" ++ s ++ "'"
  | boolean b => if b then "'true'" else "'false'"
  | null => "'null'"
  | name s => "identifier '" ++ s ++ "'"
  | mark m => "'" ++ m.text ++ "'"
  | eof => "end of expression"

def Kind.isMark : Kind → Mark → Bool
  | mark m, m' => m = m'
  | _, _ => false

end Token

/-- A word with its own text and the number of characters before it. -/
structure Token where
  kind : Token.Kind
  text : String
  position : Nat

end Stencil
