/-
# Tokens
-/
import WordAsm.Source.Location
import WordAsm.Text.Quoted

namespace WordAsm

inductive TokenKind
  | shiftLeft
  | shiftRight
  | plus
  | minus
  | star
  | slash
  | percent
  | amp
  | pipe
  | caret
  | tilde
  | dollar
  | colon
  | comma
  | leftParen
  | rightParen
  /-- A name that starts with a letter or an underscore. -/
  | ident (name : String)
  /-- A name behind a point: a directive or a local label. -/
  | dotted (name : String)
  | number (value : Int64)
  | char (value : Char)
  | str (text : String)
  | comment (text : String)
  /-- Characters that form no token, with what is wrong about them. -/
  | error (text : String)
  deriving DecidableEq

structure Token where
  kind : TokenKind
  location : Location
  deriving DecidableEq

namespace TokenKind

def title : TokenKind → String
  | shiftLeft => "LAngleLAngle"
  | shiftRight => "RAngleRAngle"
  | plus => "Plus"
  | minus => "Minus"
  | star => "Star"
  | slash => "Slash"
  | percent => "Percent"
  | amp => "Amp"
  | pipe => "Pipe"
  | caret => "Caret"
  | tilde => "Tilde"
  | dollar => "Dollar"
  | colon => "Colon"
  | comma => "Comma"
  | leftParen => "LParen"
  | rightParen => "RParen"
  | ident _ => "Ident"
  | dotted _ => "Dotted"
  | number _ => "Number"
  | char _ => "Char"
  | str _ => "Str"
  | comment _ => "Comment"
  | error _ => "Error"

def describe : TokenKind → String
  | ident name => s!"`{name}`"
  | dotted name => s!"`{name}`"
  | number value => s!"number `{value}`"
  | char value => "character `" ++ quotedChar value ++ "`"
  | str text => s!"string \"{text}\""
  | comment _ => "comment"
  | error text => s!"`{text}`"
  | kind => "`" ++ kind.title ++ "`"

def isComment : TokenKind → Bool
  | comment _ => true
  | _ => false

def isError : TokenKind → Bool
  | error _ => true
  | _ => false

end TokenKind

end WordAsm
