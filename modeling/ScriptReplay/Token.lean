/-
Tokens.

A source text is cut into numerals, quoted texts, templates, names, keywords and symbols,
closed by an end mark.  Each token knows its location and whether a line break stands between
it and the token before it, for a line break can end a statement.

* `Keyword.text`, `Symbol.text` : the spelling of the fixed tokens;
* `TokenKind.shown` : a token as messages name it;
* `LexError.message` : the wording of what can be wrong with a text below the level of tokens.
-/
import ScriptReplay.Number.Notation
import ScriptReplay.Source

namespace ScriptReplay

/-! ### Keywords -/

/-- The reserved words. -/
inductive Keyword where
  | varKw | letKw | constKw | functionKw | returnKw | ifKw | elseKw | forKw | whileKw | doKw
  | breakKw | continueKw | trueKw | falseKw | nullKw | thisKw | newKw
      | typeofKw | tryKw | catchKw
  | finallyKw | throwKw | awaitKw
  deriving DecidableEq, Repr

/-- The spelling of a reserved word. -/
def Keyword.text : Keyword → String
  | varKw => "var"
  | letKw => "let"
  | constKw => "const"
  | functionKw => "function"
  | returnKw => "return"
  | ifKw => "if"
  | elseKw => "else"
  | forKw => "for"
  | whileKw => "while"
  | doKw => "do"
  | breakKw => "break"
  | continueKw => "continue"
  | trueKw => "true"
  | falseKw => "false"
  | nullKw => "null"
  | thisKw => "this"
  | newKw => "new"
  | typeofKw => "typeof"
  | tryKw => "try"
  | catchKw => "catch"
  | finallyKw => "finally"
  | throwKw => "throw"
  | awaitKw => "await"

/-- All reserved words. -/
def Keyword.all : List Keyword :=
  [varKw, letKw, constKw, functionKw, returnKw, ifKw, elseKw, forKw, whileKw, doKw, breakKw,
    continueKw, trueKw, falseKw, nullKw, thisKw, newKw, typeofKw, tryKw, catchKw, finallyKw,
    throwKw, awaitKw]

/-- The reserved word with this spelling. -/
def Keyword.ofText? (s : String) : Option Keyword :=
  all.find? (·.text == s)

/-! ### Symbols -/

/-- Operators and punctuation. -/
inductive Symbol where
  | plus | minus | star | starStar | slash | percent
  | eqEq | eqEqEq | bangEq | bangEqEq | less | lessEq | greater | greaterEq
  | ampAmp | barBar | queryQuery | bang
  | amp | bar | caret | tilde | shiftLeft | shiftRight | shiftRightZero
  | eq | plusEq | minusEq | starEq | starStarEq | slashEq
      | percentEq | ampEq | barEq | caretEq
  | shiftLeftEq | shiftRightEq | shiftRightZeroEq
  | plusPlus | minusMinus
  | dot | arrow | query | colon | lparen | rparen | lbrace | rbrace | lbracket | rbracket
  | semicolon | comma
  deriving DecidableEq, Repr

/-- The spelling of a symbol. -/
def Symbol.text : Symbol → String
  | plus => "+"
  | minus => "-"
  | star => "*"
  | starStar => "**"
  | slash => "/"
  | percent => "%"
  | eqEq => "=="
  | eqEqEq => "==="
  | bangEq => "!="
  | bangEqEq => "!=="
  | less => "<"
  | lessEq => "<="
  | greater => ">"
  | greaterEq => ">="
  | ampAmp => "&&"
  | barBar => "||"
  | queryQuery => "??"
  | bang => "!"
  | amp => "&"
  | bar => "|"
  | caret => "^"
  | tilde => "~"
  | shiftLeft => "<<"
  | shiftRight => ">>"
  | shiftRightZero => ">>>"
  | eq => "="
  | plusEq => "+="
  | minusEq => "-="
  | starEq => "*="
  | starStarEq => "**="
  | slashEq => "/="
  | percentEq => "%="
  | ampEq => "&="
  | barEq => "|="
  | caretEq => "^="
  | shiftLeftEq => "<<="
  | shiftRightEq => ">>="
  | shiftRightZeroEq => ">>>="
  | plusPlus => "++"
  | minusMinus => "--"
  | dot => "."
  | arrow => "=>"
  | query => "?"
  | colon => ":"
  | lparen => "("
  | rparen => ")"
  | lbrace => "\x7b"
  | rbrace => "\x7d"
  | lbracket => "["
  | rbracket => "]"
  | semicolon => ";"
  | comma => ","

/-- All symbols, the longer ones first, so that the first that fits is the longest. -/
def Symbol.all : List Symbol :=
  [shiftRightZeroEq,
    eqEqEq, bangEqEq, starStarEq, shiftRightZero, shiftLeftEq, shiftRightEq,
    starStar, eqEq, bangEq, lessEq, greaterEq, ampAmp, barBar, queryQuery,
    shiftLeft, shiftRight, plusEq, minusEq, starEq, slashEq, percentEq, ampEq, barEq, caretEq,
    plusPlus, minusMinus, arrow,
    plus, minus, star, slash, percent, less, greater, bang, amp, bar, caret, tilde, eq, dot,
    query, colon, lparen, rparen, lbrace, rbrace, lbracket, rbracket, semicolon, comma]

/-- The longest symbol that a text starts with. -/
def Symbol.leading? (cs : List Char) : Option Symbol :=
  all.find? (·.text.toList.isPrefixOf cs)

/-! ### Tokens -/

/-- The source of an embedded expression of a template, and where it stands in the
whole text. -/
structure Chunk where
  source : String
  origin : Location
  deriving DecidableEq, Repr

/-- What a token is.  A template has one more text than it has chunks; they alternate. -/
inductive TokenKind where
  | number (value : Float)
  | string (value : String)
  | template (texts : List String) (chunks : List Chunk)
  | name (text : String)
  | keyword (word : Keyword)
  | symbol (sym : Symbol)
  | finish
  deriving Repr

/-- A token with its location and whether a line break precedes it. -/
structure Token where
  kind : TokenKind
  loc : Location
  newlineBefore : Bool
  deriving Repr

/-- A token as messages name it. -/
def TokenKind.shown : TokenKind → String
  | number x => "number " ++ plainText x
  | string s => "string \"" ++ s ++ "\""
  | template _ _ => "template literal"
  | name s => "identifier '" ++ s ++ "'"
  | keyword k => "'" ++ k.text ++ "'"
  | symbol s => "'" ++ s.text ++ "'"
  | finish => "end of input"

/-- Whether a token is this symbol. -/
def TokenKind.isSymbol (k : TokenKind) (s : Symbol) : Bool :=
  match k with
  | symbol t => t == s
  | _ => false

/-- Whether a token is this keyword. -/
def TokenKind.isKeyword (k : TokenKind) (w : Keyword) : Bool :=
  match k with
  | keyword v => v == w
  | _ => false

/-- Whether a token is this name. -/
def TokenKind.isName (k : TokenKind) (s : String) : Bool :=
  match k with
  | name t => t == s
  | _ => false

/-- The tokens of a text: all but the end mark, and the end mark. -/
structure Tokens where
  body : List Token
  final : Token
  deriving Repr

/-- The tokens in order. -/
def Tokens.toList (ts : Tokens) : List Token :=
  ts.body ++ [ts.final]

/-! ### Faults -/

/-- What can be wrong with a text before its tokens are known. -/
inductive LexCause where
  | unexpectedChar (c : Char)
  | unterminatedString
  | unterminatedTemplate
  | unterminatedComment
  | badEscape (digits : String)
  | badNumeral (text : String)
  | badRadixNumeral
  deriving DecidableEq, Repr

/-- The wording of a fault. -/
def LexCause.message : LexCause → String
  | unexpectedChar c => "Unexpected character '" ++ String.singleton c ++ "'"
  | unterminatedString => "Unterminated string constant"
  | unterminatedTemplate => "Unterminated template"
  | unterminatedComment => "Unterminated comment"
  | badEscape digits => "Invalid escape sequence '" ++ digits ++ "'"
  | badNumeral text => "Invalid number '" ++ text ++ "'"
  | badRadixNumeral => "Invalid number"

/-- A fault and its place. -/
structure LexError where
  cause : LexCause
  loc : Location
  deriving DecidableEq, Repr

/-- A message followed by the line and column it speaks of. -/
def messageAt (text : String) (l : Location) : String :=
  text ++ " (" ++ toString l.line ++ ":" ++ toString l.column ++ ")"

/-- The wording of a fault with its place. -/
def LexError.message (e : LexError) : String :=
  messageAt e.cause.message e.loc

end ScriptReplay
