namespace SmallScript

inductive Punctuation
  | plus | minus | star | slash | bang | equals | tilde | hat
  | ampersand | ampersandAmpersand | pipe | pipePipe
  | equalsEquals | bangEquals | less | lessOrEquals | greater | greaterOrEquals
  | openParenthesis | closeParenthesis | openBrace | closeBrace | colon | comma
  deriving DecidableEq, Repr

inductive Keyword
  | breakLoop | continueLoop | doLoop | elseBranch | falseValue | forLoop | functionHead
  | ifTest | letName | returnValue | toBound | trueValue | varName | whileLoop
  deriving DecidableEq, Repr

namespace Punctuation

def all : List Punctuation :=
  [plus, minus, star, slash, bang, equals, tilde, hat, ampersand, ampersandAmpersand, pipe,
    pipePipe, equalsEquals, bangEquals, less, lessOrEquals, greater, greaterOrEquals,
    openParenthesis, closeParenthesis, openBrace, closeBrace, colon, comma]

def text : Punctuation → String
  | plus => "+"
  | minus => "-"
  | star => "*"
  | slash => "/"
  | bang => "!"
  | equals => "="
  | tilde => "~"
  | hat => "^"
  | ampersand => "&"
  | ampersandAmpersand => "&&"
  | pipe => "|"
  | pipePipe => "||"
  | equalsEquals => "=="
  | bangEquals => "!="
  | less => "<"
  | lessOrEquals => "<="
  | greater => ">"
  | greaterOrEquals => ">="
  | openParenthesis => "("
  | closeParenthesis => ")"
  | openBrace => "\x7b"
  | closeBrace => "\x7d"
  | colon => ":"
  | comma => ","

def name : Punctuation → String
  | plus => "PlusToken"
  | minus => "MinusToken"
  | star => "StarToken"
  | slash => "SlashToken"
  | bang => "BangToken"
  | equals => "EqualsToken"
  | tilde => "TildeToken"
  | hat => "HatToken"
  | ampersand => "AmpersandToken"
  | ampersandAmpersand => "AmpersandAmpersandToken"
  | pipe => "PipeToken"
  | pipePipe => "PipePipeToken"
  | equalsEquals => "EqualsEqualsToken"
  | bangEquals => "BangEqualsToken"
  | less => "LessToken"
  | lessOrEquals => "LessOrEqualsToken"
  | greater => "GreaterToken"
  | greaterOrEquals => "GreaterOrEqualsToken"
  | openParenthesis => "OpenParenthesisToken"
  | closeParenthesis => "CloseParenthesisToken"
  | openBrace => "OpenBraceToken"
  | closeBrace => "CloseBraceToken"
  | colon => "ColonToken"
  | comma => "CommaToken"

theorem mem_all (p : Punctuation) : p ∈ all := by cases p <;> decide

end Punctuation

namespace Keyword

def all : List Keyword :=
  [breakLoop, continueLoop, doLoop, elseBranch, falseValue, forLoop, functionHead, ifTest, letName,
    returnValue, toBound, trueValue, varName, whileLoop]

def text : Keyword → String
  | breakLoop => "break"
  | continueLoop => "continue"
  | doLoop => "do"
  | elseBranch => "else"
  | falseValue => "false"
  | forLoop => "for"
  | functionHead => "function"
  | ifTest => "if"
  | letName => "let"
  | returnValue => "return"
  | toBound => "to"
  | trueValue => "true"
  | varName => "var"
  | whileLoop => "while"

def name : Keyword → String
  | breakLoop => "BreakKeyword"
  | continueLoop => "ContinueKeyword"
  | doLoop => "DoKeyword"
  | elseBranch => "ElseKeyword"
  | falseValue => "FalseKeyword"
  | forLoop => "ForKeyword"
  | functionHead => "FunctionKeyword"
  | ifTest => "IfKeyword"
  | letName => "LetKeyword"
  | returnValue => "ReturnKeyword"
  | toBound => "ToKeyword"
  | trueValue => "TrueKeyword"
  | varName => "VarKeyword"
  | whileLoop => "WhileKeyword"

def find? (word : String) : Option Keyword := all.find? fun k ↦ k.text == word

theorem mem_all (k : Keyword) : k ∈ all := by cases k <;> decide

theorem find?_text (k : Keyword) : find? k.text = some k := by cases k <;> decide

theorem text_of_find? {word : String} {k : Keyword} (h : find? word = some k) : k.text = word := by
  simpa using List.find?_some h

end Keyword

namespace Token

inductive Kind
  | bad
  | endOfFile
  | number
  | string
  | identifier
  | mark (p : Punctuation)
  | word (k : Keyword)
  deriving DecidableEq, Repr

namespace Kind

def name : Kind → String
  | bad => "BadToken"
  | endOfFile => "EndOfFileToken"
  | number => "NumberToken"
  | string => "StringToken"
  | identifier => "IdentifierToken"
  | mark p => p.name
  | word k => k.name

def isKeyword : Kind → Bool
  | word _ => true
  | _ => false

def isPunctuation : Kind → Bool
  | mark _ => true
  | _ => false

def withFixedText : List Kind := Punctuation.all.map mark ++ Keyword.all.map word

def fixedText? : Kind → Option String
  | mark p => some p.text
  | word k => some k.text
  | _ => none

def ofFixedText? (text : String) : Option Kind :=
  withFixedText.find? fun k ↦ k.fixedText? == some text

end Kind

end Token

namespace Token.Kind

def binaryLevel? : Kind → Option Nat
  | mark .star | mark .slash => some 5
  | mark .plus | mark .minus => some 4
  | mark .equalsEquals | mark .bangEquals | mark .less | mark .lessOrEquals | mark .greater
  | mark .greaterOrEquals => some 3
  | mark .ampersand | mark .ampersandAmpersand => some 2
  | mark .pipe | mark .pipePipe | mark .hat => some 1
  | _ => none

def unaryLevel? : Kind → Option Nat
  | mark .plus | mark .minus | mark .bang | mark .tilde => some 6
  | _ => none

def unaryOperators : List Kind := withFixedText.filter fun k ↦ k.unaryLevel?.isSome

def binaryOperators : List Kind := withFixedText.filter fun k ↦ k.binaryLevel?.isSome

theorem binaryLevel?_lt_unaryLevel? {k l : Kind} {m n : Nat} (hk : k.binaryLevel? = some m)
    (hl : l.unaryLevel? = some n) : m < n := by
  have hm : m ≤ 5 := by
    unfold binaryLevel? at hk
    split at hk <;> simp_all <;> omega
  have hn : n = 6 := by
    unfold unaryLevel? at hl
    split at hl <;> simp_all
  omega

end Token.Kind

end SmallScript
