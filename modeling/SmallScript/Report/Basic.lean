import SmallScript.Text.Literal
import SmallScript.Text.Position
import SmallScript.Token.Kind
import SmallScript.Value

namespace SmallScript

namespace Template

def place (i : Nat) : List Char := '{' :: (Nat.toDigits 10 i ++ ['}'])

/-- The template with the argument numbered `i` in all its places. -/
def fillOne (template : List Char) (argument : String) (i : Nat) : List Char :=
  replaceAll (place i) argument.toList template

/-- Fills the places of the arguments in order, each in the text that the ones before it left. -/
def fill (template : String) (arguments : List String) : String :=
  String.ofList (arguments.zipIdx.foldl (fun t a ↦ fillOne t a.1 a.2) template.toList)

end Template

inductive Cause
  | numeralTooLarge (numeral : String)
  | badCharacter (c : Char)
  | unterminatedString
  | unexpectedToken (found expected : Token.Kind)
  | unaryUndefined (sign : String) (operand : Ty)
  | binaryUndefined (sign : String) (left right : Ty)
  | variableMissing (name : String)
  | valueMissing
  | variableRedeclared (name : String)
  | cannotConvert (source target : Ty)
  | parameterRepeated (name : String)
  | readOnly (name : String)
  | functionRedeclared (name : String)
  | functionMissing (name : String)
  | argumentCount (function : String) (required given : Nat)
  | argumentType (function parameter : String) (required given : Ty)
  | typeMissing (name : String)
  | outsideLoop (keyword : String)
  | voidReturnsValue (function : String)
  | returnValueMissing (required : Ty)
  | returnOutsideFunction
  | pathWithoutReturn
  deriving DecidableEq

namespace Cause

def code : Cause → Nat
  | numeralTooLarge _ => 1001
  | badCharacter _ => 1002
  | unterminatedString => 1003
  | unexpectedToken _ _ => 1101
  | unaryUndefined _ _ => 2001
  | binaryUndefined _ _ _ => 2002
  | variableMissing _ => 2003
  | valueMissing => 2004
  | variableRedeclared _ => 2005
  | cannotConvert _ _ => 2006
  | parameterRepeated _ => 2007
  | readOnly _ => 2008
  | functionRedeclared _ => 2009
  | functionMissing _ => 2010
  | argumentCount _ _ _ => 2011
  | argumentType _ _ _ _ => 2012
  | typeMissing _ => 2013
  | outsideLoop _ => 2014
  | voidReturnsValue _ => 2015
  | returnValueMissing _ => 2016
  | returnOutsideFunction => 2017
  | pathWithoutReturn => 3001

def template : Cause → String
  | numeralTooLarge _ => "The number \x7b0\x7d isn't a valid \x7b1\x7d."
  | badCharacter _ => "bad character input: '\x7b0\x7d'."
  | unterminatedString => "Unterminated string literal."
  | unexpectedToken _ _ => "Unexpected token <\x7b0\x7d>, expected <\x7b1\x7d>."
  | unaryUndefined _ _ => "Unary operator '\x7b0\x7d' is not defined for type '\x7b1\x7d'."
  | binaryUndefined _ _ _ =>
    "Binary operator '\x7b0\x7d' is not defined for types '\x7b1\x7d' and '\x7b2\x7d'."
  | variableMissing _ => "Variable '\x7b0\x7d' does not exist."
  | valueMissing => "Expression must have a value."
  | variableRedeclared _ => "Variable '\x7b0\x7d' already declared."
  | cannotConvert _ _ => "Cannot convert type '\x7b0\x7d' to '\x7b1\x7d'."
  | parameterRepeated _ => "Parameter \x7b0\x7d declared multiple times."
  | readOnly _ => "Variable '\x7b0\x7d' is read-only and cannot be assigned to."
  | functionRedeclared _ => "Function '\x7b0\x7d' already declared."
  | functionMissing _ => "Undefined function '\x7b0\x7d'."
  | argumentCount _ _ _ =>
    "Function '\x7b0\x7d' requires \x7b1\x7d arguments but was given \x7b2\x7d."
  | argumentType _ _ _ _ =>
    "Function '\x7b0\x7d' requires argument '\x7b1\x7d' to be of type \x7b2\x7d but received \x7b3\x7d."
  | typeMissing _ => "Type '\x7b0\x7d' does not exist."
  | outsideLoop _ => "The keyword \x7b0\x7d can only be used in loops."
  | voidReturnsValue _ => "Method '\x7b0\x7d' is of type void and cannot return value."
  | returnValueMissing _ => "Missing \x7b0\x7d return value."
  | returnOutsideFunction => "Return keyword is invalid outside methods."
  | pathWithoutReturn => "Not all path return a value."

def arguments : Cause → List String
  | numeralTooLarge numeral => [numeral, Ty.int.name]
  | badCharacter c => [String.singleton c]
  | unexpectedToken found expected => [found.name, expected.name]
  | unaryUndefined sign operand => [sign, operand.name]
  | binaryUndefined sign left right => [sign, left.name, right.name]
  | variableMissing name | variableRedeclared name | parameterRepeated name | readOnly name
  | functionRedeclared name | functionMissing name | typeMissing name => [name]
  | cannotConvert source target => [source.name, target.name]
  | argumentCount function required given => [function, toString required, toString given]
  | argumentType function parameter required given =>
    [function, parameter, required.name, given.name]
  | outsideLoop keyword => [keyword]
  | voidReturnsValue function => [function]
  | returnValueMissing required => [required.name]
  | unterminatedString | valueMissing | returnOutsideFunction | pathWithoutReturn => []

def message (c : Cause) : String := Template.fill c.template c.arguments

end Cause

structure Report where
  span : Span
  cause : Cause
  deriving DecidableEq

namespace Report

/-- Every cause is an error; the line names it by its number. -/
def line (r : Report) : String := s!"error MC{r.cause.code}: {r.cause.message}"

def place (r : Report) (lines : LineMap) : String := (lines.position r.span.start).display

end Report

end SmallScript
