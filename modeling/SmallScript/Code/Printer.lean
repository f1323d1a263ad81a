import SmallScript.Code.Basic
import SmallScript.Text.Literal
import SmallScript.Token.Kind

namespace SmallScript.Code

/-- A part of a line that is one token, a blank, or the sign of an expression without meaning. -/
inductive Piece
  | name (s : String)
  | word (s : String)
  | sign (p : Punctuation)
  | literal (v : Value)
  | blank
  | unknown
  deriving DecidableEq

namespace Piece

def text : Piece → String
  | name s => s
  | word s => s
  | sign p => p.text
  | literal (.string s) => Quoted.encode s
  | literal v => v.text
  | blank => " "
  | unknown => "?"

end Piece

namespace Expression

def level : Expression → Nat
  | binary _ o _ => (Token.Kind.binaryLevel? (.mark o.sign)).getD 0
  | _ => 6

/-- Whether an operand needs parentheses under an operator of a level; `right` tells that it stands
to the right. -/
def needsGroup (outer : Nat) (right : Bool) : Expression → Bool
  | assign _ _ => true
  | e@(unary _ _) | e@(binary _ _ _) => e.level < outer || (right && e.level == outer)
  | _ => false

end Expression

def grouped (needed : Bool) (pieces : List Piece) : List Piece :=
  if needed then .sign .openParenthesis :: pieces ++ [.sign .closeParenthesis] else pieces

mutual

def Expression.pieces : Expression → List Piece
  | .error => [.unknown]
  | .literal v => [.literal v]
  | .var v => [.name v.name]
  | .assign v value => [.name v.name, .blank, .sign .equals, .blank] ++ value.pieces
  | .unary o operand => .sign o.sign :: grouped (operand.needsGroup 6 true) operand.pieces
  | .binary left o right =>
    let own := (Token.Kind.binaryLevel? (.mark o.sign)).getD 0
    grouped (left.needsGroup own false) left.pieces ++ [.blank, .sign o.sign, .blank]
      ++ grouped (right.needsGroup own true) right.pieces
  | .call f arguments => .name f.name :: grouped true (argumentPieces arguments)
  | .convert target operand => .name target.name :: grouped true operand.pieces

def argumentPieces : List Expression → List Piece
  | [] => []
  | [e] => e.pieces
  | e :: rest => e.pieces ++ [.sign .comma, .blank] ++ argumentPieces rest

end

/-- Pieces behind an indentation of four blanks for each step. -/
structure Line where
  depth : Nat
  pieces : List Piece

namespace Line

def text (l : Line) : String :=
  "".pushn ' ' (4 * l.depth) ++ String.join (l.pieces.map Piece.text) ++ "\n"

def openBrace (depth : Nat) : Line := ⟨depth, [.sign .openBrace]⟩

def closeBrace (depth : Nat) : Line := ⟨depth, [.sign .closeBrace]⟩

end Line

namespace Statement

/-- The depth of a statement inside another: a block stays at the depth of what it belongs to. -/
def innerDepth (depth : Nat) : Statement → Nat
  | block _ => depth
  | _ => depth + 1

end Statement

mutual

/-- The lines of a statement. A label stands one step to the left of what is around it. -/
def Statement.lines (depth : Nat) : Statement → List Line
  | .block statements =>
    Line.openBrace depth :: statementLines (depth + 1) statements ++ [Line.closeBrace depth]
  | .declare v initializer =>
    [⟨depth, [.word (if v.readOnly then "let" else "var"), .blank, .name v.name, .blank,
      .sign .equals, .blank] ++ initializer.pieces⟩]
  | .ifThen condition branch =>
    ⟨depth, [.word "if", .blank] ++ condition.pieces⟩ :: branch.lines (branch.innerDepth depth)
  | .ifElse condition branch otherwise =>
    ⟨depth, [.word "if", .blank] ++ condition.pieces⟩ :: branch.lines (branch.innerDepth depth)
      ++ ⟨depth, [.word "else"]⟩ :: otherwise.lines (otherwise.innerDepth depth)
  | .whileLoop condition body _ =>
    ⟨depth, [.word "while", .blank] ++ condition.pieces⟩ :: body.lines (body.innerDepth depth)
  | .doLoop body condition _ =>
    ⟨depth, [.word "do"]⟩ :: body.lines (body.innerDepth depth)
      ++ [⟨depth, [.word "while", .blank] ++ condition.pieces⟩]
  | .forLoop v lower upper body _ =>
    ⟨depth, [.word "for", .blank, .name v.name, .blank, .sign .equals, .blank] ++ lower.pieces
      ++ [.blank, .word "to", .blank] ++ upper.pieces⟩ :: body.lines (body.innerDepth depth)
  | .label l => [⟨depth - 1, [.name l.name, .sign .colon]⟩]
  | .goto l => [⟨depth, [.word "goto", .blank, .name l.name]⟩]
  | .gotoIf l condition negated =>
    [⟨depth, [.word "goto", .blank, .name l.name, .blank,
      .word (if negated then "unless" else "if"), .blank] ++ condition.pieces⟩]
  | .leave none => [⟨depth, [.word "return"]⟩]
  | .leave (some value) => [⟨depth, [.word "return", .blank] ++ value.pieces⟩]
  | .expression e => [⟨depth, e.pieces⟩]

def statementLines (depth : Nat) : List Statement → List Line
  | [] => []
  | s :: rest => s.lines depth ++ statementLines depth rest

end

def typedName (v : Variable) : List Piece :=
  [.name v.name, .sign .colon, .blank, .name v.ty.name]

def parameterPieces : List Variable → List Piece
  | [] => []
  | [v] => typedName v
  | v :: rest => typedName v ++ [.sign .comma, .blank] ++ parameterPieces rest

/-- The head of a function. Only a function that returns a value names a type. -/
def headLine (f : Function) : Line :=
  ⟨0, [.word "function", .blank, .name f.name] ++ grouped true (parameterPieces f.parameters)
    ++ if f.returns = .void then [] else [.sign .colon, .blank, .name f.returns.name]⟩

def linesText (lines : List Line) : String := String.join (lines.map Line.text)

def Expression.text (e : Expression) : String := String.join (e.pieces.map Piece.text)

def Statement.text (s : Statement) : String := linesText (s.lines 0)

end SmallScript.Code
