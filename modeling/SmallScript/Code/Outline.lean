import SmallScript.Code.Basic

namespace SmallScript.Code

/-- A line at a depth: the name of a node and its properties. -/
def outlineLine (depth : Nat) (name : String) (properties : List (String × String)) : String :=
  "".pushn ' ' (4 * depth) ++ name
    ++ String.join (properties.map fun p ↦ " " ++ p.1 ++ "=" ++ p.2) ++ "\n"

mutual

def Expression.outline (depth : Nat) (e : Expression) : String :=
  let head (properties : List (String × String)) :=
    outlineLine depth e.nodeName (("type", e.ty.name) :: properties)
  match e with
  | .error => head []
  | .literal v => head [("value", v.text)]
  | .var v => head [("variable", v.name)]
  | .assign v value => head [("variable", v.name)] ++ value.outline (depth + 1)
  | .unary o operand => head [("op", o.action.name)] ++ operand.outline (depth + 1)
  | .binary left o right =>
    head [("op", o.action.name)] ++ left.outline (depth + 1) ++ right.outline (depth + 1)
  | .call f arguments => head [("function", f.name)] ++ outlineArguments (depth + 1) arguments
  | .convert _ operand => head [] ++ operand.outline (depth + 1)

def outlineArguments (depth : Nat) : List Expression → String
  | [] => ""
  | e :: rest => e.outline depth ++ outlineArguments depth rest

end

def exitProperties (x : Exits) : List (String × String) :=
  [("break", x.leave.name), ("continue", x.again.name)]

mutual

def Statement.outline (depth : Nat) (s : Statement) : String :=
  let head (properties : List (String × String)) := outlineLine depth s.nodeName properties
  match s with
  | .block statements => head [] ++ outlineStatements (depth + 1) statements
  | .declare v initializer =>
    head [("variable", v.name), ("type", v.ty.name)] ++ initializer.outline (depth + 1)
  | .ifThen condition branch =>
    head [] ++ condition.outline (depth + 1) ++ branch.outline (depth + 1)
  | .ifElse condition branch otherwise =>
    head [] ++ condition.outline (depth + 1) ++ branch.outline (depth + 1)
      ++ otherwise.outline (depth + 1)
  | .whileLoop condition body exits =>
    head (exitProperties exits) ++ condition.outline (depth + 1) ++ body.outline (depth + 1)
  | .doLoop body condition exits =>
    head (exitProperties exits) ++ body.outline (depth + 1) ++ condition.outline (depth + 1)
  | .forLoop v lower upper body exits =>
    head (("variable", v.name) :: exitProperties exits) ++ lower.outline (depth + 1)
      ++ upper.outline (depth + 1) ++ body.outline (depth + 1)
  | .label l | .goto l => head [("label", l.name)]
  | .gotoIf l condition negated =>
    head [("label", l.name), ("jumpIfFalse", toString negated)] ++ condition.outline (depth + 1)
  | .leave none => head []
  | .leave (some value) => head [] ++ value.outline (depth + 1)
  | .expression e => head [] ++ e.outline (depth + 1)

def outlineStatements (depth : Nat) : List Statement → String
  | [] => ""
  | s :: rest => s.outline depth ++ outlineStatements depth rest

end

end SmallScript.Code
