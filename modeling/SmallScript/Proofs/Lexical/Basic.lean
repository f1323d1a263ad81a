import SmallScript.Proofs.Resolve.Fresh

namespace SmallScript.Lexical

open Code (Expression)

/-- What a name stands for in scopes, the innermost first: in the first scope that has it, its first
declaration. -/
def lookup (scopes : List (List Variable)) (name : String) : Option Variable :=
  scopes.findSome? fun vars ↦ vars.find? (·.name == name)

/-- What names stand for at a place: the variables of the scopes around it, the innermost first, and
the functions, the nearest first. -/
structure Env where
  scopes : List (List Variable)
  functions : List Function

namespace Env

def var? (e : Env) (name : String) : Option Variable := lookup e.scopes name

def function? (e : Env) (name : String) : Option Function := e.functions.find? (·.name == name)

end Env

/-- Declares a variable in the innermost scope, where the first declaration of a name stays. -/
def declare (v : Variable) : List (List Variable) → List (List Variable)
  | [] => []
  | vars :: outer => (if v.name ∈ vars.map Variable.name then vars else vars ++ [v]) :: outer

section Expression

def needValue (e : Expression) : Expression := if e.ty = .void then .error else e

def convert (e : Expression) (target : Ty) : Expression :=
  match Conversion.classify e.ty target with
  | .none => .error
  | .identity => e
  | .silent | .explicit => .convert target e

def named (env : Env) (identifier : Token) : Expression :=
  if identifier.isMissing then .error else (env.var? identifier.text).elim .error .var

def assigned (env : Env) (identifier : Token) (value : Expression) : Expression :=
  match env.var? identifier.text with
  | none => value
  | some v => .assign v (convert value v.ty)

def unary (sign : Token) (operand : Expression) : Expression :=
  if operand.ty = .unknown then .error
  else (UnaryOperator.find? sign.kind operand.ty).elim .error (.unary · operand)

def binary (left : Expression) (sign : Token) (right : Expression) : Expression :=
  if left.ty = .unknown ∨ right.ty = .unknown then .error
  else (BinaryOperator.find? sign.kind left.ty right.ty).elim .error (.binary left · right)

def called (env : Env) (identifier : Token) (arguments : List Expression) : Expression :=
  match env.function? identifier.text with
  | none => .error
  | some f =>
    if arguments.map Expression.ty = f.parameters.map Variable.ty then .call f arguments else .error

mutual

def expression (env : Env) : Tree.Expression → Expression
  | .literal _ x => .literal x
  | .name identifier => named env identifier
  | .unary sign operand => unary sign (needValue (expression env operand))
  | .binary left sign right =>
    binary (needValue (expression env left)) sign (needValue (expression env right))
  | .group _ inner _ => needValue (expression env inner)
  | .assign identifier _ value => assigned env identifier (needValue (expression env value))
  | .call identifier _ arguments _ =>
    match expressions env arguments, Ty.written? identifier.text with
    | [e], some target => convert e target
    | es, _ => called env identifier es

def expressions (env : Env) : List Tree.Expression → List Expression
  | [] => []
  | e :: rest => needValue (expression env e) :: expressions env rest

end

def value (env : Env) (e : Tree.Expression) : Expression := needValue (expression env e)

def valueOf (env : Env) (target : Ty) (e : Tree.Expression) : Expression :=
  convert (value env e) target

def clauseType? : Option Tree.TypeClause → Option Ty
  | none => none
  | some clause =>
    if clause.identifier.isMissing then none else Ty.written? clause.identifier.text

end Expression

/-- What is around a place and stays: the function, the functions in reach, and the loops, innermost
first. -/
structure Context where
  owner : Option Function
  functions : List Function
  loops : List Exits

/-- What goes from one statement to the next: the scopes, innermost first, and the numbers used so
far. -/
structure State where
  scopes : List (List Variable)
  nextSymbol : Nat
  loopCount : Nat

def Context.env (c : Context) (s : State) : Env := ⟨s.scopes, c.functions⟩

def Context.inLoop (c : Context) (x : Exits) : Context := { c with loops := x :: c.loops }

namespace State

def enter (s : State) : State := { s with scopes := [] :: s.scopes }

def exits (s : State) : Exits := ⟨.breakOf (s.loopCount + 1), .continueOf (s.loopCount + 1)⟩

def countLoop (s : State) : State := { s with loopCount := s.loopCount + 1 }

end State

section Statement

open Code (Statement)

def declared (c : Context) (identifier : Token) (readOnly : Bool) (ty : Ty) (s : State) :
    Variable × State :=
  let name := if identifier.isMissing then "?" else identifier.text
  let kind := if c.owner.isSome then .local else .global
  let v : Variable := ⟨s.nextSymbol, name, kind, ty, readOnly⟩
  let scopes := if identifier.isMissing then s.scopes else declare v s.scopes
  (v, { s with scopes, nextSymbol := s.nextSymbol + 1 })

/-- The initializer is resolved before the variable is declared. -/
def declaration (c : Context) (keyword identifier : Token) (clause : Option Tree.TypeClause)
    (initializer : Tree.Expression) (s : State) : Statement × State :=
  let e := value (c.env s) initializer
  let ty := (clauseType? clause).getD e.ty
  let (v, s) := declared c identifier (keyword.kind == .word .letName) ty s
  (.declare v (convert e ty), s)

def jump (c : Context) (target : Exits → Label) : Statement :=
  c.loops.head?.elim (.expression .error) fun x ↦ .goto (target x)

def leaving (c : Context) (e : Option Tree.Expression) (s : State) : Statement :=
  match c.owner, e.map (value (c.env s)) with
  | none, result => .leave result
  | some f, some r => .leave (some (if f.returns = .void then r else convert r f.returns))
  | some _, none => .leave none

mutual

def statement : Tree.Statement → Context → State → Statement × State
  | .block _ inner _, c, s =>
    let (code, last) := statements inner c s.enter
    (.block code, { last with scopes := s.scopes })
  | .declare keyword identifier clause _ initializer, c, s =>
    declaration c keyword identifier clause initializer s
  | .ifThen _ condition branch, c, s =>
    let (code, last) := statement branch c s
    (.ifThen (valueOf (c.env s) .bool condition) code, last)
  | .ifElse _ condition branch _ otherwise, c, s =>
    let (first, s') := statement branch c s
    let (second, last) := statement otherwise c s'
    (.ifElse (valueOf (c.env s) .bool condition) first second, last)
  | .whileLoop _ condition body, c, s =>
    let (turn, last) := statement body (c.inLoop s.exits) s.countLoop
    (.whileLoop (valueOf (c.env s) .bool condition) turn s.exits, last)
  | .doLoop _ body _ condition, c, s =>
    let (turn, last) := statement body (c.inLoop s.exits) s.countLoop
    (.doLoop turn (valueOf (c.env last) .bool condition) s.exits, last)
  | .forLoop _ identifier _ lower _ upper body, c, s =>
    let (v, inner) := declared c identifier true .int s.enter
    let (turn, last) := statement body (c.inLoop inner.exits) inner.countLoop
    (.forLoop v (valueOf (c.env s) .int lower) (valueOf (c.env s) .int upper) turn inner.exits,
      { last with scopes := s.scopes })
  | .breakLoop _, c, s => (jump c Exits.leave, s)
  | .continueLoop _, c, s => (jump c Exits.again, s)
  | .leave _ e, c, s => (leaving c e s, s)
  | .expression e, c, s => (.expression (expression (c.env s) e), s)

def statements : List Tree.Statement → Context → State → List Statement × State
  | [], _, s => ([], s)
  | t :: rest, c, s =>
    let (first, s') := statement t c s
    let (code, last) := statements rest c s'
    (first :: code, last)

end

end Statement

section Text

/-- The parameters of a function, the first of each name, and the next free number for a symbol. -/
def parameters (seen : List String) : List Tree.Parameter → Nat → List Variable × Nat
  | [], n => ([], n)
  | p :: rest, n =>
    if p.identifier.text ∈ seen then parameters seen rest n
    else
      let ty := (clauseType? (some p.clause)).getD .unknown
      let v : Variable := ⟨n, p.identifier.text, .parameter, ty, true⟩
      let (vs, n) := parameters (p.identifier.text :: seen) rest (n + 1)
      (v :: vs, n)

/-- The head of a function, unless its name is missing or taken, and the next free number for a
symbol. -/
def head (taken : List String) (text : Tree.Function) (n : Nat) : Option FunctionText × Nat :=
  let name := text.identifier.text
  let (params, n) := parameters [] text.parameters n
  let f : Function := ⟨.declared n, name, params, (clauseType? text.clause).getD .void⟩
  (if text.identifier.isMissing ∨ name ∈ taken then none else some ⟨f, text⟩, n + 1)

/-- The functions of a text, the first of each name. -/
def heads (taken : List String) : List Tree.Function → Nat → List FunctionText × Nat
  | [], n => ([], n)
  | text :: rest, n =>
    let (o, n) := head taken text n
    let (ts, n) := heads (taken ++ o.toList.map (·.function.name)) rest n
    (o.toList ++ ts, n)

/-- What a text means to those after it, and its statements. -/
structure Meaning where
  functions : List FunctionText
  vars : List Variable
  statements : List Code.Statement

/-- The functions in reach of some texts, the latest first, and then those that are built in. -/
def callables (texts : List Meaning) : List Function :=
  (texts.flatMap (·.functions)).map (·.function) ++ Builtin.all.map Builtin.function

/-- A text behind some others, the latest of them first, and the next free number for a symbol. -/
def text (earlier : List Meaning) (source : Tree.Source) (n : Nat) : Meaning × Nat :=
  let (functions, n) := heads [] source.functions n
  let c : Context := ⟨none, functions.map (·.function) ++ callables earlier, []⟩
  let (code, last) := statements source.outside c ⟨[] :: earlier.map (·.vars), n, 0⟩
  (⟨functions, last.scopes.headD [], code⟩, last.nextSymbol)

/-- The statements of a function behind some texts: in a scope inside that of its parameters. -/
def body (texts : List Meaning) (t : FunctionText) (n : Nat) : List Code.Statement × Nat :=
  let c : Context := ⟨some t.function, callables texts, []⟩
  let (code, last) :=
    statements t.text.body.statements c ⟨[] :: t.function.parameters :: texts.map (·.vars), n, 0⟩
  (code, last.nextSymbol)

/-- Texts one behind the other, the latest first, each with the first number for its symbols. -/
def texts : List (Tree.Source × Nat) → List Meaning
  | [] => []
  | (source, n) :: earlier => (text (texts earlier) source n).1 :: texts earlier

/-- The flat bodies of functions behind some texts, and the next free number for a symbol. -/
def bodies (texts : List Meaning) : List FunctionText → Nat → List (Function × Code.Body) × Nat
  | [], n => ([], n)
  | t :: rest, n =>
    let (code, n) := body texts t n
    let (flat, n) := Code.flattenBody code n
    let (later, n) := bodies texts rest n
    ((t.function, flat) :: later, n)

/-- The flat bodies of all functions in reach of the latest text, and of its statements. -/
def program (texts : List Meaning) (n : Nat) : List (Function × Code.Body) × Code.Body :=
  let (functions, n) := bodies texts (texts.flatMap (·.functions)) n
  (functions, (Code.flattenBody (texts.head?.elim [] (·.statements)) n).1)

end Text

end SmallScript.Lexical
