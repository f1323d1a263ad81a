import SmallScript.Code.Basic

namespace SmallScript.Code

/-- A body is a list of statements. Flattening makes one without structure. -/
abbrev Body := List Statement

/-- The numbers used so far for labels, and the next free number for a symbol. -/
structure Supply where
  labels : Nat
  nextSymbol : Nat

abbrev Flattening := StateM Supply

def makeLabel : Flattening Label :=
  modifyGet fun s ↦ (.made (s.labels + 1), { s with labels := s.labels + 1 })

/-- A variable for the upper bound of a loop over `v`. It is global if `v` is. -/
def makeUpperBound (v : Variable) : Flattening Variable :=
  modifyGet fun s ↦
    (⟨s.nextSymbol, "upperBound", if v.kind = .global then .global else .local, .int, true⟩,
      { s with nextSymbol := s.nextSymbol + 1 })

def atMost (v bound : Variable) : Expression :=
  .binary (.var v) ⟨.lessOrEquals, .lessOrEquals, .int, .bool⟩ (.var bound)

def increment (v : Variable) : Statement :=
  .expression (.assign v (.binary (.var v) ⟨.plus, .addition, .int, .int⟩ (.literal (.int 1))))

/-- A loop that tests its condition before each turn, from the flat code of its body. -/
def flatWhile (start : Label) (condition : Expression) (body : Body) (exits : Exits) : Body :=
  [.goto exits.again, .label start] ++ body
    ++ [.label exits.again, .gotoIf start condition false, .label exits.leave]

/-- A loop that tests its condition after each turn, from the flat code of its body. -/
def flatDo (start : Label) (body : Body) (condition : Expression) (exits : Exits) : Body :=
  .label start :: body ++ [.label exits.again, .gotoIf start condition false, .label exits.leave]

mutual

/-- The flat code of a statement. A loop over a range goes on with its increment. -/
def Statement.flatten : Statement → Flattening Body
  | .block statements => flattenAll statements
  | .ifThen condition branch => do
    let done ← makeLabel
    let inner ← branch.flatten
    return .gotoIf done condition true :: inner ++ [.label done]
  | .ifElse condition branch otherwise => do
    let other ← makeLabel
    let done ← makeLabel
    let first ← branch.flatten
    let second ← otherwise.flatten
    return .gotoIf other condition true :: first ++ [.goto done, .label other] ++ second
      ++ [.label done]
  | .whileLoop condition body exits => do
    let start ← makeLabel
    return flatWhile start condition (← body.flatten) exits
  | .doLoop body condition exits => do
    let start ← makeLabel
    return flatDo start (← body.flatten) condition exits
  | .forLoop v lower upper body exits => do
    let bound ← makeUpperBound v
    let again ← makeLabel
    let start ← makeLabel
    let turn := (← body.flatten) ++ [.label exits.again, increment v]
    return [.declare v lower, .declare bound upper]
      ++ flatWhile start (atMost v bound) turn ⟨exits.leave, again⟩
  | .declare v e => return [.declare v e]
  | .label l => return [.label l]
  | .goto l => return [.goto l]
  | .gotoIf l e negated => return [.gotoIf l e negated]
  | .leave value => return [.leave value]
  | .expression e => return [.expression e]

def flattenAll : List Statement → Flattening Body
  | [] => return []
  | s :: rest => do
    let first ← s.flatten
    return first ++ (← flattenAll rest)

end

def Body.isFlat (b : Body) : Bool := b.all Statement.isFlat

theorem Body.isFlat_append (b c : Body) : Body.isFlat (b ++ c) = (b.isFlat && c.isFlat) :=
  List.all_append

theorem Body.isFlat_cons (s : Statement) (b : Body) :
    Body.isFlat (s :: b) = (s.isFlat && b.isFlat) := rfl

theorem Body.isFlat_nil : Body.isFlat [] = true := rfl

theorem flatWhile_isFlat (start : Label) (e : Expression) (body : Body) (x : Exits) :
    (flatWhile start e body x).isFlat = body.isFlat := by
  simp [flatWhile, Body.isFlat, Statement.isFlat]

theorem flatDo_isFlat (start : Label) (e : Expression) (body : Body) (x : Exits) :
    (flatDo start body e x).isFlat = body.isFlat := by
  simp [flatDo, Body.isFlat, Statement.isFlat]

mutual

theorem Statement.flatten_isFlat : (s : Statement) → (u : Supply) → (s.flatten u).1.isFlat
  | .block statements, u => flattenAll_isFlat statements u
  | .ifThen c branch, u => by
    have h := branch.flatten_isFlat (makeLabel u).2
    change Body.isFlat (.gotoIf _ c true :: (branch.flatten (makeLabel u).2).1 ++ [.label _])
    simp [Body.isFlat_append, Body.isFlat_cons, Body.isFlat_nil, Statement.isFlat, h]
  | .ifElse c branch otherwise, u => by
    have h := branch.flatten_isFlat (makeLabel (makeLabel u).2).2
    have h' := otherwise.flatten_isFlat (branch.flatten (makeLabel (makeLabel u).2).2).2
    change Body.isFlat (.gotoIf _ c true :: (branch.flatten (makeLabel (makeLabel u).2).2).1
      ++ [.goto _, .label _]
      ++ (otherwise.flatten (branch.flatten (makeLabel (makeLabel u).2).2).2).1 ++ [.label _])
    simp [Body.isFlat_append, Body.isFlat_cons, Body.isFlat_nil, Statement.isFlat, h, h']
  | .whileLoop c body x, u =>
    (flatWhile_isFlat _ c _ x).trans (body.flatten_isFlat (makeLabel u).2)
  | .doLoop body c x, u => (flatDo_isFlat _ c _ x).trans (body.flatten_isFlat (makeLabel u).2)
  | .forLoop v lower upper body x, u => by
    have h := body.flatten_isFlat (makeLabel (makeLabel (makeUpperBound v u).2).2).2
    refine (flatWhile_isFlat (.made _) (atMost v _) (_ ++ [.label x.again, increment v])
      ⟨x.leave, .made _⟩).trans ?_
    rw [Body.isFlat_append]
    exact Bool.and_eq_true_iff.mpr ⟨h, rfl⟩
  | .declare _ _, _ | .label _, _ | .goto _, _ | .gotoIf _ _ _, _ | .leave _, _
  | .expression _, _ => rfl

theorem flattenAll_isFlat : (l : List Statement) → (u : Supply) → (flattenAll l u).1.isFlat
  | [], _ => rfl
  | s :: rest, u => by
    have h := s.flatten_isFlat u
    have h' := flattenAll_isFlat rest (s.flatten u).2
    change Body.isFlat ((s.flatten u).1 ++ (flattenAll rest (s.flatten u).2).1)
    rw [Body.isFlat_append, h, h']
    rfl

end

/-- The flat code of a body, and the next free number for a symbol. -/
def flattenBody (statements : List Statement) (nextSymbol : Nat) : Body × Nat :=
  let (body, supply) := flattenAll statements ⟨0, nextSymbol⟩
  (body, supply.nextSymbol)

end SmallScript.Code
