import SmallScript.Code.Basic

namespace SmallScript.Code

mutual

def Expression.vars : Expression → List Variable
  | .error | .literal _ => []
  | .var v => [v]
  | .assign v e => v :: e.vars
  | .unary _ e | .convert _ e => e.vars
  | .binary e _ e' => e.vars ++ e'.vars
  | .call _ es => varsAll es

def varsAll : List Expression → List Variable
  | [] => []
  | e :: es => e.vars ++ varsAll es

end

mutual

def Expression.functions : Expression → List Function
  | .error | .literal _ | .var _ => []
  | .assign _ e | .unary _ e | .convert _ e => e.functions
  | .binary e _ e' => e.functions ++ e'.functions
  | .call f es => f :: functionsAll es

def functionsAll : List Expression → List Function
  | [] => []
  | e :: es => e.functions ++ functionsAll es

end

mutual

/-- Whether an expression uses only variables with `V` and calls only functions with `F`. Parts without
meaning are left in it only if `error`. -/
def Expression.Uses (error : Prop) (V : Variable → Prop) (F : Function → Prop) : Expression → Prop
  | .error => error
  | .literal _ => True
  | .var v => V v
  | .assign v e => V v ∧ e.Uses error V F
  | .unary _ e | .convert _ e => e.Uses error V F
  | .binary e _ e' => e.Uses error V F ∧ e'.Uses error V F
  | .call f es => F f ∧ AllUse error V F es

def AllUse (error : Prop) (V : Variable → Prop) (F : Function → Prop) : List Expression → Prop
  | [] => True
  | e :: es => e.Uses error V F ∧ AllUse error V F es

end

mutual

def Expression.assigned : Expression → List Variable
  | .error | .literal _ | .var _ => []
  | .assign v e => v :: e.assigned
  | .unary _ e | .convert _ e => e.assigned
  | .binary e _ e' => e.assigned ++ e'.assigned
  | .call _ es => assignedAll es

def assignedAll : List Expression → List Variable
  | [] => []
  | e :: es => e.assigned ++ assignedAll es

end

section Uses

variable {V : Variable → Prop} {F : Function → Prop}

mutual

theorem Expression.uses_iff : (e : Expression) →
    (e.Uses True V F ↔ (∀ v ∈ e.vars, V v) ∧ ∀ f ∈ e.functions, F f)
  | .error | .literal _ | .var _ => by simp [Expression.Uses, Expression.vars, Expression.functions]
  | .assign _ e => by
    simp [Expression.Uses, Expression.vars, Expression.functions, e.uses_iff, and_assoc]
  | .unary _ e | .convert _ e => e.uses_iff
  | .binary e _ e' => by
    simp [Expression.Uses, Expression.vars, Expression.functions, e.uses_iff, e'.uses_iff,
      or_imp, forall_and, and_and_and_comm]
  | .call _ es => by
    simp [Expression.Uses, Expression.vars, Expression.functions, allUse_iff es, and_left_comm]

theorem allUse_iff : (es : List Expression) →
    (AllUse True V F es ↔ (∀ v ∈ varsAll es, V v) ∧ ∀ f ∈ functionsAll es, F f)
  | [] => by simp [AllUse, varsAll, functionsAll]
  | e :: es => by
    simp [AllUse, varsAll, functionsAll, e.uses_iff, allUse_iff es, or_imp, forall_and,
      and_and_and_comm]

end

end Uses

mutual

def Statement.nodes : Statement → List Statement
  | .block ss => .block ss :: nodesAll ss
  | .ifThen e s => .ifThen e s :: s.nodes
  | .ifElse e s s' => .ifElse e s s' :: (s.nodes ++ s'.nodes)
  | .whileLoop e s x => .whileLoop e s x :: s.nodes
  | .doLoop s e x => .doLoop s e x :: s.nodes
  | .forLoop v lower upper s x => .forLoop v lower upper s x :: s.nodes
  | .declare v e => [.declare v e]
  | .label l => [.label l]
  | .goto l => [.goto l]
  | .gotoIf l e negated => [.gotoIf l e negated]
  | .leave e => [.leave e]
  | .expression e => [.expression e]

def nodesAll : List Statement → List Statement
  | [] => []
  | s :: rest => s.nodes ++ nodesAll rest

end

namespace Statement

/-- The variables of a statement, without those of statements within it. -/
def vars : Statement → List Variable
  | .declare v e => v :: e.vars
  | .ifThen e _ | .ifElse e _ _ | .whileLoop e _ _ | .doLoop _ e _ | .gotoIf _ e _ | .leave (some e)
  | .expression e => e.vars
  | .forLoop v lower upper _ _ => v :: (lower.vars ++ upper.vars)
  | _ => []

/-- The functions that a statement calls, without those that statements within it call. -/
def functions : Statement → List Function
  | .declare _ e | .ifThen e _ | .ifElse e _ _ | .whileLoop e _ _ | .doLoop _ e _ | .gotoIf _ e _
  | .leave (some e) | .expression e => e.functions
  | .forLoop _ lower upper _ _ => lower.functions ++ upper.functions
  | _ => []

/-- The variables that a statement gives values to, without those that statements within it do. -/
def assigned : Statement → List Variable
  | .declare v e => v :: e.assigned
  | .ifThen e _ | .ifElse e _ _ | .whileLoop e _ _ | .doLoop _ e _ | .gotoIf _ e _ | .leave (some e)
  | .expression e => e.assigned
  | .forLoop v lower upper _ _ => v :: (lower.assigned ++ upper.assigned)
  | _ => []

def declared? : Statement → Option Variable
  | .declare v _ | .forLoop v _ _ _ _ => some v
  | _ => none

def exits : Statement → List Label
  | .whileLoop _ _ x | .doLoop _ _ x | .forLoop _ _ _ _ x => [x.leave, x.again]
  | _ => []

def counter? : Statement → Option Variable
  | .forLoop v _ _ _ _ => some v
  | _ => none

/-- The expression of a statement that holds no other statement. -/
def operand? : Statement → Option Expression
  | .declare _ e | .expression e | .gotoIf _ e _ => some e
  | .leave value => value
  | _ => none

theorem assigned_operand {s : Statement} {e : Expression} (he : e ∈ s.operand?) {v : Variable}
    (hv : v ∈ e.assigned) : v ∈ s.assigned := by
  cases s with
  | declare w e' =>
    obtain rfl := Option.some.inj he
    exact List.mem_cons_of_mem w hv
  | expression | gotoIf =>
    obtain rfl := Option.some.inj he
    exact hv
  | leave value =>
    obtain rfl : value = some e := he
    exact hv
  | _ => nomatch he

end Statement

mutual

def Statement.Of (D : Variable → Prop) (P : Expression → Prop) : Statement → Prop
  | .block ss => AllOf D P ss
  | .declare v e => D v ∧ P e
  | .ifThen e s => P e ∧ s.Of D P
  | .ifElse e s s' => P e ∧ s.Of D P ∧ s'.Of D P
  | .whileLoop e s _ | .doLoop s e _ => P e ∧ s.Of D P
  | .forLoop v lower upper s _ => D v ∧ (P lower ∧ P upper) ∧ s.Of D P
  | .gotoIf _ e _ | .expression e => P e
  | .leave e => ∀ c ∈ e, P c
  | .label _ | .goto _ => True

def AllOf (D : Variable → Prop) (P : Expression → Prop) : List Statement → Prop
  | [] => True
  | s :: rest => s.Of D P ∧ AllOf D P rest

end

section Of

variable {D V : Variable → Prop} {F : Function → Prop} {P : Expression → Prop} {s : Statement}

theorem allOf_iff {ss : List Statement} : AllOf D P ss ↔ ∀ s ∈ ss, s.Of D P := by
  induction ss with
  | nil => simp [AllOf]
  | cons s rest ih => simp [AllOf, ih]

theorem allOf_append {ss ss' : List Statement} : AllOf D P (ss ++ ss') ↔ AllOf D P ss ∧ AllOf D P ss' := by
  simp [allOf_iff, or_imp, forall_and]

theorem Statement.of_iff (h : s.isFlat) :
    s.Of V (·.Uses True V F) ↔ (∀ v ∈ s.vars, V v) ∧ ∀ f ∈ s.functions, F f := by
  cases s with
  | leave e =>
    cases e <;> simp [Statement.Of, Statement.vars, Statement.functions, Expression.uses_iff]
  | declare | label | goto | gotoIf | expression =>
    simp [Statement.Of, Statement.vars, Statement.functions, Expression.uses_iff, and_assoc]
  | _ => nomatch h

mutual

theorem Statement.Of.mono {D' : Variable → Prop} {P' : Expression → Prop} (hD : ∀ v, D v → D' v)
    (hP : ∀ e, P e → P' e) : (s : Statement) → s.Of D P → s.Of D' P'
  | .block ss, h => AllOf.mono hD hP ss h
  | .declare v e, ⟨hv, he⟩ => ⟨hD v hv, hP e he⟩
  | .ifThen e s, ⟨he, hs⟩ | .whileLoop e s _, ⟨he, hs⟩ | .doLoop s e _, ⟨he, hs⟩ =>
    ⟨hP e he, Statement.Of.mono hD hP s hs⟩
  | .ifElse e s s', ⟨he, hs, hs'⟩ =>
    ⟨hP e he, Statement.Of.mono hD hP s hs, Statement.Of.mono hD hP s' hs'⟩
  | .forLoop v lower upper s _, ⟨hv, ⟨hl, hu⟩, hs⟩ =>
    ⟨hD v hv, ⟨hP lower hl, hP upper hu⟩, Statement.Of.mono hD hP s hs⟩
  | .gotoIf _ e _, h | .expression e, h => hP e h
  | .leave _, h => fun c hc ↦ hP c (h c hc)
  | .label _, _ | .goto _, _ => trivial

theorem AllOf.mono {D' : Variable → Prop} {P' : Expression → Prop} (hD : ∀ v, D v → D' v)
    (hP : ∀ e, P e → P' e) : (ss : List Statement) → AllOf D P ss → AllOf D' P' ss
  | [], _ => trivial
  | s :: rest, ⟨hs, hrest⟩ => ⟨Statement.Of.mono hD hP s hs, AllOf.mono hD hP rest hrest⟩

end

end Of

end SmallScript.Code
