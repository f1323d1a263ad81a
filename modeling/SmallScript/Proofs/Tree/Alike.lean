import Mathlib.Data.List.Forall2
import SmallScript.Tree.Basic

namespace SmallScript

/-- Tokens that are written alike. -/
structure Token.Alike (t t' : Token) : Prop where
  kind : t'.kind = t.kind
  text : t'.text = t.text

theorem Token.Alike.isMissing {t t' : Token} (h : t.Alike t') : t'.isMissing = t.isMissing := by
  simp only [Token.isMissing, h.kind, h.text]

theorem Token.alike_refl (t : Token) : t.Alike t := ⟨rfl, rfl⟩

namespace Tree

inductive Expression.Alike : Expression → Expression → Prop
  | literal (t t' : Token) (x : Value) : Alike (.literal t x) (.literal t' x)
  | name {t t' : Token} (h : t.Alike t') : Alike (.name t) (.name t')
  | unary {t t' : Token} {e e' : Expression} (h : t.Alike t') (he : Alike e e') :
    Alike (.unary t e) (.unary t' e')
  | binary {t t' : Token} {e e' f f' : Expression} (he : Alike e e') (h : t.Alike t')
    (hf : Alike f f') : Alike (.binary e t f) (.binary e' t' f')
  | group (opening opening' closing closing' : Token) {e e' : Expression} (he : Alike e e') :
    Alike (.group opening e closing) (.group opening' e' closing')
  | assign {t t' : Token} (equals equals' : Token) {e e' : Expression} (h : t.Alike t')
    (he : Alike e e') : Alike (.assign t equals e) (.assign t' equals' e')
  | call {t t' : Token} (opening opening' closing closing' : Token) {es es' : List Expression}
    (h : t.Alike t') (hes : List.Forall₂ Alike es es') :
    Alike (.call t opening es closing) (.call t' opening' es' closing')

def TypeClause.Alike (c c' : TypeClause) : Prop := c.identifier.Alike c'.identifier

/-- Clauses that are both left out, or written alike. -/
inductive ClauseAlike : Option TypeClause → Option TypeClause → Prop
  | none : ClauseAlike none none
  | some {c c' : TypeClause} (h : c.Alike c') : ClauseAlike (some c) (some c')

inductive Statement.Alike : Statement → Statement → Prop
  | block (opening opening' closing closing' : Token) {ss ss' : List Statement}
    (hss : List.Forall₂ Alike ss ss') : Alike (.block opening ss closing) (.block opening' ss' closing')
  | declare {k k' t t' : Token} (equals equals' : Token) {c c' : Option TypeClause} {e e' : Expression}
    (hk : k.Alike k') (h : t.Alike t') (hc : ClauseAlike c c') (he : e.Alike e') :
    Alike (.declare k t c equals e) (.declare k' t' c' equals' e')
  | ifThen (k k' : Token) {e e' : Expression} {s s' : Statement} (he : e.Alike e') (hs : Alike s s') :
    Alike (.ifThen k e s) (.ifThen k' e' s')
  | ifElse (k k' l l' : Token) {e e' : Expression} {s s' t t' : Statement} (he : e.Alike e')
    (hs : Alike s s') (ht : Alike t t') : Alike (.ifElse k e s l t) (.ifElse k' e' s' l' t')
  | whileLoop (k k' : Token) {e e' : Expression} {s s' : Statement} (he : e.Alike e')
    (hs : Alike s s') : Alike (.whileLoop k e s) (.whileLoop k' e' s')
  | doLoop (k k' l l' : Token) {e e' : Expression} {s s' : Statement} (hs : Alike s s')
    (he : e.Alike e') : Alike (.doLoop k s l e) (.doLoop k' s' l' e')
  | forLoop (k k' equals equals' l l' : Token) {t t' : Token} {lower lower' upper upper' : Expression}
    {s s' : Statement} (h : t.Alike t') (hl : lower.Alike lower') (hu : upper.Alike upper')
    (hs : Alike s s') :
    Alike (.forLoop k t equals lower l upper s) (.forLoop k' t' equals' lower' l' upper' s')
  | breakLoop (k k' : Token) : Alike (.breakLoop k) (.breakLoop k')
  | continueLoop (k k' : Token) : Alike (.continueLoop k) (.continueLoop k')
  | leave (k k' : Token) : Alike (.leave k none) (.leave k' none)
  | leaveWith (k k' : Token) {e e' : Expression} (he : e.Alike e') :
    Alike (.leave k (some e)) (.leave k' (some e'))
  | expression {e e' : Expression} (he : e.Alike e') : Alike (.expression e) (.expression e')

structure Parameter.Alike (p p' : Parameter) : Prop where
  identifier : p.identifier.Alike p'.identifier
  clause : p.clause.Alike p'.clause

structure Function.Alike (f f' : Function) : Prop where
  identifier : f.identifier.Alike f'.identifier
  parameters : List.Forall₂ Parameter.Alike f.parameters f'.parameters
  clause : ClauseAlike f.clause f'.clause
  body : List.Forall₂ Statement.Alike f.body.statements f'.body.statements

inductive Member.Alike : Member → Member → Prop
  | function {f f' : Function} (h : f.Alike f') : Alike (.function f) (.function f')
  | statement {s s' : Statement} (h : s.Alike s') : Alike (.statement s) (.statement s')

mutual

theorem Expression.alike_refl : (e : Expression) → e.Alike e
  | .literal t x => .literal t t x
  | .name t => .name t.alike_refl
  | .unary t e => .unary t.alike_refl (Expression.alike_refl e)
  | .binary e t e' => .binary (Expression.alike_refl e) t.alike_refl (Expression.alike_refl e')
  | .group opening e closing => .group opening opening closing closing (Expression.alike_refl e)
  | .assign t equals e => .assign equals equals t.alike_refl (Expression.alike_refl e)
  | .call t opening es closing => .call opening opening closing closing t.alike_refl (expressions_alike_refl es)

theorem expressions_alike_refl : (es : List Expression) → List.Forall₂ Expression.Alike es es
  | [] => .nil
  | e :: rest => .cons (Expression.alike_refl e) (expressions_alike_refl rest)

end

theorem clause_alike_refl : (c : Option TypeClause) → ClauseAlike c c
  | none => .none
  | some c => .some c.identifier.alike_refl

end Tree

def Token.same (t t' : Token) : Bool := t'.kind == t.kind && t'.text == t.text

theorem Token.alike_of_same {t t' : Token} (h : t.same t') : t.Alike t' := by
  rw [Token.same, Bool.and_eq_true] at h
  exact ⟨eq_of_beq h.1, eq_of_beq h.2⟩

namespace Tree

mutual

def Expression.same : Expression → Expression → Bool
  | .literal _ x, .literal _ x' => x == x'
  | .name t, .name t' => t.same t'
  | .unary t e, .unary t' e' => t.same t' && e.same e'
  | .binary e t f, .binary e' t' f' => e.same e' && t.same t' && f.same f'
  | .group _ e _, .group _ e' _ => e.same e'
  | .assign t _ e, .assign t' _ e' => t.same t' && e.same e'
  | .call t _ es _, .call t' _ es' _ => t.same t' && sameExpressions es es'
  | _, _ => false

def sameExpressions : List Expression → List Expression → Bool
  | [], [] => true
  | e :: es, e' :: es' => e.same e' && sameExpressions es es'
  | _, _ => false

end

def sameClause : Option TypeClause → Option TypeClause → Bool
  | none, none => true
  | some c, some c' => c.identifier.same c'.identifier
  | _, _ => false

mutual

def Statement.same : Statement → Statement → Bool
  | .block _ ss _, .block _ ss' _ => sameStatements ss ss'
  | .declare k t c _ e, .declare k' t' c' _ e' =>
    k.same k' && t.same t' && sameClause c c' && e.same e'
  | .ifThen _ e s, .ifThen _ e' s' | .whileLoop _ e s, .whileLoop _ e' s' => e.same e' && s.same s'
  | .ifElse _ e s _ t, .ifElse _ e' s' _ t' => e.same e' && s.same s' && t.same t'
  | .doLoop _ s _ e, .doLoop _ s' _ e' => s.same s' && e.same e'
  | .forLoop _ t _ lower _ upper s, .forLoop _ t' _ lower' _ upper' s' =>
    t.same t' && lower.same lower' && upper.same upper' && s.same s'
  | .breakLoop _, .breakLoop _ | .continueLoop _, .continueLoop _ | .leave _ none, .leave _ none => true
  | .leave _ (some e), .leave _ (some e') | .expression e, .expression e' => e.same e'
  | _, _ => false

def sameStatements : List Statement → List Statement → Bool
  | [], [] => true
  | s :: ss, s' :: ss' => s.same s' && sameStatements ss ss'
  | _, _ => false

end

def sameList {α : Type} (same : α → α → Bool) : List α → List α → Bool
  | [], [] => true
  | a :: l, a' :: l' => same a a' && sameList same l l'
  | _, _ => false

def Parameter.same (p p' : Parameter) : Bool :=
  p.identifier.same p'.identifier && p.clause.identifier.same p'.clause.identifier

def Function.same (f f' : Function) : Bool :=
  f.identifier.same f'.identifier && sameList Parameter.same f.parameters f'.parameters &&
    sameClause f.clause f'.clause && sameStatements f.body.statements f'.body.statements

def Member.same : Member → Member → Bool
  | .function f, .function f' => f.same f'
  | .statement s, .statement s' => s.same s'
  | _, _ => false

mutual

theorem Expression.alike_of_same : (e e' : Expression) → e.same e' → e.Alike e'
  | .literal t x, e', h => by
    cases e' <;> simp only [Expression.same, Bool.false_eq_true] at h
    exact eq_of_beq h ▸ .literal t _ x
  | .name t, e', h => by
    cases e' <;> simp only [Expression.same, Bool.false_eq_true] at h
    exact .name (Token.alike_of_same h)
  | .unary t e, e', h => by
    cases e' <;> simp only [Expression.same, Bool.and_eq_true, Bool.false_eq_true] at h
    exact .unary (Token.alike_of_same h.1) (Expression.alike_of_same e _ h.2)
  | .binary e t f, e', h => by
    cases e' <;> simp only [Expression.same, Bool.and_eq_true, Bool.false_eq_true] at h
    exact .binary (Expression.alike_of_same e _ h.1.1) (Token.alike_of_same h.1.2)
      (Expression.alike_of_same f _ h.2)
  | .group _ e _, e', h => by
    cases e' <;> simp only [Expression.same, Bool.false_eq_true] at h
    exact .group _ _ _ _ (Expression.alike_of_same e _ h)
  | .assign t _ e, e', h => by
    cases e' <;> simp only [Expression.same, Bool.and_eq_true, Bool.false_eq_true] at h
    exact .assign _ _ (Token.alike_of_same h.1) (Expression.alike_of_same e _ h.2)
  | .call t _ es _, e', h => by
    cases e' <;> simp only [Expression.same, Bool.and_eq_true, Bool.false_eq_true] at h
    exact .call _ _ _ _ (Token.alike_of_same h.1) (expressions_alike_of_same es _ h.2)

theorem expressions_alike_of_same : (es es' : List Expression) → sameExpressions es es' →
    List.Forall₂ Expression.Alike es es'
  | [], es', h => by
    cases es' <;> simp only [sameExpressions, Bool.false_eq_true] at h
    exact .nil
  | e :: es, es', h => by
    cases es' <;> simp only [sameExpressions, Bool.and_eq_true, Bool.false_eq_true] at h
    exact .cons (Expression.alike_of_same e _ h.1) (expressions_alike_of_same es _ h.2)

end

theorem clause_alike_of_same {c c' : Option TypeClause} (h : sameClause c c') : ClauseAlike c c' := by
  cases c <;> cases c' <;> simp only [sameClause, Bool.false_eq_true] at h
  · exact .none
  · exact .some (Token.alike_of_same h)

mutual

theorem Statement.alike_of_same : (s s' : Statement) → s.same s' → s.Alike s'
  | .block _ ss _, s', h => by
    cases s' <;> simp only [Statement.same, Bool.false_eq_true] at h
    exact .block _ _ _ _ (statements_alike_of_same ss _ h)
  | .declare k t c _ e, s', h => by
    cases s' <;> simp only [Statement.same, Bool.and_eq_true, Bool.false_eq_true] at h
    exact .declare _ _ (Token.alike_of_same h.1.1.1) (Token.alike_of_same h.1.1.2)
      (clause_alike_of_same h.1.2) (Expression.alike_of_same e _ h.2)
  | .ifThen _ e s, s', h => by
    cases s' <;> simp only [Statement.same, Bool.and_eq_true, Bool.false_eq_true] at h
    exact .ifThen _ _ (Expression.alike_of_same e _ h.1) (Statement.alike_of_same s _ h.2)
  | .ifElse _ e s _ t, s', h => by
    cases s' <;> simp only [Statement.same, Bool.and_eq_true, Bool.false_eq_true] at h
    exact .ifElse _ _ _ _ (Expression.alike_of_same e _ h.1.1) (Statement.alike_of_same s _ h.1.2)
      (Statement.alike_of_same t _ h.2)
  | .whileLoop _ e s, s', h => by
    cases s' <;> simp only [Statement.same, Bool.and_eq_true, Bool.false_eq_true] at h
    exact .whileLoop _ _ (Expression.alike_of_same e _ h.1) (Statement.alike_of_same s _ h.2)
  | .doLoop _ s _ e, s', h => by
    cases s' <;> simp only [Statement.same, Bool.and_eq_true, Bool.false_eq_true] at h
    exact .doLoop _ _ _ _ (Statement.alike_of_same s _ h.1) (Expression.alike_of_same e _ h.2)
  | .forLoop _ t _ lower _ upper s, s', h => by
    cases s' <;> simp only [Statement.same, Bool.and_eq_true, Bool.false_eq_true] at h
    exact .forLoop _ _ _ _ _ _ (Token.alike_of_same h.1.1.1) (Expression.alike_of_same lower _ h.1.1.2)
      (Expression.alike_of_same upper _ h.1.2) (Statement.alike_of_same s _ h.2)
  | .breakLoop _, s', h => by
    cases s' <;> simp only [Statement.same, Bool.false_eq_true] at h
    exact .breakLoop _ _
  | .continueLoop _, s', h => by
    cases s' <;> simp only [Statement.same, Bool.false_eq_true] at h
    exact .continueLoop _ _
  | .leave _ none, s', h => by
    rcases s' with _ | _ | _ | _ | _ | _ | _ | _ | _ | ⟨_, _ | _⟩ | _ <;>
      simp only [Statement.same, Bool.false_eq_true] at h
    exact .leave _ _
  | .leave _ (some e), s', h => by
    rcases s' with _ | _ | _ | _ | _ | _ | _ | _ | _ | ⟨_, _ | _⟩ | _ <;>
      simp only [Statement.same, Bool.false_eq_true] at h
    exact .leaveWith _ _ (Expression.alike_of_same e _ h)
  | .expression e, s', h => by
    cases s' <;> simp only [Statement.same, Bool.false_eq_true] at h
    exact .expression (Expression.alike_of_same e _ h)

theorem statements_alike_of_same : (ss ss' : List Statement) → sameStatements ss ss' →
    List.Forall₂ Statement.Alike ss ss'
  | [], ss', h => by
    cases ss' <;> simp only [sameStatements, Bool.false_eq_true] at h
    exact .nil
  | s :: ss, ss', h => by
    cases ss' <;> simp only [sameStatements, Bool.and_eq_true, Bool.false_eq_true] at h
    exact .cons (Statement.alike_of_same s _ h.1) (statements_alike_of_same ss _ h.2)

end

/-- Two lists that are compared with a test of their elements. -/
theorem forall₂_of_sameList {α : Type} {same : α → α → Bool} {R : α → α → Prop} (h : ∀ a b, same a b → R a b)
    (l l' : List α) (hl : sameList same l l') : List.Forall₂ R l l' := by
  induction l generalizing l' with
  | nil =>
    cases l' <;> simp only [sameList, Bool.false_eq_true] at hl
    exact .nil
  | cons a l ih =>
    cases l' <;> simp only [sameList, Bool.and_eq_true, Bool.false_eq_true] at hl
    exact .cons (h a _ hl.1) (ih _ hl.2)

theorem Function.alike_of_same {f f' : Function} (h : f.same f') : f.Alike f' := by
  simp only [Function.same, Bool.and_eq_true] at h
  refine ⟨Token.alike_of_same h.1.1.1, forall₂_of_sameList (fun p p' hp ↦ ?_) _ _ h.1.1.2,
    clause_alike_of_same h.1.2, statements_alike_of_same _ _ h.2⟩
  simp only [Parameter.same, Bool.and_eq_true] at hp
  exact ⟨Token.alike_of_same hp.1, Token.alike_of_same hp.2⟩

theorem Member.alike_of_same (m m' : Member) (h : m.same m') : m.Alike m' := by
  cases m <;> cases m' <;> simp only [Member.same, Bool.false_eq_true] at h
  · exact .function (Function.alike_of_same h)
  · exact .statement (Statement.alike_of_same _ _ h)

theorem members_alike_of_same {ms ms' : List Member} (h : sameList Member.same ms ms') :
    List.Forall₂ Member.Alike ms ms' :=
  forall₂_of_sameList Member.alike_of_same ms ms' h

end Tree

end SmallScript
