import SmallScript.Proofs.Lexical.Basic
import SmallScript.Proofs.Resolve.Source

namespace SmallScript

open Lexical (Env Context State lookup)

namespace Lexical

structure Env.Holds (e : Env) (r : Resolution) : Prop where
  vars : ∀ name, r.scopes.lookupVariable r.scope name = e.var? name
  functions : ∀ name, r.scopes.lookupFunction r.scope name = e.function? name

def Sees (scopes : List (List Variable)) : List Frame → Prop
  | [] => False
  | f :: rest => ∃ outer, scopes = f.vars :: outer ∧
    ∀ name, rest.findSome? (·.lookupVariable name) = lookup outer name

structure Context.Agrees (c : Context) (s : State) (r : Resolution) : Prop where
  stands : r.Stands
  vars : Sees s.scopes r.seen
  functions : ∀ name, r.seen.findSome? (·.lookupFunction name) = c.functions.find? (·.name == name)
  loops : r.loops = c.loops
  loopCount : r.loopCount = s.loopCount
  nextSymbol : r.nextSymbol = s.nextSymbol

theorem Sees.findSome?_eq {scopes : List (List Variable)} {env : List Frame} (h : Sees scopes env)
    (name : String) : env.findSome? (·.lookupVariable name) = lookup scopes name := by
  cases env with
  | nil => exact h.elim
  | cons f rest =>
    obtain ⟨outer, rfl, hrest⟩ := h
    rw [lookup, List.findSome?_cons, List.findSome?_cons, hrest name]
    rfl

namespace Context.Agrees

variable {c : Context} {s : State} {r : Resolution}

theorem holds (h : c.Agrees s r) : (c.env s).Holds r where
  vars name := h.vars.findSome?_eq name
  functions name := h.functions name

theorem enter (h : c.Agrees s r) : c.Agrees s.enter (Resolver.enter r).2 where
  stands := Resolver.stands_enter h.stands
  vars := by
    rw [Resolver.seen_enter h.stands]
    exact ⟨s.scopes, rfl, h.vars.findSome?_eq⟩
  functions := by
    rw [Resolver.seen_enter h.stands]
    exact h.functions
  loops := h.loops
  loopCount := h.loopCount
  nextSymbol := h.nextSymbol

theorem openLoop (h : c.Agrees s r) :
    (c.inLoop s.exits).Agrees s.countLoop (Resolver.openLoop r) where
  stands := ⟨h.stands.scope, h.stands.ordered⟩
  vars := h.vars
  functions := h.functions
  loops := by
    have hexits : (⟨.breakOf (r.loopCount + 1), .continueOf (r.loopCount + 1)⟩ : Exits) = s.exits := by
      rw [State.exits, h.loopCount]
    exact congrArg₂ List.cons hexits h.loops
  loopCount := congrArg (· + 1) h.loopCount
  nextSymbol := h.nextSymbol

end Context.Agrees

end Lexical

namespace Resolver

open Code (Expression Statement)

variable {α β : Type} {e : Env}

/-- Where names stand for what `e` says, an action gives `a`, and names stand for the same after it. -/
def Gives (e : Env) (m : Resolver α) (a : α) : Prop := ∀ r, e.Holds r → (m r).1 = a ∧ e.Holds (m r).2

namespace Gives

theorem pure (a : α) : Gives e (Pure.pure a) a := fun _ h ↦ ⟨rfl, h⟩

theorem bind {m : Resolver α} {f : α → Resolver β} {a : α} {b : β} (hm : Gives e m a)
    (hf : Gives e (f a) b) : Gives e (m >>= f) b := by
  intro r h
  obtain ⟨rfl, h'⟩ := hm r h
  exact hf _ h'

theorem ite {c : Prop} [Decidable c] {m m' : Resolver α} {a a' : α} (h : c → Gives e m a)
    (h' : ¬ c → Gives e m' a') : Gives e (if c then m else m') (if c then a else a') := by
  split
  · next hc => exact h hc
  · next hc => exact h' hc

theorem of_reporting {m : Resolver α} {a : α} (hm : Reporting m) (h : ∀ r, (m r).1 = a) : Gives e m a := by
  intro r hr
  obtain ⟨new, hnew⟩ := hm r
  rw [hnew]
  exact ⟨h r, hr.vars, hr.functions⟩

theorem report (span : Span) (cause : Cause) : Gives e (report span cause) () :=
  fun _ h ↦ ⟨rfl, h.vars, h.functions⟩

theorem lookupVariable (name : String) : Gives e (lookupVariable name) (e.var? name) :=
  fun _ h ↦ ⟨h.vars name, h⟩

theorem lookupFunction (name : String) : Gives e (lookupFunction name) (e.function? name) :=
  fun _ h ↦ ⟨h.functions name, h⟩

end Gives

section Expression

theorem gives_needValue (span : Span) (c : Expression) :
    Gives e (needValue span c) (Lexical.needValue c) :=
  .ite (fun _ ↦ .bind (.report _ _) (.pure _)) fun _ ↦ .pure _

theorem gives_convert (span : Span) (c : Expression) (target : Ty) (isWritten : Bool) :
    Gives e (convert span c target isWritten) (Lexical.convert c target) := by
  unfold convert Lexical.convert
  cases Conversion.classify c.ty target with
  | none =>
    dsimp only
    split
    · exact .bind (.report _ _) (.pure _)
    · exact .pure _
  | identity => exact .pure _
  | silent => exact .pure _
  | explicit =>
    dsimp only
    split
    · exact .bind (.report _ _) (.pure _)
    · exact .pure _

theorem gives_named (identifier : Token) :
    Gives e (named identifier) (Lexical.named e identifier) := by
  refine .ite (fun _ ↦ .pure _) fun _ ↦ .bind (.lookupVariable _) ?_
  cases e.var? identifier.text with
  | none => exact .bind (.report _ _) (.pure _)
  | some v => exact .pure _

theorem gives_assigned (identifier equals : Token) (span : Span) (c : Expression) :
    Gives e (assigned identifier equals span c) (Lexical.assigned e identifier c) := by
  unfold Lexical.assigned
  refine .bind (.lookupVariable _) ?_
  cases e.var? identifier.text with
  | none => exact .bind (.report _ _) (.pure _)
  | some v =>
    dsimp only
    split
    · exact .bind (.report _ _) (.bind (gives_convert _ _ _ _) (.pure _))
    · exact .bind (gives_convert _ _ _ _) (.pure _)

theorem gives_unary (sign : Token) (operand : Expression) :
    Gives e (unary sign operand) (Lexical.unary sign operand) := by
  refine .ite (fun _ ↦ .pure _) fun _ ↦ ?_
  cases UnaryOperator.find? sign.kind operand.ty with
  | none => exact .bind (.report _ _) (.pure _)
  | some o => exact .pure _

theorem gives_binary (left : Expression) (sign : Token) (right : Expression) :
    Gives e (binary left sign right) (Lexical.binary left sign right) := by
  refine .ite (fun _ ↦ .pure _) fun _ ↦ ?_
  cases BinaryOperator.find? sign.kind left.ty right.ty with
  | none => exact .bind (.report _ _) (.pure _)
  | some o => exact .pure _

theorem gives_matchArguments (name : String) {vs : List Variable} {cs : List Expression}
    {spans : List Span} (hlen : cs.length = vs.length) (hspans : spans.length = cs.length) :
    Gives e (matchArguments name vs cs spans) (cs.map Expression.ty == vs.map Variable.ty) := by
  induction vs generalizing cs spans with
  | nil =>
    obtain rfl := List.length_eq_zero_iff.mp hlen
    exact .pure _
  | cons v vs ih =>
    rcases cs with _ | ⟨c, cs⟩
    · nomatch hlen
    rcases spans with _ | ⟨span, spans⟩
    · nomatch hspans
    have hrest := ih (Nat.succ.inj hlen) (Nat.succ.inj hspans)
    simp only [matchArguments]
    split
    · next hty => simpa [hty] using hrest
    · next hty =>
      have hfalse : (List.map Expression.ty (c :: cs) == List.map Variable.ty (v :: vs)) = false := by
        simp [hty]
      rw [hfalse]
      split
      · exact .bind (.report _ _) (.bind hrest (.pure _))
      · exact .bind hrest (.pure _)

theorem gives_called (identifier : Token) (span : Span) (cs : List Expression) {spans : List Span}
    (hspans : spans.length = cs.length) :
    Gives e (called identifier span cs spans) (Lexical.called e identifier cs) := by
  unfold Lexical.called
  refine .bind (.lookupFunction _) ?_
  cases e.function? identifier.text with
  | none => exact .bind (.report _ _) (.pure _)
  | some f =>
    dsimp only
    split
    · next hlen =>
      rw [if_neg fun h ↦ hlen (by simpa using congrArg List.length h)]
      exact .bind (.report _ _) (.pure _)
    · next hlen =>
      refine .bind (gives_matchArguments _ (Decidable.not_not.mp hlen) hspans) ?_
      by_cases hty : cs.map Expression.ty = f.parameters.map Variable.ty
      · simp only [hty, beq_self_eq_true, if_true]
        exact .pure _
      · rw [if_neg hty, beq_false_of_ne hty]
        exact .pure _

theorem length_expressions (es : List Tree.Expression) : (Lexical.expressions e es).length = es.length := by
  induction es with
  | nil => rfl
  | cons t rest ih => exact congrArg (· + 1) ih

mutual

theorem gives_expression : (t : Tree.Expression) → Gives e (expression t) (Lexical.expression e t)
  | .literal _ _ => .pure _
  | .name identifier => gives_named identifier
  | .unary sign operand =>
    .bind (gives_expression operand) (.bind (gives_needValue _ _) (gives_unary sign _))
  | .binary left sign right =>
    .bind (gives_expression left) (.bind (gives_needValue _ _)
      (.bind (gives_expression right) (.bind (gives_needValue _ _) (gives_binary _ sign _))))
  | .group _ inner _ => .bind (gives_expression inner) (gives_needValue _ _)
  | .assign identifier equals value =>
    .bind (gives_expression value) (.bind (gives_needValue _ _) (gives_assigned identifier equals _ _))
  | .call identifier opening arguments closing => by
    have hlen := length_expressions (e := e) arguments
    unfold Lexical.expression
    refine .bind (gives_expressions arguments) ?_
    generalize Lexical.expressions e arguments = cs at hlen
    -- A conversion has one argument.
    match cs, arguments, hlen with
    | [], [], _ => exact gives_called _ _ _ rfl
    | [c], [t], _ =>
      cases Ty.written? identifier.text with
      | none => exact gives_called _ _ _ rfl
      | some target => exact gives_convert _ c target true
    | c :: c' :: cs, t :: t' :: ts, hlen =>
      exact gives_called _ _ _ ((List.length_map _).trans hlen.symm)

theorem gives_expressions : (ts : List Tree.Expression) →
    Gives e (expressions ts) (Lexical.expressions e ts)
  | [] => .pure _
  | t :: rest =>
    .bind (gives_expression t) (.bind (gives_needValue _ _) (.bind (gives_expressions rest) (.pure _)))

end

theorem gives_value (t : Tree.Expression) : Gives e (value t) (Lexical.value e t) :=
  .bind (gives_expression t) (gives_needValue _ _)

theorem gives_valueOf (target : Ty) (t : Tree.Expression) :
    Gives e (valueOf target t) (Lexical.valueOf e target t) :=
  .bind (gives_value t) (gives_convert _ _ _ _)

theorem clauseType?_fst (clause : Option Tree.TypeClause) (r : Resolution) :
    (clauseType? clause r).1 = Lexical.clauseType? clause := by
  cases clause with
  | none => rfl
  | some clause =>
    simp only [clauseType?, Lexical.clauseType?]
    cases clause.identifier.isMissing with
    | true => rfl
    | false => cases Ty.written? clause.identifier.text <;> rfl

end Expression

end Resolver

end SmallScript
