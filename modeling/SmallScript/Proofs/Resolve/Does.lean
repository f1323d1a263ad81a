import SmallScript.Proofs.Resolve.Guarded

namespace SmallScript

open Code (Expression Statement)

namespace Guarded

open Resolver (report freshSymbol clauseType? needValue convert unary binary matchArguments jump parameters)

variable {α β : Type} {g : Guarded α} {m m' : Resolver α}

/-- Whether an action does what one of a resolver does, where the scope in force exists and so do all around it. -/
def Does (g : Guarded α) (m : Resolver α) : Prop :=
  ∀ r : Resolution, r.Extends (m r).2 ∧ (r.Stands → g r = some (m r))

namespace Does

theorem lift (h : Resolver.Loopless m) : Does (liftM m) m := fun r ↦ ⟨(h r).1, fun _ ↦ rfl⟩

theorem pure (a : α) : Does (pure a) (pure a) := fun r ↦ ⟨.refl r, fun _ ↦ rfl⟩

theorem bind {g' : α → Guarded β} {f : α → Resolver β} (hm : Does g m) (hf : ∀ a, Does (g' a) (f a)) :
    Does (g >>= g') (m >>= f) := by
  intro r
  obtain ⟨hext, hgm⟩ := hm r
  obtain ⟨hext', hgf⟩ := hf (m r).1 (m r).2
  refine ⟨hext.trans hext', fun hr ↦ ?_⟩
  change (g r).bind (fun p ↦ g' p.1 p.2) = _
  rw [hgm hr]
  exact hgf (hext.stands hr)

theorem ite {c : Prop} [Decidable c] {g' : Guarded α} (h : Does g m) (h' : Does g' m') :
    Does (if c then g else g') (if c then m else m') := by
  split
  · exact h
  · exact h'

theorem reporting (h : Resolver.Reporting m) : Does (liftM m) m := .lift h.loopless

theorem report (span : Span) (cause : Cause) : Does (liftM (report span cause)) (report span cause) :=
  .reporting (.report span cause)

theorem lookupVariable (name : String) : Does (lookupVariable name) (Resolver.lookupVariable name) := by
  refine fun r ↦ ⟨.refl r, fun hr ↦ ?_⟩
  rw [Guarded.lookupVariable, hr.ordered.nearest?_eq _ hr.scope hr.scope]
  rfl

theorem lookupFunction (name : String) : Does (lookupFunction name) (Resolver.lookupFunction name) := by
  refine fun r ↦ ⟨.refl r, fun hr ↦ ?_⟩
  rw [Guarded.lookupFunction, hr.ordered.nearest?_eq _ hr.scope hr.scope]
  rfl

theorem declareVariable (v : Variable) : Does (declareVariable v) (Resolver.declareVariable v) := by
  refine fun r ↦ ⟨(Resolver.loopless_declareVariable v r).1, fun hr ↦ ?_⟩
  rw [Guarded.declareVariable, Scopes.addVariable?_eq hr.scope]
  exact congrArg some (Prod.ext (Resolver.declareVariable_fst v r).symm (Resolver.declareVariable_snd v r).symm)

theorem declareFunction (f : Function) : Does (declareFunction f) (Resolver.declareFunction f) := by
  refine fun r ↦ ⟨(Resolver.loopless_declareFunction f r).1, fun hr ↦ ?_⟩
  rw [Guarded.declareFunction, Scopes.addFunction?_eq hr.scope]
  exact congrArg some (Prod.ext (Resolver.declareFunction_fst f r).symm (Resolver.declareFunction_snd f r).symm)

theorem inside (h : Does g m) : Does (inside g) (Resolver.inside m) := by
  intro r
  let entered : Resolution := { r with scopes := (r.scopes.push r.scope).2, scope := (r.scopes.push r.scope).1 }
  obtain ⟨hext, hgm⟩ := h entered
  refine ⟨hext.leave, fun hr ↦ ?_⟩
  have hstands : entered.Stands := by
    refine ⟨?_, hr.ordered.push hr.scope⟩
    change r.scopes.frames.size < (r.scopes.frames.push _).size
    simp
  change (g entered).bind (fun p ↦ some (p.1, { p.2 with scope := r.scope })) = _
  rw [hgm hstands]
  rfl

theorem insideLoop (h : Does g m) : Does (insideLoop g) (Resolver.insideLoop m) := by
  intro r
  let exits : Exits := ⟨.breakOf (r.loopCount + 1), .continueOf (r.loopCount + 1)⟩
  let entered : Resolution := { r with loopCount := r.loopCount + 1, loops := exits :: r.loops }
  obtain ⟨hext, hgm⟩ := h entered
  refine ⟨hext.leaveLoop, fun hr ↦ ?_⟩
  change (g entered).bind (fun p ↦ some ((p.1, exits), { p.2 with loops := p.2.loops.tail })) = _
  rw [hgm ⟨hr.scope, hr.ordered⟩]
  rfl

end Does

open Does (report)

theorem does_named (identifier : Token) : Does (named identifier) (Resolver.named identifier) := by
  refine .ite (.pure _) (.bind (.lookupVariable _) fun o ↦ ?_)
  cases o with
  | some v => exact .pure _
  | none => exact .bind (.report _ _) fun _ ↦ .pure _

theorem does_assigned (identifier equals : Token) (span : Span) (value : Expression) :
    Does (assigned identifier equals span value) (Resolver.assigned identifier equals span value) := by
  refine .bind (.lookupVariable _) fun o ↦ ?_
  cases o with
  | none => exact .bind (.report _ _) fun _ ↦ .pure _
  | some v =>
    have hconvert : Does (do return Expression.assign v (← convert span value v.ty false))
        (do return Expression.assign v (← convert span value v.ty false)) :=
      .bind (.reporting (Resolver.reporting_convert _ _ _ _)) fun _ ↦ .pure _
    exact .ite (.bind (.report _ _) fun _ ↦ hconvert) hconvert

theorem does_called (identifier : Token) (span : Span) (arguments : List Expression) (spans : List Span) :
    Does (called identifier span arguments spans) (Resolver.called identifier span arguments spans) := by
  refine .bind (.lookupFunction _) fun o ↦ ?_
  cases o with
  | none => exact .bind (.report _ _) fun _ ↦ .pure _
  | some f =>
    refine .ite (.bind (.report _ _) fun _ ↦ .pure _) ?_
    exact .bind (.reporting (Resolver.reporting_matchArguments _ _ _ _)) fun _ ↦ .ite (.pure _) (.pure _)

theorem does_needValue (span : Span) (e : Expression) : Does (liftM (needValue span e)) (needValue span e) :=
  .reporting (Resolver.reporting_needValue span e)

mutual

theorem does_expression : (e : Tree.Expression) → Does (expression e) (Resolver.expression e)
  | .literal _ _ => .pure _
  | .name _ => does_named _
  | .unary _ operand =>
    .bind (does_expression operand) fun _ ↦ .bind (does_needValue _ _) fun _ ↦
      .reporting (Resolver.reporting_unary _ _)
  | .binary left _ right =>
    .bind (does_expression left) fun _ ↦ .bind (does_needValue _ _) fun _ ↦
      .bind (does_expression right) fun _ ↦ .bind (does_needValue _ _) fun _ ↦
        .reporting (Resolver.reporting_binary _ _ _)
  | .group _ inner _ => .bind (does_expression inner) fun _ ↦ does_needValue _ _
  | .assign _ _ value =>
    .bind (does_expression value) fun _ ↦ .bind (does_needValue _ _) fun _ ↦ does_assigned _ _ _ _
  | .call identifier _ arguments _ => by
    refine .bind (does_expressions arguments) fun es ↦ ?_
    dsimp only
    rcases es with _ | ⟨e, _ | ⟨e', es⟩⟩
    · exact does_called _ _ _ _
    · rcases arguments.map Tree.Expression.span with _ | ⟨span, _ | ⟨span', spans⟩⟩
      · exact does_called _ _ _ _
      · cases Ty.written? identifier.text with
        | none => exact does_called _ _ _ _
        | some target => exact .reporting (Resolver.reporting_convert _ _ _ _)
      · exact does_called _ _ _ _
    · exact does_called _ _ _ _

theorem does_expressions : (es : List Tree.Expression) → Does (expressions es) (Resolver.expressions es)
  | [] => .pure _
  | e :: rest =>
    .bind (does_expression e) fun _ ↦ .bind (does_needValue _ _) fun _ ↦
      .bind (does_expressions rest) fun _ ↦ .pure _

end

theorem does_value (e : Tree.Expression) : Does (value e) (Resolver.value e) :=
  .bind (does_expression e) fun _ ↦ does_needValue _ _

theorem does_valueOf (target : Ty) (e : Tree.Expression) : Does (valueOf target e) (Resolver.valueOf target e) :=
  .bind (does_value e) fun _ ↦ .reporting (Resolver.reporting_convert _ _ _ _)

theorem does_declared (owner : Option Function) (identifier : Token) (readOnly : Bool) (ty : Ty) :
    Does (declared owner identifier readOnly ty) (Resolver.declared owner identifier readOnly ty) := by
  refine .bind (.lift Resolver.loopless_freshSymbol) fun n ↦ .ite ?_ (.pure _)
  exact .bind (.declareVariable _) fun _ ↦ .ite (.bind (.report _ _) fun _ ↦ .pure _) (.pure _)

theorem does_declaration (owner : Option Function) (keyword identifier : Token) (clause : Option Tree.TypeClause)
    (initializer : Tree.Expression) : Does (declaration owner keyword identifier clause initializer)
      (Resolver.declaration owner keyword identifier clause initializer) :=
  .bind (.reporting (Resolver.reporting_clauseType? _)) fun _ ↦ .bind (does_value _) fun _ ↦
    .bind (does_declared _ _ _ _) fun _ ↦ .bind (.reporting (Resolver.reporting_convert _ _ _ _)) fun _ ↦ .pure _

theorem does_leaving (owner : Option Function) (keyword : Token) (e : Option Tree.Expression) :
    Does (leaving owner keyword e) (Resolver.leaving owner keyword e) := by
  have hvalue : Does (e.mapM value) (e.mapM Resolver.value) := by
    cases e with
    | none => exact .pure _
    | some e => exact .bind (does_value e) fun _ ↦ .pure _
  refine .bind hvalue fun o ↦ ?_
  cases owner with
  | none => exact .bind (.report _ _) fun _ ↦ .pure _
  | some f =>
    rcases e with _ | e <;> rcases o with _ | r
    case some.some =>
      refine .ite (.bind (.report _ _) fun _ ↦ .pure _) ?_
      exact .bind (.reporting (Resolver.reporting_convert _ _ _ _)) fun _ ↦ .pure _
    all_goals exact .ite (.bind (.report _ _) fun _ ↦ .pure _) (.pure _)

mutual

theorem does_statement (owner : Option Function) :
    (s : Tree.Statement) → Does (statement owner s) (Resolver.statement owner s)
  | .block _ inner _ => .bind (.inside (does_statements owner inner)) fun _ ↦ .pure _
  | .declare .. => does_declaration _ _ _ _ _
  | .ifThen _ _ branch =>
    .bind (does_valueOf _ _) fun _ ↦ .bind (does_statement owner branch) fun _ ↦ .pure _
  | .ifElse _ _ branch _ otherwise =>
    .bind (does_valueOf _ _) fun _ ↦ .bind (does_statement owner branch) fun _ ↦
      .bind (does_statement owner otherwise) fun _ ↦ .pure _
  | .whileLoop _ _ body =>
    .bind (does_valueOf _ _) fun _ ↦ .bind (.insideLoop (does_statement owner body)) fun _ ↦ .pure _
  | .doLoop _ body _ _ =>
    .bind (.insideLoop (does_statement owner body)) fun _ ↦ .bind (does_valueOf _ _) fun _ ↦ .pure _
  | .forLoop _ _ _ _ _ _ body =>
    .bind (does_valueOf _ _) fun _ ↦ .bind (does_valueOf _ _) fun _ ↦
      .inside (.bind (does_declared _ _ _ _) fun _ ↦
        .bind (.insideLoop (does_statement owner body)) fun _ ↦ .pure _)
  | .breakLoop keyword => .reporting (Resolver.reporting_jump keyword _)
  | .continueLoop keyword => .reporting (Resolver.reporting_jump keyword _)
  | .leave keyword e => does_leaving owner keyword e
  | .expression e => .bind (does_expression e) fun _ ↦ .pure _

theorem does_statements (owner : Option Function) :
    (l : List Tree.Statement) → Does (statements owner l) (Resolver.statements owner l)
  | [] => .pure _
  | s :: rest => .bind (does_statement owner s) fun _ ↦ .bind (does_statements owner rest) fun _ ↦ .pure _

end

theorem does_functionHead (text : Tree.Function) : Does (functionHead text) (Resolver.functionHead text) := by
  refine .bind (.lift (Resolver.loopless_parameters _ _)) fun _ ↦
    .bind (.reporting (Resolver.reporting_clauseType? _)) fun _ ↦
      .bind (.lift Resolver.loopless_freshSymbol) fun _ ↦ .ite (.pure _) ?_
  exact .bind (.declareFunction _) fun _ ↦ .ite (.pure _) (.bind (.report _ _) fun _ ↦ .pure _)

theorem does_functionHeads (ms : List Tree.Member) : Does (functionHeads ms) (Resolver.functionHeads ms) := by
  induction ms with
  | nil => exact .pure _
  | cons m rest ih =>
    cases m with
    | statement s => exact ih
    | function text =>
      refine .bind (does_functionHead text) fun o ↦ ?_
      cases o with
      | none => exact ih
      | some f => exact .bind ih fun _ ↦ .pure _

theorem does_layer (source : Tree.Source) : Does (layer source) (Resolver.layer source) := by
  refine .bind (does_functionHeads _) fun functions ↦ .bind (does_statements _ _) fun body r ↦ ⟨.refl r, fun hr ↦ ?_⟩
  obtain ⟨f, hf⟩ : ∃ f, r.scopes.frames[r.scope]? = some f := ⟨_, Array.getElem?_eq_getElem hr.scope⟩
  have hvars : scopeVariables r = some (r.scopes.variablesOf r.scope, r) := by
    rw [scopeVariables, Scopes.variablesOf, hf]
    rfl
  change (scopeVariables r).bind (fun p ↦ some ((⟨functions, p.1, body, p.2.reports.reverse⟩ : Layer), p.2)) = _
  rw [hvars]
  rfl

end Guarded

end SmallScript
