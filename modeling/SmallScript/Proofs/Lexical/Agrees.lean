import SmallScript.Proofs.Lexical.Gives

namespace SmallScript

open Lexical (Env Context State lookup)

namespace Resolver

open Code (Expression Statement)

variable {α β : Type} {e : Env}

section Statement

variable {c : Context} {m : Resolver α} {f : State → α × State}

/-- An action does what `f` says with what goes from one statement to the next, and changes no scope
but the one in force. -/
def Refines (c : Context) (m : Resolver α) (f : State → α × State) : Prop :=
  ∀ s r, c.Agrees s r → (m r).1 = (f s).1 ∧ r.Kept (m r).2 ∧ c.Agrees (f s).2 (m r).2

namespace Refines

theorem pure (a : α) : Refines c (Pure.pure a) fun s ↦ (a, s) := fun _ r h ↦ ⟨rfl, .refl r, h⟩

theorem bind {g : α → Resolver β} {k : α → State → β × State} (hm : Refines c m f)
    (hg : ∀ a, Refines c (g a) (k a)) : Refines c (m >>= g) fun s ↦ k (f s).1 (f s).2 := by
  intro s r h
  obtain ⟨heq, hkept, h'⟩ := hm s r h
  obtain ⟨heq', hkept', h''⟩ := hg (m r).1 _ _ h'
  have hk : k (m r).1 (f s).2 = k (f s).1 (f s).2 := by rw [heq]
  rw [hk] at heq' h''
  exact ⟨heq', hkept.trans hkept', h''⟩

/-- What an action gives from the scopes around its place, if it only reports. -/
theorem of_gives {f : Env → α} (hm : Reporting m) (h : ∀ e, Gives e m (f e)) :
    Refines c m fun s ↦ (f (c.env s), s) := by
  intro s r hr
  obtain ⟨new, hnew⟩ := hm r
  refine ⟨(h _ r hr.holds).1, ?_, ?_⟩ <;> rw [hnew]
  · exact ⟨⟨rfl, Nat.le_refl _, Nat.le_refl _, fun hr ↦ ⟨hr.scope, hr.ordered⟩⟩, fun _ _ _ ↦ rfl⟩
  · exact ⟨⟨hr.stands.scope, hr.stands.ordered⟩, hr.vars, hr.functions, hr.loops, hr.loopCount, hr.nextSymbol⟩

theorem inside (h : Refines c m f) :
    Refines c (inside m) fun s ↦ ((f s.enter).1, { (f s.enter).2 with scopes := s.scopes }) := by
  intro s r hr
  obtain ⟨heq, hkept, hin⟩ := h s.enter (enter r).2 hr.enter
  obtain ⟨hkept', hseen⟩ := kept_inside hr.stands hkept
  refine ⟨heq, hkept', hkept'.stands hr.stands, ?_, ?_, hin.loops, hin.loopCount, hin.nextSymbol⟩
  · exact hseen ▸ hr.vars
  · exact hseen ▸ hr.functions

theorem insideLoop {f : Exits → State → α × State} (h : ∀ x, Refines (c.inLoop x) m (f x)) :
    Refines c (insideLoop m) fun s ↦ (((f s.exits s.countLoop).1, s.exits), (f s.exits s.countLoop).2) := by
  intro s r hr
  obtain ⟨heq, hkept, hin⟩ := h s.exits s.countLoop (openLoop r) hr.openLoop
  have hexits : (⟨.breakOf (r.loopCount + 1), .continueOf (r.loopCount + 1)⟩ : Exits) = s.exits := by
    rw [State.exits, hr.loopCount]
  have hkept' := kept_insideLoop hr.stands hkept
  rw [insideLoop_apply, heq, hexits]
  refine ⟨rfl, hkept', hkept'.stands hr.stands, hin.vars, hin.functions, ?_, hin.loopCount, hin.nextSymbol⟩
  exact congrArg List.tail hin.loops

end Refines

theorem refines_valueOf (target : Ty) (t : Tree.Expression) :
    Refines c (valueOf target t) fun s ↦ (Lexical.valueOf (c.env s) target t, s) :=
  .of_gives (f := fun e ↦ Lexical.valueOf e target t) (reporting_valueOf target t) fun _ ↦ gives_valueOf target t

theorem refines_freshSymbol :
    Refines c freshSymbol fun s ↦ (s.nextSymbol, { s with nextSymbol := s.nextSymbol + 1 }) := by
  intro s r hr
  refine ⟨hr.nextSymbol, ⟨(loopless_freshSymbol r).1, fun _ _ _ ↦ rfl⟩, ?_⟩
  exact ⟨⟨hr.stands.scope, hr.stands.ordered⟩, hr.vars, hr.functions, hr.loops, hr.loopCount,
    congrArg (· + 1) hr.nextSymbol⟩

theorem refines_report (span : Span) (cause : Cause) :
    Refines c (report span cause) fun s ↦ ((), s) :=
  .of_gives (f := fun _ ↦ ()) (.report span cause) fun _ ↦ .report span cause

theorem refines_declareVariable (v : Variable) :
    Refines c (declareVariable v) fun s ↦
      (decide (v.name ∉ (s.scopes.headD []).map Variable.name),
        { s with scopes := Lexical.declare v s.scopes }) := by
  intro s r hr
  obtain ⟨hkept, g, rest, hseen, hseen', hanswer⟩ := stacked_declareVariable v r hr.stands
  have hvars := hr.vars
  rw [hseen] at hvars
  obtain ⟨outer, hscopes, hrest⟩ := hvars
  have hname : (g.lookupVariable v.name).isSome ↔ v.name ∈ g.vars.map Variable.name := by
    rw [Frame.isSome_lookupVariable, List.mem_map]
  have hdeclared : Lexical.declare v s.scopes = (g.withVariable v).vars :: outer := by
    rw [hscopes, Lexical.declare, Frame.withVariable]
    by_cases hmem : v.name ∈ g.vars.map Variable.name
    · rw [if_pos hmem, if_pos (hname.mpr hmem)]
    · rw [if_neg hmem, if_neg fun h ↦ hmem (hname.mp h)]
  refine ⟨?_, hkept, hkept.stands hr.stands, ?_, fun name ↦ ?_, ?_, ?_, ?_⟩
  · change _ = decide (v.name ∉ (s.scopes.headD []).map Variable.name)
    rw [hanswer, hscopes, List.headD_cons, ← Option.not_isSome, decide_not]
    exact congrArg (!·) (Bool.eq_iff_iff.mpr (hname.trans decide_eq_true_iff.symm))
  · change Lexical.Sees (Lexical.declare v s.scopes) _
    rw [hseen', hdeclared]
    exact ⟨outer, rfl, hrest⟩
  · rw [hseen', ← hr.functions name, hseen, List.findSome?_cons, List.findSome?_cons,
      Frame.lookupFunction, Frame.functions_withVariable, Frame.lookupFunction]
  all_goals rw [declareVariable_snd]
  · exact hr.loops
  · exact hr.loopCount
  · exact hr.nextSymbol

theorem refines_declared (identifier : Token) (readOnly : Bool) (ty : Ty) :
    Refines c (declared c.owner identifier readOnly ty) (Lexical.declared c identifier readOnly ty) := by
  have hf : Lexical.declared c identifier readOnly ty = fun s ↦ Lexical.declared c identifier readOnly ty s := rfl
  rw [hf]
  unfold declared Lexical.declared
  cases identifier.isMissing with
  | true => exact refines_freshSymbol.bind fun _ ↦ .pure _
  | false =>
    have hreport (v : Variable) (b : Bool) : Refines c (do
        if !b then report identifier.span (.variableRedeclared identifier.text)
        return v) fun s ↦ (v, s) := by
      cases b with
      | true => exact .pure v
      | false => exact (refines_report _ _).bind fun _ ↦ .pure v
    exact refines_freshSymbol.bind fun n ↦ (refines_declareVariable _).bind fun b ↦ hreport _ b

theorem refines_declaration (keyword identifier : Token) (clause : Option Tree.TypeClause)
    (initializer : Tree.Expression) :
    Refines c (declaration c.owner keyword identifier clause initializer)
      (Lexical.declaration c keyword identifier clause initializer) := by
  have hclause : Refines c (clauseType? clause) fun s ↦ (Lexical.clauseType? clause, s) :=
    .of_gives (f := fun _ ↦ Lexical.clauseType? clause) (reporting_clauseType? clause) fun _ ↦
      .of_reporting (reporting_clauseType? clause) (clauseType?_fst clause)
  have hvalue : Refines c (value initializer) fun s ↦ (Lexical.value (c.env s) initializer, s) :=
    .of_gives (f := fun e ↦ Lexical.value e initializer) (reporting_value initializer) fun _ ↦
      gives_value initializer
  have hconvert (e : Expression) (ty : Ty) :
      Refines c (convert initializer.span e ty false) fun s ↦ (Lexical.convert e ty, s) :=
    .of_gives (f := fun _ ↦ Lexical.convert e ty) (reporting_convert _ _ _ _) fun _ ↦
      gives_convert _ _ _ _
  exact hclause.bind fun _ ↦ hvalue.bind fun _ ↦ (refines_declared identifier _ _).bind fun _ ↦
    (hconvert _ _).bind fun _ ↦ .pure _

theorem refines_jump (keyword : Token) (target : Exits → Label) :
    Refines c (jump keyword target) fun s ↦ (Lexical.jump c target, s) := by
  intro s r hr
  obtain ⟨scopes, scope, loops, loopCount, nextSymbol, reports⟩ := r
  have hloops : loops = c.loops := hr.loops
  rw [Lexical.jump, ← hloops]
  cases loops with
  | nil => exact ((refines_report (c := c) _ _).bind fun _ ↦ .pure (Statement.expression .error)) s _ hr
  | cons x rest => exact Refines.pure (c := c) (Statement.goto (target x)) s _ hr

theorem refines_leaving (keyword : Token) (e : Option Tree.Expression) :
    Refines c (leaving c.owner keyword e) fun s ↦ (Lexical.leaving c e s, s) := by
  have hvalue (t : Tree.Expression) : Refines c (value t) fun s ↦ (Lexical.value (c.env s) t, s) :=
    .of_gives (f := fun e ↦ Lexical.value e t) (reporting_value t) fun _ ↦ gives_value t
  have hreport (span : Span) (cause : Cause) (s : Statement) : Refines c (do
      report span cause
      return s) fun st ↦ (s, st) := (refines_report _ _).bind fun _ ↦ .pure _
  unfold Lexical.leaving
  cases howner : c.owner with
  | none =>
    cases e with
    | none => exact hreport _ _ _
    | some t => exact (hvalue t).bind fun r ↦ hreport keyword.span .returnOutsideFunction (.leave (some r))
  | some f =>
    cases e with
    | none =>
      rw [leaving_nothing]
      split
      · exact hreport _ _ _
      · exact .pure _
    | some t =>
      rw [leaving_value]
      by_cases hvoid : f.returns = .void
      · simp only [hvoid, if_true, Option.map_some]
        exact (hvalue t).bind fun r ↦ hreport t.span (.voidReturnsValue f.name) (.leave (some r))
      · simp only [hvoid, if_false, Option.map_some]
        have hconvert (r : Expression) :
            Refines c (convert t.span r f.returns false) fun s ↦ (Lexical.convert r f.returns, s) :=
          .of_gives (f := fun _ ↦ Lexical.convert r f.returns) (reporting_convert _ _ _ _) fun _ ↦
            gives_convert _ _ _ _
        exact (hvalue t).bind fun r ↦ (hconvert r).bind fun r' ↦ .pure (Statement.leave (some r'))

mutual

theorem refines_statement : (t : Tree.Statement) → (c : Context) →
    Refines c (statement c.owner t) (Lexical.statement t c)
  | .block _ inner _, c => (refines_statements inner c).inside.bind fun _ ↦ .pure _
  | .declare keyword identifier clause _ initializer, _ => refines_declaration keyword identifier clause initializer
  | .ifThen _ condition branch, c =>
    (refines_valueOf .bool condition).bind fun _ ↦ (refines_statement branch c).bind fun _ ↦ .pure _
  | .ifElse _ condition branch _ otherwise, c =>
    (refines_valueOf .bool condition).bind fun _ ↦ (refines_statement branch c).bind fun _ ↦
      (refines_statement otherwise c).bind fun _ ↦ .pure _
  | .whileLoop _ condition body, c =>
    (refines_valueOf .bool condition).bind fun e ↦
      (Refines.insideLoop (m := statement c.owner body) fun x ↦ refines_statement body (c.inLoop x)).bind
        fun p ↦ .pure (Statement.whileLoop e p.1 p.2)
  | .doLoop _ body _ condition, c =>
    (Refines.insideLoop (m := statement c.owner body) fun x ↦ refines_statement body (c.inLoop x)).bind
      fun p ↦ (refines_valueOf .bool condition).bind fun e ↦ .pure (Statement.doLoop p.1 e p.2)
  | .forLoop _ identifier _ lower _ upper body, c => by
    have hloop (first last : Expression) (v : Variable) : Refines c (do
        let (turn, exits) ← insideLoop (statement c.owner body)
        return Statement.forLoop v first last turn exits) _ :=
      (Refines.insideLoop fun x ↦ refines_statement body (c.inLoop x)).bind fun _ ↦ .pure _
    exact (refines_valueOf .int lower).bind fun first ↦ (refines_valueOf .int upper).bind fun last ↦
      ((refines_declared identifier true .int).bind fun v ↦ hloop first last v).inside
  | .breakLoop keyword, _ => refines_jump keyword Exits.leave
  | .continueLoop keyword, _ => refines_jump keyword Exits.again
  | .leave keyword e, _ => refines_leaving keyword e
  | .expression t, c =>
    (Refines.of_gives (f := fun e ↦ Lexical.expression e t) (reporting_expression t) fun _ ↦
      gives_expression t).bind fun _ ↦ .pure _

theorem refines_statements : (ts : List Tree.Statement) → (c : Context) →
    Refines c (statements c.owner ts) (Lexical.statements ts c)
  | [], _ => .pure _
  | t :: rest, c => (refines_statement t c).bind fun _ ↦ (refines_statements rest c).bind fun _ ↦ .pure _

end

end Statement

end Resolver

end SmallScript
