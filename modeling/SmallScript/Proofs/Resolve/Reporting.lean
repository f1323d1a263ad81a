import SmallScript.Resolve.Statement

namespace SmallScript

namespace Scopes

variable {P : Scopes → Prop} {s : Scopes} {scope : Nat}

/-- What holds of some scopes holds after a declaration, if it does once a frame has what is declared. -/
theorem declareVariable_keeps {v : Variable} (h : P s)
    (hset : ∀ f, s.frames[scope]? = some f → P ⟨s.frames.set! scope { f with vars := f.vars ++ [v] }⟩) :
    P ((s.declareVariable? scope v).getD s) := by
  unfold declareVariable?
  split
  · exact h
  · next f hf =>
    split
    · exact h
    · exact hset f hf

theorem declareFunction_keeps {g : Function} (h : P s)
    (hset : ∀ f, s.frames[scope]? = some f →
      P ⟨s.frames.set! scope { f with functions := f.functions ++ [g] }⟩) :
    P ((s.declareFunction? scope g).getD s) := by
  unfold declareFunction?
  split
  · exact h
  · next f hf =>
    split
    · exact h
    · exact hset f hf

end Scopes

namespace Resolver

theorem modifyGet_apply {α : Type} (f : Resolution → α × Resolution) (r : Resolution) :
    (modifyGet f : Resolver α) r = f r := rfl

theorem declareVariable_snd (v : Variable) (r : Resolution) :
    (declareVariable v r).2 = { r with scopes := (r.scopes.declareVariable? r.scope v).getD r.scopes } := by
  rw [declareVariable, modifyGet_apply]
  split
  · next h => rw [h]; rfl
  · next h => rw [h]; rfl

theorem declareVariable_fst (v : Variable) (r : Resolution) :
    (declareVariable v r).1 = (r.scopes.declareVariable? r.scope v).isSome := by
  rw [declareVariable, modifyGet_apply]
  split
  · next h => rw [h]; rfl
  · next h => rw [h]; rfl

theorem declareFunction_snd (f : Function) (r : Resolution) :
    (declareFunction f r).2 = { r with scopes := (r.scopes.declareFunction? r.scope f).getD r.scopes } := by
  rw [declareFunction, modifyGet_apply]
  split
  · next h => rw [h]; rfl
  · next h => rw [h]; rfl

theorem declareFunction_fst (f : Function) (r : Resolution) :
    (declareFunction f r).1 = (r.scopes.declareFunction? r.scope f).isSome := by
  rw [declareFunction, modifyGet_apply]
  split
  · next h => rw [h]; rfl
  · next h => rw [h]; rfl

def Reporting {α : Type} (m : Resolver α) : Prop :=
  ∀ r, ∃ new, (m r).2 = { r with reports := new ++ r.reports }

namespace Reporting

variable {α β : Type} {m : Resolver α}

theorem pure (a : α) : Reporting (pure a) := fun _ ↦ ⟨[], rfl⟩

theorem bind {f : α → Resolver β} (hm : Reporting m) (hf : ∀ a, Reporting (f a)) :
    Reporting (m >>= f) := by
  intro r
  obtain ⟨first, h⟩ := hm r
  obtain ⟨second, h'⟩ := hf (m r).1 (m r).2
  refine ⟨second ++ first, ?_⟩
  change ((f (m r).1) (m r).2).2 = _
  rw [h', h, List.append_assoc]

theorem ite {c : Prop} [Decidable c] {m' : Resolver α} (h : Reporting m) (h' : Reporting m') :
    Reporting (if c then m else m') := by
  split
  · exact h
  · exact h'

theorem report (span : Span) (cause : Cause) : Reporting (report span cause) :=
  fun _ ↦ ⟨[⟨span, cause⟩], rfl⟩

theorem lookupVariable (name : String) : Reporting (lookupVariable name) := fun _ ↦ ⟨[], rfl⟩

theorem lookupFunction (name : String) : Reporting (lookupFunction name) := fun _ ↦ ⟨[], rfl⟩

theorem eq_of_reports (hm : Reporting m) {r : Resolution} (h : (m r).2.reports = r.reports) :
    (m r).2 = r := by
  obtain ⟨new, hnew⟩ := hm r
  rw [hnew] at h
  have hnil : new = [] := by simpa using h
  rw [hnew, hnil]
  rfl

end Reporting

open Code (Expression)

theorem reporting_needValue (span : Span) (e : Expression) : Reporting (needValue span e) :=
  .ite (.bind (.report _ _) fun _ ↦ .pure _) (.pure _)

theorem reporting_convert (span : Span) (e : Expression) (target : Ty) (isWritten : Bool) :
    Reporting (convert span e target isWritten) := by
  unfold convert
  split
  · exact .ite (.bind (.report _ _) fun _ ↦ .pure _) (.pure _)
  · exact .pure _
  · exact .pure _
  · exact .ite (.bind (.report _ _) fun _ ↦ .pure _) (.pure _)

theorem reporting_named (identifier : Token) : Reporting (named identifier) := by
  refine .ite (.pure _) (.bind (.lookupVariable _) fun o ↦ ?_)
  split
  · exact .pure _
  · exact .bind (.report _ _) fun _ ↦ .pure _

theorem reporting_assigned (identifier equals : Token) (span : Span) (value : Expression) :
    Reporting (assigned identifier equals span value) := by
  refine .bind (.lookupVariable _) ?_
  intro o
  split
  · exact .bind (.report _ _) fun _ ↦ .pure _
  · exact .ite (.bind (.report _ _) fun _ ↦ .bind (reporting_convert _ _ _ _) fun _ ↦ .pure _)
      (.bind (reporting_convert _ _ _ _) fun _ ↦ .pure _)

theorem reporting_unary (sign : Token) (operand : Expression) : Reporting (unary sign operand) := by
  refine .ite (.pure _) ?_
  split
  · exact .pure _
  · exact .bind (.report _ _) fun _ ↦ .pure _

theorem reporting_binary (left : Expression) (sign : Token) (right : Expression) :
    Reporting (binary left sign right) := by
  refine .ite (.pure _) ?_
  split
  · exact .pure _
  · exact .bind (.report _ _) fun _ ↦ .pure _

theorem reporting_matchArguments (name : String) (vs : List Variable) (es : List Expression)
    (spans : List Span) : Reporting (matchArguments name vs es spans) := by
  induction vs generalizing es spans with
  | nil => exact .pure _
  | cons v vs ih =>
    rcases es with _ | ⟨e, es⟩
    · exact .pure _
    rcases spans with _ | ⟨span, spans⟩
    · exact .pure _
    refine .ite (ih es spans) (.ite ?_ ?_)
    · exact .bind (.report _ _) fun _ ↦ .bind (ih es spans) fun _ ↦ .pure _
    · exact .bind (ih es spans) fun _ ↦ .pure _

theorem reporting_called (identifier : Token) (span : Span) (arguments : List Expression)
    (spans : List Span) : Reporting (called identifier span arguments spans) := by
  refine .bind (.lookupFunction _) ?_
  intro o
  split
  · exact .bind (.report _ _) fun _ ↦ .pure _
  · refine .ite (.bind (.report _ _) fun _ ↦ .pure _) ?_
    exact .bind (reporting_matchArguments _ _ _ _) fun _ ↦ .ite (.pure _) (.pure _)

mutual

theorem reporting_expression : (e : Tree.Expression) → Reporting (expression e)
  | .literal _ _ => .pure _
  | .name _ => reporting_named _
  | .unary _ operand =>
    .bind (reporting_expression operand) fun _ ↦ .bind (reporting_needValue _ _) fun _ ↦
      reporting_unary _ _
  | .binary left _ right =>
    .bind (reporting_expression left) fun _ ↦ .bind (reporting_needValue _ _) fun _ ↦
      .bind (reporting_expression right) fun _ ↦ .bind (reporting_needValue _ _) fun _ ↦
        reporting_binary _ _ _
  | .group _ inner _ => .bind (reporting_expression inner) fun _ ↦ reporting_needValue _ _
  | .assign _ _ value =>
    .bind (reporting_expression value) fun _ ↦ .bind (reporting_needValue _ _) fun _ ↦
      reporting_assigned _ _ _ _
  | .call _ _ arguments _ => by
    refine .bind (reporting_expressions arguments) ?_
    intro es
    dsimp only
    split
    · exact reporting_convert _ _ _ _
    · exact reporting_called _ _ _ _

theorem reporting_expressions : (es : List Tree.Expression) → Reporting (expressions es)
  | [] => .pure _
  | e :: rest =>
    .bind (reporting_expression e) fun _ ↦ .bind (reporting_needValue _ _) fun _ ↦
      .bind (reporting_expressions rest) fun _ ↦ .pure _

end

theorem reporting_value (e : Tree.Expression) : Reporting (value e) :=
  .bind (reporting_expression e) fun _ ↦ reporting_needValue _ _

theorem reporting_valueOf (target : Ty) (e : Tree.Expression) : Reporting (valueOf target e) :=
  .bind (reporting_value e) fun _ ↦ reporting_convert _ _ _ _

theorem reporting_clauseType? (clause : Option Tree.TypeClause) :
    Reporting (clauseType? clause) := by
  cases clause with
  | none => exact .pure _
  | some clause =>
    refine .ite (.pure _) ?_
    split
    · exact .pure _
    · exact .bind (.report _ _) fun _ ↦ .pure _

theorem reporting_jump (keyword : Token) (target : Exits → Label) :
    Reporting (jump keyword target) := by
  refine .bind (fun _ ↦ ⟨[], rfl⟩) ?_
  intro r
  split
  · exact .pure _
  · exact .bind (.report _ _) fun _ ↦ .pure _

theorem reporting_returned (e : Option Tree.Expression) : Reporting (e.mapM value) := by
  cases e with
  | none => exact .pure _
  | some e => exact .bind (reporting_value e) fun _ ↦ .pure _

theorem leaving_nothing (f : Function) (keyword : Token) :
    leaving (some f) keyword none = (do
      if f.returns ≠ .void then report keyword.span (.returnValueMissing f.returns)
      return .leave none) := rfl

theorem leaving_value (f : Function) (keyword : Token) (e : Tree.Expression) :
    leaving (some f) keyword (some e) = (do
      let c ← value e
      if f.returns = .void then
        report e.span (.voidReturnsValue f.name)
        return .leave (some c)
      else return .leave (some (← convert e.span c f.returns false))) := rfl

theorem reporting_leaving (owner : Option Function) (keyword : Token) (e : Option Tree.Expression) :
    Reporting (leaving owner keyword e) := by
  refine .bind (reporting_returned e) ?_
  intro o
  cases owner with
  | none => exact .bind (.report _ _) fun _ ↦ .pure _
  | some f =>
    dsimp only
    split
    · exact .ite (.bind (.report _ _) fun _ ↦ .pure _) (.bind (reporting_convert _ _ _ _) fun _ ↦ .pure _)
    · exact .ite (.bind (.report _ _) fun _ ↦ .pure _) (.pure _)

end Resolver

end SmallScript
