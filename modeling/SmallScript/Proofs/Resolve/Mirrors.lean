import SmallScript.Proofs.Resolve.MirrorsAction

namespace SmallScript.Resolver

open Code (Expression Statement Renaming)

variable {S : Insertion} {k : Nat} {α β γ δ : Type}

section Expression

abbrev MirrorsExpression (S : Insertion) (k : Nat) (P : Prop) (m m' : Resolver Expression) : Prop :=
  Mirrors S k (Expression.rename S.shift) S.Clear P m m'

theorem mirrors_needValue (span : Span) (e : Expression) :
    MirrorsExpression S k (S.Clear e) (needValue span e) (needValue span (e.rename S.shift)) := by
  unfold needValue
  rw [e.ty_rename]
  exact .ite (fun _ ↦ .report fun _ ↦ .pure _) fun _ ↦ .pure rfl id

theorem mirrors_convert (span : Span) (e : Expression) (target : Ty) (isWritten : Bool) :
    MirrorsExpression S k (S.Clear e) (convert span e target isWritten)
      (convert span (e.rename S.shift) target isWritten) := by
  unfold convert
  rw [e.ty_rename]
  split
  · exact .ite (fun _ ↦ .report fun _ ↦ .pure _) fun _ ↦ .pure rfl False.elim
  · exact .pure rfl id
  · exact .pure rfl id
  · exact .ite (fun _ ↦ .report fun _ ↦ .pure _) fun _ ↦ .pure rfl id

theorem mirrors_named (identifier : Token) :
    MirrorsExpression S k True (named identifier) (named identifier) := by
  refine .ite (fun _ ↦ .pure rfl False.elim) fun _ ↦ .bind (mirrors_lookupVariable _) fun o ↦ ?_
  cases o with
  | none => exact .report fun _ ↦ .pure _
  | some v => exact .pure rfl fun hv ↦ ⟨v, rfl, hv⟩

theorem mirrors_assigned (identifier equals : Token) (span : Span) (value : Expression) :
    MirrorsExpression S k (S.Clear value) (assigned identifier equals span value)
      (assigned identifier equals span (value.rename S.shift)) := by
  refine .bind_of (fun _ h ↦ h) (mirrors_lookupVariable _) ?_
  intro o
  cases o with
  | none => exact .report fun _ ↦ .pure _
  | some v =>
    simp only [Option.map_some, Renaming.readOnly_var, Renaming.ty_var]
    refine .ite (fun _ ↦ .report fun _ ↦ ?_) fun _ ↦ ?_
    · exact .bind (mirrors_convert (S := S) (k := k) _ _ _ _).honest.grows fun _ ↦ .pure _
    · refine .bind_of And.intro (mirrors_convert _ _ _ _) fun c ↦ .pure rfl fun hc ↦ ?_
      exact ⟨⟨v, rfl, hc.1⟩, hc.2⟩

theorem mirrors_unary (sign : Token) (operand : Expression) :
    MirrorsExpression S k (S.Clear operand) (unary sign operand)
      (unary sign (operand.rename S.shift)) := by
  unfold unary
  rw [operand.ty_rename]
  refine .ite (fun _ ↦ .pure rfl False.elim) fun _ ↦ ?_
  split
  · exact .pure rfl id
  · exact .report fun _ ↦ .pure _

theorem mirrors_binary (left : Expression) (sign : Token) (right : Expression) :
    MirrorsExpression S k (S.Clear left ∧ S.Clear right) (binary left sign right)
      (binary (left.rename S.shift) sign (right.rename S.shift)) := by
  unfold binary
  rw [left.ty_rename, right.ty_rename]
  refine .ite (fun _ ↦ .pure rfl False.elim) fun _ ↦ ?_
  split
  · exact .pure rfl id
  · exact .report fun _ ↦ .pure _

theorem mirrors_matchArguments (name : String) (vs : List Variable) (es : List Expression)
    (spans : List Span) :
    Mirrors S k id (fun _ ↦ True) True (matchArguments name vs es spans)
      (matchArguments name vs (Code.renameArguments S.shift es) spans) := by
  induction vs generalizing es spans with
  | nil => exact .pure rfl id
  | cons v vs ih =>
    rcases es with _ | ⟨e, es⟩
    · exact .pure rfl id
    rcases spans with _ | ⟨span, spans⟩
    · exact .pure rfl id
    simp only [Code.renameArguments, matchArguments, Expression.ty_rename]
    refine .ite (fun _ ↦ ih es spans) fun _ ↦ .ite (fun _ ↦ .report fun _ ↦ ?_) fun _ ↦ ?_
    · exact .bind (ih es spans).honest.grows fun _ ↦ .pure _
    · exact .bind (ih es spans) fun _ ↦ .pure rfl id

theorem mirrors_called (identifier : Token) (span : Span) (arguments : List Expression)
    (spans : List Span) :
    MirrorsExpression S k (Code.AllUse False S.Keeps S.KeepsFunction arguments)
      (called identifier span arguments spans)
      (called identifier span (Code.renameArguments S.shift arguments) spans) := by
  refine .bind_of (fun _ h ↦ h) (mirrors_lookupFunction _) ?_
  intro o
  cases o with
  | none => exact .report fun _ ↦ .pure _
  | some f =>
    simp only [id, Code.renameArguments_eq_map, List.length_map]
    refine .ite (fun _ ↦ .report fun _ ↦ .pure _) fun _ ↦ ?_
    have hmatch := mirrors_matchArguments (S := S) (k := k) identifier.text f.parameters arguments spans
    rw [Code.renameArguments_eq_map] at hmatch
    refine .bind_of (fun _ h ↦ h) hmatch fun b ↦ .ite (fun _ ↦ ?_) fun _ ↦ .pure rfl False.elim
    refine .pure ?_ fun h ↦ ⟨⟨h.2, f, rfl, h.1⟩, trivial⟩
    rw [← Code.renameArguments_eq_map]
    rfl

mutual

theorem mirrors_expression : (e : Tree.Expression) →
    MirrorsExpression S k True (expression e) (expression e)
  | .literal _ _ => .pure rfl id
  | .name identifier => mirrors_named identifier
  | .unary _ operand =>
    .bind (mirrors_expression operand) fun _ ↦ .bind (mirrors_needValue _ _) fun _ ↦ mirrors_unary _ _
  | .binary left _ right =>
    .bind (mirrors_expression left) fun _ ↦ .bind (mirrors_needValue _ _) fun _ ↦
      .bind_of (fun _ h ↦ h) (mirrors_expression right) fun _ ↦
        .bind_of (fun h h' ↦ ⟨h', h⟩) (mirrors_needValue _ _) fun _ ↦ mirrors_binary _ _ _
  | .group _ inner _ => .bind (mirrors_expression inner) fun _ ↦ mirrors_needValue _ _
  | .assign _ _ value =>
    .bind (mirrors_expression value) fun _ ↦ .bind (mirrors_needValue _ _) fun _ ↦
      mirrors_assigned _ _ _ _
  | .call identifier _ arguments _ => by
    refine .bind (mirrors_expressions arguments) ?_
    intro es
    dsimp only
    rcases es with _ | ⟨e, _ | ⟨e', es⟩⟩
    · exact mirrors_called _ _ _ _
    · rcases arguments.map Tree.Expression.span with _ | ⟨span, _ | ⟨span', spans⟩⟩
      · exact mirrors_called _ _ _ _
      · cases Ty.written? identifier.text with
        | none => exact mirrors_called _ _ _ _
        | some target => exact (mirrors_convert _ _ _ _).mono fun h ↦ ⟨h, trivial⟩
      · exact mirrors_called _ _ _ _
    · exact mirrors_called _ _ _ _

theorem mirrors_expressions : (es : List Tree.Expression) →
    Mirrors S k (Code.renameArguments S.shift) (Code.AllUse False S.Keeps S.KeepsFunction) True
      (expressions es) (expressions es)
  | [] => .pure rfl id
  | e :: rest =>
    .bind (mirrors_expression e) fun _ ↦ .bind (mirrors_needValue _ _) fun _ ↦
      .bind_of (fun _ h ↦ h) (mirrors_expressions rest) fun _ ↦ .pure rfl id

end

theorem mirrors_value (e : Tree.Expression) : MirrorsExpression S k True (value e) (value e) :=
  .bind (mirrors_expression e) fun _ ↦ mirrors_needValue _ _

theorem mirrors_valueOf (target : Ty) (e : Tree.Expression) :
    MirrorsExpression S k True (valueOf target e) (valueOf target e) :=
  .bind (mirrors_value e) fun _ ↦ mirrors_convert _ _ _ _

end Expression

section Statement

abbrev MirrorsStatement (S : Insertion) (k : Nat) (P : Prop) (m m' : Resolver Statement) : Prop :=
  Mirrors S k (Statement.rename S.shift) S.ClearStatement P m m'

theorem mirrors_clauseType? (clause : Option Tree.TypeClause) :
    Mirrors S k id (fun _ ↦ True) True (clauseType? clause) (clauseType? clause) := by
  cases clause with
  | none => exact .pure rfl id
  | some clause =>
    refine .ite (fun _ ↦ .pure rfl id) fun _ ↦ ?_
    split
    · exact .pure rfl id
    · exact .report fun _ ↦ .pure _

theorem mirrors_declared (f : Function) (identifier : Token) (readOnly : Bool) (ty : Ty) :
    Mirrors S k S.shift.var (fun _ ↦ True) True (declared (some f) identifier readOnly ty)
      (declared (some f) identifier readOnly ty) := by
  refine .bind mirrors_freshSymbol fun n ↦ .ite (fun _ ↦ ?_) fun _ ↦ .pure rfl id
  refine .bind (mirrors_declareVariable _) ?_
  intro b
  refine .ite (fun _ ↦ .report fun _ ↦ .pure _) fun _ ↦ ?_
  exact .pure rfl id

theorem mirrors_declaration (f : Function) (keyword identifier : Token)
    (clause : Option Tree.TypeClause) (initializer : Tree.Expression) :
    MirrorsStatement S k True (declaration (some f) keyword identifier clause initializer)
      (declaration (some f) keyword identifier clause initializer) := by
  refine .bind (mirrors_clauseType? _) ?_
  intro t
  refine .bind_of (fun _ h ↦ h) (mirrors_value _) ?_
  intro e
  simp only [Expression.ty_rename, id]
  refine .bind_of (fun _ h ↦ h) (mirrors_declared _ _ _ _) ?_
  intro v
  refine .bind_of (fun h (_ : True) ↦ ⟨⟨trivial, h⟩, trivial⟩) (mirrors_convert _ _ _ _) ?_
  intro c
  exact .pure rfl fun h ↦ ⟨trivial, h.2⟩

theorem mirrors_jump (keyword : Token) (target : Exits → Label) :
    MirrorsStatement S k True (jump keyword target) (jump keyword target) := by
  refine .reporting (reporting_jump keyword target) (fun r r' hr hG ↦ ?_) fun _ _ ↦ trivial
  obtain ⟨inner, -, -, -, -, -, -, rfl⟩ := hr
  have hget {α : Type} (f : Resolution → Resolver α) (r : Resolution) : (get >>= f) r = f r r := rfl
  rw [jump, hget] at hG ⊢
  rw [hget]
  dsimp only at hG ⊢
  cases hl : r.loops with
  | nil =>
    rw [hl] at hG
    exact hG.elim
  | cons exits loops => exact ⟨rfl, rfl⟩

theorem mirrors_leaving (f : Function) (keyword : Token) (e : Option Tree.Expression) :
    MirrorsStatement S k True (leaving (some f) keyword e) (leaving (some f) keyword e) := by
  cases e with
  | none =>
    rw [leaving_nothing]
    exact .ite (fun _ ↦ .report fun _ ↦ .pure _) fun _ ↦ .pure rfl fun _ ↦ trivial
  | some e =>
    rw [leaving_value]
    refine .bind (mirrors_value e) ?_
    intro c
    refine .ite (fun _ ↦ .report fun _ ↦ .pure _) fun _ ↦ ?_
    refine .bind_of (fun h (_ : True) ↦ h) (mirrors_convert _ _ _ _) ?_
    intro c'
    exact .pure rfl fun h ↦ ⟨trivial, h c' rfl⟩

mutual

theorem mirrors_statement (f : Function) : (s : Tree.Statement) → (k : Nat) →
    MirrorsStatement S k True (statement (some f) s) (statement (some f) s)
  | .block _ inner _, _ =>
    .bind (mirrors_inside (mirrors_statements f inner)) fun _ ↦ .pure rfl id
  | .declare .., _ => mirrors_declaration _ _ _ _ _
  | .ifThen _ _ branch, k =>
    .bind (mirrors_valueOf _ _) fun _ ↦
      .bind_of (fun _ h ↦ h) (mirrors_statement f branch k) fun _ ↦ .pure rfl id
  | .ifElse _ _ branch _ otherwise, k =>
    .bind (mirrors_valueOf _ _) fun _ ↦
      .bind_of (fun _ h ↦ h) (mirrors_statement f branch k) fun _ ↦
        .bind_of (fun _ h ↦ h) (mirrors_statement f otherwise k) fun _ ↦
          .pure rfl fun h ↦ ⟨⟨h.1, h.2.1⟩, h.2.2⟩
  | .whileLoop _ _ body, k =>
    .bind (mirrors_valueOf _ _) fun _ ↦
      .bind_of (fun _ h ↦ h) (mirrors_insideLoop (mirrors_statement f body k)) fun _ ↦ .pure rfl id
  | .doLoop _ body _ _, k =>
    .bind (mirrors_insideLoop (mirrors_statement f body k)) fun _ ↦
      .bind_of (fun _ h ↦ h) (mirrors_valueOf _ _) fun _ ↦ .pure rfl fun h ↦ ⟨h.2, h.1⟩
  | .forLoop _ _ _ _ _ _ body, _ =>
    .bind (mirrors_valueOf _ _) fun _ ↦ .bind_of (fun _ h ↦ h) (mirrors_valueOf _ _) fun _ ↦
      mirrors_inside fun _ ↦ .bind_of (fun _ h ↦ h) (mirrors_declared _ _ _ _) fun _ ↦
        .bind_of (fun _ h ↦ h) (mirrors_insideLoop (mirrors_statement f body _)) fun _ ↦
          .pure rfl fun h ↦ ⟨⟨h.2.1, trivial⟩, h.2.2⟩
  | .breakLoop keyword, _ | .continueLoop keyword, _ => mirrors_jump keyword _
  | .leave keyword e, _ => mirrors_leaving f keyword e
  | .expression e, _ => .bind (mirrors_expression e) fun _ ↦ .pure rfl id

/-- Statements of a function on which nothing is reported, and that use nothing hidden, are resolved as
before, but for the numbers of their locals. -/
theorem mirrors_statements (f : Function) : (l : List Tree.Statement) → (k : Nat) →
    Mirrors S k (Code.renameAll S.shift) (Code.AllOf (·.kind ≠ .global) S.Clear) True
      (statements (some f) l) (statements (some f) l)
  | [], _ => .pure rfl id
  | s :: rest, k =>
    .bind (mirrors_statement f s k) fun _ ↦
      .bind_of (fun _ h ↦ h) (mirrors_statements f rest k) fun _ ↦ .pure rfl id

end

end Statement

end SmallScript.Resolver
