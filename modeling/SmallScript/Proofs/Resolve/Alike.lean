import SmallScript.Proofs.Resolve.Abreast
import SmallScript.Proofs.Tree.Alike

namespace SmallScript.Resolver

open Code (Expression Statement translateArguments translateAll)

variable {C : Course} {E : List Frame → List Frame → Prop} {before : List Variable} {t t' : Token}

section Expression

abbrev FollowsExpression (C : Course) (E : List Frame → List Frame → Prop) (m m' : Resolver Expression) : Prop :=
  FollowsWith C E (Expression.translate C.translation) m m'

theorem follows_needValue (span span' : Span) (e : Expression) :
    FollowsExpression C E (needValue span e) (needValue span' (e.translate C.translation)) := by
  unfold needValue
  rw [e.ty_translate]
  exact .ite Iff.rfl (fun _ ↦ .report fun _ ↦ (Reporting.pure _).rises) fun _ ↦ .pure rfl

theorem follows_convert (span span' : Span) (e : Expression) (target : Ty) (isWritten : Bool) :
    FollowsExpression C E (convert span e target isWritten)
      (convert span' (e.translate C.translation) target isWritten) := by
  unfold convert
  rw [e.ty_translate]
  split
  · exact .ite Iff.rfl (fun _ ↦ .report fun _ ↦ (Reporting.pure _).rises) fun _ ↦ .pure rfl
  · exact .pure rfl
  · exact .pure rfl
  · exact .ite Iff.rfl (fun _ ↦ .report fun _ ↦ (Reporting.pure _).rises) fun _ ↦ .pure rfl

theorem follows_named (h : t.Alike t') :
    FollowsExpression C (Fits C.numbers before) (named t) (named t') := by
  unfold named
  rw [h.isMissing, h.text]
  refine .ite Iff.rfl (fun _ ↦ .pure rfl) fun _ ↦ ?_
  refine .bind_of (fun o ↦ ⟨o.map C.numbers.var, by rintro v rfl; rfl⟩) (follows_lookupVariable _) ?_
  intro o o' ho
  cases o with
  | none => exact .report fun _ ↦ (Reporting.pure _).rises
  | some v =>
    rw [ho v rfl]
    exact .pure rfl

theorem follows_assigned (h : t.Alike t') (equals equals' : Token) (span span' : Span) (value : Expression) :
    FollowsExpression C (Fits C.numbers before) (assigned t equals span value)
      (assigned t' equals' span' (value.translate C.translation)) := by
  unfold assigned
  rw [h.text]
  refine .bind_of (fun o ↦ ⟨o.map C.numbers.var, by rintro v rfl; rfl⟩) (follows_lookupVariable _) ?_
  intro o o' ho
  cases o with
  | none => exact .report fun _ ↦ (Reporting.pure _).rises
  | some v =>
    rw [ho v rfl]
    refine .ite Iff.rfl (fun _ ↦ .report fun _ ↦ ?_) fun _ ↦ ?_
    · exact (reporting_convert _ _ _ _).rises.bind fun _ ↦ (Reporting.pure _).rises
    · exact .bind (follows_convert _ _ _ _ _) fun c ↦ .pure rfl

theorem follows_unary (h : t.Alike t') (operand : Expression) :
    FollowsExpression C E (unary t operand) (unary t' (operand.translate C.translation)) := by
  unfold unary
  rw [operand.ty_translate, h.kind]
  refine .ite Iff.rfl (fun _ ↦ .pure rfl) fun _ ↦ ?_
  split
  · exact .pure rfl
  · exact .report fun _ ↦ (Reporting.pure _).rises

theorem follows_binary (left : Expression) (h : t.Alike t') (right : Expression) :
    FollowsExpression C E (binary left t right)
      (binary (left.translate C.translation) t' (right.translate C.translation)) := by
  unfold binary
  rw [left.ty_translate, right.ty_translate, h.kind]
  refine .ite Iff.rfl (fun _ ↦ .pure rfl) fun _ ↦ ?_
  split
  · exact .pure rfl
  · exact .report fun _ ↦ (Reporting.pure _).rises

theorem follows_matchArguments (name : String) (vs : List Variable) (es : List Expression)
    {spans spans' : List Span} (h : spans'.length = spans.length) :
    FollowsWith C E id (matchArguments name vs es spans)
      (matchArguments name (vs.map C.numbers.var) (translateArguments C.translation es) spans') := by
  induction vs generalizing es spans spans' with
  | nil => exact .pure rfl
  | cons v vs ih =>
    cases es with
    | nil => exact .pure rfl
    | cons e es =>
      cases spans with
      | nil =>
        obtain rfl := List.length_eq_zero_iff.mp h
        exact .pure rfl
      | cons span spans =>
        obtain ⟨span', spans', rfl⟩ := List.exists_cons_of_length_eq_add_one h
        have hrest := ih es (Nat.succ.inj h)
        simp only [List.map_cons, translateArguments, matchArguments, Expression.ty_translate]
        refine .ite Iff.rfl (fun _ ↦ hrest) fun _ ↦ .ite Iff.rfl (fun _ ↦ .report fun _ ↦ ?_) fun _ ↦ ?_
        · exact hrest.rises.bind fun _ ↦ (Reporting.pure _).rises
        · exact .bind hrest fun _ ↦ .pure rfl

theorem follows_called (h : t.Alike t') (span span' : Span) (es : List Expression) {spans spans' : List Span}
    (hspans : spans'.length = spans.length) :
    FollowsExpression C (Fits C.numbers before) (called t span es spans)
      (called t' span' (translateArguments C.translation es) spans') := by
  unfold called
  rw [h.text]
  refine .bind_of (fun o ↦ ⟨o.map C.numbers.func, by rintro f rfl; rfl⟩) (follows_lookupFunction _) ?_
  intro o o' ho
  cases o with
  | none => exact .report fun _ ↦ (Reporting.pure _).rises
  | some f =>
    have hlength : (translateArguments C.translation es).length = es.length := by
      rw [Code.translateArguments_eq_map, List.length_map]
    have hparameters : (C.numbers.func f).parameters = f.parameters.map C.numbers.var := rfl
    rw [ho f rfl]
    simp only [hlength, hparameters, List.length_map]
    refine .ite Iff.rfl (fun _ ↦ .report fun _ ↦ (Reporting.pure _).rises) fun _ ↦ ?_
    exact .bind (follows_matchArguments _ _ _ hspans) fun _ ↦ .ite Iff.rfl (fun _ ↦ .pure rfl) fun _ ↦ .pure rfl

theorem follows_call (h : t.Alike t') (opening closing opening' closing' : Token)
    {arguments arguments' : List Tree.Expression} (hlength : arguments'.length = arguments.length)
    (hes : FollowsWith C (Fits C.numbers before) (translateArguments C.translation) (expressions arguments)
      (expressions arguments')) :
    FollowsExpression C (Fits C.numbers before) (expression (.call t opening arguments closing))
      (expression (.call t' opening' arguments' closing')) := by
  refine .bind hes ?_
  intro es
  have hspans : (arguments'.map Tree.Expression.span).length = (arguments.map Tree.Expression.span).length := by
    rw [List.length_map, List.length_map, hlength]
  have hcalled : FollowsExpression C (Fits C.numbers before)
      (called t (Tree.Expression.call t opening arguments closing).span es (arguments.map Tree.Expression.span))
      (called t' (Tree.Expression.call t' opening' arguments' closing').span _ _) :=
    follows_called h _ _ es hspans
  dsimp only
  rw [h.text]
  generalize arguments.map Tree.Expression.span = spans, arguments'.map Tree.Expression.span = spans'
    at hspans hcalled ⊢
  rcases es with _ | ⟨e, _ | ⟨e', es⟩⟩
  · exact hcalled
  · rcases spans with _ | ⟨span, _ | ⟨next, spans⟩⟩
    · obtain rfl := List.length_eq_zero_iff.mp hspans
      exact hcalled
    · obtain ⟨span', rfl⟩ := List.length_eq_one_iff.mp hspans
      cases Ty.written? t.text with
      | none => exact hcalled
      | some target => exact follows_convert _ _ _ _ _
    · obtain ⟨span', spans', rfl⟩ := List.exists_cons_of_length_eq_add_one hspans
      obtain ⟨next', spans', rfl⟩ := List.exists_cons_of_length_eq_add_one (Nat.succ.inj hspans)
      exact hcalled
  · exact hcalled

mutual

theorem follows_expression : (e e' : Tree.Expression) → e.Alike e' →
    FollowsExpression C (Fits C.numbers before) (expression e) (expression e')
  | .literal _ _, _, .literal .. => .pure rfl
  | .name _, _, .name h => follows_named h
  | .unary _ operand, _, .unary h he =>
    .bind (follows_expression operand _ he) fun _ ↦ .bind (follows_needValue _ _ _) fun _ ↦ follows_unary h _
  | .binary left _ right, _, .binary he h he' =>
    .bind (follows_expression left _ he) fun _ ↦ .bind (follows_needValue _ _ _) fun _ ↦
      .bind (follows_expression right _ he') fun _ ↦ .bind (follows_needValue _ _ _) fun _ ↦
        follows_binary _ h _
  | .group _ inner _, _, .group _ _ _ _ he =>
    .bind (follows_expression inner _ he) fun _ ↦ follows_needValue _ _ _
  | .assign _ _ value, _, .assign _ _ h he =>
    .bind (follows_expression value _ he) fun _ ↦ .bind (follows_needValue _ _ _) fun _ ↦
      follows_assigned h _ _ _ _ _
  | .call _ _ arguments _, _, .call _ _ _ _ h hes =>
    follows_call h _ _ _ _ hes.length_eq.symm (follows_expressions arguments _ hes)

theorem follows_expressions : (es es' : List Tree.Expression) → List.Forall₂ Tree.Expression.Alike es es' →
    FollowsWith C (Fits C.numbers before) (translateArguments C.translation) (expressions es) (expressions es')
  | [], _, .nil => .pure rfl
  | e :: rest, _, .cons he hrest =>
    .bind (follows_expression e _ he) fun _ ↦ .bind (follows_needValue _ _ _) fun _ ↦
      .bind (follows_expressions rest _ hrest) fun _ ↦ .pure rfl

end

variable {e e' : Tree.Expression} (he : e.Alike e')
include he

theorem follows_value : FollowsExpression C (Fits C.numbers before) (value e) (value e') :=
  .bind (follows_expression e e' he) fun _ ↦ follows_needValue _ _ _

theorem follows_valueOf (target : Ty) :
    FollowsExpression C (Fits C.numbers before) (valueOf target e) (valueOf target e') :=
  .bind (follows_value he) fun _ ↦ follows_convert _ _ _ _ _

end Expression

section Statement

abbrev FollowsStatement (C : Course) (E : List Frame → List Frame → Prop) (m m' : Resolver Statement) : Prop :=
  FollowsWith C E (Statement.translate C.translation) m m'

theorem follows_clauseType? {c c' : Option Tree.TypeClause} (h : Tree.ClauseAlike c c') :
    FollowsWith C E id (clauseType? c) (clauseType? c') := by
  cases h with
  | none => exact .pure rfl
  | some h =>
    unfold clauseType?
    simp only [h.isMissing, h.text]
    refine .ite Iff.rfl (fun _ ↦ .pure rfl) fun _ ↦ ?_
    split
    · exact .pure rfl
    · exact .report fun _ ↦ (Reporting.pure _).rises

abbrev declaredKind (owner : Option Function) : Variable.Kind := if owner.isSome then .local else .global

variable {owner : Option Function} (hg : C.Takes (C.numbers.number (declaredKind owner)))
include hg

theorem follows_declared (h : t.Alike t') (hname : ∀ w ∈ before, w.name ≠ t.text) (readOnly : Bool) (ty : Ty) :
    FollowsWith C (Fits C.numbers before) C.numbers.var (declared owner t readOnly ty)
      (declared (owner.map C.numbers.func) t' readOnly ty) := by
  unfold declared
  simp only [h.isMissing, h.text, Option.isSome_map]
  refine .bind (follows_freshSymbol hg) fun n ↦ .ite Iff.rfl (fun hmissing ↦ ?_) fun _ ↦ .pure rfl
  have hpresent : t.isMissing = false := by simpa using hmissing
  refine .bind (follows_declareVariable (v := ⟨n, if t.isMissing then "?" else t.text, declaredKind owner, ty,
    readOnly⟩) ?_) fun b ↦ .ite Iff.rfl (fun _ ↦ .report fun _ ↦ (Reporting.pure _).rises) fun _ ↦ .pure rfl
  simpa [hpresent] using hname

theorem follows_declaration {k k' : Token} (hk : k.Alike k') (h : t.Alike t')
    (hname : ∀ w ∈ before, w.name ≠ t.text) {c c' : Option Tree.TypeClause} (hc : Tree.ClauseAlike c c')
    {e e' : Tree.Expression} (he : e.Alike e') :
    FollowsStatement C (Fits C.numbers before) (declaration owner k t c e)
      (declaration (owner.map C.numbers.func) k' t' c' e') := by
  unfold declaration
  rw [hk.kind]
  refine .bind (follows_clauseType? hc) fun ty ↦ .bind (follows_value he) fun code ↦ ?_
  rw [code.ty_translate]
  exact .bind (follows_declared hg h hname _ _) fun v ↦ .bind (follows_convert _ _ _ _ _) fun _ ↦ .pure rfl

omit hg

theorem follows_jump (k k' : Token) {target : Exits → Label}
    (htarget : ∀ x, target (Code.translateExits C.translation x) = C.translation.label (target x)) :
    FollowsStatement C E (jump k target) (jump k' target) where
  rises := (reporting_jump k target).rises
  follow r r' hr hq _ := by
    have hget {α : Type} (f : Resolution → Resolver α) (r : Resolution) : (get >>= f) r = f r r := rfl
    have hloops := hr.loops
    rw [jump, hget] at hq ⊢
    rw [jump, hget]
    cases hl : r.loops with
    | nil =>
      rw [hl] at hq
      exact absurd hq (List.cons_ne_self _ _)
    | cons x loops =>
      rw [hl, List.map_cons] at hloops
      rw [hloops]
      exact ⟨rfl, congrArg Statement.goto (htarget x), hr⟩

theorem leaving_never (k : Token) (e : Option Tree.Expression) (r : Resolution) :
    (leaving none k e r).2.reports ≠ r.reports := by
  intro heq
  have hgrows : Grows Resolution.reports (e.mapM value) := (reporting_returned e).rises.reports
  have hle := (hgrows r).length_le
  have hreports : (leaving none k e r).2.reports =
    ⟨k.span, .returnOutsideFunction⟩ :: (e.mapM value r).2.reports := rfl
  rw [← heq, hreports] at hle
  exact Nat.not_succ_le_self _ hle

theorem follows_leaving (k k' : Token) :
    FollowsStatement C (Fits C.numbers before) (leaving owner k none)
      (leaving (owner.map C.numbers.func) k' none) := by
  cases owner with
  | none => exact .of_never (reporting_leaving _ _ _).rises (leaving_never k none)
  | some f =>
    rw [Option.map_some, leaving_nothing, leaving_nothing]
    exact .ite Iff.rfl (fun _ ↦ .report fun _ ↦ (Reporting.pure _).rises) fun _ ↦ .pure rfl

theorem follows_leavingWith (k k' : Token) {e e' : Tree.Expression} (he : e.Alike e') :
    FollowsStatement C (Fits C.numbers before) (leaving owner k (some e))
      (leaving (owner.map C.numbers.func) k' (some e')) := by
  cases owner with
  | none => exact .of_never (reporting_leaving _ _ _).rises (leaving_never k (some e))
  | some f =>
    rw [Option.map_some, leaving_value, leaving_value]
    refine .bind (follows_value he) fun c ↦ .ite Iff.rfl ?_ fun _ ↦ ?_
    · exact fun _ ↦ .report fun _ ↦ (Reporting.pure _).rises
    · exact .bind (follows_convert _ _ _ _ _) fun _ ↦ .pure rfl

mutual

theorem follows_statement (hg : C.Takes (C.numbers.number (declaredKind owner))) :
    (s s' : Tree.Statement) → s.Alike s' → {before : List Variable} → (∀ w ∈ before, w.name ∉ s.opens) →
      FollowsStatement C (Fits C.numbers before) (statement owner s) (statement (owner.map C.numbers.func) s')
  | .block _ ss _, _, .block _ _ _ _ h, _, _ =>
    .bind (follows_inside (follows_statements hg ss _ h (List.forall_mem_nil _))
      (stacked_statements (E := fun _ ↦ True) _ _ fun _ _ ↦ trivial)
      (stacked_statements (E := fun _ ↦ True) _ _ fun _ _ ↦ trivial)) fun _ ↦ .pure rfl
  | .declare .., _, .declare _ _ hk h hc he, _, hname =>
    follows_declaration hg hk h (fun w hw ↦ by simpa [Tree.Statement.opens] using hname w hw) hc he
  | .ifThen _ _ branch, _, .ifThen _ _ he hs, _, hname =>
    .bind (follows_valueOf he _) fun _ ↦ .bind (follows_statement hg branch _ hs hname) fun _ ↦ .pure rfl
  | .ifElse _ _ branch _ otherwise, _, .ifElse _ _ _ _ he hs ht, _, hname => by
    have hleft (w : Variable) (hw : w ∈ _) : w.name ∉ branch.opens :=
      fun h ↦ hname w hw (List.mem_append_left _ h)
    have hright (w : Variable) (hw : w ∈ _) : w.name ∉ otherwise.opens :=
      fun h ↦ hname w hw (List.mem_append_right _ h)
    exact .bind (follows_valueOf he _) fun _ ↦ .bind (follows_statement hg branch _ hs hleft) fun _ ↦
      .bind (follows_statement hg otherwise _ ht hright) fun _ ↦ .pure rfl
  | .whileLoop _ _ body, _, .whileLoop _ _ he hs, _, hname =>
    .bind (follows_valueOf he _) fun _ ↦ .bind (follows_insideLoop (follows_statement hg body _ hs hname)) fun _ ↦
      .pure rfl
  | .doLoop _ body _ _, _, .doLoop _ _ _ _ hs he, _, hname =>
    .bind (follows_insideLoop (follows_statement hg body _ hs hname)) fun _ ↦ .bind (follows_valueOf he _) fun _ ↦
      .pure rfl
  | .forLoop _ _ _ _ _ _ body, _, .forLoop _ _ _ _ _ _ h hl hu hs, _, _ =>
    .bind (follows_valueOf hl _) fun first ↦ .bind (follows_valueOf hu _) fun last ↦
      follows_inside (.bind (follows_declared hg h (List.forall_mem_nil _) _ _) fun v ↦
        .bind (follows_insideLoop (follows_statement hg body _ hs (List.forall_mem_nil _))) fun _ ↦ .pure rfl)
        (stacked_range _ _ _ first last) (stacked_range _ _ _ _ _)
  | .breakLoop k, _, .breakLoop _ _, _, _ | .continueLoop k, _, .continueLoop _ _, _, _ =>
    follows_jump k _ fun _ ↦ rfl
  | .leave k _, _, .leave _ _, _, _ => follows_leaving k _
  | .leave k _, _, .leaveWith _ _ he, _, _ => follows_leavingWith k _ he
  | .expression e, _, .expression he, _, _ => .bind (follows_expression e _ he) fun _ ↦ .pure rfl

/-- Statements on which nothing is reported are resolved elsewhere to the same code, but for its numbers. -/
theorem follows_statements (hg : C.Takes (C.numbers.number (declaredKind owner))) :
    (ss ss' : List Tree.Statement) → List.Forall₂ Tree.Statement.Alike ss ss' → {before : List Variable} →
    (∀ w ∈ before, ∀ s ∈ ss, w.name ∉ s.opens) →
      FollowsWith C (Fits C.numbers before) (translateAll C.translation) (statements owner ss)
        (statements (owner.map C.numbers.func) ss')
  | [], _, .nil, _, _ => .pure rfl
  | s :: rest, _, .cons hs hrest, _, hname =>
    .bind (follows_statement hg s _ hs fun w hw ↦ (List.forall_mem_cons.mp (hname w hw)).1) fun _ ↦
      .bind (follows_statements hg rest _ hrest fun w hw ↦ (List.forall_mem_cons.mp (hname w hw)).2) fun _ ↦
        .pure rfl

end

end Statement

end SmallScript.Resolver
