import SmallScript.Proofs.Typing.Resolve

namespace SmallScript

namespace Tree

mutual

/-- Code has the parts of an expression, in the same order, with operators of the same signs and
symbols of the same names. A call that a type names is a conversion, or nothing where the type is
that already; no other expression is one. -/
inductive Expression.Elaborates : Expression → Code.Expression → Prop
  | literal {token : Token} {x : Value} : Expression.Elaborates (.literal token x) (.literal x)
  | name {identifier : Token} {v : Variable} (hv : v.name = identifier.text) :
    Expression.Elaborates (.name identifier) (.var v)
  | unary {sign : Token} {operand : Expression} {o : UnaryOperator} {c : Code.Expression}
    (ho : sign.kind = .mark o.sign) (h : Expression.Elaborates operand c) :
    Expression.Elaborates (.unary sign operand) (.unary o c)
  | binary {left right : Expression} {sign : Token} {o : BinaryOperator} {c c' : Code.Expression}
    (h : Expression.Elaborates left c) (ho : sign.kind = .mark o.sign) (h' : Expression.Elaborates right c') :
    Expression.Elaborates (.binary left sign right) (.binary c o c')
  | group {opening closing : Token} {inner : Expression} {c : Code.Expression}
    (h : Expression.Elaborates inner c) : Expression.Elaborates (.group opening inner closing) c
  | assign {identifier equals : Token} {value : Expression} {v : Variable} {c : Code.Expression}
    (hv : v.name = identifier.text) (h : Expression.Elaborates value c) :
    Expression.Elaborates (.assign identifier equals value) (.assign v c)
  | call {identifier opening closing : Token} {arguments : List Expression} {f : SmallScript.Function}
    {cs : List Code.Expression} (hf : f.name = identifier.text)
    (hplain : arguments.length = 1 → Ty.written? identifier.text = none)
    (h : ExpressionsElaborate arguments cs) :
    Expression.Elaborates (.call identifier opening arguments closing) (.call f cs)
  | convert {identifier opening closing : Token} {argument : Expression} {target : Ty}
    {c : Code.Expression} (ht : Ty.written? identifier.text = some target)
    (h : Expression.Elaborates argument c) (hne : c.ty ≠ target) :
    Expression.Elaborates (.call identifier opening [argument] closing) (.convert target c)
  | keep {identifier opening closing : Token} {argument : Expression} {target : Ty}
    {c : Code.Expression} (ht : Ty.written? identifier.text = some target)
    (h : Expression.Elaborates argument c) (heq : c.ty = target) :
    Expression.Elaborates (.call identifier opening [argument] closing) c

inductive ExpressionsElaborate : List Expression → List Code.Expression → Prop
  | nil : ExpressionsElaborate [] []
  | cons {e : Expression} {es : List Expression} {c : Code.Expression} {cs : List Code.Expression}
    (h : Expression.Elaborates e c) (hrest : ExpressionsElaborate es cs) :
    ExpressionsElaborate (e :: es) (c :: cs)

end

theorem ExpressionsElaborate.length_eq {es : List Expression} {cs : List Code.Expression}
    (h : ExpressionsElaborate es cs) : es.length = cs.length := by
  induction es generalizing cs with
  | nil => cases h; rfl
  | cons e es ih =>
    cases h with
    | cons _ hrest => exact congrArg (· + 1) (ih hrest)

/-- What a return gives back, if it gives back anything. -/
inductive ResultElaborates : Option Expression → Option Code.Expression → Prop
  | none : ResultElaborates none none
  | some {e : Expression} {c : Code.Expression} (h : Expression.Elaborates e c) :
    ResultElaborates (some e) (some c)

mutual

/-- Code has the parts of a statement, in the same order. What a statement declares has the name
written there, the type written there if there is one, and is read-only as the keyword says. -/
inductive Statement.Elaborates : Statement → Code.Statement → Prop
  | block {opening closing : Token} {statements : List Statement} {cs : List Code.Statement}
    (h : StatementsElaborate statements cs) :
    Statement.Elaborates (.block opening statements closing) (.block cs)
  | declare {keyword identifier equals : Token} {clause : Option TypeClause}
    {initializer : Expression} {v : Variable} {c : Code.Expression}
    (hname : v.name = identifier.text) (hkeyword : v.readOnly = (keyword.kind == .word .letName))
    (hclause : ∀ written, clause = some written → Ty.written? written.identifier.text = some v.ty)
    (h : Expression.Elaborates initializer c) :
    Statement.Elaborates (.declare keyword identifier clause equals initializer) (.declare v c)
  | ifThen {keyword : Token} {condition : Expression} {branch : Statement} {c : Code.Expression}
    {s : Code.Statement} (hc : Expression.Elaborates condition c) (h : Statement.Elaborates branch s) :
    Statement.Elaborates (.ifThen keyword condition branch) (.ifThen c s)
  | ifElse {keyword elseKeyword : Token} {condition : Expression} {branch otherwise : Statement}
    {c : Code.Expression} {s s' : Code.Statement} (hc : Expression.Elaborates condition c)
    (h : Statement.Elaborates branch s) (h' : Statement.Elaborates otherwise s') :
    Statement.Elaborates (.ifElse keyword condition branch elseKeyword otherwise) (.ifElse c s s')
  | whileLoop {keyword : Token} {condition : Expression} {body : Statement} {c : Code.Expression}
    {s : Code.Statement} {exits : Exits} (hc : Expression.Elaborates condition c) (h : Statement.Elaborates body s) :
    Statement.Elaborates (.whileLoop keyword condition body) (.whileLoop c s exits)
  | doLoop {keyword whileKeyword : Token} {condition : Expression} {body : Statement}
    {c : Code.Expression} {s : Code.Statement} {exits : Exits} (h : Statement.Elaborates body s)
    (hc : Expression.Elaborates condition c) :
    Statement.Elaborates (.doLoop keyword body whileKeyword condition) (.doLoop s c exits)
  | forLoop {keyword identifier equals toKeyword : Token} {lower upper : Expression}
    {body : Statement} {v : Variable} {c c' : Code.Expression} {s : Code.Statement} {exits : Exits}
    (hname : v.name = identifier.text) (hv : v.readOnly = true) (hc : Expression.Elaborates lower c)
    (hc' : Expression.Elaborates upper c') (h : Statement.Elaborates body s) :
    Statement.Elaborates (.forLoop keyword identifier equals lower toKeyword upper body)
      (.forLoop v c c' s exits)
  | breakLoop {keyword : Token} {l : Label} : Statement.Elaborates (.breakLoop keyword) (.goto l)
  | continueLoop {keyword : Token} {l : Label} : Statement.Elaborates (.continueLoop keyword) (.goto l)
  | leave {keyword : Token} {value : Option Expression} {result : Option Code.Expression}
    (h : ResultElaborates value result) : Statement.Elaborates (.leave keyword value) (.leave result)
  | expression {e : Expression} {c : Code.Expression} (h : Expression.Elaborates e c) :
    Statement.Elaborates (.expression e) (.expression c)

inductive StatementsElaborate : List Statement → List Code.Statement → Prop
  | nil : StatementsElaborate [] []
  | cons {s : Statement} {ss : List Statement} {c : Code.Statement} {cs : List Code.Statement}
    (h : Statement.Elaborates s c) (hrest : StatementsElaborate ss cs) :
    StatementsElaborate (s :: ss) (c :: cs)

end

end Tree

namespace UnaryOperator

theorem sign_of_find? {k : Token.Kind} {t : Ty} {o : UnaryOperator} (h : find? k t = some o) :
    k = .mark o.sign := by
  have := List.find?_some h
  simp only [Bool.and_eq_true, beq_iff_eq] at this
  exact this.1.symm

end UnaryOperator

namespace BinaryOperator

theorem sign_of_find? {k : Token.Kind} {s t : Ty} {o : BinaryOperator} (h : find? k s t = some o) :
    k = .mark o.sign := by
  have := List.find?_some h
  simp only [Bool.and_eq_true, beq_iff_eq] at this
  exact this.1.1.symm

end BinaryOperator

namespace Resolver

open Code (Expression Statement Rules)

open SmallScript.Tree (Whole ExpressionsElaborate StatementsElaborate ResultElaborates)

section Expression

variable {I : Resolution → Prop} {F : Function → Prop}

theorem honest_lookupVariable (name : String) :
    Honest Resolution.reports I (lookupVariable name) fun o ↦ ∀ v, o = some v → v.name = name := by
  refine .of_log_eq (fun _ ↦ rfl) fun r h ↦ ⟨h, fun v hv ↦ ?_⟩
  obtain ⟨f, -, hv⟩ := List.exists_of_findSome?_eq_some (hv : r.scopes.lookupVariable r.scope name = _)
  exact beq_iff_eq.mp (List.find?_some (p := fun w : Variable ↦ w.name == name) hv)

theorem honest_lookupFunction (name : String) :
    Honest Resolution.reports I (lookupFunction name) fun o ↦ ∀ f, o = some f → f.name = name := by
  refine .of_log_eq (fun _ ↦ rfl) fun r h ↦ ⟨h, fun g hg ↦ ?_⟩
  obtain ⟨f, -, hg⟩ := List.exists_of_findSome?_eq_some (hg : r.scopes.lookupFunction r.scope name = _)
  exact beq_iff_eq.mp (List.find?_some (p := fun g : Function ↦ g.name == name) hg)

theorem elaborates_needValue (span : Span) (c : Expression) :
    Honest Resolution.reports I (needValue span c) fun c' ↦ c' = c :=
  .ite (fun _ ↦ .bind (honest_report _ _) fun _ ↦ .pure fun h ↦ h.elim) fun _ ↦ .pure rfl

/-- What a written conversion makes of a value: a conversion, unless the value has the type. -/
theorem elaborates_convert_written (span : Span) (c : Expression) (target : Ty) :
    Honest Resolution.reports I (convert span c target true) fun c' ↦
      c.Valued (.source F) → target.IsValue →
        c' = c ∧ c.ty = target ∨ c' = .convert target c ∧ c.ty ≠ target := by
  unfold convert
  split
  · refine .ite (fun _ ↦ ?_) fun hn ↦ .pure fun he ht ↦ absurd ⟨he.2.1, ht.1⟩ hn
    exact .bind (honest_report _ _) fun _ ↦ .pure fun h ↦ h.elim
  · next hc => exact .pure fun _ _ ↦ .inl ⟨rfl, Conversion.classify_eq_identity_iff.mp hc⟩
  · next hc => exact absurd hc (Conversion.classify_ne_silent _ _)
  · next hc =>
    refine .ite (fun hn ↦ nomatch hn) fun _ ↦ .pure fun _ _ ↦ .inr ⟨rfl, fun heq ↦ ?_⟩
    rw [Conversion.classify_eq_identity_iff.mpr heq] at hc
    exact Conversion.noConfusion hc

theorem elaborates_convert (span : Span) (c : Expression) (target : Ty) :
    Honest Resolution.reports I (convert span c target false) fun c' ↦
      c.Valued (.source F) → target.IsValue → c' = c := by
  unfold convert
  split
  · refine .ite (fun _ ↦ ?_) fun hn ↦ .pure fun he ht ↦ absurd ⟨he.2.1, ht.1⟩ hn
    exact .bind (honest_report _ _) fun _ ↦ .pure fun h ↦ h.elim
  · exact .pure fun _ _ ↦ rfl
  · next hc => exact absurd hc (Conversion.classify_ne_silent _ _)
  · exact .ite (fun _ ↦ .bind (honest_report _ _) fun _ ↦ .pure fun h ↦ h.elim) fun hn ↦ absurd rfl hn

theorem elaborates_named (identifier : Token) :
    Honest Resolution.reports I (named identifier) fun c ↦
      identifier.isMissing = false → (Tree.Expression.name identifier).Elaborates c := by
  refine .ite (fun hm ↦ .pure fun h ↦ absurd (hm.symm.trans h) nofun) fun _ ↦ ?_
  refine .bind (honest_lookupVariable _) ?_
  intro o
  cases o with
  | none => exact .bind (honest_report _ _) fun _ ↦ .pure fun h ↦ h.elim
  | some v => exact .pure fun h _ ↦ .name (h v rfl)

theorem elaborates_assigned (identifier equals : Token) (value : Tree.Expression) (span : Span)
    (c : Expression) :
    Resolves F (assigned identifier equals span c) fun c' ↦
      c.Valued (.source F) → value.Elaborates c →
        (Tree.Expression.assign identifier equals value).Elaborates c' := by
  refine .bind ((resolves_lookupVariable _).and (honest_lookupVariable _)) ?_
  intro o
  cases o with
  | none => exact .bind (honest_report _ _) fun _ ↦ .pure fun h ↦ h.elim
  | some v =>
    refine .ite (fun _ ↦ ?_) fun _ ↦ ?_
    · exact .bind (honest_report _ _) fun _ ↦
        .bind (elaborates_convert (F := F) span c v.ty) fun _ ↦ .pure fun _ h ↦ h.elim
    · refine .bind (elaborates_convert (F := F) span c v.ty) fun c' ↦ .pure fun hc ⟨hty, hname⟩ hval h ↦ ?_
      obtain rfl := hc hval (hty v rfl)
      exact .assign (hname v rfl) h

theorem elaborates_unary (sign : Token) (operand : Tree.Expression) (c : Expression) :
    Honest Resolution.reports I (unary sign c) fun c' ↦
      c.Valued (.source F) → operand.Elaborates c →
        (Tree.Expression.unary sign operand).Elaborates c' := by
  refine .ite (fun hu ↦ .pure fun h ↦ absurd hu h.2.1) fun _ ↦ ?_
  split
  · next o ho => exact .pure fun _ h ↦ .unary (UnaryOperator.sign_of_find? ho) h
  · exact .bind (honest_report _ _) fun _ ↦ .pure fun h ↦ h.elim

theorem elaborates_binary (left : Tree.Expression) (sign : Token) (right : Tree.Expression)
    (c c' : Expression) :
    Honest Resolution.reports I (binary c sign c') fun b ↦
      c.Valued (.source F) ∧ left.Elaborates c → c'.Valued (.source F) ∧ right.Elaborates c' →
        (Tree.Expression.binary left sign right).Elaborates b := by
  refine .ite (fun hu ↦ .pure fun h h' ↦ (hu.elim h.1.2.1 h'.1.2.1).elim) fun _ ↦ ?_
  split
  · next o ho => exact .pure fun h h' ↦ .binary h.2 (BinaryOperator.sign_of_find? ho) h'.2
  · exact .bind (honest_report _ _) fun _ ↦ .pure fun h ↦ h.elim

theorem elaborates_called (identifier opening : Token) (arguments : List Tree.Expression)
    (closing : Token) (span : Span) (cs : List Expression) (spans : List Span) :
    Honest Resolution.reports I (called identifier span cs spans) fun c ↦
      spans.length = cs.length → (∀ c ∈ cs, c.Valued (.source F)) →
        (arguments.length = 1 → Ty.written? identifier.text = none) →
          ExpressionsElaborate arguments cs →
            (Tree.Expression.call identifier opening arguments closing).Elaborates c := by
  refine .bind (honest_lookupFunction _) ?_
  intro o
  cases o with
  | none => exact .bind (honest_report _ _) fun _ ↦ .pure fun h ↦ h.elim
  | some f =>
    refine .ite (fun _ ↦ .bind (honest_report _ _) fun _ ↦ .pure fun h ↦ h.elim) fun hlen ↦ ?_
    have hlen := Decidable.not_not.mp hlen
    refine .bind (honest_matchArguments (F := F) _ _ _ _) ?_
    intro b
    refine .ite (fun _ ↦ ?_) fun hb ↦ ?_
    · exact .pure fun _ hf _ _ hplain h ↦ .call (hf f rfl) hplain h
    · exact .pure fun h _ hspans he ↦ absurd (h hlen hspans he).1 hb

theorem elaborates_value_of (hF : (Rules.source F).Proper) {e : Tree.Expression}
    (h : Resolves F (expression e) fun c ↦ Whole e.tokens → e.Elaborates c) :
    Resolves F (value e) fun c ↦ Whole e.tokens → c.Valued (.source F) ∧ e.Elaborates c := by
  have h₁ : Resolves F (value e) fun c ↦ Whole e.tokens → e.Elaborates c :=
    .bind h fun _ ↦ (elaborates_needValue _ _).mono fun _ heq he hw ↦ heq ▸ he hw
  exact ((resolves_value hF e).and h₁).mono fun _ h hw ↦ ⟨h.1 hw, h.2 hw⟩

theorem expression_unary (sign : Token) (operand : Tree.Expression) :
    expression (.unary sign operand) = value operand >>= unary sign := rfl

theorem expression_binary (left : Tree.Expression) (sign : Token) (right : Tree.Expression) :
    expression (.binary left sign right) =
      value left >>= fun c ↦ value right >>= fun c' ↦ binary c sign c' := rfl

theorem expression_assign (identifier equals : Token) (e : Tree.Expression) :
    expression (.assign identifier equals e) =
      value e >>= assigned identifier equals e.span := rfl

theorem expressions_cons (e : Tree.Expression) (rest : List Tree.Expression) :
    expressions (e :: rest) =
      value e >>= fun c ↦ expressions rest >>= fun cs ↦ pure (c :: cs) := rfl

mutual

theorem elaborates_expression (hF : (Rules.source F).Proper) : (e : Tree.Expression) →
    Resolves F (expression e) fun c ↦ Whole e.tokens → e.Elaborates c
  | .literal _ x => .pure fun _ ↦ .literal
  | .name identifier => (elaborates_named identifier).mono fun _ h hw ↦ h (Whole.cons_iff.mp hw).1
  | .unary sign operand => by
    rw [expression_unary]
    refine .bind (elaborates_value_of hF (elaborates_expression hF operand)) fun c ↦
      (elaborates_unary (F := F) sign operand c).mono fun _ h hc hw ↦ ?_
    obtain ⟨hval, hc⟩ := hc (Whole.cons_iff.mp hw).2
    exact h hval hc
  | .binary left sign right => by
    rw [expression_binary]
    refine .bind (elaborates_value_of hF (elaborates_expression hF left)) fun c ↦
      .bind (elaborates_value_of hF (elaborates_expression hF right)) fun c' ↦
        (elaborates_binary (F := F) left sign right c c').mono fun _ h hc' hc hw ↦ ?_
    simp only [Tree.Expression.tokens, Whole.append_iff, Whole.cons_iff] at hw
    exact h (hc hw.1) (hc' hw.2.2)
  | .group _ inner _ =>
    (elaborates_value_of hF (elaborates_expression hF inner)).mono fun _ h hw ↦
      .group (h (by simp_all [Tree.Expression.tokens])).2
  | .assign identifier equals e => by
    rw [expression_assign]
    refine .bind (elaborates_value_of hF (elaborates_expression hF e)) fun c ↦
      (elaborates_assigned identifier equals e _ c).mono fun _ h hc hw ↦ ?_
    obtain ⟨hval, hc⟩ := hc (Whole.cons_iff.mp (Whole.cons_iff.mp hw).2).2
    exact h hval hc
  | .call identifier opening arguments closing => by
    refine .bind (elaborates_expressions hF arguments) ?_
    intro cs
    dsimp only
    split
    · next c span target hspans ht =>
      refine (elaborates_convert_written (F := F) _ c target).mono fun c' h hcs hw ↦ ?_
      simp only [Tree.Expression.tokens, Whole.append_iff, Whole.cons_iff, List.cons_append] at hw
      obtain ⟨hval, hcs⟩ := hcs hw.2.2.1
      cases hcs with
      | cons hc hnil =>
        cases hnil
        rcases h (hval c List.mem_cons_self) (Ty.isValue_of_written? ht) with ⟨rfl, heq⟩ | ⟨rfl, hne⟩
        · exact .keep ht hc heq
        · exact .convert ht hc hne
    · next cs _ _ _ hplain =>
      refine (elaborates_called (F := F) identifier opening arguments closing _ cs _).mono fun c h hcs hw ↦ ?_
      simp only [Tree.Expression.tokens, Whole.append_iff, Whole.cons_iff, List.cons_append] at hw
      obtain ⟨hval, hcs⟩ := hcs hw.2.2.1
      have hlen := hcs.length_eq
      refine h ((List.length_map _).trans hlen) hval (fun hone ↦ ?_) hcs
      obtain ⟨e, rfl⟩ := List.length_eq_one_iff.mp hone
      obtain ⟨c, rfl⟩ := List.length_eq_one_iff.mp hlen.symm
      exact Option.eq_none_iff_forall_ne_some.mpr fun target ht ↦ hplain c e.span target rfl rfl ht

theorem elaborates_expressions (hF : (Rules.source F).Proper) : (es : List Tree.Expression) →
    Resolves F (expressions es) fun cs ↦ Whole (Tree.expressionTokens es) →
      (∀ c ∈ cs, c.Valued (.source F)) ∧ ExpressionsElaborate es cs
  | [] => .pure fun _ ↦ ⟨nofun, .nil⟩
  | e :: rest => by
    rw [expressions_cons]
    refine .bind (elaborates_value_of hF (elaborates_expression hF e)) fun _ ↦
      .bind (elaborates_expressions hF rest) fun _ ↦ .pure fun hrest hc hw ↦ ?_
    obtain ⟨hwe, hwrest⟩ := Whole.append_iff.mp hw
    obtain ⟨hvals, hcs⟩ := hrest hwrest
    obtain ⟨hval, hc⟩ := hc hwe
    exact ⟨List.forall_mem_cons.mpr ⟨hval, hvals⟩, .cons hc hcs⟩

end

end Expression

end Resolver

end SmallScript
