import SmallScript.Program
import SmallScript.Proofs.Assigned
import SmallScript.Proofs.Tree.Nodes

namespace SmallScript

open SmallScript.Tree (Node)

def Tree.Node.All (P : Span → Prop) (n : Node) : Prop := ∀ m : Node, m.Within n → P m.span

namespace Tree.Node.All

variable {P : Span → Prop} {n p : Node}

theorem self (h : n.All P) : P n.span := h n (.self n)

theorem part (h : n.All P) (hp : p ∈ n.parts) : p.All P := fun m hm ↦ h m (.part hm hp)

end Tree.Node.All

namespace Resolver

def ReportsAt {α : Type} (P : Span → Prop) (m : Resolver α) : Prop :=
  ∀ r, ∀ x ∈ (m r).2.reports, x ∈ r.reports ∨ P x.span

namespace ReportsAt

variable {α β : Type} {P : Span → Prop} {m : Resolver α}

theorem of_reports (h : ∀ r, (m r).2.reports = r.reports) : ReportsAt P m :=
  fun r _ hx ↦ .inl (h r ▸ hx)

theorem pure (a : α) : ReportsAt P (pure a) := of_reports fun _ ↦ rfl

theorem bind {f : α → Resolver β} (hm : ReportsAt P m) (hf : ∀ a, ReportsAt P (f a)) : ReportsAt P (m >>= f) := by
  intro r x hx
  rcases hf (m r).1 (m r).2 x hx with hx | hx
  · exact hm r x hx
  · exact .inr hx

theorem ite {c : Prop} [Decidable c] {m' : Resolver α} (h : ReportsAt P m) (h' : ReportsAt P m') :
    ReportsAt P (if c then m else m') := by
  split
  · exact h
  · exact h'

theorem report {span : Span} (h : P span) (cause : Cause) : ReportsAt P (report span cause) := by
  intro r x hx
  rcases List.mem_cons.mp hx with rfl | hx
  · exact .inr h
  · exact .inl hx

theorem lookupVariable (name : String) : ReportsAt P (lookupVariable name) := of_reports fun _ ↦ rfl

theorem lookupFunction (name : String) : ReportsAt P (lookupFunction name) := of_reports fun _ ↦ rfl

theorem freshSymbol : ReportsAt P freshSymbol := of_reports fun _ ↦ rfl

theorem declareVariable (v : Variable) : ReportsAt P (declareVariable v) :=
  of_reports fun r ↦ by rw [declareVariable_snd]

theorem declareFunction (f : Function) : ReportsAt P (declareFunction f) :=
  of_reports fun r ↦ by rw [declareFunction_snd]

theorem inside (h : ReportsAt P m) : ReportsAt P (inside m) :=
  .bind (of_reports fun _ ↦ rfl) fun _ ↦ .bind h fun _ ↦ .bind (of_reports fun _ ↦ rfl) fun _ ↦ .pure _

theorem insideLoop (h : ReportsAt P m) : ReportsAt P (insideLoop m) :=
  .bind (of_reports fun _ ↦ rfl) fun _ ↦ .bind h fun _ ↦ .bind (of_reports fun _ ↦ rfl) fun _ ↦ .pure _

end ReportsAt

open Code (Expression)

section Expressions

variable {P : Span → Prop} {span : Span}

theorem reportsAt_needValue (h : P span) (e : Expression) : ReportsAt P (needValue span e) :=
  .ite (.bind (.report h _) fun _ ↦ .pure _) (.pure _)

theorem reportsAt_convert (h : P span) (e : Expression) (target : Ty) (isWritten : Bool) :
    ReportsAt P (convert span e target isWritten) := by
  unfold convert
  split
  · exact .ite (.bind (.report h _) fun _ ↦ .pure _) (.pure _)
  · exact .pure _
  · exact .pure _
  · exact .ite (.bind (.report h _) fun _ ↦ .pure _) (.pure _)

theorem reportsAt_named {identifier : Token} (h : P identifier.span) : ReportsAt P (named identifier) := by
  refine .ite (.pure _) (.bind (.lookupVariable _) fun o ↦ ?_)
  split
  · exact .pure _
  · exact .bind (.report h _) fun _ ↦ .pure _

theorem reportsAt_assigned {identifier equals : Token} (hi : P identifier.span) (he : P equals.span) (hs : P span)
    (value : Expression) : ReportsAt P (assigned identifier equals span value) := by
  refine .bind (.lookupVariable _) fun o ↦ ?_
  split
  · exact .bind (.report hi _) fun _ ↦ .pure _
  · exact .ite (.bind (.report he _) fun _ ↦ .bind (reportsAt_convert hs _ _ _) fun _ ↦ .pure _)
      (.bind (reportsAt_convert hs _ _ _) fun _ ↦ .pure _)

theorem reportsAt_unary {sign : Token} (h : P sign.span) (operand : Expression) :
    ReportsAt P (unary sign operand) := by
  refine .ite (.pure _) ?_
  split
  · exact .pure _
  · exact .bind (.report h _) fun _ ↦ .pure _

theorem reportsAt_binary {sign : Token} (h : P sign.span) (left right : Expression) :
    ReportsAt P (binary left sign right) := by
  refine .ite (.pure _) ?_
  split
  · exact .pure _
  · exact .bind (.report h _) fun _ ↦ .pure _

theorem reportsAt_matchArguments (name : String) (vs : List Variable) (es : List Expression) {spans : List Span}
    (h : ∀ s ∈ spans, P s) : ReportsAt P (matchArguments name vs es spans) := by
  induction vs generalizing es spans with
  | nil => exact .pure _
  | cons v vs ih =>
    rcases es with _ | ⟨e, es⟩
    · exact .pure _
    rcases spans with _ | ⟨span, spans⟩
    · exact .pure _
    obtain ⟨hspan, hspans⟩ := List.forall_mem_cons.mp h
    refine .ite (ih es hspans) (.ite ?_ ?_)
    · exact .bind (.report hspan _) fun _ ↦ .bind (ih es hspans) fun _ ↦ .pure _
    · exact .bind (ih es hspans) fun _ ↦ .pure _

theorem reportsAt_called {identifier : Token} (hi : P identifier.span) (h : P span) (arguments : List Expression)
    {spans : List Span} (hspans : ∀ s ∈ spans, P s) : ReportsAt P (called identifier span arguments spans) := by
  refine .bind (.lookupFunction _) fun o ↦ ?_
  split
  · exact .bind (.report hi _) fun _ ↦ .pure _
  · exact .ite (.bind (.report h _) fun _ ↦ .pure _)
      (.bind (reportsAt_matchArguments _ _ _ hspans) fun _ ↦ .ite (.pure _) (.pure _))

mutual

theorem reportsAt_expression : (e : Tree.Expression) → (Node.expression e).All P → ReportsAt P (expression e)
  | .literal _ _, _ => .pure _
  | .name identifier, h => reportsAt_named (h.part (p := .token identifier) (by simp [Node.parts])).self
  | .unary sign operand, h => by
    have hsign := (h.part (p := .token sign) (by simp [Node.parts])).self
    have hoperand := h.part (p := .expression operand) (by simp [Node.parts])
    exact .bind (reportsAt_expression operand hoperand) fun _ ↦ .bind (reportsAt_needValue hoperand.self _) fun _ ↦
      reportsAt_unary hsign _
  | .binary left sign right, h => by
    have hleft := h.part (p := .expression left) (by simp [Node.parts])
    have hsign := (h.part (p := .token sign) (by simp [Node.parts])).self
    have hright := h.part (p := .expression right) (by simp [Node.parts])
    exact .bind (reportsAt_expression left hleft) fun _ ↦ .bind (reportsAt_needValue hleft.self _) fun _ ↦
      .bind (reportsAt_expression right hright) fun _ ↦ .bind (reportsAt_needValue hright.self _) fun _ ↦
        reportsAt_binary hsign _ _
  | .group _ inner _, h => by
    have hinner := h.part (p := .expression inner) (by simp [Node.parts])
    exact .bind (reportsAt_expression inner hinner) fun _ ↦ reportsAt_needValue hinner.self _
  | .assign identifier equals value, h => by
    have hi := (h.part (p := .token identifier) (by simp [Node.parts])).self
    have he := (h.part (p := .token equals) (by simp [Node.parts])).self
    have hvalue := h.part (p := .expression value) (by simp [Node.parts])
    exact .bind (reportsAt_expression value hvalue) fun _ ↦ .bind (reportsAt_needValue hvalue.self _) fun _ ↦
      reportsAt_assigned hi he hvalue.self _
  | .call identifier opening arguments closing, h => by
    have hi := (h.part (p := .token identifier) (by simp [Node.parts])).self
    have harguments : ∀ e ∈ arguments, (Node.expression e).All P := fun e he ↦ h.part (by simp [Node.parts, he])
    have hspans : ∀ s ∈ arguments.map Tree.Expression.span, P s :=
      List.forall_mem_map.mpr fun e he ↦ (harguments e he).self
    refine .bind (reportsAt_expressions arguments harguments) fun es ↦ ?_
    generalize arguments.map Tree.Expression.span = spans at hspans ⊢
    dsimp only
    split
    · exact reportsAt_convert (hspans _ List.mem_cons_self) _ _ _
    · exact reportsAt_called hi h.self _ hspans

theorem reportsAt_expressions : (es : List Tree.Expression) → (∀ e ∈ es, (Node.expression e).All P) →
    ReportsAt P (expressions es)
  | [], _ => .pure _
  | e :: rest, h => by
    obtain ⟨he, hrest⟩ := List.forall_mem_cons.mp h
    exact .bind (reportsAt_expression e he) fun _ ↦ .bind (reportsAt_needValue he.self _) fun _ ↦
      .bind (reportsAt_expressions rest hrest) fun _ ↦ .pure _

end

end Expressions

open Code (Statement)

section Statements

variable {P : Span → Prop}

theorem reportsAt_value {e : Tree.Expression} (h : (Node.expression e).All P) : ReportsAt P (value e) :=
  .bind (reportsAt_expression e h) fun _ ↦ reportsAt_needValue h.self _

theorem reportsAt_valueOf {e : Tree.Expression} (h : (Node.expression e).All P) (target : Ty) :
    ReportsAt P (valueOf target e) :=
  .bind (reportsAt_value h) fun _ ↦ reportsAt_convert h.self _ _ _

theorem reportsAt_clauseType? {clause : Option Tree.TypeClause} (h : ∀ c ∈ clause, P c.identifier.span) :
    ReportsAt P (clauseType? clause) := by
  cases clause with
  | none => exact .pure _
  | some clause =>
    refine .ite (.pure _) ?_
    split
    · exact .pure _
    · exact .bind (.report (h clause rfl) _) fun _ ↦ .pure _

theorem reportsAt_declared {identifier : Token} (h : P identifier.span) (owner : Option Function) (readOnly : Bool)
    (ty : Ty) : ReportsAt P (declared owner identifier readOnly ty) := by
  refine .bind .freshSymbol fun _ ↦ .ite (.bind (.declareVariable _) fun _ ↦ ?_) (.pure _)
  exact .ite (.bind (.report h _) fun _ ↦ .pure _) (.pure _)

theorem reportsAt_declaration {keyword identifier : Token} {clause : Option Tree.TypeClause}
    {initializer : Tree.Expression} (hi : P identifier.span) (hc : ∀ c ∈ clause, P c.identifier.span)
    (he : (Node.expression initializer).All P) (owner : Option Function) :
    ReportsAt P (declaration owner keyword identifier clause initializer) :=
  .bind (reportsAt_clauseType? hc) fun _ ↦ .bind (reportsAt_value he) fun _ ↦
    .bind (reportsAt_declared hi _ _ _) fun _ ↦ .bind (reportsAt_convert he.self _ _ _) fun _ ↦ .pure _

theorem reportsAt_jump {keyword : Token} (h : P keyword.span) (target : Exits → Label) :
    ReportsAt P (jump keyword target) := by
  refine .bind (.of_reports fun _ ↦ rfl) fun r ↦ ?_
  split
  · exact .pure _
  · exact .bind (.report h _) fun _ ↦ .pure _

theorem reportsAt_leaving {keyword : Token} {e : Option Tree.Expression} (hk : P keyword.span)
    (he : ∀ x ∈ e, (Node.expression x).All P) (owner : Option Function) : ReportsAt P (leaving owner keyword e) := by
  have hvalue : ReportsAt P (e.mapM value) := by
    cases e with
    | none => exact .pure _
    | some e => exact .bind (reportsAt_value (he e rfl)) fun _ ↦ .pure _
  refine .bind hvalue fun result ↦ ?_
  cases owner with
  | none => exact .bind (.report hk _) fun _ ↦ .pure _
  | some f =>
    dsimp only
    split
    · have hspan := (he _ rfl).self
      exact .ite (.bind (.report hspan _) fun _ ↦ .pure _) (.bind (reportsAt_convert hspan _ _ _) fun _ ↦ .pure _)
    · exact .ite (.bind (.report hk _) fun _ ↦ .pure _) (.pure _)

mutual

theorem reportsAt_statement (owner : Option Function) :
    (s : Tree.Statement) → (Node.statement s).All P → ReportsAt P (statement owner s)
  | .block _ ss _, h => by
    have hss : ∀ s ∈ ss, (Node.statement s).All P := fun s hs ↦ h.part (by simp [Node.parts, hs])
    exact .bind (.inside (reportsAt_statements owner ss hss)) fun _ ↦ .pure _
  | .declare keyword identifier clause equals e, h => by
    have hi := (h.part (p := .token identifier) (by simp [Node.parts])).self
    have he := h.part (p := .expression e) (by simp [Node.parts])
    have hc : ∀ c ∈ clause, P c.identifier.span := fun c hc ↦
      ((h.part (p := .clause c) (by simpa [Node.parts] using hc)).part (p := .token c.identifier)
        (by simp [Node.parts])).self
    exact reportsAt_declaration hi hc he _
  | .ifThen keyword e s, h => by
    have he := h.part (p := .expression e) (by simp [Node.parts])
    have hs := h.part (p := .statement s) (by simp [Node.parts])
    exact .bind (reportsAt_valueOf he _) fun _ ↦ .bind (reportsAt_statement owner s hs) fun _ ↦ .pure _
  | .ifElse keyword e s elseKeyword s', h => by
    have he := h.part (p := .expression e) (by simp [Node.parts])
    have hs := h.part (p := .statement s) (by simp [Node.parts])
    have hs' := h.part (p := .statement s') (by simp [Node.parts])
    exact .bind (reportsAt_valueOf he _) fun _ ↦ .bind (reportsAt_statement owner s hs) fun _ ↦
      .bind (reportsAt_statement owner s' hs') fun _ ↦ .pure _
  | .whileLoop keyword e s, h => by
    have he := h.part (p := .expression e) (by simp [Node.parts])
    have hs := h.part (p := .statement s) (by simp [Node.parts])
    exact .bind (reportsAt_valueOf he _) fun _ ↦ .bind (.insideLoop (reportsAt_statement owner s hs)) fun _ ↦ .pure _
  | .doLoop keyword s whileKeyword e, h => by
    have he := h.part (p := .expression e) (by simp [Node.parts])
    have hs := h.part (p := .statement s) (by simp [Node.parts])
    exact .bind (.insideLoop (reportsAt_statement owner s hs)) fun _ ↦ .bind (reportsAt_valueOf he _) fun _ ↦ .pure _
  | .forLoop keyword identifier equals e toKeyword e' s, h => by
    have hi := (h.part (p := .token identifier) (by simp [Node.parts])).self
    have he := h.part (p := .expression e) (by simp [Node.parts])
    have he' := h.part (p := .expression e') (by simp [Node.parts])
    have hs := h.part (p := .statement s) (by simp [Node.parts])
    exact .bind (reportsAt_valueOf he _) fun _ ↦ .bind (reportsAt_valueOf he' _) fun _ ↦
      .inside (.bind (reportsAt_declared hi _ _ _) fun _ ↦
        .bind (.insideLoop (reportsAt_statement owner s hs)) fun _ ↦ .pure _)
  | .breakLoop keyword, h | .continueLoop keyword, h =>
    reportsAt_jump (h.part (p := .token keyword) (by simp [Node.parts])).self _
  | .leave keyword value, h => by
    have hk := (h.part (p := .token keyword) (by simp [Node.parts])).self
    have hvalue : ∀ e ∈ value, (Node.expression e).All P := fun e he ↦ h.part (by simpa [Node.parts] using he)
    exact reportsAt_leaving hk hvalue _
  | .expression e, h => .bind (reportsAt_expression e (h.part (by simp [Node.parts]))) fun _ ↦ .pure _

theorem reportsAt_statements (owner : Option Function) :
    (ss : List Tree.Statement) → (∀ s ∈ ss, (Node.statement s).All P) → ReportsAt P (statements owner ss)
  | [], _ => .pure _
  | s :: rest, h => by
    obtain ⟨hs, hrest⟩ := List.forall_mem_cons.mp h
    exact .bind (reportsAt_statement owner s hs) fun _ ↦
      .bind (reportsAt_statements owner rest hrest) fun _ ↦ .pure _

end

theorem reportsAt_parameters {ps : List Tree.Parameter} (h : ∀ p ∈ ps, (Node.parameter p).All P)
    (seen : List String) : ReportsAt P (parameters seen ps) := by
  induction ps generalizing seen with
  | nil => exact .pure _
  | cons p rest ih =>
    obtain ⟨hp, hrest⟩ := List.forall_mem_cons.mp h
    have hc : ∀ c ∈ some p.clause, P c.identifier.span := fun c hc ↦ by
      obtain rfl := Option.some.inj hc
      exact ((hp.part (p := .clause p.clause) (by simp [Node.parts])).part (p := .token p.clause.identifier)
        (by simp [Node.parts])).self
    refine .bind (reportsAt_clauseType? hc) fun _ ↦ .ite (.bind (.report hp.self _) fun _ ↦ ih hrest _) ?_
    exact .bind .freshSymbol fun _ ↦ .bind (ih hrest _) fun _ ↦ .pure _

theorem reportsAt_functionHead {f : Tree.Function} (h : (Node.member (.function f)).All P) :
    ReportsAt P (functionHead f) := by
  have hi := (h.part (p := .token f.identifier) (by simp [Node.parts])).self
  have hparameters : ∀ p ∈ f.parameters, (Node.parameter p).All P := fun p hp ↦ h.part (by simp [Node.parts, hp])
  have hc : ∀ c ∈ f.clause, P c.identifier.span := fun c hc ↦
    ((h.part (p := .clause c) (by simpa [Node.parts] using hc)).part (p := .token c.identifier)
      (by simp [Node.parts])).self
  refine .bind (reportsAt_parameters hparameters _) fun _ ↦ .bind (reportsAt_clauseType? hc) fun _ ↦
    .bind .freshSymbol fun _ ↦ .ite (.pure _) (.bind (.declareFunction _) fun _ ↦ .ite (.pure _) ?_)
  exact .bind (.report hi _) fun _ ↦ .pure _

theorem reportsAt_functionHeads {ms : List Tree.Member} (h : ∀ m ∈ ms, (Node.member m).All P) :
    ReportsAt P (functionHeads ms) := by
  induction ms with
  | nil => exact .pure _
  | cons m rest ih =>
    obtain ⟨hm, hrest⟩ := List.forall_mem_cons.mp h
    cases m with
    | statement s => exact ih hrest
    | function f =>
      refine .bind (reportsAt_functionHead hm) fun o ↦ ?_
      cases o with
      | none => exact ih hrest
      | some t => exact .bind (ih hrest) fun _ ↦ .pure _

end Statements

end Resolver

section Source

variable {source : Tree.Source}

theorem Tree.Source.all_members : ∀ m ∈ source.members, (Node.member m).All source.Spans :=
  fun m hm n hn ↦ ⟨n, ⟨.member m, List.mem_append_left _ (List.mem_map_of_mem hm), hn⟩, rfl⟩

theorem Layer.span_of_report (earlier : Layers) (n : Nat) :
    ∀ r ∈ (Layer.ofSource earlier source n).1.reports, source.Spans r.span := by
  have hmembers := source.all_members
  have hheads := Resolver.reportsAt_functionHeads hmembers
  have hstatements :
      ∀ s ∈ source.members.filterMap Resolver.memberStatement?, (Node.statement s).All source.Spans := by
    intro s hs
    obtain ⟨m, hm, hms⟩ := List.mem_filterMap.mp hs
    cases m with
    | function => nomatch hms
    | statement s' =>
      obtain rfl := Option.some.inj hms
      exact (hmembers _ hm).part (List.mem_singleton_self _)
  have hreports : Resolver.ReportsAt source.Spans (do
      let _ ← Resolver.functionHeads source.members
      Resolver.statements none (source.members.filterMap Resolver.memberStatement?)) :=
    hheads.bind fun _ ↦ Resolver.reportsAt_statements none _ hstatements
  intro r hr
  exact (hreports (earlier.start n) r (List.mem_reverse.mp hr)).resolve_left List.not_mem_nil

/-- What is reported about the body of a function lies at nodes of the text that has it. -/
theorem FunctionText.span_of_report {f : FunctionText} (hf : .function f.text ∈ source.members) (layers : Layers)
    (n : Nat) : ∀ r ∈ (f.body layers n).reports, source.Spans r.span := by
  have hmember := source.all_members _ hf
  have hidentifier := (hmember.part (p := .token f.text.identifier) (by simp [Node.parts])).self
  have hbody := hmember.part
    (p := .statement (.block f.text.body.opening f.text.body.statements f.text.body.closing)) (by simp [Node.parts])
  have hstatements : ∀ s ∈ f.text.body.statements, (Node.statement s).All source.Spans := fun s hs ↦
    hbody.part (by simp [Node.parts, hs])
  have hreports := Resolver.ReportsAt.inside (Resolver.reportsAt_statements (some f.function) _ hstatements)
  refine List.forall_mem_append.mpr ⟨fun r hr ↦ ?_, fun r hr ↦ ?_⟩
  · exact (hreports _ r (List.mem_reverse.mp hr)).resolve_left List.not_mem_nil
  · split at hr
    · obtain rfl := List.mem_singleton.mp hr
      exact hidentifier
    · nomatch hr

end Source

end SmallScript
