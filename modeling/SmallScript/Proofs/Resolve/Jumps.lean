import SmallScript.Proofs.Code.Flatten
import SmallScript.Proofs.Honest
import SmallScript.Proofs.Resolve.Reporting
import SmallScript.Resolve.Layer

namespace SmallScript.Resolver

open Code

abbrev Within {α : Type} (loops : List Exits) (m : Resolver α) (Q : α → Prop) : Prop :=
  Honest (fun _ ↦ []) (fun r ↦ r.loops = loops) m Q

section

variable {α : Type} {m : Resolver α} {loops : List Exits}

theorem Reporting.within (h : Reporting m) : Within loops m fun _ ↦ True := by
  refine .of_log_eq (fun _ ↦ rfl) fun r hr ↦ ⟨?_, trivial⟩
  obtain ⟨new, hnew⟩ := h r
  rw [hnew]
  exact hr

theorem within_inside {Q : α → Prop} (h : Within loops m Q) : Within loops (inside m) Q :=
  .bind (.of_log_eq (Q := fun _ ↦ True) (fun _ ↦ rfl) fun _ h ↦ ⟨h, trivial⟩) fun _ ↦
    .bind h fun _ ↦ .bind (.of_log_eq (Q := fun _ ↦ True) (fun _ ↦ rfl) fun _ h ↦ ⟨h, trivial⟩) fun _ ↦
      .pure fun _ h _ ↦ h

theorem within_insideLoop {Q : List Exits → α → Prop} (h : ∀ loops, Within loops m (Q loops)) :
    Within loops (insideLoop m) fun p ↦ Q (p.2 :: loops) p.1 := by
  refine .of_log_eq (fun _ ↦ rfl) ?_
  intro r hr
  obtain ⟨hl, hq⟩ := (h (⟨.breakOf (r.loopCount + 1), .continueOf (r.loopCount + 1)⟩ :: loops)).sound
    { r with loopCount := r.loopCount + 1, loops := _ :: r.loops } (by rw [hr]) rfl
  exact ⟨congrArg List.tail hl, hq⟩

end

theorem within_declared {loops : List Exits} (owner : Option Function) (identifier : Token)
    (readOnly : Bool) (ty : Ty) : Within loops (declared owner identifier readOnly ty) fun _ ↦ True := by
  have hd (v : Variable) : Within loops (declareVariable v) fun _ ↦ True :=
    .of_log_eq (fun _ ↦ rfl) fun r h ↦ ⟨by rw [declareVariable_snd]; exact h, trivial⟩
  refine .bind (.of_log_eq (Q := fun _ ↦ True) (fun _ ↦ rfl) fun _ h ↦ ⟨h, trivial⟩) fun n ↦
    .ite (fun _ ↦ ?_) fun _ ↦ .pure fun _ ↦ trivial
  refine .bind (hd _) fun b ↦ .ite (fun _ ↦ ?_) fun _ ↦ .pure fun _ _ ↦ trivial
  exact .bind (Reporting.report _ _).within fun _ ↦ .pure fun _ _ _ ↦ trivial

theorem within_declaration {loops : List Exits} (owner : Option Function)
    (keyword identifier : Token) (clause : Option Tree.TypeClause) (initializer : Tree.Expression) :
    Within loops (declaration owner keyword identifier clause initializer) (Statement.JumpsInside loops) :=
  .bind (reporting_clauseType? _).within fun _ ↦ .bind (reporting_value _).within fun _ ↦
    .bind (within_declared _ _ _ _) fun _ ↦ .bind (reporting_convert _ _ _ _).within fun _ ↦
      .pure fun _ _ _ _ ↦ trivial

theorem within_jump {loops : List Exits} (keyword : Token) {target : Exits → Label}
    (htarget : ∀ x, target x = x.leave ∨ target x = x.again) :
    Within loops (jump keyword target) (Statement.JumpsInside loops) := by
  refine .bind .get ?_
  intro r
  split
  · next x rest hr =>
    exact .pure fun h ↦ ⟨x, h ▸ hr ▸ List.mem_cons_self, htarget x⟩
  · exact .bind (Reporting.report _ _).within fun _ ↦ .pure fun _ _ ↦ trivial

theorem within_leaving {loops : List Exits} (owner : Option Function) (keyword : Token)
    (e : Option Tree.Expression) :
    Within loops (leaving owner keyword e) (Statement.JumpsInside loops) := by
  have hreport (span : Span) (cause : Cause) : Within loops (report span cause) fun _ ↦ True :=
    (Reporting.report span cause).within
  refine .bind (reporting_returned e).within ?_
  intro o
  cases owner with
  | none => exact .bind (hreport _ _) fun _ ↦ .pure fun _ _ ↦ trivial
  | some f =>
    dsimp only
    split
    · refine .ite (fun _ ↦ .bind (hreport _ _) fun _ ↦ .pure fun _ _ ↦ trivial) fun _ ↦ ?_
      exact .bind (reporting_convert _ _ _ _).within fun _ ↦ .pure fun _ _ ↦ trivial
    · refine .ite (fun _ ↦ .bind (hreport _ _) fun _ ↦ .pure fun _ _ ↦ trivial) fun _ ↦ ?_
      exact .pure fun _ ↦ trivial

mutual

theorem within_statement (owner : Option Function) : (s : Tree.Statement) → (loops : List Exits) →
    Within loops (statement owner s) (Statement.JumpsInside loops)
  | .block _ inner _, loops =>
    .bind (within_inside (within_statements owner inner loops)) fun _ ↦ .pure fun h ↦ h
  | .declare .., _ => within_declaration _ _ _ _ _
  | .ifThen _ _ branch, loops =>
    .bind (reporting_valueOf _ _).within fun _ ↦ .bind (within_statement owner branch loops) fun _ ↦
      .pure fun h _ ↦ h
  | .ifElse _ _ branch _ otherwise, loops =>
    .bind (reporting_valueOf _ _).within fun _ ↦ .bind (within_statement owner branch loops) fun _ ↦
      .bind (within_statement owner otherwise loops) fun _ ↦ .pure fun h' h _ ↦ ⟨h, h'⟩
  | .whileLoop _ _ body, _ =>
    .bind (reporting_valueOf _ _).within fun _ ↦
      .bind (within_insideLoop (within_statement owner body)) fun _ ↦ .pure fun h _ ↦ h
  | .doLoop _ body _ _, _ =>
    .bind (within_insideLoop (within_statement owner body)) fun _ ↦
      .bind (reporting_valueOf _ _).within fun _ ↦ .pure fun _ h ↦ h
  | .forLoop _ _ _ _ _ _ body, _ =>
    .bind (reporting_valueOf _ _).within fun _ ↦ .bind (reporting_valueOf _ _).within fun _ ↦
      within_inside (.bind (within_declared _ _ _ _) fun _ ↦
        .bind (within_insideLoop (within_statement owner body)) fun _ ↦ .pure fun h _ _ _ ↦ h)
  | .breakLoop keyword, _ => within_jump keyword fun _ ↦ .inl rfl
  | .continueLoop keyword, _ => within_jump keyword fun _ ↦ .inr rfl
  | .leave keyword e, _ => within_leaving owner keyword e
  | .expression e, _ => .bind (reporting_expression e).within fun _ ↦ .pure fun _ ↦ trivial

theorem within_statements (owner : Option Function) : (l : List Tree.Statement) →
    (loops : List Exits) → Within loops (statements owner l) (AllJumpInside loops)
  | [], _ => .pure trivial
  | s :: rest, loops =>
    .bind (within_statement owner s loops) fun _ ↦ .bind (within_statements owner rest loops) fun _ ↦
      .pure fun h' h ↦ ⟨h, h'⟩

end

theorem within_parameters {loops : List Exits} (seen : List String) (ps : List Tree.Parameter) :
    Within loops (parameters seen ps) fun _ ↦ True := by
  induction ps generalizing seen with
  | nil => exact .pure trivial
  | cons p rest ih =>
    refine .bind (reporting_clauseType? _).within ?_
    intro o
    refine .ite (fun _ ↦ ?_) fun _ ↦ ?_
    · exact .bind (Reporting.report _ _).within fun _ ↦ (ih seen).mono fun _ _ _ _ ↦ trivial
    · exact .bind (.of_log_eq (Q := fun _ ↦ True) (fun _ ↦ rfl) fun _ h ↦ ⟨h, trivial⟩) fun _ ↦
        .bind (ih _) fun _ ↦ .pure fun _ _ _ ↦ trivial

theorem within_functionHead {loops : List Exits} (text : Tree.Function) :
    Within loops (functionHead text) fun _ ↦ True := by
  have hd (f : Function) : Within loops (declareFunction f) fun _ ↦ True :=
    .of_log_eq (fun _ ↦ rfl) fun r h ↦ ⟨by rw [declareFunction_snd]; exact h, trivial⟩
  refine .bind (within_parameters _ _) fun _ ↦ .bind (reporting_clauseType? _).within fun _ ↦
    .bind (.of_log_eq (Q := fun _ ↦ True) (fun _ ↦ rfl) fun _ h ↦ ⟨h, trivial⟩) fun _ ↦
      .ite (fun _ ↦ .pure fun _ _ _ ↦ trivial) fun _ ↦ ?_
  refine .bind (hd _) ?_
  intro _
  refine .ite (fun _ ↦ .pure fun _ _ _ _ ↦ trivial) fun _ ↦ ?_
  exact .bind (Reporting.report _ _).within fun _ ↦ .pure fun _ _ _ _ _ ↦ trivial

theorem within_functionHeads {loops : List Exits} (ms : List Tree.Member) :
    Within loops (functionHeads ms) fun _ ↦ True := by
  induction ms with
  | nil => exact .pure trivial
  | cons m rest ih =>
    cases m with
    | statement s => exact ih
    | function text =>
      refine .bind (within_functionHead text) ?_
      intro o
      cases o with
      | none => exact ih.mono fun _ _ _ ↦ trivial
      | some t => exact .bind ih fun _ ↦ .pure fun _ _ ↦ trivial

theorem allJumpInside_statements (owner : Option Function) (l : List Tree.Statement)
    {r : Resolution} (hr : r.loops = []) : AllJumpInside [] (statements owner l r).1 :=
  ((within_statements owner l []).sound r hr rfl).2

end SmallScript.Resolver
