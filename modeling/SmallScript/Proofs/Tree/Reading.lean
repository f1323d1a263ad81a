import SmallScript.Proofs.Honest
import SmallScript.Proofs.Tree.Tokens
import SmallScript.Tree.ReadSource

namespace SmallScript.Tree

def Cursor.Intact (c : Cursor) : Prop := c.current.isMissing = false ∧ Whole c.rest

theorem Cursor.Intact.advance {c : Cursor} (h : c.Intact) :
    c.advance.2.Intact ∧ c.advance.1.isMissing = false := by
  obtain ⟨hc, hr⟩ := h
  unfold Cursor.advance
  split
  · exact ⟨⟨hc, hr⟩, hc⟩
  · next t rest hrest =>
    rw [hrest, Whole.cons_iff] at hr
    exact ⟨hr, hc⟩

abbrev Reads {α : Type} (m : Reader α) (Q : α → Prop) : Prop :=
  Honest Cursor.reports Cursor.Intact m Q

namespace Reader

theorem reads_advance : Reads advance fun t ↦ t.isMissing = false := by
  refine .of_log_eq (fun c ↦ ?_) fun c h ↦ h.advance
  change c.advance.2.reports = c.reports
  unfold Cursor.advance
  split <;> rfl

theorem reads_kind : Reads kind fun _ ↦ True := .of_log_eq (fun _ ↦ rfl) fun _ h ↦ ⟨h, trivial⟩

theorem reads_get : Reads get fun _ ↦ True := .mono .get fun _ _ ↦ trivial

theorem reads_take (k : Token.Kind) : Reads (take k) fun t ↦ t.isMissing = false where
  grows c := by
    change c.reports <:+ (c.take k).2.reports
    unfold Cursor.take
    split
    · exact reads_advance.grows c
    · exact List.suffix_cons ..
  sound c h hq := by
    change (c.take k).2.reports = c.reports at hq
    change (c.take k).2.Intact ∧ (c.take k).1.isMissing = false
    unfold Cursor.take at hq ⊢
    split at hq
    · next hk => simpa only [hk, if_true] using h.advance
    · exact absurd hq (List.cons_ne_self _ _)

theorem reads_name : Reads name fun e ↦ Whole e.tokens :=
  .bind (reads_take _) fun _ ↦ .pure fun h ↦ by simpa [Expression.tokens] using h

structure ExpressionsWhole (n : Nat) : Prop where
  expression : Reads (expression n) fun e ↦ Whole e.tokens
  operators (level : Nat) : Reads (operators n level) fun e ↦ Whole e.tokens
  joined (level : Nat) (left : Expression) :
    Reads (joined n level left) fun e ↦ Whole left.tokens → Whole e.tokens
  primary : Reads (primary n) fun e ↦ Whole e.tokens
  arguments : Reads (arguments n) fun es ↦ Whole (expressionTokens es)

theorem expressionsWhole (n : Nat) : ExpressionsWhole n := by
  induction n with
  | zero =>
    exact ⟨reads_name, fun _ ↦ reads_name, fun _ _ ↦ .pure id, reads_name, .pure Whole.nil⟩
  | succ n ih =>
    constructor
    case expression =>
      refine .bind reads_kind ?_
      intro _
      refine .bind reads_get ?_
      intro _
      refine .ite (fun _ ↦ ?_) fun _ ↦ ?_
      · refine .bind reads_advance fun _ ↦ .bind reads_advance fun _ ↦ .bind ih.expression fun _ ↦ .pure ?_
        simp_all [Expression.tokens]
      · exact (ih.operators 0).mono fun _ h _ _ ↦ h
    case operators =>
      intro level
      refine .bind reads_kind ?_
      intro k
      split
      · refine .ite (fun _ ↦ ?_) fun _ ↦ ?_
        · refine .bind reads_advance ?_
          intro sign
          refine .bind (ih.operators _) ?_
          intro operand
          refine (ih.joined level (.unary sign operand)).mono fun _ h ho hs _ ↦ h ?_
          simp_all [Expression.tokens]
        · exact .bind ih.primary fun left ↦ (ih.joined level left).mono fun _ h hl _ ↦ h hl
      · exact .bind ih.primary fun left ↦ (ih.joined level left).mono fun _ h hl _ ↦ h hl
    case joined =>
      intro level left
      refine .bind reads_kind ?_
      intro k
      split
      · refine .ite (fun _ ↦ ?_) fun _ ↦ .pure fun _ ↦ id
        refine .bind reads_advance ?_
        intro sign
        refine .bind (ih.operators _) ?_
        intro right
        refine (ih.joined level (.binary left sign right)).mono fun _ h hr hs _ hl ↦ h ?_
        simp_all [Expression.tokens]
      · exact .pure fun _ ↦ id
    case primary =>
      refine .bind reads_kind ?_
      intro k
      split
      · refine .bind reads_advance fun _ ↦ .bind ih.expression fun _ ↦ .bind (reads_take _) fun _ ↦ .pure ?_
        simp_all [Expression.tokens]
      · exact .bind reads_advance fun _ ↦ .pure (by simp_all [Expression.tokens])
      · exact .bind reads_advance fun _ ↦ .pure (by simp_all [Expression.tokens])
      · exact .bind reads_advance fun _ ↦ .pure (by simp_all [Expression.tokens])
      · exact .bind reads_advance fun _ ↦ .pure (by simp_all [Expression.tokens])
      · refine .bind reads_get fun _ ↦ .ite (fun _ ↦ ?_) fun _ ↦ reads_name.mono fun _ h _ _ ↦ h
        refine .bind reads_advance fun _ ↦ .bind reads_advance fun _ ↦ .bind ih.arguments fun _ ↦
          .bind (reads_take _) fun _ ↦ .pure ?_
        simp_all [Expression.tokens]
      · exact reads_name.mono fun _ h _ ↦ h
    case arguments =>
      refine .bind reads_kind ?_
      intro k
      split
      · exact .pure fun _ ↦ Whole.nil
      · exact .pure fun _ ↦ Whole.nil
      · refine .bind ih.expression fun _ ↦ .bind reads_kind fun _ ↦ .ite (fun _ ↦ ?_) fun _ ↦ .pure ?_
        · refine .bind reads_advance fun _ ↦ .bind ih.arguments fun _ ↦ .pure ?_
          simp_all [expressionTokens]
        · simp_all [expressionTokens]

theorem reads_wholeExpression : Reads wholeExpression fun e ↦ Whole e.tokens :=
  .bind reads_get fun _ ↦ (expressionsWhole _).expression.mono fun _ h _ ↦ h

theorem reads_typeClause : Reads typeClause fun c ↦ Whole c.tokens :=
  .bind (reads_take _) fun _ ↦ .bind (reads_take _) fun _ ↦ .pure (by simp_all [TypeClause.tokens])

theorem reads_typeClause? : Reads typeClause? fun c ↦ Whole (clauseTokens c) :=
  .bind reads_kind fun _ ↦ .ite
    (fun _ ↦ .bind reads_typeClause fun _ ↦ .pure fun h _ ↦ h) fun _ ↦ .pure fun _ ↦ Whole.nil

theorem reads_declaration : Reads declaration fun s ↦ Whole s.tokens :=
  .bind reads_advance fun _ ↦ .bind (reads_take _) fun _ ↦ .bind reads_typeClause? fun _ ↦
    .bind (reads_take _) fun _ ↦ .bind reads_wholeExpression fun _ ↦
      .pure (by simp_all [Statement.tokens])

theorem reads_leaving : Reads leaving fun s ↦ Whole s.tokens := by
  refine .bind reads_advance ?_
  intro _
  refine .bind reads_get ?_
  intro _
  refine .ite (fun _ ↦ .pure ?_) fun _ ↦ ?_
  · simp_all [Statement.tokens]
  · exact .bind reads_wholeExpression fun _ ↦ .pure (by simp_all [Statement.tokens])

theorem reads_progress (before : Nat) : Reads (progress before) fun _ ↦ True :=
  .bind reads_get fun _ ↦ .ite (fun _ ↦ .bind reads_advance fun _ ↦ .pure fun _ _ ↦ trivial)
    fun _ ↦ .pure fun _ ↦ trivial

structure StatementsWhole (n : Nat) : Prop where
  statement : Reads (statement n) fun s ↦ Whole s.tokens
  statements : Reads (statements n) fun l ↦ Whole (statementTokens l)

theorem statementsWhole (n : Nat) : StatementsWhole n := by
  induction n with
  | zero =>
    refine ⟨.bind reads_wholeExpression fun _ ↦ .pure fun h ↦ ?_, .pure Whole.nil⟩
    simpa [Statement.tokens] using h
  | succ n ih =>
    constructor
    case statement =>
      refine .bind reads_kind ?_
      intro k
      split
      · refine .bind reads_advance fun _ ↦ .bind ih.statements fun _ ↦ .bind (reads_take _) fun _ ↦ .pure ?_
        simp_all [Statement.tokens]
      · exact reads_declaration.mono fun _ h _ ↦ h
      · exact reads_declaration.mono fun _ h _ ↦ h
      · refine .bind reads_advance fun _ ↦ .bind reads_wholeExpression fun _ ↦
          .bind ih.statement fun _ ↦ .bind reads_kind fun _ ↦ .ite (fun _ ↦ ?_) fun _ ↦ .pure ?_
        · refine .bind reads_advance fun _ ↦ .bind ih.statement fun _ ↦ .pure ?_
          simp_all [Statement.tokens]
        · simp_all [Statement.tokens]
      · refine .bind reads_advance fun _ ↦ .bind reads_wholeExpression fun _ ↦
          .bind ih.statement fun _ ↦ .pure ?_
        simp_all [Statement.tokens]
      · refine .bind reads_advance fun _ ↦ .bind ih.statement fun _ ↦ .bind (reads_take _) fun _ ↦
          .bind reads_wholeExpression fun _ ↦ .pure ?_
        simp_all [Statement.tokens]
      · refine .bind reads_advance fun _ ↦ .bind (reads_take _) fun _ ↦ .bind (reads_take _) fun _ ↦
          .bind reads_wholeExpression fun _ ↦ .bind (reads_take _) fun _ ↦
          .bind reads_wholeExpression fun _ ↦ .bind ih.statement fun _ ↦ .pure ?_
        simp_all [Statement.tokens]
      · exact .bind reads_advance fun _ ↦ .pure (by simp_all [Statement.tokens])
      · exact .bind reads_advance fun _ ↦ .pure (by simp_all [Statement.tokens])
      · exact reads_leaving.mono fun _ h _ ↦ h
      · exact .bind reads_wholeExpression fun _ ↦ .pure (by simp_all [Statement.tokens])
    case statements =>
      refine .bind reads_kind ?_
      intro k
      split
      · exact .pure fun _ ↦ Whole.nil
      · exact .pure fun _ ↦ Whole.nil
      · refine .bind reads_get fun _ ↦ .bind ih.statement fun _ ↦ .bind (reads_progress _) fun _ ↦
          .bind ih.statements fun _ ↦ .pure ?_
        simp_all [statementTokens]

theorem reads_wholeStatement : Reads wholeStatement fun s ↦ Whole s.tokens :=
  .bind reads_get fun _ ↦ (statementsWhole _).statement.mono fun _ h _ ↦ h

theorem reads_block : Reads block fun b ↦ Whole b.tokens :=
  .bind (reads_take _) fun _ ↦ .bind reads_get fun _ ↦ .bind (statementsWhole _).statements fun _ ↦
    .bind (reads_take _) fun _ ↦ .pure (by simp_all [Block.tokens])

theorem reads_parameters (n : Nat) :
    Reads (parameters n) fun ps ↦ Whole (ps.flatMap Parameter.tokens) := by
  induction n with
  | zero => exact .pure Whole.nil
  | succ n ih =>
    refine .bind reads_kind ?_
    intro k
    split
    · exact .pure fun _ ↦ Whole.nil
    · exact .pure fun _ ↦ Whole.nil
    · refine .bind (reads_take _) fun _ ↦ .bind reads_typeClause fun _ ↦ .bind reads_kind fun _ ↦
        .ite (fun _ ↦ ?_) fun _ ↦ .pure ?_
      · refine .bind reads_advance fun _ ↦ .bind ih fun _ ↦ .pure ?_
        simp_all [Parameter.tokens]
      · simp_all [Parameter.tokens]

theorem reads_function : Reads function fun f ↦ Whole f.tokens :=
  .bind reads_advance fun _ ↦ .bind (reads_take _) fun _ ↦ .bind (reads_take _) fun _ ↦
    .bind reads_get fun _ ↦ .bind (reads_parameters _) fun _ ↦ .bind (reads_take _) fun _ ↦
    .bind reads_typeClause? fun _ ↦ .bind reads_block fun _ ↦ .pure (by simp_all [Function.tokens])

theorem reads_member : Reads member fun m ↦ Whole m.tokens :=
  .bind reads_kind fun _ ↦ .ite (fun _ ↦ .bind reads_function fun _ ↦ .pure fun h _ ↦ h)
    fun _ ↦ .bind reads_wholeStatement fun _ ↦ .pure fun h _ ↦ h

theorem reads_members (n : Nat) : Reads (members n) fun ms ↦ Whole (ms.flatMap Member.tokens) := by
  induction n with
  | zero => exact .pure Whole.nil
  | succ n ih =>
    refine .bind reads_kind ?_
    intro k
    refine .ite (fun _ ↦ .pure fun _ ↦ Whole.nil) fun _ ↦ ?_
    refine .bind reads_get fun _ ↦ .bind reads_member fun _ ↦ .bind (reads_progress _) fun _ ↦
      .bind ih fun _ ↦ .pure ?_
    simp_all

theorem reads_source : Reads source fun s ↦ Whole s.tokens :=
  .bind reads_get fun _ ↦ .bind (reads_members _) fun _ ↦ .bind (reads_take _) fun _ ↦
    .pure (by simp_all [Source.tokens])

end Reader

theorem Cursor.intact_ofTokens {ts : List Token} (h : Whole ts) : (Cursor.ofTokens ts).Intact := by
  cases ts with
  | nil => exact ⟨rfl, Whole.nil⟩
  | cons t rest => exact Whole.cons_iff.mp h

theorem Source.whole_of_ofTokens {ts : List Token} (h : Whole ts)
    (hr : (Source.ofTokens ts).2 = []) : Whole (Source.ofTokens ts).1.tokens := by
  have hw : Whole (ts.filter (·.kind != .bad)) := fun t ht ↦ h t (List.mem_filter.mp ht).1
  have hq : (Reader.source (.ofTokens (ts.filter (·.kind != .bad)))).2.reports = [] :=
    List.reverse_eq_nil_iff.mp hr
  refine (Reader.reads_source.sound _ (Cursor.intact_ofTokens hw) (hq.trans ?_)).2
  unfold Cursor.ofTokens
  split <;> rfl

theorem isMissing_next (p : ScanPoint) : p.next.1.token.isMissing = false := by
  simp only [ScanPoint.next]
  split
  · rfl
  · next c rest _ =>
    have h := Lexeme.read_ne_nil c rest
    simp [Token.isMissing, String.isEmpty_iff, h]

theorem whole_scan (n : Nat) (p : ScanPoint) : Whole ((ScanPoint.scan n p).map (·.token)) := by
  induction n generalizing p with
  | zero => simpa [ScanPoint.scan] using isMissing_next p
  | succ n ih =>
    simp only [ScanPoint.scan]
    split
    · simpa using isMissing_next p
    · simpa using ⟨isMissing_next p, ih _⟩

theorem whole_of_reports_eq_nil {text : String} (h : (ofText text).reports = []) :
    Whole (ofText text).source.tokens := by
  rw [reports_ofText] at h
  rw [source_ofText]
  exact Source.whole_of_ofTokens (whole_scan _ _) (List.append_eq_nil_iff.mp h).2

end SmallScript.Tree
