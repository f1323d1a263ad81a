import SmallScript.Proofs.Tree.Accounted

namespace SmallScript.Tree

mutual

def Statement.expressions : Statement → List Expression
  | .block _ statements _ => statementExpressions statements
  | .declare _ _ _ _ initializer => [initializer]
  | .ifThen _ condition branch => condition :: branch.expressions
  | .ifElse _ condition branch _ otherwise => condition :: branch.expressions ++ otherwise.expressions
  | .whileLoop _ condition body => condition :: body.expressions
  | .doLoop _ body _ condition => body.expressions ++ [condition]
  | .forLoop _ _ _ lower _ upper body => lower :: upper :: body.expressions
  | .breakLoop _ | .continueLoop _ | .leave _ none => []
  | .leave _ (some value) => [value]
  | .expression e => [e]

def statementExpressions : List Statement → List Expression
  | [] => []
  | s :: rest => s.expressions ++ statementExpressions rest

end

def Member.expressions : Member → List Expression
  | .function f => statementExpressions f.body.statements
  | .statement s => s.expressions

def Source.expressions (s : Source) : List Expression := s.members.flatMap Member.expressions

/-- From a cursor on, an action gives a result and leaves a cursor as `Q` says. No token is given back. -/
def Arrives {α : Type} (c : Cursor) (m : Reader α) (Q : α → Cursor → Prop) : Prop :=
  c.Ends → (m c).2.Ends ∧ (m c).2.left ≤ c.left ∧ Q (m c).1 (m c).2

abbrev Finds {α : Type} (m : Reader α) (Q : α → Prop) : Prop := ∀ c, Arrives c m fun a _ ↦ Q a

namespace Arrives

open Reader

variable {α β : Type} {c : Cursor} {m m' : Reader α} {f : α → Reader β} {P : α → Cursor → Prop}
  {Q : β → Cursor → Prop}

theorem pure {b : β} (h : Q b c) : Arrives c (pure b) Q := fun hc ↦ ⟨hc, Nat.le_refl _, h⟩

theorem bind (hm : Arrives c m P) (hf : ∀ a d, d.left ≤ c.left → P a d → Arrives d (f a) Q) :
    Arrives c (m >>= f) Q := by
  intro hc
  obtain ⟨hends, hleft, hP⟩ := hm hc
  obtain ⟨hends', hleft', hQ⟩ := hf _ _ hleft hP hends
  exact ⟨hends', Nat.le_trans hleft' hleft, hQ⟩

theorem kind {f : Token.Kind → Reader β} (h : Arrives c (f c.current.kind) Q) : Arrives c (kind >>= f) Q := h

theorem get {f : Cursor → Reader β} (h : Arrives c (f c) Q) : Arrives c (get >>= f) Q := h

theorem mono {m : Reader β} {Q' : β → Cursor → Prop} (h : Arrives c m Q) (hQ : ∀ b d, Q b d → Q' b d) :
    Arrives c m Q' := fun hc ↦ ⟨(h hc).1, (h hc).2.1, hQ _ _ (h hc).2.2⟩

theorem ite {p : Prop} [Decidable p] {m m' : Reader β} (h : p → Arrives c m Q) (h' : ¬ p → Arrives c m' Q) :
    Arrives c (if p then m else m') Q := by
  split
  · next hp => exact h hp
  · next hp => exact h' hp

theorem advance (hend : c.current.kind ≠ .endOfFile) :
    Arrives c advance fun t d ↦ t = c.current ∧ d.left < c.left ∧ d.current.kind = c.nextKind := by
  intro hc
  obtain ⟨t, rest, hrest, hadvance⟩ := hc.advance_eq hend
  obtain ⟨hends, hlt, -⟩ := hc.advance hend
  refine ⟨hends, Nat.le_of_lt hlt, ?_, hlt, ?_⟩
  · exact congrArg Prod.fst hadvance
  · change c.advance.2.current.kind = _
    rw [hadvance, Cursor.nextKind, hrest]
    rfl

end Arrives

namespace Finds

open Reader

variable {α β : Type} {m : Reader α} {f : α → Reader β} {P : α → Prop} {Q : β → Prop}

theorem bind (hm : Finds m P) (hf : ∀ a, P a → Finds (f a) Q) : Finds (m >>= f) Q :=
  fun c ↦ (hm c).bind fun a d _ ha ↦ hf a ha d

theorem advance : Finds advance fun _ ↦ True := by
  intro c
  by_cases hend : c.current.kind = .endOfFile
  · intro hc
    obtain ⟨current, rest, reports⟩ := c
    -- The last token is not passed.
    have hrest : rest = [] := by
      cases hc with
      | last => rfl
      | cons h => exact absurd hend h
    subst hrest
    exact ⟨hc, Nat.le_refl _, trivial⟩
  · exact (Arrives.advance hend).mono fun _ _ _ ↦ trivial

theorem take (k : Token.Kind) : Finds (take k) fun _ ↦ True := by
  intro c
  by_cases h : c.current.kind = k
  · have htake : Reader.take k c = Reader.advance c := if_pos h
    have hadvance := advance c
    unfold Arrives at hadvance ⊢
    rwa [htake]
  · have htake : Reader.take k c = (_, { c with reports := _ }) := if_neg h
    unfold Arrives
    rw [htake]
    exact fun hc ↦ ⟨hc, Nat.le_refl _, trivial⟩

theorem kind : Finds kind fun _ ↦ True := fun _ hc ↦ ⟨hc, Nat.le_refl _, trivial⟩

theorem get : Finds get fun _ ↦ True := fun _ hc ↦ ⟨hc, Nat.le_refl _, trivial⟩

theorem ite {p : Prop} [Decidable p] {m m' : Reader β} (h : Finds m Q) (h' : Finds m' Q) :
    Finds (if p then m else m') Q := fun c ↦ .ite (fun _ ↦ h c) fun _ ↦ h' c

theorem pure {b : β} (h : Q b) : Finds (pure b) Q := fun _ ↦ .pure h

theorem progress (before : Nat) : Finds (progress before) fun _ ↦ True :=
  .bind .get fun _ _ ↦ .ite (.bind .advance fun _ _ ↦ .pure trivial) (.pure trivial)

end Finds

namespace Reader

def IsWhole (e : Expression) : Prop := ∃ c, c.Ends ∧ (wholeExpression c).1 = e

abbrev AllWhole (es : List Expression) : Prop := ∀ e ∈ es, IsWhole e

theorem finds_wholeExpression : Finds wholeExpression IsWhole := by
  intro c hc
  obtain ⟨_, -, hfills⟩ := lays_wholeExpression c hc
  exact ⟨hfills.ends hc, hfills.left_le, c, hc, rfl⟩

theorem finds_typeClause : Finds typeClause fun _ ↦ True :=
  .bind (.take _) fun _ _ ↦ .bind (.take _) fun _ _ ↦ .pure trivial

theorem finds_typeClause? : Finds typeClause? fun _ ↦ True :=
  .bind .kind fun _ _ ↦ .ite (.bind finds_typeClause fun _ _ ↦ .pure trivial) (.pure trivial)

theorem finds_declaration : Finds declaration fun s ↦ AllWhole s.expressions :=
  .bind .advance fun _ _ ↦ .bind (.take _) fun _ _ ↦ .bind finds_typeClause? fun _ _ ↦ .bind (.take _) fun _ _ ↦
    .bind finds_wholeExpression fun _ hx ↦ .pure (List.forall_mem_singleton.mpr hx)

theorem finds_leaving : Finds leaving fun s ↦ AllWhole s.expressions :=
  .bind .advance fun _ _ ↦ .bind .get fun _ _ ↦ .ite (.pure (List.forall_mem_nil _))
    (.bind finds_wholeExpression fun _ hx ↦ .pure (List.forall_mem_singleton.mpr hx))

structure StatementsFound (n : Nat) : Prop where
  statement : Finds (statement n) fun s ↦ AllWhole s.expressions
  statements : Finds (statements n) fun ss ↦ AllWhole (statementExpressions ss)

theorem statementsFound (n : Nat) : StatementsFound n := by
  induction n with
  | zero =>
    exact ⟨.bind finds_wholeExpression fun _ hx ↦ .pure (List.forall_mem_singleton.mpr hx),
      .pure (List.forall_mem_nil _)⟩
  | succ n ih =>
    constructor
    case statement =>
      refine .bind .kind fun k _ ↦ ?_
      split
      · exact .bind .advance fun _ _ ↦ .bind ih.statements fun _ hs ↦ .bind (.take _) fun _ _ ↦ .pure hs
      · exact finds_declaration
      · exact finds_declaration
      · refine .bind .advance fun _ _ ↦ .bind finds_wholeExpression fun _ hx ↦ .bind ih.statement fun _ hs ↦
          .bind .kind fun _ _ ↦ .ite (.bind .advance fun _ _ ↦ .bind ih.statement fun _ hs' ↦ .pure ?_) (.pure ?_)
        · exact List.forall_mem_append.mpr ⟨List.forall_mem_cons.mpr ⟨hx, hs⟩, hs'⟩
        · exact List.forall_mem_cons.mpr ⟨hx, hs⟩
      · exact .bind .advance fun _ _ ↦ .bind finds_wholeExpression fun _ hx ↦ .bind ih.statement fun _ hs ↦
          .pure (List.forall_mem_cons.mpr ⟨hx, hs⟩)
      · exact .bind .advance fun _ _ ↦ .bind ih.statement fun _ hs ↦ .bind (.take _) fun _ _ ↦
          .bind finds_wholeExpression fun _ hx ↦
          .pure (List.forall_mem_append.mpr ⟨hs, List.forall_mem_singleton.mpr hx⟩)
      · exact .bind .advance fun _ _ ↦ .bind (.take _) fun _ _ ↦ .bind (.take _) fun _ _ ↦
          .bind finds_wholeExpression fun _ hx ↦ .bind (.take _) fun _ _ ↦ .bind finds_wholeExpression fun _ hy ↦
          .bind ih.statement fun _ hs ↦ .pure (List.forall_mem_cons.mpr ⟨hx, List.forall_mem_cons.mpr ⟨hy, hs⟩⟩)
      · exact .bind .advance fun _ _ ↦ .pure (List.forall_mem_nil _)
      · exact .bind .advance fun _ _ ↦ .pure (List.forall_mem_nil _)
      · exact finds_leaving
      · exact .bind finds_wholeExpression fun _ hx ↦ .pure (List.forall_mem_singleton.mpr hx)
    case statements =>
      refine .bind .kind fun k _ ↦ ?_
      split
      · exact .pure (List.forall_mem_nil _)
      · exact .pure (List.forall_mem_nil _)
      · exact .bind .get fun _ _ ↦ .bind ih.statement fun _ hs ↦ .bind (.progress _) fun _ _ ↦
          .bind ih.statements fun _ hss ↦ .pure (List.forall_mem_append.mpr ⟨hs, hss⟩)

theorem finds_parameters (n : Nat) : Finds (parameters n) fun _ ↦ True := by
  induction n with
  | zero => exact .pure trivial
  | succ n ih =>
    refine .bind .kind fun k _ ↦ ?_
    split
    · exact .pure trivial
    · exact .pure trivial
    · exact .bind (.take _) fun _ _ ↦ .bind finds_typeClause fun _ _ ↦ .bind .kind fun _ _ ↦
        .ite (.bind .advance fun _ _ ↦ .bind ih fun _ _ ↦ .pure trivial) (.pure trivial)

theorem finds_block : Finds block fun b ↦ AllWhole (statementExpressions b.statements) :=
  .bind (.take _) fun _ _ ↦ .bind .get fun _ _ ↦ .bind (statementsFound _).statements fun _ hs ↦
    .bind (.take _) fun _ _ ↦ .pure hs

theorem finds_function : Finds function fun f ↦ AllWhole (statementExpressions f.body.statements) :=
  .bind .advance fun _ _ ↦ .bind (.take _) fun _ _ ↦ .bind (.take _) fun _ _ ↦ .bind .get fun _ _ ↦
    .bind (finds_parameters _) fun _ _ ↦ .bind (.take _) fun _ _ ↦ .bind finds_typeClause? fun _ _ ↦
    .bind finds_block fun _ hb ↦ .pure hb

theorem finds_member : Finds member fun m ↦ AllWhole m.expressions :=
  .bind .kind fun _ _ ↦ .ite (.bind finds_function fun _ hf ↦ .pure hf)
    (.bind (.bind .get fun _ _ ↦ (statementsFound _).statement) fun _ hs ↦ .pure hs)

theorem finds_members (n : Nat) : Finds (members n) fun ms ↦ AllWhole (ms.flatMap Member.expressions) := by
  induction n with
  | zero => exact .pure (List.forall_mem_nil _)
  | succ n ih =>
    refine .bind .kind fun _ _ ↦ .ite (.pure (List.forall_mem_nil _)) ?_
    exact .bind .get fun _ _ ↦ .bind finds_member fun _ hm ↦ .bind (.progress _) fun _ _ ↦ .bind ih fun _ hms ↦
      .pure (List.forall_mem_append.mpr ⟨hm, hms⟩)

theorem finds_source : Finds source fun s ↦ AllWhole s.expressions :=
  .bind .get fun _ _ ↦ .bind (finds_members _) fun _ hms ↦ .bind (.take _) fun _ _ ↦ .pure hms

end Reader

theorem ofText_expressions (text : String) : Reader.AllWhole (ofText text).source.expressions := by
  rw [source_goodTokens]
  exact (Reader.finds_source _ (ends_goodTokens text)).2.2

end SmallScript.Tree
