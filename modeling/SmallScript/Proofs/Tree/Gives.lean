import SmallScript.Proofs.Tree.Accepted
import SmallScript.Proofs.Tree.Longest
import SmallScript.Proofs.Tree.StatementSteps

namespace SmallScript.Tree

open Token (Kind)
open Reader

/-- Whether some tokens begin with an expression, on the line of the token before. -/
def StartsOnLine (ts : List Token) : Prop :=
  (∃ us, ExpressionAt .documented ts us) ∧ ∀ t ∈ ts.head?, t.afterBreak = false

/-- The documented rules with what makes a derivation definite: an expression is as long as the tokens that
follow allow, an `else` belongs to the nearest `if`, and a return takes a value just if an expression starts
on its line. -/
def Rules.greedy : Rules where
  trailingComma := False
  expression ts us := ∀ vs, ExpressionAt .documented ts vs → us.length ≤ vs.length
  unpaired us := front us ≠ .word .elseBranch
  bare us := ¬ StartsOnLine us
  valued ts := StartsOnLine ts

structure Opens (us : List Token) : Prop where
  ne_nil : us ≠ []
  expression : front us ∈ expressionFronts → ∃ vs, ExpressionAt .documented us vs
  other : front us ∉ expressionFronts → (front us).binaryLevel? = none ∧ front us ≠ .mark .equals

section Expressions

variable {R : Rules} {ts us vs : List Token}

theorem ExpressionAt.longest (h : ExpressionAt R ts us) : R.expression ts us := by
  cases h with
  | assign _ _ _ hR | operators _ hR => exact hR

theorem ExpressionAt.of_sign {sign : Token} (h : ExpressionAt R (sign :: us) vs)
    (hsign : sign.kind ∈ Kind.binaryOperators) : OperatorsAt R us vs := by
  have hoperand {ws : List Token} (hx : OperandAt R (sign :: us) ws) : OperandAt R us ws := by
    have hliteral : ∀ k ∈ literalKinds, k ∉ Kind.binaryOperators := by decide
    cases hx with
    | unary _ hx => exact hx
    | literal ht => exact absurd hsign (hliteral _ ht)
    | name ht | group ht | call ht =>
      rw [ht] at hsign
      exact absurd hsign (by decide)
  cases h with
  | assign ht =>
    rw [ht] at hsign
    exact absurd hsign (by decide)
  | operators hx =>
    cases hx with
    | operand hx => exact .operand (hoperand hx)
    | binary hx hbinary hy => exact .binary (hoperand hx) hbinary hy

theorem ExpressionAt.extend_of_eq {trailing : Prop} {sign : Token} (hsign : sign.kind ∈ Kind.binaryOperators)
    (hy : OperatorsAt (.free trailing) us vs) {ts ws : List Token} :
    ExpressionAt (.free trailing) ts ws → ws = sign :: us → ExpressionAt (.free trailing) ts vs
  | .assign ht he hx _, hws => .assign ht he (extend_of_eq hsign hy hx hws) trivial
  | .operators hx _, hws => .operators (OperatorsAt.trans (hws ▸ hx) hsign hy) trivial

theorem ExpressionAt.exists_operand (h : ExpressionAt R us vs) (hus : front us ≠ .identifier) :
    ∃ ws, OperandAt R us ws := by
  cases h with
  | assign ht => exact absurd ht hus
  | operators hx =>
    cases hx with
    | operand hx | binary hx => exact ⟨_, hx⟩

theorem ExpressionAt.ends (hx : ExpressionAt .documented ts us)
    (hlongest : ∀ vs, ExpressionAt .documented ts vs → us.length ≤ vs.length) (hus : Opens us) :
    Ends (ExpressionAt .documented ts) us := by
  refine ⟨hus.ne_nil, ?_, fun hequals ↦ ?_, fun hopen ↦ ⟨?_, hlongest⟩⟩
  · -- What is derived from an operator on would make the expression longer.
    by_contra hlevel
    have hmem : front us ∈ expressionFronts := Decidable.byContradiction fun hmem ↦ hlevel (hus.other hmem).1
    obtain ⟨vs, hy⟩ := hus.expression hmem
    obtain ⟨own, hown⟩ := Option.ne_none_iff_exists'.mp hlevel
    obtain ⟨sign, us, rfl⟩ := List.exists_cons_of_ne_nil hus.ne_nil
    have hsign : sign.kind ∈ Kind.binaryOperators := mem_binaryOperators hown
    have hrest := hy.of_sign hsign
    have hle := hlongest vs (hx.extend_of_eq hsign hrest rfl)
    have hlt := hrest.behind.2
    simp only [List.length_cons] at hle
    omega
  · exact (hus.other (by rw [hequals]; decide)).2 hequals
  · obtain ⟨vs, hy⟩ := hus.expression (by rw [hopen]; decide)
    exact hy.exists_operand (by rw [hopen]; nofun)

theorem ExpressionAt.reads (hx : ExpressionAt .greedy ts us) (hus : Opens us) :
    ∃ x, Gives wholeExpression ts x us :=
  ExpressionAt.gives hx.free (ExpressionAt.ends hx.free hx.longest hus)

end Expressions

section Fronts

variable {R : Rules} {ts us : List Token} {t : Token} {k : Kind}

theorem Opens.of_kind (h : t.kind = k)
    (hk : k ∉ expressionFronts ∧ k.binaryLevel? = none ∧ k ≠ .mark .equals) : Opens (t :: us) := by
  obtain rfl := h
  exact ⟨List.cons_ne_nil _ _, fun hmem ↦ absurd hmem hk.1, fun _ ↦ hk.2⟩

theorem ExpressionAt.opens (h : ExpressionAt .greedy ts us) : Opens ts := by
  have hmem := h.front_mem
  refine ⟨?_, fun _ ↦ ⟨us, h.free⟩, fun hother ↦ absurd hmem hother⟩
  exact List.length_pos_iff.mp (Nat.zero_lt_of_lt h.behind.2)

theorem StatementAt.opens (h : StatementAt .greedy ts us) : Opens ts := by
  cases h with
  | block h | ifThen h | ifElse h | whileLoop h | doLoop h | forLoop h | breakLoop h | continueLoop h | leave h
    | leaveWith h => exact .of_kind h (by decide)
  | declare h => rcases h with h | h <;> exact .of_kind h (by decide)
  | expression hx => exact hx.opens

theorem StatementsAt.opens (h : StatementsAt .greedy ts us) (hus : Opens us) : Opens ts := by
  cases h with
  | nil => exact hus
  | cons hs _ => exact hs.opens

theorem StatementAt.front_mem (h : StatementAt R ts us) : front ts ∈ statementFronts := by
  cases h with
  | block h | ifThen h | ifElse h | whileLoop h | doLoop h | forLoop h | breakLoop h | continueLoop h | leave h
    | leaveWith h =>
    rw [front_cons, h]
    decide
  | declare h => rcases h with h | h <;> rw [front_cons, h] <;> decide
  | expression hx => exact List.mem_append_right _ hx.front_mem

end Fronts

/-- A return in front of a token has a value, or its line, its block or the text ends. -/
def ReturnClear (t u : Token) : Prop :=
  t.kind = .word .returnValue → EndsReturn u ∨ u.kind ∈ expressionFronts

instance (t : Token) : Decidable (EndsReturn t) := inferInstanceAs (Decidable (_ = true))

instance (t u : Token) : Decidable (ReturnClear t u) := inferInstanceAs (Decidable (_ → _))

section Clauses

variable {ts us : List Token}

theorem TypeClauseAt.gives (h : TypeClauseAt ts us) (hus : us ≠ []) : ∃ x, Gives typeClause ts x us := by
  obtain ⟨hcolon, ht⟩ := h
  exact ⟨_, .bind (.take hcolon (List.cons_ne_nil _ _)) (.bind (.take ht hus) (.pure _ _))⟩

theorem TypeClause?At.gives (h : TypeClause?At ts us) (hus : us ≠ []) (hfront : front us ≠ .mark .colon) :
    ∃ x, Gives typeClause? ts x us := by
  cases h with
  | none =>
    refine ⟨Option.none, .bind (.kind _) ?_⟩
    rw [if_neg hfront]
    exact .pure _ _
  | some h =>
    obtain ⟨x, hx⟩ := h.gives hus
    have hcolon : front ts = .mark .colon := by
      cases h with
      | mk hcolon => exact hcolon
    refine ⟨Option.some x, .bind (.kind _) ?_⟩
    rw [if_pos hcolon]
    exact .bind hx (.pure _ _)

end Clauses

section Statements

variable {ts us : List Token}

theorem endsReturn_of_bare {keyword : Token} (hk : keyword.kind = .word .returnValue) (hbare : ¬ StartsOnLine us)
    (hus : Opens us) (hclear : (keyword :: us).IsChain ReturnClear) : ∀ t ∈ us.head?, EndsReturn t := by
  obtain ⟨u, us, rfl⟩ := List.exists_cons_of_ne_nil hus.ne_nil
  intro t ht
  obtain rfl := Option.some.inj ht
  rcases (List.isChain_cons_cons.mp hclear).1 hk with hend | hfront
  · exact hend
  · -- On the same line, the expression that starts here would be the value.
    have hbreak : u.afterBreak = true := by
      by_contra hbreak
      refine hbare ⟨hus.expression hfront, fun t ht ↦ ?_⟩
      obtain rfl := Option.some.inj ht
      exact eq_false_of_ne_true hbreak
    simp [EndsReturn, hbreak]

theorem not_endsReturn_of_valued (hx : ExpressionAt .greedy ts us) (h : StartsOnLine ts) :
    ∀ t ∈ ts.head?, ¬ EndsReturn t := by
  intro t ht hend
  obtain ⟨u, ts, rfl⟩ := List.exists_cons_of_ne_nil hx.opens.ne_nil
  obtain rfl := Option.some.inj ht
  have hfront : u.kind ∈ expressionFronts := hx.front_mem
  have hline : u.afterBreak = false := h.2 u rfl
  simp only [EndsReturn, hline, Bool.false_or, Bool.or_eq_true, beq_iff_eq] at hend
  rcases hend with hend | hend <;> rw [hend] at hfront <;> exact absurd hfront (by decide)

/-- A statement is read from some tokens up to others. Each token allows for two steps of the depth. -/
def ReadsStatement (ts us : List Token) : Prop :=
  ∃ s, ∀ n, 2 * ts.length ≤ n + 1 → Gives (statement n) ts s us

def ReadsStatements (ts us : List Token) : Prop :=
  ∃ ss, ∀ n, 2 * ts.length ≤ n → Gives (statements n) ts ss us

theorem ReadsStatement.of_succ {t : Token} {s : Statement}
    (h : ∀ n, 2 * ts.length ≤ n → Gives (statement (n + 1)) (t :: ts) s us) : ReadsStatement (t :: ts) us := by
  refine ⟨s, fun n hn ↦ ?_⟩
  rw [List.length_cons] at hn
  obtain ⟨n, rfl⟩ : ∃ m, n = m + 1 := ⟨n - 1, by omega⟩
  exact h n (by omega)

mutual

theorem StatementAt.gives {ts us : List Token} : StatementAt .greedy ts us → Opens us → ts.IsChain ReturnClear →
    ReadsStatement ts us
  | .block ho hs hc, hus, hts => by
    have hclosing : Opens (_ :: us) := .of_kind hc (by decide)
    obtain ⟨ss, hss⟩ := hs.gives hclosing hc hts.tail
    exact .of_succ fun n hn ↦ gives_block ho (hs.opens hclosing).ne_nil (hss n hn) hc hus.ne_nil
  | .declare hk ht hclause he hx, hus, _ => by
    obtain ⟨x, hx'⟩ := hx.reads hus
    obtain ⟨clause, hclause'⟩ := hclause.gives (List.cons_ne_nil _ _) (by rw [front_cons, he]; nofun)
    have hne := List.length_pos_iff.mp (Nat.zero_lt_of_lt (Behind.of_suffix hclause.suffix).2)
    exact .of_succ fun n _ ↦ gives_declare hk ht hne hclause' he hx.opens.ne_nil hx'
  | .ifThen hk hx hs hR, hus, hts => by
    obtain ⟨x, hx'⟩ := hx.reads hs.opens
    obtain ⟨s, hs'⟩ := hs.gives hus (hts.tail.suffix hx.behind.1)
    have hlt := hx.behind.2
    exact .of_succ fun n hn ↦ gives_ifThen hk hx.opens.ne_nil hx' (hs' n (by omega)) hR
  | .ifElse hk hx hs helse hs', hus, hts => by
    have hthen := hts.tail.suffix hx.behind.1
    obtain ⟨x, hx'⟩ := hx.reads hs.opens
    obtain ⟨s, hthen'⟩ := hs.gives (.of_kind helse (by decide)) hthen
    obtain ⟨s', hotherwise⟩ := hs'.gives hus (hthen.suffix hs.behind.of_cons.1)
    have hlt := hx.behind.2
    have hlt' := hs.behind.of_cons.2
    exact .of_succ fun n hn ↦ gives_ifElse hk hx.opens.ne_nil hx' (hthen' n (by omega)) helse hs'.opens.ne_nil
      (hotherwise n (by omega))
  | .whileLoop hk hx hs, hus, hts => by
    obtain ⟨x, hx'⟩ := hx.reads hs.opens
    obtain ⟨s, hs'⟩ := hs.gives hus (hts.tail.suffix hx.behind.1)
    have hlt := hx.behind.2
    exact .of_succ fun n hn ↦ gives_whileLoop hk hx.opens.ne_nil hx' (hs' n (by omega))
  | .doLoop hk hs hwhile hx, hus, hts => by
    obtain ⟨s, hs'⟩ := hs.gives (.of_kind hwhile (by decide)) hts.tail
    obtain ⟨x, hx'⟩ := hx.reads hus
    exact .of_succ fun n hn ↦ gives_doLoop hk hs.opens.ne_nil (hs' n (by omega)) hwhile hx.opens.ne_nil hx'
  | .forLoop hk ht he hx hto hy hs, hus, hts => by
    obtain ⟨x, hx'⟩ := hx.reads (.of_kind hto (by decide))
    obtain ⟨y, hy'⟩ := hy.reads hs.opens
    have hbehind := hy.behind.trans hx.behind.of_cons
    obtain ⟨s, hs'⟩ := hs.gives hus (hts.tail.tail.tail.suffix hbehind.1)
    have hlt := hbehind.2
    refine .of_succ fun n hn ↦ gives_forLoop hk ht he hx.opens.ne_nil hx' hto hy.opens.ne_nil hy' (hs' n ?_)
    simp only [List.length_cons] at hn
    omega
  | .breakLoop hk, hus, _ => .of_succ fun _ _ ↦ gives_breakLoop hk hus.ne_nil
  | .continueLoop hk, hus, _ => .of_succ fun _ _ ↦ gives_continueLoop hk hus.ne_nil
  | .leave hk hR, hus, hts => .of_succ fun _ _ ↦ gives_leave hk hus.ne_nil (endsReturn_of_bare hk hR hus hts)
  | .leaveWith hk hx hR, hus, _ => by
    obtain ⟨x, hx'⟩ := hx.reads hus
    exact .of_succ fun _ _ ↦ gives_leave_value hk hx.opens.ne_nil (not_endsReturn_of_valued hx hR) hx'
  | .expression hx, hus, _ => by
    obtain ⟨x, hx'⟩ := hx.reads hus
    exact ⟨.expression x, fun n _ ↦ gives_statement hx.front_mem hx' n⟩

theorem StatementsAt.gives {ts us : List Token} : StatementsAt .greedy ts us → Opens us →
    front us = .mark .closeBrace → ts.IsChain ReturnClear → ReadsStatements ts us
  | .nil, _, hfront, _ => ⟨[], fun n _ ↦ gives_statements_nil hfront n⟩
  | .cons hs hss, hus, hfront, hts => by
    obtain ⟨s, hs'⟩ := hs.gives (hss.opens hus) hts
    obtain ⟨ss, hss'⟩ := hss.gives hus hfront (hts.suffix hs.behind.1)
    have hlt := hs.behind.2
    refine ⟨s :: ss, fun n hn ↦ ?_⟩
    obtain ⟨n, rfl⟩ : ∃ m, n = m + 1 := ⟨n - 1, by omega⟩
    exact gives_statements_cons hs.front_mem (hs' n (by omega)) (hss.opens hus).ne_nil hlt (hss' n (by omega))

end

end Statements

end SmallScript.Tree
