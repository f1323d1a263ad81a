import SmallScript.Proofs.Tree.Fills
import SmallScript.Proofs.Tree.Steps

namespace SmallScript.Tree

open Token (Kind)

def statementFronts : List Kind :=
  [.mark .openBrace, .word .letName, .word .varName, .word .ifTest, .word .whileLoop, .word .doLoop,
    .word .forLoop, .word .breakLoop, .word .continueLoop, .word .returnValue] ++ expressionFronts

namespace Reader

variable {keyword : Token} {x y : Expression} {s s' : Statement} {ss : List Statement} {ts us vs ws : List Token}
  {n : Nat}

theorem gives_block {opening closing : Token} (ho : opening.kind = .mark .openBrace) (hts : ts ≠ [])
    (hs : Gives (statements n) ts ss (closing :: us)) (hc : closing.kind = .mark .closeBrace) (hus : us ≠ []) :
    Gives (statement (n + 1)) (opening :: ts) (.block opening ss closing) us := by
  refine .bind (.kind _) ?_
  rw [front_cons, ho]
  exact .bind (.advance hts) (.bind hs (.bind (.take hc hus) (.pure _ _)))

theorem gives_declare {t equals : Token} {clause : Option TypeClause}
    (hk : keyword.kind = .word .letName ∨ keyword.kind = .word .varName) (ht : t.kind = .identifier)
    (hts : ts ≠ []) (hclause : Gives typeClause? ts clause (equals :: us)) (he : equals.kind = .mark .equals)
    (hus : us ≠ []) (hx : Gives wholeExpression us x vs) :
    Gives (statement (n + 1)) (keyword :: t :: ts) (.declare keyword t clause equals x) vs := by
  have hdeclaration : Gives declaration (keyword :: t :: ts) (.declare keyword t clause equals x) vs :=
    .bind (.advance (List.cons_ne_nil _ _)) (.bind (.take ht hts) (.bind hclause (.bind (.take he hus)
      (.bind hx (.pure _ _)))))
  refine .bind (.kind _) ?_
  rcases hk with hk | hk
  · rw [front_cons, hk]
    exact hdeclaration
  · rw [front_cons, hk]
    exact hdeclaration

theorem gives_ifThen (hk : keyword.kind = .word .ifTest) (hts : ts ≠ []) (hx : Gives wholeExpression ts x us)
    (hs : Gives (statement n) us s vs) (hvs : front vs ≠ .word .elseBranch) :
    Gives (statement (n + 1)) (keyword :: ts) (.ifThen keyword x s) vs := by
  refine .bind (.kind _) ?_
  rw [front_cons, hk]
  refine .bind (.advance hts) (.bind hx (.bind hs (.bind (.kind _) ?_)))
  rw [if_neg hvs]
  exact .pure _ _

theorem gives_ifElse {elseKeyword : Token} (hk : keyword.kind = .word .ifTest) (hts : ts ≠ [])
    (hx : Gives wholeExpression ts x us) (hs : Gives (statement n) us s (elseKeyword :: vs))
    (helse : elseKeyword.kind = .word .elseBranch) (hvs : vs ≠ []) (hs' : Gives (statement n) vs s' ws) :
    Gives (statement (n + 1)) (keyword :: ts) (.ifElse keyword x s elseKeyword s') ws := by
  refine .bind (.kind _) ?_
  rw [front_cons, hk]
  refine .bind (.advance hts) (.bind hx (.bind hs (.bind (.kind _) ?_)))
  rw [front_cons, if_pos helse]
  exact .bind (.advance hvs) (.bind hs' (.pure _ _))

theorem gives_whileLoop (hk : keyword.kind = .word .whileLoop) (hts : ts ≠ [])
    (hx : Gives wholeExpression ts x us) (hs : Gives (statement n) us s vs) :
    Gives (statement (n + 1)) (keyword :: ts) (.whileLoop keyword x s) vs := by
  refine .bind (.kind _) ?_
  rw [front_cons, hk]
  exact .bind (.advance hts) (.bind hx (.bind hs (.pure _ _)))

theorem gives_doLoop {whileKeyword : Token} (hk : keyword.kind = .word .doLoop) (hts : ts ≠ [])
    (hs : Gives (statement n) ts s (whileKeyword :: us)) (hwhile : whileKeyword.kind = .word .whileLoop)
    (hus : us ≠ []) (hx : Gives wholeExpression us x vs) :
    Gives (statement (n + 1)) (keyword :: ts) (.doLoop keyword s whileKeyword x) vs := by
  refine .bind (.kind _) ?_
  rw [front_cons, hk]
  exact .bind (.advance hts) (.bind hs (.bind (.take hwhile hus) (.bind hx (.pure _ _))))

theorem gives_forLoop {t equals toKeyword : Token} (hk : keyword.kind = .word .forLoop)
    (ht : t.kind = .identifier) (he : equals.kind = .mark .equals) (hts : ts ≠ [])
    (hx : Gives wholeExpression ts x (toKeyword :: us)) (hto : toKeyword.kind = .word .toBound) (hus : us ≠ [])
    (hy : Gives wholeExpression us y vs) (hs : Gives (statement n) vs s ws) :
    Gives (statement (n + 1)) (keyword :: t :: equals :: ts) (.forLoop keyword t equals x toKeyword y s) ws := by
  refine .bind (.kind _) ?_
  rw [front_cons, hk]
  exact .bind (.advance (List.cons_ne_nil _ _)) (.bind (.take ht (List.cons_ne_nil _ _)) (.bind (.take he hts)
    (.bind hx (.bind (.take hto hus) (.bind hy (.bind hs (.pure _ _)))))))

theorem gives_breakLoop (hk : keyword.kind = .word .breakLoop) (hus : us ≠ []) :
    Gives (statement (n + 1)) (keyword :: us) (.breakLoop keyword) us := by
  refine .bind (.kind _) ?_
  rw [front_cons, hk]
  exact .bind (.advance hus) (.pure _ _)

theorem gives_continueLoop (hk : keyword.kind = .word .continueLoop) (hus : us ≠ []) :
    Gives (statement (n + 1)) (keyword :: us) (.continueLoop keyword) us := by
  refine .bind (.kind _) ?_
  rw [front_cons, hk]
  exact .bind (.advance hus) (.pure _ _)

theorem gives_leave (hk : keyword.kind = .word .returnValue) (hus : us ≠ [])
    (h : ∀ t ∈ us.head?, EndsReturn t) : Gives (statement (n + 1)) (keyword :: us) (.leave keyword none) us := by
  obtain ⟨u, us, rfl⟩ := List.exists_cons_of_ne_nil hus
  refine .bind (.kind _) ?_
  rw [front_cons, hk]
  refine .bind (.advance hus) (.bind (.get _) ?_)
  rw [if_pos (by exact h u rfl)]
  exact .pure _ _

theorem gives_leave_value (hk : keyword.kind = .word .returnValue) (hts : ts ≠ [])
    (h : ∀ t ∈ ts.head?, ¬ EndsReturn t) (hx : Gives wholeExpression ts x us) :
    Gives (statement (n + 1)) (keyword :: ts) (.leave keyword (some x)) us := by
  obtain ⟨t, ts, rfl⟩ := List.exists_cons_of_ne_nil hts
  refine .bind (.kind _) ?_
  rw [front_cons, hk]
  refine .bind (.advance hts) (.bind (.get _) ?_)
  rw [if_neg (by exact h t rfl)]
  exact .bind hx (.pure _ _)

theorem gives_statements_nil (hus : front us = .mark .closeBrace) (n : Nat) : Gives (statements n) us [] us := by
  cases n with
  | zero => rfl
  | succ n =>
    refine .bind (.kind _) ?_
    rw [hus]
    exact .pure _ _

theorem gives_statements_cons (hts : front ts ∈ statementFronts) (hs : Gives (statement n) ts s us)
    (hus : us ≠ []) (hlt : us.length < ts.length) (hss : Gives (statements n) us ss vs) :
    Gives (statements (n + 1)) ts (s :: ss) vs := by
  refine .bind (.kind _) ?_
  split
  · next hclose => exact absurd (hclose ▸ hts) (by decide)
  · next hend => exact absurd (hend ▸ hts) (by decide)
  · refine .bind (.get _) ?_
    rw [left_ofTokens]
    exact .bind hs (.bind (gives_progress hus hlt) (.bind hss (.pure _ _)))

theorem gives_parameters_nil (hus : front us = .mark .closeParenthesis) (n : Nat) :
    Gives (parameters n) us [] us := by
  cases n with
  | zero => rfl
  | succ n =>
    refine .bind (.kind _) ?_
    rw [hus]
    exact .pure _ _

theorem gives_parameters_last {t : Token} {clause : TypeClause} (ht : t.kind = .identifier) (hts : ts ≠ [])
    (hclause : Gives typeClause ts clause us) (hus : front us ≠ .mark .comma) :
    Gives (parameters (n + 1)) (t :: ts) [⟨t, clause⟩] us := by
  refine .bind (.kind _) ?_
  rw [front_cons, ht]
  refine .bind (.take ht hts) (.bind hclause (.bind (.kind _) ?_))
  rw [if_neg hus]
  exact .pure _ _

theorem gives_parameters_cons {t comma : Token} {clause : TypeClause} {ps : List Parameter}
    (ht : t.kind = .identifier) (hts : ts ≠ []) (hclause : Gives typeClause ts clause (comma :: us))
    (hcomma : comma.kind = .mark .comma) (hus : us ≠ []) (hps : Gives (parameters n) us ps vs) :
    Gives (parameters (n + 1)) (t :: ts) (⟨t, clause⟩ :: ps) vs := by
  refine .bind (.kind _) ?_
  rw [front_cons, ht]
  refine .bind (.take ht hts) (.bind hclause (.bind (.kind _) ?_))
  rw [front_cons, if_pos hcomma]
  exact .bind (.advance hus) (.bind hps (.pure _ _))

end Reader

end SmallScript.Tree
