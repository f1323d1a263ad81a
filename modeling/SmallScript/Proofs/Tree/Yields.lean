import SmallScript.Proofs.Tree.Accepted
import SmallScript.Proofs.Tree.Grouping
import SmallScript.Proofs.Tree.Longest

namespace SmallScript.Tree

open Token (Kind)

mutual

/-- Whether a tree has some tokens and no others, with a comma between two arguments, and maybe one behind the
last. -/
inductive Yields : Expression → List Token → Prop
  | literal {t : Token} (ht : t.kind ∈ literalKinds) : Yields (.literal t (literalValue t)) [t]
  | name {t : Token} (ht : t.kind = .identifier) : Yields (.name t) [t]
  | unary {sign : Token} {x : Expression} {ts : List Token} (hsign : sign.kind ∈ Kind.unaryOperators)
      (hx : Yields x ts) : Yields (.unary sign x) (sign :: ts)
  | binary {sign : Token} {x y : Expression} {ts us : List Token} (hx : Yields x ts)
      (hsign : sign.kind ∈ Kind.binaryOperators) (hy : Yields y us) : Yields (.binary x sign y) (ts ++ sign :: us)
  | group {opening closing : Token} {x : Expression} {ts : List Token}
      (ho : opening.kind = .mark .openParenthesis) (hx : Yields x ts)
      (hc : closing.kind = .mark .closeParenthesis) : Yields (.group opening x closing) (opening :: ts ++ [closing])
  | assign {t equals : Token} {x : Expression} {ts : List Token} (ht : t.kind = .identifier)
      (he : equals.kind = .mark .equals) (hx : Yields x ts) : Yields (.assign t equals x) (t :: equals :: ts)
  | call {t opening closing : Token} {xs : List Expression} {ts : List Token} (ht : t.kind = .identifier)
      (ho : opening.kind = .mark .openParenthesis) (hxs : AllYield xs ts)
      (hc : closing.kind = .mark .closeParenthesis) :
    Yields (.call t opening xs closing) (t :: opening :: ts ++ [closing])

inductive AllYield : List Expression → List Token → Prop
  | nil : AllYield [] []
  | last {x : Expression} {ts : List Token} (hx : Yields x ts) : AllYield [x] ts
  | cons {x : Expression} {xs : List Expression} {comma : Token} {ts us : List Token} (hx : Yields x ts)
      (hcomma : comma.kind = .mark .comma) (hxs : AllYield xs us) : AllYield (x :: xs) (ts ++ comma :: us)

end

section Derived

variable {R : Rules}

mutual

theorem Yields.derived (hR : R.Lenient) (htrailing : R.trailingComma) {ts : List Token} (us : List Token) :
    {e : Expression} → Yields e ts → e.Grouped → DerivesExpression R e (ts ++ us) us
  | _, .literal ht, _ => hR.derives (.operand (.literal ht))
  | _, .name ht, _ => hR.derives (.operand (.name ht))
  | _, .unary hsign hx, hg => hR.derives (.unary hsign ((hx.derived hR htrailing us hg.2.2).operators hg.1))
  | _, @Yields.binary sign x y ts vs hx hsign hy, hg => by
    obtain ⟨hleft, hright, -, hgx, hgy⟩ := hg
    have hx := (hx.derived hR htrailing (sign :: (vs ++ us)) hgx).operators hleft
    rw [List.append_assoc]
    exact hR.derives (hx.trans hsign ((hy.derived hR htrailing us hgy).operators hright))
  | _, @Yields.group opening closing x ts ho hx hc, hg => by
    have hx := (hx.derived hR htrailing (closing :: us) hg).expression
    rw [show opening :: ts ++ [closing] ++ us = opening :: (ts ++ closing :: us) by simp]
    exact hR.derives (.operand (.group ho hx hc))
  | _, .assign ht he hx, hg =>
    ⟨.assign ht he (hx.derived hR htrailing us hg).expression (hR.expression _ _), nofun⟩
  | _, @Yields.call t opening closing xs ts ht ho hxs hc, hg => by
    have hxs := hxs.derived hR htrailing (closing :: us) hg
    rw [show t :: opening :: ts ++ [closing] ++ us = t :: opening :: (ts ++ closing :: us) by simp]
    exact hR.derives (.operand (.call ht ho hxs hc))

theorem AllYield.derived (hR : R.Lenient) (htrailing : R.trailingComma) {ts : List Token} (us : List Token) :
    {es : List Expression} → AllYield es ts → AllGrouped es → ArgumentsAt R (ts ++ us) us
  | _, .nil, _ => .none
  | _, .last hx, hg => .some (.last (hx.derived hR htrailing us hg.1).expression)
  | _, @AllYield.cons x xs comma ts vs hx hcomma hxs, hg => by
    have hx := (hx.derived hR htrailing (comma :: (vs ++ us)) hg.1).expression
    have hrest := hxs.derived hR htrailing us hg.2
    rw [List.append_assoc, List.cons_append]
    generalize vs ++ us = ws at hx hrest
    cases hrest with
    | none => exact .some (.trailing htrailing hx hcomma)
    | some hrest => exact .some (.cons hx hcomma hrest)

end

end Derived

namespace Expression

/-- An operation whose left operand begins with `x` and `sign`, put in where operators of their levels group
them. -/
def prepend (x : Expression) (sign : Token) : Expression → Expression
  | .binary left sign' right =>
    if sign'.kind.binaryLevel?.getD 0 ≤ sign.kind.binaryLevel?.getD 0 then .binary (prepend x sign left) sign' right
    else .binary x sign (.binary left sign' right)
  | y => .binary x sign y

variable {x : Expression} {sign : Token} {own : Nat} {ts us : List Token}

theorem level?_prepend (x : Expression) (sign : Token) (y : Expression) : ∀ inner ∈ (x.prepend sign y).level?,
    inner ∈ y.level? ∨ sign.kind.binaryLevel? = some inner := by
  intro inner hinner
  cases y with
  | binary left sign' right =>
    rw [prepend] at hinner
    split at hinner
    · exact .inl hinner
    · exact .inr hinner
  | _ => exact .inr hinner

theorem Operand.prepend (hx : x.Operand) (hnone : x.level? = none) (hown : sign.kind.binaryLevel? = some own) :
    {y : Expression} → y.Operand → (x.prepend sign y).Operand
  | .binary left sign' right, hy => by
    obtain ⟨⟨hleft, hright, ⟨own', hown', hle, hlt⟩, hgleft, hgright⟩, -⟩ := hy
    rw [Expression.prepend, hown, hown']
    split
    · next hlevel =>
      have hinner := Operand.prepend hx hnone hown ⟨hgleft, hleft⟩
      refine hinner.binary hown' (fun inner h own'' hown'' ↦ ?_) ⟨hgright, hright⟩ hlt
      obtain rfl := Option.some.inj (hown'.symm.trans hown'')
      rcases level?_prepend x sign left inner h with h | h
      · exact hle inner h
      · exact Option.some.inj (hown.symm.trans h) ▸ hlevel
    · next hlevel =>
      refine hx.binary hown (.of_none hnone) ⟨⟨hleft, hright, ⟨own', hown', hle, hlt⟩, hgleft, hgright⟩, rfl⟩ ?_
      intro inner h
      obtain rfl := Option.some.inj (hown'.symm.trans h)
      exact Nat.not_le.mp hlevel
  | .literal _ _, hy | .name _, hy | .unary _ _, hy | .group _ _ _, hy | .call _ _ _ _, hy =>
    hx.binary hown (.of_none hnone) hy (.of_none rfl)
  | .assign _ _ _, hy => nomatch hy.not_assign

theorem yields_prepend (hx : Yields x ts) (hsign : sign.kind ∈ Kind.binaryOperators) :
    {y : Expression} → {us : List Token} → Yields y us → Yields (x.prepend sign y) (ts ++ sign :: us)
  | .binary left sign' right, _, hy => by
    rw [prepend]
    split
    · cases hy with
      | binary hleft hsign' hright =>
        have hinner := (yields_prepend hx hsign hleft).binary hsign' hright
        rwa [List.append_assoc] at hinner
    · exact hx.binary hsign hy
  | .literal _ _, _, hy | .name _, _, hy | .unary _ _, _, hy | .group _ _ _, _, hy | .call _ _ _ _, _, hy
  | .assign _ _ _, _, hy => hx.binary hsign hy

end Expression

section Trees

variable {R : Rules}

def HasTree (Q : Expression → Prop) (ts us : List Token) : Prop := ∃ e vs, ts = vs ++ us ∧ Yields e vs ∧ Q e

mutual

theorem ExpressionAt.hasTree {ts us : List Token} : ExpressionAt R ts us → HasTree Expression.Grouped ts us
  | .assign ht he hx _ => by
    obtain ⟨x, vs, rfl, hx, hg⟩ := hx.hasTree
    exact ⟨_, _, rfl, hx.assign ht he, hg⟩
  | .operators hx _ => by
    obtain ⟨x, vs, rfl, hx, hg⟩ := hx.hasTree
    exact ⟨x, vs, rfl, hx, hg.grouped⟩

theorem OperatorsAt.hasTree {ts us : List Token} : OperatorsAt R ts us → HasTree Expression.Operand ts us
  | .operand hx => by
    obtain ⟨x, vs, rfl, hx, hg, -⟩ := hx.hasTree
    exact ⟨x, vs, rfl, hx, hg⟩
  | .binary hx hsign hy => by
    have hfirst := hx.hasTree
    obtain ⟨y, ws, rfl, hy, hg'⟩ := hy.hasTree
    obtain ⟨x, vs, rfl, hx, hg, hnone⟩ := hfirst
    obtain ⟨own, hown, -, -⟩ := exists_binaryLevel hsign
    exact ⟨_, _, by simp, Expression.yields_prepend hx hsign hy, hg.prepend hnone hown hg'⟩

theorem OperandAt.hasTree {ts us : List Token} :
    OperandAt R ts us → HasTree (fun e ↦ e.Operand ∧ e.level? = none) ts us
  | .unary hsign hx => by
    obtain ⟨x, vs, rfl, hx, hg, hnone⟩ := hx.hasTree
    exact ⟨_, _, rfl, hx.unary hsign, hg.unary hnone _, rfl⟩
  | .literal ht => ⟨_, [_], rfl, .literal ht, ⟨trivial, rfl⟩, rfl⟩
  | .name ht => ⟨_, [_], rfl, .name ht, ⟨trivial, rfl⟩, rfl⟩
  | .group ho hx hc => by
    obtain ⟨x, vs, rfl, hx, hg⟩ := hx.hasTree
    exact ⟨_, _, by simp, hx.group ho hc, ⟨hg, rfl⟩, rfl⟩
  | .call ht ho hxs hc => by
    obtain ⟨xs, vs, rfl, hxs, hg⟩ := hxs.hasTrees
    exact ⟨_, _, by simp, .call ht ho hxs hc, ⟨hg, rfl⟩, rfl⟩

theorem ArgumentsAt.hasTrees {ts us : List Token} :
    ArgumentsAt R ts us → ∃ es vs, ts = vs ++ us ∧ AllYield es vs ∧ AllGrouped es
  | .none => ⟨[], [], rfl, .nil, trivial⟩
  | .some hxs => hxs.hasTrees

theorem ArgumentListAt.hasTrees {ts us : List Token} :
    ArgumentListAt R ts us → ∃ es vs, ts = vs ++ us ∧ AllYield es vs ∧ AllGrouped es
  | .last hx => by
    obtain ⟨x, vs, rfl, hx, hg⟩ := hx.hasTree
    exact ⟨[x], vs, rfl, .last hx, hg, trivial⟩
  | .trailing _ hx hcomma => by
    obtain ⟨x, vs, rfl, hx, hg⟩ := hx.hasTree
    exact ⟨[x], _, by simp, .cons hx hcomma .nil, hg, trivial⟩
  | .cons hx hcomma hxs => by
    have hfirst := hx.hasTree
    obtain ⟨xs, ws, rfl, hxs, hgs⟩ := hxs.hasTrees
    obtain ⟨x, vs, rfl, hx, hg⟩ := hfirst
    exact ⟨x :: xs, _, by simp, .cons hx hcomma hxs, hg, hgs⟩

end

end Trees

/-- The grammar, with commas behind last arguments, derives just the tokens of trees with grouped operands. -/
theorem expressionAt_iff {ts : List Token} :
    ExpressionAt (.free True) ts [] ↔ ∃ e : Expression, e.Grouped ∧ Yields e ts := by
  constructor
  · intro hx
    obtain ⟨e, vs, rfl, he, hg⟩ := hx.hasTree
    exact ⟨e, hg, (List.append_nil vs).symm ▸ he⟩
  · rintro ⟨e, hg, he⟩
    exact List.append_nil ts ▸ (he.derived (.free True) trivial [] hg).expression

/-- Whether some tokens are an operand: signs, and a literal, a name, a call or what is in parentheses. -/
def IsOperand (ts : List Token) : Prop := OperandAt (.free True) ts []

/-- Operands that binary operators join, in the order of the text. -/
structure OperandChain where
  first : List Token
  rest : List (Token × List Token)
  operand_first : IsOperand first
  operand_rest : ∀ p ∈ rest, p.1.kind ∈ Kind.binaryOperators ∧ IsOperand p.2

def joinedTokens (rest : List (Token × List Token)) : List Token := rest.flatMap fun p ↦ p.1 :: p.2

def OperandChain.tokens (s : OperandChain) : List Token := s.first ++ joinedTokens s.rest

theorem IsOperand.exists_tree {ts : List Token} (h : IsOperand ts) :
    ∃ e : Expression, Yields e ts ∧ e.Operand ∧ e.level? = none := by
  obtain ⟨e, vs, rfl, he⟩ := h.hasTree
  exact ⟨e, by simpa using he⟩

theorem exists_joined {first : List Token} {rest : List (Token × List Token)} (hfirst : IsOperand first)
    (hrest : ∀ p ∈ rest, p.1.kind ∈ Kind.binaryOperators ∧ IsOperand p.2) :
    ∃ e : Expression, Yields e (first ++ joinedTokens rest) ∧ e.Operand := by
  obtain ⟨x, hx, hoperand, hnone⟩ := hfirst.exists_tree
  induction rest generalizing first x with
  | nil => exact ⟨x, by simpa [joinedTokens] using hx, hoperand⟩
  | cons p rest ih =>
    obtain ⟨⟨hsign, hp⟩, hrest⟩ := List.forall_mem_cons.mp hrest
    obtain ⟨z, hz, hoperand', hnone'⟩ := hp.exists_tree
    obtain ⟨y, hy, hg⟩ := ih hp hrest z hz hoperand' hnone'
    obtain ⟨own, hown, -, -⟩ := exists_binaryLevel hsign
    exact ⟨_, Expression.yields_prepend hx hsign hy, hoperand.prepend hnone hown hg⟩

theorem OperandChain.exists_tree (s : OperandChain) : ∃ e : Expression, Yields e s.tokens ∧ e.Operand :=
  exists_joined s.operand_first s.operand_rest

end SmallScript.Tree
