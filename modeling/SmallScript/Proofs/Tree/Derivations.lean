import Mathlib.Data.List.Chain
import SmallScript.Proofs.Tree.Grammar

namespace SmallScript.Tree

open Token (Kind)

def Behind (us ts : List Token) : Prop := us <:+ ts ∧ us.length < ts.length

namespace Behind

variable {t : Token} {ts us vs : List Token}

theorem tail (t : Token) (us : List Token) : Behind us (t :: us) := ⟨List.suffix_cons _ _, Nat.lt_add_one _⟩

theorem trans (h : Behind vs us) (h' : Behind us ts) : Behind vs ts := ⟨h.1.trans h'.1, Nat.lt_trans h.2 h'.2⟩

theorem trans_suffix (h : Behind vs us) (h' : us <:+ ts) : Behind vs ts :=
  ⟨h.1.trans h', Nat.lt_of_lt_of_le h.2 h'.length_le⟩

theorem of_suffix (h : t :: us <:+ ts) : Behind us ts :=
  ⟨(List.suffix_cons _ _).trans h, Nat.lt_of_lt_of_le (Nat.lt_add_one _) h.length_le⟩

theorem cons (h : Behind us ts) (t : Token) : Behind us (t :: ts) := h.trans (tail t ts)

theorem of_cons (h : Behind (t :: us) ts) : Behind us ts := (tail t us).trans h

end Behind

section Behind

variable {R : Rules} {ts us : List Token}

mutual

theorem ExpressionAt.behind {ts us : List Token} : ExpressionAt R ts us → Behind us ts
  | .assign _ _ hx _ => (hx.behind.cons _).cons _
  | .operators hx _ => hx.behind

theorem OperatorsAt.behind {ts us : List Token} : OperatorsAt R ts us → Behind us ts
  | .operand hx => hx.behind
  | .binary hx _ hy => hy.behind.trans hx.behind.of_cons

theorem OperandAt.behind {ts us : List Token} : OperandAt R ts us → Behind us ts
  | .unary _ hx => hx.behind.cons _
  | .literal _ | .name _ => .tail _ _
  | .group _ hx _ => hx.behind.of_cons.cons _
  | .call _ _ hxs _ => ((Behind.of_suffix hxs.suffix).cons _).cons _

theorem ArgumentsAt.suffix {ts us : List Token} : ArgumentsAt R ts us → us <:+ ts
  | .none => List.suffix_refl _
  | .some hxs => hxs.behind.1

theorem ArgumentListAt.behind {ts us : List Token} : ArgumentListAt R ts us → Behind us ts
  | .last hx => hx.behind
  | .trailing _ hx _ => hx.behind.of_cons
  | .cons hx _ hxs => hxs.behind.trans hx.behind.of_cons

end

theorem TypeClauseAt.behind (h : TypeClauseAt ts us) : Behind us ts := by
  cases h with
  | mk => exact (Behind.tail _ _).cons _

theorem TypeClause?At.suffix (h : TypeClause?At ts us) : us <:+ ts := by
  cases h with
  | none => exact List.suffix_refl _
  | some h => exact h.behind.1

mutual

theorem StatementAt.behind {ts us : List Token} : StatementAt R ts us → Behind us ts
  | .block _ hs _ => (Behind.of_suffix hs.suffix).cons _
  | .declare _ _ hclause _ hx => ((hx.behind.trans (.of_suffix hclause.suffix)).cons _).cons _
  | .ifThen _ hx hs _ | .whileLoop _ hx hs => (hs.behind.trans hx.behind).cons _
  | .ifElse _ hx hs _ hs' => (hs'.behind.trans (hs.behind.of_cons.trans hx.behind)).cons _
  | .doLoop _ hs _ hx => (hx.behind.trans hs.behind.of_cons).cons _
  | .forLoop _ _ _ hx _ hy hs => (((hs.behind.trans (hy.behind.trans hx.behind.of_cons)).cons _).cons _).cons _
  | .breakLoop _ | .continueLoop _ | .leave _ _ => .tail _ _
  | .leaveWith _ hx _ => hx.behind.cons _
  | .expression hx => hx.behind

theorem StatementsAt.suffix {ts us : List Token} : StatementsAt R ts us → us <:+ ts
  | .nil => List.suffix_refl _
  | .cons hs hss => hss.suffix.trans hs.behind.1

end

theorem BlockAt.behind (h : BlockAt R ts us) : Behind us ts := by
  cases h with
  | mk _ hs _ => exact (Behind.of_suffix hs.suffix).cons _

theorem ParameterAt.behind (h : ParameterAt ts us) : Behind us ts := by
  cases h with
  | mk _ hclause => exact hclause.behind.cons _

theorem ParameterListAt.behind (h : ParameterListAt R ts us) : Behind us ts := by
  induction h with
  | last h => exact h.behind
  | trailing _ h _ => exact h.behind.of_cons
  | cons h _ _ ih => exact ih.trans h.behind.of_cons

theorem ParametersAt.suffix (h : ParametersAt R ts us) : us <:+ ts := by
  cases h with
  | none => exact List.suffix_refl _
  | some h => exact h.behind.1

theorem MemberAt.behind (h : MemberAt R ts us) : Behind us ts := by
  cases h with
  | statement h => exact h.behind
  | function h =>
    obtain ⟨-, -, -, hparameters, -, hclause, hbody⟩ := h
    have hbehind := (hbody.behind.trans_suffix hclause.suffix).trans (.of_suffix hparameters.suffix)
    exact ((hbehind.cons _).cons _).cons _

theorem OperandAt.front_mem (h : OperandAt R ts us) : front ts ∈ expressionFronts := by
  have hunary : ∀ k ∈ Kind.unaryOperators, k ∈ expressionFronts := by decide
  have hliteral : ∀ k ∈ literalKinds, k ∈ expressionFronts := by decide
  cases h with
  | unary hsign => exact hunary _ hsign
  | literal ht => exact hliteral _ ht
  | name ht | call ht =>
    rw [front_cons, ht]
    decide
  | group ho =>
    rw [front_cons, ho]
    decide

theorem ExpressionAt.front_mem (h : ExpressionAt R ts us) : front ts ∈ expressionFronts := by
  cases h with
  | assign ht =>
    rw [front_cons, ht]
    decide
  | operators hx =>
    cases hx with
    | operand hx | binary hx => exact hx.front_mem

end Behind

theorem OperatorsAt.unary {R : Rules} {sign : Token} {ts us : List Token}
    (hsign : sign.kind ∈ Kind.unaryOperators) (h : OperatorsAt R ts us) : OperatorsAt R (sign :: ts) us := by
  cases h with
  | operand hx => exact .operand (.unary hsign hx)
  | binary hx hbinary hy => exact .binary (.unary hsign hx) hbinary hy

theorem OperatorsAt.trans_of_eq {R : Rules} {sign : Token} {us vs : List Token}
    (hsign : sign.kind ∈ Kind.binaryOperators) (hy : OperatorsAt R us vs) {ts ws : List Token} :
    OperatorsAt R ts ws → ws = sign :: us → OperatorsAt R ts vs
  | .operand hx, hws => .binary (hws ▸ hx) hsign hy
  | .binary hx hbinary hz, hws => .binary hx hbinary (trans_of_eq hsign hy hz hws)

theorem OperatorsAt.trans {R : Rules} {sign : Token} {ts us vs : List Token}
    (hx : OperatorsAt R ts (sign :: us)) (hsign : sign.kind ∈ Kind.binaryOperators) (hy : OperatorsAt R us vs) :
    OperatorsAt R ts vs :=
  trans_of_eq hsign hy hx rfl

mutual

theorem ExpressionAt.free {R : Rules} {ts us : List Token} :
    ExpressionAt R ts us → ExpressionAt (.free R.trailingComma) ts us
  | .assign ht he hx _ => .assign ht he hx.free trivial
  | .operators hx _ => .operators hx.free trivial

theorem OperatorsAt.free {R : Rules} {ts us : List Token} :
    OperatorsAt R ts us → OperatorsAt (.free R.trailingComma) ts us
  | .operand hx => .operand hx.free
  | .binary hx hsign hy => .binary hx.free hsign hy.free

theorem OperandAt.free {R : Rules} {ts us : List Token} :
    OperandAt R ts us → OperandAt (.free R.trailingComma) ts us
  | .unary hsign hx => .unary hsign hx.free
  | .literal ht => .literal ht
  | .name ht => .name ht
  | .group ho hx hc => .group ho hx.free hc
  | .call ht ho hxs hc => .call ht ho hxs.free hc

theorem ArgumentsAt.free {R : Rules} {ts us : List Token} :
    ArgumentsAt R ts us → ArgumentsAt (.free R.trailingComma) ts us
  | .none => .none
  | .some hxs => .some hxs.free

theorem ArgumentListAt.free {R : Rules} {ts us : List Token} :
    ArgumentListAt R ts us → ArgumentListAt (.free R.trailingComma) ts us
  | .last hx => .last hx.free
  | .trailing hR hx hcomma => .trailing hR hx.free hcomma
  | .cons hx hcomma hxs => .cons hx.free hcomma hxs.free

end

structure Admits (R : Rules) (P : Token → Token → Prop) : Prop where
  other : ∀ t u, t.kind ≠ .mark .comma → t.kind ≠ .word .returnValue → P t u
  item : ∀ t u, u.kind ∈ expressionFronts → P t u
  trailing : R.trailingComma → ∀ t u, t.kind = .mark .comma → P t u
  bare : ∀ t u us, t.kind = .word .returnValue → R.bare (u :: us) → P t u

namespace Admits

variable {R : Rules} {P : Token → Token → Prop} {t : Token} {ts us : List Token} {k : Kind}

theorem cons_other (h : Admits R P) (hts : ts.IsChain P) (ht : t.kind = k)
    (hk : k ≠ .mark .comma ∧ k ≠ .word .returnValue) : (t :: ts).IsChain P :=
  List.isChain_cons.mpr ⟨fun u _ ↦ h.other t u (ht ▸ hk.1) (ht ▸ hk.2), hts⟩

theorem cons_mem (h : Admits R P) (hts : ts.IsChain P) {ks : List Kind} (ht : t.kind ∈ ks)
    (hks : ∀ k ∈ ks, k ≠ .mark .comma ∧ k ≠ .word .returnValue) : (t :: ts).IsChain P :=
  h.cons_other hts rfl (hks _ ht)

theorem cons_item (h : Admits R P) (hts : ts.IsChain P) (hfront : front ts ∈ expressionFronts) :
    (t :: ts).IsChain P := by
  refine List.isChain_cons.mpr ⟨fun u hu ↦ h.item t u ?_, hts⟩
  cases ts with
  | nil => nomatch hu
  | cons v ts =>
    obtain rfl := Option.some.inj hu
    exact hfront

theorem cons_trailing (h : Admits R P) (hts : ts.IsChain P) (hR : R.trailingComma)
    (ht : t.kind = .mark .comma) : (t :: ts).IsChain P :=
  List.isChain_cons.mpr ⟨fun u _ ↦ h.trailing hR t u ht, hts⟩

theorem cons_bare (h : Admits R P) (hts : ts.IsChain P) (hR : R.bare ts)
    (ht : t.kind = .word .returnValue) : (t :: ts).IsChain P := by
  refine List.isChain_cons.mpr ⟨fun u hu ↦ ?_, hts⟩
  cases ts with
  | nil => nomatch hu
  | cons v ts =>
    obtain rfl := Option.some.inj hu
    exact h.bare t v ts ht hR

end Admits

section Chain

variable {R : Rules} {P : Token → Token → Prop} {ts us : List Token}

mutual

theorem ExpressionAt.isChain {ts us : List Token} (h : Admits R P) :
    ExpressionAt R ts us → us.IsChain P → ts.IsChain P
  | .assign ht he hx _, hus => h.cons_other (h.cons_other (hx.isChain h hus) he (by decide)) ht (by decide)
  | .operators hx _, hus => hx.isChain h hus

theorem OperatorsAt.isChain {ts us : List Token} (h : Admits R P) :
    OperatorsAt R ts us → us.IsChain P → ts.IsChain P
  | .operand hx, hus => hx.isChain h hus
  | .binary hx hsign hy, hus => hx.isChain h (h.cons_mem (hy.isChain h hus) hsign (by decide))

theorem OperandAt.isChain {ts us : List Token} (h : Admits R P) :
    OperandAt R ts us → us.IsChain P → ts.IsChain P
  | .unary hsign hx, hus => h.cons_mem (hx.isChain h hus) hsign (by decide)
  | .literal ht, hus => h.cons_mem hus ht (by decide)
  | .name ht, hus => h.cons_other hus ht (by decide)
  | .group ho hx hc, hus => h.cons_other (hx.isChain h (h.cons_other hus hc (by decide))) ho (by decide)
  | .call ht ho hxs hc, hus =>
    h.cons_other (h.cons_other (hxs.isChain h (h.cons_other hus hc (by decide))) ho (by decide)) ht (by decide)

theorem ArgumentsAt.isChain {ts us : List Token} (h : Admits R P) :
    ArgumentsAt R ts us → us.IsChain P → ts.IsChain P
  | .none, hus => hus
  | .some hxs, hus => (hxs.isChain h hus).1

theorem ArgumentListAt.isChain {ts us : List Token} (h : Admits R P) : ArgumentListAt R ts us → us.IsChain P →
    ts.IsChain P ∧ front ts ∈ expressionFronts
  | .last hx, hus => ⟨hx.isChain h hus, hx.front_mem⟩
  | .trailing hR hx hcomma, hus => ⟨hx.isChain h (h.cons_trailing hus hR hcomma), hx.front_mem⟩
  | .cons hx _ hxs, hus => ⟨hx.isChain h (h.cons_item (hxs.isChain h hus).1 (hxs.isChain h hus).2), hx.front_mem⟩

end

theorem TypeClauseAt.isChain (h : Admits R P) (hclause : TypeClauseAt ts us) (hus : us.IsChain P) : ts.IsChain P := by
  obtain ⟨hcolon, ht⟩ := hclause
  exact h.cons_other (h.cons_other hus ht (by decide)) hcolon (by decide)

theorem TypeClause?At.isChain (h : Admits R P) (hclause : TypeClause?At ts us) (hus : us.IsChain P) : ts.IsChain P := by
  cases hclause with
  | none => exact hus
  | some hclause => exact hclause.isChain h hus

mutual

theorem StatementAt.isChain {ts us : List Token} (h : Admits R P) :
    StatementAt R ts us → us.IsChain P → ts.IsChain P
  | .block ho hs hc, hus => h.cons_other (hs.isChain h (h.cons_other hus hc (by decide))) ho (by decide)
  | .declare hk ht hclause he hx, hus => by
    have hequals := hclause.isChain h (h.cons_other (hx.isChain h hus) he (by decide))
    rcases hk with hk | hk <;> exact h.cons_other (h.cons_other hequals ht (by decide)) hk (by decide)
  | .ifThen hk hx hs _, hus => h.cons_other (hx.isChain h (hs.isChain h hus)) hk (by decide)
  | .ifElse hk hx hs helse hs', hus =>
    h.cons_other (hx.isChain h (hs.isChain h (h.cons_other (hs'.isChain h hus) helse (by decide)))) hk (by decide)
  | .whileLoop hk hx hs, hus => h.cons_other (hx.isChain h (hs.isChain h hus)) hk (by decide)
  | .doLoop hk hs hwhile hx, hus =>
    h.cons_other (hs.isChain h (h.cons_other (hx.isChain h hus) hwhile (by decide))) hk (by decide)
  | .forLoop hk ht he hx hto hy hs, hus => by
    have hupper := h.cons_other (hy.isChain h (hs.isChain h hus)) hto (by decide)
    exact h.cons_other (h.cons_other (h.cons_other (hx.isChain h hupper) he (by decide)) ht (by decide)) hk
      (by decide)
  | .breakLoop hk, hus | .continueLoop hk, hus => h.cons_other hus hk (by decide)
  | .leave hk hR, hus => h.cons_bare hus hR hk
  | .leaveWith _ hx _, hus => h.cons_item (hx.isChain h hus) hx.front_mem
  | .expression hx, hus => hx.isChain h hus

theorem StatementsAt.isChain {ts us : List Token} (h : Admits R P) :
    StatementsAt R ts us → us.IsChain P → ts.IsChain P
  | .nil, hus => hus
  | .cons hs hss, hus => hs.isChain h (hss.isChain h hus)

end

theorem ParameterAt.isChain (h : Admits R P) (hp : ParameterAt ts us) (hus : us.IsChain P) :
    ts.IsChain P ∧ front ts ∈ expressionFronts := by
  obtain ⟨ht, hclause⟩ := hp
  exact ⟨h.cons_other (hclause.isChain h hus) ht (by decide), by rw [front_cons, ht]; decide⟩

theorem ParameterListAt.isChain (h : Admits R P) (hp : ParameterListAt R ts us) (hus : us.IsChain P) :
    ts.IsChain P ∧ front ts ∈ expressionFronts := by
  induction hp with
  | last hp => exact hp.isChain h hus
  | trailing hR hp hcomma => exact hp.isChain h (h.cons_trailing hus hR hcomma)
  | cons hp _ _ ih =>
    obtain ⟨hrest, hfront⟩ := ih hus
    exact hp.isChain h (h.cons_item hrest hfront)

theorem ParametersAt.isChain (h : Admits R P) (hps : ParametersAt R ts us) (hus : us.IsChain P) : ts.IsChain P := by
  cases hps with
  | none => exact hus
  | some hps => exact (hps.isChain h hus).1

theorem MemberAt.isChain (h : Admits R P) (hm : MemberAt R ts us) (hus : us.IsChain P) : ts.IsChain P := by
  cases hm with
  | statement hs => exact hs.isChain h hus
  | function hf =>
    obtain ⟨hk, ht, ho, hparameters, hc, hclause, hopen, hs, hclose⟩ := hf
    have hbody := h.cons_other (hs.isChain h (h.cons_other hus hclose (by decide))) hopen (by decide)
    have hclosing := h.cons_other (hclause.isChain h hbody) hc (by decide)
    have hall := hparameters.isChain h hclosing
    exact h.cons_other (h.cons_other (h.cons_other hall ho (by decide)) ht (by decide)) hk (by decide)

/-- In a text that is derived, any two tokens side by side are such as the rules allow. -/
theorem IsUnit.isChain (h : Admits R P) (hts : IsUnit R ts) : ts.IsChain P := by
  obtain ⟨finish, hmembers, -⟩ := hts
  generalize hlast : [finish] = last at hmembers
  induction hmembers with
  | nil => exact hlast ▸ List.isChain_singleton finish
  | cons hm _ ih => exact hm.isChain h (ih hlast)

end Chain

end SmallScript.Tree
