import SmallScript.Proofs.Tree.Derivations

namespace SmallScript.Tree

open Token (Kind)
open Reader

/-- Whether a group that follows would make no call of what `D` derives: that is derived up to no token within
the group. -/
def Uncalled (D : List Token → Prop) (us : List Token) : Prop :=
  front us = .mark .openParenthesis → (∃ vs, OperandAt .documented us vs) ∧ ∀ vs, D vs → us.length ≤ vs.length

theorem Uncalled.imp {D D' : List Token → Prop} {us : List Token} (h : Uncalled D us) (hD : ∀ vs, D' vs → D vs) :
    Uncalled D' us :=
  fun hopen ↦ (h hopen).imp id fun hlongest vs hvs ↦ hlongest vs (hD vs hvs)

structure Ends (D : List Token → Prop) (us : List Token) : Prop where
  ne_nil : us ≠ []
  no_operator : (front us).binaryLevel? = none
  no_equals : front us ≠ .mark .equals
  uncalled : Uncalled D us

theorem Ends.imp {D D' : List Token → Prop} {us : List Token} (h : Ends D us) (hD : ∀ vs, D' vs → D vs) :
    Ends D' us :=
  ⟨h.ne_nil, h.no_operator, h.no_equals, h.uncalled.imp hD⟩

/-- A token that is no operand, no equals sign and no parenthesis ends any expression. -/
theorem Ends.of_front {D : List Token → Prop} {t : Token} {us : List Token} (h : t.kind.binaryLevel? = none)
    (h' : t.kind ≠ .mark .equals) (hopen : t.kind ≠ .mark .openParenthesis) : Ends D (t :: us) :=
  ⟨List.cons_ne_nil _ _, h, h', fun ho ↦ absurd ho hopen⟩

theorem exists_binaryLevel {k : Kind} (h : k ∈ Kind.binaryOperators) :
    ∃ own, k.binaryLevel? = some own ∧ 0 < own ∧ own ≤ 6 := by
  have hall : ∀ k ∈ Kind.binaryOperators, ∃ own ∈ [1, 2, 3, 4, 5], k.binaryLevel? = some own := by decide
  obtain ⟨own, hmem, hown⟩ := hall k h
  simp only [List.mem_cons, List.not_mem_nil, or_false] at hmem
  exact ⟨own, hown, by omega, by omega⟩

theorem unaryLevel_of_mem {k : Kind} (h : k ∈ Kind.unaryOperators) : k.unaryLevel? = some 6 := by
  have hall : ∀ k ∈ Kind.unaryOperators, k.unaryLevel? = some 6 := by decide
  exact hall k h

/-- What is left of a chain of operators up to some tokens: nothing, or an operator and the operands after it. -/
inductive Pending (us : List Token) : List Token → Prop
  | done : Pending us us
  | more {sign : Token} {ts : List Token} (hsign : sign.kind ∈ Kind.binaryOperators)
      (h : OperatorsAt .documented ts us) (hends : Ends (OperatorsAt .documented ts) us) : Pending us (sign :: ts)

/-- From some tokens on, a chain up to others is read as far as its operators bind tighter than `level`, and
fewer than `k` tokens are left. -/
def ReadsChain (r : Reader Expression) (level k : Nat) (ts us : List Token) : Prop :=
  ∃ x vs, Gives r ts x vs ∧ Pending us vs ∧ vs.length < k ∧
    ∀ own, (front vs).binaryLevel? = some own → own ≤ level

/-- What derivations of fewer than `k` tokens are read as. Each token allows for three steps of the depth. -/
structure ReadsBelow (k : Nat) : Prop where
  expression {n : Nat} {ts us : List Token} (hk : ts.length < k) (hx : ExpressionAt .documented ts us)
    (hus : Ends (ExpressionAt .documented ts) us) (hn : 3 * ts.length ≤ n + 1) :
    ∃ x, Gives (expression n) ts x us
  operators {n level : Nat} {ts us : List Token} (hk : ts.length < k) (hx : OperatorsAt .documented ts us)
    (hus : Ends (OperatorsAt .documented ts) us) (hlevel : level ≤ 6) (hn : 3 * ts.length ≤ n + 2) :
    ReadsChain (operators n level) level ts.length ts us
  arguments {n : Nat} {ts us : List Token} {closing : Token} (hk : ts.length < k)
    (hxs : ArgumentsAt .documented ts (closing :: us)) (hc : closing.kind = .mark .closeParenthesis)
    (hus : us ≠ []) (hn : 3 * ts.length ≤ n) : ∃ xs, Gives (arguments n) ts xs (closing :: us)

section Step

variable {k n m level : Nat} {ts us vs : List Token}

theorem ReadsChain.stop (hvs : Pending us vs) (hk : vs.length < k)
    (h : ∀ own, (front vs).binaryLevel? = some own → own ≤ level) (m : Nat) (x : Expression) :
    ReadsChain (joined m level x) level k vs us :=
  ⟨x, vs, gives_joined h m x, hvs, hk, h⟩

theorem ReadsBelow.join (h : ReadsBelow k) (x : Expression) (hvs : Pending us vs) (hne : us ≠ [])
    (hnone : (front us).binaryLevel? = none) (hk : vs.length ≤ k) (hm : 3 * vs.length ≤ m + 3) :
    ReadsChain (joined m level x) level (vs.length + 1) vs us := by
  -- The operand grows from step to step, so the induction is on the depth and not on the chain.
  induction m generalizing x vs with
  | zero =>
    cases hvs with
    | done => exact .stop .done (Nat.lt_add_one _) (by simp [hnone]) 0 x
    | more _ hchain _ =>
      have hlt := hchain.behind.2
      have hpos := List.length_pos_iff.mpr hne
      simp only [List.length_cons] at hm
      omega
  | succ m ih =>
    cases hvs with
    | done => exact .stop .done (Nat.lt_add_one _) (by simp [hnone]) (m + 1) x
    | @more sign ts hsign hchain hends =>
      obtain ⟨own, hown, -, hown6⟩ := exists_binaryLevel hsign
      simp only [List.length_cons] at hk hm
      by_cases hlevel : level < own
      · obtain ⟨y, ws, hy, hws, hshort, -⟩ := h.operators (n := m) (by omega) hchain hends hown6 (by omega)
        obtain ⟨z, vs, hz, hvs, hvs', hloose⟩ := ih (.binary x sign y) hws (by omega) (by omega)
        have hne' : ts ≠ [] := List.length_pos_iff.mp (by omega)
        refine ⟨z, vs, (joined_sign hown hlevel hne' hy).trans hz, hvs, ?_, hloose⟩
        simp only [List.length_cons]
        omega
      · refine .stop (.more hsign hchain hends) (Nat.lt_add_one _) (fun own' hown' ↦ ?_) (m + 1) x
        rw [front_cons, hown] at hown'
        obtain rfl := Option.some.inj hown'
        exact Nat.not_lt.mp hlevel

theorem OperandAt.unary_or {R : Rules} (h : OperandAt R ts us) :
    (∃ sign vs, ts = sign :: vs ∧ sign.kind ∈ Kind.unaryOperators ∧ OperandAt R vs us) ∨
      (front ts).unaryLevel? = none := by
  have hliteral : ∀ k ∈ literalKinds, k.unaryLevel? = none := by decide
  cases h with
  | unary hsign hx => exact .inl ⟨_, _, rfl, hsign, hx⟩
  | literal ht => exact .inr (hliteral _ ht)
  | name ht | call ht => exact .inr (by rw [front_cons, ht]; rfl)
  | group ho => exact .inr (by rw [front_cons, ho]; rfl)

/-- What a literal stands for, by its token. -/
def literalValue (t : Token) : Value :=
  match t.kind with
  | .word .trueValue => .bool true
  | .word .falseValue => .bool false
  | .string => t.value.getD (.string "")
  | _ => t.value.getD (.int 0)

theorem gives_primary_value {t : Token} (ht : t.kind ∈ literalKinds) (hts : ts ≠ []) (n : Nat) :
    Gives (primary (n + 1)) (t :: ts) (.literal t (literalValue t)) ts := by
  have hgives {f : Kind → Reader Expression} {value : Token → Value} (hvalue : value t = literalValue t)
      (hf : f t.kind = do
        let t ← advance
        return .literal t (value t)) : Gives (kind >>= f) (t :: ts) (.literal t (literalValue t)) ts := by
    refine .bind (.kind _) ?_
    rw [front_cons, hf, ← hvalue]
    exact .bind (.advance hts) (.pure _ _)
  simp only [literalKinds, List.mem_cons, List.not_mem_nil, or_false] at ht
  rcases ht with ht | ht | ht | ht <;> exact hgives (by rw [literalValue, ht]) (by rw [ht])

theorem front_ne_of_longest {t : Token} (ht : t.kind = .identifier)
    (hus : Uncalled (OperandAt .documented (t :: us)) us) : front us ≠ .mark .openParenthesis := by
  intro hopen
  obtain ⟨⟨vs, hgroup⟩, hlongest⟩ := hus hopen
  have hbehind := hgroup.behind.2
  cases hgroup with
  | group ho hx hc => exact absurd (hlongest vs (.call ht ho (.some (.last hx)) hc)) (Nat.not_le.mpr hbehind)
  | unary hsign =>
    rw [front_cons] at hopen
    rw [hopen] at hsign
    exact absurd hsign (by decide)
  | literal hl =>
    rw [front_cons] at hopen
    rw [hopen] at hl
    exact absurd hl (by decide)
  | name hname | call hname =>
    rw [front_cons, hname] at hopen
    nomatch hopen

theorem ReadsBelow.primary (h : ReadsBelow k) (hx : OperandAt .documented ts us)
    (hunary : (front ts).unaryLevel? = none) (hne : us ≠ []) (hus : Uncalled (OperandAt .documented ts) us)
    (hk : ts.length ≤ k) (hn : 3 * ts.length ≤ n + 3) : ∃ x, Gives (primary n) ts x us := by
  have hlt := hx.behind.2
  have hpos := List.length_pos_iff.mpr hne
  obtain ⟨n, rfl⟩ : ∃ m, n = m + 1 := ⟨n - 1, by omega⟩
  cases hx with
  | unary hsign =>
    rw [front_cons, unaryLevel_of_mem hsign] at hunary
    nomatch hunary
  | literal ht => exact ⟨_, gives_primary_value ht hne n⟩
  | name ht => exact ⟨_, gives_primary_name ht hne (front_ne_of_longest ht hus)⟩
  | @group opening closing ts _ ho hx hc =>
    have hlength := hx.behind.2
    simp only [List.length_cons] at hk hn hlength
    have hends : Ends (ExpressionAt .documented ts) (closing :: us) := by
      apply Ends.of_front <;> rw [hc] <;> decide
    obtain ⟨x, hx⟩ := h.expression (n := n) (by omega) hx hends (by omega)
    exact ⟨_, gives_primary_group ho (List.length_pos_iff.mp (by omega)) hx hc hne⟩
  | @call t opening closing ts _ ht ho hxs hc =>
    have hlength := hxs.suffix.length_le
    simp only [List.length_cons] at hk hn hlength
    obtain ⟨xs, hxs⟩ := h.arguments (n := n) (by omega) hxs hc hne (by omega)
    exact ⟨_, gives_primary_call ht ho (List.length_pos_iff.mp (by omega)) hxs hc hne⟩

theorem OperatorsAt.exists_operand (hx : OperatorsAt .documented ts us) (hus : Ends (OperatorsAt .documented ts) us) :
    ∃ vs, OperandAt .documented ts vs ∧ Pending us vs ∧ Uncalled (OperandAt .documented ts) vs := by
  cases hx with
  | operand hx => exact ⟨us, hx, .done, hus.uncalled.imp fun _ ↦ .operand⟩
  | @binary sign _ vs _ hx hsign hy =>
    refine ⟨sign :: vs, hx, .more hsign hy (hus.imp fun _ hvs ↦ .binary hx hsign hvs), fun hopen ↦ ?_⟩
    rw [front_cons] at hopen
    rw [hopen] at hsign
    exact absurd hsign (by decide)

theorem Pending.operators (h : Pending us vs) (hx : OperandAt .documented ts vs) : OperatorsAt .documented ts us := by
  cases h with
  | done => exact .operand hx
  | more hsign hy _ => exact .binary hx hsign hy

theorem Pending.ne_nil (h : Pending us vs) (hus : us ≠ []) : vs ≠ [] := by
  cases h with
  | done => exact hus
  | more => exact List.cons_ne_nil _ _

theorem ReadsBelow.chain (h : ReadsBelow k) (hk : ts.length ≤ k) (hx : OperatorsAt .documented ts us)
    (hus : Ends (OperatorsAt .documented ts) us) (hlevel : level ≤ 6) (hn : 3 * ts.length ≤ n + 2) :
    ReadsChain (Reader.operators n level) level ts.length ts us := by
  obtain ⟨vs, hoperand, hvs, huncalled⟩ := hx.exists_operand hus
  have hshort := hoperand.behind.2
  obtain ⟨n, rfl⟩ : ∃ m, n = m + 1 := ⟨n - 1, by omega⟩
  -- After the first operand, the rest of the chain is joined to it.
  have hjoin (r : Reader Expression) (x : Expression) (ws : List Token) (hws : Pending us ws)
      (hshort : ws.length < ts.length)
      (hr : r (.ofTokens ts) = Reader.joined n level x (.ofTokens ws)) : ReadsChain r level ts.length ts us := by
    have hjoined : ReadsChain (Reader.joined n level x) level (ws.length + 1) ws us :=
      h.join x hws hus.ne_nil hus.no_operator (by omega) (by omega)
    obtain ⟨y, ws', hy, hws', hless, hloose⟩ := hjoined
    exact ⟨y, ws', hr.trans hy, hws', by omega, hloose⟩
  rcases hoperand.unary_or with ⟨sign, ts', rfl, hsign, hx'⟩ | hunary
  · simp only [List.length_cons] at hk hn hshort
    have hends : Ends (OperatorsAt .documented ts') us := hus.imp fun _ hvs ↦ hvs.unary hsign
    obtain ⟨x, ws, hx, hws, hless, -⟩ :=
      h.operators (n := n) (by omega) (hvs.operators hx') hends (Nat.le_refl 6) (by omega)
    refine hjoin _ _ ws hws (Nat.lt_succ_of_lt hless) (operators_sign (unaryLevel_of_mem hsign) hlevel ?_ hx)
    exact List.length_pos_iff.mp (by omega)
  · obtain ⟨x, hx⟩ := h.primary (n := n) hoperand hunary (hvs.ne_nil hus.ne_nil) huncalled hk (by omega)
    exact hjoin _ x vs hvs hshort (operators_primary hunary hx)

theorem OperatorsAt.not_startsAssign {R : Rules} (hx : OperatorsAt R ts us) (hne : us ≠ [])
    (hus : front us ≠ .mark .equals) : ¬ StartsAssign ts := by
  have hoperand {vs : List Token} (hx : OperandAt R ts vs) (hne : vs ≠ []) (hvs : front vs ≠ .mark .equals) :
      ¬ StartsAssign ts := by
    rintro ⟨hname, hequals⟩
    cases hx with
    | unary hsign =>
      rw [front_cons] at hname
      rw [hname] at hsign
      exact absurd hsign (by decide)
    | literal ht =>
      rw [front_cons] at hname
      rw [hname] at ht
      exact absurd ht (by decide)
    | name => exact hvs (nextKind_ofTokens _ hne ▸ hequals)
    | group ho =>
      rw [front_cons, ho] at hname
      nomatch hname
    | call _ ho =>
      rw [nextKind_ofTokens _ (List.cons_ne_nil _ _), front_cons, ho] at hequals
      nomatch hequals
  cases hx with
  | operand hx => exact hoperand hx hne hus
  | binary hx hsign _ =>
    refine hoperand hx (List.cons_ne_nil _ _) fun hequals ↦ ?_
    rw [front_cons] at hequals
    rw [hequals] at hsign
    exact absurd hsign (by decide)

theorem ReadsBelow.whole (h : ReadsBelow k) (hk : ts.length ≤ k) (hx : ExpressionAt .documented ts us)
    (hus : Ends (ExpressionAt .documented ts) us) (hn : 3 * ts.length ≤ n + 1) :
    ∃ x, Gives (Reader.expression n) ts x us := by
  have hlt := hx.behind.2
  obtain ⟨n, rfl⟩ : ∃ m, n = m + 1 := ⟨n - 1, by omega⟩
  cases hx with
  | @assign t equals ts _ ht he hx _ =>
    simp only [List.length_cons] at hk hn
    have hends : Ends (ExpressionAt .documented ts) us := hus.imp fun _ hvs ↦ .assign ht he hvs trivial
    obtain ⟨x, hgives⟩ := h.expression (n := n) (by omega) hx hends (by omega)
    have hpos := hx.behind.2
    exact ⟨_, gives_expression_assign ht he (List.length_pos_iff.mp (by omega)) hgives⟩
  | operators hx _ =>
    have hends : Ends (OperatorsAt .documented ts) us := hus.imp fun _ hvs ↦ .operators hvs trivial
    obtain ⟨x, vs, hgives, hvs, -, hloose⟩ := h.chain (n := n) hk hx hends (Nat.zero_le 6) (by omega)
    cases hvs with
    | done => exact ⟨x, gives_expression_operators (hx.not_startsAssign hus.ne_nil hus.no_equals) hgives⟩
    | more hsign =>
      obtain ⟨own, hown, hpos, -⟩ := exists_binaryLevel hsign
      exact absurd (hloose own hown) (Nat.not_le.mpr hpos)

theorem ReadsBelow.all (h : ReadsBelow k) {closing : Token} (hk : ts.length ≤ k)
    (hxs : ArgumentsAt .documented ts (closing :: us)) (hc : closing.kind = .mark .closeParenthesis) (hne : us ≠ [])
    (hn : 3 * ts.length ≤ n) : ∃ xs, Gives (Reader.arguments n) ts xs (closing :: us) := by
  cases hxs with
  | none => exact ⟨[], gives_arguments_nil (by rw [front_cons, hc]) n⟩
  | some hxs =>
    have hlt := hxs.behind.2
    obtain ⟨n, rfl⟩ : ∃ m, n = m + 1 := ⟨n - 1, by omega⟩
    cases hxs with
    | trailing hR => exact hR.elim
    | last hx =>
      have hends : Ends (ExpressionAt .documented ts) (closing :: us) := by
        apply Ends.of_front <;> rw [hc] <;> decide
      obtain ⟨x, hgives⟩ := h.whole (n := n) hk hx hends (by omega)
      exact ⟨_, gives_arguments_last hx.front_mem hgives (by rw [front_cons, hc]; decide)⟩
    | @cons comma _ vs _ hx hcomma hxs =>
      have hends : Ends (ExpressionAt .documented ts) (comma :: vs) := by
        apply Ends.of_front <;> rw [hcomma] <;> decide
      have hshort := hx.behind.2
      simp only [List.length_cons] at hshort
      obtain ⟨x, hgives⟩ := h.whole (n := n) hk hx hends (by omega)
      obtain ⟨xs, hrest⟩ := h.arguments (n := n) (by omega) (.some hxs) hc hne (by omega)
      have hpos := hxs.behind.2
      exact ⟨_, gives_arguments_cons hx.front_mem hgives hcomma (List.length_pos_iff.mp (by omega)) hrest⟩

end Step

theorem readsBelow (k : Nat) : ReadsBelow k := by
  induction k with
  | zero => exact ⟨fun hk ↦ absurd hk (Nat.not_lt_zero _), fun hk ↦ absurd hk (Nat.not_lt_zero _),
      fun hk ↦ absurd hk (Nat.not_lt_zero _)⟩
  | succ k ih =>
    exact ⟨fun hk ↦ ih.whole (Nat.le_of_lt_succ hk), fun hk ↦ ih.chain (Nat.le_of_lt_succ hk),
      fun hk ↦ ih.all (Nat.le_of_lt_succ hk)⟩

theorem ExpressionAt.gives {ts us : List Token} (hx : ExpressionAt .documented ts us)
    (hus : Ends (ExpressionAt .documented ts) us) : ∃ x, Gives wholeExpression ts x us := by
  have hlt := hx.behind.2
  obtain ⟨x, hgives⟩ := (readsBelow ts.length).whole (n := 3 * (ts.length - 1) + 3) (Nat.le_refl _) hx hus (by omega)
  exact ⟨x, gives_wholeExpression hgives⟩

end SmallScript.Tree
