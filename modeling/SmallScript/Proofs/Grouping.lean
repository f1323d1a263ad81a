import SmallScript.Proofs.Tree.Yields

namespace SmallScript.Tree

open Token (Kind)
open Reader

/-- Whether some tokens go on with no expression before them. -/
structure EndsAny (us : List Token) : Prop where
  ne_nil : us ≠ []
  no_operator : (front us).binaryLevel? = none
  no_equals : front us ≠ .mark .equals
  no_call : front us ≠ .mark .openParenthesis

theorem EndsAny.of_kind {t : Token} {us : List Token} {k : Kind} (h : t.kind = k)
    (hk : k.binaryLevel? = none ∧ k ≠ .mark .equals ∧ k ≠ .mark .openParenthesis) : EndsAny (t :: us) :=
  ⟨List.cons_ne_nil _ _, by rw [front_cons, h]; exact hk.1, by rw [front_cons, h]; exact hk.2.1,
    by rw [front_cons, h]; exact hk.2.2⟩

/-- Whether an operand ends before some tokens: no arguments follow, and no operator that binds more tightly
than its own. -/
structure Expression.EndsBefore (e : Expression) (us : List Token) : Prop where
  ne_nil : us ≠ []
  no_call : front us ≠ .mark .openParenthesis
  precedes : e.Precedes (front us)

theorem EndsAny.operand {us : List Token} (h : EndsAny us) (e : Expression) : e.EndsBefore us := by
  refine ⟨h.ne_nil, h.no_call, fun _ _ own hown ↦ ?_⟩
  rw [h.no_operator] at hown
  nomatch hown

/-- Where a tree's tokens are read as an operand, the tree is given to be joined with what follows. Each token
allows for three steps of the depth. -/
def ReadsOperandAs (e : Expression) : Prop :=
  ∀ ⦃level n : Nat⦄ ⦃ts us : List Token⦄, level ≤ 6 → e.Tighter level → Yields e ts → e.EndsBefore us →
    3 * (ts ++ us).length ≤ n + 2 →
      ∃ m, operators n level (.ofTokens (ts ++ us)) = joined m level e (.ofTokens us) ∧ 3 * us.length ≤ m + 3

def ReadsAs (e : Expression) : Prop :=
  ∀ ⦃n : Nat⦄ ⦃ts us : List Token⦄, Yields e ts → EndsAny us → 3 * (ts ++ us).length ≤ n + 1 →
    Gives (expression n) (ts ++ us) e us

def ReadsAllAs (es : List Expression) : Prop :=
  ∀ ⦃n : Nat⦄ ⦃ts us : List Token⦄ ⦃closing : Token⦄, AllYield es ts → closing.kind = .mark .closeParenthesis →
    us ≠ [] → 3 * (ts ++ closing :: us).length ≤ n →
      Gives (arguments n) (ts ++ closing :: us) es (closing :: us)

section Parts

variable {e x y : Expression} {xs : List Expression} {sign : Token} {ts us : List Token}

theorem Yields.derives (h : Yields e ts) (hg : e.Grouped) (us : List Token) :
    DerivesExpression (.free True) e (ts ++ us) us :=
  h.derived (.free True) trivial us hg

theorem Yields.length_pos (h : Yields e ts) (hg : e.Grouped) : 0 < ts.length := by
  have hlt := (h.derives hg []).expression.behind.2
  rwa [List.append_nil] at hlt

theorem ReadsOperandAs.of_primary (hunsigned : ∀ ts us, Yields e ts → (front (ts ++ us)).unaryLevel? = none)
    (h : ∀ ⦃n : Nat⦄ ⦃ts us : List Token⦄, Yields e ts → us ≠ [] → front us ≠ .mark .openParenthesis →
      3 * (ts ++ us).length ≤ n + 4 → Gives (primary (n + 1)) (ts ++ us) e us)
    (hg : e.Grouped) : ReadsOperandAs e := by
  intro level n ts us _ _ hyields hends hn
  have hpos := hyields.length_pos hg
  have hpos' := List.length_pos_iff.mpr hends.ne_nil
  have hlength : (ts ++ us).length = ts.length + us.length := List.length_append
  obtain ⟨n, rfl⟩ : ∃ m, n = m + 2 := ⟨n - 2, by omega⟩
  have hprimary := h hyields hends.ne_nil hends.no_call (by omega : _ ≤ n + 4)
  exact ⟨n + 1, operators_primary (hunsigned ts us hyields) hprimary, by omega⟩

theorem readsOperandAs_literal (t : Token) (v : Value) : ReadsOperandAs (.literal t v) := by
  have hliteral : ∀ k ∈ literalKinds, k.unaryLevel? = none := by decide
  refine .of_primary (fun ts us h ↦ ?_) (fun n ts us h hus _ _ ↦ ?_) trivial
  · cases h with
    | literal ht => exact hliteral _ ht
  · cases h with
    | literal ht => exact gives_primary_value ht hus n

theorem readsOperandAs_name (t : Token) : ReadsOperandAs (.name t) := by
  refine .of_primary (fun ts us h ↦ ?_) (fun n ts us h hus hcall _ ↦ ?_) trivial
  · cases h with
    | name ht => rw [List.cons_append, front_cons, ht]; rfl
  · cases h with
    | name ht => exact gives_primary_name ht hus hcall

theorem ReadsAs.group (h : ReadsAs x) (hg : x.Grouped) (opening closing : Token) :
    ReadsOperandAs (.group opening x closing) := by
  refine .of_primary (fun ts us h ↦ ?_) (fun n ts us hyields hus _ hn ↦ ?_) hg
  · cases h with
    | group ho => rw [List.cons_append, List.cons_append, front_cons, ho]; rfl
  · cases hyields with
    | @group _ _ _ ts ho hx hc =>
      have hends : EndsAny (closing :: us) := .of_kind hc (by decide)
      rw [show opening :: ts ++ [closing] ++ us = opening :: (ts ++ closing :: us) by simp] at hn ⊢
      rw [List.length_cons] at hn
      exact gives_primary_group ho (by simp) (h hx hends (by omega)) hc hus

theorem ReadsAllAs.call (h : ReadsAllAs xs) (hg : AllGrouped xs) (t opening closing : Token) :
    ReadsOperandAs (.call t opening xs closing) := by
  refine .of_primary (fun ts us h ↦ ?_) (fun n ts us hyields hus _ hn ↦ ?_) hg
  · cases h with
    | call ht => rw [List.cons_append, List.cons_append, front_cons, ht]; rfl
  · cases hyields with
    | @call _ _ _ _ ts ht ho hxs hc =>
      rw [show t :: opening :: ts ++ [closing] ++ us = t :: opening :: (ts ++ closing :: us) by simp] at hn ⊢
      rw [List.length_cons, List.length_cons] at hn
      exact gives_primary_call ht ho (by simp) (h hxs hc hus (by omega)) hc hus

theorem ReadsOperandAs.unary (h : ReadsOperandAs x) (hg : x.Grouped) (hnone : x.level? = none) (sign : Token) :
    ReadsOperandAs (.unary sign x) := by
  intro level n ts us hlevel _ hyields hends hn
  cases hyields with
  | @unary _ _ ts hsign hx =>
    rw [List.cons_append] at hn ⊢
    rw [List.length_cons] at hn
    have hpos := hx.length_pos hg
    have hlength : (ts ++ us).length = ts.length + us.length := List.length_append
    obtain ⟨n, rfl⟩ : ∃ m, n = m + 1 := ⟨n - 1, by omega⟩
    have hoperand : x.EndsBefore us := ⟨hends.ne_nil, hends.no_call, .of_none hnone⟩
    obtain ⟨m, hm, -⟩ := h (Nat.le_refl 6) (.of_none hnone) hx hoperand (by omega : _ ≤ n + 2)
    -- No operator binds more tightly than the sign, so its operand ends here.
    have hstops : ∀ own, (front us).binaryLevel? = some own → own ≤ 6 := fun own hown ↦
      Nat.le_of_lt (Kind.binaryLevel?_lt_unaryLevel? hown (unaryLevel_of_mem hsign))
    have hgives : Gives (operators n 6) (ts ++ us) x us := hm.trans (gives_joined hstops m x)
    exact ⟨n, operators_sign (unaryLevel_of_mem hsign) hlevel (by simp [hends.ne_nil]) hgives, by omega⟩

/-- The operator after the left operand goes on with it, and the one after the right operand with the whole. -/
theorem ReadsOperandAs.binary (h : ReadsOperandAs x) (h' : ReadsOperandAs y)
    (hg : (Expression.binary x sign y).Grouped) : ReadsOperandAs (.binary x sign y) := by
  obtain ⟨-, -, ⟨own, hown, hle, hlt⟩, -, hgy⟩ := hg
  intro level n ts us hlevel htighter hyields hends hn
  cases hyields with
  | @binary _ _ _ ts vs hx hsign hy =>
    have hlevel' : level < own := htighter own hown
    obtain ⟨own', hown', -, hsix⟩ := exists_binaryLevel hsign
    obtain rfl := Option.some.inj (hown.symm.trans hown')
    have hstops : ∀ own', (front us).binaryLevel? = some own' → own' ≤ own := hends.precedes own hown
    have hleft : x.EndsBefore (sign :: (vs ++ us)) := by
      refine ⟨List.cons_ne_nil _ _, fun hcall ↦ ?_, fun inner hinner own' hown' ↦ ?_⟩
      · rw [front_cons] at hcall
        rw [hcall] at hown
        nomatch hown
      · obtain rfl := Option.some.inj (hown.symm.trans hown')
        exact hle inner hinner
    have hright : y.EndsBefore us :=
      ⟨hends.ne_nil, hends.no_call, fun inner hinner own' hown' ↦
        Nat.le_trans (hstops own' hown') (Nat.le_of_lt (hlt inner hinner))⟩
    rw [List.append_assoc, List.cons_append] at hn ⊢
    obtain ⟨m, hm, hdepth⟩ :=
      h hlevel (fun inner hinner ↦ Nat.lt_of_lt_of_le hlevel' (hle inner hinner)) hx hleft hn
    have hpos := hy.length_pos hgy
    have hlength : (vs ++ us).length = vs.length + us.length := List.length_append
    rw [List.length_cons] at hdepth
    obtain ⟨m, rfl⟩ : ∃ k, m = k + 1 := ⟨m - 1, by omega⟩
    obtain ⟨k, hk, -⟩ := h' hsix hlt hy hright (by omega : _ ≤ m + 2)
    have hgives : Gives (operators m own) (vs ++ us) y us := hk.trans (gives_joined hstops k y)
    exact ⟨m, hm.trans (joined_sign hown hlevel' (by simp [hends.ne_nil]) hgives), by omega⟩

theorem ReadsOperandAs.whole (h : ReadsOperandAs e) (he : e.Operand) : ReadsAs e := by
  intro n ts us hyields hends hn
  have hpos := hyields.length_pos he.grouped
  have hlength : (ts ++ us).length = ts.length + us.length := List.length_append
  obtain ⟨n, rfl⟩ : ∃ m, n = m + 1 := ⟨n - 1, by omega⟩
  have htighter : e.Tighter 0 := by
    intro inner hinner
    cases e with
    | binary left sign right =>
      cases hyields with
      | binary _ hsign _ =>
        obtain ⟨own, hown, hpos, -⟩ := exists_binaryLevel hsign
        exact Option.some.inj (hown.symm.trans hinner) ▸ hpos
    | _ => nomatch hinner
  obtain ⟨m, hm, -⟩ := h (Nat.zero_le 6) htighter hyields (hends.operand e) (by omega : _ ≤ n + 2)
  have hstops : ∀ own, (front us).binaryLevel? = some own → own ≤ 0 := by
    intro own hown
    rw [hends.no_operator] at hown
    nomatch hown
  have hderived := (hyields.derives he.grouped us).operators he.not_assign
  exact gives_expression_operators (hderived.not_startsAssign hends.ne_nil hends.no_equals)
    (hm.trans (gives_joined hstops m e))

theorem ReadsAs.assign (h : ReadsAs x) (t equals : Token) : ReadsAs (.assign t equals x) := by
  intro n ts us hyields hends hn
  cases hyields with
  | @assign _ _ _ ts ht he hx =>
    rw [List.cons_append, List.cons_append] at hn ⊢
    rw [List.length_cons, List.length_cons] at hn
    obtain ⟨n, rfl⟩ : ∃ m, n = m + 1 := ⟨n - 1, by omega⟩
    exact gives_expression_assign ht he (by simp [hends.ne_nil]) (h hx hends (by omega))

theorem readsAllAs_nil : ReadsAllAs [] := by
  intro n ts us closing hyields hc _ _
  cases hyields with
  | nil => exact gives_arguments_nil (by rw [List.nil_append, front_cons, hc]) n

theorem ReadsAllAs.cons (h : ReadsAs x) (hs : ReadsAllAs xs) (hg : x.Grouped) : ReadsAllAs (x :: xs) := by
  intro n ts us closing hyields hc hus hn
  cases hyields with
  | last hx =>
    have hfront := (hx.derives hg (closing :: us)).expression.front_mem
    have hpos := hx.length_pos hg
    have hends : EndsAny (closing :: us) := .of_kind hc (by decide)
    obtain ⟨n, rfl⟩ : ∃ m, n = m + 1 := ⟨n - 1, by rw [List.length_append] at hn; omega⟩
    exact gives_arguments_last hfront (h hx hends (by omega)) (by rw [front_cons, hc]; decide)
  | @cons _ _ comma ts vs hx hcomma hxs =>
    rw [List.append_assoc, List.cons_append] at hn ⊢
    have hfront := (hx.derives hg (comma :: (vs ++ closing :: us))).expression.front_mem
    have hends : EndsAny (comma :: (vs ++ closing :: us)) := .of_kind hcomma (by decide)
    have hlength : (ts ++ comma :: (vs ++ closing :: us)).length =
        ts.length + ((vs ++ closing :: us).length + 1) := by rw [List.length_append, List.length_cons]
    obtain ⟨n, rfl⟩ : ∃ m, n = m + 1 := ⟨n - 1, by omega⟩
    exact gives_arguments_cons hfront (h hx hends (by omega)) hcomma (by simp) (hs hxs hc hus (by omega))

end Parts

mutual

theorem reads_grouped : (e : Expression) → e.Grouped → (e.isAssign = false → ReadsOperandAs e) ∧ ReadsAs e
  | .literal t v, hg =>
    ⟨fun _ ↦ readsOperandAs_literal t v, (readsOperandAs_literal t v).whole ⟨hg, rfl⟩⟩
  | .name t, hg => ⟨fun _ ↦ readsOperandAs_name t, (readsOperandAs_name t).whole ⟨hg, rfl⟩⟩
  | .unary sign x, hg =>
    have hoperand := ((reads_grouped x hg.2.2).1 hg.1).unary hg.2.2 hg.2.1 sign
    ⟨fun _ ↦ hoperand, hoperand.whole ⟨hg, rfl⟩⟩
  | .binary x _ y, hg =>
    have hx := (reads_grouped x hg.2.2.2.1).1 hg.1
    have hoperand := hx.binary ((reads_grouped y hg.2.2.2.2).1 hg.2.1) hg
    ⟨fun _ ↦ hoperand, hoperand.whole ⟨hg, rfl⟩⟩
  | .group opening x closing, hg =>
    have hoperand := (reads_grouped x hg).2.group hg opening closing
    ⟨fun _ ↦ hoperand, hoperand.whole ⟨hg, rfl⟩⟩
  | .assign t equals x, hg => ⟨fun h ↦ Bool.noConfusion h, (reads_grouped x hg).2.assign t equals⟩
  | .call t opening xs closing, hg =>
    have hoperand := (reads_allGrouped xs hg).call hg t opening closing
    ⟨fun _ ↦ hoperand, hoperand.whole ⟨hg, rfl⟩⟩

theorem reads_allGrouped : (es : List Expression) → AllGrouped es → ReadsAllAs es
  | [], _ => readsAllAs_nil
  | e :: es, hg => .cons (reads_grouped e hg.1).2 (reads_allGrouped es hg.2) hg.1

end

theorem Yields.gives {e : Expression} {ts us : List Token} (h : Yields e ts) (hg : e.Grouped) (hus : EndsAny us) :
    Gives wholeExpression (ts ++ us) e us := by
  have hpos := List.length_pos_iff.mpr (List.append_ne_nil_of_right_ne_nil ts hus.ne_nil)
  exact gives_wholeExpression ((reads_grouped e hg).2 h hus (by omega))

theorem Yields.unique {e e' : Expression} {ts : List Token} (h : Yields e ts) (hg : e.Grouped) (h' : Yields e' ts)
    (hg' : e'.Grouped) : e = e' := by
  have hends : EndsAny [⟨.endOfFile, 0, "", none, false⟩] := .of_kind (k := .endOfFile) rfl (by decide)
  exact congrArg Prod.fst ((h.gives hg hends).symm.trans (h'.gives hg' hends))

/-- Operands are grouped as operators bind, and in no other way. In the tree of any text they are; and of the
trees that have the tokens of some operands joined by operators, just one is so, and it is read from these tokens
wherever what follows does not go on with them. -/
theorem precedence_grouping :
    (∀ text, ∀ e ∈ (ofText text).source.expressions, e.Grouped) ∧
      ∀ s : OperandChain, (∃! e : Expression, e.Grouped ∧ Yields e s.tokens) ∧
        ∀ e us, e.Grouped → Yields e s.tokens → EndsAny us → Gives wholeExpression (s.tokens ++ us) e us := by
  refine ⟨grouped_ofText, fun s ↦ ⟨?_, fun e us hg he hus ↦ he.gives hg hus⟩⟩
  obtain ⟨e, he, hoperand⟩ := s.exists_tree
  exact ⟨e, ⟨hoperand.grouped, he⟩, fun e' he' ↦ he'.2.unique he'.1 he hoperand.grouped⟩

/-- The tokens of `-a - b * c`, as operands and what joins them. -/
def mixedChain : OperandChain where
  first := [⟨.mark .minus, 0, "-", none, false⟩, ⟨.identifier, 1, "a", none, false⟩]
  rest := [(⟨.mark .minus, 3, "-", none, false⟩, [⟨.identifier, 5, "b", none, false⟩]),
    (⟨.mark .star, 7, "*", none, false⟩, [⟨.identifier, 9, "c", none, false⟩])]
  operand_first := .unary (by decide) (.name rfl)
  operand_rest := List.forall_mem_cons.mpr ⟨⟨by decide, .name rfl⟩,
    List.forall_mem_singleton.mpr ⟨by decide, .name rfl⟩⟩

/-- A sign binds most tightly, and a product more tightly than a difference. -/
theorem precedence_grouping_mixed :
    (scan "-a - b * c").map (·.token) = mixedChain.tokens ++ [⟨.endOfFile, 10, "", none, false⟩] ∧
      Gives wholeExpression (mixedChain.tokens ++ [⟨.endOfFile, 10, "", none, false⟩])
        (.binary (.unary ⟨.mark .minus, 0, "-", none, false⟩ (.name ⟨.identifier, 1, "a", none, false⟩))
          ⟨.mark .minus, 3, "-", none, false⟩
          (.binary (.name ⟨.identifier, 5, "b", none, false⟩) ⟨.mark .star, 7, "*", none, false⟩
            (.name ⟨.identifier, 9, "c", none, false⟩)))
        [⟨.endOfFile, 10, "", none, false⟩] := by
  have hends : EndsAny [⟨.endOfFile, 10, "", none, false⟩] := .of_kind (k := .endOfFile) rfl (by decide)
  refine ⟨by decide +kernel, (precedence_grouping.2 mixedChain).2 _ _ ?_ ?_ hends⟩
  · have hsign : (Expression.unary ⟨.mark .minus, 0, "-", none, false⟩
        (.name ⟨.identifier, 1, "a", none, false⟩)).Grouped := ⟨rfl, rfl, trivial⟩
    exact ⟨rfl, rfl, ⟨4, rfl, by simp [Expression.level?], by simp [Expression.level?, Kind.binaryLevel?]⟩, hsign,
      rfl, rfl, ⟨5, rfl, by simp [Expression.level?], by simp [Expression.level?]⟩, trivial, trivial⟩
  · exact .binary (.unary (by decide) (.name rfl)) (by decide) (.binary (.name rfl) (by decide) (.name rfl))

end SmallScript.Tree
