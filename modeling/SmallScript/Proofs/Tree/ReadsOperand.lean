import SmallScript.Proofs.Code.Legible
import SmallScript.Proofs.Tree.Steps

namespace SmallScript.Tree

open Code (Piece grouped argumentPieces)
open Token (Kind)

mutual

/-- Whether a tree is one that code may be printed as. Operations may stand in parentheses. -/
inductive Spells : Expression → Code.Expression → Prop
  | literal (t : Token) (v : Value) : Spells (.literal t v) (.literal v)
  | var {t : Token} {v : Variable} (ht : t.text = v.name) (hthere : t.isMissing = false) :
      Spells (.name t) (.var v)
  | assign {t equals : Token} {v : Variable} {x : Expression} {e : Code.Expression} (ht : t.text = v.name)
      (hx : Spells x e) : Spells (.assign t equals x) (.assign v e)
  | unary {sign : Token} {o : UnaryOperator} {x : Expression} {e : Code.Expression}
      (hsign : sign.kind = .mark o.sign) (hx : Spells x e) : Spells (.unary sign x) (.unary o e)
  | binary {sign : Token} {o : BinaryOperator} {x x' : Expression} {e e' : Code.Expression}
      (hsign : sign.kind = .mark o.sign) (hx : Spells x e) (hx' : Spells x' e') :
      Spells (.binary x sign x') (.binary e o e')
  | call {t opening closing : Token} {f : SmallScript.Function} {xs : List Expression} {es : List Code.Expression}
      (ht : t.text = f.name) (hxs : SpellAll xs es) : Spells (.call t opening xs closing) (.call f es)
  | convert {t opening closing : Token} {target : Ty} {x : Expression} {e : Code.Expression}
      (ht : t.text = target.name) (hx : Spells x e) :
      Spells (.call t opening [x] closing) (.convert target e)
  | group {opening closing : Token} {x : Expression} {e : Code.Expression} {outer : Nat} {right : Bool}
      (he : e.needsGroup outer right) (hx : Spells x e) : Spells (.group opening x closing) e

inductive SpellAll : List Expression → List Code.Expression → Prop
  | nil : SpellAll [] []
  | cons {x : Expression} {xs : List Expression} {e : Code.Expression} {es : List Code.Expression}
      (hx : Spells x e) (hxs : SpellAll xs es) : SpellAll (x :: xs) (e :: es)

end

end SmallScript.Tree

namespace SmallScript.Code.Expression

variable {e : Expression} {own level : Nat} {right : Bool}

/-- An operand without parentheses could also stand to the right of an operator that binds less tightly. -/
theorem needsGroup_of_lt (h : e.needsGroup own right = false) (hlevel : level < own) :
    e.needsGroup level true = false := by
  cases e with
  | assign => nomatch h
  | unary | binary =>
    simp only [needsGroup, Bool.or_eq_false_iff, decide_eq_false_iff_not, Bool.and_eq_false_iff,
      beq_eq_false_iff_ne] at h ⊢
    omega
  | _ => rfl

theorem le_level (h : e.needsGroup own right = false) (hown : own ≤ 6) : own ≤ e.level := by
  cases e with
  | assign => nomatch h
  | unary | binary =>
    simp only [needsGroup, Bool.or_eq_false_iff, decide_eq_false_iff_not] at h
    exact Nat.not_lt.mp h.1
  | _ => exact hown

theorem lt_level (h : (e.level < level || (true && e.level == level)) = false) : level < e.level := by
  simp only [Bool.true_and, Bool.or_eq_false_iff, decide_eq_false_iff_not, beq_eq_false_iff_ne] at h
  omega

theorem needsGroup_binary_zero {e' : Expression} {o : BinaryOperator} (ho : o ∈ BinaryOperator.all) :
    (binary e o e').needsGroup 0 true = false := by
  have hall : ∀ o ∈ BinaryOperator.all, (Token.Kind.binaryLevel? (.mark o.sign)).getD 0 ≠ 0 := by decide
  simp [needsGroup, level, hall o ho]

end SmallScript.Code.Expression

namespace SmallScript

open Code (Piece grouped argumentPieces)
open Token (Kind)

namespace Along

variable {ps qs : List Piece} {p : Punctuation} {ts us : List Token}

theorem of_grouped (h : Along (grouped true ps) ts us) :
    ∃ opening vs closing, ts = opening :: vs ∧ opening.kind = .mark .openParenthesis ∧
      Along ps vs (closing :: us) ∧ closing.kind = .mark .closeParenthesis := by
  obtain ⟨opening, vs, rfl, ho, h⟩ := h.of_cons nofun
  obtain ⟨ws, hps, h⟩ := h.of_append
  obtain ⟨closing, _, rfl, hc, h⟩ := h.of_cons nofun
  obtain rfl := h.of_nil
  exact ⟨opening, vs, closing, rfl, ho.1, hps, hc.1⟩

theorem of_sign (h : Along (ps ++ [.blank, .sign p, .blank] ++ qs) ts us) :
    ∃ sign vs, Along ps ts (sign :: vs) ∧ sign.kind = .mark p ∧ Along qs vs us := by
  rw [List.append_assoc] at h
  obtain ⟨ws, hps, h⟩ := h.of_append
  obtain ⟨sign, vs, rfl, hsign, h⟩ := Along.of_cons (.of_blank h) nofun
  exact ⟨sign, vs, hps, hsign.1, h.of_blank⟩

theorem ne_nil (h : Along ps ts us) (hus : us ≠ []) : ts ≠ [] := by
  have hle := h.length_le
  rw [← List.length_pos_iff] at hus ⊢
  omega

end Along

namespace Tree

open Reader

/-- Whether an operand ends before some tokens: neither arguments follow, nor an operator that binds
tighter than `level`. -/
structure EndsOperand (level : Nat) (us : List Token) : Prop where
  ne_nil : us ≠ []
  no_call : front us ≠ .mark .openParenthesis
  le : ∀ own, (front us).binaryLevel? = some own → own ≤ level

structure EndsExpression (us : List Token) : Prop where
  ne_nil : us ≠ []
  mem : front us ∈ [.mark .closeParenthesis, .mark .comma, .endOfFile]

theorem EndsExpression.cons {t : Token} (ht : t.kind ∈ [.mark .closeParenthesis, .mark .comma, .endOfFile])
    (us : List Token) : EndsExpression (t :: us) :=
  ⟨List.cons_ne_nil _ _, ht⟩

theorem EndsOperand.mono {level level' : Nat} {us : List Token} (h : EndsOperand level us)
    (hle : level ≤ level') : EndsOperand level' us :=
  ⟨h.ne_nil, h.no_call, fun own hown ↦ Nat.le_trans (h.le own hown) hle⟩

theorem EndsExpression.operand {us : List Token} (h : EndsExpression us) (level : Nat) :
    EndsOperand level us := by
  obtain ⟨hne, hmem⟩ := h
  simp only [List.mem_cons, List.not_mem_nil, or_false] at hmem
  rcases hmem with hk | hk | hk
  · exact ⟨hne, hk ▸ nofun, hk ▸ nofun⟩
  · exact ⟨hne, hk ▸ nofun, hk ▸ nofun⟩
  · exact ⟨hne, hk ▸ nofun, hk ▸ nofun⟩

theorem EndsOperand.of_sign {o : BinaryOperator} {sign : Token} {own : Nat} (hsign : sign.kind = .mark o.sign)
    (hown : (Kind.mark o.sign).binaryLevel? = some own) (us : List Token) : EndsOperand own (sign :: us) := by
  refine ⟨List.cons_ne_nil _ _, ?_, ?_⟩
  · rw [front_cons, hsign]
    intro hopen
    rw [hopen] at hown
    nomatch hown
  · intro level hlevel
    rw [front_cons, hsign, hown] at hlevel
    cases hlevel
    exact Nat.le_refl _

/-- From some tokens on, an operand without a sign before it is read, and its tree has `P`. -/
structure PrimaryRead (n : Nat) (ts us : List Token) (P : Expression → Prop) : Prop where
  unsigned : (front ts).unaryLevel? = none
  shorter : us.length < ts.length
  gives : ∃ x, Gives (primary n) ts x us ∧ P x

/-- From some tokens on, an operand is read as a tree that spells `e`, and the operators after it may go on
with it. Each token allows for three steps of the depth. -/
def OperandRead (n level : Nat) (ts us : List Token) (e : Code.Expression) : Prop :=
  ∃ m x, operators n level (.ofTokens ts) = joined m level x (.ofTokens us) ∧ Spells x e ∧
    3 * us.length ≤ m + 3

def ReadsOperand (e : Code.Expression) : Prop :=
  ∀ ⦃level n : Nat⦄ ⦃ts us : List Token⦄, e.needsGroup level true = false → Along e.pieces ts us →
    EndsOperand e.level us → 3 * ts.length ≤ n + 2 → OperandRead n level ts us e

def ReadsExpression (e : Code.Expression) : Prop :=
  ∀ ⦃n : Nat⦄ ⦃ts us : List Token⦄, Along e.pieces ts us → EndsExpression us → 3 * ts.length ≤ n + 1 →
    ∃ x, Gives (expression n) ts x us ∧ Spells x e

def ReadsArguments (es : List Code.Expression) : Prop :=
  ∀ ⦃n : Nat⦄ ⦃ts us : List Token⦄ ⦃closing : Token⦄, Along (argumentPieces es) ts (closing :: us) →
    closing.kind = .mark .closeParenthesis → us ≠ [] → 3 * ts.length ≤ n →
      ∃ xs, Gives (arguments n) ts xs (closing :: us) ∧ SpellAll xs es

section Parts

variable {e : Code.Expression} {level own n : Nat} {ts us : List Token}

theorem OperandRead.of_primary (h : ∀ n, 3 * ts.length ≤ n + 3 → PrimaryRead n ts us (Spells · e))
    (hn : 3 * ts.length ≤ n + 2) : OperandRead n level ts us e := by
  have hshorter := (h (3 * ts.length) (Nat.le_add_right _ _)).shorter
  obtain ⟨n, rfl⟩ : ∃ m, n = m + 1 := ⟨n - 1, by omega⟩
  obtain ⟨hunsigned, -, x, hx, hspells⟩ := h n (by omega)
  exact ⟨n, x, operators_primary hunsigned hx, hspells, by omega⟩

theorem ReadsExpression.group (h : ReadsExpression e) {outer : Nat} {right : Bool}
    (he : e.needsGroup outer right) (ha : Along (grouped true e.pieces) ts us) (hus : us ≠ [])
    (hn : 3 * ts.length ≤ n + 3) : PrimaryRead n ts us (Spells · e) := by
  obtain ⟨opening, vs, closing, rfl, ho, ha, hc⟩ := ha.of_grouped
  have hends : EndsExpression (closing :: us) := .cons (by rw [hc]; decide) us
  have hle := ha.length_le
  have hlength := List.length_pos_iff.mpr hus
  simp only [List.length_cons] at hn hle
  obtain ⟨n, rfl⟩ : ∃ m, n = m + 1 := ⟨n - 1, by omega⟩
  obtain ⟨x, hx, hspells⟩ := h ha hends (by omega : 3 * vs.length ≤ n + 1)
  have hgives := gives_primary_group ho (ha.ne_nil hends.ne_nil) hx hc hus
  exact ⟨by rw [front_cons, ho]; rfl, by simp only [List.length_cons]; omega, _, hgives, .group he hspells⟩

theorem ReadsOperand.grouped (h : ReadsOperand e) (h' : ReadsExpression e) {right : Bool}
    (hlevel : e.needsGroup own right = false → e.needsGroup level true = false) (hown : own ≤ 6)
    (ha : Along (grouped (e.needsGroup own right) e.pieces) ts us) (hus : EndsOperand own us)
    (hn : 3 * ts.length ≤ n + 2) : OperandRead n level ts us e := by
  cases hneeded : e.needsGroup own right with
  | false =>
    rw [hneeded] at ha
    exact h (hlevel hneeded) ha (hus.mono (Code.Expression.le_level hneeded hown)) hn
  | true =>
    rw [hneeded] at ha
    exact .of_primary (fun _ hn ↦ h'.group hneeded ha hus.ne_nil hn) hn

theorem ReadsOperand.right (h : ReadsOperand e) (h' : ReadsExpression e) (hown : own ≤ 6)
    (ha : Along (Code.grouped (e.needsGroup own true) e.pieces) ts us) (hus : EndsOperand own us)
    (hn : 3 * ts.length ≤ n + 2) : ∃ x, Gives (operators n own) ts x us ∧ Spells x e := by
  obtain ⟨m, x, hx, hspells, -⟩ := h.grouped h' id hown ha hus hn
  exact ⟨x, hx.trans (gives_joined hus.le m x), hspells⟩

end Parts

section Fronts

variable {e : Code.Expression} {ts us : List Token}

theorem front_mem (he : e.Legible) (hm : e.Meant) (ha : Along e.pieces ts us) :
    front ts ∈ expressionFronts := by
  obtain ⟨p, ps, hps, hp⟩ := e.exists_opens he
  have hknown := e.unknown_not_mem_iff.mpr hm
  rw [hps] at ha hknown
  obtain ⟨t, vs, rfl, ht, -⟩ := ha.of_cons (by rintro rfl; exact hp)
  rw [front_cons, ht.1]
  cases p with
  | name s =>
    rw [Piece.kind_name hp]
    decide
  | literal v =>
    cases v with
    | bool b => cases b <;> decide
    | _ => exact List.mem_of_elem_eq_true rfl
  | sign p =>
    rcases hp with rfl | hp
    · decide
    · cases p <;> first | decide | exact absurd hp (by decide)
  | unknown => exact absurd List.mem_cons_self hknown
  | word | blank => exact hp.elim

theorem not_startsAssign (e : Code.Expression) (he : e.Legible) {own : Nat} {right : Bool}
    (hbare : e.needsGroup own right = false) {ts us : List Token} (ha : Along e.pieces ts us) (hus : us ≠ [])
    (hnext : front us ≠ .mark .equals) : ¬ StartsAssign ts := by
  match e with
  | .error | .literal (.int _) | .literal (.string _) | .unary _ _ =>
    obtain ⟨t, vs, rfl, ht, -⟩ := ha.of_cons nofun
    rintro ⟨hname, -⟩
    rw [front_cons, ht.1] at hname
    nomatch hname
  | .literal (.bool b) =>
    obtain ⟨t, vs, rfl, ht, -⟩ := ha.of_cons nofun
    rintro ⟨hname, -⟩
    rw [front_cons, ht.1] at hname
    cases b <;> nomatch hname
  | .var v =>
    obtain ⟨t, vs, rfl, ht, h⟩ := ha.of_cons nofun
    obtain rfl := h.of_nil
    rintro ⟨-, hequals⟩
    rw [nextKind_ofTokens t hus] at hequals
    exact hnext hequals
  | .binary e o e' =>
    -- An assignment to the left stands in parentheses, and no operator is an equals sign.
    obtain ⟨ho, he, -⟩ := he
    obtain ⟨sign, vs, hleft, hsign, -⟩ := ha.of_sign
    cases hneeded : e.needsGroup ((Kind.binaryLevel? (.mark o.sign)).getD 0) false with
    | true =>
      rw [hneeded] at hleft
      obtain ⟨opening, _, _, rfl, hopening, -⟩ := hleft.of_grouped
      rintro ⟨hname, -⟩
      rw [front_cons, hopening] at hname
      nomatch hname
    | false =>
      rw [hneeded] at hleft
      refine not_startsAssign e he hneeded hleft (List.cons_ne_nil _ _) ?_
      have hall : ∀ o ∈ BinaryOperator.all, o.sign ≠ .equals := by decide
      rw [front_cons, hsign]
      exact fun h ↦ hall o ho (Kind.mark.inj h)
  | .call _ _ | .convert _ _ =>
    obtain ⟨t, vs, rfl, -, h⟩ := ha.of_cons nofun
    obtain ⟨opening, _, _, rfl, hopening, -⟩ := h.of_grouped
    rintro ⟨-, hequals⟩
    rw [nextKind_ofTokens t (List.cons_ne_nil _ _), front_cons, hopening] at hequals
    nomatch hequals

theorem ReadsOperand.expression (h : ReadsOperand e) (he : e.Legible)
    (hbare : e.needsGroup 0 true = false) : ReadsExpression e := by
  intro n ts us ha hus hn
  have hlength := List.length_pos_iff.mpr (ha.ne_nil hus.ne_nil)
  obtain ⟨n, rfl⟩ : ∃ m, n = m + 1 := ⟨n - 1, by omega⟩
  obtain ⟨m, x, hx, hspells, -⟩ := h hbare ha (hus.operand _) (by omega : _ ≤ n + 2)
  have hnext : front us ≠ .mark .equals := by
    intro hequals
    have hmem := hus.mem
    rw [hequals] at hmem
    exact absurd hmem (by decide)
  refine ⟨x, gives_expression_operators (not_startsAssign e he hbare ha hus.ne_nil hnext) ?_, hspells⟩
  exact hx.trans (gives_joined (hus.operand 0).le m x)

theorem ReadsOperand.of_primary
    (h : ∀ ⦃n : Nat⦄ ⦃ts us : List Token⦄, Along e.pieces ts us → us ≠ [] →
      front us ≠ .mark .openParenthesis → 3 * ts.length ≤ n + 3 →
        PrimaryRead n ts us (Spells · e)) : ReadsOperand e :=
  fun _ _ _ _ _ ha hus hn ↦ .of_primary (fun _ hn ↦ h ha hus.ne_nil hus.no_call hn) hn

end Fronts

end Tree

end SmallScript
