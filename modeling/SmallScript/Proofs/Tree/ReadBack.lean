import SmallScript.Proofs.Tree.ReadsOperand

namespace SmallScript

open Code (Piece grouped argumentPieces)
open Token (Kind)

namespace Tree

open Reader

theorem readsOperand_literal {v : Value} : ReadsOperand (.literal v) := by
  refine .of_primary fun n ts us ha hus _ hn ↦ ?_
  obtain ⟨t, vs, rfl, ht, h⟩ := ha.of_cons nofun
  obtain rfl := h.of_nil
  have hlength := List.length_pos_iff.mpr hus
  simp only [List.length_cons] at hn
  obtain ⟨n, rfl⟩ : ∃ m, n = m + 1 := ⟨n - 1, by omega⟩
  refine ⟨?_, Nat.lt_add_one _, _, gives_primary_literal ht hus, .literal t v⟩
  rw [front_cons, ht.1]
  cases v with
  | bool b => cases b <;> rfl
  | _ => rfl

theorem readsOperand_var {v : Variable} (hv : IsName v.name) : ReadsOperand (.var v) := by
  refine .of_primary fun n ts us ha hus hcall hn ↦ ?_
  obtain ⟨t, vs, rfl, ⟨hkind, htext, -⟩, h⟩ := ha.of_cons nofun
  obtain rfl := h.of_nil
  have hlength := List.length_pos_iff.mpr hus
  simp only [List.length_cons] at hn
  obtain ⟨n, rfl⟩ : ∃ m, n = m + 1 := ⟨n - 1, by omega⟩
  rw [Piece.kind_name hv] at hkind
  refine ⟨?_, Nat.lt_add_one _, _, gives_primary_name hkind hus hcall, .var htext (hv.isMissing htext)⟩
  rw [front_cons, hkind]
  rfl

theorem ReadsArguments.primary {name : String} (hname : IsName name) {es : List Code.Expression}
    (h : ReadsArguments es) {n : Nat} {ts us : List Token}
    (ha : Along (.name name :: grouped true (argumentPieces es)) ts us) (hus : us ≠ [])
    (hn : 3 * ts.length ≤ n + 3) : PrimaryRead n ts us fun x ↦
      ∃ t opening xs closing, x = .call t opening xs closing ∧ t.text = name ∧ SpellAll xs es := by
  obtain ⟨t, vs, rfl, ⟨hkind, htext, -⟩, ha⟩ := ha.of_cons nofun
  obtain ⟨opening, vs, closing, rfl, ho, ha, hc⟩ := ha.of_grouped
  have hle := ha.length_le
  have hlength := List.length_pos_iff.mpr hus
  simp only [List.length_cons] at hn hle
  obtain ⟨n, rfl⟩ : ∃ m, n = m + 1 := ⟨n - 1, by omega⟩
  obtain ⟨xs, hxs, hspells⟩ := h ha hc hus (by omega : 3 * vs.length ≤ n)
  rw [Piece.kind_name hname] at hkind
  have hgives := gives_primary_call hkind ho (ha.ne_nil (List.cons_ne_nil _ _)) hxs hc hus
  exact ⟨by rw [front_cons, hkind]; rfl, by simp only [List.length_cons]; omega,
    _, hgives, t, opening, xs, closing, rfl, htext, hspells⟩

theorem readsExpression_assign {v : Variable} {e : Code.Expression} (hv : IsName v.name)
    (h : ReadsExpression e) : ReadsExpression (.assign v e) := by
  intro n ts us ha hus hn
  obtain ⟨t, vs, rfl, ⟨hkind, htext, -⟩, ha⟩ := ha.of_cons nofun
  obtain ⟨equals, vs, rfl, ⟨hequals, -, -⟩, ha⟩ := ha.of_blank.of_cons nofun
  have ha := ha.of_blank
  rw [Piece.kind_name hv] at hkind
  simp only [List.length_cons] at hn
  obtain ⟨n, rfl⟩ : ∃ m, n = m + 1 := ⟨n - 1, by omega⟩
  obtain ⟨x, hx, hspells⟩ := h ha hus (by omega : 3 * vs.length ≤ n + 1)
  exact ⟨_, gives_expression_assign hkind hequals (ha.ne_nil hus.ne_nil) hx, .assign htext hspells⟩

theorem readsOperand_unary {o : UnaryOperator} {e : Code.Expression} (ho : o ∈ UnaryOperator.all)
    (h : ReadsOperand e) (h' : ReadsExpression e) : ReadsOperand (.unary o e) := by
  intro level n ts us hbare ha hus hn
  obtain ⟨sign, vs, rfl, ⟨hkind, -, -⟩, ha⟩ := ha.of_cons nofun
  have hall : ∀ o ∈ UnaryOperator.all, (Kind.mark o.sign).unaryLevel? = some 6 := by decide
  have hsign : sign.kind.unaryLevel? = some 6 := hkind ▸ hall o ho
  have hlevel : level < 6 := Code.Expression.lt_level hbare
  have hvs := ha.ne_nil hus.ne_nil
  have hlength := List.length_pos_iff.mpr hvs
  have hle := ha.length_le
  simp only [List.length_cons] at hn
  obtain ⟨n, rfl⟩ : ∃ m, n = m + 1 := ⟨n - 1, by omega⟩
  obtain ⟨x, hx, hspells⟩ := h.right h' (Nat.le_refl 6) ha hus (by omega : 3 * vs.length ≤ n + 2)
  exact ⟨n, _, operators_sign hsign (Nat.le_of_lt hlevel) hvs hx, .unary hkind hspells, by omega⟩

theorem readsOperand_binary {o : BinaryOperator} {e e' : Code.Expression} (ho : o ∈ BinaryOperator.all)
    (he : ReadsOperand e ∧ ReadsExpression e) (he' : ReadsOperand e' ∧ ReadsExpression e') :
    ReadsOperand (.binary e o e') := by
  intro level n ts us hbare ha hus hn
  have hall : ∀ o ∈ BinaryOperator.all, ∃ own ∈ [1, 2, 3, 4, 5], (Kind.mark o.sign).binaryLevel? = some own := by
    decide
  obtain ⟨own, hmem, hown⟩ := hall o ho
  have hsix : own ≤ 6 := by
    have hle : ∀ own ∈ [1, 2, 3, 4, 5], own ≤ 6 := by decide
    exact hle own hmem
  have hlevelOf : (Code.Expression.binary e o e').level = own := by
    rw [Code.Expression.level, hown, Option.getD_some]
  have hlevel : level < own := hlevelOf ▸ Code.Expression.lt_level hbare
  rw [hlevelOf] at hus
  simp only [Code.Expression.pieces, hown, Option.getD_some] at ha
  -- What is around binds less tightly than the sign, and the operators of the left operand at least as tightly.
  obtain ⟨sign, vs, hleft, hsign, hright⟩ := ha.of_sign
  obtain ⟨m, x, hx, hspells, hm⟩ := he.1.grouped he.2 (Code.Expression.needsGroup_of_lt · hlevel) hsix
    hleft (.of_sign hsign hown vs) hn
  have hvs := hright.ne_nil hus.ne_nil
  have hlength := List.length_pos_iff.mpr hvs
  have hle := hright.length_le
  simp only [List.length_cons] at hm
  obtain ⟨m, rfl⟩ : ∃ k, m = k + 1 := ⟨m - 1, by omega⟩
  -- The right operand ends before operators of the same level, so they go on with the whole.
  obtain ⟨y, hy, hspells'⟩ := he'.1.right he'.2 hsix hright hus (by omega : 3 * vs.length ≤ m + 2)
  refine ⟨m, _, hx.trans (joined_sign (hsign ▸ hown) hlevel hvs hy), .binary hsign hspells hspells', ?_⟩
  omega

theorem ReadsArguments.nil : ReadsArguments [] := by
  intro n ts us closing ha hc _ _
  obtain rfl := ha.of_nil
  exact ⟨[], gives_arguments_nil (by rw [front_cons, hc]) n, .nil⟩

theorem ReadsArguments.cons {e : Code.Expression} {es : List Code.Expression} (he : e.Legible)
    (hm : e.Meant) (h : ReadsExpression e) (hes : ReadsArguments es) : ReadsArguments (e :: es) := by
  intro n ts us closing ha hc hus hn
  cases es with
  | nil =>
    have hends : EndsExpression (closing :: us) := .cons (by rw [hc]; decide) us
    have hlength := List.length_pos_iff.mpr (ha.ne_nil hends.ne_nil)
    obtain ⟨n, rfl⟩ : ∃ m, n = m + 1 := ⟨n - 1, by omega⟩
    obtain ⟨x, hx, hspells⟩ := h ha hends (by omega : _ ≤ n + 1)
    have hcomma : front (closing :: us) ≠ .mark .comma := by
      rw [front_cons, hc]
      nofun
    exact ⟨[x], gives_arguments_last (front_mem he hm ha) hx hcomma, .cons hspells .nil⟩
  | cons e' es =>
    have hsplit : Along (e.pieces ++ .sign .comma :: .blank :: argumentPieces (e' :: es)) ts (closing :: us) := by
      simpa [argumentPieces] using ha
    obtain ⟨ws, hfirst, hrest⟩ := hsplit.of_append
    obtain ⟨comma, vs, rfl, ⟨hcomma, -, -⟩, hrest⟩ := hrest.of_cons nofun
    have hrest := hrest.of_blank
    have hends : EndsExpression (comma :: vs) := .cons (by rw [hcomma]; decide) vs
    have hle := hfirst.length_le
    simp only [List.length_cons] at hle
    obtain ⟨n, rfl⟩ : ∃ m, n = m + 1 := ⟨n - 1, by omega⟩
    obtain ⟨x, hx, hspells⟩ := h hfirst hends (by omega : _ ≤ n + 1)
    obtain ⟨xs, hxs, hall⟩ := hes hrest hc hus (by omega : 3 * vs.length ≤ n)
    have hvs := hrest.ne_nil (List.cons_ne_nil _ _)
    exact ⟨x :: xs, gives_arguments_cons (front_mem he hm hfirst) hx hcomma hvs hxs, .cons hspells hall⟩

theorem readsOperand_call {f : SmallScript.Function} {es : List Code.Expression} (hf : IsName f.name)
    (h : ReadsArguments es) : ReadsOperand (.call f es) := by
  refine .of_primary fun n ts us ha hus _ hn ↦ ?_
  obtain ⟨hunsigned, hshorter, _, hx, _, _, _, _, rfl, ht, hspells⟩ := h.primary hf ha hus hn
  exact ⟨hunsigned, hshorter, _, hx, .call ht hspells⟩

theorem readsOperand_convert {target : Ty} {e : Code.Expression} (ht : target.IsValue)
    (h : ReadsArguments [e]) : ReadsOperand (.convert target e) := by
  refine .of_primary fun n ts us ha hus _ hn ↦ ?_
  obtain ⟨hunsigned, hshorter, _, hx, _, _, _, _, rfl, ht, hspells⟩ :=
    h.primary (isName_of_isValue ht) ha hus hn
  cases hspells with
  | cons hspells hnil =>
    cases hnil
    exact ⟨hunsigned, hshorter, _, hx, .convert ht hspells⟩

mutual

theorem reads : (e : Code.Expression) → e.Legible → e.Meant → ReadsOperand e ∧ ReadsExpression e
  | .literal _, h, _ => ⟨readsOperand_literal, readsOperand_literal.expression h rfl⟩
  | .var _, h, _ => ⟨readsOperand_var h, (readsOperand_var h).expression h rfl⟩
  | .assign _ e, ⟨hv, he⟩, ⟨_, hm⟩ => ⟨fun _ _ _ _ h ↦ (nomatch h), readsExpression_assign hv (reads e he hm).2⟩
  | .unary _ e, ⟨ho, he⟩, hm =>
    have h := reads e he hm
    have hoperand := readsOperand_unary ho h.1 h.2
    ⟨hoperand, hoperand.expression ⟨ho, he⟩ rfl⟩
  | .binary e _ e', ⟨ho, he, he'⟩, ⟨hm, hm'⟩ =>
    have hoperand := readsOperand_binary ho (reads e he hm) (reads e' he' hm')
    ⟨hoperand, hoperand.expression ⟨ho, he, he'⟩ (Code.Expression.needsGroup_binary_zero ho)⟩
  | .call _ es, ⟨hf, hes⟩, ⟨_, hm⟩ =>
    have hoperand := readsOperand_call hf (readsArguments es hes hm)
    ⟨hoperand, hoperand.expression ⟨hf, hes⟩ rfl⟩
  | .convert _ e, ⟨ht, he⟩, hm =>
    have hoperand := readsOperand_convert ht (.cons he hm (reads e he hm).2 .nil)
    ⟨hoperand, hoperand.expression ⟨ht, he⟩ rfl⟩

theorem readsArguments : (es : List Code.Expression) → Code.AllLegible es →
    Code.AllUse False (fun _ ↦ True) (fun _ ↦ True) es → ReadsArguments es
  | [], _, _ => .nil
  | e :: es, ⟨he, hes⟩, ⟨hm, hms⟩ => .cons he hm (reads e he hm).2 (readsArguments es hes hms)

end

theorem scan_text {e : Code.Expression} (he : e.Legible) :
    ∃ ts finish, (scan e.text).map (·.token) = ts ++ [finish] ∧ finish.kind = .endOfFile ∧
      Along e.pieces (ts ++ [finish]) [finish] ∧
      ((scan e.text).filterMap (·.report) = [] ↔ e.Meant) := by
  have hreadable := e.readable_pieces he [] trivial nofun
  rw [List.append_nil] at hreadable
  rw [← e.unknown_not_mem_iff, scan, Code.Expression.text, toList_join]
  exact ScanPoint.scan_pieces hreadable hreadable.length_le 0

/-- A text is free of reports where an expression with a meaning is printed, and its tree spells that
expression. -/
theorem exists_spells {e : Code.Expression} (he : e.Legible) (hm : e.Meant) :
    ∃ x, (ofText e.text).reports = [] ∧ (ofText e.text).source.members = [.statement (.expression x)] ∧
      Spells x e := by
  obtain ⟨ts, finish, hscan, hfinish, halong, hreports⟩ := scan_text he
  have hends : EndsExpression [finish] := .cons (by rw [hfinish]; decide) []
  have hgood : ∀ t ∈ ts ++ [finish], t.kind ≠ .bad :=
    halong.kind_ne_bad (e.unknown_not_mem_iff.mpr hm) fun t ht ↦ by
      obtain rfl := List.mem_singleton.mp ht
      exact hfinish ▸ Kind.noConfusion
  have hfront := front_mem he hm halong
  have hlength : 1 < (ts ++ [finish]).length := by
    cases ts with
    | nil =>
      rw [List.nil_append, front_cons, hfinish] at hfront
      exact absurd hfront (by decide)
    | cons => simp
  obtain ⟨x, hx, hspells⟩ := (reads e he hm).2 (n := 3 * ((ts ++ [finish]).length - 1) + 3) halong hends (by omega)
  obtain ⟨hsource, hfaults⟩ :=
    ofText_of_gives hscan hgood (gives_source hfront (gives_wholeExpression hx) hfinish hlength)
  exact ⟨x, hfaults.trans (hreports.mpr hm), by rw [hsource], hspells⟩

theorem meant_of_reports {e : Code.Expression} (he : e.Legible) (h : (ofText e.text).reports = []) : e.Meant := by
  obtain ⟨ts, finish, -, -, -, hreports⟩ := scan_text he
  rw [reports_ofText] at h
  exact hreports.mp (List.append_eq_nil_iff.mp h).1

end Tree

end SmallScript
