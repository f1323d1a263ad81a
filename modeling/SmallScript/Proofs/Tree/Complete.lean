import SmallScript.Proofs.Tree.Gives

namespace SmallScript.Tree

open Token (Kind)
open Reader

section Members

variable {ts us vs : List Token} {n : Nat}

theorem BlockAt.gives (h : BlockAt .greedy ts us) (hus : us ≠ []) (hts : ts.IsChain ReturnClear) :
    ∃ b, Gives block ts b us := by
  cases h with
  | @mk opening closing ts _ ho hs hc =>
    have hclosing : Opens (closing :: us) := .of_kind hc (by decide)
    have hne := (hs.opens hclosing).ne_nil
    have hpos := List.length_pos_iff.mpr hne
    obtain ⟨ss, hss⟩ := hs.gives hclosing hc hts.tail
    refine ⟨⟨opening, ss, closing⟩, .bind (.take ho hne) (.bind (.get _) ?_)⟩
    rw [left_ofTokens]
    exact .bind (hss _ (by omega)) (.bind (.take hc hus) (.pure _ _))

theorem ParameterListAt.gives (h : ParameterListAt .greedy ts us) (hus : front us = .mark .closeParenthesis)
    (hne : us ≠ []) (hn : ts.length ≤ n) : ∃ ps, Gives (parameters n) ts ps us := by
  induction h generalizing n with
  | last h =>
    obtain ⟨ht, hclause⟩ := h
    obtain ⟨clause, hgives⟩ := hclause.gives hne
    have hpos := hclause.behind.2
    rw [List.length_cons] at hn
    obtain ⟨n, rfl⟩ : ∃ m, n = m + 1 := ⟨n - 1, by omega⟩
    exact ⟨_, gives_parameters_last ht (List.length_pos_iff.mp (by omega)) hgives (by rw [hus]; decide)⟩
  | trailing hR => exact hR.elim
  | cons h hcomma hs ih =>
    obtain ⟨ht, hclause⟩ := h
    obtain ⟨clause, hgives⟩ := hclause.gives (List.cons_ne_nil _ _)
    have hpos := hclause.behind.of_cons.2
    have hrest := hs.behind.2
    rw [List.length_cons] at hn
    obtain ⟨n, rfl⟩ : ∃ m, n = m + 1 := ⟨n - 1, by omega⟩
    obtain ⟨ps, hps⟩ := ih hus hne (n := n) (by omega)
    exact ⟨_, gives_parameters_cons ht (List.length_pos_iff.mp (by omega)) hgives hcomma
      (List.length_pos_iff.mp (by omega)) hps⟩

theorem ParametersAt.gives (h : ParametersAt .greedy ts us) (hus : front us = .mark .closeParenthesis)
    (hne : us ≠ []) (hn : ts.length ≤ n) : ∃ ps, Gives (parameters n) ts ps us := by
  cases h with
  | none => exact ⟨[], gives_parameters_nil hus n⟩
  | some h => exact h.gives hus hne hn

theorem FunctionAt.gives (h : FunctionAt .greedy ts us) (hus : us ≠ []) (hts : ts.IsChain ReturnClear) :
    ∃ f, Gives function ts f us := by
  cases h with
  | @mk keyword t opening closing ts us' vs _ hk ht ho hparameters hc hclause hbody =>
    have hvs : vs ≠ [] := List.length_pos_iff.mp (Nat.zero_lt_of_lt hbody.behind.2)
    have hus' : us' ≠ [] := fun h ↦ hvs (List.suffix_nil.mp (h ▸ hclause.suffix))
    have hbehind := Behind.of_suffix hparameters.suffix
    have hne : ts ≠ [] := List.length_pos_iff.mp (Nat.zero_lt_of_lt hbehind.2)
    have hbrace : front vs ≠ .mark .colon := by
      obtain ⟨ho, -, -⟩ := hbody
      rw [front_cons, ho]
      nofun
    obtain ⟨ps, hps⟩ := hparameters.gives (n := ts.length - 1 + 1) hc (List.cons_ne_nil _ _) (by omega)
    obtain ⟨clause, hclause'⟩ := hclause.gives hvs hbrace
    obtain ⟨body, hbody'⟩ := hbody.gives hus (hts.tail.tail.tail.suffix (hclause.suffix.trans hbehind.1))
    refine ⟨⟨keyword, t, opening, ps, closing, clause, body⟩, ?_⟩
    refine .bind (.advance (List.cons_ne_nil _ _)) (.bind (.take ht (List.cons_ne_nil _ _)) (.bind (.take ho hne)
      (.bind (.get _) ?_)))
    rw [left_ofTokens]
    exact .bind hps (.bind (.take hc hus') (.bind hclause' (.bind hbody' (.pure _ _))))

theorem MemberAt.opens (h : MemberAt .greedy ts us) : Opens ts := by
  cases h with
  | statement h => exact h.opens
  | function h =>
    obtain ⟨hk, -⟩ := h
    exact .of_kind hk (by decide)

theorem MemberAt.front_ne {R : Rules} (h : MemberAt R ts us) : front ts ≠ .endOfFile := by
  cases h with
  | statement h => exact fun hend ↦ absurd (hend ▸ h.front_mem) (by decide)
  | function h =>
    obtain ⟨hk, -⟩ := h
    rw [front_cons, hk]
    nofun

theorem MemberAt.gives (h : MemberAt .greedy ts us) (hus : Opens us) (hts : ts.IsChain ReturnClear) :
    ∃ m, Gives member ts m us := by
  cases h with
  | function h =>
    obtain ⟨f, hf⟩ := h.gives hus.ne_nil hts
    have hfront : front ts = .word .functionHead := by
      obtain ⟨hk, -⟩ := h
      exact hk
    refine ⟨.function f, .bind (.kind _) ?_⟩
    rw [if_pos hfront]
    exact .bind hf (.pure _ _)
  | statement h =>
    obtain ⟨s, hs⟩ := h.gives hus hts
    refine ⟨.statement s, .bind (.kind _) ?_⟩
    rw [if_neg fun hfunction ↦ absurd (hfunction ▸ h.front_mem) (by decide)]
    refine .bind (.bind (.get _) ?_) (.pure _ _)
    rw [left_ofTokens]
    exact hs _ (by omega)

theorem MembersAt.opens (h : MembersAt .greedy ts us) (hus : Opens us) : Opens ts := by
  cases h with
  | nil => exact hus
  | cons h _ => exact h.opens

theorem MembersAt.gives (h : MembersAt .greedy ts us) (hus : Opens us) (hend : front us = .endOfFile)
    (hts : ts.IsChain ReturnClear) (hn : ts.length ≤ n + 1) : ∃ ms, Gives (members n) ts ms us := by
  induction h generalizing n with
  | nil => exact ⟨[], gives_members_nil hend n⟩
  | cons h hs ih =>
    have hopens := hs.opens hus
    have hlt := h.behind.2
    have hpos := List.length_pos_iff.mpr hopens.ne_nil
    obtain ⟨n, rfl⟩ : ∃ m, n = m + 1 := ⟨n - 1, by omega⟩
    obtain ⟨m, hm⟩ := h.gives hopens hts
    obtain ⟨ms, hms⟩ := ih hus hend (hts.suffix h.behind.1) (n := n) (by omega)
    exact ⟨m :: ms, gives_members_cons h.front_ne hm hopens.ne_nil hlt hms⟩

theorem IsUnit.gives (h : IsUnit .greedy ts) (hts : ts.IsChain ReturnClear) :
    ∃ s finish, Gives Reader.source ts s [finish] := by
  obtain ⟨finish, hmembers, hend⟩ := h
  obtain ⟨ms, hms⟩ := hmembers.gives (n := ts.length - 1) (.of_kind hend (by decide)) hend hts (by omega)
  exact ⟨⟨ms, finish⟩, finish, gives_source_of_members hms hend⟩

end Members

/-- The rules that what is read without reports keeps to: the line, the block or the text ends after a return
without a value. -/
def Rules.returning : Rules where
  trailingComma := True
  expression _ _ := True
  unpaired _ := True
  bare us := ∃ t vs, us = t :: vs ∧ EndsReturn t
  valued _ := True

theorem Rules.returning_lenient : Rules.returning.Lenient :=
  ⟨fun _ _ ↦ trivial, fun _ ↦ trivial, fun t us h ↦ ⟨t, us, rfl, h⟩, fun _ ↦ trivial⟩

theorem Rules.returning_admits : Admits Rules.returning ReturnClear where
  other _ _ _ ht h := absurd h ht
  item _ _ hu _ := .inr hu
  trailing _ _ _ ht h := by
    rw [ht] at h
    nomatch h
  bare t u us _ := by
    rintro ⟨v, vs, hus, hv⟩ _
    obtain ⟨rfl, -⟩ := List.cons.inj hus
    exact .inl hv

/-- A text whose tokens have a definite derivation is read without reports just if each return has a value or
its line, its block or the text ends. -/
theorem complete_iff {text : String} (hscan : (scan text).filterMap (·.report) = [])
    (h : IsUnit .greedy ((scan text).map (·.token))) :
    (ofText text).reports = [] ↔ ((scan text).map (·.token)).IsChain ReturnClear := by
  refine ⟨fun hnone ↦ ?_, fun hclear ↦ ?_⟩
  · -- The derivation read off the tree need not be the given one, but its tokens are the same.
    exact (isUnit_of_reports Rules.returning_lenient hnone (.inl trivial)).isChain Rules.returning_admits
  · obtain ⟨s, finish, hgives⟩ := h.gives hclear
    have hgood : ∀ t ∈ (scan text).map (·.token), t.kind ≠ .bad := fun t ht ↦
      bne_iff_ne.mp (List.filter_eq_self.mp (goodTokens_of_scan hscan) t ht)
    exact (ofText_of_gives rfl hgood hgives).2.trans hscan

/-- Nothing goes on a name in front of a token that is no operator, equals sign or parenthesis. -/
theorem longest_name {t u : Token} {us : List Token} (ht : t.kind = .identifier)
    (hu : u.kind ∉ Kind.binaryOperators ∧ u.kind ≠ .mark .equals ∧ u.kind ≠ .mark .openParenthesis) :
    ∀ vs, ExpressionAt .documented (t :: u :: us) vs → (u :: us).length ≤ vs.length := by
  have hoperand {vs : List Token} (hx : OperandAt .documented (t :: u :: us) vs) : vs = u :: us := by
    cases hx with
    | unary hsign =>
      rw [ht] at hsign
      exact absurd hsign (by decide)
    | literal | name => rfl
    | group ho =>
      rw [ht] at ho
      nomatch ho
    | call _ ho => exact absurd ho hu.2.2
  intro vs hx
  cases hx with
  | assign _ he => exact absurd he hu.2.1
  | operators hx =>
    cases hx with
    | operand hx => rw [hoperand hx]
    | binary hx hsign =>
      obtain ⟨rfl, -⟩ := List.cons.inj (hoperand hx)
      exact absurd hsign hu.1

theorem isUnit_returns {ts : List Token} (h : ts.map (·.kind) = [.word .ifTest, .identifier, .word .returnValue,
    .word .elseBranch, .word .returnValue, .endOfFile]) : IsUnit .greedy ts := by
  obtain ⟨keyword, ts, rfl, hk, h⟩ := List.map_eq_cons_iff.mp h
  obtain ⟨t, ts, rfl, ht, h⟩ := List.map_eq_cons_iff.mp h
  obtain ⟨u, ts, rfl, hu, h⟩ := List.map_eq_cons_iff.mp h
  obtain ⟨elseKeyword, ts, rfl, helse, h⟩ := List.map_eq_cons_iff.mp h
  obtain ⟨v, ts, rfl, hv, h⟩ := List.map_eq_cons_iff.mp h
  obtain ⟨finish, ts, rfl, hfinish, h⟩ := List.map_eq_cons_iff.mp h
  obtain rfl := List.map_eq_nil_iff.mp h
  have hbare {t : Token} {ts : List Token} (ht : t.kind ∉ expressionFronts) : ¬ StartsOnLine (t :: ts) :=
    fun ⟨⟨_, hx⟩, _⟩ ↦ ht hx.front_mem
  have hx : ExpressionAt .greedy (t :: u :: elseKeyword :: v :: [finish]) (u :: elseKeyword :: v :: [finish]) :=
    .operators (.operand (.name ht)) (longest_name ht (by rw [hu]; decide))
  have hs : StatementAt .greedy (u :: elseKeyword :: v :: [finish]) (elseKeyword :: v :: [finish]) :=
    .leave hu (hbare (by rw [helse]; decide))
  have hs' : StatementAt .greedy (v :: [finish]) [finish] := .leave hv (hbare (by rw [hfinish]; decide))
  exact ⟨finish, .cons (.statement (.ifElse hk hx hs helse hs')) .nil, hfinish⟩

theorem complete_iff_lines : IsUnit .greedy ((scan "if a return\nelse return").map (·.token)) ∧
    (ofText "if a return\nelse return").reports = [] := by
  have hunit : IsUnit .greedy ((scan "if a return\nelse return").map (·.token)) :=
    isUnit_returns (by decide +kernel)
  exact ⟨hunit, (complete_iff (by decide +kernel) hunit).mpr (by decide +kernel)⟩

/-- A return on the line of an `else` is reported, though no expression starts there. -/
theorem rejects_return_line : (scan "if a return else return").filterMap (·.report) = [] ∧
    IsUnit .greedy ((scan "if a return else return").map (·.token)) ∧
    (ofText "if a return else return").reports ≠ [] :=
  ⟨by decide +kernel, isUnit_returns (by decide +kernel), by decide +kernel⟩

end SmallScript.Tree
