import SmallScript.Proofs.Tree.Accounted
import SmallScript.Proofs.Tree.Derivations

namespace SmallScript.Tree

open Token (Kind)

/-- Places, and the tokens that fill them where nothing is reported. -/
inductive Fits : List Place → List Token → List Token → Prop
  | nil (ts : List Token) : Fits [] ts ts
  | token {kinds : List Kind} {t : Token} {ps : List Place} {ts us : List Token} (h : t.kind ∈ kinds)
      (hs : Fits ps ts us) : Fits (.token kinds t :: ps) (t :: ts) us
  | comma {between : Bool} {t : Token} {ps : List Place} {ts us : List Token} (h : t.kind = .mark .comma)
      (hs : Fits ps ts us) : Fits (.comma between :: ps) (t :: ts) us
  | noComma {ps : List Place} {ts us : List Token} (hs : Fits ps ts us) : Fits (.comma false :: ps) ts us
  | gap {ps : List Place} {ts us : List Token} (hs : Fits ps ts us) : Fits (.gap :: ps) ts us
  | bare {t : Token} {ps : List Place} {ts us : List Token} (h : EndsReturn t) (hs : Fits ps (t :: ts) us) :
    Fits (.bare :: ps) (t :: ts) us
  | operand {ps : List Place} {ts us : List Token} (hs : Fits ps ts us) : Fits (.operand false :: ps) ts us

theorem Fills.fits {ps : List Place} {c c' : Cursor} (h : Fills ps c c') (hc : c.Ends) (hq : c'.reports = []) :
    Fits ps c.tokens c'.tokens := by
  induction h with
  | nil => exact .nil _
  | @cons p ps c c' c'' h hs ih =>
    have hrest := ih (h.ends hc) hq
    have hnone : c'.reports = [] := List.suffix_nil.mp (hq ▸ hs.reports_suffix)
    cases h with
    | kept h hend =>
      rw [(hc.advance hend).2.2]
      exact .token h hrest
    | madeUp => nomatch hnone
    | comma h =>
      rw [(hc.advance (h ▸ nofun)).2.2]
      exact .comma h hrest
    | noComma => exact .noComma hrest
    | skipped h =>
      rw [← c.reports_advance, hnone] at h
      nomatch h
    | noSkip => exact .gap hrest
    | bare h => exact .bare h hrest
    | operand => exact .operand hrest

namespace Fits

variable {p : Place} {ps qs : List Place} {kinds : List Kind} {k : Kind} {t : Token} {ts us vs : List Token}

theorem of_append (h : Fits (ps ++ qs) ts vs) : ∃ us, Fits ps ts us ∧ Fits qs us vs := by
  induction ps generalizing ts with
  | nil => exact ⟨ts, .nil ts, h⟩
  | cons p ps ih =>
    cases h with
    | token h hs => exact (ih hs).imp fun _ h' ↦ ⟨.token h h'.1, h'.2⟩
    | comma h hs => exact (ih hs).imp fun _ h' ↦ ⟨.comma h h'.1, h'.2⟩
    | noComma hs => exact (ih hs).imp fun _ h' ↦ ⟨.noComma h'.1, h'.2⟩
    | gap hs => exact (ih hs).imp fun _ h' ↦ ⟨.gap h'.1, h'.2⟩
    | bare h hs => exact (ih hs).imp fun _ h' ↦ ⟨.bare h h'.1, h'.2⟩
    | operand hs => exact (ih hs).imp fun _ h' ↦ ⟨.operand h'.1, h'.2⟩

theorem of_nil (h : Fits [] ts us) : ts = us := by
  cases h
  rfl

theorem of_mem (h : Fits (.token kinds t :: ps) ts us) :
    ∃ vs, ts = t :: vs ∧ t.kind ∈ kinds ∧ Fits ps vs us := by
  cases h with
  | token h hs => exact ⟨_, rfl, h, hs⟩

theorem of_token (h : Fits (.token [k] t :: ps) ts us) : ∃ vs, ts = t :: vs ∧ t.kind = k ∧ Fits ps vs us := by
  obtain ⟨vs, rfl, hk, hs⟩ := h.of_mem
  exact ⟨vs, rfl, List.mem_singleton.mp hk, hs⟩

theorem of_operand {assigns : Bool} (h : Fits (.operand assigns :: ps) ts us) :
    assigns = false ∧ Fits ps ts us := by
  cases h with
  | operand hs => exact ⟨rfl, hs⟩

theorem of_comma {between : Bool} (h : Fits (.comma between :: ps) ts us) :
    (∃ comma vs, ts = comma :: vs ∧ comma.kind = .mark .comma ∧ Fits ps vs us) ∨
      between = false ∧ Fits ps ts us := by
  cases h with
  | comma h hs => exact .inl ⟨_, _, rfl, h, hs⟩
  | noComma hs => exact .inr ⟨rfl, hs⟩

theorem of_gap (h : Fits (.gap :: ps) ts us) : Fits ps ts us := by
  cases h with
  | gap hs => exact hs

theorem of_bare (h : Fits (.bare :: ps) ts us) : ∃ t vs, ts = t :: vs ∧ EndsReturn t ∧ Fits ps ts us := by
  cases h with
  | bare h hs => exact ⟨_, _, rfl, h, hs⟩

theorem suffix (h : Fits ps ts us) : us <:+ ts := by
  induction h with
  | nil => exact List.suffix_refl _
  | token _ _ ih | comma _ _ ih => exact ih.trans (List.suffix_cons _ _)
  | noComma _ ih | gap _ ih | bare _ _ ih | operand _ ih => exact ih

end Fits

/-- A comma does not stand in front of a closing parenthesis. -/
def ItemAfter (t u : Token) : Prop := t.kind = .mark .comma → u.kind ≠ .mark .closeParenthesis

instance (t u : Token) : Decidable (ItemAfter t u) := inferInstanceAs (Decidable (_ → _))

structure Rules.Lenient (R : Rules) : Prop where
  expression : ∀ ts us, R.expression ts us
  unpaired : ∀ us, R.unpaired us
  bare : ∀ t us, EndsReturn t → R.bare (t :: us)
  valued : ∀ ts, R.valued ts

def Rules.Tolerates (R : Rules) (ts : List Token) : Prop := R.trailingComma ∨ ts.IsChain ItemAfter

theorem Rules.Tolerates.suffix {R : Rules} {ts us : List Token} (h : R.Tolerates ts) (hs : us <:+ ts) :
    R.Tolerates us :=
  h.imp id fun hchain ↦ hchain.suffix hs

theorem Rules.Tolerates.tail {R : Rules} {t : Token} {ts : List Token} (h : R.Tolerates (t :: ts)) :
    R.Tolerates ts :=
  h.suffix (List.suffix_cons _ _)

theorem Rules.Tolerates.trailing {R : Rules} {comma closing : Token} {us : List Token}
    (h : R.Tolerates (comma :: closing :: us)) (hcomma : comma.kind = .mark .comma)
    (hc : closing.kind = .mark .closeParenthesis) : R.trailingComma :=
  h.resolve_right fun hchain ↦ (List.isChain_cons_cons.mp hchain).1 hcomma hc

section Derived

variable {R : Rules}

structure DerivesExpression (R : Rules) (e : Expression) (ts us : List Token) : Prop where
  expression : ExpressionAt R ts us
  operators : e.isAssign = false → OperatorsAt R ts us

theorem Rules.Lenient.derives (hR : R.Lenient) {e : Expression} {ts us : List Token} (h : OperatorsAt R ts us) :
    DerivesExpression R e ts us :=
  ⟨.operators h (hR.expression ts us), fun _ ↦ h⟩

mutual

theorem Expression.derived (hR : R.Lenient) {ts us : List Token} : (e : Expression) → Fits e.places ts us →
    R.Tolerates ts → DerivesExpression R e ts us
  | .literal t v, h, _ => by
    obtain ⟨vs, rfl, ht, hs⟩ := h.of_mem
    obtain rfl := hs.of_nil
    exact hR.derives (.operand (.literal ht))
  | .name t, h, _ => by
    obtain ⟨vs, rfl, ht, hs⟩ := h.of_token
    obtain rfl := hs.of_nil
    exact hR.derives (.operand (.name ht))
  | .unary sign e, h, hts => by
    obtain ⟨vs, rfl, hsign, h⟩ := h.of_mem
    obtain ⟨ws, he, h⟩ := h.of_append
    obtain ⟨hassign, h⟩ := h.of_operand
    obtain rfl := h.of_nil
    exact hR.derives (.unary hsign ((e.derived hR he hts.tail).operators hassign))
  | .binary e sign e', h, hts => by
    rw [Expression.places, List.append_assoc] at h
    obtain ⟨vs, he, h⟩ := h.of_append
    have hvs := hts.suffix he.suffix
    obtain ⟨hassign, h⟩ := h.of_operand
    obtain ⟨vs, rfl, hsign, h⟩ := h.of_mem
    obtain ⟨ws, he', h⟩ := h.of_append
    obtain ⟨hassign', h⟩ := h.of_operand
    obtain rfl := h.of_nil
    have hright := (e'.derived hR he' hvs.tail).operators hassign'
    exact hR.derives (((e.derived hR he hts).operators hassign).trans hsign hright)
  | .group opening e closing, h, hts => by
    obtain ⟨vs, rfl, ho, h⟩ := h.of_token
    obtain ⟨ws, he, h⟩ := h.of_append
    obtain ⟨_, rfl, hc, h⟩ := h.of_token
    obtain rfl := h.of_nil
    exact hR.derives (.operand (.group ho (e.derived hR he hts.tail).expression hc))
  | .assign t equals e, h, hts => by
    obtain ⟨vs, rfl, ht, h⟩ := h.of_token
    obtain ⟨vs, rfl, hequals, h⟩ := h.of_token
    exact ⟨.assign ht hequals (e.derived hR h hts.tail.tail).expression (hR.expression _ _), nofun⟩
  | .call t opening es closing, h, hts => by
    obtain ⟨vs, rfl, ht, h⟩ := h.of_token
    obtain ⟨vs, rfl, ho, h⟩ := h.of_token
    obtain ⟨ws, hes, h⟩ := h.of_append
    obtain ⟨_, rfl, hc, h⟩ := h.of_token
    obtain rfl := h.of_nil
    refine hR.derives (.operand (.call ht ho ?_ hc))
    by_cases hnil : es = []
    · rw [hnil] at hes
      exact hes.of_nil ▸ .none
    · exact .some (arguments_derived hR es hnil hes hc hts.tail.tail)

theorem arguments_derived (hR : R.Lenient) {ts us : List Token} {closing : Token} : (es : List Expression) → es ≠ [] →
    Fits (argumentPlaces es) ts (closing :: us) → closing.kind = .mark .closeParenthesis → R.Tolerates ts →
    ArgumentListAt R ts (closing :: us)
  | e :: es, _, h, hc, hts => by
    obtain ⟨vs, he, h⟩ := h.of_append
    have hx := (e.derived hR he hts).expression
    -- Only the last item may end without a comma, and only behind it may a comma be one too many.
    by_cases hnil : es = []
    · rw [hnil] at h
      rcases h.of_comma with ⟨comma, vs, rfl, hcomma, h⟩ | ⟨-, h⟩
      · obtain rfl := h.of_nil
        exact .trailing ((hts.suffix he.suffix).trailing hcomma hc) hx hcomma
      · exact .last (h.of_nil ▸ hx)
    · rcases h.of_comma with ⟨comma, vs, rfl, hcomma, h⟩ | ⟨hbetween, -⟩
      · exact .cons hx hcomma (arguments_derived hR es hnil h hc (hts.suffix he.suffix).tail)
      · exact absurd (by simpa using hbetween) hnil

end

theorem derived_typeClause {c : TypeClause} {ts us : List Token} (h : Fits c.places ts us) :
    TypeClauseAt ts us := by
  obtain ⟨_, rfl, hcolon, h⟩ := h.of_token
  obtain ⟨_, rfl, ht, h⟩ := h.of_token
  obtain rfl := h.of_nil
  exact .mk hcolon ht

theorem derived_clause {c : Option TypeClause} {ts us : List Token} (h : Fits (clausePlaces c) ts us) :
    TypeClause?At ts us := by
  cases c with
  | none => exact h.of_nil ▸ .none
  | some c => exact .some (derived_typeClause h)

mutual

theorem Statement.derived (hR : R.Lenient) {ts us : List Token} : (s : Statement) → Fits s.places ts us →
    R.Tolerates ts → StatementAt R ts us
  | .block _ ss _, h, hts => by
    obtain ⟨_, rfl, ho, h⟩ := h.of_token
    obtain ⟨_, hss, h⟩ := h.of_append
    obtain ⟨_, rfl, hc, h⟩ := h.of_token
    obtain rfl := h.of_nil
    exact .block ho (statements_derived hR ss hss hts.tail) hc
  | .declare _ _ clause _ e, h, hts => by
    obtain ⟨_, rfl, hk, h⟩ := h.of_mem
    obtain ⟨_, rfl, ht, h⟩ := h.of_token
    obtain ⟨_, hclause, h⟩ := h.of_append
    have hrest := hts.tail.tail.suffix hclause.suffix
    obtain ⟨_, rfl, hequals, h⟩ := h.of_token
    refine .declare ?_ ht (derived_clause hclause) hequals (e.derived hR h hrest.tail).expression
    simpa using hk
  | .ifThen _ e s, h, hts => by
    obtain ⟨_, rfl, hk, h⟩ := h.of_token
    obtain ⟨_, he, h⟩ := h.of_append
    exact .ifThen hk (e.derived hR he hts.tail).expression (s.derived hR h (hts.tail.suffix he.suffix)) (hR.unpaired _)
  | .ifElse _ e s _ s', h, hts => by
    obtain ⟨_, rfl, hk, h⟩ := h.of_token
    obtain ⟨_, hthen, h⟩ := h.of_append
    have hrest := hts.tail.suffix hthen.suffix
    obtain ⟨_, he, hs⟩ := hthen.of_append
    obtain ⟨_, rfl, helse, h⟩ := h.of_token
    exact .ifElse hk (e.derived hR he hts.tail).expression (s.derived hR hs (hts.tail.suffix he.suffix)) helse
      (s'.derived hR h hrest.tail)
  | .whileLoop _ e s, h, hts => by
    obtain ⟨_, rfl, hk, h⟩ := h.of_token
    obtain ⟨_, he, h⟩ := h.of_append
    exact .whileLoop hk (e.derived hR he hts.tail).expression (s.derived hR h (hts.tail.suffix he.suffix))
  | .doLoop _ s _ e, h, hts => by
    obtain ⟨_, rfl, hk, h⟩ := h.of_token
    obtain ⟨_, hs, h⟩ := h.of_append
    have hrest := hts.tail.suffix hs.suffix
    obtain ⟨_, rfl, hwhile, h⟩ := h.of_token
    exact .doLoop hk (s.derived hR hs hts.tail) hwhile (e.derived hR h hrest.tail).expression
  | .forLoop _ _ _ e _ e' s, h, hts => by
    obtain ⟨_, rfl, hk, h⟩ := h.of_token
    obtain ⟨_, rfl, ht, h⟩ := h.of_token
    obtain ⟨_, rfl, hequals, h⟩ := h.of_token
    obtain ⟨_, hhead, h⟩ := h.of_append
    have hts := hts.tail.tail.tail
    have hbody := s.derived hR h (hts.suffix hhead.suffix)
    obtain ⟨_, he, hupper⟩ := hhead.of_append
    have hrest := hts.suffix he.suffix
    obtain ⟨_, rfl, hto, he'⟩ := hupper.of_token
    exact .forLoop hk ht hequals (e.derived hR he hts).expression hto (e'.derived hR he' hrest.tail).expression hbody
  | .breakLoop _, h, _ => by
    obtain ⟨_, rfl, hk, h⟩ := h.of_token
    exact h.of_nil ▸ .breakLoop hk
  | .continueLoop _, h, _ => by
    obtain ⟨_, rfl, hk, h⟩ := h.of_token
    exact h.of_nil ▸ .continueLoop hk
  | .leave _ none, h, _ => by
    obtain ⟨_, rfl, hk, h⟩ := h.of_token
    obtain ⟨t, vs, rfl, ht, h⟩ := h.of_bare
    exact h.of_nil ▸ .leave hk (hR.bare t vs ht)
  | .leave _ (some e), h, hts => by
    obtain ⟨_, rfl, hk, h⟩ := h.of_token
    exact .leaveWith hk (e.derived hR h hts.tail).expression (hR.valued _)
  | .expression e, h, hts => .expression (e.derived hR h hts).expression

theorem statements_derived (hR : R.Lenient) {ts us : List Token} : (ss : List Statement) →
    Fits (statementPlaces ss) ts us → R.Tolerates ts → StatementsAt R ts us
  | [], h, _ => h.of_nil ▸ .nil
  | s :: ss, h, hts => by
    obtain ⟨_, hs, h⟩ := h.of_append
    exact .cons (s.derived hR hs hts) (statements_derived hR ss h.of_gap (hts.suffix hs.suffix))

end

theorem derived_block (hR : R.Lenient) {b : Block} {ts us : List Token} (h : Fits b.places ts us)
    (hts : R.Tolerates ts) : BlockAt R ts us := by
  obtain ⟨_, rfl, ho, h⟩ := h.of_token
  obtain ⟨_, hss, h⟩ := h.of_append
  obtain ⟨_, rfl, hc, h⟩ := h.of_token
  obtain rfl := h.of_nil
  exact .mk ho (statements_derived hR _ hss hts.tail) hc

theorem derived_parameters {p : Parameter} {ps : List Parameter} {ts us : List Token} {closing : Token}
    (h : Fits (parameterPlaces (p :: ps)) ts (closing :: us)) (hc : closing.kind = .mark .closeParenthesis)
    (hts : R.Tolerates ts) : ParameterListAt R ts (closing :: us) := by
  induction ps generalizing p ts with
  | nil =>
    obtain ⟨_, hp, hlist⟩ := h.of_append
    have hrest := hts.suffix hp.suffix
    obtain ⟨_, rfl, ht, hclause⟩ := hp.of_token
    have hp := ParameterAt.mk ht (derived_typeClause hclause)
    rcases hlist.of_comma with ⟨_, _, rfl, hcomma, hlist⟩ | ⟨-, hlist⟩
    · obtain rfl := hlist.of_nil
      exact .trailing (hrest.trailing hcomma hc) hp hcomma
    · exact .last (hlist.of_nil ▸ hp)
  | cons q qs ih =>
    obtain ⟨_, hp, hlist⟩ := h.of_append
    have hrest := hts.suffix hp.suffix
    obtain ⟨_, rfl, ht, hclause⟩ := hp.of_token
    rcases hlist.of_comma with ⟨_, _, rfl, hcomma, hlist⟩ | ⟨hbetween, -⟩
    · exact .cons (.mk ht (derived_typeClause hclause)) hcomma (ih hlist hrest.tail)
    · nomatch hbetween

theorem Member.derived (hR : R.Lenient) {m : Member} {ts us : List Token} (h : Fits m.places ts us)
    (hts : R.Tolerates ts) : MemberAt R ts us := by
  cases m with
  | statement s => exact .statement (s.derived hR h hts)
  | function f =>
    obtain ⟨_, rfl, hk, h⟩ := h.of_token
    obtain ⟨_, rfl, ht, h⟩ := h.of_token
    obtain ⟨_, rfl, ho, h⟩ := h.of_token
    have hts := hts.tail.tail.tail
    obtain ⟨_, hhead, hbody⟩ := h.of_append
    have hblock := derived_block hR hbody (hts.suffix hhead.suffix)
    obtain ⟨_, hparameters, h⟩ := hhead.of_append
    obtain ⟨_, rfl, hc, hclause⟩ := h.of_token
    refine .function (.mk hk ht ho ?_ hc (derived_clause hclause) hblock)
    cases hps : f.parameters with
    | nil =>
      rw [hps] at hparameters
      exact hparameters.of_nil ▸ .none
    | cons p ps =>
      rw [hps] at hparameters
      exact .some (derived_parameters hparameters hc hts)

theorem members_derived (hR : R.Lenient) {ms : List Member} {ts us : List Token}
    (h : Fits (memberPlaces ms) ts us) (hts : R.Tolerates ts) : MembersAt R ts us := by
  induction ms generalizing ts with
  | nil => exact h.of_nil ▸ .nil
  | cons m ms ih =>
    obtain ⟨_, hm, h⟩ := h.of_append
    exact .cons (Member.derived hR hm hts) (ih h.of_gap (hts.suffix hm.suffix))

theorem isUnit_of_reports (hR : R.Lenient) {text : String} (h : (ofText text).reports = [])
    (hts : R.Tolerates ((scan text).map (·.token))) : IsUnit R ((scan text).map (·.token)) := by
  obtain ⟨d, hfills, hlast, hkind, hreports⟩ := exists_fills text
  have hnone : d.reports = [] := by
    rw [hreports] at h
    exact List.reverse_eq_nil_iff.mp (List.append_eq_nil_iff.mp h).2
  have hfits := hfills.fits (ends_goodTokens text) hnone
  rw [tokens_goodTokens, goodTokens_of_reports h, hlast] at hfits
  exact ⟨_, members_derived hR hfits hts, hkind⟩

end Derived

theorem Rules.Lenient.free (trailingComma : Prop) : (Rules.free trailingComma).Lenient :=
  ⟨fun _ _ ↦ trivial, fun _ ↦ trivial, fun _ _ _ ↦ trivial, fun _ ↦ trivial⟩

theorem Rules.documented_admits : Admits Rules.documented ItemAfter where
  other _ _ ht _ hcomma := absurd hcomma ht
  item _ u hu _ hclose := by
    rw [hclose] at hu
    exact absurd hu (by decide)
  trailing hR := hR.elim
  bare t _ _ ht _ hcomma := by
    rw [ht] at hcomma
    nomatch hcomma

/-- A text about which nothing is reported is derived if commas may stand after last items. It is derived with
an item after every comma just if no comma stands in front of a closing parenthesis. -/
theorem accepted_iff {text : String} (h : (ofText text).reports = []) :
    IsUnit (.free True) ((scan text).map (·.token)) ∧
      (IsUnit .documented ((scan text).map (·.token)) ↔ ((scan text).map (·.token)).IsChain ItemAfter) :=
  ⟨isUnit_of_reports (.free True) h (.inl trivial),
    fun hunit ↦ hunit.isChain Rules.documented_admits,
    fun hchain ↦ isUnit_of_reports (.free False) h (.inr hchain)⟩

theorem accepted_iff_call : (ofText "f(1, a)").reports = [] ∧
    IsUnit .documented ((scan "f(1, a)").map (·.token)) := by
  have hnone : (ofText "f(1, a)").reports = [] := by decide +kernel
  exact ⟨hnone, (accepted_iff hnone).2.mpr (by decide +kernel)⟩

/-- A comma after the last parameter is not reported, and no parameter comes after it. -/
theorem accepts_last_comma : (ofText "function f(a: int,) \x7b\x7d").reports = [] ∧
    ¬ IsUnit .documented ((scan "function f(a: int,) \x7b\x7d").map (·.token)) := by
  refine ⟨by decide +kernel, fun hunit ↦ ?_⟩
  exact absurd (hunit.isChain Rules.documented_admits) (by decide +kernel)

end SmallScript.Tree
