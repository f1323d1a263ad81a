import SmallScript.Proofs.Resolve.Settled

namespace SmallScript

def widen (vs : List Variable) (gs : List Function) : List Frame → List Frame
  | [] => []
  | f :: rest => ⟨f.parent, f.vars ++ vs, f.functions ++ gs⟩ :: rest

section Widen

variable {vs vs' : List Variable} {gs gs' : List Function} {env : List Frame} {f : Frame}

@[simp]
theorem widen_nil : widen [] [] env = env := by
  cases env with
  | nil => rfl
  | cons f rest => simp [widen]

@[simp]
theorem widen_widen : widen vs' gs' (widen vs gs env) = widen (vs ++ vs') (gs ++ gs') env := by
  cases env with
  | nil => rfl
  | cons f rest => simp [widen]

theorem seen_widen {v : Variable} : Seen (widen [] gs env) v ↔ Seen env v := by
  cases env with
  | nil => exact Iff.rfl
  | cons f rest => simp [widen, seen_cons]

theorem withVariable_eq_widen (f : Frame) (v : Variable) (rest : List Frame) :
    f.withVariable v :: rest =
      widen (if (f.lookupVariable v.name).isNone then [v] else []) [] (f :: rest) := by
  cases h : f.lookupVariable v.name <;> simp [Frame.withVariable, widen, h]

theorem withFunction_eq_widen (f : Frame) (g : Function) (rest : List Frame) :
    f.withFunction g :: rest =
      widen [] (if (f.lookupFunction g.name).isNone then [g] else []) (f :: rest) := by
  cases h : f.lookupFunction g.name <;> simp [Frame.withFunction, widen, h]

end Widen

namespace Resolver

variable {names : List String} {α β : Type} {m : Resolver α} {f : α → Resolver β}

def Widens (names : List String) (m : Resolver α) : Prop :=
  Stacked m fun env _ env' ↦ ∃ vs, env' = widen vs [] env ∧ ∀ v ∈ vs, v.name ∈ names

namespace Widens

theorem of_same {Q : List Frame → α → Prop} (h : Stacked m fun env a env' ↦ env' = env ∧ Q env a) :
    Widens names m :=
  Stacked.mono h fun _ _ _ ⟨henv, _⟩ ↦ ⟨[], henv ▸ widen_nil.symm, List.forall_mem_nil _⟩

theorem pure (a : α) : Widens names (Pure.pure a) :=
  Stacked.pure fun _ ↦ ⟨[], widen_nil.symm, List.forall_mem_nil _⟩

theorem bind (hm : Widens names m) (hf : ∀ a, Widens names (f a)) : Widens names (m >>= f) := by
  refine (Stacked.bind hm hf).mono ?_
  rintro env b _ ⟨a, _, ⟨vs, rfl, hvs⟩, vs', rfl, hvs'⟩
  exact ⟨vs ++ vs', widen_widen, fun v hv ↦ (List.mem_append.mp hv).elim (hvs v) (hvs' v)⟩

theorem ite {c : Prop} [Decidable c] {m' : Resolver α} (h : c → Widens names m) (h' : ¬ c → Widens names m') :
    Widens names (if c then m else m') :=
  Stacked.ite h h'

end Widens

theorem Reporting.widens (h : Reporting m) : Widens names m :=
  .of_same (h.stacked (Q := fun _ _ ↦ True) fun _ ↦ trivial)

section Statements

theorem widens_declareVariable {v : Variable} (hv : v.name ∈ names) : Widens names (declareVariable v) := by
  refine (stacked_declareVariable v).mono ?_
  rintro env b _ ⟨f, rest, rfl, rfl, -⟩
  refine ⟨_, withVariable_eq_widen f v rest, fun w hw ↦ ?_⟩
  obtain ⟨-, rfl⟩ : (f.lookupVariable v.name).isNone ∧ w = v := by
    cases h : (f.lookupVariable v.name).isNone <;> simp_all
  exact hv

theorem widens_declared (owner : Option Function) {identifier : Token} (readOnly : Bool) (ty : Ty)
    (h : identifier.text ∈ names) : Widens names (declared owner identifier readOnly ty) := by
  have hfresh : Widens names freshSymbol :=
    .of_same (Q := fun _ _ ↦ True) (stacked_freshSymbol.mono fun _ _ _ h ↦ ⟨h, trivial⟩)
  refine .bind hfresh fun n ↦ .ite (fun hmissing ↦ ?_) fun _ ↦ .pure _
  refine .bind (widens_declareVariable ?_) fun b ↦
    .ite (fun _ ↦ .bind (Reporting.report _ _).widens fun _ ↦ .pure _) fun _ ↦ .pure _
  have hpresent : identifier.isMissing = false := by simpa using hmissing
  simpa [hpresent] using h

theorem widens_declaration (owner : Option Function) (keyword : Token) {identifier : Token}
    (clause : Option Tree.TypeClause) (initializer : Tree.Expression) (h : identifier.text ∈ names) :
    Widens names (declaration owner keyword identifier clause initializer) :=
  .bind (reporting_clauseType? _).widens fun _ ↦ .bind (reporting_value _).widens fun _ ↦
    .bind (widens_declared _ _ _ h) fun _ ↦ .bind (reporting_convert _ _ _ _).widens fun _ ↦ .pure _

theorem widens_insideLoop (h : Widens names m) : Widens names (insideLoop m) := stacked_insideLoop h

/-- The statements of a block are resolved in a scope of their own. -/
theorem widens_inside {T : List Frame → α → List Frame → Prop} (h : Stacked m T) : Widens names (inside m) :=
  .of_same (stacked_inside h)

theorem widens_statement (owner : Option Function) : (s : Tree.Statement) → s.opens ⊆ names →
    Widens names (statement owner s)
  | .block _ inner _, _ =>
    .bind (widens_inside (stacked_statements (E := fun _ ↦ True) owner inner fun _ _ ↦ trivial)) fun _ ↦ .pure _
  | .declare .., h => widens_declaration _ _ _ _ (h List.mem_cons_self)
  | .ifThen _ _ branch, h =>
    .bind (reporting_valueOf _ _).widens fun _ ↦ .bind (widens_statement owner branch h) fun _ ↦ .pure _
  | .ifElse _ _ branch _ otherwise, h =>
    .bind (reporting_valueOf _ _).widens fun _ ↦
      .bind (widens_statement owner branch (List.append_subset.mp h).1) fun _ ↦
        .bind (widens_statement owner otherwise (List.append_subset.mp h).2) fun _ ↦ .pure _
  | .whileLoop _ _ body, h =>
    .bind (reporting_valueOf _ _).widens fun _ ↦
      .bind (widens_insideLoop (widens_statement owner body h)) fun _ ↦ .pure _
  | .doLoop _ body _ _, h =>
    .bind (widens_insideLoop (widens_statement owner body h)) fun _ ↦
      .bind (reporting_valueOf _ _).widens fun _ ↦ .pure _
  | .forLoop _ identifier _ _ _ _ body, _ =>
    .bind (reporting_valueOf _ _).widens fun first ↦ .bind (reporting_valueOf _ _).widens fun last ↦
      widens_inside (stacked_range owner identifier body first last)
  | .breakLoop k, _ | .continueLoop k, _ => (reporting_jump k _).widens
  | .leave k e, _ => (reporting_leaving owner k e).widens
  | .expression e, _ => .bind (reporting_expression e).widens fun _ ↦ .pure _

theorem widens_statements (owner : Option Function) (ss : List Tree.Statement) :
    Widens (ss.flatMap Tree.Statement.opens) (statements owner ss) := by
  have hrest (names : List String) (h : ∀ s ∈ ss, s.opens ⊆ names) : Widens names (statements owner ss) := by
    induction ss with
    | nil => exact .pure _
    | cons s rest ih =>
      obtain ⟨hs, hrest⟩ := List.forall_mem_cons.mp h
      exact .bind (widens_statement owner s hs) fun _ ↦ .bind (ih hrest) fun _ ↦ .pure _
  exact hrest _ fun s hs _ hx ↦ List.mem_flatMap.mpr ⟨s, hs, hx⟩

end Statements

section Heads

def Heads (env : List Frame) (ts : List FunctionText) (env' : List Frame) : Prop :=
  env' = widen [] (ts.map (·.function)) env ∧ ∀ t ∈ ts, t.function.name = t.text.identifier.text

theorem stacked_parameters (seen : List String) (ps : List Tree.Parameter) :
    Stacked (parameters seen ps) fun env _ env' ↦ env' = env := by
  induction ps generalizing seen with
  | nil => exact .pure fun _ ↦ rfl
  | cons p rest ih =>
    have hclause := (reporting_clauseType? (some p.clause)).stacked (Q := fun _ _ ↦ True) fun _ ↦ trivial
    have hreport (cause : Cause) :=
      (Reporting.report p.span cause).stacked (Q := fun _ _ ↦ True) fun _ ↦ trivial
    refine (hclause.bind (U := fun _ env _ env' ↦ env' = env) fun o ↦ .ite (fun _ ↦ ?_) fun _ ↦ ?_).mono ?_
    · refine ((hreport _).bind fun _ ↦ ih seen).mono ?_
      rintro env _ _ ⟨_, _, ⟨rfl, -⟩, rfl⟩
      rfl
    · refine (stacked_freshSymbol.bind fun n ↦ (ih _).bind (U := fun _ env _ env' ↦ env' = env) fun vs ↦
        .pure fun _ ↦ rfl).mono ?_
      rintro env _ _ ⟨_, _, rfl, _, _, rfl, rfl⟩
      rfl
    · rintro env _ _ ⟨_, _, ⟨rfl, -⟩, rfl⟩
      rfl

theorem stacked_functionHead (text : Tree.Function) :
    Stacked (functionHead text) fun env o env' ↦ Heads env o.toList env' ∧ ∀ t, o = some t → t.text = text := by
  let Head (env : List Frame) (o : Option FunctionText) (env' : List Frame) : Prop :=
    Heads env o.toList env' ∧ ∀ t, o = some t → t.text = text
  have hnone (env : List Frame) : Head env none env :=
    ⟨⟨widen_nil.symm, List.forall_mem_nil _⟩, fun _ ht ↦ nomatch ht⟩
  have hclause := (reporting_clauseType? text.clause).stacked (Q := fun _ _ ↦ True) fun _ ↦ trivial
  have hreport (cause : Cause) : Stacked (do report text.identifier.span cause; return none) Head :=
    (((Reporting.report _ cause).bind fun _ ↦ .pure none).stacked
      (Q := fun _ o ↦ o = (none : Option FunctionText)) fun _ ↦ rfl).mono fun _ _ _ ⟨henv, ho⟩ ↦ by
        subst henv ho
        exact hnone _
  have hdeclare (f : Function) (hf : f.name = text.identifier.text) : Stacked (do
      if ← declareFunction f then return some ⟨f, text⟩
      report text.identifier.span (.functionRedeclared text.identifier.text)
      return none) Head := by
    refine ((stacked_declareFunction f).bind (U := fun b env o env' ↦
      if b then o = some ⟨f, text⟩ ∧ env' = env else Head env o env') fun b ↦ ?_).mono ?_
    · cases b with
      | true => exact .pure fun _ ↦ ⟨rfl, rfl⟩
      | false => exact hreport _
    · rintro env o env' ⟨b, _, ⟨g, rest, rfl, rfl, hb⟩, h⟩
      rw [withFunction_eq_widen, ← hb] at h
      cases b with
      | true =>
        obtain ⟨rfl, rfl⟩ := h
        refine ⟨⟨rfl, List.forall_mem_singleton.mpr hf⟩, fun t ht ↦ ?_⟩
        obtain rfl := Option.some.inj ht
        rfl
      | false => simpa using h
  refine ((stacked_parameters _ _).bind fun vs ↦ hclause.bind fun o ↦ stacked_freshSymbol.bind
    (U := fun _ ↦ Head) fun n ↦ .ite (fun _ ↦ .pure hnone) fun _ ↦ hdeclare _ rfl).mono ?_
  rintro env o env' ⟨_, _, rfl, _, _, ⟨rfl, -⟩, _, _, rfl, h⟩
  exact h

theorem stacked_functionHeads (ms : List Tree.Member) :
    Stacked (functionHeads ms) fun env ts env' ↦ Heads env ts env' ∧ ∀ t ∈ ts, .function t.text ∈ ms := by
  induction ms with
  | nil => exact .pure fun _ ↦ ⟨⟨widen_nil.symm, List.forall_mem_nil _⟩, List.forall_mem_nil _⟩
  | cons m rest ih =>
    cases m with
    | statement s => exact ih.mono fun _ _ _ h ↦ ⟨h.1, fun t ht ↦ List.mem_cons_of_mem _ (h.2 t ht)⟩
    | function text =>
      refine ((stacked_functionHead text).bind (U := fun o env ts env' ↦ ∃ ts', ts = o.toList ++ ts' ∧
        Heads env ts' env' ∧ ∀ t ∈ ts', .function t.text ∈ rest) fun o ↦ ?_).mono ?_
      · cases o with
        | none => exact ih.mono fun _ ts _ h ↦ ⟨ts, rfl, h⟩
        | some t =>
          refine (ih.bind (U := fun ts env all env' ↦ env' = env ∧ all = t :: ts) fun ts ↦
            .pure fun _ ↦ ⟨rfl, rfl⟩).mono ?_
          rintro env _ _ ⟨ts, _, h, rfl, rfl⟩
          exact ⟨ts, rfl, h⟩
      · rintro env _ env' ⟨o, mid, ⟨⟨rfl, hnames⟩, htext⟩, ts, rfl, ⟨rfl, hnames'⟩, hmem⟩
        refine ⟨⟨?_, fun t ht ↦ (List.mem_append.mp ht).elim (hnames t) (hnames' t)⟩, fun t ht ↦ ?_⟩
        · rw [widen_widen, List.map_append]
          rfl
        · rcases List.mem_append.mp ht with ht | ht
          · exact htext t (Option.mem_toList.mp ht) ▸ List.mem_cons_self
          · exact List.mem_cons_of_mem _ (hmem t ht)

end Heads

end Resolver

end SmallScript
