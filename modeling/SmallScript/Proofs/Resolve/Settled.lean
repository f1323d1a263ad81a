import SmallScript.Proofs.Code.Settled
import SmallScript.Proofs.Resolve.Finds
import SmallScript.Proofs.Scope.Seen

namespace SmallScript

namespace Tree

/-- The names that a statement declares in the scope that it stands in. -/
def Statement.opens : Statement → List String
  | .declare _ identifier _ _ _ => [identifier.text]
  | .ifThen _ _ s | .whileLoop _ _ s | .doLoop _ s _ _ => s.opens
  | .ifElse _ _ s _ s' => s.opens ++ s'.opens
  | _ => []

mutual

/-- The names that are declared in a branch or a loop which may not run, and seen behind it. -/
def Statement.loose : Statement → List String
  | .block _ ss _ => looseAll ss
  | .ifThen _ _ s | .whileLoop _ _ s => s.opens ++ s.loose
  | .ifElse _ _ s _ s' => (s.opens ++ s'.opens) ++ (s.loose ++ s'.loose)
  | .doLoop _ s _ _ | .forLoop _ _ _ _ _ _ s => s.loose
  | _ => []

def looseAll : List Statement → List String
  | [] => []
  | s :: rest => s.loose ++ looseAll rest

end

def Member.loose : Member → List String
  | .function f => looseAll f.body.statements
  | .statement s => s.loose

def Source.loose (source : Source) : List String := source.members.flatMap Member.loose

end Tree

def Seen (env : List Frame) (v : Variable) : Prop := ∃ f ∈ env, v ∈ f.vars

def Known (E : Variable → Prop) (A : List Variable) (env : List Frame) : Prop :=
  ∀ v, Seen env v → v ∈ A ∨ E v

section Seen

variable {E : Variable → Prop} {A A' : List Variable} {env env' : List Frame} {f : Frame} {v w : Variable}

theorem seen_cons : Seen (f :: env) w ↔ w ∈ f.vars ∨ Seen env w := by simp [Seen]

theorem seen_withVariable (h : Seen (f.withVariable v :: env) w) : Seen (f :: env) w ∨ w = v := by
  rw [seen_cons] at h ⊢
  rcases h with h | h
  · exact (Frame.mem_vars_withVariable h).imp_left .inl
  · exact .inl (.inr h)

theorem seen_of_lookupVariable {r : Resolution} {name : String}
    (h : r.scopes.lookupVariable r.scope name = some v) : Seen r.seen v := by
  obtain ⟨f, hf, hv⟩ := List.exists_of_findSome?_eq_some h
  exact ⟨f, hf, List.mem_of_find?_eq_some hv⟩

theorem Known.mono (h : Known E A env) (hA : A ⊆ A') (hseen : ∀ v, Seen env' v → Seen env v ∨ v ∈ A' ∨ E v) :
    Known E A' env' := by
  intro v hv
  rcases hseen v hv with hv | hv
  · exact (h v hv).imp_left fun hv ↦ hA hv
  · exact hv

theorem Known.clear (h : Known E A env) {e : Code.Expression} (he : ∀ v ∈ e.vars, Seen env v) :
    e.Clear E A := fun v hv ↦ h v (he v hv)

end Seen

namespace Resolver

open Code (Statement AllSettled)

variable {E : Variable → Prop} {α : Type} {m : Resolver α}
  {Q : List Frame → α → Prop}

theorem stacked_of_finds (hm : Reporting m)
    (h : ∀ I env, Finding I (Seen env) (fun _ ↦ True) → Finds I m (Q env)) :
    Stacked m fun env a env' ↦ env' = env ∧ Q env a := by
  refine hm.stacked fun r ↦ ?_
  have hfinding : Finding (fun s ↦ s.seen = r.seen) (Seen r.seen) (fun _ ↦ True) :=
    ⟨fun h ↦ h, fun h hv ↦ h ▸ seen_of_lookupVariable hv, fun _ _ ↦ trivial⟩
  exact ((h _ _ hfinding).sound r rfl rfl).2

theorem forall_mem_name_append {names names' : List String} (h : ∀ v : Variable, v.name ∈ names ++ names' → E v) :
    (∀ v : Variable, v.name ∈ names → E v) ∧ ∀ v : Variable, v.name ∈ names' → E v :=
  ⟨fun v hv ↦ h v (List.mem_append_left names' hv), fun v hv ↦ h v (List.mem_append_right names hv)⟩

abbrev Visible (env : List Frame) (e : Code.Expression) : Prop := ∀ v ∈ e.vars, Seen env v

theorem stacked_value (e : Tree.Expression) :
    Stacked (value e) fun env c env' ↦ env' = env ∧ Visible env c :=
  stacked_of_finds (reporting_value e) fun _ _ h ↦ (h.value e).mono fun c hc ↦ (c.uses_iff.mp hc).1

theorem stacked_valueOf (target : Ty) (e : Tree.Expression) :
    Stacked (valueOf target e) fun env c env' ↦ env' = env ∧ Visible env c :=
  stacked_of_finds (reporting_valueOf target e) fun _ _ h ↦
    (h.valueOf target e).mono fun c hc ↦ (c.uses_iff.mp hc).1

theorem stacked_expression (e : Tree.Expression) :
    Stacked (expression e) fun env c env' ↦ env' = env ∧ Visible env c :=
  stacked_of_finds (reporting_expression e) fun _ _ h ↦
    (h.expression e).mono fun c hc ↦ (c.uses_iff.mp hc).1

theorem stacked_convert (span : Span) (e : Code.Expression) (target : Ty) (isWritten : Bool) :
    Stacked (convert span e target isWritten) fun env c env' ↦ env' = env ∧ c.vars ⊆ e.vars := by
  refine (reporting_convert span e target isWritten).stacked fun r ↦ ?_
  unfold convert
  cases Conversion.classify e.ty target with
  | none => dsimp only; split <;> exact List.nil_subset _
  | identity => exact List.Subset.refl _
  | silent => exact List.Subset.refl _
  | explicit => dsimp only; split <;> exact List.Subset.refl _

theorem stacked_declared (owner : Option Function) (identifier : Token) (readOnly : Bool) (ty : Ty) :
    Stacked (declared owner identifier readOnly ty) fun env v env' ↦
      ∀ w, Seen env' w → Seen env w ∨ w = v ∧ w.name = identifier.text := by
  let After (env : List Frame) (v : Variable) (env' : List Frame) : Prop :=
    ∀ w, Seen env' w → Seen env w ∨ w = v ∧ w.name = identifier.text
  have hreport (v : Variable) (cause : Cause) :
      Stacked (do report identifier.span cause; return v) fun env w env' ↦ env' = env ∧ w = v :=
    ((Reporting.report identifier.span cause).bind fun _ ↦ .pure v).stacked fun _ ↦ rfl
  refine (stacked_freshSymbol.bind (U := fun _ ↦ After) fun n ↦ .ite (fun hmissing ↦ ?_) fun _ ↦
    .pure fun _ _ ↦ .inl).mono ?_
  · refine ((stacked_declareVariable _).bind fun b ↦ .ite (fun _ ↦ hreport _ _) fun _ ↦
      .pure fun _ ↦ ⟨rfl, rfl⟩).mono ?_
    rintro env v env' ⟨b, mid, ⟨f, rest, rfl, rfl, -⟩, rfl, rfl⟩ w hw
    refine (seen_withVariable hw).imp_right fun hw ↦ ⟨hw, ?_⟩
    simpa [hw] using fun h ↦ by simp [h] at hmissing
  · rintro env v env' ⟨n, mid, rfl, h⟩
    exact h

/-- What a statement does to what is known. It uses what is seen and assigned before it, and more is
seen behind it only if it is settled, or opened with one of some names. -/
structure Settling (E : Variable → Prop) (names : List String) (env : List Frame) (s : Statement)
    (env' : List Frame) : Prop where
  settled : ∀ A, Known E A env → s.Settled E A
  known : ∀ A, Known E A env → Known E (s.settles ++ A) env'
  opened : ∀ v, Seen env' v → Seen env v ∨ v.name ∈ names

namespace Settling

variable {names names' : List String} {env env' env'' : List Frame} {A : List Variable} {s s' : Statement}
  {e : Code.Expression}

theorem behind (h : Settling E names env s env') (hnames : ∀ v, v.name ∈ names → E v) (hA : Known E A env) :
    Known E A env' :=
  hA.mono (List.Subset.refl A) fun v hv ↦ (h.opened v hv).imp_right fun hv ↦ .inr (hnames v hv)

theorem of_settles (hs : ∀ A, Known E A env → s.Settled E A) (hnil : s.settles = []) :
    Settling E names env s env :=
  ⟨hs, fun A hA ↦ by rw [hnil]; exact hA, fun _ ↦ .inl⟩

theorem of_simple (h : Finding.Simple (Seen env) (fun _ ↦ True) s) : Settling E names env s env := by
  obtain ⟨hflat, hs⟩ := h
  cases s with
  | declare v e => exact hs.1.elim
  | label l => exact of_settles (fun _ _ ↦ trivial) rfl
  | goto l => exact of_settles (fun _ _ ↦ trivial) rfl
  | gotoIf l e negated => exact of_settles (fun A hA ↦ hA.clear (e.uses_iff.mp hs).1) rfl
  | leave e => exact of_settles (fun A hA c hc ↦ hA.clear (c.uses_iff.mp (hs c hc)).1) rfl
  | expression e => exact of_settles (fun A hA ↦ hA.clear (e.uses_iff.mp hs).1) rfl
  | _ => nomatch hflat

theorem ifThen (he : Visible env e) (h : Settling E names env s env')
    (hnames : ∀ v, v.name ∈ names → E v) : Settling E names env (.ifThen e s) env' where
  settled A hA := ⟨hA.clear he, h.settled A hA⟩
  known _ hA := h.behind hnames hA
  opened := h.opened

theorem whileLoop {x : Exits} (he : Visible env e) (h : Settling E names env s env')
    (hnames : ∀ v, v.name ∈ names → E v) : Settling E names env (.whileLoop e s x) env' where
  settled A hA := ⟨hA.clear he, h.settled A hA⟩
  known _ hA := h.behind hnames hA
  opened := h.opened

theorem ifElse (he : Visible env e) (h : Settling E names env s env') (h' : Settling E names' env' s' env'')
    (hnames : ∀ v, v.name ∈ names ++ names' → E v) :
    Settling E (names ++ names') env (.ifElse e s s') env'' := by
  have hleft (v : Variable) (hv : v.name ∈ names) := hnames v (List.mem_append_left names' hv)
  have hright (v : Variable) (hv : v.name ∈ names') := hnames v (List.mem_append_right names hv)
  refine ⟨fun A hA ↦ ⟨hA.clear he, h.settled A hA, h'.settled A (h.behind hleft hA)⟩,
    fun A hA ↦ h'.behind hright (h.behind hleft hA), fun v hv ↦ ?_⟩
  rcases h'.opened v hv with hv | hv
  · exact (h.opened v hv).imp_right (List.mem_append_left names')
  · exact .inr (List.mem_append_right names hv)

theorem doLoop {x : Exits} (h : Settling E names env s env') (he : Visible env' e) :
    Settling E names env (.doLoop s e x) env' where
  settled A hA := ⟨h.settled A hA, (h.known A hA).clear he⟩
  known := h.known
  opened := h.opened

theorem known_inside (parent : Nat) (hA : Known E A env) : Known E A (⟨some parent, [], []⟩ :: env) :=
  hA.mono (List.Subset.refl A) fun _ hv ↦ .inl ((seen_cons.mp hv).resolve_left List.not_mem_nil)

end Settling

theorem stacked_declaration (owner : Option Function) (keyword identifier : Token)
    (clause : Option Tree.TypeClause) (initializer : Tree.Expression) :
    Stacked (declaration owner keyword identifier clause initializer) (Settling E [identifier.text]) := by
  refine (((reporting_clauseType? clause).stacked (Q := fun _ _ ↦ True) fun _ ↦ trivial).bind fun _ ↦
    (stacked_value _).bind fun _ ↦ (stacked_declared _ _ _ _).bind fun v ↦
      (stacked_convert _ _ _ _).bind (U := fun c mid s env' ↦ env' = mid ∧ s = .declare v c) fun _ ↦
        .pure fun _ ↦ ⟨rfl, rfl⟩).mono ?_
  rintro env s env' ⟨_, _, ⟨rfl, -⟩, e, _, ⟨rfl, he⟩, v, mid, hafter, c, _, ⟨rfl, hc⟩, rfl, rfl⟩
  refine ⟨fun A hA ↦ hA.clear fun w hw ↦ he w (hc hw), fun A hA ↦ ?_, fun w hw ↦ ?_⟩
  · refine hA.mono (List.subset_append_right [v] A) fun w hw ↦ (hafter w hw).imp_right fun hw ↦ .inl ?_
    exact hw.1 ▸ List.mem_cons_self
  · exact (hafter w hw).imp_right fun hw ↦ List.mem_singleton.mpr hw.2

mutual

/-- A statement uses only what has a value, but for what has `E`, as all of a loose name have. -/
theorem stacked_statement (owner : Option Function) : (s : Tree.Statement) →
    (∀ v : Variable, v.name ∈ s.loose → E v) → Stacked (statement owner s) (Settling E s.opens)
  | .block _ inner _, hE => by
    refine ((stacked_inside (stacked_statements owner inner hE)).bind
      (U := fun ss mid s env' ↦ env' = mid ∧ s = .block ss) fun _ ↦ .pure fun _ ↦ ⟨rfl, rfl⟩).mono ?_
    rintro env s _ ⟨ss, _, ⟨rfl, parent, _, h⟩, rfl, rfl⟩
    exact .of_settles (fun A hA ↦ h A (Settling.known_inside parent hA)) rfl
  | .declare .., _ => stacked_declaration _ _ _ _ _
  | .ifThen _ _ branch, hE => by
    obtain ⟨hopens, hloose⟩ := forall_mem_name_append hE
    refine ((stacked_valueOf _ _).bind fun e ↦ (stacked_statement owner branch hloose).bind
      (U := fun code mid s env' ↦ env' = mid ∧ s = .ifThen e code) fun _ ↦ .pure fun _ ↦ ⟨rfl, rfl⟩).mono ?_
    rintro env s _ ⟨e, _, ⟨rfl, he⟩, code, _, h, rfl, rfl⟩
    exact .ifThen he h hopens
  | .ifElse _ _ branch _ otherwise, hE => by
    obtain ⟨hopens, hloose⟩ := forall_mem_name_append hE
    obtain ⟨hloose, hloose'⟩ := forall_mem_name_append hloose
    refine ((stacked_valueOf _ _).bind fun e ↦ (stacked_statement owner branch hloose).bind fun code ↦
      (stacked_statement owner otherwise hloose').bind
        (U := fun code' mid s env' ↦ env' = mid ∧ s = .ifElse e code code') fun _ ↦
          .pure fun _ ↦ ⟨rfl, rfl⟩).mono ?_
    rintro env s _ ⟨e, _, ⟨rfl, he⟩, code, _, h, code', _, h', rfl, rfl⟩
    exact .ifElse he h h' hopens
  | .whileLoop _ _ body, hE => by
    obtain ⟨hopens, hloose⟩ := forall_mem_name_append hE
    refine ((stacked_valueOf _ _).bind fun e ↦ (stacked_insideLoop (stacked_statement owner body hloose)).bind
      (U := fun p mid s env' ↦ env' = mid ∧ s = .whileLoop e p.1 p.2) fun _ ↦
        .pure fun _ ↦ ⟨rfl, rfl⟩).mono ?_
    rintro env s _ ⟨e, _, ⟨rfl, he⟩, p, _, h, rfl, rfl⟩
    exact .whileLoop he h hopens
  | .doLoop _ body _ _, hE => by
    refine ((stacked_insideLoop (stacked_statement owner body hE)).bind fun p ↦ (stacked_valueOf _ _).bind
      (U := fun e mid s env' ↦ env' = mid ∧ s = .doLoop p.1 e p.2) fun _ ↦ .pure fun _ ↦ ⟨rfl, rfl⟩).mono ?_
    rintro env s _ ⟨p, mid, h, e, _, ⟨rfl, he⟩, rfl, rfl⟩
    exact .doLoop h he
  | .forLoop _ identifier _ _ _ _ body, hE => by
    refine ((stacked_valueOf _ _).bind fun lower ↦ (stacked_valueOf _ _).bind fun upper ↦
      stacked_inside ((stacked_declared _ _ _ _).bind fun v ↦
        (stacked_insideLoop (stacked_statement owner body hE)).bind
          (U := fun p mid s env' ↦ env' = mid ∧ s = .forLoop v lower upper p.1 p.2) fun _ ↦
            .pure fun _ ↦ ⟨rfl, rfl⟩)).mono ?_
    rintro env s _ ⟨lower, _, ⟨rfl, hlower⟩, upper, _, ⟨rfl, hupper⟩, rfl, parent, _, v, mid, hafter,
      p, _, h, rfl, rfl⟩
    refine .of_settles (fun A hA ↦ ⟨hA.clear hlower, hA.clear hupper, h.settled (v :: A) ?_⟩) rfl
    refine (Settling.known_inside parent hA).mono (List.subset_cons_self v A) fun w hw ↦ ?_
    exact (hafter w hw).imp_right fun ⟨hw, _⟩ ↦ .inl (hw ▸ List.mem_cons_self)
  | .breakLoop keyword, _ | .continueLoop keyword, _ =>
    (stacked_of_finds (reporting_jump keyword _) fun _ _ h ↦ h.jump keyword _).mono
      fun _ _ _ ⟨henv, h⟩ ↦ by subst henv; exact .of_simple h
  | .leave keyword e, _ =>
    (stacked_of_finds (reporting_leaving owner keyword e) fun _ _ h ↦ h.leaving owner keyword e).mono
      fun _ _ _ ⟨henv, h⟩ ↦ by subst henv; exact .of_simple h
  | .expression e, _ => by
    refine ((stacked_expression e).bind (U := fun c mid s env' ↦ env' = mid ∧ s = .expression c) fun _ ↦
      .pure fun _ ↦ ⟨rfl, rfl⟩).mono ?_
    rintro env s _ ⟨c, _, ⟨rfl, hc⟩, rfl, rfl⟩
    exact .of_settles (fun A hA ↦ hA.clear hc) rfl

theorem stacked_statements (owner : Option Function) : (ss : List Tree.Statement) →
    (∀ v : Variable, v.name ∈ Tree.looseAll ss → E v) →
      Stacked (statements owner ss) fun env code _ ↦ ∀ A, Known E A env → AllSettled E A code
  | [], _ => .pure fun _ _ _ ↦ trivial
  | s :: rest, hE => by
    obtain ⟨hloose, hrest⟩ := forall_mem_name_append hE
    refine ((stacked_statement owner s hloose).bind fun code ↦ (stacked_statements owner rest hrest).bind
      (U := fun codes _ all _ ↦ all = code :: codes) fun _ ↦ .pure fun _ ↦ rfl).mono ?_
    rintro env _ _ ⟨code, mid, h, codes, _, hcodes, rfl⟩ A hA
    exact ⟨h.settled A hA, hcodes _ (h.known A hA)⟩

end

theorem stacked_range (owner : Option Function) (t : Token) (body : Tree.Statement) (first last : Code.Expression) :
    Stacked (do
      let v ← declared owner t true .int
      let turn ← insideLoop (statement owner body)
      return Code.Statement.forLoop v first last turn.1 turn.2) fun _ _ _ ↦ True :=
  ((stacked_declared owner t true .int).bind (U := fun _ _ _ _ ↦ True) fun _ ↦
    ((stacked_insideLoop (stacked_statement (E := fun _ ↦ True) owner body fun _ _ ↦ trivial)).bind
      (U := fun _ _ _ _ ↦ True) fun _ ↦ .pure fun _ ↦ trivial).mono fun _ _ _ _ ↦ trivial).mono
        fun _ _ _ _ ↦ trivial

end Resolver

end SmallScript
