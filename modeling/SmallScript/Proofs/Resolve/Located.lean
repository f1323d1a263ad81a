import SmallScript.Proofs.Resolve.Finds
import SmallScript.Proofs.Scope.Layers

namespace SmallScript.Resolver

open Code (Expression Statement)

/-- Scopes inside some outer ones, with what may be declared in them. A variable is told from those that
come later by the number of those before it. -/
structure Region where
  outer : List Frame
  linear : Scopes.Linear outer
  ne_nil : outer ≠ []
  owner : Option Function
  first : Nat
  declares : Nat → Variable → Prop
  callable : Function → Prop
  mono : ∀ {n m v}, n ≤ m → declares n v → declares m v
  fresh : ∀ n name ty readOnly, first ≤ n →
    declares (n + 1) ⟨n, name, if owner.isSome then .local else .global, ty, readOnly⟩

namespace Region

/-- Whether a scope inside a region is in force, all those inside declare what they may, and there are
`k` scopes at least. -/
def Holds (R : Region) (k : Nat) (r : Resolution) : Prop :=
  ∃ inner, r.scopes = .ofList (R.outer ++ inner) ∧ Scopes.Nested R.outer.length inner ∧
    (∀ f ∈ inner, (∀ v ∈ f.vars, R.declares r.nextSymbol v) ∧ ∀ g ∈ f.functions, R.callable g) ∧
    R.outer.length ≤ r.scope ∧ r.scope < R.outer.length + inner.length ∧
    k ≤ R.outer.length + inner.length ∧ R.first ≤ r.nextSymbol

def Sees (R : Region) (v : Variable) : Prop :=
  (∃ n, R.declares n v) ∨ R.outer.reverse.findSome? (·.lookupVariable v.name) = some v

def Calls (R : Region) (f : Function) : Prop :=
  R.callable f ∨ R.outer.reverse.findSome? (·.lookupFunction f.name) = some f

variable {R : Region} {k : Nat} {r : Resolution} {name : String}

theorem Holds.sees (h : R.Holds k r) {v : Variable} (hv : r.scopes.lookupVariable r.scope name = some v) :
    R.Sees v := by
  obtain ⟨inner, hs, hin, hdecl, hle, hlt, -, -⟩ := h
  rw [hs] at hv
  obtain ⟨f, -, hf⟩ := List.exists_of_findSome?_eq_some hv
  have hname : v.name = name := by simpa using List.find?_some hf
  rcases Scopes.findSome?_chain R.linear R.ne_nil hin hle hlt hv with ⟨f, hf, hv⟩ | hv
  · exact .inl ⟨_, (hdecl f hf).1 v (List.mem_of_find?_eq_some hv)⟩
  · exact .inr (hname ▸ hv)

theorem Holds.calls (h : R.Holds k r) {f : Function}
    (hf : r.scopes.lookupFunction r.scope name = some f) : R.Calls f := by
  obtain ⟨inner, hs, hin, hdecl, hle, hlt, -, -⟩ := h
  rw [hs] at hf
  obtain ⟨g, -, hg⟩ := List.exists_of_findSome?_eq_some hf
  have hname : f.name = name := by simpa using List.find?_some hg
  rcases Scopes.findSome?_chain R.linear R.ne_nil hin hle hlt hf with ⟨g, hg, hf⟩ | hf
  · exact .inl ((hdecl g hg).2 f (List.mem_of_find?_eq_some hf))
  · exact .inr (hname ▸ hf)

theorem Holds.freshSymbol (h : R.Holds k r) : R.Holds k { r with nextSymbol := r.nextSymbol + 1 } := by
  obtain ⟨inner, hs, hin, hdecl, hle, hlt, hk, hfirst⟩ := h
  refine ⟨inner, hs, hin, fun f hf ↦ ⟨fun v hv ↦ ?_, (hdecl f hf).2⟩, hle, hlt, hk, by simp; omega⟩
  exact R.mono (Nat.le_succ _) ((hdecl f hf).1 v hv)

theorem Holds.declareVariable (h : R.Holds k r) {v : Variable} (hv : R.declares r.nextSymbol v) :
    R.Holds k { r with scopes := (r.scopes.declareVariable? r.scope v).getD r.scopes } := by
  obtain ⟨inner, hs, hin, hdecl, hle, hlt, hk, hfirst⟩ := h
  obtain ⟨f, hf, hat, hset⟩ := Scopes.exists_inner hle hlt
  refine ⟨inner.set (r.scope - R.outer.length) (f.withVariable v), ?_,
    hin.set hf (Frame.parent_withVariable v), fun g hg ↦ ?_, hle, ?_, ?_, hfirst⟩
  · rw [hs, Scopes.declareVariable_getD hat, hset]
  · have hf' := hdecl f (List.mem_of_getElem? hf)
    rcases List.mem_or_eq_of_mem_set hg with hg | rfl
    · exact hdecl g hg
    · refine ⟨?_, by simpa using hf'.2⟩
      intro w hw
      rcases Frame.mem_vars_withVariable hw with hw | rfl
      · exact hf'.1 w hw
      · exact hv
  · simpa using hlt
  · simpa using hk

theorem Holds.declareFunction (h : R.Holds k r) {g : Function} (hg : R.callable g) :
    R.Holds k { r with scopes := (r.scopes.declareFunction? r.scope g).getD r.scopes } := by
  obtain ⟨inner, hs, hin, hdecl, hle, hlt, hk, hfirst⟩ := h
  obtain ⟨f, hf, hat, hset⟩ := Scopes.exists_inner hle hlt
  refine ⟨inner.set (r.scope - R.outer.length) (f.withFunction g), ?_,
    hin.set hf (Frame.parent_withFunction g), fun g' hg' ↦ ?_, hle, ?_, ?_, hfirst⟩
  · rw [hs, Scopes.declareFunction_getD hat, hset]
  · have hf' := hdecl f (List.mem_of_getElem? hf)
    rcases List.mem_or_eq_of_mem_set hg' with hg' | rfl
    · exact hdecl g' hg'
    · refine ⟨by simpa using hf'.1, ?_⟩
      intro w hw
      rcases Frame.mem_functions_withFunction hw with hw | rfl
      · exact hf'.2 w hw
      · exact hg
  · simpa using hlt
  · simpa using hk

theorem Holds.push (h : R.Holds k r) :
    ∃ k', k ≤ k' ∧ r.scope < k' ∧
      R.Holds k' { r with scopes := (r.scopes.push r.scope).2, scope := (r.scopes.push r.scope).1 } := by
  obtain ⟨inner, hs, hin, hdecl, hle, hlt, hk, hfirst⟩ := h
  have hpush := Scopes.push_ofList (R.outer ++ inner) r.scope
  rw [← hs, List.append_assoc] at hpush
  refine ⟨R.outer.length + inner.length + 1, by omega, by omega,
    inner ++ [⟨some r.scope, [], []⟩], by rw [hpush], hin.push hle hlt, fun f hf ↦ ?_, ?_, ?_, ?_, hfirst⟩
  · rcases List.mem_append.mp hf with hf | hf
    · exact hdecl f hf
    · obtain rfl := List.mem_singleton.mp hf
      exact ⟨fun v hv ↦ (nomatch hv), fun g hg ↦ (nomatch hg)⟩
  · simp [hpush]
  · simp [hpush]
  · simp [Nat.add_assoc]

theorem Holds.leave (h : R.Holds k r) {scope : Nat} (hle : R.outer.length ≤ scope) (hlt : scope < k) :
    R.Holds k { r with scope } := by
  obtain ⟨inner, hs, hin, hdecl, -, -, hk, hfirst⟩ := h
  exact ⟨inner, hs, hin, hdecl, hle, Nat.lt_of_lt_of_le hlt hk, hk, hfirst⟩

theorem Holds.mono (h : R.Holds k r) {k' : Nat} (hk' : k' ≤ k) : R.Holds k' r := by
  obtain ⟨inner, hs, hin, hdecl, hle, hlt, hk, hfirst⟩ := h
  exact ⟨inner, hs, hin, hdecl, hle, hlt, Nat.le_trans hk' hk, hfirst⟩

theorem Holds.first_le (h : R.Holds k r) : R.first ≤ r.nextSymbol := h.choose_spec.2.2.2.2.2.2

theorem Holds.outer_le (h : R.Holds k r) : R.outer.length ≤ r.scope := h.choose_spec.2.2.2.1

end Region

variable {R : Region} {k : Nat} {owner : Option Function} {α : Type} {m : Resolver α}

abbrev Located (R : Region) (k : Nat) (m : Resolver α) (Q : α → Prop) : Prop :=
  Honest (fun _ ↦ []) (R.Holds k) m Q

abbrev Region.Uses (R : Region) : Expression → Prop := Expression.Uses True R.Sees R.Calls

abbrev Region.Of (R : Region) : Statement → Prop := Statement.Of (fun v ↦ ∃ n, R.declares n v) R.Uses

section Actions

theorem Reporting.located_of {Q : α → Prop} (h : Reporting m) (hQ : ∀ r, R.Holds k r → Q (m r).1) :
    Located R k m Q := by
  refine .of_log_eq (fun _ ↦ rfl) fun r hr ↦ ⟨?_, hQ r hr⟩
  obtain ⟨new, hnew⟩ := h r
  rw [hnew]
  exact hr

theorem Reporting.located (h : Reporting m) : Located R k m fun _ ↦ True :=
  h.located_of fun _ _ ↦ trivial

theorem located_report (span : Span) (cause : Cause) : Located R k (report span cause) fun _ ↦ True :=
  (Reporting.report span cause).located

theorem Region.finding (R : Region) (k : Nat) : Finding (R.Holds k) R.Sees R.Calls where
  reports hr := hr
  vars hr hv := hr.sees hv
  calls hr hf := hr.calls hf

theorem located_declareVariable {n : Nat} {v : Variable} (hv : R.declares n v) :
    Honest (fun _ ↦ []) (fun r ↦ R.Holds k r ∧ n ≤ r.nextSymbol) (declareVariable v) fun _ ↦ True :=
  .of_log_eq (fun _ ↦ rfl) fun r ⟨hr, hn⟩ ↦
    ⟨by rw [declareVariable_snd]; exact ⟨hr.declareVariable (R.mono hn hv), hn⟩, trivial⟩

theorem located_inside {Q : α → Prop} (h : ∀ k, Located R k m Q) : Located R k (inside m) Q := by
  refine .of_log_eq (fun _ ↦ rfl) ?_
  intro r hr
  obtain ⟨k', hk, hlt, hr'⟩ := hr.push
  obtain ⟨hend, hQ⟩ := (h k').sound _ hr' rfl
  exact ⟨(hend.leave hr.outer_le hlt).mono hk, hQ⟩

theorem located_insideLoop {Q : α → Prop} (h : Located R k m Q) :
    Located R k (insideLoop m) fun p ↦ Q p.1 :=
  .of_log_eq (fun _ ↦ rfl) fun r hr ↦
    h.sound { r with loopCount := r.loopCount + 1, loops := _ :: r.loops } hr rfl

end Actions

theorem located_convert (span : Span) (e : Expression) (target : Ty) (isWritten : Bool) :
    Located R k (convert span e target isWritten) fun c ↦ R.Uses e → R.Uses c :=
  (R.finding k).convert span e target isWritten

theorem located_expression (e : Tree.Expression) : Located R k (expression e) R.Uses :=
  (R.finding k).expression e

theorem located_value (e : Tree.Expression) : Located R k (value e) R.Uses := (R.finding k).value e

theorem located_valueOf (target : Ty) (e : Tree.Expression) : Located R k (valueOf target e) R.Uses :=
  (R.finding k).valueOf target e

section Statement

theorem located_declared (hR : R.owner = owner) (identifier : Token) (readOnly : Bool) (ty : Ty) :
    Located R k (declared owner identifier readOnly ty) fun v ↦ ∃ n, R.declares n v := by
  refine .of_log_eq (fun _ ↦ rfl) ?_
  intro r hr
  have hv (name : String) := R.fresh r.nextSymbol name ty readOnly hr.first_le
  rw [hR] at hv
  have hdeclare (v : Variable) (hv : R.declares (r.nextSymbol + 1) v) :
      Honest (fun _ ↦ []) (fun s ↦ R.Holds k s ∧ r.nextSymbol + 1 ≤ s.nextSymbol) (do
        if !identifier.isMissing then
          if !(← declareVariable v) then report identifier.span (.variableRedeclared v.name)
        return v) fun w ↦ w = v := by
    refine .ite (fun _ ↦ ?_) fun _ ↦ .pure rfl
    refine .bind (located_declareVariable hv) fun b ↦ .ite (fun _ ↦ ?_) fun _ ↦ .pure fun _ ↦ rfl
    exact .bind (.of_log_eq (Q := fun _ ↦ True) (fun _ ↦ rfl) fun _ h ↦ ⟨h, trivial⟩) fun _ ↦
      .pure fun _ _ ↦ rfl
  obtain ⟨⟨hend, -⟩, hres⟩ := (hdeclare _ (hv _)).sound { r with nextSymbol := r.nextSymbol + 1 }
    ⟨hr.freshSymbol, Nat.le_refl _⟩ rfl
  exact ⟨hend, _, hres ▸ hv _⟩

theorem located_declaration (hR : R.owner = owner) (keyword identifier : Token)
    (clause : Option Tree.TypeClause) (initializer : Tree.Expression) :
    Located R k (declaration owner keyword identifier clause initializer) R.Of :=
  .bind (reporting_clauseType? _).located fun _ ↦ .bind (located_value _) fun _ ↦
    .bind (located_declared hR _ _ _) fun _ ↦ .bind (located_convert _ _ _ _) fun _ ↦
      .pure fun hc hv he _ ↦ ⟨hv, hc he⟩

mutual

theorem located_statement (hR : R.owner = owner) : (s : Tree.Statement) → (k : Nat) →
    Located R k (statement owner s) R.Of
  | .block _ inner _, _ =>
    .bind (located_inside (located_statements hR inner)) fun _ ↦ .pure fun h ↦ h
  | .declare .., _ => located_declaration hR _ _ _ _
  | .ifThen _ _ branch, k =>
    .bind (located_valueOf _ _) fun _ ↦ .bind (located_statement hR branch k) fun _ ↦
      .pure fun hs he ↦ ⟨he, hs⟩
  | .ifElse _ _ branch _ otherwise, k =>
    .bind (located_valueOf _ _) fun _ ↦ .bind (located_statement hR branch k) fun _ ↦
      .bind (located_statement hR otherwise k) fun _ ↦ .pure fun hs' hs he ↦ ⟨he, hs, hs'⟩
  | .whileLoop _ _ body, k =>
    .bind (located_valueOf _ _) fun _ ↦
      .bind (located_insideLoop (located_statement hR body k)) fun _ ↦ .pure fun hs he ↦ ⟨he, hs⟩
  | .doLoop _ body _ _, k =>
    .bind (located_insideLoop (located_statement hR body k)) fun _ ↦
      .bind (located_valueOf _ _) fun _ ↦ .pure fun he hs ↦ ⟨he, hs⟩
  | .forLoop _ _ _ _ _ _ body, _ =>
    .bind (located_valueOf _ _) fun _ ↦ .bind (located_valueOf _ _) fun _ ↦
      located_inside fun _ ↦ .bind (located_declared hR _ _ _) fun _ ↦
        .bind (located_insideLoop (located_statement hR body _)) fun _ ↦
          .pure fun hs hv hu hl ↦ ⟨hv, ⟨hl, hu⟩, hs⟩
  | .breakLoop keyword, k | .continueLoop keyword, k => ((R.finding k).jump keyword _).mono fun _ ↦ Finding.Simple.of
  | .leave keyword e, k => ((R.finding k).leaving owner keyword e).mono fun _ ↦ Finding.Simple.of
  | .expression e, _ => .bind (located_expression e) fun _ ↦ .pure fun h ↦ h

/-- What resolved statements declare and use, whatever is reported on them. -/
theorem located_statements (hR : R.owner = owner) : (l : List Tree.Statement) → (k : Nat) →
    Located R k (statements owner l) (Code.AllOf (fun v ↦ ∃ n, R.declares n v) R.Uses)
  | [], _ => .pure trivial
  | s :: rest, k =>
    .bind (located_statement hR s k) fun _ ↦ .bind (located_statements hR rest k) fun _ ↦
      .pure fun hrest hs ↦ ⟨hs, hrest⟩

end

end Statement

end SmallScript.Resolver
