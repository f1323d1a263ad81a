import SmallScript.Proofs.Code.Parts
import SmallScript.Proofs.Honest
import SmallScript.Proofs.Resolve.Reporting

namespace SmallScript.Resolver

open Code (Expression Statement)

/-- While something is known, names stand for variables with `V` and functions with `F` only. It stays
known whatever is reported. -/
structure Finding (I : Resolution → Prop) (V : Variable → Prop) (F : Function → Prop) : Prop where
  reports : ∀ {r : Resolution} {new : List Report}, I r → I { r with reports := new ++ r.reports }
  vars : ∀ {r name v}, I r → r.scopes.lookupVariable r.scope name = some v → V v
  calls : ∀ {r name f}, I r → r.scopes.lookupFunction r.scope name = some f → F f

/-- An expression that uses only variables with `V` and functions with `F`, and may lack a meaning. -/
abbrev Draws (V : Variable → Prop) (F : Function → Prop) : Expression → Prop := Expression.Uses True V F

abbrev Finds {α : Type} (I : Resolution → Prop) (m : Resolver α) (Q : α → Prop) : Prop :=
  Honest (fun _ ↦ []) I m Q

namespace Finding

variable {I : Resolution → Prop} {V : Variable → Prop} {F : Function → Prop} {α : Type} {m : Resolver α}
  (h : Finding I V F)
include h

theorem of_reporting {Q : α → Prop} (hm : Reporting m) (hQ : ∀ r, I r → Q (m r).1) : Finds I m Q := by
  refine .of_log_eq (fun _ ↦ rfl) fun r hr ↦ ⟨?_, hQ r hr⟩
  obtain ⟨new, hnew⟩ := hm r
  rw [hnew]
  exact h.reports hr

theorem reporting (hm : Reporting m) : Finds I m fun _ ↦ True := h.of_reporting hm fun _ _ ↦ trivial

theorem report (span : Span) (cause : Cause) : Finds I (report span cause) fun _ ↦ True :=
  h.reporting (.report span cause)

theorem lookupVariable (name : String) : Finds I (lookupVariable name) fun o ↦ ∀ v, o = some v → V v :=
  h.of_reporting (.lookupVariable name) fun _ hr _ hv ↦ h.vars hr hv

theorem lookupFunction (name : String) : Finds I (lookupFunction name) fun o ↦ ∀ f, o = some f → F f :=
  h.of_reporting (.lookupFunction name) fun _ hr _ hf ↦ h.calls hr hf

theorem needValue (span : Span) (e : Expression) :
    Finds I (needValue span e) fun c ↦ Draws V F e → Draws V F c :=
  .ite (fun _ ↦ .bind (h.report _ _) fun _ ↦ .pure fun _ _ ↦ trivial) fun _ ↦ .pure id

theorem convert (span : Span) (e : Expression) (target : Ty) (isWritten : Bool) :
    Finds I (convert span e target isWritten) fun c ↦ Draws V F e → Draws V F c := by
  unfold Resolver.convert
  split
  · refine .ite (fun _ ↦ ?_) fun _ ↦ .pure fun _ ↦ trivial
    exact .bind (h.report _ _) fun _ ↦ .pure fun _ _ ↦ trivial
  · exact .pure id
  · exact .pure id
  · exact .ite (fun _ ↦ .bind (h.report _ _) fun _ ↦ .pure fun _ ↦ id) fun _ ↦ .pure id

theorem named (identifier : Token) : Finds I (named identifier) (Draws V F) := by
  refine .ite (fun _ ↦ .pure trivial) fun _ ↦ .bind (h.lookupVariable _) fun o ↦ ?_
  cases o with
  | none => exact .bind (h.report _ _) fun _ ↦ .pure fun _ _ ↦ trivial
  | some v => exact .pure fun hv ↦ hv v rfl

theorem assigned (identifier equals : Token) (span : Span) (value : Expression) :
    Finds I (assigned identifier equals span value) fun e ↦ Draws V F value → Draws V F e := by
  refine .bind (h.lookupVariable _) ?_
  intro o
  cases o with
  | none => exact .bind (h.report _ _) fun _ ↦ .pure fun _ _ ↦ id
  | some v =>
    have hassign : Finds I (do return .assign v (← Resolver.convert span value v.ty false)) fun e ↦
        (∀ w, some v = some w → V w) → Draws V F value → Draws V F e :=
      .bind (h.convert _ _ _ _) fun _ ↦ .pure fun hc hv he ↦ ⟨hv v rfl, hc he⟩
    refine .ite (fun _ ↦ .bind (h.report _ _) fun _ ↦ ?_) fun _ ↦ hassign
    exact hassign.mono fun _ h _ ↦ h

theorem unary (sign : Token) (operand : Expression) :
    Finds I (unary sign operand) fun e ↦ Draws V F operand → Draws V F e := by
  refine .ite (fun _ ↦ .pure fun _ ↦ trivial) fun _ ↦ ?_
  split
  · exact .pure id
  · exact .bind (h.report _ _) fun _ ↦ .pure fun _ _ ↦ trivial

theorem binary (left : Expression) (sign : Token) (right : Expression) :
    Finds I (binary left sign right) fun e ↦ Draws V F left → Draws V F right → Draws V F e := by
  refine .ite (fun _ ↦ .pure fun _ _ ↦ trivial) fun _ ↦ ?_
  split
  · exact .pure fun he he' ↦ ⟨he, he'⟩
  · exact .bind (h.report _ _) fun _ ↦ .pure fun _ _ _ ↦ trivial

theorem called (identifier : Token) (span : Span) (arguments : List Expression) (spans : List Span) :
    Finds I (called identifier span arguments spans) fun e ↦
      Code.AllUse True V F arguments → Draws V F e := by
  refine .bind (h.lookupFunction _) ?_
  intro o
  cases o with
  | none => exact .bind (h.report _ _) fun _ ↦ .pure fun _ _ _ ↦ trivial
  | some f =>
    refine .ite (fun _ ↦ .bind (h.report _ _) fun _ ↦ .pure fun _ _ _ ↦ trivial) fun _ ↦ ?_
    refine .bind (h.reporting (reporting_matchArguments _ _ _ _)) ?_
    intro _
    refine .ite (fun _ ↦ ?_) fun _ ↦ ?_
    · exact .pure fun _ hf he ↦ ⟨hf f rfl, he⟩
    · exact .pure fun _ _ _ ↦ trivial

mutual

theorem expression : (e : Tree.Expression) → Finds I (expression e) (Draws V F)
  | .literal _ _ => .pure trivial
  | .name identifier => h.named identifier
  | .unary _ operand =>
    .bind (expression operand) fun _ ↦ .bind (h.needValue _ _) fun _ ↦
      (h.unary _ _).mono fun _ hu hv he ↦ hu (hv he)
  | .binary left _ right =>
    .bind (expression left) fun _ ↦ .bind (h.needValue _ _) fun _ ↦
      .bind (expression right) fun _ ↦ .bind (h.needValue _ _) fun _ ↦
        (h.binary _ _ _).mono fun _ hb hv' he' hv he ↦ hb (hv he) (hv' he')
  | .group _ inner _ => .bind (expression inner) fun _ ↦ h.needValue _ _
  | .assign _ _ value =>
    .bind (expression value) fun _ ↦ .bind (h.needValue _ _) fun _ ↦
      (h.assigned _ _ _ _).mono fun _ ha hv he ↦ ha (hv he)
  | .call _ _ arguments _ => by
    refine .bind (expressions arguments) ?_
    intro es
    dsimp only
    split
    · exact (h.convert _ _ _ _).mono fun _ hc he ↦ hc he.1
    · exact h.called _ _ _ _

theorem expressions : (es : List Tree.Expression) → Finds I (expressions es) (Code.AllUse True V F)
  | [] => .pure trivial
  | e :: rest =>
    .bind (expression e) fun _ ↦ .bind (h.needValue _ _) fun _ ↦
      .bind (expressions rest) fun _ ↦ .pure fun hrest hv he ↦ ⟨hv he, hrest⟩

end

theorem value (e : Tree.Expression) : Finds I (value e) (Draws V F) :=
  .bind (h.expression e) fun _ ↦ (h.needValue _ _).mono fun _ hv he ↦ hv he

theorem valueOf (target : Ty) (e : Tree.Expression) : Finds I (valueOf target e) (Draws V F) :=
  .bind (h.value e) fun _ ↦ (h.convert _ _ _ _).mono fun _ hc he ↦ hc he

def Simple (V : Variable → Prop) (F : Function → Prop) (s : Statement) : Prop :=
  s.isFlat ∧ s.Of (fun _ ↦ False) (Draws V F)

omit h in
theorem Simple.of {D : Variable → Prop} {s : Statement} (hs : Simple V F s) : s.Of D (Draws V F) :=
  hs.2.mono (fun _ ↦ False.elim) (fun _ he ↦ he) s

theorem jump (keyword : Token) (target : Exits → Label) :
    Finds I (jump keyword target) (Simple V F) := by
  refine .bind .get ?_
  intro r
  split
  · exact .pure fun _ ↦ ⟨rfl, trivial⟩
  · exact .bind (h.report _ _) fun _ ↦ .pure fun _ _ ↦ ⟨rfl, trivial⟩

theorem leaving (owner : Option Function) (keyword : Token) (e : Option Tree.Expression) :
    Finds I (leaving owner keyword e) (Simple V F) := by
  have hmap : Finds I (e.mapM Resolver.value) fun o ↦ ∀ c ∈ o, Draws V F c := by
    cases e with
    | none => exact .pure fun _ hc ↦ nomatch hc
    | some e =>
      refine .bind (h.value e) fun c ↦ .pure fun hc c' hc' ↦ ?_
      obtain rfl := Option.some.inj hc'
      exact hc
  refine .bind hmap ?_
  intro o
  cases owner with
  | none => exact .bind (h.report _ _) fun _ ↦ .pure fun _ h ↦ ⟨rfl, h⟩
  | some f =>
    dsimp only
    split
    · refine .ite (fun _ ↦ .bind (h.report _ _) fun _ ↦ .pure fun _ h ↦ ⟨rfl, h⟩) fun _ ↦ ?_
      refine .bind (h.convert _ _ _ _) fun c ↦ .pure fun hc h ↦ ⟨rfl, fun c' hc' ↦ ?_⟩
      obtain rfl := Option.some.inj hc'
      exact hc (h _ rfl)
    · refine .ite (fun _ ↦ .bind (h.report _ _) fun _ ↦ ?_) fun _ ↦ .pure fun _ ↦ ⟨rfl, nofun⟩
      exact .pure fun _ _ ↦ ⟨rfl, nofun⟩

end Finding

end SmallScript.Resolver
