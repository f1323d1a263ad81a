import SmallScript.Proofs.Tree.Cited

namespace SmallScript

open Token (Kind)

/-- Whether neither the name of a function nor those of its parameters have an opening brace. -/
structure Function.Clear (f : Function) : Prop where
  name : Braceless f.name
  parameters : ∀ v ∈ f.parameters, Braceless v.name

def Scopes.Clear (s : Scopes) : Prop := ∀ f ∈ s.frames, ∀ g ∈ f.functions, g.Clear

structure Resolution.Clear (r : Resolution) : Prop where
  reports : ∀ x ∈ r.reports, x.cause.Clear
  scopes : r.scopes.Clear

theorem Builtin.clear_function (b : Builtin) : b.function.Clear := by
  cases b <;> exact ⟨by decide, by decide⟩

namespace Scopes.Clear

variable {s : Scopes} (h : s.Clear)
include h

theorem push (parent : Nat) : (s.push parent).2.Clear := fun f hf ↦ by
  rcases Array.mem_push.mp hf with hf | rfl
  · exact h f hf
  · exact List.forall_mem_nil _

theorem set! {scope : Nat} {f : Frame} (hf : ∀ g ∈ f.functions, g.Clear) : Clear ⟨s.frames.set! scope f⟩ := fun g hg ↦ by
  rw [Array.set!_eq_setIfInBounds] at hg
  rcases Array.mem_or_eq_of_mem_setIfInBounds hg with hg | rfl
  · exact h g hg
  · exact hf

theorem declareVariable (scope : Nat) (v : Variable) : ((s.declareVariable? scope v).getD s).Clear :=
  declareVariable_keeps h fun f hf ↦ h.set! (h f (Array.mem_of_getElem? hf))

theorem declareVariables (scope : Nat) (vs : List Variable) :
    (vs.foldl (fun s v ↦ (s.declareVariable? scope v).getD s) s).Clear := by
  induction vs generalizing s with
  | nil => exact h
  | cons v vs ih => exact ih (h.declareVariable scope v)

theorem declareFunction (scope : Nat) {g : Function} (hg : g.Clear) :
    ((s.declareFunction? scope g).getD s).Clear := by
  refine declareFunction_keeps h fun f hf ↦ h.set! ?_
  have hfunctions := h f (Array.mem_of_getElem? hf)
  exact List.forall_mem_append.mpr ⟨hfunctions, List.forall_mem_singleton.mpr hg⟩

theorem of_lookupFunction {scope : Nat} {name : String} {g : Function} (hg : s.lookupFunction scope name = some g) :
    g.Clear := by
  obtain ⟨f, hf, hg⟩ := List.exists_of_findSome?_eq_some hg
  exact h f (mem_frames_of_mem_chain hf) g (List.mem_of_find?_eq_some hg)

end Scopes.Clear

namespace Resolver

open Code (Expression Statement)

open SmallScript.Tree (Place)

def Cites {α : Type} (m : Resolver α) (Q : α → Prop := fun _ ↦ True) : Prop :=
  ∀ r, r.Clear → (m r).2.Clear ∧ Q (m r).1

namespace Cites

variable {α β : Type} {m : Resolver α} {P : α → Prop} {Q : β → Prop}

theorem pure {a : α} (h : P a) : Cites (pure a) P := fun _ hr ↦ ⟨hr, h⟩

theorem bind {f : α → Resolver β} (hm : Cites m P) (hf : ∀ a, P a → Cites (f a) Q) : Cites (m >>= f) Q :=
  fun r hr ↦ hf _ (hm r hr).2 _ (hm r hr).1

theorem ite {c : Prop} [Decidable c] {m' : Resolver α} (h : Cites m P) (h' : Cites m' P) :
    Cites (if c then m else m') P := by
  split
  · exact h
  · exact h'

theorem of_clear (h : ∀ r, r.Clear → (m r).2.Clear) : Cites m := fun r hr ↦ ⟨h r hr, trivial⟩

theorem report {cause : Cause} (h : cause.Clear) (span : Span) : Cites (report span cause) :=
  .of_clear fun _ hr ↦ ⟨List.forall_mem_cons.mpr ⟨h, hr.reports⟩, hr.scopes⟩

theorem lookupVariable (name : String) : Cites (lookupVariable name) := .of_clear fun _ ↦ id

theorem lookupFunction (name : String) : Cites (lookupFunction name) fun o ↦ ∀ f ∈ o, f.Clear :=
  fun _ hr ↦ ⟨hr, fun _ hf ↦ hr.scopes.of_lookupFunction hf⟩

theorem freshSymbol : Cites freshSymbol := .of_clear fun _ hr ↦ ⟨hr.reports, hr.scopes⟩

theorem declareVariable (v : Variable) : Cites (declareVariable v) := .of_clear fun r hr ↦ by
  rw [declareVariable_snd]
  exact ⟨hr.reports, hr.scopes.declareVariable r.scope v⟩

theorem declareFunction {f : Function} (h : f.Clear) : Cites (declareFunction f) := .of_clear fun r hr ↦ by
  rw [declareFunction_snd]
  exact ⟨hr.reports, hr.scopes.declareFunction r.scope h⟩

theorem inside (h : Cites m) : Cites (inside m) :=
  .bind (.of_clear fun r hr ↦ ⟨hr.reports, hr.scopes.push r.scope⟩) fun _ _ ↦ .bind h fun _ _ ↦
    .bind (.of_clear fun _ hr ↦ ⟨hr.reports, hr.scopes⟩) fun _ _ ↦ .pure trivial

theorem insideLoop (h : Cites m) : Cites (insideLoop m) :=
  .bind (.of_clear fun _ hr ↦ ⟨hr.reports, hr.scopes⟩) fun _ _ ↦ .bind h fun _ _ ↦
    .bind (.of_clear fun _ hr ↦ ⟨hr.reports, hr.scopes⟩) fun _ _ ↦ .pure trivial

end Cites

open Cause

section Expressions

theorem cites_needValue (span : Span) (e : Expression) : Cites (needValue span e) := by
  have hcause : valueMissing.Clear := List.forall_mem_nil _
  exact .ite (.bind (.report hcause _) fun _ _ ↦ .pure trivial) (.pure trivial)

theorem cites_convert (span : Span) (e : Expression) (target : Ty) (isWritten : Bool) :
    Cites (convert span e target isWritten) := by
  have hcause : (cannotConvert e.ty target).Clear :=
    List.forall_mem_cons.mpr ⟨e.ty.braceless_name, List.forall_mem_singleton.mpr target.braceless_name⟩
  unfold convert
  split
  · exact .ite (.bind (.report hcause _) fun _ _ ↦ .pure trivial) (.pure trivial)
  · exact .pure trivial
  · exact .pure trivial
  · exact .ite (.bind (.report hcause _) fun _ _ ↦ .pure trivial) (.pure trivial)

theorem cites_named {identifier : Token} (h : Braceless identifier.text) : Cites (named identifier) := by
  have hcause : (variableMissing identifier.text).Clear := List.forall_mem_singleton.mpr h
  refine .ite (.pure trivial) (.bind (.lookupVariable _) fun o _ ↦ ?_)
  split
  · exact .pure trivial
  · exact .bind (.report hcause _) fun _ _ ↦ .pure trivial

theorem cites_assigned {identifier : Token} (h : Braceless identifier.text) (equals : Token) (span : Span)
    (value : Expression) : Cites (assigned identifier equals span value) := by
  have hmissing : (variableMissing identifier.text).Clear := List.forall_mem_singleton.mpr h
  have hreadOnly : (readOnly identifier.text).Clear := List.forall_mem_singleton.mpr h
  refine .bind (.lookupVariable _) ?_
  intro o _
  split
  · exact .bind (.report hmissing _) fun _ _ ↦ .pure trivial
  · next v =>
    have hassign : Cites (do return Expression.assign v (← convert span value v.ty false)) :=
      .bind (cites_convert _ _ _ _) fun _ _ ↦ .pure trivial
    exact .ite (.bind (.report hreadOnly _) fun _ _ ↦ hassign) hassign

theorem cites_unary {sign : Token} (h : Braceless sign.text) (operand : Expression) : Cites (unary sign operand) := by
  have hcause : (unaryUndefined sign.text operand.ty).Clear :=
    List.forall_mem_cons.mpr ⟨h, List.forall_mem_singleton.mpr operand.ty.braceless_name⟩
  refine .ite (.pure trivial) ?_
  split
  · exact .pure trivial
  · exact .bind (.report hcause _) fun _ _ ↦ .pure trivial

theorem cites_binary (left : Expression) {sign : Token} (h : Braceless sign.text) (right : Expression) :
    Cites (binary left sign right) := by
  have hcause : (binaryUndefined sign.text left.ty right.ty).Clear :=
    List.forall_mem_cons.mpr ⟨h, List.forall_mem_cons.mpr ⟨left.ty.braceless_name,
      List.forall_mem_singleton.mpr right.ty.braceless_name⟩⟩
  refine .ite (.pure trivial) ?_
  split
  · exact .pure trivial
  · exact .bind (.report hcause _) fun _ _ ↦ .pure trivial

theorem cites_matchArguments {function : String} (h : Braceless function) {vs : List Variable}
    (hvs : ∀ v ∈ vs, Braceless v.name) (es : List Expression) (spans : List Span) :
    Cites (matchArguments function vs es spans) := by
  induction vs generalizing es spans with
  | nil => exact .pure trivial
  | cons v vs ih =>
    obtain ⟨hv, hvs⟩ := List.forall_mem_cons.mp hvs
    rcases es with _ | ⟨e, es⟩
    · exact .pure trivial
    rcases spans with _ | ⟨span, spans⟩
    · exact .pure trivial
    have hcause : (argumentType function v.name v.ty e.ty).Clear :=
      List.forall_mem_cons.mpr ⟨h, List.forall_mem_cons.mpr ⟨hv, List.forall_mem_cons.mpr ⟨v.ty.braceless_name,
        List.forall_mem_singleton.mpr e.ty.braceless_name⟩⟩⟩
    have hrest : Cites (do
        let _ ← matchArguments function vs es spans
        return false) := .bind (ih hvs es spans) fun _ _ ↦ .pure trivial
    exact .ite (ih hvs es spans) (.ite (.bind (.report hcause _) fun _ _ ↦ hrest) hrest)

theorem cites_called {identifier : Token} (h : Braceless identifier.text) (span : Span) (arguments : List Expression)
    (spans : List Span) : Cites (called identifier span arguments spans) := by
  have hmissing : (functionMissing identifier.text).Clear := List.forall_mem_singleton.mpr h
  refine .bind (.lookupFunction _) ?_
  intro o ho
  split
  · exact .bind (.report hmissing _) fun _ _ ↦ .pure trivial
  · next f =>
    have hcount : (argumentCount identifier.text f.parameters.length arguments.length).Clear :=
      List.forall_mem_cons.mpr ⟨h, List.forall_mem_cons.mpr ⟨braceless_toString _,
        List.forall_mem_singleton.mpr (braceless_toString _)⟩⟩
    refine .ite (.bind (.report hcount _) fun _ _ ↦ .pure trivial) ?_
    refine .bind (cites_matchArguments h (ho f rfl).parameters _ _) ?_
    exact fun _ _ ↦ .ite (.pure trivial) (.pure trivial)

/-- The token at a place for other tokens than strings and opening braces. -/
theorem braceless_of_cited {kinds : List Kind} {t : Token} (h : (Place.token kinds t).Cited)
    (hkinds : .string ∉ kinds ∧ .mark .openBrace ∉ kinds) : Braceless t.text :=
  h.2 (fun hk ↦ hkinds.1 (hk ▸ h.1)) fun hk ↦ hkinds.2 (hk ▸ h.1)

mutual

theorem cites_expression : (e : Tree.Expression) → (∀ p ∈ e.places, p.Cited) → Cites (expression e)
  | .literal _ _, _ => .pure trivial
  | .name identifier, h => cites_named (braceless_of_cited (h _ List.mem_cons_self) (by decide))
  | .unary sign operand, h => by
    rw [Tree.Expression.places, List.cons_append, List.forall_mem_cons, List.forall_mem_append] at h
    have hsign := braceless_of_cited h.1 (by decide +kernel)
    exact .bind (cites_expression operand h.2.1) fun _ _ ↦ .bind (cites_needValue _ _) fun _ _ ↦ cites_unary hsign _
  | .binary left sign right, h => by
    rw [Tree.Expression.places, List.forall_mem_append, List.forall_mem_append, List.forall_mem_cons,
      List.forall_mem_cons] at h
    obtain ⟨⟨hleft, -, hsign, hright⟩, -⟩ := h
    exact .bind (cites_expression left hleft) fun _ _ ↦ .bind (cites_needValue _ _) fun _ _ ↦
      .bind (cites_expression right hright) fun _ _ ↦ .bind (cites_needValue _ _) fun _ _ ↦
        cites_binary _ (braceless_of_cited hsign (by decide +kernel)) _
  | .group _ inner _, h => by
    rw [Tree.Expression.places, List.cons_append, List.forall_mem_cons, List.forall_mem_append] at h
    exact .bind (cites_expression inner h.2.1) fun _ _ ↦ cites_needValue _ _
  | .assign identifier equals value, h => by
    rw [Tree.Expression.places, List.forall_mem_cons, List.forall_mem_cons] at h
    exact .bind (cites_expression value h.2.2) fun _ _ ↦ .bind (cites_needValue _ _) fun _ _ ↦
      cites_assigned (braceless_of_cited h.1 (by decide)) _ _ _
  | .call identifier opening arguments closing, h => by
    rw [Tree.Expression.places, List.cons_append, List.cons_append, List.forall_mem_cons, List.forall_mem_cons,
      List.forall_mem_append] at h
    refine .bind (cites_expressions arguments h.2.2.1) fun es _ ↦ ?_
    dsimp only
    split
    · exact cites_convert _ _ _ _
    · exact cites_called (braceless_of_cited h.1 (by decide)) _ _ _

theorem cites_expressions : (es : List Tree.Expression) → (∀ p ∈ Tree.argumentPlaces es, p.Cited) →
    Cites (expressions es)
  | [], _ => .pure trivial
  | e :: rest, h => by
    rw [Tree.argumentPlaces, List.forall_mem_append, List.forall_mem_cons] at h
    exact .bind (cites_expression e h.1) fun _ _ ↦ .bind (cites_needValue _ _) fun _ _ ↦
      .bind (cites_expressions rest h.2.2) fun _ _ ↦ .pure trivial

end

end Expressions

end Resolver

end SmallScript
