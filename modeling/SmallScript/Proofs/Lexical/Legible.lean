import SmallScript.Proofs.Code.Legible
import SmallScript.Proofs.Lexical.Uses
import SmallScript.Proofs.Tree.Spelt

namespace SmallScript

open Code (Expression Statement AllLegible AllOf)
open SmallScript.Tree (AllSpelt StatementsSpelt)

def Code.Body.Legible (b : Code.Body) : Prop := AllOf (IsName ·.name) Expression.Legible b

namespace Lexical

theorem name_of_lookup {scopes : List (List Variable)} {name : String} {v : Variable}
    (h : lookup scopes name = some v) : v.name = name := by
  obtain ⟨vars, -, hv⟩ := List.exists_of_findSome?_eq_some h
  simpa using List.find?_some hv

section Expression

variable {e e' : Expression} {env : Env} {t : Token}

theorem legible_needValue (h : e.Legible) : (needValue e).Legible := by
  unfold needValue
  split
  · trivial
  · exact h

theorem legible_convert (h : e.Legible) (target : Ty) : (convert e target).Legible := by
  unfold convert
  split
  · trivial
  · exact h
  · next hc => exact absurd hc (Conversion.classify_ne_silent _ _)
  · next hc => exact ⟨(Conversion.isValue_of_explicit hc).2, h⟩

theorem legible_named (ht : IsName t.text) (env : Env) : (named env t).Legible := by
  unfold named
  split
  · trivial
  · cases hv : env.var? t.text with
    | none => trivial
    | some v =>
      rw [← name_of_lookup hv] at ht
      exact ht

theorem legible_assigned (ht : IsName t.text) (h : e.Legible) (env : Env) : (assigned env t e).Legible := by
  unfold assigned
  cases hv : env.var? t.text with
  | none => exact h
  | some v =>
    rw [← name_of_lookup hv] at ht
    exact ⟨ht, legible_convert h v.ty⟩

theorem legible_unary (h : e.Legible) (sign : Token) : (unary sign e).Legible := by
  unfold unary
  split
  · trivial
  · cases ho : UnaryOperator.find? sign.kind e.ty with
    | none => trivial
    | some o => exact ⟨List.mem_of_find?_eq_some ho, h⟩

theorem legible_binary (h : e.Legible) (h' : e'.Legible) (sign : Token) : (binary e sign e').Legible := by
  unfold binary
  split
  · trivial
  · cases ho : BinaryOperator.find? sign.kind e.ty e'.ty with
    | none => trivial
    | some o => exact ⟨List.mem_of_find?_eq_some ho, h, h'⟩

theorem legible_called (ht : IsName t.text) {es : List Expression} (h : AllLegible es) (env : Env) :
    (called env t es).Legible := by
  unfold called
  cases hf : env.function? t.text with
  | none => trivial
  | some f =>
    dsimp only
    split
    · have hname : f.name = t.text := by simpa using List.find?_some hf
      rw [← hname] at ht
      exact ⟨ht, h⟩
    · trivial

mutual

theorem legible_expression (env : Env) : (x : Tree.Expression) → x.Spelt → (expression env x).Legible
  | .literal _ _, h => h
  | .name _, h => legible_named h env
  | .unary sign operand, h => legible_unary (legible_needValue (legible_expression env operand h)) sign
  | .binary left sign right, ⟨h, h'⟩ =>
    legible_binary (legible_needValue (legible_expression env left h))
      (legible_needValue (legible_expression env right h')) sign
  | .group _ inner _, h => legible_needValue (legible_expression env inner h)
  | .assign _ _ value, ⟨ht, h⟩ => legible_assigned ht (legible_needValue (legible_expression env value h)) env
  | .call _ _ arguments _, ⟨ht, h⟩ => by
    have hes := legible_expressions env arguments h
    unfold expression
    split
    · next e target heq _ =>
      rw [heq] at hes
      exact legible_convert hes.1 target
    · exact legible_called ht hes env

theorem legible_expressions (env : Env) : (xs : List Tree.Expression) → AllSpelt xs →
    AllLegible (expressions env xs)
  | [], _ => trivial
  | x :: rest, ⟨h, hrest⟩ => ⟨legible_needValue (legible_expression env x h), legible_expressions env rest hrest⟩

end

theorem legible_valueOf {x : Tree.Expression} (h : x.Spelt) (env : Env) (target : Ty) :
    (valueOf env target x).Legible :=
  legible_convert (legible_needValue (legible_expression env x h)) target

end Expression

section Statement

variable {t : Token}

theorem isName_declared (ht : IsName t.text) (c : Context) (readOnly : Bool) (ty : Ty) (s : State) :
    IsName (declared c t readOnly ty s).1.name := by
  have hname : (declared c t readOnly ty s).1.name = t.text := by
    simp only [declared, ht.toIsWord.isMissing rfl, Bool.false_eq_true, if_false]
  exact hname ▸ ht

theorem legible_leaving {value : Option Tree.Expression} (h : ∀ x ∈ value, x.Spelt) (c : Context) (s : State) :
    (leaving c value s).Of (IsName ·.name) Expression.Legible := by
  cases value with
  | none =>
    unfold leaving
    cases c.owner <;> exact nofun
  | some x =>
    have hx : (Lexical.value (c.env s) x).Legible := legible_needValue (legible_expression (c.env s) x (h x rfl))
    unfold leaving
    cases c.owner with
    | none =>
      rintro _ ⟨⟩
      exact hx
    | some f =>
      rintro _ ⟨⟩
      split
      · exact hx
      · exact legible_convert hx f.returns

theorem legible_jump (c : Context) (target : Exits → Label) :
    (jump c target).Of (IsName ·.name) Expression.Legible := by
  unfold jump
  cases c.loops with
  | nil => exact trivial
  | cons x loops => trivial

mutual

theorem legible_statement : (x : Tree.Statement) → x.Spelt → (c : Context) → (s : State) →
    (statement x c s).1.Of (IsName ·.name) Expression.Legible
  | .block _ inner _, h, c, s => legible_statements inner h c s.enter
  | .declare _ _ _ _ initializer, ⟨ht, h⟩, c, s =>
    ⟨isName_declared ht c _ _ s, legible_convert (legible_needValue (legible_expression (c.env s) initializer h)) _⟩
  | .ifThen _ _ branch, ⟨he, h⟩, c, s => ⟨legible_valueOf he _ _, legible_statement branch h c s⟩
  | .ifElse _ _ branch _ otherwise, ⟨he, h, h'⟩, c, s =>
    ⟨legible_valueOf he _ _, legible_statement branch h c s, legible_statement otherwise h' c _⟩
  | .whileLoop _ _ body, ⟨he, h⟩, c, s =>
    ⟨legible_valueOf he _ _, legible_statement body h (c.inLoop s.exits) s.countLoop⟩
  | .doLoop _ body _ _, ⟨he, h⟩, c, s =>
    ⟨legible_valueOf he _ _, legible_statement body h (c.inLoop s.exits) s.countLoop⟩
  | .forLoop _ identifier _ _ _ _ body, ⟨ht, ⟨hl, hu⟩, h⟩, c, s =>
    let inner := (declared c identifier true .int s.enter).2
    ⟨isName_declared ht c _ _ _, ⟨legible_valueOf hl _ _, legible_valueOf hu _ _⟩,
      legible_statement body h (c.inLoop inner.exits) inner.countLoop⟩
  | .breakLoop _, _, c, _ => legible_jump c Exits.leave
  | .continueLoop _, _, c, _ => legible_jump c Exits.again
  | .leave _ _, h, c, s => legible_leaving h c s
  | .expression x, h, c, s => legible_expression (c.env s) x h

theorem legible_statements : (xs : List Tree.Statement) → StatementsSpelt xs → (c : Context) → (s : State) →
    Code.Body.Legible (statements xs c s).1
  | [], _, _, _ => trivial
  | x :: rest, ⟨h, hrest⟩, c, s => ⟨legible_statement x h c s, legible_statements rest hrest c _⟩

end

end Statement

theorem isName_parameters {ps : List Tree.Parameter} (h : ∀ p ∈ ps, IsName p.identifier.text) (seen : List String)
    (n : Nat) : ∀ v ∈ (parameters seen ps n).1, IsName v.name := by
  induction ps generalizing seen n with
  | nil => exact List.forall_mem_nil _
  | cons p rest ih =>
    obtain ⟨hp, hrest⟩ := List.forall_mem_cons.mp h
    unfold parameters
    split
    · exact ih hrest seen n
    · exact List.forall_mem_cons.mpr ⟨hp, ih hrest _ _⟩

end Lexical

/-- A function whose head and statements are written with identifiers, and with literals that can be written. -/
structure FunctionText.Spelt (t : FunctionText) : Prop where
  name : IsName t.function.name
  parameters : ∀ v ∈ t.function.parameters, IsName v.name
  body : StatementsSpelt t.text.body.statements

namespace Lexical

theorem spelt_head {taken : List String} {f : Tree.Function} (h : f.Spelt) {n : Nat} {t : FunctionText}
    (ht : t ∈ (head taken f n).1) : t.Spelt := by
  simp only [head] at ht
  split at ht
  · exact absurd ht (Option.not_mem_none t)
  · obtain rfl := Option.some.inj ht
    exact ⟨h.name, isName_parameters h.parameters [] n, h.body⟩

theorem spelt_heads {fs : List Tree.Function} (h : ∀ f ∈ fs, f.Spelt) (taken : List String) (n : Nat) :
    ∀ t ∈ (heads taken fs n).1, t.Spelt :=
  forall_heads (fun f hf _ _ _ ht ↦ spelt_head (h f hf) ht) taken n

end Lexical

namespace Code

theorem isName_upperBound : IsName "upperBound" := ⟨.of_all rfl (by decide) rfl, by decide⟩

/-- Loops over a range count with identifiers and with a literal that can be written. -/
theorem counts_legible : Counts (IsName ·.name) Expression.Legible := by
  intro v u hv
  have hone : 0 ≤ (1 : Int32).toInt := by decide
  exact ⟨isName_upperBound, ⟨by decide, hv, isName_upperBound⟩, hv, by decide, hv, hone⟩

theorem legible_flattenBody {ss : List Statement} (h : Body.Legible ss) (n : Nat) : (flattenBody ss n).1.Legible :=
  (allOf_flattenBody counts_legible ss n).mpr h

end Code

theorem FunctionText.Spelt.legible_body {t : FunctionText} (h : t.Spelt) (layers : Layers) (n : Nat) :
    (t.body layers n).body.Legible := by
  have hlegible : Code.Body.Legible (t.resolved layers n).1 :=
    t.code_eq layers n ▸ Lexical.legible_statements _ h.body _ _
  exact Code.legible_flattenBody hlegible _

namespace Layer

variable {source : Tree.Source} (h : source.Spelt) (earlier : Layers) (n : Nat)
include h

theorem spelt_functions : ∀ t ∈ (ofSource earlier source n).1.functions, t.Spelt := by
  rw [functions_eq]
  refine Lexical.spelt_heads (fun f hf ↦ ?_) [] n
  obtain ⟨m, hm, hfunction⟩ := List.mem_filterMap.mp hf
  cases m with
  | function g =>
    obtain rfl := Option.some.inj hfunction
    exact h _ hm
  | statement s => nomatch hfunction

theorem legible_statements : Code.Body.Legible (ofSource earlier source n).1.statements := by
  rw [statements_eq]
  refine Lexical.legible_statements source.outside (Tree.statementsSpelt_iff.mpr fun s hs ↦ ?_) _ _
  obtain ⟨m, hm, hstatement⟩ := List.mem_filterMap.mp hs
  cases m with
  | statement s' =>
    obtain rfl := Option.some.inj hstatement
    exact h _ hm
  | function f => nomatch hstatement

end Layer

end SmallScript
