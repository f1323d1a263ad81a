import SmallScript.Proofs.Code.Writes
import SmallScript.Proofs.Lexical.Basic
import SmallScript.Proofs.Lexical.Texts
import SmallScript.Proofs.Run.Trace

namespace SmallScript

open Code (declaredBy nodesAll AllOf)

/-- An expression assigns only variables with `A`, and calls functions only with numbers of arguments that
have `C`. -/
def Code.Expression.Within (A : Variable → Prop) (C : Function → Nat → Prop) (e : Expression) : Prop :=
  e.Assigns A ∧ e.Respects (fun _ ↦ True) C

namespace Lexical

open Code (Expression Statement)

def Allows (A : Variable → Prop) (scopes : List (List Variable)) : Prop := ∀ vars ∈ scopes, ∀ v ∈ vars, A v

def AllowsCalls (C : Function → Nat → Prop) (functions : List Function) : Prop :=
  ∀ name : String, ∀ f ∈ functions.find? (·.name == name), C f f.parameters.length

variable {A : Variable → Prop} {C : Function → Nat → Prop} {scopes : List (List Variable)} {v : Variable}

theorem AllowsCalls.of_forall {functions : List Function} (h : ∀ f ∈ functions, C f f.parameters.length) :
    AllowsCalls C functions := fun _ f hf ↦ h f (List.mem_of_find?_eq_some hf)

theorem Allows.lookup (h : Allows A scopes) {name : String} (hv : lookup scopes name = some v) : A v := by
  obtain ⟨vars, hvars, hv⟩ := List.exists_of_findSome?_eq_some hv
  exact h vars hvars v (List.mem_of_find?_eq_some hv)

theorem Allows.enter (h : Allows A scopes) : Allows A ([] :: scopes) := List.forall_mem_cons.mpr ⟨List.forall_mem_nil A, h⟩

theorem Allows.declare (h : Allows A scopes) (hv : A v) : Allows A (declare v scopes) := by
  cases scopes with
  | nil => exact h
  | cons vars outer =>
    obtain ⟨hvars, houter⟩ := List.forall_mem_cons.mp h
    refine List.forall_mem_cons.mpr ⟨?_, houter⟩
    split
    · exact hvars
    · exact List.forall_mem_append.mpr ⟨hvars, List.forall_mem_singleton.mpr hv⟩

section Expression

variable {e e' : Expression} {env : Env}

theorem within_error : Expression.error.Within A C := ⟨List.forall_mem_nil A, trivial⟩

theorem within_needValue (h : e.Within A C) : (needValue e).Within A C := by
  unfold needValue
  split
  · exact within_error
  · exact h

theorem within_convert (h : e.Within A C) (target : Ty) : (convert e target).Within A C := by
  unfold convert
  split
  · exact within_error
  · exact h
  · exact h
  · exact h

theorem within_named (env : Env) (identifier : Token) : (named env identifier).Within A C := by
  unfold named
  split
  · exact within_error
  · cases env.var? identifier.text with
    | none => exact within_error
    | some v => exact ⟨List.forall_mem_nil A, trivial⟩

theorem within_assigned (hA : Allows A env.scopes) (h : e.Within A C) (identifier : Token) :
    (assigned env identifier e).Within A C := by
  unfold assigned
  cases hv : env.var? identifier.text with
  | none => exact h
  | some v =>
    obtain ⟨hassigns, hrespects⟩ := within_convert h v.ty
    exact ⟨List.forall_mem_cons.mpr ⟨hA.lookup hv, hassigns⟩, hrespects⟩

theorem within_unary (h : e.Within A C) (sign : Token) : (unary sign e).Within A C := by
  unfold unary
  split
  · exact within_error
  · cases UnaryOperator.find? sign.kind e.ty with
    | none => exact within_error
    | some o => exact h

theorem within_binary (h : e.Within A C) (h' : e'.Within A C) (sign : Token) :
    (binary e sign e').Within A C := by
  unfold binary
  split
  · exact within_error
  · cases BinaryOperator.find? sign.kind e.ty e'.ty with
    | none => exact within_error
    | some o => exact ⟨List.forall_mem_append.mpr ⟨h.1, h'.1⟩, h.2, h'.2⟩

theorem within_all {es : List Expression} (h : ∀ e ∈ es, e.Within A C) :
    (∀ v ∈ Code.assignedAll es, A v) ∧ Code.AllRespect (fun _ ↦ True) C es := by
  induction es with
  | nil => exact ⟨List.forall_mem_nil A, trivial⟩
  | cons e es ih =>
    obtain ⟨⟨hassigns, hrespects⟩, hes⟩ := List.forall_mem_cons.mp h
    obtain ⟨hassigns', hrespects'⟩ := ih hes
    exact ⟨List.forall_mem_append.mpr ⟨hassigns, hassigns'⟩, hrespects, hrespects'⟩

theorem within_called (hC : AllowsCalls C env.functions) {es : List Expression}
    (h : ∀ e ∈ es, e.Within A C) (identifier : Token) : (called env identifier es).Within A C := by
  unfold called
  cases hf : env.function? identifier.text with
  | none => exact within_error
  | some f =>
    dsimp only
    split
    · next heq =>
      have hlength : es.length = f.parameters.length := by simpa using congrArg List.length heq
      obtain ⟨hassigns, hrespects⟩ := within_all h
      exact ⟨hassigns, hlength ▸ hC _ f hf, hrespects⟩
    · exact within_error

mutual

theorem within_expression (hA : Allows A env.scopes) (hC : AllowsCalls C env.functions) :
    (e : Tree.Expression) → (expression env e).Within A C
  | .literal _ _ => ⟨List.forall_mem_nil A, trivial⟩
  | .name identifier => within_named env identifier
  | .unary sign operand => within_unary (within_needValue (within_expression hA hC operand)) sign
  | .binary left sign right =>
    within_binary (within_needValue (within_expression hA hC left)) (within_needValue (within_expression hA hC right)) sign
  | .group _ inner _ => within_needValue (within_expression hA hC inner)
  | .assign identifier _ value => within_assigned hA (within_needValue (within_expression hA hC value)) identifier
  | .call identifier _ arguments _ => by
    have hes := within_expressions hA hC arguments
    unfold expression
    split
    · next e target heq _ => exact within_convert (hes e (heq ▸ List.mem_singleton_self e)) target
    · exact within_called hC hes identifier

theorem within_expressions (hA : Allows A env.scopes) (hC : AllowsCalls C env.functions) :
    (es : List Tree.Expression) → ∀ e ∈ expressions env es, e.Within A C
  | [] => List.forall_mem_nil _
  | e :: rest => List.forall_mem_cons.mpr ⟨within_needValue (within_expression hA hC e), within_expressions hA hC rest⟩

end

variable (hA : Allows A env.scopes) (hC : AllowsCalls C env.functions)
include hA hC

theorem within_value (e : Tree.Expression) : (value env e).Within A C :=
  within_needValue (within_expression hA hC e)

theorem within_valueOf (target : Ty) (e : Tree.Expression) : (valueOf env target e).Within A C :=
  within_convert (within_value hA hC e) target

end Expression

section Statement

variable {c : Context} {s : State}

theorem Allows.declared (h : Allows A s.scopes) {identifier : Token} {readOnly : Bool} {ty : Ty}
    (hv : A (declared c identifier readOnly ty s).1) :
    Allows A (declared c identifier readOnly ty s).2.scopes := by
  revert hv
  unfold Lexical.declared
  cases identifier.isMissing with
  | true => exact fun _ ↦ h
  | false => exact h.declare

theorem within_leaving (hs : Allows A s.scopes) (hC : AllowsCalls C c.functions)
    (e : Option Tree.Expression) : (leaving c e s).Of (fun _ ↦ True) (·.Within A C) := by
  cases e with
  | none =>
    unfold leaving
    cases c.owner <;> exact nofun
  | some e =>
    have he : (value (c.env s) e).Within A C := within_value hs hC e
    unfold leaving
    cases c.owner with
    | none =>
      rintro _ ⟨⟩
      exact he
    | some f =>
      rintro _ ⟨⟩
      split
      · exact he
      · exact within_convert he f.returns

theorem within_jump (c : Context) (target : Exits → Label) :
    (jump c target).Of (fun _ ↦ True) (·.Within A C) := by
  unfold jump
  cases c.loops with
  | nil => exact within_error
  | cons x loops => trivial

mutual

theorem within_statement : (t : Tree.Statement) → (c : Context) → (s : State) →
    AllowsCalls C c.functions → Allows A s.scopes →
    (∀ v ∈ declaredBy (statement t c s).1.nodes, A v) →
      (statement t c s).1.Of (fun _ ↦ True) (·.Within A C) ∧ Allows A (statement t c s).2.scopes
  | .block _ inner _, c, s, hC, hs, hA => ⟨(within_statements inner c s.enter hC hs.enter hA).1, hs⟩
  | .declare keyword identifier clause _ initializer, c, s, hC, hs, hA =>
    ⟨⟨trivial, within_convert (within_value hs hC initializer) _⟩,
      hs.declared (c := c) (hA _ (List.mem_singleton_self _))⟩
  | .ifThen _ condition branch, c, s, hC, hs, hA => by
    obtain ⟨hbranch, hlast⟩ := within_statement branch c s hC hs hA
    exact ⟨⟨within_valueOf hs hC .bool condition, hbranch⟩, hlast⟩
  | .ifElse _ condition branch _ otherwise, c, s, hC, hs, hA => by
    obtain ⟨hA, hA'⟩ := Code.forall_declaredBy_append.mp hA
    obtain ⟨hbranch, hmiddle⟩ := within_statement branch c s hC hs hA
    obtain ⟨hotherwise, hlast⟩ := within_statement otherwise c _ hC hmiddle hA'
    exact ⟨⟨within_valueOf hs hC .bool condition, hbranch, hotherwise⟩, hlast⟩
  | .whileLoop _ condition body, c, s, hC, hs, hA => by
    obtain ⟨hbody, hlast⟩ := within_statement body (c.inLoop s.exits) s.countLoop hC hs hA
    exact ⟨⟨within_valueOf hs hC .bool condition, hbody⟩, hlast⟩
  | .doLoop _ body _ condition, c, s, hC, hs, hA => by
    obtain ⟨hbody, hlast⟩ := within_statement body (c.inLoop s.exits) s.countLoop hC hs hA
    exact ⟨⟨within_valueOf hlast hC .bool condition, hbody⟩, hlast⟩
  | .forLoop _ identifier _ lower _ upper body, c, s, hC, hs, hA => by
    obtain ⟨hv, hA⟩ := List.forall_mem_cons.mp hA
    obtain ⟨hbody, -⟩ := within_statement body (c.inLoop (declared c identifier true .int s.enter).2.exits)
      (declared c identifier true .int s.enter).2.countLoop hC (hs.enter.declared hv) hA
    exact ⟨⟨trivial, ⟨within_valueOf hs hC .int lower, within_valueOf hs hC .int upper⟩, hbody⟩, hs⟩
  | .breakLoop _, c, _, _, hs, _ => ⟨within_jump c Exits.leave, hs⟩
  | .continueLoop _, c, _, _, hs, _ => ⟨within_jump c Exits.again, hs⟩
  | .leave _ e, _, _, hC, hs, _ => ⟨within_leaving hs hC e, hs⟩
  | .expression e, _, _, hC, hs, _ => ⟨within_expression hs hC e, hs⟩

theorem within_statements : (ts : List Tree.Statement) → (c : Context) → (s : State) →
    AllowsCalls C c.functions → Allows A s.scopes →
    (∀ v ∈ declaredBy (nodesAll (statements ts c s).1), A v) →
      AllOf (fun _ ↦ True) (·.Within A C) (statements ts c s).1 ∧ Allows A (statements ts c s).2.scopes
  | [], _, _, _, hs, _ => ⟨trivial, hs⟩
  | t :: rest, c, s, hC, hs, hA => by
    obtain ⟨hA, hA'⟩ := Code.forall_declaredBy_append.mp hA
    obtain ⟨hfirst, hmiddle⟩ := within_statement t c s hC hs hA
    obtain ⟨hrest, hlast⟩ := within_statements rest c _ hC hmiddle hA'
    exact ⟨⟨hfirst, hrest⟩, hlast⟩

end

end Statement

section Text

/-- The parameters of a function have different names, none of which was seen before. -/
theorem nodup_parameters (seen : List String) (ps : List Tree.Parameter) (n : Nat) :
    ((parameters seen ps n).1.map Variable.name).Nodup ∧
      ∀ v ∈ (parameters seen ps n).1, v.name ∉ seen := by
  induction ps generalizing seen n with
  | nil => exact ⟨.nil, List.forall_mem_nil _⟩
  | cons p rest ih =>
    unfold parameters
    split
    · exact ih seen n
    · next hfree =>
      obtain ⟨hnodup, hseen⟩ := ih (p.identifier.text :: seen) (n + 1)
      refine ⟨List.nodup_cons.mpr ⟨fun hname ↦ ?_, hnodup⟩, List.forall_mem_cons.mpr ⟨hfree, fun v hv hname ↦ ?_⟩⟩
      · obtain ⟨v, hv, heq⟩ := List.mem_map.mp hname
        exact hseen v hv (heq ▸ List.mem_cons_self)
      · exact hseen v hv (List.mem_cons_of_mem _ hname)

theorem nodup_head {taken : List String} {text : Tree.Function} {n : Nat} {t : FunctionText}
    (ht : t ∈ (head taken text n).1) : t.function.parameters.Nodup := by
  simp only [head] at ht
  split at ht
  · cases ht
  · obtain rfl := Option.some.inj ht
    exact (nodup_parameters [] text.parameters n).1.of_map _

theorem forall_heads {P : FunctionText → Prop} {ts : List Tree.Function}
    (h : ∀ text ∈ ts, ∀ taken n, ∀ t ∈ (head taken text n).1, P t) (taken : List String) (n : Nat) :
    ∀ t ∈ (heads taken ts n).1, P t := by
  induction ts generalizing taken n with
  | nil => simp [heads]
  | cons text rest ih =>
    obtain ⟨hfirst, hrest⟩ := List.forall_mem_cons.mp h
    have hlater := ih hrest (taken ++ (head taken text n).1.toList.map (·.function.name)) (head taken text n).2
    simp only [heads]
    intro t ht
    rcases List.mem_append.mp ht with ht | ht
    · exact hfirst taken n t (Option.mem_toList.mp ht)
    · exact hlater t ht

theorem nodup_heads (taken : List String) (ts : List Tree.Function) (n : Nat) :
    ∀ t ∈ (heads taken ts n).1, t.function.parameters.Nodup :=
  forall_heads (fun _ _ _ _ _ ↦ nodup_head) taken n

theorem nodup_callables (sources : List (Tree.Source × Nat)) :
    ∀ f ∈ callables (texts sources), f.parameters.Nodup := by
  have htexts : ∀ m ∈ texts sources, ∀ t ∈ m.functions, t.function.parameters.Nodup := by
    induction sources with
    | nil => exact List.forall_mem_nil _
    | cons first earlier ih =>
      obtain ⟨source, n⟩ := first
      exact List.forall_mem_cons.mpr ⟨nodup_heads [] source.functions n, ih⟩
  refine List.forall_mem_append.mpr ⟨fun f hf ↦ ?_, by decide⟩
  obtain ⟨t, ht, rfl⟩ := List.mem_map.mp hf
  obtain ⟨m, hm, ht⟩ := List.mem_flatMap.mp ht
  exact htexts m hm t ht

end Text

end Lexical

open Code (AllOf)
open Lexical (AllowsCalls)

namespace Code

variable {A : Variable → Prop} {C : Function → Nat → Prop}

theorem countsWith_within (A : Variable → Prop) (C : Function → Nat → Prop) : CountsWith A (·.Within A C) :=
  fun _ _ hv ↦ ⟨⟨List.forall_mem_nil A, trivial, trivial⟩, List.forall_mem_singleton.mpr hv, trivial, trivial⟩

theorem calls_flattenBody {ss : List Statement} (h : AllOf A (·.Within A C) ss) (n : Nat) :
    ∀ s ∈ (flattenBody ss n).1, ∀ e ∈ s.operand?, e.Within A C :=
  fun s hs _ he ↦ (allOf_iff.mp (operands_flattenAll (countsWith_within A C) ss ⟨0, n⟩ h) s hs).operand he

end Code

namespace Layers

variable {C : Function → Nat → Prop} {layers : Layers}

/-- The body of a function calls what names stand for behind all texts. -/
theorem calls_body (h : AllowsCalls C layers.callables) (t : FunctionText) (n : Nat) :
    ∀ s ∈ (t.body layers n).body, ∀ e ∈ s.operand?, e.Respects (fun _ ↦ True) C := by
  have hwithin : AllOf (fun _ ↦ True) (·.Within (fun _ ↦ True) C) (t.resolved layers n).1 := by
    rw [← callables_meaning] at h
    rw [t.code_eq]
    exact (Lexical.within_statements t.text.body.statements _ _ h (fun _ _ _ _ ↦ trivial) fun _ _ ↦ trivial).1
  exact fun s hs e he ↦ (Code.calls_flattenBody hwithin _ s hs e he).2

theorem calls_main {earlier : Layers} (source : Tree.Source) (n k : Nat)
    (h : AllowsCalls C (callables ((Layer.ofSource earlier source n).1 :: earlier))) :
    ∀ s ∈ (Code.flattenBody (Layer.ofSource earlier source n).1.statements k).1, ∀ e ∈ s.operand?,
      e.Respects (fun _ ↦ True) C := by
  have hwithin : AllOf (fun _ ↦ True) (·.Within (fun _ ↦ True) C) (Layer.ofSource earlier source n).1.statements := by
    rw [callables_cons, Layer.functions_eq, ← callables_meaning] at h
    rw [Layer.statements_eq]
    exact (Lexical.within_statements source.outside _ _ h (fun _ _ _ _ ↦ trivial) fun _ _ ↦ trivial).1
  exact fun s hs e he ↦ (Code.calls_flattenBody hwithin k s hs e he).2

end Layers

end SmallScript
