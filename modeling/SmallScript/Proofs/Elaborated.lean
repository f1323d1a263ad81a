import Mathlib.Data.List.Forall2
import SmallScript.Proofs.Chain
import SmallScript.Proofs.Resolve.Fresh
import SmallScript.Proofs.Tree.Reading
import SmallScript.Proofs.Typing.Elaborates
import SmallScript.Proofs.Typing.Program

namespace SmallScript

open Code (Body Rules AllTyped)

open SmallScript.Tree (Whole StatementsElaborate)

namespace Tree

/-- What a parameter is declared as. -/
structure Parameter.Elaborates (p : Parameter) (v : Variable) : Prop where
  name : v.name = p.identifier.text
  ty : Ty.written? p.clause.identifier.text = some v.ty
  readOnly : v.readOnly = true

/-- What a function is declared as. One without a type gives no value. -/
structure Function.Elaborates (text : Function) (f : SmallScript.Function) : Prop where
  name : f.name = text.identifier.text
  parameters : List.Forall₂ Parameter.Elaborates text.parameters f.parameters
  returns : ∀ written, text.clause = some written → Ty.written? written.identifier.text = some f.returns
  noReturns : text.clause = none → f.returns = .void

end Tree

namespace Resolver

variable {F : Function → Prop}

theorem elaborates_parameters (seen : List String) (ps : List Tree.Parameter)
    (hw : Whole (ps.flatMap Tree.Parameter.tokens)) :
    Resolves F (parameters seen ps) fun vs ↦ List.Forall₂ Tree.Parameter.Elaborates ps vs := by
  induction ps generalizing seen with
  | nil => exact .pure .nil
  | cons p rest ih =>
    obtain ⟨hp, hrest⟩ := Whole.append_iff.mp hw
    refine .bind ((honest_clauseType? (some p.clause)).and (elaborates_clauseType? (some p.clause))) ?_
    intro o
    refine .ite (fun _ ↦ ?_) fun _ ↦ ?_
    · exact .bind (honest_report _ _) fun _ ↦ (ih seen hrest).mono fun _ _ h ↦ h.elim
    · refine .bind resolves_freshSymbol ?_
      intro n
      refine .bind (ih _ hrest) fun vs ↦ .pure fun hvs _ ⟨ho, hwritten⟩ ↦ ?_
      obtain ⟨t, rfl⟩ := Option.isSome_iff_exists.mp (ho (Whole.cons_iff.mp hp).2).1
      exact .cons ⟨rfl, hwritten t rfl _ rfl, rfl⟩ hvs

theorem elaborates_functionHead (text : Tree.Function) (hw : Whole text.tokens) :
    Resolves (fun _ ↦ True) (functionHead text) fun o ↦
      ∃ f, o = some ⟨f, text⟩ ∧ text.Elaborates f := by
  have hw' := hw
  simp only [Tree.Function.tokens, List.cons_append, Whole.append_iff, Whole.cons_iff] at hw'
  obtain ⟨-, hname, -, ⟨hps, -, hclause⟩, -⟩ := hw'
  refine .bind (elaborates_parameters [] text.parameters hps) fun vs ↦
    .bind ((honest_clauseType? text.clause).and (elaborates_clauseType? text.clause)) fun o ↦
      .bind resolves_freshSymbol fun n ↦ .ite (fun hm ↦ ?_) fun _ ↦ ?_
  · exact Bool.noConfusion (hm.symm.trans hname)
  refine .bind (resolves_declareFunction trivial) ?_
  intro b
  refine .ite (fun _ ↦ .pure fun _ _ hreturns hvs ↦ ?_) fun _ ↦ ?_
  · obtain ⟨ho, hwritten⟩ := hreturns
    refine ⟨_, rfl, ⟨rfl, hvs, fun written h ↦ ?_, fun h ↦ ?_⟩⟩
    · obtain ⟨t, rfl⟩ := Option.isSome_iff_exists.mp ((ho hclause).1.trans (h ▸ rfl))
      exact hwritten t rfl written h
    · obtain rfl := Option.isNone_iff_eq_none.mp (by simpa [h] using (ho hclause).1 : o.isNone)
      rfl
  · exact .bind (honest_report _ _) fun _ ↦ .pure fun h ↦ h.elim

theorem elaborates_functionHeads (ms : List Tree.Member)
    (hw : Whole (ms.flatMap Tree.Member.tokens)) :
    Resolves (fun _ ↦ True) (functionHeads ms) fun ts ↦
      List.Forall₂ (fun text t ↦ t.text = text ∧ text.Elaborates t.function)
        (ms.filterMap Tree.Member.function?) ts := by
  induction ms with
  | nil => exact .pure .nil
  | cons m rest ih =>
    obtain ⟨hm, hrest⟩ := Whole.append_iff.mp hw
    cases m with
    | statement s => exact ih hrest
    | function text =>
      refine .bind (elaborates_functionHead text hm) ?_
      intro o
      cases o with
      | none => exact (ih hrest).mono fun _ _ ⟨_, h, _⟩ ↦ nomatch h
      | some t =>
        refine .bind (ih hrest) fun ts ↦ .pure fun hts ⟨f, ht, hf⟩ ↦ ?_
        cases ht
        exact .cons ⟨rfl, hf⟩ hts

end Resolver

/-- All that a text declares has a type, all its functions are declared as they are written, and its
statements are what they say, with operands, arguments and values of the types asked for. -/
structure Layer.Elaborated (F : Function → Prop) (source : Tree.Source) (layer : Layer) : Prop where
  vars : ∀ v ∈ layer.vars, v.ty.IsValue
  heads : List.Forall₂ (fun text t ↦ t.text = text ∧ text.Elaborates t.function)
    source.functions layer.functions
  proper : ∀ t ∈ layer.functions, t.function.Proper
  typed : AllTyped (.source F) none layer.statements
  elaborated : StatementsElaborate source.outside layer.statements

/-- The body of a function before and after it is flattened. -/
structure FunctionText.Elaborated (layers : Layers) (t : FunctionText) (statements : List Code.Statement)
    (body : Body) : Prop where
  typed : AllTyped (.source layers.Callable) (some t.function) statements
  elaborated : StatementsElaborate t.text.body.statements statements
  flat : ∃ n, body = (Code.flattenBody statements n).1
  sound : body.Sound (Rules.source layers.Callable).flat (some t.function)

namespace Layers

/-- Each layer is what its tree says, and calls functions of its own and of those before it. -/
def Elaborated : Layers → List Tree.Source → Prop
  | [], [] => True
  | layer :: earlier, source :: sources =>
    layer.Elaborated (Callable (layer :: earlier)) source ∧ Elaborated earlier sources
  | _, _ => False

variable {layers : Layers} {sources : List (Tree.Source × Nat)}

theorem Sound.elaborated {earlier : Layers} (h : earlier.Sound) {source : Tree.Source}
    (hw : Whole source.tokens) {n : Nat}
    (hquiet : (Layer.ofSource earlier source n).1.reports = []) :
    (Layer.ofSource earlier source n).1.Elaborated
      (Callable ((Layer.ofSource earlier source n).1 :: earlier)) source := by
  have hms := (Whole.append_iff.mp hw).1
  have hheaded := h.headed hw hquiet
  obtain ⟨hsound, -⟩ := h.ofSource hw hquiet
  refine ⟨hsound.vars, ?_, fun t ht ↦ (hsound.functions t ht).proper, hsound.statements, ?_⟩
  · exact ((Resolver.elaborates_functionHeads source.members hms).sound (earlier.start n)
      ((h.start n).mono fun _ _ ↦ trivial) hheaded.heads).2
  · exact ((Resolver.elaborates_statements hheaded.proper Layer.owner_proper _
      (Resolver.whole_memberStatements hms)).sound _ hheaded.scopes
        (hheaded.body.trans hheaded.heads.symm)).2

theorem sound_ofSources (hw : ∀ s ∈ sources, Whole s.1.tokens) (hquiet : (ofSources sources).reports = []) :
    (ofSources sources).Sound ∧ (ofSources sources).Elaborated (sources.map Prod.fst) := by
  induction sources with
  | nil => exact ⟨trivial, trivial⟩
  | cons first earlier ih =>
    obtain ⟨hs, hrest⟩ := List.forall_mem_cons.mp hw
    rw [ofSources, reports_cons, List.append_eq_nil_iff] at hquiet
    obtain ⟨hsound, helaborated⟩ := ih hrest hquiet.1
    exact ⟨hsound.ofSource hs hquiet.2, hsound.elaborated hs hquiet.2, helaborated⟩

theorem Sound.body_elaborated (h : layers.Sound) {t : FunctionText} (ht : t.Sound) {n : Nat}
    (hquiet : (t.body layers n).reports = []) :
    t.Elaborated layers (t.resolved layers n).1 (t.body layers n).body := by
  refine ⟨(h.resolved ht hquiet).1, ?_, ⟨_, rfl⟩, h.body ht hquiet⟩
  rw [FunctionText.body_eq] at hquiet
  have howner : ∀ f, some t.function = some f → f.returns ≠ .unknown := by
    rintro _ ⟨⟩
    exact ht.proper.2
  exact ((Resolver.resolves_inside (Resolver.elaborates_statements h.proper howner _ ht.wholeBody)).sound
    (t.start layers n) ((h.start n).declareVariables _ ht.proper.1)
    (List.reverse_eq_nil_iff.mp (List.append_eq_nil_iff.mp hquiet).1)).2

theorem Sound.bodies_elaborated (h : layers.Sound) {ts : List FunctionText} (hts : ∀ t ∈ ts, t.Sound)
    {n : Nat} (hquiet : (Program.functionBodies layers n ts).2.1 = []) :
    List.Forall₂ (fun t p ↦ p.1 = t.function ∧ ∃ statements, t.Elaborated layers statements p.2)
      ts (Program.functionBodies layers n ts).1 := by
  induction ts generalizing n with
  | nil => exact .nil
  | cons t rest ih =>
    obtain ⟨ht, hrest⟩ := List.forall_mem_cons.mp hts
    obtain ⟨hfirst, hlater⟩ := List.append_eq_nil_iff.mp hquiet
    exact .cons ⟨rfl, _, h.body_elaborated ht hfirst⟩ (ih hrest hlater)

/-- The binder does not fail silently. Where it reports nothing on a chain of trees that lack no
token, nor on their program, each layer and the body of each function is well-typed and is what its
tree says, and so is the flat code of the program. -/
theorem elaborated_of_quiet (hw : ∀ s ∈ sources, Whole s.1.tokens)
    (hquiet : (ofSources sources).reports = []) {n : Nat}
    (hprogram : (Program.ofLayers (ofSources sources) n).1.reports = []) :
    (ofSources sources).Elaborated (sources.map Prod.fst) ∧
    List.Forall₂
      (fun t p ↦ p.1 = t.function ∧ ∃ statements, t.Elaborated (ofSources sources) statements p.2)
      ((ofSources sources).flatMap (·.functions)) (Program.ofLayers (ofSources sources) n).1.functions ∧
    (Program.ofLayers (ofSources sources) n).1.Sound (ofSources sources).Callable := by
  obtain ⟨hsound, helaborated⟩ := sound_ofSources hw hquiet
  refine ⟨helaborated, hsound.bodies_elaborated (fun t ht ↦ ?_) hprogram, hsound.ofLayers hprogram⟩
  obtain ⟨l, hl, ht⟩ := List.mem_flatMap.mp ht
  exact hsound.functions hl t ht

/-- Two texts. The second one converts what a function of the first one gives back. -/
def conversions : List (Tree.Source × Nat) :=
  [((Tree.ofText "x = int(f(x)) + int(x)").source, 9),
    ((Tree.ofText "function f(n: int): string \x7b return string(n + 1) \x7d var x = 1").source, 3)]

theorem elaborated_conversions : (∀ s ∈ conversions, Whole s.1.tokens) ∧
    (ofSources conversions).reports = [] ∧ (Program.ofLayers (ofSources conversions) 9).1.reports = [] ∧
    (ofSources conversions).Elaborated (conversions.map Prod.fst) := by
  have hw : ∀ s ∈ conversions, Whole s.1.tokens := by
    rw [conversions, List.forall_mem_cons, List.forall_mem_singleton]
    dsimp only
    refine ⟨Tree.whole_of_reports_eq_nil ?_, Tree.whole_of_reports_eq_nil ?_⟩
    · rw [Tree.ofText_ofList]
      decide +kernel
    · rw [Tree.ofText_ofList]
      decide +kernel
  have hquiet : (ofSources conversions).reports = [] := by
    rw [conversions, Tree.ofText_ofList, Tree.ofText_ofList]
    decide +kernel
  have hprogram : (Program.ofLayers (ofSources conversions) 9).1.reports = [] := by
    rw [conversions, Tree.ofText_ofList, Tree.ofText_ofList]
    decide +kernel
  exact ⟨hw, hquiet, hprogram, (elaborated_of_quiet hw hquiet hprogram).1⟩

end Layers

end SmallScript
