import SmallScript.Proofs.Chain
import SmallScript.Proofs.Lexical.Agrees
import SmallScript.Proofs.Resolve.Bodies

namespace SmallScript

open Lexical (Context State Meaning lookup)

namespace Lexical

theorem lookup_eq_find? (scopes : List (List Variable)) (name : String) :
    lookup scopes name = scopes.flatten.find? (·.name == name) := by
  induction scopes with
  | nil => rfl
  | cons vars outer ih =>
    rw [lookup, List.findSome?_cons, List.flatten_cons, List.find?_append, ← ih]
    cases vars.find? (·.name == name) <;> rfl

end Lexical

/-- What a layer means to those after it, and its statements, whatever was reported on it. -/
def Layer.meaning (layer : Layer) : Meaning := ⟨layer.functions, layer.vars, layer.statements⟩

namespace Layers

variable (layers : Layers)

theorem lookup_meaning (name : String) :
    lookup (layers.map (·.meaning.vars)) name = layers.frames.reverse.findSome? (·.lookupVariable name) := by
  rw [findSome?_lookupVariable, Lexical.lookup_eq_find?]
  rfl

theorem callables_meaning : Lexical.callables (layers.map Layer.meaning) = layers.callables := by
  rw [Lexical.callables, callables, List.flatMap_map]
  rfl

end Layers

namespace Resolution.Outside

variable {earlier : Layers} {vars : List Variable} {ts : List FunctionText} {r : Resolution}

/-- Outside functions, what is around a place are the layers before, and the functions of the text. -/
theorem agrees (h : r.Outside earlier vars ts) :
    Context.Agrees ⟨none, ts.map (·.function) ++ Lexical.callables (earlier.map Layer.meaning), []⟩
      ⟨vars :: earlier.map (·.meaning.vars), r.nextSymbol, r.loopCount⟩ r where
  stands := h.stands
  vars := by
    rw [h.seen]
    exact ⟨_, rfl, fun name ↦ (earlier.lookup_meaning name).symm⟩
  functions name := by
    rw [h.seen, List.findSome?_cons, Layers.findSome?_lookupFunction, List.find?_append,
      Layers.callables_meaning, Frame.lookupFunction]
    cases (ts.map (·.function)).find? (·.name == name) <;> rfl
  loops := h.loops
  loopCount := rfl
  nextSymbol := rfl

end Resolution.Outside

namespace Resolver

theorem parameters_apply (seen : List String) (ps : List Tree.Parameter) (r : Resolution) :
    ((parameters seen ps r).1, (parameters seen ps r).2.nextSymbol) =
      Lexical.parameters seen ps r.nextSymbol := by
  induction ps generalizing seen r with
  | nil => rfl
  | cons p rest ih =>
    obtain ⟨new, hnew⟩ := reporting_clauseType? (some p.clause) r
    have hty := clauseType?_fst (some p.clause) r
    have hstep : parameters seen (p :: rest) r = (if p.identifier.text ∈ seen then do
        report p.span (.parameterRepeated p.identifier.text)
        parameters seen rest
      else do
        let v : Variable :=
          ⟨← freshSymbol, p.identifier.text, .parameter, (clauseType? (some p.clause) r).1.getD .unknown, true⟩
        return v :: (← parameters (p.identifier.text :: seen) rest)) (clauseType? (some p.clause) r).2 := rfl
    rw [hstep, hnew, hty, Lexical.parameters]
    split
    · exact ih seen _
    · have hrest := ih (p.identifier.text :: seen) { r with reports := new ++ r.reports, nextSymbol := r.nextSymbol + 1 }
      rw [← hrest]
      rfl

variable {earlier : Layers} {vars : List Variable} {ts : List FunctionText} {r : Resolution}

theorem outside_functionHead (h : r.Outside earlier vars ts) (text : Tree.Function) :
    (functionHead text r).2.Outside earlier vars (ts ++ (functionHead text r).1.toList) := by
  obtain ⟨hkept, ⟨hseen, -⟩, -⟩ := stacked_functionHead text r h.stands
  refine ⟨hkept.stands h.stands, ((within_functionHead text).sound r h.loops rfl).1, ?_⟩
  rw [hseen, h.seen, widen, List.map_append, List.append_nil]

theorem declareFunction_free (h : r.Outside earlier vars ts) (f : Function) :
    (declareFunction f r).1 = decide (f.name ∉ ts.map (·.function.name)) := by
  obtain ⟨-, g, rest, hseen, -, hfree⟩ := stacked_declareFunction f r h.stands
  obtain ⟨rfl, -⟩ := List.cons.inj (hseen.symm.trans h.seen)
  rw [hfree, ← Option.not_isSome, decide_not]
  refine congrArg (!·) (Bool.eq_iff_iff.mpr ?_)
  rw [Frame.isSome_lookupFunction, decide_eq_true_iff]
  simp

def declareHead (text : Tree.Function) (f : Function) : Resolver (Option FunctionText) := do
  if text.identifier.isMissing then return none
  if ← declareFunction f then return some ⟨f, text⟩
  report text.identifier.span (.functionRedeclared text.identifier.text)
  return none

theorem declareHead_apply (h : r.Outside earlier vars ts) (text : Tree.Function) (f : Function) :
    declareHead text f r = (if text.identifier.isMissing ∨ f.name ∈ ts.map (·.function.name) then none
      else some ⟨f, text⟩, (declareHead text f r).2) ∧
    (declareHead text f r).2.nextSymbol = r.nextSymbol := by
  have hfree := declareFunction_free h f
  have hnext : (declareFunction f r).2.nextSymbol = r.nextSymbol := by rw [declareFunction_snd]
  cases hm : text.identifier.isMissing with
  | true =>
    have hstep : declareHead text f r = (none, r) := by
      unfold declareHead
      rw [if_pos hm]
      rfl
    rw [hstep, if_pos (.inl rfl)]
    exact ⟨rfl, rfl⟩
  | false =>
    have hstep : declareHead text f r = (if (declareFunction f r).1 then return some ⟨f, text⟩ else do
        report text.identifier.span (.functionRedeclared text.identifier.text)
        return none : Resolver (Option FunctionText)) (declareFunction f r).2 := by
      simp only [declareHead, hm]
      rfl
    rw [hstep, hfree]
    by_cases hname : f.name ∈ ts.map (·.function.name)
    · simp only [hname]
      exact ⟨rfl, hnext⟩
    · simp only [hname]
      exact ⟨rfl, hnext⟩

theorem functionHead_apply (h : r.Outside earlier vars ts) (text : Tree.Function) :
    ((functionHead text r).1, (functionHead text r).2.nextSymbol) =
      Lexical.head (ts.map (·.function.name)) text r.nextSymbol := by
  let r₁ := (parameters [] text.parameters r).2
  let r₂ := (clauseType? text.clause r₁).2
  let r₃ : Resolution := { r₂ with nextSymbol := r₂.nextSymbol + 1 }
  have hparameters := parameters_apply [] text.parameters r
  have hclause := reporting_clauseType? text.clause
  obtain ⟨new, hnew⟩ := hclause r₁
  have hnext : r₂.nextSymbol = r₁.nextSymbol := by
    change (clauseType? text.clause r₁).2.nextSymbol = _
    rw [hnew]
  have h₃ : r₃.Outside earlier vars ts := by
    obtain ⟨hkept, hseen⟩ := stacked_parameters [] text.parameters r h.stands
    have hstands₁ := hkept.stands h.stands
    obtain ⟨hkept₂, hseen₂, -⟩ := hclause.stacked (Q := fun _ _ ↦ True) (fun _ ↦ trivial) r₁ hstands₁
    have hstands₂ := hkept₂.stands hstands₁
    have hloops := ((within_parameters [] text.parameters).sound r h.loops rfl).1
    exact ⟨⟨hstands₂.scope, hstands₂.ordered⟩, (hclause.within.sound r₁ hloops rfl).1,
      (hseen₂.trans hseen).trans h.seen⟩
  have hstep : functionHead text r = declareHead text ⟨.declared r₂.nextSymbol, text.identifier.text,
      (parameters [] text.parameters r).1, (clauseType? text.clause r₁).1.getD .void⟩ r₃ := rfl
  obtain ⟨hhead, hnext₃⟩ := declareHead_apply h₃ text ⟨.declared r₂.nextSymbol, text.identifier.text,
    (parameters [] text.parameters r).1, (clauseType? text.clause r₁).1.getD .void⟩
  rw [hstep, hnext₃, hhead, hnext, clauseType?_fst, Lexical.head, ← hparameters]
  exact congrArg _ (congrArg (· + 1) hnext)

theorem functionHeads_apply (h : r.Outside earlier vars ts) (ms : List Tree.Member) :
    ((functionHeads ms r).1, (functionHeads ms r).2.nextSymbol) =
      Lexical.heads (ts.map (·.function.name)) (ms.filterMap Tree.Member.function?) r.nextSymbol := by
  induction ms generalizing r ts with
  | nil => rfl
  | cons m rest ih =>
    cases m with
    | statement s => exact ih h
    | function text =>
      have hrest := ih (outside_functionHead h text)
      have hhead := functionHead_apply h text
      have hstep : functionHeads (.function text :: rest) r =
          ((functionHead text r).1.toList ++ (functionHeads rest (functionHead text r).2).1,
            (functionHeads rest (functionHead text r).2).2) := by
        rw [functionHeads_cons]
        change ((functionHead text r).1.elim (functionHeads rest) fun t ↦
          functionHeads rest >>= fun ts ↦ pure (t :: ts)) (functionHead text r).2 = _
        cases (functionHead text r).1 <;> rfl
      rw [List.map_append] at hrest
      rw [hstep, List.filterMap_cons, Tree.Member.function?]
      simp only [Lexical.heads, ← hhead, ← hrest]

end Resolver

namespace Layer

variable (earlier : Layers) (source : Tree.Source) (n : Nat)

theorem meaning_ofSource :
    ((ofSource earlier source n).1.meaning, (ofSource earlier source n).2) =
      Lexical.text (earlier.map Layer.meaning) source n := by
  let c : Context := ⟨none, (ofSource earlier source n).1.functions.map (·.function) ++
    Lexical.callables (earlier.map Layer.meaning), []⟩
  let s : State := ⟨[] :: earlier.map (·.meaning.vars), (headed earlier source n).2.nextSymbol, 0⟩
  have hloopCount : (headed earlier source n).2.loopCount = 0 :=
    (Resolver.loopless_functionHeads source.members (earlier.start n)).2.trans (by rw [Layers.start_eq])
  have hagrees := (outside_headed earlier source n).agrees
  rw [hloopCount] at hagrees
  obtain ⟨hcode, -, hafter⟩ : (resolved earlier source n).1 = (Lexical.statements source.outside c s).1 ∧
      _ ∧ c.Agrees (Lexical.statements source.outside c s).2 (resolved earlier source n).2 :=
    Resolver.refines_statements source.outside c s _ hagrees
  have hvars := hafter.vars
  rw [(outside_resolved earlier source n).seen] at hvars
  obtain ⟨outer, hscopes, -⟩ := hvars
  have hheads : Lexical.heads [] source.functions n =
      ((headed earlier source n).1, (headed earlier source n).2.nextSymbol) := by
    have hheads := Resolver.functionHeads_apply (Resolution.Outside.start earlier n) source.members
    rw [nextSymbol_start] at hheads
    exact hheads.symm
  have hmap : (earlier.map Layer.meaning).map (·.vars) = earlier.map (·.meaning.vars) := List.map_map
  have htext : Lexical.text (earlier.map Layer.meaning) source n =
      (⟨(ofSource earlier source n).1.functions, (Lexical.statements source.outside c s).2.scopes.headD [],
        (Lexical.statements source.outside c s).1⟩, (Lexical.statements source.outside c s).2.nextSymbol) := by
    simp only [Lexical.text, hheads, hmap]
    rfl
  rw [htext, ← hcode, hscopes, ← hafter.nextSymbol]
  rfl

theorem functions_eq : (ofSource earlier source n).1.functions = (Lexical.heads [] source.functions n).1 :=
  congrArg (fun m ↦ m.1.functions) (meaning_ofSource earlier source n)

theorem statements_eq : (ofSource earlier source n).1.statements =
    (Lexical.text (earlier.map Layer.meaning) source n).1.statements :=
  congrArg (fun m ↦ m.1.statements) (meaning_ofSource earlier source n)

end Layer

namespace FunctionText

variable (t : FunctionText) (layers : Layers) (n : Nat)

theorem resolved_eq :
    ((t.resolved layers n).1, (t.resolved layers n).2.nextSymbol) =
      Lexical.body (layers.map Layer.meaning) t n := by
  let c : Context := ⟨some t.function, Lexical.callables (layers.map Layer.meaning), []⟩
  let s : State := ⟨[] :: t.function.parameters :: layers.map (·.meaning.vars), n, 0⟩
  have hstands := t.stands_start layers n
  have hparameters (name : String) :
      (t.frame (layers.frames.length - 1)).lookupVariable name = t.function.parameters.find? (·.name == name) := by
    rw [frame, Frame.lookupVariable_foldl]
    rfl
  have hagrees : c.Agrees s (Resolver.enter (t.start layers n)).2 := by
    refine ⟨Resolver.stands_enter hstands, ?_, fun name ↦ ?_, ?_, ?_, ?_⟩
    · rw [Resolver.seen_enter hstands, t.seen_start]
      refine ⟨_, rfl, fun name ↦ ?_⟩
      rw [List.findSome?_cons, hparameters, ← layers.lookup_meaning, lookup, lookup, List.findSome?_cons]
    · rw [Resolver.seen_enter hstands, t.seen_start, List.findSome?_cons, List.findSome?_cons,
        Layers.findSome?_lookupFunction, ← Layers.callables_meaning]
      simp only [Frame.lookupFunction, functions_frame, List.find?_nil]
      rfl
    all_goals rw [t.start_eq]; rfl
  obtain ⟨hcode, -, hafter⟩ := Resolver.refines_statements t.text.body.statements c s _ hagrees
  have hmap : (layers.map Layer.meaning).map (·.vars) = layers.map (·.meaning.vars) := List.map_map
  have hbody : Lexical.body (layers.map Layer.meaning) t n =
      ((Lexical.statements t.text.body.statements c s).1,
        (Lexical.statements t.text.body.statements c s).2.nextSymbol) := by
    simp only [Lexical.body, hmap]
    rfl
  rw [hbody]
  exact Prod.ext hcode hafter.nextSymbol

theorem code_eq : (t.resolved layers n).1 = (Lexical.body (layers.map Layer.meaning) t n).1 :=
  congrArg Prod.fst (t.resolved_eq layers n)

end FunctionText

namespace Program

theorem functionBodies_eq (layers : Layers) (ts : List FunctionText) (n : Nat) :
    ((functionBodies layers n ts).1, (functionBodies layers n ts).2.2) =
      Lexical.bodies (layers.map Layer.meaning) ts n := by
  induction ts generalizing n with
  | nil => rfl
  | cons t rest ih =>
    have hbody := t.resolved_eq layers n
    have hrest := ih (t.body layers n).nextSymbol
    rw [functionBodies_cons, Lexical.bodies, ← hbody]
    rw [FunctionText.body_eq] at hrest ⊢
    simp only [← hrest]

theorem ofLayers_eq (layers : Layers) (n : Nat) :
    ((ofLayers layers n).1.functions, (ofLayers layers n).1.main) =
      Lexical.program (layers.map Layer.meaning) n := by
  have hbodies := functionBodies_eq layers (layers.flatMap (·.functions)) n
  have hfunctions : (layers.map Layer.meaning).flatMap (·.functions) = layers.flatMap (·.functions) :=
    List.flatMap_map ..
  have hmain : (layers.map Layer.meaning).head?.elim [] (·.statements) = layers.head?.elim [] Layer.statements := by
    cases layers <;> rfl
  rw [Lexical.program, hfunctions, ← hbodies, hmain]
  rfl

end Program

namespace Layers

theorem meaning_ofSources (sources : List (Tree.Source × Nat)) :
    (ofSources sources).map Layer.meaning = Lexical.texts sources := by
  induction sources with
  | nil => rfl
  | cons first earlier ih =>
    obtain ⟨source, n⟩ := first
    rw [ofSources, List.map_cons, Lexical.texts, ← ih, ← Layer.meaning_ofSource]

/-- Names are resolved by lexical scope. On every chain of trees the resolver gives each text, and the
bodies of its functions, the code that the lexical scopes around each place give it. Behind a statement
the same scope and the same loops are in force as before it. -/
theorem lexical (sources : List (Tree.Source × Nat)) (n : Nat) :
    (ofSources sources).map Layer.meaning = Lexical.texts sources ∧
    ((Program.ofLayers (ofSources sources) n).1.functions, (Program.ofLayers (ofSources sources) n).1.main) =
      Lexical.program (Lexical.texts sources) n ∧
    ∀ (owner : Option Function) (t : Tree.Statement) (r : Resolution),
      (Resolver.statement owner t r).2.scope = r.scope ∧ (Resolver.statement owner t r).2.loops = r.loops := by
  refine ⟨meaning_ofSources sources, meaning_ofSources sources ▸ Program.ofLayers_eq _ n, fun owner t r ↦ ?_⟩
  exact ⟨(Resolver.loops_statement owner t r).1.scope,
    ((Resolver.within_statement owner t r.loops).sound r rfl rfl).1⟩

end Layers

end SmallScript
