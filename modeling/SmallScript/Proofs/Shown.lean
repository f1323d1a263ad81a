import SmallScript.Proofs.Closed
import SmallScript.Proofs.Lexical.Uses
import SmallScript.Proofs.Run.Entered
import SmallScript.Proofs.Shadowing
import SmallScript.Session.Basic

namespace SmallScript

open Code (Body Expression Statement)

namespace Code

variable {V : Variable → Prop} {F : Function → Prop}

mutual

/-- What holds of functions, with however many arguments they are called, holds of all that are called. -/
theorem Expression.functions_of_respects :
    (e : Expression) → e.Respects V (fun f _ ↦ F f) → ∀ f ∈ e.functions, F f
  | .error, _ | .literal _, _ | .var _, _ => List.forall_mem_nil _
  | .assign _ e, h | .unary _ e, h | .convert _ e, h => e.functions_of_respects h
  | .binary e _ e', h => List.forall_mem_append.mpr ⟨e.functions_of_respects h.1, e'.functions_of_respects h.2⟩
  | .call _ es, h => List.forall_mem_cons.mpr ⟨h.1, functionsAll_of_respect es h.2⟩

theorem functionsAll_of_respect : (es : List Expression) → AllRespect V (fun f _ ↦ F f) es → ∀ f ∈ functionsAll es, F f
  | [], _ => List.forall_mem_nil _
  | e :: es, h => List.forall_mem_append.mpr ⟨e.functions_of_respects h.1, functionsAll_of_respect es h.2⟩

end

theorem Statement.functions_of_operand {s : Statement} (h : s.isFlat)
    (hoperand : ∀ e ∈ s.operand?, e.Respects V fun f _ ↦ F f) : ∀ f ∈ s.functions, F f := by
  cases s with
  | declare v e | gotoIf l e negated | expression e => exact e.functions_of_respects (hoperand e rfl)
  | leave e =>
    cases e with
    | none => exact List.forall_mem_nil _
    | some e => exact e.functions_of_respects (hoperand e rfl)
  | label | goto => exact List.forall_mem_nil _
  | _ => nomatch h

end Code

theorem lookup_of_find? {l : List (Function × Body)} {name : String} {f : Function} {b : Body}
    (h : l.find? (·.1.name == name) = some (f, b)) : l.lookup f = some b := by
  have hname : f.name = name := by simpa using List.find?_some h
  induction l with
  | nil => nomatch h
  | cons first rest ih =>
    obtain ⟨g, c⟩ := first
    by_cases hg : g.name = name
    · rw [List.find?_cons_of_pos (by simpa using hg)] at h
      obtain ⟨rfl, rfl⟩ := Prod.mk.inj (Option.some.inj h)
      rw [List.lookup_cons_self]
    · rw [List.find?_cons_of_neg (by simpa using hg)] at h
      have hne : (f == g) = false := beq_eq_false_iff_ne.mpr fun heq ↦ hg (heq ▸ hname)
      rw [List.lookup_cons, hne]
      exact ih h

namespace Program

variable {p : Program} {name : String} {f : Function}

theorem map_fst_functionBodies (layers : Layers) (ts : List FunctionText) (n : Nat) :
    (functionBodies layers n ts).1.map Prod.fst = ts.map (·.function) := by
  induction ts generalizing n with
  | nil => rfl
  | cons t rest ih => exact congrArg _ (ih (t.body layers n).nextSymbol)

/-- Of the functions of a name, the one whose body is found by name is the first, as by function. -/
theorem exists_bodyNamed (h : (p.functions.map Prod.fst).find? (·.name == name) = some f) :
    ∃ b ∈ p.bodies, p.bodyNamed? (some name) = some b ∧ p.body? f = some b := by
  rw [List.find?_map, Option.map_eq_some_iff] at h
  obtain ⟨⟨f, b⟩, hfind, rfl⟩ := h
  have hmem := List.mem_of_find?_eq_some hfind
  refine ⟨b, List.mem_cons_of_mem _ (List.mem_map_of_mem hmem), congrArg (Option.map Prod.snd) hfind, ?_⟩
  exact lookup_of_find? hfind

theorem bodyNamed?_eq_none (h : (p.functions.map Prod.fst).find? (·.name == name) = none) :
    p.bodyNamed? (some name) = none := by
  rw [List.find?_map, Option.map_eq_none_iff] at h
  exact congrArg (Option.map Prod.snd) h

/-- Calling a function runs a body: in a frame of its own, with the values of the arguments for the parameters. Of
the calls within it, `k` at most may be active at once. -/
def Runs (p : Program) (f : Function) (b : Body) : Prop :=
  ∀ limits k es, Run.evaluate limits (Run.call p limits (k + 1)) (.call f es) = do
    Run.checkDepth limits
    let frame ← Run.bindArguments limits (Run.call p limits (k + 1)) .empty f.parameters es
    let result ← Run.withFrame frame (Run.body limits (Run.call p limits k) b k 0 none)
    return if f.returns = .void then none else result

theorem runs_of_body? {id : Nat} {b : Body} (hf : f.origin = .declared id) (hb : p.body? f = some b) :
    p.Runs f b := by
  intro limits k es
  have hcall (frame : Store) : Run.call p limits (k + 1) f frame = (do
      let result ← Run.withFrame frame (Run.body limits (Run.call p limits k) b k 0 none)
      return if f.returns = .void then none else result) := by
    rw [Run.call, hb]
  rw [Run.evaluate_declared hf, funext hcall]

theorem dot?_eq_of_graph {b : Body} {graph : Flow.Graph} (hb : p.bodyNamed? (some name) = some b)
    (hgraph : Flow.Graph.ofBody? b = some graph) : p.dot? (some name) = some graph.dot := by
  simp only [dot?, hb, hgraph, Option.bind_eq_bind, Option.bind_some, Option.pure_def]

end Program

namespace Layers

theorem find?_callables (layers : Layers) (name : String) : layers.callables.find? (·.name == name) =
    (((layers.flatMap (·.functions)).map (·.function)).find? (·.name == name)).or
      ((Builtin.all.map Builtin.function).find? (·.name == name)) := List.find?_append

end Layers

theorem Layer.lookupFunction_resolved (earlier : Layers) (source : Tree.Source) (n : Nat) (name : String) :
    (resolved earlier source n).2.scopes.lookupFunction (resolved earlier source n).2.scope name =
      (Layers.callables ((ofSource earlier source n).1 :: earlier)).find? (·.name == name) := by
  have hseen := (outside_resolved earlier source n).seen
  have hlook : (resolved earlier source n).2.scopes.lookupFunction (resolved earlier source n).2.scope name =
    (resolved earlier source n).2.seen.findSome? (·.lookupFunction name) := rfl
  rw [hlook, hseen, Layers.callables_cons, List.findSome?_cons, List.find?_append, Layers.findSome?_lookupFunction,
    Frame.lookupFunction]
  cases ((ofSource earlier source n).1.functions.map (·.function)).find? (·.name == name) <;> rfl

namespace Compilation

/-- The function that a name stands for outside functions, in a text on top of others. -/
def function? (text : String) (earlier : Layers) (n : Nat) (name : String) : Option Function :=
  let r := (Resolver.layer (Tree.ofText text).source (earlier.start n)).2
  r.scopes.lookupFunction r.scope name

attribute [local irreducible] ofText

variable {text : String} {layers : Layers} {n : Nat} {name : String} {f : Function} {earlier : List Compilation}

theorem function?_eq (text : String) (layers : Layers) (n : Nat) (name : String) :
    function? text layers n name = (ofText text layers n).layers.callables.find? (·.name == name) := by
  rw [layers_ofText, layerOf, function?]
  generalize (Tree.ofText text).source = source
  exact Layer.lookupFunction_resolved layers source n name

/-- The functions of a chain of texts come with its program, in the order in which names find them. -/
theorem Chain.functions_eq {c : Compilation} (h : Chain c earlier) :
    c.program.functions.map Prod.fst = (c.layers.flatMap (·.functions)).map (·.function) := by
  obtain ⟨m, hm⟩ := h.program_eq
  rw [hm]
  exact Program.map_fst_functionBodies c.layers _ m

/-- A name stands for a function of a chain, whose body the program has, or for one that is built in. -/
theorem Chain.function?_cases (h : Chain (ofText text layers n) earlier) (name : String) :
    (∃ f id b, function? text layers n name = some f ∧ f.origin = .declared id ∧
      b ∈ (ofText text layers n).program.bodies ∧
      (ofText text layers n).program.bodyNamed? (some name) = some b ∧
      (ofText text layers n).program.body? f = some b) ∨
    (∀ f id, function? text layers n name = some f → f.origin ≠ .declared id) ∧
      (ofText text layers n).program.bodyNamed? (some name) = none := by
  have hfunctions := h.functions_eq
  rw [function?_eq, Layers.find?_callables, ← hfunctions]
  cases hfind : ((ofText text layers n).program.functions.map Prod.fst).find? (·.name == name) with
  | some f =>
    have hf := List.mem_of_find?_eq_some hfind
    rw [hfunctions] at hf
    obtain ⟨t, ht, rfl⟩ := List.mem_map.mp hf
    obtain ⟨id, hid, -, -⟩ := (h.numbered.functions ht).origin
    obtain ⟨b, hb, hnamed, hbody⟩ := Program.exists_bodyNamed hfind
    exact .inl ⟨t.function, id, b, Option.some_or, hid, hb, hnamed, hbody⟩
  | none =>
    refine .inr ⟨fun f id hf ↦ ?_, Program.bodyNamed?_eq_none hfind⟩
    rw [Option.none_or] at hf
    obtain ⟨builtin, -, rfl⟩ := List.mem_map.mp (List.mem_of_find?_eq_some hf)
    cases builtin <;> exact nofun

/-- The statements of a text are flat in its program, and call what names stand for behind it. -/
theorem calls_main_ofText {C : Function → Nat → Prop}
    (hC : Lexical.AllowsCalls C (ofText text layers n).layers.callables) :
    ∀ s ∈ (ofText text layers n).program.main, s.isFlat ∧ ∀ e ∈ s.operand?, e.Respects (fun _ ↦ True) C := by
  obtain ⟨k, hk⟩ := exists_flattenBody_ofText text layers n
  rw [layers_ofText] at hC
  rw [hk]
  unfold layerOf at hC ⊢
  generalize (Tree.ofText text).source = source at hC ⊢
  exact fun s hs ↦ ⟨List.all_eq_true.mp (Code.flattenAll_isFlat _ ⟨0, k⟩) s hs, Layers.calls_main source n k hC s hs⟩

theorem Chain.function?_of_called (h : Chain (ofText text layers n) earlier) :
    ∀ b ∈ (ofText text layers n).program.bodies, ∀ s ∈ b, ∀ f ∈ s.functions,
      function? text layers n f.name = some f := by
  let C (f : Function) (_ : Nat) : Prop := function? text layers n f.name = some f
  have hcalls : Lexical.AllowsCalls C (ofText text layers n).layers.callables := by
    intro name f hf
    have hname : f.name = name := by simpa using List.find?_some hf
    subst hname
    exact (function?_eq text layers n f.name).trans hf
  have hfunctions : ∀ g ∈ (ofText text layers n).program.functions, ∀ s ∈ g.2, s.isFlat ∧
      ∀ e ∈ s.operand?, e.Respects (fun _ ↦ True) C := by
    obtain ⟨m, hm⟩ := h.program_eq
    rw [hm]
    intro g hg s hs
    obtain ⟨t, -, k, rfl, -⟩ := Program.exists_of_mem_functionBodies hg
    exact ⟨FunctionText.isFlat_body hs, Layers.calls_body hcalls t k s hs⟩
  intro b hb s hs
  obtain ⟨hflat, hoperand⟩ : s.isFlat ∧ ∀ e ∈ s.operand?, e.Respects (fun _ ↦ True) C := by
    rcases List.mem_cons.mp hb with rfl | hb
    · exact calls_main_ofText hcalls s hs
    · obtain ⟨g, hg, rfl⟩ := List.mem_map.mp hb
      exact hfunctions g hg s hs
  exact s.functions_of_operand hflat hoperand

/-- A graph is shown for a name exactly if, at the top of the last text, the name stands for a function that some
text of the chain declares. It is the graph of one body, which is found by the name as well as by the function, and
which runs in a call of this function; and this function is the one that every call by the name calls, anywhere in
the chain. -/
theorem Chain.shows_called_body (h : Chain (ofText text layers n) earlier) (name : String) :
    (((ofText text layers n).program.dot? (some name)).isSome ↔
      ∃ f id, function? text layers n name = some f ∧ f.origin = .declared id) ∧
    (∀ f id, function? text layers n name = some f → f.origin = .declared id →
      ∃ b graph, (ofText text layers n).program.bodyNamed? (some name) = some b ∧
        (ofText text layers n).program.body? f = some b ∧ Flow.Graph.ofBody? b = some graph ∧
        (ofText text layers n).program.dot? (some name) = some graph.dot ∧
        (ofText text layers n).program.Runs f b) ∧
    ∀ b ∈ (ofText text layers n).program.bodies, ∀ s ∈ b, ∀ f ∈ s.functions, f.name = name →
      function? text layers n name = some f := by
  have hshown {b : Body} (hb : b ∈ (ofText text layers n).program.bodies)
      (hnamed : (ofText text layers n).program.bodyNamed? (some name) = some b) :
      ∃ graph, Flow.Graph.ofBody? b = some graph ∧
        (ofText text layers n).program.dot? (some name) = some graph.dot := by
    obtain ⟨full, -, -, hgraph, -⟩ := (h.closed_of_mem hb).exists_graph
    exact ⟨_, hgraph, Program.dot?_eq_of_graph hnamed hgraph⟩
  refine ⟨?_, fun f id hf hid ↦ ?_, fun b hb s hs f hf hname ↦ hname ▸ h.function?_of_called b hb s hs f hf⟩
  · obtain ⟨f, id, b, hf, hid, hb, hnamed, -⟩ | ⟨hbuiltin, hnone⟩ := h.function?_cases name
    · obtain ⟨graph, -, hdot⟩ := hshown hb hnamed
      exact iff_of_true (by rw [hdot]; rfl) ⟨f, id, hf, hid⟩
    · refine iff_of_false ?_ fun ⟨f, id, hf, hid⟩ ↦ hbuiltin f id hf hid
      simp [Program.dot?, hnone]
  · obtain ⟨g, _, b, hg, -, hb, hnamed, hbody⟩ | ⟨hbuiltin, -⟩ := h.function?_cases name
    · obtain rfl := Option.some.inj (hf.symm.trans hg)
      obtain ⟨graph, hgraph, hdot⟩ := hshown hb hnamed
      exact ⟨b, graph, hnamed, hbody, hgraph, hdot, Program.runs_of_body? hid hbody⟩
    · exact absurd hid (hbuiltin f id hf)

/-- Two texts that both declare one function, where that of the second is shown and runs. -/
theorem Chain.shows_called_body_two_texts :
    Chain (ofText "function f(): int \x7b return 2 \x7d" (ofText "function f(): int \x7b return 1 \x7d" [] 3).layers 4)
      [ofText "function f(): int \x7b return 1 \x7d" [] 3] ∧
    ∃ p, p = (ofText "function f(): int \x7b return 2 \x7d"
        (ofText "function f(): int \x7b return 1 \x7d" [] 3).layers 4).program ∧
      p.functions.map Prod.fst = [⟨.declared 4, "f", [], .int⟩, ⟨.declared 3, "f", [], .int⟩] ∧
      p.dot? (some "f") = some ("digraph G \x7b\n    N0 [label = \"<Start>\" shape = box]\n" ++
        "    N1 [label = \"return 2\" shape = box]\n    N2 [label = \"<End>\" shape = box]\n" ++
        "    N0 -> N1 [label = \"\"]\n    N1 -> N2 [label = \"\"]\n\x7d\n") ∧
      ∃ b graph, p.bodyNamed? (some "f") = some b ∧ p.body? ⟨.declared 4, "f", [], .int⟩ = some b ∧
        b.map Statement.text = ["return 2\n"] ∧ Flow.Graph.ofBody? b = some graph ∧
        p.dot? (some "f") = some graph.dot ∧ p.Runs ⟨.declared 4, "f", [], .int⟩ b := by
  have h : Chain (ofText "function f(): int \x7b return 2 \x7d"
      (ofText "function f(): int \x7b return 1 \x7d" [] 3).layers 4)
      [ofText "function f(): int \x7b return 1 \x7d" [] 3] :=
    .next (.first _ (by decide)) _ (by rw [ofText_ofList]; decide +kernel)
  have hcalled : function? "function f(): int \x7b return 2 \x7d"
      (ofText "function f(): int \x7b return 1 \x7d" [] 3).layers 4 "f" = some ⟨.declared 4, "f", [], .int⟩ := by
    rw [function?, Tree.ofText_ofList, ofText_ofList]
    decide +kernel
  obtain ⟨b, graph, hnamed, hbody, hgraph, hdot, hruns⟩ :=
    (h.shows_called_body "f").2.1 ⟨.declared 4, "f", [], .int⟩ 4 hcalled rfl
  have htext : ((ofText "function f(): int \x7b return 2 \x7d"
      (ofText "function f(): int \x7b return 1 \x7d" [] 3).layers 4).program.bodyNamed? (some "f")).map
        (·.map Statement.text) = some ["return 2\n"] := by
    rw [ofText_ofList, ofText_ofList]
    decide +kernel
  rw [hnamed] at htext
  refine ⟨h, _, rfl, ?_, ?_, b, graph, hnamed, hbody, Option.some.inj htext, hgraph, hdot, hruns⟩
  · rw [ofText_ofList, ofText_ofList]
    decide +kernel
  · rw [ofText_ofList, ofText_ofList]
    decide +kernel

end Compilation

end SmallScript
