import SmallScript.Proofs.Flow.Closed
import SmallScript.Proofs.Flow.Covers
import SmallScript.Proofs.Resolve.Grounded
import SmallScript.Proofs.Typing.Soundness

namespace SmallScript

open Code (Body)

/-- The operators that flat code and graphs are written with are found where operators are looked up. -/
structure OperatorsFound : Prop where
  atMost (v bound : Variable) : ∃ o, BinaryOperator.find? (.mark .lessOrEquals) .int .int = some o ∧
    Code.atMost v bound = .binary (.var v) o (.var bound)
  increment (v : Variable) : ∃ o, BinaryOperator.find? (.mark .plus) .int .int = some o ∧
    Code.increment v = .expression (.assign v (.binary (.var v) o (.literal (.int 1))))
  opposite (e : Code.Expression) : (∃ b, e = .literal (.bool b)) ∨
    ∃ o, UnaryOperator.find? (.mark .bang) .bool = some o ∧ Flow.opposite e = .unary o e

theorem operatorsFound : OperatorsFound where
  atMost _ _ := ⟨_, rfl, rfl⟩
  increment _ := ⟨_, rfl, rfl⟩
  opposite e := by
    by_cases he : ∃ b, e = .literal (.bool b)
    · exact .inl he
    · refine .inr ⟨⟨.bang, .logicalNegation, .bool⟩, rfl, ?_⟩
      unfold Flow.opposite
      split
      · next b => exact absurd ⟨b, rfl⟩ he
      · rfl

theorem FunctionText.flattened_body (t : FunctionText) (layers : Layers) (n : Nat) :
    (t.body layers n).body.Flattened := by
  have hloops := (Resolver.opens_inside
    (Resolver.loops_statements (some t.function) t.text.body.statements) (t.start layers n)).2
  have hzero : (t.start layers n).loopCount = 0 := by rw [start_eq]
  have hjumps := ((Resolver.within_inside (Resolver.within_statements (some t.function)
    t.text.body.statements [])).sound (t.start layers n) rfl rfl).2
  rw [hzero] at hloops
  exact ⟨_, _, _, hloops, hjumps, congrArg FunctionBody.body (t.body_eq layers n)⟩

theorem Layer.looped_ofSource (earlier : Layers) (source : Tree.Source) (n : Nat) :
    Looped 0 (resolved earlier source n).2.loopCount (Code.nodesAll (ofSource earlier source n).1.statements) := by
  have hbody := (Resolver.loops_statements none source.outside (headed earlier source n).2).2
  have hheads : (headed earlier source n).2.loopCount = (earlier.start n).loopCount :=
    (Resolver.loopless_functionHeads source.members (earlier.start n)).2
  have hzero : (earlier.start n).loopCount = 0 := by rw [Layers.start_eq]
  rwa [hheads, hzero] at hbody

theorem Layer.flattened_ofSource (earlier : Layers) (source : Tree.Source) (n m : Nat) :
    (Code.flattenBody (ofSource earlier source n).1.statements m).1.Flattened := by
  have hloops : (Resolver.functionHeads source.members (earlier.start n)).2.loops = [] := by
    refine ((Resolver.within_functionHeads source.members).sound (earlier.start n) ?_ rfl).1
    rw [Layers.start_eq]
  have hjumps := Resolver.allJumpInside_statements none
    (source.members.filterMap Resolver.memberStatement?) hloops
  exact ⟨_, _, m, looped_ofSource earlier source n, hjumps, rfl⟩

namespace Program

/-- The bodies of all functions, and that of the statements outside functions. -/
def bodies (p : Program) : List Body := p.main :: p.functions.map Prod.snd

theorem exists_main_ofLayers (layer : Layer) (earlier : Layers) (n : Nat) :
    ∃ m, (ofLayers (layer :: earlier) n).1.main = (Code.flattenBody layer.statements m).1 := ⟨_, rfl⟩

theorem exists_of_mem_functionBodies {layers : Layers} {ts : List FunctionText} {n : Nat}
    {f : Function × Body} (hf : f ∈ (functionBodies layers n ts).1) :
    ∃ t ∈ ts, ∃ k, f = (t.function, (t.body layers k).body) ∧
      (t.body layers k).reports <:+: (functionBodies layers n ts).2.1 := by
  induction ts generalizing n with
  | nil => nomatch hf
  | cons t rest ih =>
    rcases List.mem_cons.mp hf with rfl | hf
    · exact ⟨t, List.mem_cons_self, n, rfl, (List.prefix_append _ _).isInfix⟩
    · obtain ⟨t', ht', k, hk, hreports⟩ := ih hf
      exact ⟨t', List.mem_cons_of_mem t ht', k, hk, hreports.trans (List.suffix_append _ _).isInfix⟩

end Program

namespace Compilation

variable {c : Compilation} {earlier : List Compilation}

theorem exists_flattenBody_ofText (text : String) (layers : Layers) (n : Nat) :
    ∃ k, (ofText text layers n).program.main = (Code.flattenBody (layerOf text layers n).statements k).1 := by
  obtain ⟨m, hm⟩ := program_ofText text layers n
  obtain ⟨k, hk⟩ := Program.exists_main_ofLayers (layerOf text layers n) layers m
  exact ⟨k, by rw [hm, layers_ofText, hk]⟩

theorem flattened_main_ofText (text : String) (layers : Layers) (n : Nat) :
    (ofText text layers n).program.main.Flattened := by
  obtain ⟨k, hk⟩ := exists_flattenBody_ofText text layers n
  rw [hk, layerOf]
  exact Layer.flattened_ofSource layers (Tree.ofText text).source n k

attribute [local irreducible] ofText

theorem Chain.flattened_of_mem (h : Chain c earlier) {body : Body} (hb : body ∈ c.program.bodies) :
    body.Flattened := by
  rcases List.mem_cons.mp hb with rfl | hb
  · obtain ⟨text, layers, n, rfl⟩ := h.exists_ofText
    exact flattened_main_ofText text layers n
  · obtain ⟨f, hf, rfl⟩ := List.mem_map.mp hb
    obtain ⟨n, hn⟩ := h.program_eq
    rw [hn] at hf
    obtain ⟨t, -, k, hk, -⟩ := Program.exists_of_mem_functionBodies hf
    exact hk ▸ t.flattened_body c.layers k

theorem Chain.closed_of_mem (h : Chain c earlier) {body : Body} (hb : body ∈ c.program.bodies) : body.Closed :=
  (h.flattened_of_mem hb).closed

/-- Whatever is reported on the texts of a chain, nothing is missing while they are compiled: each name is looked
up, and each declaration made, in a scope that exists, the operators of flat code are found, and each body is
closed, and has a graph whose branches lead from block to block, as they do before blocks are taken away. -/
theorem Chain.bodies_closed (h : Chain c earlier) :
    (∀ text layers n, ofText? text layers n = some (ofText text layers n)) ∧ OperatorsFound ∧
    ∀ body ∈ c.program.bodies, body.Closed ∧
      ∃ full, Flow.Graph.full? body = some full ∧ full.InRange ∧
        Flow.Graph.ofBody? body = some full.prune ∧ full.prune.InRange := by
  refine ⟨ofText?_eq, operatorsFound, fun body hb ↦ ?_⟩
  have hclosed := h.closed_of_mem hb
  exact ⟨hclosed, hclosed.exists_graph⟩

theorem Chain.bodies_closed_malformed :
    (ofText "for i = 1 to \x7b while true continue break" [] 3).tree.reports ≠ [] ∧
    (ofText? "for i = 1 to \x7b while true continue break" [] 3).isSome ∧
    (∃ body ∈ (ofText "for i = 1 to \x7b while true continue break" [] 3).program.bodies,
      body.labels = [.made 2, .made 3, .continueOf 2, .breakOf 2, .continueOf 1, .made 1, .breakOf 1] ∧
      (body.labels.map Label.name).Nodup) := by
  have hclosed := (Chain.first "for i = 1 to \x7b while true continue break" (n := 3) (by decide)).bodies_closed
  refine ⟨?_, by rw [hclosed.1]; rfl, _, List.mem_cons_self, ?_, (hclosed.2.2 _ List.mem_cons_self).1.names⟩
  · rw [ofText_ofList]
    decide +kernel
  · rw [ofText_ofList]
    decide +kernel

/-- A run of a body of a chain, from any machine on and with any calls, stays in the blocks that the graph of
the body keeps, and goes along its branches. -/
theorem Chain.graph_covers (h : Chain c earlier) {body : Body} (hb : body ∈ c.program.bodies)
    (limits : Limits) (invoke : Run.Invoke) (m : Machine) :
    ∃ g, Flow.Graph.ofBody? body = some g ∧ g.Covers limits invoke m body := by
  obtain ⟨full, -, -, hg, -⟩ := (h.closed_of_mem hb).exists_graph
  exact ⟨_, hg, Flow.covers_ofBody? hg limits invoke m⟩

theorem Chain.graph_covers_malformed :
    ∃ g, Flow.Graph.ofBody?
        (ofText "for i = 1 to \x7b while true continue break" [] 3).program.main = some g ∧
      g.Covers ⟨none, none, id⟩ (fun _ _ ↦ throw .stuck)
        (.start .empty ⟨[], #[]⟩)
        (ofText "for i = 1 to \x7b while true continue break" [] 3).program.main :=
  (Chain.first _ (by decide)).graph_covers List.mem_cons_self _ _ _

/-- A choice whose branch is a choice of nothing. -/
def emptyChoice : Compilation :=
  ofText "var a = true var b = false if a \x7b if b \x7b \x7d \x7d" [] 3

/-- The jump over the inner branch goes behind its label. No branch leads from there to the block that the run
comes to, for the block of the label is in between. -/
theorem Chain.skips_lone_label :
    Chain emptyChoice [] ∧ ∃ body ∈ emptyChoice.program.bodies, ∃ p p' g,
      Run.Visits ⟨none, none, id⟩ (fun _ _ ↦ throw .stuck) body (.start .empty ⟨[], #[]⟩) 3 p ∧
      Run.Visits ⟨none, none, id⟩ (fun _ _ ↦ throw .stuck) body (.start .empty ⟨[], #[]⟩) 4 p' ∧
      body[p'.index]?.isSome ∧ Flow.Graph.ofBody? body = some g ∧
      Flow.numberAt? body p.index = some 2 ∧ Flow.numberAt? body p'.index = some 4 ∧
      ∀ b ∈ g.branches, b.source = 2 → b.target ≠ 4 := by
  have hchain : Chain emptyChoice [] := .first _ (by decide)
  refine ⟨hchain, _, List.mem_cons_self, ?_⟩
  have hpoint : (Run.pointAfter? ⟨none, none, id⟩ (fun _ _ ↦ throw .stuck) emptyChoice.program.main
      (.start .empty ⟨[], #[]⟩) 3).map Run.Point.index = some 3 := by
    rw [emptyChoice, ofText_ofList]
    decide +kernel
  have hnext : (Run.pointAfter? ⟨none, none, id⟩ (fun _ _ ↦ throw .stuck) emptyChoice.program.main
      (.start .empty ⟨[], #[]⟩) 4).map Run.Point.index = some 5 := by
    rw [emptyChoice, ofText_ofList]
    decide +kernel
  have hgraph : (Flow.Graph.ofBody? emptyChoice.program.main).any fun g ↦
      g.branches.all fun b ↦ b.source != 2 || b.target != 4 := by
    rw [emptyChoice, ofText_ofList]
    decide +kernel
  obtain ⟨p, hp, hindex⟩ := Option.map_eq_some_iff.mp hpoint
  obtain ⟨p', hp', hindex'⟩ := Option.map_eq_some_iff.mp hnext
  obtain ⟨full, -, -, hg, -⟩ := (hchain.closed_of_mem List.mem_cons_self).exists_graph
  rw [hg, Option.any_some, List.all_eq_true] at hgraph
  refine ⟨p, p', full.prune, Run.visits_iff.mpr hp, Run.visits_iff.mpr hp', ?_, hg, ?_, ?_, ?_⟩
  · rw [hindex', emptyChoice, ofText_ofList]
    decide +kernel
  · rw [hindex, emptyChoice, ofText_ofList]
    decide +kernel
  · rw [hindex', emptyChoice, ofText_ofList]
    decide +kernel
  · intro b hb hsource htarget
    have hnot := hgraph b hb
    simp [hsource, htarget] at hnot

end Compilation

end SmallScript
