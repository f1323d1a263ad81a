import SmallScript.Proofs.Closed
import SmallScript.Proofs.Resolve.Fresh
import SmallScript.Proofs.Resolve.Widens
import SmallScript.Proofs.Scope.Seen

namespace SmallScript

namespace Layers

def vars (layers : Layers) : List Variable := layers.flatMap (·.vars)

def callables (layers : Layers) : List Function :=
  (layers.flatMap (·.functions)).map (·.function) ++ Builtin.all.map Builtin.function

theorem callables_cons (layer : Layer) (earlier : Layers) :
    callables (layer :: earlier) = layer.functions.map (·.function) ++ callables earlier := by
  simp [callables]

theorem findSome?_lookupVariable (layers : Layers) (name : String) :
    layers.frames.reverse.findSome? (·.lookupVariable name) = layers.vars.find? (·.name == name) := by
  induction layers with
  | nil => rfl
  | cons layer earlier ih =>
    have hvars : vars (layer :: earlier) = layer.vars ++ vars earlier := rfl
    rw [frames, List.reverse_concat, List.findSome?_cons, ih, Layer.lookupVariable_frame, hvars, List.find?_append]
    cases layer.vars.find? (·.name == name) <;> rfl

theorem findSome?_lookupFunction (layers : Layers) (name : String) :
    layers.frames.reverse.findSome? (·.lookupFunction name) = layers.callables.find? (·.name == name) := by
  induction layers with
  | nil =>
    have hroot : callables [] = Builtin.all.map Builtin.function := rfl
    rw [hroot, frames, List.reverse_singleton, List.findSome?_cons, Frame.lookupFunction]
    cases (Builtin.all.map Builtin.function).find? (·.name == name) <;> rfl
  | cons layer earlier ih =>
    rw [frames, List.reverse_concat, List.findSome?_cons, ih, Layer.lookupFunction_frame, callables_cons,
      List.find?_append]
    cases (layer.functions.map (·.function)).find? (·.name == name) <;> rfl

end Layers

/-- From a scope behind those of the layers, it is seen, and then theirs, the latest first. -/
theorem Scopes.chain_snoc {layers : Layers} {f : Frame} (hf : f.parent = some (layers.frames.length - 1)) :
    (ofList (layers.frames ++ [f])).chain layers.frames.length = f :: layers.frames.reverse := by
  have hne := layers.frames_ne_nil
  have hordered := Scopes.ordered_ofList layers.linear_frames hne hf
  have htop : (ofList (layers.frames ++ [f])).frames[layers.frames.length]? = some f := by simp [ofList]
  have hsize : layers.frames.length ≤ (ofList (layers.frames ++ [f])).frames.size := by simp [ofList]
  rw [chain_eq hordered htop, hf]
  exact congrArg _ (layers.linear_frames.outward_last hne hsize)

theorem Layers.seen_start (layers : Layers) (n : Nat) :
    (layers.start n).seen = ⟨some (layers.frames.length - 1), [], []⟩ :: layers.frames.reverse := by
  rw [start_eq]
  exact Scopes.chain_snoc rfl

theorem FunctionText.seen_start (t : FunctionText) (layers : Layers) (n : Nat) :
    (t.start layers n).seen = t.frame (layers.frames.length - 1) :: layers.frames.reverse := by
  rw [start_eq]
  exact Scopes.chain_snoc (t.parent_frame _)

open Resolver (functionHeads)

/-- What is known outside functions: nothing is around, and of the nearest scope all is known. -/
structure Resolution.Outside (earlier : Layers) (vars : List Variable) (functions : List FunctionText)
    (r : Resolution) : Prop where
  stands : r.Stands
  loops : r.loops = []
  seen : r.seen = ⟨some (earlier.frames.length - 1), vars, functions.map (·.function)⟩ :: earlier.frames.reverse

namespace Resolution.Outside

variable {earlier : Layers} {vars : List Variable} {ts : List FunctionText} {r : Resolution}

theorem start (earlier : Layers) (n : Nat) : (earlier.start n).Outside earlier [] [] :=
  ⟨earlier.stands_start n, by rw [Layers.start_eq], earlier.seen_start n⟩

theorem heads (h : r.Outside earlier vars ts) (ms : List Tree.Member) :
    (functionHeads ms r).2.Outside earlier vars (ts ++ (functionHeads ms r).1) := by
  obtain ⟨hkept, ⟨hseen, -⟩, -⟩ := Resolver.stacked_functionHeads ms r h.stands
  refine ⟨hkept.stands h.stands, ((Resolver.within_functionHeads ms).sound r h.loops rfl).1, ?_⟩
  rw [hseen, h.seen, widen, List.map_append, List.append_nil]

theorem statements (h : r.Outside earlier vars ts) (ss : List Tree.Statement) :
    ∃ vs, (Resolver.statements none ss r).2.Outside earlier (vars ++ vs) ts ∧
      ∀ v ∈ vs, v.name ∈ ss.flatMap Tree.Statement.opens := by
  obtain ⟨hkept, vs, hseen, hnames⟩ := Resolver.widens_statements none ss r h.stands
  refine ⟨vs, ⟨hkept.stands h.stands, ((Resolver.within_statements none ss []).sound r h.loops rfl).1, ?_⟩, hnames⟩
  rw [hseen, h.seen, widen, List.append_nil]

theorem variablesOf (h : r.Outside earlier vars ts) : r.scopes.variablesOf r.scope = vars := by
  obtain ⟨f, hf⟩ : ∃ f, r.scopes.frames[r.scope]? = some f := ⟨_, Array.getElem?_eq_getElem h.stands.scope⟩
  have hchain := Scopes.chain_eq h.stands.ordered hf
  obtain ⟨rfl, -⟩ := List.cons.inj (hchain.symm.trans h.seen)
  rw [Scopes.variablesOf, hf]
  rfl

end Resolution.Outside

namespace Layer

variable (earlier : Layers) (source : Tree.Source) (n : Nat)

theorem outside_headed :
    (headed earlier source n).2.Outside earlier [] (ofSource earlier source n).1.functions :=
  (Resolution.Outside.start earlier n).heads source.members

theorem name_function {t : FunctionText} (ht : t ∈ (ofSource earlier source n).1.functions) :
    t.function.name = t.text.identifier.text ∧ .function t.text ∈ source.members := by
  obtain ⟨-, ⟨-, hnames⟩, htexts⟩ := Resolver.stacked_functionHeads source.members _ (earlier.stands_start n)
  exact ⟨hnames t ht, htexts t ht⟩

theorem outside_resolved :
    (resolved earlier source n).2.Outside earlier (ofSource earlier source n).1.vars
      (ofSource earlier source n).1.functions := by
  obtain ⟨vs, h, -⟩ := (outside_headed earlier source n).statements source.outside
  have hvars : (ofSource earlier source n).1.vars = [] ++ vs := h.variablesOf
  rw [hvars]
  exact h

theorem name_var {v : Variable} (hv : v ∈ (ofSource earlier source n).1.vars) :
    v.name ∈ source.outside.flatMap Tree.Statement.opens := by
  obtain ⟨vs, h, hnames⟩ := (outside_headed earlier source n).statements source.outside
  have hvars : (ofSource earlier source n).1.vars = vs := h.variablesOf
  exact hnames v (hvars ▸ hv)

end Layer

end SmallScript
