import SmallScript.Proofs.Join.Numbers
import SmallScript.Proofs.Resolve.Bodies
import SmallScript.Proofs.Resolve.Source

namespace SmallScript

namespace Tree

def Member.functionName? : Member → Option String
  | .function f => some f.identifier.text
  | .statement _ => none

namespace Source

def functionNames (source : Source) : List String := source.members.filterMap Member.functionName?

/-- The names of the variables that a text declares outside functions, in no scope of their own. -/
def variableNames (source : Source) : List String := source.outside.flatMap Statement.opens

/-- A text has the members of two others, the second one of which declares no variable and no function of the
first one, and no builtin function. -/
structure Joins (s₁ s₂ s : Source) : Prop where
  members : List.Forall₂ Member.Alike (s₁.members ++ s₂.members) s.members
  vars : ∀ x ∈ s₂.variableNames, x ∉ s₁.variableNames
  functions : ∀ x ∈ s₂.functionNames, x ∉ s₁.functionNames
  builtins : ∀ x ∈ s₂.functionNames, ∀ b : Builtin, x ≠ b.function.name

theorem mem_functionNames {source : Source} {f : Function} (hf : .function f ∈ source.members) :
    f.identifier.text ∈ source.functionNames := List.mem_filterMap.mpr ⟨_, hf, rfl⟩

end Source

end Tree

namespace Join

open Code (translateAll)

variable (s₁ s₂ : Tree.Source)

def first : Layer := (Layer.ofSource [] s₁ Builtin.firstFree).1

def finish : Nat := (Program.ofLayers [first s₁] (Layer.ofSource [] s₁ Builtin.firstFree).2).2

def second : Layer := (Layer.ofSource [first s₁] s₂ (finish s₁)).1

theorem parameters_ofSource (earlier : Layers) (source : Tree.Source) (n : Nat) :
    ∀ t ∈ (Layer.ofSource earlier source n).1.functions, ∀ v ∈ t.function.parameters, v.kind = .parameter :=
  fun t ht ↦ ((Layer.numbered_ofSource earlier source n).2.functions t ht).parameters

theorem ofLayers_first (layer : Layer) (n : Nat) :
    Program.ofLayers [layer] n =
      (⟨(Program.functionBodies [layer] n layer.functions).1,
        (Code.flattenBody layer.statements (Program.functionBodies [layer] n layer.functions).2.2).1,
        (Program.functionBodies [layer] n layer.functions).2.1⟩,
        (Code.flattenBody layer.statements (Program.functionBodies [layer] n layer.functions).2.2).2) := by
  have hfunctions : [layer].flatMap (·.functions) = layer.functions := List.flatMap_singleton _ _
  rw [← hfunctions]
  rfl

theorem ofLayers_second (layer earlier : Layer) (n : Nat) :
    Program.ofLayers [layer, earlier] n =
      (⟨(Program.functionBodies [layer, earlier] n (layer.functions ++ earlier.functions)).1,
        (Code.flattenBody layer.statements
          (Program.functionBodies [layer, earlier] n (layer.functions ++ earlier.functions)).2.2).1,
        (Program.functionBodies [layer, earlier] n (layer.functions ++ earlier.functions)).2.1⟩,
        (Code.flattenBody layer.statements
          (Program.functionBodies [layer, earlier] n (layer.functions ++ earlier.functions)).2.2).2) := by
  have hfunctions : [layer, earlier].flatMap (·.functions) = layer.functions ++ earlier.functions := by simp
  rw [← hfunctions]
  rfl

def marks : Marks where
  heads := (Layer.headed [] s₁ Builtin.firstFree).2.nextSymbol
  statements := (Layer.ofSource [] s₁ Builtin.firstFree).2
  bodies := (Program.functionBodies [first s₁] (Layer.ofSource [] s₁ Builtin.firstFree).2 (first s₁).functions).2.2
  finish := finish s₁
  heads' := (Layer.headed [first s₁] s₂ (finish s₁)).2.nextSymbol
  statements' := (Layer.ofSource [first s₁] s₂ (finish s₁)).2
  own := (Program.functionBodies [second s₁ s₂, first s₁] (Layer.ofSource [first s₁] s₂ (finish s₁)).2
    (second s₁ s₂).functions).2.2
  bodies' := (Program.functionBodies [second s₁ s₂, first s₁] (Layer.ofSource [first s₁] s₂ (finish s₁)).2
    ((second s₁ s₂).functions ++ (first s₁).functions)).2.2
  finish' := (Program.ofLayers [second s₁ s₂, first s₁] (Layer.ofSource [first s₁] s₂ (finish s₁)).2).2
  builtin_le := Layer.le_headed _ _ _
  heads_le := Layer.headed_le _ _ _
  statements_le := Program.le_functionBodies _ _ (parameters_ofSource _ _ _)
  bodies_le := by
    rw [finish, ofLayers_first]
    exact Code.nextSymbol_le_flattenBody _ _
  finish_le := Layer.le_headed _ _ _
  heads'_le := Layer.headed_le _ _ _
  statements'_le := Program.le_functionBodies _ _ (parameters_ofSource _ _ _)
  own_le := by
    rw [Program.functionBodies_append]
    exact Program.le_functionBodies _ _ (parameters_ofSource _ _ _)
  bodies'_le := by
    rw [ofLayers_second]
    exact Code.nextSymbol_le_flattenBody _ _

theorem abreast_of_outside {C : Course} {E : List Frame → List Frame → Prop} {earlier earlier' : Layers}
    {vs vs' : List Variable} {ts ts' : List FunctionText} {r r' : Resolution} (h : r.Outside earlier vs ts)
    (h' : r'.Outside earlier' vs' ts') (hE : E r.seen r'.seen)
    (hloop : r'.loopCount = r.loopCount + C.offsets.loop)
    (hsymbols : r'.nextSymbol + C.first = r.nextSymbol + C.first') (hle : C.first ≤ r.nextSymbol) :
    C.Abreast E r r' :=
  ⟨h.stands, h'.stands, hE, by rw [h.loops, h'.loops]; rfl, hloop, hsymbols, hle⟩

theorem outside_alike {ms ms' : List Tree.Member} (h : List.Forall₂ Tree.Member.Alike ms ms') :
    List.Forall₂ Tree.Statement.Alike (ms.filterMap Resolver.memberStatement?)
      (ms'.filterMap Resolver.memberStatement?) := by
  induction h with
  | nil => exact .nil
  | cons hm _ ih =>
    cases hm with
    | function => exact ih
    | statement hs => exact .cons hs ih

/-- Where nothing is reported on a text, nothing is reported on the heads of its functions. -/
theorem quiet_headed (φ : Renumbering) {earlier : Layers} {source : Tree.Source} {n : Nat} {ms : List Tree.Member}
    (hms : List.Forall₂ Tree.Member.Alike source.members ms)
    (h : (Layer.ofSource earlier source n).1.reports = []) : (Layer.headed earlier source n).2.reports = [] := by
  have hresolved : (Layer.resolved earlier source n).2.reports = [] := List.reverse_eq_nil_iff.mp h
  have hfollows : Resolver.FollowsWith ⟨φ, .zero, 0, 0, 0⟩ (Fits φ []) _
      (Resolver.statements none source.outside) _ :=
    Resolver.follows_statements (fun k _ hk ↦ absurd hk (Nat.not_lt_zero k)) _ _ (outside_alike hms)
      (List.forall_mem_nil _)
  have hsuffix : (Layer.headed earlier source n).2.reports <:+ (Layer.resolved earlier source n).2.reports :=
    hfollows.rises.reports _
  rwa [hresolved, List.suffix_nil] at hsuffix

theorem loopCount_heads (ms : List Tree.Member) {r : Resolution} (h : r.loopCount = 0) :
    (Resolver.functionHeads ms r).2.loopCount = 0 := (Resolver.loopless_functionHeads ms r).2.trans h

theorem reports_start (earlier : Layers) (n : Nat) : (earlier.start n).reports = [] := by rw [Layers.start_eq]

theorem loopCount_start (earlier : Layers) (n : Nat) : (earlier.start n).loopCount = 0 := by
  rw [Layers.start_eq]

section Joint

variable {s₁ s₂} {φ φ' : Renumbering} {ms₁ ms₂ : List Tree.Member}

theorem heads_first (hJ : (marks s₁ s₂).Joins φ φ') (hquiet : (first s₁).reports = [])
    (hms : List.Forall₂ Tree.Member.Alike s₁.members ms₁) :
    (Resolver.functionHeads ms₁ (Layers.start [] Builtin.firstFree)).2.reports = [] ∧
      List.Forall₂ (FunctionText.Moved φ) (first s₁).functions
        (Resolver.functionHeads ms₁ (Layers.start [] Builtin.firstFree)).1 ∧
      (Resolver.functionHeads ms₁ (Layers.start [] Builtin.firstFree)).2.nextSymbol = (marks s₁ s₂).heads := by
  let C : Course := ⟨φ, .zero, 0, 0, (marks s₁ s₂).heads⟩
  have hstart := Resolution.Outside.start [] Builtin.firstFree
  have habreast : C.Abreast (Calls φ []) (Layers.start [] Builtin.firstFree) (Layers.start [] Builtin.firstFree) :=
    abreast_of_outside hstart hstart (by rw [hstart.seen]; exact ⟨_, _, _, _, rfl, rfl, rfl⟩) rfl rfl (Nat.zero_le _)
  have hfollows : Resolver.Follows C (Calls φ []) _ (Resolver.functionHeads s₁.members)
      (Resolver.functionHeads ms₁) :=
    Resolver.follows_functionHeads (C := C) hJ.parameters hJ.functions hms (List.forall_mem_nil _)
  have hreports := reports_start [] Builtin.firstFree
  obtain ⟨hsame, hmoved, hend⟩ := hfollows.follow _ _ habreast
    ((quiet_headed φ hms hquiet).trans hreports.symm) (Nat.le_refl _)
  exact ⟨hsame.trans hreports, hmoved, hend.symbols⟩

theorem name_mem_functionNames {earlier : Layers} {source : Tree.Source} {n : Nat} {t : FunctionText}
    (ht : t ∈ (Layer.ofSource earlier source n).1.functions) : t.function.name ∈ source.functionNames := by
  obtain ⟨hname, hmem⟩ := Layer.name_function earlier source n ht
  exact hname ▸ Tree.Source.mem_functionNames hmem

theorem mem_of_moved {ts ts' : List FunctionText} (h : List.Forall₂ (FunctionText.Moved φ) ts ts')
    {g : Function} (hg : g ∈ ts'.map (·.function)) : ∃ t ∈ ts, g = φ.func t.function := by
  obtain ⟨t', ht', rfl⟩ := List.mem_map.mp hg
  induction h with
  | nil => nomatch ht'
  | @cons t t'' ts ts' hmoved _ ih =>
    rcases List.mem_cons.mp ht' with rfl | ht'
    · exact ⟨t, List.mem_cons_self, hmoved.function⟩
    · obtain ⟨t, ht, heq⟩ := ih ht' (List.mem_map_of_mem ht')
      exact ⟨t, List.mem_cons_of_mem _ ht, heq⟩

theorem heads_second {s : Tree.Source} (h : s₁.Joins s₂ s) (hJ : (marks s₁ s₂).Joins φ φ')
    (hquiet : (second s₁ s₂).reports = []) (hms : List.Forall₂ Tree.Member.Alike s₂.members ms₂)
    {ts : List FunctionText} {r : Resolution} (hr : r.Outside [] [] ts)
    (hts : List.Forall₂ (FunctionText.Moved φ) (first s₁).functions ts)
    (hsymbols : r.nextSymbol = (marks s₁ s₂).heads) (hreports : r.reports = []) (hcount : r.loopCount = 0) :
    (Resolver.functionHeads ms₂ r).2.reports = [] ∧
      List.Forall₂ (FunctionText.Moved φ') (second s₁ s₂).functions (Resolver.functionHeads ms₂ r).1 ∧
      (Resolver.functionHeads ms₂ r).2.nextSymbol = (marks s₁ s₂).jointHeads := by
  let C : Course := ⟨φ', .zero, finish s₁, (marks s₁ s₂).heads, (marks s₁ s₂).heads'⟩
  have hstart := Resolution.Outside.start [first s₁] (finish s₁)
  have habreast : C.Abreast (Calls φ' (ts.map (·.function))) (Layers.start [first s₁] (finish s₁)) r :=
    abreast_of_outside hstart hr
      (by rw [hstart.seen, hr.seen]; exact ⟨_, _, _, _, rfl, rfl, by simp⟩)
      (by rw [hcount, loopCount_start]; rfl)
      (by rw [hsymbols, Layer.nextSymbol_start]; exact Nat.add_comm _ _)
      (Nat.le_of_eq (Layer.nextSymbol_start _ _).symm)
  have hnames : ∀ g ∈ ts.map (·.function), ∀ text, .function text ∈ s₂.members → g.name ≠ text.identifier.text := by
    intro g hg text htext heq
    obtain ⟨t, ht, rfl⟩ := mem_of_moved hts hg
    have hfirst : t.function.name ∈ s₁.functionNames := name_mem_functionNames ht
    exact h.functions _ (Tree.Source.mem_functionNames htext) (heq ▸ hfirst)
  have hparameters : C.Takes (C.numbers.number .parameter) := hJ.parameter ▸ hJ.parameters'
  have hfollows : Resolver.Follows C (Calls φ' (ts.map (·.function))) _ (Resolver.functionHeads s₂.members)
      (Resolver.functionHeads ms₂) :=
    Resolver.follows_functionHeads hparameters hJ.functions' hms hnames
  obtain ⟨hsame, hmoved, hend⟩ := hfollows.follow _ _ habreast
    ((quiet_headed φ' hms hquiet).trans (reports_start _ _).symm) (Nat.le_refl _)
  refine ⟨hsame.trans hreports, hmoved, ?_⟩
  have hle := (marks s₁ s₂).finish_le
  have hnumbers : _ + finish s₁ = (marks s₁ s₂).heads' + (marks s₁ s₂).heads := hend.symbols
  have hfinish : (marks s₁ s₂).finish = finish s₁ := rfl
  rw [Marks.jointHeads]
  omega

theorem func_first (hJ : (marks s₁ s₂).Joins φ φ') {t : FunctionText} (ht : t ∈ (first s₁).functions) :
    φ'.func t.function = φ.func t.function := by
  obtain ⟨hkinds, id, horigin, -, hid⟩ := (Layer.numbered_headed _ _ _).1 t ht
  have hparameters : t.function.parameters.map φ'.var = t.function.parameters.map φ.var := by
    refine List.map_congr_left fun v hv ↦ ?_
    rw [Renumbering.var, Renumbering.var, (hkinds v hv).1, hJ.parameter]
  have hfunction : φ'.function id = φ.function id :=
    (hJ.earlier id (Nat.zero_le id) hid).trans (hJ.functions id (Nat.zero_le id) hid).symm
  rw [Renumbering.func, Renumbering.func, hparameters, horigin, Renumbering.origin, Renumbering.origin, hfunction]

theorem moved_first (hJ : (marks s₁ s₂).Joins φ φ') {ts : List FunctionText}
    (hts : List.Forall₂ (FunctionText.Moved φ) (first s₁).functions ts) :
    List.Forall₂ (FunctionText.Moved φ') (first s₁).functions ts := by
  have hmem : List.Forall₂ (fun t t' ↦ t ∈ (first s₁).functions ∧ t.Moved φ t') (first s₁).functions ts :=
    (List.forall₂_and_left _ _).mpr ⟨fun _ ht ↦ ht, hts⟩
  refine hmem.imp fun t t' ⟨ht, hmoved⟩ ↦ ⟨?_, hmoved.text⟩
  rw [hmoved.function, func_first hJ ht]

theorem var_global (hJ : (marks s₁ s₂).Joins φ φ') {v : Variable} (hv : v.kind = .global) : φ'.var v = φ.var v := by
  rw [Renumbering.var, Renumbering.var, hv, hJ.global]

theorem functions_moved {ts ts' : List FunctionText} (h : List.Forall₂ (FunctionText.Moved φ) ts ts') :
    ts'.map (·.function) = (ts.map (·.function)).map φ.func := by
  induction h with
  | nil => rfl
  | cons ht _ ih => rw [List.map_cons, ih, ht.function]; rfl

end Joint

end Join

end SmallScript
