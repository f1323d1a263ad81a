import SmallScript.Compilation

namespace SmallScript

def Outcome.Ran : Outcome → Prop
  | .refused _ => False
  | _ => True

def Outcome.fault? : Outcome → Option Fault
  | .failed f => some f
  | _ => none

theorem Outcome.eq_failed {o : Outcome} {f : Fault} (h : o.fault? = some f) : o = .failed f := by
  cases o with
  | failed g => exact congrArg _ (Option.some.inj h)
  | _ => nomatch h

theorem Layers.reports_cons (layer : Layer) (earlier : Layers) :
    Layers.reports (layer :: earlier) = Layers.reports earlier ++ layer.reports := by
  simp [Layers.reports]

/-- Layers that trees give one after the other, the latest first, each with the first number for its
symbols. -/
def Layers.ofSources : List (Tree.Source × Nat) → Layers
  | [] => []
  | (source, n) :: earlier => (Layer.ofSource (ofSources earlier) source n).1 :: ofSources earlier

/-- The tree of the text that `cs` are the characters of. -/
def Tree.ofChars (cs : List Char) : Tree :=
  let scanned := ScanPoint.scan cs.length ⟨0, cs⟩
  let (source, reports) := Source.ofTokens (scanned.map (·.token))
  ⟨.ofList cs, .ofText (.ofList cs), source, scanned.filterMap (·.report) ++ reports⟩

/-- What a closed text gives is computed from its characters, since to decode them takes longer than all the rest. -/
theorem Tree.ofText_ofList (cs : List Char) : Tree.ofText (.ofList cs) = .ofChars cs := by
  rw [ofText, ofChars, scan, String.toList_ofList]

namespace Compilation

def ofTree (tree : Tree) (earlier : Layers) (nextSymbol : Nat) : Compilation :=
  let (layer, next) := Layer.ofSource earlier tree.source nextSymbol
  let (program, next) := Program.ofLayers (layer :: earlier) next
  ⟨tree, layer :: earlier, program, next⟩

theorem ofText_ofList (cs : List Char) (earlier : Layers) (n : Nat) :
    ofText (.ofList cs) earlier n = ofTree (.ofChars cs) earlier n := by
  rw [ofText, Tree.ofText_ofList, ofTree]

theorem first_ofList (cs : List Char) : first (.ofList cs) = ofTree (.ofChars cs) [] Builtin.firstFree :=
  ofText_ofList ..

theorem next_ofList (c : Compilation) (cs : List Char) :
    c.next (.ofList cs) = ofTree (.ofChars cs) c.layers c.nextSymbol :=
  ofText_ofList ..

/-- A compilation and those before it, the latest first. Symbols may have been numbered for other
texts in between. -/
inductive Chain : Compilation → List Compilation → Prop
  | first (text : String) {n : Nat} (hn : Builtin.firstFree ≤ n) : Chain (ofText text [] n) []
  | next {c : Compilation} {earlier : List Compilation} (h : Chain c earlier) (text : String)
      {n : Nat} (hn : c.nextSymbol ≤ n) : Chain (ofText text c.layers n) (c :: earlier)

/-- The layer that a text adds to earlier ones. -/
def layerOf (text : String) (earlier : Layers) (n : Nat) : Layer :=
  (Layer.ofSource earlier (Tree.ofText text).source n).1

theorem layers_ofText (text : String) (earlier : Layers) (n : Nat) :
    (ofText text earlier n).layers = layerOf text earlier n :: earlier := by
  simp only [ofText, layerOf]

theorem tree_ofText (text : String) (earlier : Layers) (n : Nat) :
    (ofText text earlier n).tree = Tree.ofText text := by
  simp only [ofText]

attribute [local irreducible] ofText

theorem Chain.of_mem {c d : Compilation} {earlier : List Compilation} (h : Chain c earlier)
    (hd : d ∈ c :: earlier) : ∃ before, Chain d before ∧ before <:+ earlier := by
  induction h with
  | first text hn =>
    obtain rfl := List.mem_singleton.mp hd
    exact ⟨[], .first text hn, List.suffix_rfl⟩
  | @next c earlier h text n hn ih =>
    rcases List.mem_cons.mp hd with rfl | hd
    · exact ⟨_, .next h text hn, List.suffix_rfl⟩
    · obtain ⟨before, hb, hs⟩ := ih hd
      exact ⟨before, hb, hs.trans (List.suffix_cons _ _)⟩

theorem Chain.exists_ofText {c : Compilation} {earlier : List Compilation} (h : Chain c earlier) :
    ∃ text layers n, c = ofText text layers n := by
  cases h with
  | first text hn => exact ⟨text, [], _, rfl⟩
  | next h text hn => exact ⟨text, _, _, rfl⟩

theorem Chain.exists_ofSources {c : Compilation} {earlier : List Compilation} (h : Chain c earlier) :
    ∃ sources, sources.map Prod.fst = (c :: earlier).map (·.tree.source) ∧
      c.layers = Layers.ofSources sources := by
  induction h with
  | @first text n hn =>
    exact ⟨[((Tree.ofText text).source, n)], by simp only [List.map, tree_ofText], layers_ofText text [] n⟩
  | @next c earlier h text n hn ih =>
    obtain ⟨sources, hsources, hlayers⟩ := ih
    refine ⟨((Tree.ofText text).source, n) :: sources, ?_, ?_⟩
    · rw [List.map_cons, List.map_cons, hsources, tree_ofText]
    · rw [layers_ofText, hlayers, layerOf, Layers.ofSources]

theorem Chain.reports_of_mem {c d : Compilation} {earlier : List Compilation} (h : Chain c earlier)
    (hd : d ∈ c :: earlier) (hc : c.layers.reports = []) : d.layers.reports = [] := by
  induction h with
  | first text hn =>
    obtain rfl := List.mem_singleton.mp hd
    exact hc
  | @next c earlier h text n hn ih =>
    rcases List.mem_cons.mp hd with rfl | hd
    · exact hc
    · rw [layers_ofText, Layers.reports_cons, List.append_eq_nil_iff] at hc
      exact ih hd hc.1

theorem obstacles_eq_nil_iff (c : Compilation) :
    c.obstacles = [] ↔ c.tree.reports = [] ∧ c.layers.reports = [] ∧ c.program.reports = [] := by
  unfold obstacles reports
  split
  · next h =>
    rw [List.isEmpty_iff, List.append_eq_nil_iff] at h
    simp [h]
  · next h =>
    rw [List.isEmpty_iff, List.append_eq_nil_iff] at h
    rw [List.append_eq_nil_iff]
    exact ⟨fun h' ↦ absurd h' h, fun h' ↦ absurd ⟨h'.1, h'.2.1⟩ h⟩

section Evaluate

variable (c : Compilation) (limits : Limits) (n : Nat) (globals : Store) (console : Console)

theorem evaluate_of_obstacles (h : c.obstacles ≠ []) :
    c.evaluate limits n globals console = ⟨.refused c.obstacles, globals, console⟩ := by
  have h' : c.obstacles.isEmpty = false := by simpa [List.isEmpty_iff] using h
  simp [evaluate, h']

theorem ran_evaluate_iff :
    (c.evaluate limits n globals console).outcome.Ran ↔ c.obstacles = [] := by
  by_cases h : c.obstacles = []
  · refine iff_of_true ?_ h
    simp only [evaluate, h, List.isEmpty_nil, if_true]
    split <;> trivial
  · refine iff_of_false ?_ h
    rw [evaluate_of_obstacles c limits n globals console h]
    exact not_false

end Evaluate

/-- A run begins exactly if nothing is reported on the last text itself, on the meaning of any text of
the chain, and on the bodies of functions; otherwise nothing is touched. That leaves out the reports
that earlier texts have on themselves, so a run shows the whole chain to be free of reports exactly if
those are. -/
theorem Chain.evaluate_gate {c : Compilation} {earlier : List Compilation} (h : Chain c earlier)
    (limits : Limits) (n : Nat) (globals : Store) (console : Console) :
    ((c.evaluate limits n globals console).outcome.Ran ↔
      c.tree.reports = [] ∧ (∀ d ∈ c :: earlier, d.layers.reports = []) ∧ c.program.reports = []) ∧
    (¬ (c.evaluate limits n globals console).outcome.Ran →
      (c.evaluate limits n globals console).globals = globals ∧
        (c.evaluate limits n globals console).console = console) ∧
    ((c.evaluate limits n globals console).outcome.Ran →
      (((∀ d ∈ c :: earlier, d.tree.reports = [] ∧ d.layers.reports = []) ∧
        c.program.reports = []) ↔ ∀ d ∈ earlier, d.tree.reports = [])) := by
  have hran := ran_evaluate_iff c limits n globals console
  refine ⟨?_, ?_, ?_⟩
  · rw [hran, obstacles_eq_nil_iff]
    constructor
    · rintro ⟨ht, hl, hp⟩
      exact ⟨ht, fun d hd ↦ h.reports_of_mem hd hl, hp⟩
    · rintro ⟨ht, hl, hp⟩
      exact ⟨ht, hl c List.mem_cons_self, hp⟩
  · intro hn
    have hobs : c.obstacles ≠ [] := fun h' ↦ hn (hran.mpr h')
    rw [evaluate_of_obstacles c limits n globals console hobs]
    exact ⟨rfl, rfl⟩
  · intro hr
    obtain ⟨ht, hl, hp⟩ := (obstacles_eq_nil_iff c).mp (hran.mp hr)
    constructor
    · rintro ⟨hall, -⟩ d hd
      exact (hall d (List.mem_cons_of_mem c hd)).1
    · intro hall
      refine ⟨fun d hd ↦ ⟨?_, h.reports_of_mem hd hl⟩, hp⟩
      rcases List.mem_cons.mp hd with rfl | hd
      · exact ht
      · exact hall d hd

theorem Chain.evaluate_gate_two_texts :
    Chain (ofText "x + 1" (ofText "var x = 1" [] 3).layers 4) [ofText "var x = 1" [] 3] ∧
    ((∀ d ∈ [ofText "x + 1" (ofText "var x = 1" [] 3).layers 4, ofText "var x = 1" [] 3],
      d.tree.reports = [] ∧ d.layers.reports = []) ∧
      (ofText "x + 1" (ofText "var x = 1" [] 3).layers 4).program.reports = []) := by
  have h : Chain (ofText "x + 1" (ofText "var x = 1" [] 3).layers 4) [ofText "var x = 1" [] 3] :=
    .next (.first _ (by decide)) _ (by rw [ofText_ofList]; decide +kernel)
  have hobstacles : (ofText "x + 1" (ofText "var x = 1" [] 3).layers 4).obstacles = [] := by
    rw [ofText_ofList, ofText_ofList]
    decide +kernel
  have hgate := h.evaluate_gate (Options.standard.limits 0) 10 .empty ⟨[], #[]⟩
  refine ⟨h, (hgate.2.2 ((ran_evaluate_iff _ _ _ _ _).mpr hobstacles)).mpr ?_⟩
  intro d hd
  obtain rfl := List.mem_singleton.mp hd
  rw [ofText_ofList]
  decide +kernel

/-- The second text runs although the first one lacks an operand, and runs into what stands there. -/
theorem Chain.runs_into_missing_operand :
    Chain (ofText "f()" (ofText "function f() \x7b 1 + \x7d" [] 3).layers 4)
      [ofText "function f() \x7b 1 + \x7d" [] 3] ∧
    (ofText "function f() \x7b 1 + \x7d" [] 3).tree.reports ≠ [] ∧
    ((ofText "f()" (ofText "function f() \x7b 1 + \x7d" [] 3).layers 4).evaluate
      (Options.standard.limits 0) 10 .empty ⟨[], #[]⟩).outcome =
      .failed (.unexpectedNode "ErrorExpression") := by
  refine ⟨.next (.first _ (by decide)) _ ?_, ?_, ?_⟩
  · rw [ofText_ofList]
    decide +kernel
  · rw [ofText_ofList]
    decide +kernel
  · apply Outcome.eq_failed
    rw [ofText_ofList, ofText_ofList]
    decide +kernel

end Compilation

end SmallScript
