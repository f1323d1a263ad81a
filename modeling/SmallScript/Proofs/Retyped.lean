import SmallScript.Proofs.Chain
import SmallScript.Proofs.Resolve.FadedText

namespace SmallScript

open SmallScript.Tree (Whole Source unknownOf unknownTypesAll callsOfAll ReturnsValueAny)

namespace Tree

/-- The type names in some texts, the latest first, that stand for no type: those outside the bodies of functions,
and then those inside. -/
def unknownTypes (sources : List Source) : List Token :=
  (sources.reverse.flatMap fun s ↦ s.unknownInHeads ++ s.unknownOutside) ++ sources.flatMap Source.unknownInBodies

/-- The functions in some texts whose heads name types that do not exist. -/
def losses (sources : List Source) : Losses where
  parameter name p := ∃ s ∈ sources, ∃ f ∈ s.functions, f.identifier.text = name ∧
    ∃ q ∈ f.parameters, q.identifier.text = p ∧ unknownOf (some q.clause) ≠ []
  returns name := ∃ s ∈ sources, ∃ f ∈ s.functions, f.identifier.text = name ∧ unknownOf f.clause ≠ []
  called name := ∃ s ∈ sources, name ∈ s.calls
  valued name := ∃ s ∈ sources, ∃ f ∈ s.functions, f.identifier.text = name ∧ ReturnsValueAny f.body.statements

theorem covers_losses {sources : List Source} {s : Source} (hs : s ∈ sources) :
    (∀ f ∈ s.functions, (losses sources).Covers f) ∧ ∀ x ∈ callsOfAll s.outside, (losses sources).called x := by
  refine ⟨fun f hf ↦ ⟨fun p hp hunknown ↦ ?_, fun hunknown ↦ ?_, fun x hx ↦ ?_, fun hvalue ↦ ?_⟩,
    fun x hx ↦ ?_⟩
  · exact ⟨s, hs, f, hf, rfl, p, hp, rfl, hunknown⟩
  · exact ⟨s, hs, f, hf, rfl, hunknown⟩
  · exact ⟨s, hs, List.mem_append_right _ (List.mem_flatMap.mpr ⟨f, hf, hx⟩)⟩
  · exact ⟨s, hs, f, hf, rfl, hvalue⟩
  · exact ⟨s, hs, List.mem_append_left _ hx⟩

theorem losses_of_heads {sources : List Source} (h : ∀ s ∈ sources, s.unknownInHeads = []) :
    (∀ f p, ¬ (losses sources).parameter f p) ∧ ∀ f, ¬ (losses sources).returns f := by
  have hhead {s : Source} (hs : s ∈ sources) {f : Function} (hf : f ∈ s.functions) : f.unknownTypes = [] :=
    List.flatMap_eq_nil_iff.mp (h s hs) f hf
  constructor
  · rintro _ _ ⟨s, hs, f, hf, -, p, hp, -, hunknown⟩
    exact hunknown (List.flatMap_eq_nil_iff.mp (List.append_eq_nil_iff.mp (hhead hs hf)).1 p hp)
  · rintro _ ⟨s, hs, f, hf, -, hunknown⟩
    exact hunknown (List.append_eq_nil_iff.mp (hhead hs hf)).2

end Tree

/-- On texts of a chain, each type is reported that does not exist, and else what follows from losses. -/
theorem Layers.fades_ofSources {K : Losses} {l l' : List (Source × Nat)}
    (h : List.Forall₂ Source.Retyped (l.map Prod.fst) (l'.map Prod.fst)) (hw : ∀ s ∈ l.map Prod.fst, Whole s.tokens)
    (hK : ∀ s ∈ l'.map Prod.fst, (∀ f ∈ s.functions, K.Covers f) ∧ ∀ x ∈ callsOfAll s.outside, K.called x)
    (hq : (ofSources l).reports = []) :
    List.Forall₂ (Layer.FadesTo K) (ofSources l) (ofSources l') ∧
      ((ofSources l').flatMap (·.functions)).map (·.text) = (l'.map Prod.fst).flatMap Source.functions ∧
      K.Tells ((l'.map Prod.fst).reverse.flatMap fun s ↦ s.unknownInHeads ++ s.unknownOutside)
        (ofSources l').reports := by
  rw [List.forall₂_map_left_iff, List.forall₂_map_right_iff] at h
  induction h with
  | nil => exact ⟨.nil, rfl, .nil⟩
  | @cons p p' l l' hp _ ih =>
    obtain ⟨source, n⟩ := p
    obtain ⟨source', n'⟩ := p'
    obtain ⟨ρ, hρ, hs⟩ := hp
    obtain ⟨hwp, hwl⟩ := List.forall_mem_cons.mp hw
    obtain ⟨hKp, hKl⟩ := List.forall_mem_cons.mp hK
    rw [ofSources, reports_cons, List.append_eq_nil_iff] at hq
    obtain ⟨hlayers, htexts, htells⟩ := ih hwl hKl hq.1
    obtain ⟨hlayer, htext, htell⟩ := Layer.fades_ofSource hρ hlayers hs hwp hKp.1 hKp.2 n n' hq.2
    refine ⟨.cons hlayer hlayers, ?_, ?_⟩
    · rw [ofSources, List.flatMap_cons, List.map_append, htext, htexts, List.map_cons, List.flatMap_cons]
    · rw [ofSources, reports_cons, List.map_cons, List.reverse_cons, List.flatMap_append, List.flatMap_singleton]
      exact htells.append htell

namespace Compilation

variable {c c' : Compilation} {earlier earlier' : List Compilation}

theorem Chain.whole_of_mem {d : Compilation} (h : Chain c earlier) (hd : d ∈ c :: earlier)
    (hreports : d.tree.reports = []) : Whole d.tree.source.tokens := by
  obtain ⟨before, hd, -⟩ := h.of_mem hd
  cases hd <;> (rw [tree_ofText] at hreports ⊢; exact Tree.whole_of_reports_eq_nil hreports)

theorem Chain.reports_program (h : Chain c earlier) :
    ∃ n, c.program.reports = (Program.functionBodies c.layers n (c.layers.flatMap (·.functions))).2.1 := by
  have hofText (text : String) (earlier : Layers) (n : Nat) : ∃ n', (ofText text earlier n).program.reports =
      (Program.functionBodies (ofText text earlier n).layers n'
        ((ofText text earlier n).layers.flatMap (·.functions))).2.1 := by
    obtain ⟨n', hprogram⟩ := program_ofText text earlier n
    exact ⟨n', by rw [hprogram, Program.ofLayers]⟩
  cases h <;> exact hofText _ _ _

/-- If nothing is reported on texts, then of others that are written like them but for types that do not exist, each
of these types is reported, and else what follows from losses. -/
theorem Chain.tells_retyped (h : Chain c earlier) (h' : Chain c' earlier')
    (hs : List.Forall₂ (fun d d' ↦ d.tree.source.Retyped d'.tree.source) (c :: earlier) (c' :: earlier'))
    (htrees : ∀ d ∈ c :: earlier, d.tree.reports = []) (hlayers : c.layers.reports = [])
    (hprogram : c.program.reports = []) {sources : List Source}
    (hsources : sources = (c' :: earlier').map (·.tree.source)) :
    (Tree.losses sources).Tells (Tree.unknownTypes sources) (c'.layers.reports ++ c'.program.reports) := by
  obtain ⟨l, hl, hofl⟩ := h.exists_ofSources
  obtain ⟨l', hl', hofl'⟩ := h'.exists_ofSources
  obtain ⟨n, hn⟩ := h.reports_program
  obtain ⟨n', hn'⟩ := h'.reports_program
  rw [← hsources] at hl'
  have hwhole : ∀ s ∈ l.map Prod.fst, Whole s.tokens := by
    rw [hl]
    exact List.forall_mem_map.mpr fun d hd ↦ h.whole_of_mem hd (htrees d hd)
  have hretyped : List.Forall₂ Source.Retyped (l.map Prod.fst) (l'.map Prod.fst) := by
    rw [hl, hl', hsources, List.forall₂_map_left_iff, List.forall₂_map_right_iff]
    exact hs
  rw [hofl] at hlayers
  obtain ⟨hfades, htexts, htells⟩ :=
    Layers.fades_ofSources hretyped hwhole (fun s hs ↦ Tree.covers_losses (hl' ▸ hs)) hlayers
  rw [← hofl, ← hofl'] at hfades
  rw [← hofl', hl'] at htexts htells
  have hfunctions : List.Forall₂ (FunctionText.FadesTo (Tree.losses sources)) (c.layers.flatMap (·.functions))
      (c'.layers.flatMap (·.functions)) := List.rel_flatMap hfades fun _ _ hlayer ↦ hlayer.functions
  have hbodies := Program.fades_functionBodies hfades hfunctions n n' (hn ▸ hprogram)
  have hunknown : (c'.layers.flatMap (·.functions)).flatMap (fun t ↦ unknownTypesAll t.text.body.statements) =
      sources.flatMap Source.unknownInBodies := by
    have hmap := List.flatMap_map FunctionText.text (fun f ↦ unknownTypesAll f.body.statements)
      (c'.layers.flatMap (·.functions))
    rw [← hmap, htexts, List.flatMap_assoc]
    rfl
  rw [hunknown, ← hn'] at hbodies
  exact htells.append hbodies

/-- If nothing is reported on texts, then these name no type that does not exist; and if others are written like them
but for types that do not exist, each of these types is reported once. Else are reported only arguments for which the
parameter has no type, and the use and the return of values where the function has none. Where a function whose head
has such a clause is not called, and gives back no value if the clause is its own, there is one report for each clause
that names such a type, and no other. -/
theorem Chain.reports_retyped (h : Chain c earlier) (h' : Chain c' earlier')
    (hs : List.Forall₂ (fun d d' ↦ d.tree.source.Retyped d'.tree.source) (c :: earlier) (c' :: earlier'))
    (htrees : ∀ d ∈ c :: earlier, d.tree.reports = []) (htrees' : ∀ d ∈ c' :: earlier', d.tree.reports = [])
    (hlayers : c.layers.reports = []) (hprogram : c.program.reports = []) :
    let sources := (c' :: earlier').map (·.tree.source)
    let K := Tree.losses sources
    let missing : List Report := (Tree.unknownTypes sources).map fun t ↦ ⟨t.span, .typeMissing t.text⟩
    let reports := c'.reports ++ c'.program.reports
    Tree.unknownTypes ((c :: earlier).map (·.tree.source)) = [] ∧
    K.Tells (Tree.unknownTypes sources) reports ∧ reports.filter (·.cause.code == 2013) = missing ∧
    ((∀ f p, K.parameter f p → ¬ K.called f) → (∀ f, K.returns f → ¬ K.called f ∧ ¬ K.valued f) →
      reports = missing) := by
  intro sources K missing reports
  have htells : K.Tells (Tree.unknownTypes sources) reports := by
    have hreports : c'.reports = c'.layers.reports := by
      rw [Compilation.reports, htrees' c' List.mem_cons_self, List.nil_append]
    have htells := h.tells_retyped h' hs htrees hlayers hprogram (rfl : sources = _)
    rwa [← hreports] at htells
  refine ⟨?_, htells, htells.filter_eq_map, fun hparameter hreturns ↦ htells.eq_map ?_⟩
  · have hsame : List.Forall₂ (fun d d' : Compilation ↦ d.tree.source.Retyped d'.tree.source) (c :: earlier)
        (c :: earlier) := List.forall₂_same.mpr fun d _ ↦ .refl d.tree.source
    have htells := h.tells_retyped h hsame htrees hlayers hprogram rfl
    rw [hlayers, hprogram] at htells
    exact List.map_eq_nil_iff.mp htells.filter_eq_map.symm
  · rintro _ (⟨hp, hcalled, -⟩ | ⟨hf, hcalled⟩ | ⟨hf, hvalued⟩)
    · exact hparameter _ _ hp hcalled
    · exact (hreturns _ hf).1 hcalled
    · exact (hreturns _ hf).2 hvalued

attribute [local irreducible] ofText Tree.ofText

theorem Chain.reports_retyped_local :
    let c := ofText "function f(n: int): int \x7b var k: int = n return k + 1 \x7d f(1)" [] 3
    let c' := ofText "function f(n: int): int \x7b var k: foo = n return k + 1 \x7d f(1)" [] 3
    c.tree.source.Retyped c'.tree.source ∧ c.obstacles = [] ∧ c'.tree.reports = [] ∧
      c'.reports ++ c'.program.reports = [⟨⟨33, 3⟩, .typeMissing "foo"⟩] := by
  intro c c'
  have h : Chain c [] := .first _ (by decide)
  have h' : Chain c' [] := .first _ (by decide)
  have hc : c = ofTree (.ofChars _) [] 3 := ofText_ofList ..
  have hc' : c' = ofTree (.ofChars _) [] 3 := ofText_ofList ..
  clear_value c c'
  have hs : c.tree.source.Retyped c'.tree.source := by
    rw [hc, hc']
    exact Source.retyped_of_same 33 "foo" (by decide) (by decide +kernel) (by decide +kernel)
  have hclean : c.obstacles = [] := by
    rw [hc]
    decide +kernel
  have htree' : c'.tree.reports = [] := by
    rw [hc']
    decide +kernel
  obtain ⟨htree, hlayers, hprogram⟩ := c.obstacles_eq_nil_iff.mp hclean
  obtain ⟨-, -, -, hreports⟩ := Chain.reports_retyped h h' (.cons hs .nil)
    (List.forall_mem_singleton.mpr htree) (List.forall_mem_singleton.mpr htree') hlayers hprogram
  have hheads : ∀ s ∈ [c'.tree.source], s.unknownInHeads = [] := by
    rw [hc']
    decide +kernel
  obtain ⟨hparameter, hreturns⟩ := Tree.losses_of_heads hheads
  have hmissing := hreports (fun f p h ↦ absurd h (hparameter f p)) fun f h ↦ absurd h (hreturns f)
  refine ⟨hs, hclean, htree', hmissing.trans ?_⟩
  rw [List.map_singleton, hc']
  decide +kernel

/-- The type of a parameter that does not exist is reported once more where the function is called, and the type of a
function that does not exist where a value is returned and where one is used. -/
theorem Chain.cascades_from_heads :
    (let c := ofText "function f(a: int) \x7b \x7d f(1)" [] 3
    let c' := ofText "function f(a: foo) \x7b \x7d f(1)" [] 3
    c.tree.source.Retyped c'.tree.source ∧ c.obstacles = [] ∧
      (Tree.unknownTypes [c'.tree.source]).map (·.span) = [⟨14, 3⟩] ∧ c'.reports ++ c'.program.reports =
        [⟨⟨14, 3⟩, .typeMissing "foo"⟩, ⟨⟨25, 1⟩, .argumentType "f" "a" .unknown .int⟩]) ∧
    (let c := ofText "function f(): int \x7b return 1 \x7d var x = f()" [] 3
    let c' := ofText "function f(): foo \x7b return 1 \x7d var x = f()" [] 3
    c.tree.source.Retyped c'.tree.source ∧ c.obstacles = [] ∧
      (Tree.unknownTypes [c'.tree.source]).map (·.span) = [⟨14, 3⟩] ∧ c'.reports ++ c'.program.reports =
        [⟨⟨14, 3⟩, .typeMissing "foo"⟩, ⟨⟨39, 3⟩, .valueMissing⟩, ⟨⟨27, 1⟩, .voidReturnsValue "f"⟩]) := by
  constructor
  · intro c c'
    have hc : c = ofTree (.ofChars _) [] 3 := ofText_ofList ..
    have hc' : c' = ofTree (.ofChars _) [] 3 := ofText_ofList ..
    have hs : c.tree.source.Retyped c'.tree.source := by
      rw [hc, hc']
      exact Source.retyped_of_same 14 "foo" (by decide) (by decide +kernel) (by decide +kernel)
    refine ⟨hs, ?_⟩
    rw [hc, hc']
    decide +kernel
  · intro c c'
    have hc : c = ofTree (.ofChars _) [] 3 := ofText_ofList ..
    have hc' : c' = ofTree (.ofChars _) [] 3 := ofText_ofList ..
    have hs : c.tree.source.Retyped c'.tree.source := by
      rw [hc, hc']
      exact Source.retyped_of_same 14 "foo" (by decide) (by decide +kernel) (by decide +kernel)
    refine ⟨hs, ?_⟩
    rw [hc, hc']
    decide +kernel

end Compilation

end SmallScript
