import SmallScript.Proofs.Chain
import SmallScript.Proofs.Tree.Reading
import SmallScript.Proofs.Typing.Body

namespace SmallScript

/-- An evaluation that makes no mistake, and leaves values of the types declared. -/
structure Evaluation.Sound (e : Evaluation) : Prop where
  notStuck : e.outcome ≠ .stuck
  notInternal : ∀ f, e.outcome = .failed f → f.isInternal = false
  globals : e.globals.Typed

namespace Compilation

/-- The values that some compilations leave, evaluated one after the other from nothing on. -/
inductive Produced (members : List Compilation) : Store → Prop
  | empty : Produced members .empty
  | evaluate {globals : Store} (h : Produced members globals) {d : Compilation} (hd : d ∈ members)
      (limits : Limits) (n : Nat) (console : Console) :
      Produced members (d.evaluate limits n globals console).globals

theorem layers_sound_ofText {text : String} {earlier : Layers} {n : Nat} (h : earlier.Sound)
    (hclean : (ofText text earlier n).tree.reports = [])
    (hreports : (ofText text earlier n).layers.reports = []) :
    (ofText text earlier n).layers.Sound := by
  rw [tree_ofText] at hclean
  rw [layers_ofText, Layers.reports_cons, List.append_eq_nil_iff, layerOf] at hreports
  rw [layers_ofText, layerOf]
  exact h.ofSource (Tree.whole_of_reports_eq_nil hclean) hreports.2

theorem program_ofText (text : String) (earlier : Layers) (n : Nat) :
    ∃ n', (ofText text earlier n).program =
      (Program.ofLayers (ofText text earlier n).layers n').1 := by
  refine ⟨(Layer.ofSource earlier (Tree.ofText text).source n).2, ?_⟩
  simp only [ofText]

attribute [local irreducible] ofText

theorem Chain.layers_sound {c : Compilation} {earlier : List Compilation} (h : Chain c earlier)
    (hclean : ∀ d ∈ c :: earlier, d.tree.reports = []) (hreports : c.layers.reports = []) :
    c.layers.Sound := by
  induction h with
  | first text hn => exact layers_sound_ofText trivial (hclean _ List.mem_cons_self) hreports
  | @next c earlier h text n hn ih =>
    obtain ⟨hc, hearlier⟩ := List.forall_mem_cons.mp hclean
    have hlayers := hreports
    rw [layers_ofText, Layers.reports_cons, List.append_eq_nil_iff] at hlayers
    exact layers_sound_ofText (ih hearlier hlayers.1) hc hreports

theorem Chain.program_eq {c : Compilation} {earlier : List Compilation} (h : Chain c earlier) :
    ∃ n, c.program = (Program.ofLayers c.layers n).1 := by
  obtain ⟨text, layers, n, rfl⟩ := h.exists_ofText
  exact program_ofText text layers n

/-- A member of a chain of texts without reports of their own that is free of obstacles has a sound
program. -/
theorem Chain.program_sound {c d : Compilation} {earlier : List Compilation} (h : Chain c earlier)
    (hclean : ∀ d ∈ c :: earlier, d.tree.reports = []) (hd : d ∈ c :: earlier)
    (hobstacles : d.obstacles = []) : ∃ F, d.program.Sound F := by
  obtain ⟨before, hchain, hsuffix⟩ := h.of_mem hd
  obtain ⟨ht, hl, hp⟩ := (obstacles_eq_nil_iff d).mp hobstacles
  have hclean' : ∀ e ∈ d :: before, e.tree.reports = [] := by
    refine List.forall_mem_cons.mpr ⟨ht, fun e he ↦ ?_⟩
    exact hclean e (List.mem_cons_of_mem c (hsuffix.subset he))
  obtain ⟨n, hn⟩ := hchain.program_eq
  rw [hn] at hp ⊢
  exact ⟨_, (hchain.layers_sound hclean' hl).ofLayers hp⟩

theorem evaluate_of_sound {d : Compilation} {F : Function → Prop} (h : d.program.Sound F)
    (hobstacles : d.obstacles = []) {globals : Store} (hglobals : globals.Typed) (limits : Limits)
    (n : Nat) (console : Console) : (d.evaluate limits n globals console).Sound := by
  have hrun := h.run limits n (.start globals console) ⟨hglobals, List.forall_mem_nil _⟩
  simp only [evaluate, hobstacles, List.isEmpty_nil, if_true]
  split
  · next value m hm =>
    rw [hm] at hrun
    exact ⟨Outcome.noConfusion, fun _ ↦ Outcome.noConfusion, hrun.1.1⟩
  · next f m hm =>
    rw [hm] at hrun
    refine ⟨Outcome.noConfusion, ?_, hrun.1.1⟩
    intro g hg
    cases hg
    exact hrun.2
  · next m hm =>
    rw [hm] at hrun
    exact hrun.2.elim
  · next m hm =>
    rw [hm] at hrun
    exact ⟨Outcome.noConfusion, fun _ ↦ Outcome.noConfusion, hrun.1.1⟩

theorem Chain.typed_of_produced {c : Compilation} {earlier : List Compilation} (h : Chain c earlier)
    (hclean : ∀ d ∈ c :: earlier, d.tree.reports = []) {globals : Store}
    (hglobals : Produced (c :: earlier) globals) : globals.Typed := by
  induction hglobals with
  | empty => exact Store.typed_empty
  | evaluate _ hd limits n console ih =>
    rename_i globals _ d
    by_cases hobstacles : d.obstacles = []
    · obtain ⟨F, hF⟩ := h.program_sound hclean hd hobstacles
      exact (evaluate_of_sound hF hobstacles ih limits n console).globals
    · rw [evaluate_of_obstacles d limits n globals console hobstacles]
      exact ih

/-- Type soundness. In a chain of texts that lack no token, a text that is free of obstacles makes no
mistake when it runs on what evaluations left, and it leaves values of the types declared. -/
theorem Chain.evaluate_sound {c d : Compilation} {earlier : List Compilation} (h : Chain c earlier)
    (hclean : ∀ d ∈ c :: earlier, d.tree.reports = []) (hd : d ∈ c :: earlier)
    (hobstacles : d.obstacles = []) {globals : Store} (hglobals : Produced (c :: earlier) globals)
    (limits : Limits) (n : Nat) (console : Console) :
    (d.evaluate limits n globals console).Sound := by
  obtain ⟨F, hF⟩ := h.program_sound hclean hd hobstacles
  exact evaluate_of_sound hF hobstacles (h.typed_of_produced hclean hglobals) limits n console

theorem Chain.evaluate_sound_two_texts :
    ((Compilation.first "function f(n: int): string \x7b return string(n) \x7d var x = 1").next "x = 7 f(x)").obstacles = [] ∧
    (((Compilation.first "function f(n: int): string \x7b return string(n) \x7d var x = 1").next "x = 7 f(x)").evaluate
      (Options.standard.limits 0) 10
      ((Compilation.first "function f(n: int): string \x7b return string(n) \x7d var x = 1").evaluate
        (Options.standard.limits 0) 10 .empty ⟨[], #[]⟩).globals ⟨[], #[]⟩).Sound := by
  have h : Chain
      ((Compilation.first "function f(n: int): string \x7b return string(n) \x7d var x = 1").next "x = 7 f(x)")
      [Compilation.first "function f(n: int): string \x7b return string(n) \x7d var x = 1"] :=
    .next (.first _ (by decide)) _ (Nat.le_refl _)
  have hobstacles : ((Compilation.first "function f(n: int): string \x7b return string(n) \x7d var x = 1").next
      "x = 7 f(x)").obstacles = [] := by
    rw [first_ofList, next_ofList]
    decide +kernel
  refine ⟨hobstacles, h.evaluate_sound (fun d hd ↦ ?_) List.mem_cons_self hobstacles
    (.evaluate .empty (List.mem_cons_of_mem _ (List.mem_singleton_self _)) _ _ _) _ _ _⟩
  rcases List.mem_cons.mp hd with rfl | hd
  · rw [first_ofList, next_ofList]
    decide +kernel
  · obtain rfl := List.mem_singleton.mp hd
    rw [first_ofList]
    decide +kernel

end Compilation

end SmallScript
