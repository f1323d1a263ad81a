import SmallScript.Proofs.Unshadowed

namespace SmallScript

open Code (Body Expression Statement Rules Renaming renameAll AllOf)

/-- A program has what the text of a function became as its body, and all reports on it. -/
structure Program.Binds (p : Program) (t : FunctionText) (b : FunctionBody) : Prop where
  body : p.body? t.function = some b.body
  reports : b.reports <:+: p.reports

structure Layers.Numbered (m : Nat) (layers : Layers) : Prop where
  each : ∀ l ∈ layers, l.Numbered 0 m
  distinct : (layers.flatMap (·.functions)).Pairwise (·.function ≠ ·.function)

namespace Layers.Numbered

variable {m : Nat} {layers : Layers} (h : layers.Numbered m)
include h

theorem functions {t : FunctionText} (ht : t ∈ layers.flatMap (·.functions)) : t.Numbered 0 m := by
  obtain ⟨l, hl, ht⟩ := List.mem_flatMap.mp ht
  exact (h.each l hl).functions t ht

theorem cons {n m' : Nat} {layer : Layer} (hlayer : layer.Numbered n m') (hmn : m ≤ n) (hnm : n ≤ m') :
    Layers.Numbered m' (layer :: layers) := by
  constructor
  · refine List.forall_mem_cons.mpr ⟨⟨fun v hv ↦ ?_, fun t ht ↦ ?_, hlayer.distinct⟩, fun l hl ↦ ?_⟩
    · obtain ⟨hg, -, hlt⟩ := hlayer.vars v hv
      exact ⟨hg, Nat.zero_le _, hlt⟩
    · exact (hlayer.functions t ht).mono (Nat.zero_le _) (Nat.le_refl _)
    · obtain ⟨hvars, hfunctions, hdistinct⟩ := h.each l hl
      refine ⟨?_, ?_, hdistinct⟩
      · intro v hv
        obtain ⟨hg, hle, hlt⟩ := hvars v hv
        exact ⟨hg, hle, by omega⟩
      · intro t ht
        exact (hfunctions t ht).mono (Nat.le_refl _) (Nat.le_trans hmn hnm)
  · rw [List.flatMap_cons, List.pairwise_append]
    refine ⟨hlayer.distinct, h.distinct, ?_⟩
    intro t ht t' ht'
    exact ((h.functions ht').ne (hlayer.functions t ht) hmn).symm

end Layers.Numbered

namespace Program

variable (layers : Layers) {ts : List FunctionText}

theorem nextSymbol_functionBodies (hts : ∀ t ∈ ts, ∀ v ∈ t.function.parameters, v.kind = .parameter)
    (n : Nat) : n ≤ (functionBodies layers n ts).2.2 := by
  induction ts generalizing n with
  | nil => exact Nat.le_refl n
  | cons t rest ih =>
    obtain ⟨ht, hrest⟩ := List.forall_mem_cons.mp hts
    exact Nat.le_trans (FunctionText.nextSymbol_body layers n ht) (ih hrest _)

theorem exists_functionBody (hts : ∀ t ∈ ts, ∀ v ∈ t.function.parameters, v.kind = .parameter)
    (hdistinct : ts.Pairwise (·.function ≠ ·.function)) {t : FunctionText} (ht : t ∈ ts) (n : Nat) :
    ∃ k, n ≤ k ∧ k ≤ (functionBodies layers n ts).2.2 ∧
      (functionBodies layers n ts).1.lookup t.function = some (t.body layers k).body ∧
      (t.body layers k).reports <:+: (functionBodies layers n ts).2.1 := by
  induction ts generalizing n with
  | nil => nomatch ht
  | cons t' rest ih =>
    obtain ⟨ht', hrest⟩ := List.forall_mem_cons.mp hts
    obtain ⟨hne, hdistinct⟩ := List.pairwise_cons.mp hdistinct
    have hle := FunctionText.nextSymbol_body layers n ht'
    have hle' := nextSymbol_functionBodies layers hrest (t'.body layers n).nextSymbol
    have heq : functionBodies layers n (t' :: rest) =
        ((t'.function, (t'.body layers n).body) ::
            (functionBodies layers (t'.body layers n).nextSymbol rest).1,
          (t'.body layers n).reports ++
            (functionBodies layers (t'.body layers n).nextSymbol rest).2.1,
          (functionBodies layers (t'.body layers n).nextSymbol rest).2.2) := rfl
    rw [heq]
    rcases List.mem_cons.mp ht with rfl | ht
    · refine ⟨n, Nat.le_refl n, Nat.le_trans hle hle', ?_, (List.prefix_append _ _).isInfix⟩
      simp
    · obtain ⟨k, hk, hk', hbody, hreports⟩ := ih hrest hdistinct ht (t'.body layers n).nextSymbol
      refine ⟨k, Nat.le_trans hle hk, hk', ?_, hreports.trans (List.suffix_append _ _).isInfix⟩
      rw [List.lookup_cons, beq_false_of_ne (hne t ht).symm]
      exact hbody

end Program

namespace Compilation

variable {c : Compilation} {earlier : List Compilation}

section OfText

variable (text : String) (layers : Layers) (n : Nat)

theorem program_nextSymbol_ofText :
    ((ofText text layers n).program, (ofText text layers n).nextSymbol) =
      Program.ofLayers (ofText text layers n).layers
        (Layer.ofSource layers (Tree.ofText text).source n).2 := by
  simp only [ofText]

attribute [local irreducible] ofText

theorem exists_binds {m : Nat} (h : (ofText text layers n).layers.Numbered m) {t : FunctionText}
    (ht : t ∈ (ofText text layers n).layers.flatMap (·.functions)) :
    ∃ k, n ≤ k ∧ k ≤ (ofText text layers n).nextSymbol ∧
      (ofText text layers n).program.Binds t (t.body (ofText text layers n).layers k) := by
  have hps : ∀ t ∈ (ofText text layers n).layers.flatMap (·.functions),
      ∀ v ∈ t.function.parameters, v.kind = .parameter := fun t ht ↦ (h.functions ht).parameters
  obtain ⟨hprogram, hnext⟩ := Prod.mk.inj (program_nextSymbol_ofText text layers n)
  generalize hn' : (Layer.ofSource layers (Tree.ofText text).source n).2 = n' at hprogram hnext
  have hle : n ≤ n' := hn' ▸ (Layer.numbered_ofSource layers (Tree.ofText text).source n).1
  obtain ⟨k, hk, hk', hbody, hreports⟩ := Program.exists_functionBody _ hps h.distinct ht n'
  refine ⟨k, Nat.le_trans hle hk, ?_, ?_⟩
  · rw [hnext]
    exact Nat.le_trans hk' (Code.nextSymbol_le_flattenBody _ _)
  · rw [hprogram]
    exact ⟨hbody, hreports⟩

theorem numbered_layers_ofText {m : Nat} (h : layers.Numbered m) (hmn : m ≤ n) :
    (ofText text layers n).layers.Numbered (Layer.ofSource layers (Tree.ofText text).source n).2 := by
  obtain ⟨hle, hlayer⟩ := Layer.numbered_ofSource layers (Tree.ofText text).source n
  rw [layers_ofText]
  exact h.cons hlayer hmn hle

theorem ofSource_le_ofText {m : Nat} (h : layers.Numbered m) (hmn : m ≤ n) :
    (Layer.ofSource layers (Tree.ofText text).source n).2 ≤ (ofText text layers n).nextSymbol := by
  obtain ⟨-, hnext⟩ := Prod.mk.inj (program_nextSymbol_ofText text layers n)
  have hall := numbered_layers_ofText text layers n h hmn
  have hbodies := Program.nextSymbol_functionBodies (ofText text layers n).layers
    (fun t ht ↦ (hall.functions ht).parameters) (Layer.ofSource layers (Tree.ofText text).source n).2
  rw [hnext]
  exact Nat.le_trans hbodies (Code.nextSymbol_le_flattenBody _ _)

theorem le_ofText {m : Nat} (h : layers.Numbered m) (hmn : m ≤ n) : n ≤ (ofText text layers n).nextSymbol :=
  Nat.le_trans (Layer.numbered_ofSource layers (Tree.ofText text).source n).1
    (ofSource_le_ofText text layers n h hmn)

theorem numbered_ofText {m : Nat} (h : layers.Numbered m) (hmn : m ≤ n) :
    (ofText text layers n).layers.Numbered (ofText text layers n).nextSymbol ∧
      ∃ m', (layerOf text layers n).Numbered n m' := by
  have hall := numbered_layers_ofText text layers n h hmn
  have hmain := ofSource_le_ofText text layers n h hmn
  refine ⟨⟨fun l hl ↦ ?_, hall.distinct⟩, _, (Layer.numbered_ofSource layers (Tree.ofText text).source n).2⟩
  obtain ⟨hvars, hfunctions, hdistinct⟩ := hall.each l hl
  refine ⟨?_, fun t ht ↦ (hfunctions t ht).mono (Nat.le_refl _) hmain, hdistinct⟩
  intro v hv
  obtain ⟨hg, hlo, hlt⟩ := hvars v hv
  exact ⟨hg, hlo, Nat.lt_of_lt_of_le hlt hmain⟩

end OfText

attribute [local irreducible] ofText

theorem Chain.numbered (h : Chain c earlier) : c.layers.Numbered c.nextSymbol := by
  induction h with
  | @first text n hn =>
    exact (numbered_ofText text [] n (m := n) ⟨fun l hl ↦ (nomatch hl), .nil⟩ (Nat.le_refl n)).1
  | @next c earlier h text n hn ih => exact (numbered_ofText text c.layers n ih hn).1

theorem Chain.exists_binds (h : Chain c earlier) {t : FunctionText}
    (ht : t ∈ c.layers.flatMap (·.functions)) :
    ∃ k, k ≤ c.nextSymbol ∧ c.program.Binds t (t.body c.layers k) := by
  have hnumbered := h.numbered
  cases h with
  | first text hn =>
    obtain ⟨k, -, hk, hb⟩ := Compilation.exists_binds text _ _ hnumbered ht
    exact ⟨k, hk, hb⟩
  | next h text hn =>
    obtain ⟨k, -, hk, hb⟩ := Compilation.exists_binds text _ _ hnumbered ht
    exact ⟨k, hk, hb⟩

/-- In a chain of texts on which nothing is reported, put one more text on top. The body of each function
declared before is bound again without reports, and to the same code but for the numbers of locals and
for labels, exactly if it uses no global and calls no function whose name the new text declares. -/
theorem Chain.keeps_body_iff (h : Chain c earlier) (hclean : ∀ d ∈ c :: earlier, d.tree.reports = [])
    (hobstacles : c.obstacles = []) (text : String) {n : Nat} (hn : c.nextSymbol ≤ n)
    {t : FunctionText} (ht : t ∈ c.layers.flatMap (·.functions)) :
    ∃ k k', c.program.Binds t (t.body c.layers k) ∧
      (ofText text c.layers n).program.Binds t (t.body (ofText text c.layers n).layers k') ∧
      ((t.body (ofText text c.layers n).layers k').reports = [] ∧
          (t.body c.layers k).body.RenamesTo (t.body (ofText text c.layers n).layers k').body ↔
        (t.body c.layers k).body.Unshadowed (layerOf text c.layers n)) := by
  obtain ⟨-, hlayers, hprogram⟩ := (obstacles_eq_nil_iff c).mp hobstacles
  have hsound := h.layers_sound hclean hlayers
  have hps := (h.numbered.functions ht).parameters
  obtain ⟨hnumbered, m', hlayer⟩ := numbered_ofText text c.layers n h.numbered hn
  have ht' : t ∈ (ofText text c.layers n).layers.flatMap (·.functions) := by
    rw [layers_ofText, List.flatMap_cons]
    exact List.mem_append_right _ ht
  obtain ⟨k, hk, hbinds⟩ := h.exists_binds ht
  obtain ⟨k', hk', -, hbinds'⟩ := Compilation.exists_binds text c.layers n hnumbered ht'
  refine ⟨k, k', hbinds, hbinds', ?_⟩
  rw [layers_ofText]
  constructor
  · rintro ⟨-, hrenames⟩
    exact FunctionText.unshadowed_of_renamesTo hps h.numbered.each hlayer hn hrenames
  · intro hu
    have hquiet : (t.body c.layers k).reports = [] :=
      List.infix_nil.mp (hprogram ▸ hbinds.reports)
    obtain ⟨l, hl, htl⟩ := List.mem_flatMap.mp ht
    have hglobal : ∀ l ∈ c.layers, ∀ v ∈ l.vars, v.kind = .global :=
      fun l hl v hv ↦ ((h.numbered.each l hl).vars v hv).1
    obtain ⟨hreports, hbody⟩ := FunctionText.body_cons hsound (hsound.functions hl t htl) hps hglobal
      hquiet hu (Nat.le_trans hk (Nat.le_trans hn hk'))
    exact ⟨hreports, _, hbody⟩

theorem Chain.keeps_body_two_texts :
    ∃ c d t k k', c = Compilation.first "var x = 1 function f(n: int): int \x7b let m = n return x + m \x7d" ∧
      d = c.next "var y = 2 function g() \x7b y = x \x7d" ∧ t ∈ c.layers.flatMap (·.functions) ∧
      c.program.Binds t (t.body c.layers k) ∧ d.program.Binds t (t.body d.layers k') ∧
      (t.body d.layers k').reports = [] ∧
      (t.body c.layers k).body.RenamesTo (t.body d.layers k').body := by
  generalize hc : Compilation.first
    "var x = 1 function f(n: int): int \x7b let m = n return x + m \x7d" = c
  generalize htext : "var y = 2 function g() \x7b y = x \x7d" = text
  have h : Chain c [] := hc ▸ .first _ (by decide)
  have hclean : ∀ d ∈ [c], d.tree.reports = [] := fun d hd ↦ by
    obtain rfl := List.mem_singleton.mp hd
    rw [← hc, first_ofList]
    decide +kernel
  have hobstacles : c.obstacles = [] := by
    rw [← hc, first_ofList]
    decide +kernel
  have hcount : 0 < (c.layers.flatMap (·.functions)).length := by
    rw [← hc, first_ofList]
    decide +kernel
  have hvars : ∀ name ∈ (c.layers.flatMap (·.vars)).map (·.name),
      name ∉ (layerOf text c.layers c.nextSymbol).vars.map (·.name) := by
    rw [← hc, ← htext, layerOf, first_ofList, Tree.ofText_ofList]
    decide +kernel
  have hfunctions : ∀ name ∈ ((Builtin.all.map Builtin.function) ++
        (c.layers.flatMap (·.functions)).map (·.function)).map (·.name),
      name ∉ (layerOf text c.layers c.nextSymbol).functions.map (·.function.name) := by
    rw [← hc, ← htext, layerOf, first_ofList, Tree.ofText_ofList]
    decide +kernel
  obtain ⟨t, ht⟩ := List.exists_mem_of_length_pos hcount
  have hps := (h.numbered.functions ht).parameters
  obtain ⟨k, k', hb, hb', hiff⟩ := h.keeps_body_iff hclean hobstacles text (Nat.le_refl _) ht
  refine ⟨c, _, t, k, k', rfl, rfl, ht, hb, hb', hiff.mpr ⟨fun s hs v hv hg w hw hname ↦ ?_,
    fun s hs f hf t' ht' hname ↦ ?_⟩⟩
  · obtain ⟨fr, hfr, hfind⟩ := List.exists_of_findSome?_eq_some
      ((FunctionText.sees_of_mem_body hps hs).1 v hv hg)
    obtain ⟨l, hl, hvl⟩ := (Layers.mem_frames (List.mem_reverse.mp hfr)).1 v
      (List.mem_of_find?_eq_some hfind)
    apply hvars v.name (List.mem_map_of_mem (List.mem_flatMap.mpr ⟨l, hl, hvl⟩))
    exact hname ▸ List.mem_map_of_mem hw
  · obtain ⟨fr, hfr, hfind⟩ := List.exists_of_findSome?_eq_some
      ((FunctionText.sees_of_mem_body hps hs).2 f hf)
    refine hfunctions f.name (List.mem_map_of_mem (List.mem_append.mpr ?_))
      (hname ▸ List.mem_map_of_mem (f := fun t : FunctionText ↦ t.function.name) ht')
    rcases (Layers.mem_frames (List.mem_reverse.mp hfr)).2 f (List.mem_of_find?_eq_some hfind) with
      ⟨b, rfl⟩ | ⟨l, hl, t₁, ht₁, rfl⟩
    · exact .inl (List.mem_map_of_mem (by cases b <;> decide))
    · exact .inr (List.mem_map_of_mem (List.mem_flatMap.mpr ⟨l, hl, ht₁⟩))

/-- The second text declares the name that the function of the first one uses. Bound again, the function
does not give the type that it did. -/
theorem Chain.hides_global_of_function :
    ∃ c d, c = Compilation.first "var x = 1 function f(): int \x7b return x \x7d" ∧
      d = c.next "var x = \"a\"" ∧ Chain d [c] ∧
      (∀ e ∈ [d, c], e.tree.reports = [] ∧ e.layers.reports = []) ∧ c.program.reports = [] ∧
      d.program.functions.map Prod.fst = c.program.functions.map Prod.fst ∧
      d.program.reports.map Report.cause = [.cannotConvert .string .int] := by
  refine ⟨_, _, rfl, rfl, .next (.first _ (by decide)) _ (Nat.le_refl _), ?_, ?_, ?_, ?_⟩
  · rw [first_ofList, next_ofList]
    decide +kernel
  · rw [first_ofList]
    decide +kernel
  · rw [first_ofList, next_ofList]
    decide +kernel
  · rw [first_ofList, next_ofList]
    decide +kernel

end Compilation

end SmallScript
