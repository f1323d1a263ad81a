import SmallScript.Proofs.Assigned
import SmallScript.Proofs.Code.Writes
import SmallScript.Proofs.Run.Steady
import SmallScript.Proofs.Shadowing

namespace SmallScript

open Code (Statement Body AllOf AllJumpInside nodesAll onceAll declaredBy flattenBody)

/-- Statements on which nothing is reported, and their flat body. They declare variables of one kind, and the
numbers of these, and of those that the flat body adds, are from `n` on and below `m`. -/
structure Code.Lowered (kind : Variable.Kind) (n m : Nat) (ss : List Statement) (b : Body) : Prop where
  body : ∃ k, Introduced kind n k (nodesAll ss) ∧ b = (flattenBody ss k).1 ∧ n ≤ k ∧ (flattenBody ss k).2 ≤ m
  assigns : AllOf (fun _ ↦ True) (·.Assigns (·.readOnly = false)) ss
  jumps : AllJumpInside [] ss
  closed : b.Closed

def Variable.Among (kind : Variable.Kind) (n m : Nat) (v : Variable) : Prop := v.kind = kind ∧ n ≤ v.id ∧ v.id < m

namespace Code.Lowered

variable {kind : Variable.Kind} {n m : Nat} {ss : List Statement} {b : Body} {v : Variable}

theorem declared (h : Lowered kind n m ss b) (hv : v ∈ declaredBy (nodesAll ss)) : v.Among kind n m := by
  obtain ⟨k, hintroduced, rfl, -, hkm⟩ := h.body
  obtain ⟨hkind, hlo, hhi⟩ := hintroduced.numbered v hv
  exact ⟨hkind, hlo, Nat.lt_of_lt_of_le hhi (Nat.le_trans (nextSymbol_le_flattenBody ss k) hkm)⟩

theorem own (h : Lowered kind n m ss b) (hkind : kind ≠ .parameter) {s : Statement} (hs : s ∈ b)
    (hv : v ∈ s.assigned) (hfixed : v.readOnly = true) : v.Among kind n m := by
  obtain ⟨k, hintroduced, rfl, hnk, hkm⟩ := h.body
  have hcounts : CountsWithin k m (·.Among kind n m) (·.Assigns fun w ↦ w.readOnly = true → w.Among kind n m) := by
    refine countsWithin_assigns (fun _ hw _ ↦ hw) fun w u hlo hhi hw ↦ ⟨?_, Nat.le_trans hnk hlo, hhi⟩
    obtain ⟨rfl, -⟩ := hw
    have hbound : (makeUpperBound w u).1.kind = if w.kind = .global then .global else .local := rfl
    rw [hbound]
    cases hw : w.kind with
    | parameter => exact absurd hw hkind
    | global | «local» => rfl
  have hof : AllOf (·.Among kind n m) (·.Assigns fun w ↦ w.readOnly = true → w.Among kind n m) ss := by
    refine AllOf.declared ss (AllOf.mono (fun _ ↦ id) (fun e he w hw hfixed ↦ ?_) ss h.assigns) fun w hw ↦ ?_
    · rw [he w hw] at hfixed
      nomatch hfixed
    · exact h.declared hw
  have hflat := (allOf_flattenAll hcounts ss ⟨0, k⟩ (Nat.le_refl k) hkm).mpr hof
  have hassigned : s.Of (fun w ↦ w.readOnly = true → w.Among kind n m)
      (·.Assigns fun w ↦ w.readOnly = true → w.Among kind n m) :=
    Statement.Of.mono (fun w (hw : w.Among kind n m) (_ : w.readOnly = true) ↦ hw) (fun _ ↦ id) s
      (allOf_iff.mp hflat s hs)
  exact hassigned.assigned v hv hfixed

/-- A read-only variable that the statements declare outside loops is given its value at one place. -/
theorem exists_cut (h : Lowered kind n m ss b) (hv : v ∈ onceAll ss) (hfixed : v.readOnly = true) :
    ∃ c, b.Cut v c := by
  have hlabels := h.closed.nodup
  obtain ⟨k, hintroduced, rfl, -, -⟩ := h.body
  have hid := (hintroduced.numbered v (onceAll_subset ss hv)).2.2
  exact exists_cut_flattenBody hv h.assigns hfixed hintroduced.nodup hid h.jumps hlabels

end Code.Lowered

theorem Layers.Sound.lowered_main {layer : Layer} {earlier : Layers} (h : Layers.Sound (layer :: earlier))
    {n k : Nat} (hintroduced : Introduced .global n k (nodesAll layer.statements)) (hle : n ≤ k)
    (hclosed : (flattenBody layer.statements k).1.Closed) :
    Code.Lowered .global n (flattenBody layer.statements k).2 layer.statements
      (flattenBody layer.statements k).1 :=
  ⟨⟨k, hintroduced, rfl, hle, Nat.le_refl _⟩, Code.AllTyped.assigns _ h.1.statements, h.1.jumps, hclosed⟩

theorem Layers.Sound.lowered {layers : Layers} (h : layers.Sound) {t : FunctionText} (ht : t.Sound) {k : Nat}
    (hquiet : (t.body layers k).reports = []) :
    Code.Lowered .local k (t.body layers k).nextSymbol (t.resolved layers k).1 (t.body layers k).body := by
  obtain ⟨htyped, hjumps⟩ := h.resolved ht hquiet
  have hle : k ≤ (t.resolved layers k).2.nextSymbol := by
    have hnumbers := (Resolver.numbers_inside (Resolver.introduces_statements (some t.function)
      t.text.body.statements) (t.start layers k)).1
    have hstart : (t.start layers k).nextSymbol = k := by rw [FunctionText.start_eq]
    rwa [hstart] at hnumbers
  exact ⟨⟨_, t.introduced layers k, rfl, hle, Nat.le_refl _⟩, Code.AllTyped.assigns _ htyped, hjumps,
    (t.flattened_body layers k).closed⟩

theorem Program.exists_flattenBody_ofLayers (layer : Layer) (earlier : Layers) (n : Nat) :
    ∃ k, k = (functionBodies (layer :: earlier) n ((layer :: earlier).flatMap (·.functions))).2.2 ∧
      (ofLayers (layer :: earlier) n).1.main = (flattenBody layer.statements k).1 ∧
      (ofLayers (layer :: earlier) n).2 = (flattenBody layer.statements k).2 := ⟨_, rfl, rfl, rfl⟩

namespace Compilation

/-- A body of the program of a compilation, and the statements that it is made from. -/
inductive Lowers (c : Compilation) : List Statement → Body → Prop
  | main {layer : Layer} (hlayer : layer ∈ c.layer?) : c.Lowers layer.statements c.program.main
  | function {t : FunctionText} (ht : t ∈ c.layers.flatMap (·.functions)) {k : Nat}
      (hb : c.program.Binds t (t.body c.layers k)) : c.Lowers (t.resolved c.layers k).1 (t.body c.layers k).body

section OfText

variable (text : String) (layers : Layers) (n : Nat)

theorem layer?_ofText {layer : Layer} (h : layer ∈ (ofText text layers n).layer?) :
    layer = layerOf text layers n := by
  rw [layer?, layers_ofText] at h
  exact (Option.some.inj h).symm

attribute [local irreducible] ofText

theorem exists_main_ofText {m : Nat} (h : layers.Numbered m) (hmn : m ≤ n) :
    ∃ k, (Layer.ofSource layers (Tree.ofText text).source n).2 ≤ k ∧
      (ofText text layers n).program.main = (flattenBody (layerOf text layers n).statements k).1 ∧
      (ofText text layers n).nextSymbol = (flattenBody (layerOf text layers n).statements k).2 := by
  have hall := numbered_layers_ofText text layers n h hmn
  have hboth := program_nextSymbol_ofText text layers n
  rw [layers_ofText] at hall hboth
  obtain ⟨k, hk, hmain, hlast⟩ := Program.exists_flattenBody_ofLayers (layerOf text layers n) layers
    (Layer.ofSource layers (Tree.ofText text).source n).2
  rw [← hboth] at hmain hlast
  refine ⟨k, ?_, hmain, hlast⟩
  rw [hk]
  exact Program.nextSymbol_functionBodies _ (fun t ht ↦ (hall.functions ht).parameters) _

theorem lowered_main_ofText {m : Nat} (h : layers.Numbered m) (hmn : m ≤ n)
    (hsound : (ofText text layers n).layers.Sound) :
    Code.Lowered .global n (ofText text layers n).nextSymbol (layerOf text layers n).statements
      (ofText text layers n).program.main := by
  obtain ⟨k, hle, hmain, hnext⟩ := exists_main_ofText text layers n h hmn
  rw [layers_ofText, layerOf] at hsound
  have hintroduced := Layer.introduced layers (Tree.ofText text).source n
  have hn := (Layer.numbered_ofSource layers (Tree.ofText text).source n).1
  have hclosed := (flattened_main_ofText text layers n).closed
  rw [hmain, layerOf] at hclosed ⊢
  rw [hnext, layerOf]
  exact hsound.lowered_main (hintroduced.mono hle) (Nat.le_trans hn hle) hclosed

end OfText

attribute [local irreducible] ofText

variable {c : Compilation} {earlier : List Compilation}

theorem Chain.spares (h : Chain c earlier) (hclean : ∀ d ∈ c :: earlier, d.tree.reports = [])
    (hobstacles : c.obstacles = []) {v : Variable} (hfixed : v.readOnly = true) : c.program.Spares v := by
  obtain ⟨-, hlayers, hprogram⟩ := (obstacles_eq_nil_iff c).mp hobstacles
  have hsound := h.layers_sound hclean hlayers
  obtain ⟨n, hn⟩ := h.program_eq
  intro f b hf s hs w hw hglobal heq
  rw [hn] at hf hprogram
  obtain ⟨t, ht, k, hk, hreports⟩ := Program.exists_of_mem_functionBodies hf
  obtain ⟨l, hl, ht⟩ := List.mem_flatMap.mp ht
  obtain ⟨-, rfl⟩ := Prod.mk.inj hk
  have hquiet : (t.body c.layers k).reports = [] := List.infix_nil.mp (hprogram ▸ hreports)
  have hown := (hsound.lowered (hsound.functions hl t ht) hquiet).own (by decide) hs hw (heq ▸ hfixed)
  have hkind := hown.1
  rw [heq, hglobal] at hkind
  nomatch hkind

theorem Chain.lowered (h : Chain c earlier) (hclean : ∀ d ∈ c :: earlier, d.tree.reports = [])
    (hobstacles : c.obstacles = []) {ss : List Statement} {b : Body} (hb : c.Lowers ss b) :
    ∃ kind n m, Code.Lowered kind n m ss b := by
  obtain ⟨-, hlayers, hprogram⟩ := (obstacles_eq_nil_iff c).mp hobstacles
  have hsound := h.layers_sound hclean hlayers
  cases hb with
  | function ht hb =>
    obtain ⟨l, hl, ht⟩ := List.mem_flatMap.mp ht
    exact ⟨_, _, _, hsound.lowered (hsound.functions hl _ ht) (List.infix_nil.mp (hprogram ▸ hb.reports))⟩
  | main hlayer =>
    cases h with
    | first text hn =>
      rw [layer?_ofText _ _ _ hlayer]
      exact ⟨_, _, _, lowered_main_ofText text [] _ ⟨List.forall_mem_nil _, .nil⟩ (Nat.zero_le _) hsound⟩
    | next h text hn =>
      rw [layer?_ofText _ _ _ hlayer]
      exact ⟨_, _, _, lowered_main_ofText text _ _ h.numbered hn hsound⟩

end Compilation

end SmallScript
