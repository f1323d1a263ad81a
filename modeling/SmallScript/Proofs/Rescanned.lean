import SmallScript.Proofs.Closed
import SmallScript.Proofs.Code.Lines
import SmallScript.Proofs.Lexical.Legible

namespace SmallScript

open Code (Body Expression Line Piece Statement Rules)

namespace Program

/-- The lines of a program: for each function its head and its body, and then the statements. -/
def lines (p : Program) : List Line :=
  p.functions.flatMap (fun f ↦ Code.headLine f.1 :: (Statement.block f.2).lines 0) ++ (Statement.block p.main).lines 0

def pieces (p : Program) : List Piece := p.lines.flatMap Line.pieces

theorem text_eq_linesText (p : Program) : p.text = Code.linesText p.lines := by
  rw [← String.toList_inj]
  simp [text, lines, Code.linesText, List.flatMap_def, List.flatten_flatten, Function.comp_def]

theorem isName_of_mem_pieces {p : Program} (h : ∀ l ∈ p.lines, l.Legible) {s : String} (hs : .name s ∈ p.pieces) :
    IsName s := by
  obtain ⟨l, hl, hs⟩ := List.mem_flatMap.mp hs
  exact (h l hl).1.plain _ hs

end Program

section Body

variable {b : Body} {R : Rules} {owner : Option Function}

theorem Code.Body.Flattened.legible_lines (h : b.Flattened) (hlegible : b.Legible) (htyped : Code.AllTyped R owner b) :
    ∀ l ∈ (Statement.block b).lines 0, l.Legible := by
  refine Body.legible_lines fun s hs ↦ ?_
  have hflat : s.isFlat := List.all_eq_true.mp h.closed.flat s hs
  refine s.legible_lines hflat (Code.allOf_iff.mp hlegible s hs) (fun e he ↦ ?_) (fun l hl ↦ ?_) (fun l hl ↦ ?_) 1
  · exact (htyped.operand s hs e he).meant
  · exact Label.isName_of_isNumbered (h.isNumbered (.inl (List.mem_filterMap.mpr ⟨s, hs, hl⟩)))
  · exact Label.isName_of_isNumbered (h.isNumbered (.inr (List.mem_filterMap.mpr ⟨s, hs, hl⟩)))

end Body

namespace Compilation

variable {c : Compilation} {earlier : List Compilation}

attribute [local irreducible] ofText

theorem spelt_functions_ofText {text : String} {layers : Layers} {n : Nat}
    (hclean : (ofText text layers n).tree.reports = []) (h : ∀ t ∈ layers.flatMap (·.functions), t.Spelt) :
    ∀ t ∈ (ofText text layers n).layers.flatMap (·.functions), t.Spelt := by
  rw [tree_ofText] at hclean
  have hspelt := Tree.spelt_ofText hclean
  rw [layers_ofText, layerOf]
  generalize (Tree.ofText text).source = source at hspelt ⊢
  exact List.forall_mem_append.mpr ⟨Layer.spelt_functions hspelt layers n, h⟩

theorem legible_main_ofText {text : String} {layers : Layers} {n : Nat}
    (hclean : (ofText text layers n).tree.reports = []) : (ofText text layers n).program.main.Legible := by
  obtain ⟨k, hk⟩ := exists_flattenBody_ofText text layers n
  rw [tree_ofText] at hclean
  have hspelt := Tree.spelt_ofText hclean
  rw [hk, layerOf]
  generalize (Tree.ofText text).source = source at hspelt ⊢
  exact Code.legible_flattenBody (Layer.legible_statements hspelt layers n) k

theorem Chain.spelt_functions (h : Chain c earlier) (hclean : ∀ d ∈ c :: earlier, d.tree.reports = []) :
    ∀ t ∈ c.layers.flatMap (·.functions), t.Spelt := by
  induction h with
  | first text hn => exact spelt_functions_ofText (hclean _ List.mem_cons_self) (List.forall_mem_nil _)
  | @next c earlier h text n hn ih =>
    obtain ⟨hc, hearlier⟩ := List.forall_mem_cons.mp hclean
    exact spelt_functions_ofText hc (ih hearlier)

theorem Chain.legible_main (h : Chain c earlier) (hclean : c.tree.reports = []) : c.program.main.Legible := by
  obtain ⟨text, layers, n, rfl⟩ := h.exists_ofText
  exact legible_main_ofText hclean

theorem Chain.legible_lines (h : Chain c earlier) (hclean : ∀ d ∈ c :: earlier, d.tree.reports = [])
    (hquiet : c.obstacles = []) : ∀ l ∈ c.program.lines, l.Legible := by
  obtain ⟨F, hsound⟩ := h.program_sound hclean List.mem_cons_self hquiet
  have hlayers := h.layers_sound hclean ((obstacles_eq_nil_iff c).mp hquiet).2.1
  refine List.forall_mem_append.mpr ⟨fun l hl ↦ ?_, ?_⟩
  · obtain ⟨⟨f, b⟩, hf, hl⟩ := List.mem_flatMap.mp hl
    have htyped := (hsound.bodies f b hf).typed
    have hflattened := h.flattened_of_mem (List.mem_cons_of_mem _ (List.mem_map_of_mem hf))
    obtain ⟨n, hn⟩ := h.program_eq
    rw [hn] at hf
    obtain ⟨t, ht, k, hk, -⟩ := Program.exists_of_mem_functionBodies hf
    obtain ⟨rfl, rfl⟩ := Prod.mk.inj hk
    have hspelt := h.spelt_functions hclean t ht
    obtain ⟨layer, hlayer, ht⟩ := List.mem_flatMap.mp ht
    rcases List.mem_cons.mp hl with rfl | hl
    · exact Code.legible_headLine hspelt.name hspelt.parameters (hlayers.functions hlayer t ht).proper
    · exact hflattened.legible_lines (hspelt.legible_body c.layers k) htyped l hl
  · have hmain := h.legible_main (hclean c List.mem_cons_self)
    exact (h.flattened_of_mem List.mem_cons_self).legible_lines hmain hsound.main.typed

/-- What a chain of texts without reports means is printed as a text that can be scanned again: nothing is wrong with
it, and its tokens are the pieces that it was printed from, in their order, with the values of the literals among
them. The names among them are scanned as names. -/
theorem Chain.rescans (h : Chain c earlier) (hclean : ∀ d ∈ earlier, d.tree.reports = []) (hquiet : c.obstacles = []) :
    (scan c.program.text).filterMap (·.report) = [] ∧
    (∃ ts finish, (scan c.program.text).map (·.token) = ts ++ [finish] ∧ finish.kind = .endOfFile ∧
      List.Forall₂ Piece.IsToken (c.program.pieces.filter (· ≠ .blank)) ts) ∧
    ∀ s, .name s ∈ c.program.pieces → Token.Kind.ofWord s = .identifier := by
  have hc := ((obstacles_eq_nil_iff c).mp hquiet).1
  have hlines := h.legible_lines (List.forall_mem_cons.mpr ⟨hc, hclean⟩) hquiet
  have hscans := Scans.lines hlines
  rw [← c.program.text_eq_linesText] at hscans
  obtain ⟨ts, finish, hts, hfinish, htokens, hreports⟩ :=
    hscans.tokens [] (List.forall_mem_nil _) 0 hscans.length_le
  refine ⟨List.filterMap_eq_nil_iff.mpr hreports, ⟨ts, finish, hts, hfinish, htokens⟩, fun s hs ↦ ?_⟩
  exact Piece.kind_name (Program.isName_of_mem_pieces hlines hs)

/-- A function with a loop that is left early, and with quotes and backslashes in a literal. -/
def quoting : Compilation :=
  .first "function f(n: int): string \x7b for i = 1 to n if i > 2 break return \"\\\"\\\\\" + string(-n) \x7d"

def callingQuoting : Compilation := quoting.next "let x = !true f(7)"

theorem Chain.rescans_callingQuoting :
    callingQuoting.program.text = String.join (List.map (· ++ "\n")
      ["function f(n: int): string", "\x7b", "    let i = 1", "    let upperBound = n", "    goto label1", "label2:",
        "    goto label3 unless i > 2", "    goto break1", "label3:", "continue1:", "    i = i + 1", "label1:",
        "    goto label2 if i <= upperBound", "break1:", "    return \"\\\"\\\\\" + string(-n)", "\x7d",
        "\x7b", "    let x = !true", "    f(7)", "\x7d"]) ∧
    (Chain callingQuoting [quoting] ∧ (∀ d ∈ [quoting], d.tree.reports = []) ∧ callingQuoting.obstacles = []) ∧
    ∃ ts finish, (scan callingQuoting.program.text).map (·.token) = ts ++ [finish] ∧ finish.kind = .endOfFile ∧
      List.Forall₂ Piece.IsToken (callingQuoting.program.pieces.filter (· ≠ .blank)) ts := by
  have h : Chain callingQuoting [quoting] := .next (.first _ (by decide)) _ (Nat.le_refl _)
  have hclean : ∀ d ∈ [quoting], d.tree.reports = [] := by
    rw [List.forall_mem_singleton, quoting, first_ofList]
    decide +kernel
  have hquiet : callingQuoting.obstacles = [] := by
    rw [callingQuoting, quoting, first_ofList, next_ofList]
    decide +kernel
  refine ⟨?_, ⟨h, hclean, hquiet⟩, (h.rescans hclean hquiet).2.1⟩
  rw [callingQuoting, quoting, first_ofList, next_ofList]
  decide +kernel

end Compilation

end SmallScript
