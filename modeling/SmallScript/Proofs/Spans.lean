import SmallScript.Proofs.Chain
import SmallScript.Proofs.Resolve.Spans
import SmallScript.Proofs.Tree.Spans

namespace SmallScript

/-- All of a text. -/
def Span.whole (text : String) : Span := ⟨0, text.utf8ByteSize⟩

theorem Span.isIn_whole {s : Span} {text : String} : s.IsIn (.whole text) ↔ s.stop ≤ text.utf8ByteSize := by
  simp [IsIn, whole, stop]

namespace Tree

theorem inOrder_of_holds {text : String} {n : Node} (h : (ofText text).source.Holds n) : InOrder n.tokens :=
  ((between_tokens text).sublist h.sublist).order

theorem isIn_of_holds {text : String} {n : Node} (h : (ofText text).source.Holds n) :
    n.span.IsIn (.whole text) := by
  have hbetween := (between_tokens text).sublist h.sublist
  obtain ⟨t, ht, hstop⟩ := (n.reaches hbetween.order).last
  exact Span.isIn_whole.mpr (hstop ▸ hbetween.stop t ht)

theorem isIn_of_spans {text : String} {s : Span} (h : (ofText text).source.Spans s) : s.IsIn (.whole text) := by
  obtain ⟨n, hn, rfl⟩ := h
  exact isIn_of_holds hn

theorem isIn_of_report {text : String} {r : Report} (hr : r ∈ (ofText text).reports) :
    r.span.IsIn (.whole text) := by
  obtain ⟨t, ht, hspan⟩ := exists_token_of_report text r hr
  exact Span.isIn_whole.mpr (Nat.le_trans hspan.2 ((between_scan text).stop t ht))

end Tree

/-- In the tree of any text, each node lies in the text and lies around its parts, and each part ends before the
next one starts. What is reported lies in the text: what is reported about the tokens and their order, and at
nodes of the tree, what is reported about the meaning on top of any other texts, bodies of functions included. -/
theorem Compilation.spans_nested (text : String) :
    (∀ n, (Tree.ofText text).source.Holds n → n.span.IsIn (.whole text) ∧
      (∀ p ∈ n.parts, p.span.IsIn n.span) ∧ n.parts.Pairwise fun p q ↦ p.span.Before q.span) ∧
    ((Tree.ofText text).source.parts.Pairwise fun p q ↦ p.span.Before q.span) ∧
    (∀ r ∈ (Tree.ofText text).reports, r.span.IsIn (.whole text)) ∧
    ∀ (earlier : Layers) (n : Nat),
      (∀ r ∈ (layerOf text earlier n).reports,
        r.span.IsIn (.whole text) ∧ (Tree.ofText text).source.Spans r.span) ∧
      ∀ f ∈ (layerOf text earlier n).functions, ∀ (layers : Layers) (k : Nat), ∀ r ∈ (f.body layers k).reports,
        r.span.IsIn (.whole text) ∧ (Tree.ofText text).source.Spans r.span := by
  refine ⟨fun n hn ↦ ⟨Tree.isIn_of_holds hn, Tree.Node.spans_nest (Tree.inOrder_of_holds hn)⟩, ?_,
    fun r hr ↦ Tree.isIn_of_report hr, fun earlier n ↦ ⟨fun r hr ↦ ?_, fun f hf layers k r hr ↦ ?_⟩⟩
  · refine Tree.Node.pairwise_before ?_
    rw [← Tree.Source.tokens_parts]
    exact (Tree.between_tokens text).order
  · rw [layerOf] at hr
    have hspan := Layer.span_of_report earlier n r hr
    exact ⟨Tree.isIn_of_spans hspan, hspan⟩
  · rw [layerOf] at hf
    have hspan := FunctionText.span_of_report (Layer.text_mem_members _ _ _ hf) layers k r hr
    exact ⟨Tree.isIn_of_spans hspan, hspan⟩

end SmallScript
