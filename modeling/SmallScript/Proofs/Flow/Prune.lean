import Mathlib.Data.List.Basic
import SmallScript.Flow.Graph

namespace SmallScript.Flow.Graph

variable {g : Graph} {gone : List Nat}

structure Gone (g : Graph) (gone : List Nat) : Prop where
  inner : ∀ i ∈ gone, 1 ≤ i ∧ i ≤ g.inner.length
  closed : ∀ b ∈ g.branches, b.target ∈ gone → b.source ∈ gone

theorem gone_nil : Gone g [] := ⟨fun _ h ↦ (nomatch h), fun _ _ h ↦ (nomatch h)⟩

theorem Gone.cons (h : Gone g gone) {i : Nat} (hi : g.unreached? gone = some i) :
    Gone g (i :: gone) := by
  have hmem := List.mem_range'_1.mp (List.mem_of_find?_eq_some hi)
  have hp := List.find?_some hi
  rw [Bool.and_eq_true, List.all_eq_true] at hp
  refine ⟨List.forall_mem_cons.mpr ⟨⟨hmem.1, by omega⟩, h.inner⟩, ?_⟩
  intro b hb ht
  rcases List.mem_cons.mp ht with ht | ht
  · have := hp.2 b hb
    apply List.mem_cons_of_mem i
    simpa [ht] using this
  · exact List.mem_cons_of_mem i (h.closed b hb ht)

theorem gone_unreached (n : Nat) (h : Gone g gone) : Gone g (g.unreached n gone) := by
  induction n generalizing gone with
  | zero => exact h
  | succ n ih =>
    unfold unreached
    split
    · exact h
    · next i hi => exact ih (h.cons hi)

def kept (g : Graph) (gone : List Nat) : List Nat :=
  (List.range' 1 g.inner.length).filter fun i ↦ !gone.contains i

theorem mem_kept {i : Nat} : i ∈ g.kept gone ↔ (1 ≤ i ∧ i ≤ g.inner.length) ∧ i ∉ gone := by
  simp [kept, List.mem_range'_1]
  omega

theorem zipIdx_inner (g : Graph) :
    g.inner.zipIdx 1 = (List.range' 1 g.inner.length).map fun i ↦ (g.block i, i) := by
  apply List.ext_getElem (by simp)
  intro i hi hi'
  have hlt : i < g.inner.length := by simpa using hi
  simp [block, hlt, Nat.add_comm]

theorem inner_without : (g.without gone).inner = (g.kept gone).map g.block := by
  have h (l : List Nat) : (l.map fun i ↦ (g.block i, i)).filterMap
      (fun p ↦ if gone.contains p.2 then none else some p.1) =
        (l.filter fun i ↦ !gone.contains i).map g.block := by
    induction l with
    | nil => rfl
    | cons i rest ih => cases hi : gone.contains i <;> simp_all
  rw [without, zipIdx_inner]
  exact h _

def renumber (g : Graph) (gone : List Nat) (i : Nat) : Nat :=
  ((List.range (g.finish + 1)).filter fun i ↦ !gone.contains i).idxOf i

theorem Gone.finish_notMem (h : Gone g gone) : g.finish ∉ gone := by
  intro hf
  have := (h.inner _ hf).2
  simp only [finish] at this
  omega

theorem Gone.filter_range (h : Gone g gone) :
    (List.range (g.finish + 1)).filter (fun i ↦ !gone.contains i) =
      0 :: g.kept gone ++ [g.finish] := by
  have hzero : 0 ∉ gone := fun h0 ↦ absurd (h.inner 0 h0).1 (by decide)
  have hrange : List.range (g.finish + 1) = 0 :: List.range' 1 g.inner.length ++ [g.finish] := by
    rw [List.range_succ, finish, List.range_eq_range', List.range'_succ]
  rw [hrange]
  simp [kept, hzero, h.finish_notMem]

theorem renumber_start (h : Gone g gone) : g.renumber gone 0 = 0 := by
  rw [renumber, h.filter_range]
  simp

theorem renumber_kept (h : Gone g gone) {i : Nat} (hi : i ∈ g.kept gone) :
    g.renumber gone i = (g.kept gone).idxOf i + 1 := by
  have hpos := (mem_kept.mp hi).1.1
  rw [renumber, h.filter_range, List.cons_append, List.idxOf_cons_ne _ (by omega),
    List.idxOf_append_of_mem hi]

theorem renumber_finish (h : Gone g gone) :
    g.renumber gone g.finish = (g.without gone).finish := by
  have hpos : 0 ≠ g.finish := by simp only [finish]; omega
  have hnot : g.finish ∉ g.kept gone := fun hf ↦ by
    have := (mem_kept.mp hf).1.2
    simp only [finish] at this
    omega
  have hlength : (g.without gone).finish = (g.kept gone).length + 1 := by
    rw [finish, inner_without, List.length_map]
  rw [renumber, h.filter_range, List.cons_append, List.idxOf_cons_ne _ hpos,
    List.idxOf_append_of_notMem hnot, hlength]
  simp

theorem block_without (h : Gone g gone) {i : Nat} (hi : i ∈ g.kept gone) :
    (g.without gone).block (g.renumber gone i) = g.block i := by
  have hlt := List.idxOf_lt_length_of_mem hi
  rw [renumber_kept h hi, block, if_neg (by omega), inner_without]
  simp [hlt]

/-- If the blocks that are kept always return, then those that lead to the finish end in a return. -/
theorem leave_of_alwaysReturns (h : Gone g gone) (hr : (g.without gone).alwaysReturns) {b : Branch}
    (hb : b ∈ g.branches) (ht : b.target = g.finish) (hs : b.source ∉ gone)
    (hsource : b.source ≤ g.inner.length) :
    ∃ e, (g.block b.source).getLast? = some (.leave e) := by
  have hmem : (⟨g.renumber gone b.source, g.renumber gone b.target, b.guard⟩ : Branch) ∈
      (g.without gone).branches := by
    refine List.mem_filterMap.mpr ⟨b, hb, ?_⟩
    simp [hs, ht, h.finish_notMem, renumber]
  have hlast := List.all_eq_true.mp hr _ hmem
  have hblock : (g.without gone).block (g.renumber gone b.source) = g.block b.source := by
    by_cases h0 : b.source = 0
    · rw [h0, renumber_start h]
      rfl
    · exact block_without h (mem_kept.mpr ⟨⟨by omega, hsource⟩, hs⟩)
  rw [ht, renumber_finish h, hblock, bne_self_eq_false, Bool.false_or] at hlast
  split at hlast
  · next e he => exact ⟨e, he⟩
  · nomatch hlast

end SmallScript.Flow.Graph
