import Mathlib.Data.Set.Finite.Basic
import Mathlib.Logic.Relation
import SmallScript.Proofs.Flow.Table

namespace SmallScript.Flow

open Code (Body)
open Relation (ReflTransGen TransGen)

namespace Graph

variable {g : Graph} {gone : List Nat} {i j : Nat}

/-- A way leads to the block from the start, or from a block on a cycle. -/
def Held (g : Graph) (i : Nat) : Prop :=
  ∃ j, (j = 0 ∨ TransGen g.Leads j j) ∧ ReflTransGen g.Leads j i

theorem Held.tail (h : g.Held i) (hleads : g.Leads i j) : g.Held j := by
  obtain ⟨k, hk, hway⟩ := h
  exact ⟨k, hk, hway.tail hleads⟩

theorem held_start : g.Held 0 := ⟨0, .inl rfl, .refl⟩

theorem held_of_cycle (h : TransGen g.Leads i i) : g.Held i := ⟨i, .inr h, .refl⟩

structure Removed (g : Graph) (gone : List Nat) : Prop extends Gone g gone where
  nodup : gone.Nodup
  acyclic : ∀ i ∈ gone, ¬ TransGen g.Leads i i

def Exhausted (g : Graph) (gone : List Nat) : Prop :=
  ∀ i ∈ g.kept gone, ∃ j, g.Leads j i ∧ j ∉ gone

theorem Gone.mem_of_way (h : Gone g gone) (hway : ReflTransGen g.Leads j i) (hi : i ∈ gone) : j ∈ gone := by
  induction hway using ReflTransGen.head_induction_on with
  | refl => exact hi
  | head hleads _ ih =>
    obtain ⟨guard, hb⟩ := hleads
    exact h.closed _ hb ih

theorem removed_nil : Removed g [] := ⟨gone_nil, .nil, fun _ h ↦ nomatch h⟩

theorem Removed.cons (h : Removed g gone) (hi : i ∈ g.kept gone) (hin : ∀ j, g.Leads j i → j ∈ gone) :
    Removed g (i :: gone) := by
  obtain ⟨hinner, hnot⟩ := mem_kept.mp hi
  constructor
  · constructor
    · exact List.forall_mem_cons.mpr ⟨hinner, h.inner⟩
    · intro b hb ht
      apply List.mem_cons_of_mem i
      rcases List.mem_cons.mp ht with ht | ht
      · exact hin b.source ⟨b.guard, ht ▸ hb⟩
      · exact h.closed b hb ht
  · exact List.nodup_cons.mpr ⟨hnot, h.nodup⟩
  · refine List.forall_mem_cons.mpr ⟨fun hcycle ↦ ?_, h.acyclic⟩
    -- The last block on the cycle is gone, so all on it are, the new one among them.
    obtain ⟨j, hway, hleads⟩ := TransGen.tail'_iff.mp hcycle
    exact hnot (h.mem_of_way hway (hin j hleads))

theorem Removed.not_held (h : Removed g gone) (hi : i ∈ gone) : ¬ g.Held i := by
  rintro ⟨j, hj, hway⟩
  have hgone := h.mem_of_way hway hi
  rcases hj with rfl | hcycle
  · exact absurd (h.inner 0 hgone).1 (by decide)
  · exact h.acyclic j hgone hcycle

theorem wellFounded_of_not_held (blocks : List Nat) :
    WellFounded (InvImage (TransGen g.Leads) (Subtype.val : {i // i ∈ blocks ∧ ¬ g.Held i} → Nat)) := by
  have : Finite {i // i ∈ blocks ∧ ¬ g.Held i} := (blocks.finite_toSet.subset fun _ h ↦ h.1).to_subtype
  have : IsTrans {i // i ∈ blocks ∧ ¬ g.Held i} (InvImage (TransGen g.Leads) Subtype.val) :=
    ⟨fun _ _ _ ↦ TransGen.trans⟩
  have : Std.Irrefl (InvImage (TransGen g.Leads) (Subtype.val : {i // i ∈ blocks ∧ ¬ g.Held i} → Nat)) :=
    ⟨fun i hcycle ↦ i.2.2 (held_of_cycle hcycle)⟩
  exact Finite.wellFounded_of_trans_of_irrefl _

/-- A block that stays in the end is held. From one that is not, a way back would go on forever. -/
theorem Exhausted.held (hsource : ∀ b ∈ g.branches, b.source ≤ g.inner.length) (h : g.Exhausted gone)
    (hi : i ∈ g.kept gone) : g.Held i := by
  by_contra hheld
  have hnone (x : {i // i ∈ g.kept gone ∧ ¬ g.Held i}) : False := by
    induction x using (wellFounded_of_not_held (g.kept gone)).induction with
    | _ x ih =>
      obtain ⟨i, hi, hheld⟩ := x
      obtain ⟨j, hleads, hj⟩ := h i hi
      have hjheld : ¬ g.Held j := fun hj ↦ hheld (hj.tail hleads)
      have hjpos : 1 ≤ j := Nat.one_le_iff_ne_zero.mpr fun h0 ↦ hjheld (h0 ▸ held_start)
      obtain ⟨guard, hb⟩ := hleads
      have hjkept : j ∈ g.kept gone := mem_kept.mpr ⟨⟨hjpos, hsource _ hb⟩, hj⟩
      exact ih ⟨j, hjkept, hjheld⟩ (.single ⟨guard, hb⟩)
  exact hnone ⟨i, hi, hheld⟩

theorem Removed.notMem_iff (hsource : ∀ b ∈ g.branches, b.source ≤ g.inner.length) (h : Removed g gone)
    (he : g.Exhausted gone) (hi : 1 ≤ i ∧ i ≤ g.inner.length) : i ∉ gone ↔ g.Held i :=
  ⟨fun hnot ↦ he.held hsource (mem_kept.mpr ⟨hi, hnot⟩), fun hheld hgone ↦ h.not_held hgone hheld⟩

theorem incoming_pruned_eq_nil (hi : i ≤ g.finish) :
    (g.pruned gone).incoming i = [] ↔ ∀ j, g.Leads j i → j ∈ gone := by
  rw [incoming_pruned hi, ← List.isEmpty_iff, numbersOf_isEmpty, List.all_eq_true]
  constructor
  · rintro h j ⟨guard, hb⟩
    simpa using h _ hb
  · intro h b hb
    have hsource (ht : b.target = i) := h b.source ⟨b.guard, ht ▸ hb⟩
    simpa [imp_iff_not_or] using hsource

end Graph

namespace Table

/-- An inner block that no branch leads to is taken away, whichever it is. -/
inductive Removes : Table × List Nat → Table × List Nat → Prop
  | cut {t : Table} {gone : List Nat} {i : Nat} (hi : i ∈ t.left gone) (hfree : t.incoming i = []) :
    Removes (t, gone) (t.cut i, i :: gone)

theorem removes_prune (t : Table) (gone : List Nat) : ReflTransGen Removes (t, gone) (t.prune gone) := by
  induction t, gone using prune.induct with
  | case1 t gone hfree =>
    rw [prune_of_none hfree]
  | case2 t gone i hfree ih =>
    rw [prune_of_some hfree]
    refine ih.head (.cut (List.mem_of_find?_eq_some hfree) ?_)
    exact List.isEmpty_iff.mp (List.find?_some (p := fun i ↦ (t.incoming i).isEmpty) hfree)

theorem free?_prune (t : Table) (gone : List Nat) : (t.prune gone).1.free? (t.prune gone).2 = none := by
  induction t, gone using prune.induct with
  | case1 t gone hfree =>
    rw [prune_of_none hfree]
    exact hfree
  | case2 t gone i hfree ih =>
    rw [prune_of_some hfree]
    exact ih

theorem not_removes_prune (t : Table) (gone : List Nat) (s : Table × List Nat) :
    ¬ Removes (t.prune gone) s := by
  have hnone := List.find?_eq_none.mp (free?_prune t gone)
  intro h
  cases hp : t.prune gone with
  | mk t' gone' =>
    rw [hp] at h hnone
    cases h with
    | cut hi hfree => exact hnone _ hi (List.isEmpty_iff.mpr hfree)

variable {g : Graph} {gone : List Nat}

theorem removes_pruned_iff {s : Table × List Nat} : Removes (g.pruned gone, gone) s ↔
    ∃ i ∈ g.kept gone, (∀ j, g.Leads j i → j ∈ gone) ∧ s = (g.pruned (i :: gone), i :: gone) := by
  have hle {i : Nat} (hi : i ∈ g.kept gone) : i ≤ g.finish := by
    have := (Graph.mem_kept.mp hi).1.2
    simp only [Graph.finish]
    omega
  constructor
  · rintro ⟨hi, hfree⟩
    rw [Graph.left_pruned] at hi
    exact ⟨_, hi, (Graph.incoming_pruned_eq_nil (hle hi)).mp hfree, by rw [cut_pruned (hle hi)]⟩
  · rintro ⟨i, hi, hin, rfl⟩
    rw [← cut_pruned (hle hi)]
    exact .cut (by rwa [Graph.left_pruned]) ((Graph.incoming_pruned_eq_nil (hle hi)).mpr hin)

/-- After blocks have been taken away, the table is that of the graph without the branches out of them. -/
theorem Removes.run {s : Table × List Nat} (h : ReflTransGen Removes (g.pruned [], []) s) :
    Graph.Removed g s.2 ∧ s.1 = g.pruned s.2 := by
  induction h with
  | refl => exact ⟨Graph.removed_nil, rfl⟩
  | @tail s s' _ hstep ih =>
    obtain ⟨t, gone⟩ := s
    obtain ⟨hremoved, ht⟩ := ih
    obtain rfl : t = g.pruned gone := ht
    obtain ⟨i, hi, hin, rfl⟩ := removes_pruned_iff.mp hstep
    exact ⟨hremoved.cons hi hin, rfl⟩

theorem exhausted_of_not_removes (h : ∀ s, ¬ Removes (g.pruned gone, gone) s) : g.Exhausted gone := by
  intro i hi
  by_contra hnone
  refine h _ (removes_pruned_iff.mpr ⟨i, hi, fun j hj ↦ ?_, rfl⟩)
  by_contra hgone
  exact hnone ⟨j, hj, hgone⟩

/-- Blocks that no branch leads to are taken away until there is none. Whatever the order, this ends with the
same blocks: those left are the ones that a way leads to from the start or from a cycle. -/
theorem prune_exact (blocks : List Body) (branches : List Branch)
    (hsource : ∀ b ∈ branches, b.source ≤ blocks.length) :
    let t := build blocks branches
    let g : Graph := ⟨blocks, branches.filterMap Branch.simplify?⟩
    ReflTransGen Removes (t, []) (t.prune []) ∧ (∀ s, ¬ Removes (t.prune []) s) ∧
      (∀ i, 1 ≤ i → i ≤ blocks.length → (i ∉ (t.prune []).2 ↔ g.Held i)) ∧
      ∀ s, ReflTransGen Removes (t, []) s →
        s.2.length ≤ blocks.length ∧ (∀ i ∈ s.2, 1 ≤ i ∧ i ≤ blocks.length) ∧
          ((∀ s', ¬ Removes s s') → ∀ i, i ∈ s.2 ↔ i ∈ (t.prune []).2) := by
  intro t g
  have ht : t = g.pruned [] := build_eq blocks branches
  have hg : ∀ b ∈ g.branches, b.source ≤ g.inner.length := by
    intro b hb
    obtain ⟨b', hb', hsimplify⟩ := List.mem_filterMap.mp hb
    rw [(Branch.ends_of_simplify? hsimplify).1]
    exact hsource b' hb'
  have hend {s : Table × List Nat} (hs : ReflTransGen Removes (t, []) s) (hlast : ∀ s', ¬ Removes s s')
      {i : Nat} (hi : 1 ≤ i ∧ i ≤ blocks.length) : i ∉ s.2 ↔ g.Held i := by
    obtain ⟨t', gone⟩ := s
    obtain ⟨hremoved, ht'⟩ := Removes.run (ht ▸ hs)
    obtain rfl : t' = g.pruned gone := ht'
    exact hremoved.notMem_iff hg (exhausted_of_not_removes hlast) hi
  have hinner {s : Table × List Nat} (hs : ReflTransGen Removes (t, []) s) : Graph.Removed g s.2 :=
    (Removes.run (ht ▸ hs)).1
  have hprune := removes_prune t []
  have hlast := not_removes_prune t []
  refine ⟨hprune, hlast, fun i h1 hi ↦ hend hprune hlast ⟨h1, hi⟩, fun s hs ↦ ⟨?_, (hinner hs).inner, ?_⟩⟩
  · have hsubset : s.2 ⊆ List.range' 1 blocks.length := fun i hi ↦ by
      obtain ⟨h1, hle⟩ := (hinner hs).inner i hi
      exact List.mem_range'_1.mpr ⟨h1, Nat.one_add _ ▸ Nat.lt_succ_of_le hle⟩
    simpa using ((hinner hs).nodup.subperm hsubset).length_le
  · intro hs' i
    by_cases hi : 1 ≤ i ∧ i ≤ blocks.length
    · exact not_iff_not.mp ((hend hs hs' hi).trans (hend hprune hlast hi).symm)
    · exact ⟨fun h ↦ absurd ((hinner hs).inner i h) hi, fun h ↦ absurd ((hinner hprune).inner i h) hi⟩

/-- A block that only leads to itself stays. The one before it is taken away. -/
theorem prune_keeps_loop :
    let branches : List Branch := [⟨0, 1, none⟩, ⟨1, 4, none⟩, ⟨2, 3, none⟩, ⟨3, 3, none⟩]
    let t := build [[.leave none], [.leave none], [.leave none]] branches
    (∀ b ∈ branches, b.source ≤ 3) ∧ 3 ∉ (t.prune []).2 := by
  intro branches t
  have hsource : ∀ b ∈ branches, b.source ≤ 3 := by decide
  have hcycle : Relation.TransGen (⟨[[.leave none], [.leave none], [.leave none]],
      branches.filterMap Branch.simplify?⟩ : Graph).Leads 3 3 := .single ⟨none, by simp [branches, Branch.simplify?]⟩
  exact ⟨hsource, ((prune_exact _ _ hsource).2.2.1 3 (by decide) (by decide)).mpr (Graph.held_of_cycle hcycle)⟩

end Table

end SmallScript.Flow
