import Mathlib.Data.List.Find
import Mathlib.Data.List.Induction
import SmallScript.Flow.Table
import SmallScript.Proofs.Flow.Closed

namespace SmallScript.Flow

open Code (Body)

def numbersOf (branches : List Branch) (p : Branch → Prop) [DecidablePred p] : List Nat :=
  branches.zipIdx.filterMap fun (b, n) ↦ if p b then some n else none

section Numbers

variable {branches : List Branch} {p q : Branch → Prop} [DecidablePred p] [DecidablePred q]

theorem mem_numbersOf {n : Nat} : n ∈ numbersOf branches p ↔ ∃ b, branches[n]? = some b ∧ p b := by
  simp only [numbersOf, List.mem_filterMap, Prod.exists, List.mk_mem_zipIdx_iff_getElem?]
  constructor
  · rintro ⟨b, m, hb, h⟩
    split at h
    · next hp =>
      obtain rfl := Option.some.inj h
      exact ⟨b, hb, hp⟩
    · nomatch h
  · rintro ⟨b, hb, hp⟩
    exact ⟨b, n, hb, if_pos hp⟩

theorem numbersOf_append_singleton (b : Branch) : numbersOf (branches ++ [b]) p =
    numbersOf branches p ++ if p b then [branches.length] else [] := by
  rw [numbersOf, numbersOf, List.zipIdx_append, List.filterMap_append]
  congr 1
  by_cases hp : p b <;> simp [hp]

theorem pairwise_numbersOf : (numbersOf branches p).Pairwise (· < ·) := by
  induction branches using List.reverseRecOn with
  | nil => exact .nil
  | append_singleton branches b ih =>
    rw [numbersOf_append_singleton]
    refine List.pairwise_append.mpr ⟨ih, ?_, ?_⟩
    · split
      · exact List.pairwise_singleton ..
      · exact .nil
    · intro n hn m hm
      obtain ⟨b', hb', -⟩ := mem_numbersOf.mp hn
      have hlt := (List.getElem?_eq_some_iff.mp hb').1
      split at hm
      · rwa [List.mem_singleton.mp hm]
      · nomatch hm

theorem filter_numbersOf {f : Nat → Bool}
    (h : ∀ n b, branches[n]? = some b → (q b ↔ p b ∧ f n)) :
    (numbersOf branches p).filter f = numbersOf branches q := by
  rw [numbersOf, numbersOf, List.filter_filterMap]
  apply List.filterMap_congr
  rintro ⟨b, n⟩ hb
  have hq := h n b (List.mk_mem_zipIdx_iff_getElem?.mp hb)
  by_cases hp : p b
  · by_cases hf : f n <;> simp [hp, hf, hq]
  · simp [hp, hq]

theorem numbersOf_congr (h : ∀ b, p b ↔ q b) : numbersOf branches p = numbersOf branches q := by
  rw [numbersOf, numbersOf]
  congr 1
  funext ⟨b, n⟩
  simp only [h b]

theorem numbersOf_isEmpty : (numbersOf branches p).isEmpty = branches.all fun b ↦ !p b := by
  rw [Bool.eq_iff_iff, List.isEmpty_iff, List.eq_nil_iff_forall_not_mem, List.all_eq_true]
  constructor
  · intro h b hb
    obtain ⟨n, hn⟩ := List.mem_iff_getElem?.mp hb
    simpa using fun hp ↦ h n (mem_numbersOf.mpr ⟨b, hn, hp⟩)
  · intro h n hn
    obtain ⟨b, hb, hp⟩ := mem_numbersOf.mp hn
    simpa [hp] using h b (List.mem_of_getElem? hb)

end Numbers

namespace Graph

theorem incoming_eq (g : Graph) (i : Nat) : g.incoming i = numbersOf g.branches fun b ↦ b.target = i := rfl

theorem outgoing_eq (g : Graph) (i : Nat) : g.outgoing i = numbersOf g.branches fun b ↦ b.source = i := rfl

def table (g : Graph) : Table :=
  ⟨(List.range (g.finish + 1)).map fun i ↦ ⟨g.block i, g.incoming i, g.outgoing i⟩, g.branches⟩

/-- The table of a graph after some blocks have been cut off. Their branches are in no list any more. -/
def pruned (g : Graph) (gone : List Nat) : Table :=
  let node (i : Nat) : Node :=
    ⟨g.block i, numbersOf g.branches fun b ↦ b.target = i ∧ b.source ∉ gone,
      numbersOf g.branches fun b ↦ b.source = i ∧ b.source ∉ gone⟩
  ⟨(List.range (g.finish + 1)).map node, g.branches⟩

variable {g : Graph} {gone : List Nat}

@[simp] theorem branches_pruned : (g.pruned gone).branches = g.branches := rfl

theorem getElem?_pruned (i : Nat) : (g.pruned gone).nodes[i]? =
    if i ≤ g.finish then
      some ⟨g.block i, numbersOf g.branches fun b ↦ b.target = i ∧ b.source ∉ gone,
        numbersOf g.branches fun b ↦ b.source = i ∧ b.source ∉ gone⟩
    else none := by
  simp only [pruned, List.getElem?_map]
  split
  · next h => rw [List.getElem?_range (Nat.lt_succ_of_le h), Option.map_some]
  · next h => rw [List.getElem?_eq_none (by rw [List.length_range]; omega), Option.map_none]

@[simp] theorem finish_pruned : (g.pruned gone).finish = g.finish := by
  simp [pruned, Table.finish]

theorem left_pruned (gone' : List Nat) : (g.pruned gone).left gone' = g.kept gone' := by
  rw [Table.left, finish_pruned]
  rfl

theorem incoming_pruned {i : Nat} (hi : i ≤ g.finish) : (g.pruned gone).incoming i =
    numbersOf g.branches fun b ↦ b.target = i ∧ b.source ∉ gone := by
  rw [Table.incoming, getElem?_pruned, if_pos hi]
  rfl

theorem outgoing_pruned {i : Nat} (hi : i ≤ g.finish) : (g.pruned gone).outgoing i =
    numbersOf g.branches fun b ↦ b.source = i ∧ b.source ∉ gone := by
  rw [Table.outgoing, getElem?_pruned, if_pos hi]
  rfl

end Graph

namespace Table

theorem ext_nodes {t t' : Table} (hn : ∀ i : Nat, t.nodes[i]? = t'.nodes[i]?) (hb : t.branches = t'.branches) :
    t = t' := by
  obtain ⟨nodes, branches⟩ := t
  obtain ⟨nodes', branches'⟩ := t'
  obtain rfl : nodes = nodes' := List.ext_getElem? hn
  obtain rfl : branches = branches' := hb
  rfl

section Build

variable (blocks : List Body) (branches : List Branch)

theorem ofBlocks_eq : ofBlocks blocks = (⟨blocks, []⟩ : Graph).pruned [] := by
  refine ext_nodes (fun i ↦ ?_) rfl
  rw [Graph.getElem?_pruned]
  cases i with
  | zero => rfl
  | succ i =>
    simp only [ofBlocks, List.cons_append, List.getElem?_cons_succ, List.getElem?_append, List.getElem?_map,
      List.length_map, Graph.finish, Nat.add_le_add_iff_right, Graph.block, numbersOf]
    rcases Nat.lt_trichotomy i blocks.length with h | rfl | h
    · simp [h, Nat.le_of_lt h]
    · simp
    · simp [Nat.not_lt_of_gt h, Nat.not_le_of_gt h, Nat.sub_eq_zero_iff_le]

theorem connect_pruned (b : Branch) : ((⟨blocks, branches⟩ : Graph).pruned []).connect b =
    (⟨blocks, branches ++ b.simplify?.toList⟩ : Graph).pruned [] := by
  unfold connect
  cases hb : b.simplify? with
  | none => simp
  | some b' =>
    refine ext_nodes (fun i ↦ ?_) rfl
    simp only [List.getElem?_modify, Graph.getElem?_pruned, Graph.branches_pruned, Option.toList_some,
      numbersOf_append_singleton, Graph.finish, List.not_mem_nil, not_false_eq_true, and_true]
    -- Each list grows by the new number exactly if the block is the end that it is about.
    by_cases hi : i ≤ blocks.length + 1
    · by_cases hs : b'.source = i <;> by_cases ht : b'.target = i <;> simp [hi, hs, ht, Graph.block]
    · simp [hi]

/-- Branches put into a table one by one make up the graph with the branches whose guard is not false. -/
theorem build_eq : build blocks branches =
    (⟨blocks, branches.filterMap Branch.simplify?⟩ : Graph).pruned [] := by
  induction branches using List.reverseRecOn with
  | nil => exact ofBlocks_eq blocks
  | append_singleton branches b ih =>
    rw [build, List.foldl_append, List.foldl_cons, List.foldl_nil]
    rw [build] at ih
    rw [ih, connect_pruned, List.filterMap_append]
    cases hb : b.simplify? <;> simp [hb]

end Build

theorem full?_eq (body : Body) : full? body = (Graph.full? body).map fun g ↦ g.pruned [] := by
  simp only [full?, Graph.full?, Option.map_map, build_eq]
  rfl

section Cut

theorem getElem?_unlink (t : Table) (n i : Nat) : (t.unlink n).nodes[i]? =
    (t.nodes[i]?).map fun v ↦
      { v with incoming := v.incoming.filter fun m ↦ !(m == n && (t.branches[n]?).any (·.target == i)) } := by
  unfold unlink
  cases hb : t.branches[n]? with
  | none => simp
  | some b =>
    dsimp only
    rw [List.getElem?_modify]
    by_cases ht : b.target = i
    · simp [ht, bne]
    · simp [ht, beq_false_of_ne ht]

theorem branches_unlink (t : Table) (n : Nat) : (t.unlink n).branches = t.branches := by
  unfold unlink
  split <;> rfl

theorem branches_unlinks (ids : List Nat) (t : Table) : (ids.foldl unlink t).branches = t.branches := by
  induction ids generalizing t with
  | nil => rfl
  | cons n ids ih => exact (ih _).trans (branches_unlink t n)

theorem getElem?_unlinks (ids : List Nat) (t : Table) (i : Nat) : (ids.foldl unlink t).nodes[i]? =
    (t.nodes[i]?).map fun v ↦
      { v with incoming := v.incoming.filter fun m ↦
          !(ids.contains m && (t.branches[m]?).any (·.target == i)) } := by
  induction ids generalizing t with
  | nil => simp
  | cons n ids ih =>
    rw [List.foldl_cons, ih, getElem?_unlink, Option.map_map, branches_unlink]
    congr 1
    funext v
    dsimp only [Function.comp]
    rw [List.filter_filter]
    congr 2
    funext m
    by_cases hm : m = n
    · subst hm
      cases (t.branches[m]?).any (·.target == i) <;> simp
    · simp [hm]

theorem cut_pruned {g : Graph} {gone : List Nat} {i : Nat} (hi : i ≤ g.finish) :
    (g.pruned gone).cut i = g.pruned (i :: gone) := by
  refine ext_nodes (fun j ↦ ?_) (branches_unlinks ..)
  simp only [cut, getElem?_unlinks, List.getElem?_modify, Graph.getElem?_pruned, Graph.outgoing_pruned hi,
    Graph.branches_pruned]
  by_cases hj : j ≤ g.finish
  · simp only [if_pos hj, Option.map_some, Option.map_eq_map]
    have hin : (numbersOf g.branches fun b ↦ b.target = j ∧ b.source ∉ gone).filter (fun m ↦
        !((numbersOf g.branches fun b ↦ b.source = i ∧ b.source ∉ gone).contains m &&
          (g.branches[m]?).any (·.target == j))) =
        numbersOf g.branches fun b ↦ b.target = j ∧ b.source ∉ i :: gone := by
      refine filter_numbersOf fun n b hb ↦ ?_
      have hmem : n ∈ (numbersOf g.branches fun b ↦ b.source = i ∧ b.source ∉ gone) ↔
          b.source = i ∧ b.source ∉ gone := by
        simp [mem_numbersOf, hb]
      simp only [List.mem_cons, not_or, hb, Option.any_some, Bool.not_eq_true', Bool.and_eq_false_iff,
        List.contains_eq_mem, decide_eq_false_iff_not, hmem, beq_eq_false_iff_ne]
      tauto
    have hout : (if i = j then [] else numbersOf g.branches fun b ↦ b.source = j ∧ b.source ∉ gone) =
        numbersOf g.branches fun b ↦ b.source = j ∧ b.source ∉ i :: gone := by
      split
      · next hij =>
        refine (List.eq_nil_iff_forall_not_mem.mpr fun n hn ↦ ?_).symm
        obtain ⟨b, -, hb, hnot⟩ := mem_numbersOf.mp hn
        exact hnot (List.mem_cons.mpr (.inl (hb.trans hij.symm)))
      · next hij =>
        refine numbersOf_congr fun b ↦ and_congr_right fun hb ↦ ?_
        simp [hb, Ne.symm hij]
    by_cases hij : i = j
    · simp only [if_pos hij] at hout ⊢
      rw [hin, hout]
    · simp only [if_neg hij] at hout ⊢
      rw [hin, hout]
  · simp [hj]

end Cut

section Prune

theorem prune_of_none {t : Table} {gone : List Nat} (h : t.free? gone = none) : t.prune gone = (t, gone) := by
  rw [prune]
  split
  · rfl
  · next h' =>
    rw [h] at h'
    cases h'

theorem prune_of_some {t : Table} {gone : List Nat} {i : Nat} (h : t.free? gone = some i) :
    t.prune gone = (t.cut i).prune (i :: gone) := by
  rw [prune]
  split
  · next h' =>
    rw [h] at h'
    cases h'
  · next h' =>
    rw [h] at h'
    cases h'
    rfl

variable (g : Graph)

theorem free?_pruned (gone : List Nat) : (g.pruned gone).free? gone = g.unreached? gone := by
  rw [free?, Graph.left_pruned, Graph.kept, List.find?_filter, Graph.unreached?]
  refine List.find?_congr fun i hi ↦ ?_
  have hle : i ≤ g.finish := by
    have := List.mem_range'_1.mp hi
    simp only [Graph.finish]
    omega
  rw [Graph.incoming_pruned hle, numbersOf_isEmpty]
  rw [Bool.decide_and, Bool.decide_eq_true, Bool.decide_eq_true]
  congr 2
  funext b
  by_cases ht : b.target = i <;> simp [ht]

/-- Cutting blocks off takes away the same blocks as looking at the sources of branches each time. -/
theorem prune_pruned {n : Nat} {gone : List Nat} (hn : (g.kept gone).length ≤ n) :
    (g.pruned gone).prune gone = (g.pruned (g.unreached n gone), g.unreached n gone) := by
  induction n generalizing gone with
  | zero =>
    have hfree : (g.pruned gone).free? gone = none := by
      rw [free?, Graph.left_pruned, List.length_eq_zero_iff.mp (Nat.le_zero.mp hn), List.find?_nil]
    rw [prune_of_none hfree, Graph.unreached]
  | succ n ih =>
    cases hfree : (g.pruned gone).free? gone with
    | none =>
      have hunreached := (free?_pruned g gone).symm.trans hfree
      simp only [prune_of_none hfree, Graph.unreached, hunreached]
    | some i =>
      have hunreached := (free?_pruned g gone).symm.trans hfree
      have hmem := List.mem_of_find?_eq_some hfree
      have hlt := length_left_cons hmem
      rw [Graph.left_pruned, Graph.left_pruned] at hlt
      rw [Graph.left_pruned] at hmem
      have hle : i ≤ g.finish := by
        have := (Graph.mem_kept.mp hmem).1.2
        simp only [Graph.finish]
        omega
      simp only [prune_of_some hfree, cut_pruned hle, ih (Nat.le_of_lt_succ (Nat.lt_of_lt_of_le hlt hn)),
        Graph.unreached, hunreached]

end Prune

end Table

end SmallScript.Flow
