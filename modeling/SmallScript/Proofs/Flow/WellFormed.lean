import SmallScript.Proofs.Flow.Reached

namespace SmallScript.Flow

open Code (Statement Body)

namespace Table

/-- Branches lead from block to block, away from the start and on to the finish, and the lists of the blocks
have their numbers: each number is once in the list of each of its two ends, in order. -/
structure Linked (t : Table) : Prop where
  start_lt_finish : 0 < t.finish
  ends : ∀ b ∈ t.branches, b.source < t.finish ∧ 1 ≤ b.target ∧ b.target ≤ t.finish
  numbers : ∀ i, ∀ n ∈ t.incoming i ++ t.outgoing i, n < t.branches.length
  incoming_once : ∀ n b, t.branches[n]? = some b → ∀ i, (t.incoming i).count n = if i = b.target then 1 else 0
  outgoing_once : ∀ n b, t.branches[n]? = some b → ∀ i, (t.outgoing i).count n = if i = b.source then 1 else 0
  incoming_ascending : ∀ i, (t.incoming i).Pairwise (· < ·)
  outgoing_ascending : ∀ i, (t.outgoing i).Pairwise (· < ·)
  start_incoming : t.incoming 0 = []
  outgoing : ∀ i < t.finish, t.outgoing i ≠ []
  finish_outgoing : t.outgoing t.finish = []

structure WellFormed (t : Table) : Prop extends t.Linked where
  inner_incoming : ∀ i, 1 ≤ i → i < t.finish → t.incoming i ≠ []

/-- A table has the blocks `kept` of another one, and the branches between them, under the numbers of their places
in `kept`. -/
structure Compacts (t full : Table) (kept : List Nat) : Prop where
  statements : t.nodes.map (·.statements) = kept.filterMap fun i ↦ (full.nodes[i]?).map (·.statements)
  branches : t.branches = full.branches.filterMap fun b ↦
    if b.source ∈ kept ∧ b.target ∈ kept then some ⟨kept.idxOf b.source, kept.idxOf b.target, b.guard⟩ else none

end Table

theorem count_numbersOf {branches : List Branch} {p : Branch → Prop} [DecidablePred p] {n : Nat} {b : Branch}
    (hn : branches[n]? = some b) : (numbersOf branches p).count n = if p b then 1 else 0 := by
  have hmem : n ∈ numbersOf branches p ↔ p b := by simp [mem_numbersOf, hn]
  split
  · next hp =>
    exact List.count_eq_one_of_mem (pairwise_numbersOf.imp Nat.ne_of_lt) (hmem.mpr hp)
  · next hp => exact List.count_eq_zero.mpr (mt hmem.mp hp)

theorem numbersOf_eq_nil_iff {branches : List Branch} {p : Branch → Prop} [DecidablePred p] :
    numbersOf branches p = [] ↔ ∀ b ∈ branches, ¬ p b := by
  rw [← List.isEmpty_iff, numbersOf_isEmpty, List.all_eq_true]
  simp

namespace Graph

variable {g : Graph}

section Ends

variable (hends : ∀ b ∈ g.branches, b.source < g.finish ∧ 1 ≤ b.target ∧ b.target ≤ g.finish)
  (hout : ∀ i < g.finish, ∃ j, g.Leads i j)
include hends

theorem incoming_table (i : Nat) : g.table.incoming i = numbersOf g.branches fun b ↦ b.target = i :=
  (lists_table (fun b hb ↦ ⟨Nat.le_of_lt (hends b hb).1, (hends b hb).2.2⟩) i).1

theorem outgoing_table (i : Nat) : g.table.outgoing i = numbersOf g.branches fun b ↦ b.source = i :=
  (lists_table (fun b hb ↦ ⟨Nat.le_of_lt (hends b hb).1, (hends b hb).2.2⟩) i).2

include hout

theorem linked_table : g.table.Linked := by
  constructor
  · rw [finish_table]
    exact Nat.succ_pos _
  · rwa [finish_table]
  · intro i n hn
    rw [incoming_table hends, outgoing_table hends, List.mem_append, mem_numbersOf, mem_numbersOf] at hn
    rcases hn with ⟨b, hb, -⟩ | ⟨b, hb, -⟩
    · exact (List.getElem?_eq_some_iff.mp hb).1
    · exact (List.getElem?_eq_some_iff.mp hb).1
  · intro n b hb i
    have hb : g.branches[n]? = some b := hb
    rw [incoming_table hends, count_numbersOf hb]
    exact if_congr eq_comm rfl rfl
  · intro n b hb i
    have hb : g.branches[n]? = some b := hb
    rw [outgoing_table hends, count_numbersOf hb]
    exact if_congr eq_comm rfl rfl
  · intro i
    rw [incoming_table hends]
    exact pairwise_numbersOf
  · intro i
    rw [outgoing_table hends]
    exact pairwise_numbersOf
  · rw [incoming_table hends, numbersOf_eq_nil_iff]
    exact fun b hb ht ↦ absurd (hends b hb).2.1 (by omega)
  · intro i hi
    rw [finish_table] at hi
    obtain ⟨j, guard, hb⟩ := hout i hi
    rw [outgoing_table hends, Ne, numbersOf_eq_nil_iff]
    exact fun h ↦ h _ hb rfl
  · rw [outgoing_table hends, numbersOf_eq_nil_iff, finish_table]
    exact fun b hb hs ↦ absurd (hends b hb).1 (hs ▸ Nat.lt_irrefl _)

theorem wellFormed_table (hin : ∀ i, 1 ≤ i → i < g.finish → ∃ j, g.Leads j i) : g.table.WellFormed where
  toLinked := linked_table hends hout
  inner_incoming := by
    intro i h1 hi
    rw [finish_table] at hi
    obtain ⟨j, guard, hb⟩ := hin i h1 hi
    rw [incoming_table hends, Ne, numbersOf_eq_nil_iff]
    exact fun h ↦ h _ hb rfl

end Ends

section Without

variable {gone : List Nat} (hremoved : Removed g gone) (hexhausted : g.Exhausted gone)
  (hends : ∀ b ∈ g.branches, b.source ≤ g.inner.length ∧ 1 ≤ b.target ∧ b.target ≤ g.finish)
  (hleads : ∀ i ≤ g.inner.length, ∃ j, g.Leads i j)
include hremoved hexhausted hends hleads

theorem wellFormed_without : (g.without gone).table.WellFormed := by
  have hrange := inRange_of_ends hends
  have hrange' := inRange_without hremoved.toGone hrange
  refine wellFormed_table ?_ ?_ ?_
  · intro b hb
    obtain ⟨-, -, -, -, -, -, -, hs, ht⟩ := leads_without hremoved hends ⟨b.guard, hb⟩
    exact ⟨hs, ht, (hrange' b hb).2⟩
  · intro k hk
    obtain ⟨i, hi, rfl, hle, -⟩ := exists_held hremoved hexhausted hends hk
    obtain ⟨j, hij⟩ := hleads i hle
    have hj : j ∈ g.staying gone := by
      obtain ⟨guard, hb⟩ := hij
      exact mem_staying.mpr ⟨(hrange _ hb).2, fun hj ↦ (mem_staying.mp hi).2 (hremoved.closed _ hb hj)⟩
    exact ⟨_, (leads_without_iff hi hj hrange).mpr hij⟩
  · intro k h1 hk
    obtain ⟨i, hi, rfl, hle, -⟩ := exists_held hremoved hexhausted hends hk
    have hpos : 1 ≤ i := Nat.one_le_iff_ne_zero.mpr fun h0 ↦ by
      rw [h0, renumber_start hremoved.toGone] at h1
      exact absurd h1 (Nat.not_succ_le_self 0)
    obtain ⟨j, hji, hj⟩ := hexhausted i (mem_kept.mpr ⟨⟨hpos, hle⟩, (mem_staying.mp hi).2⟩)
    have hj : j ∈ g.staying gone := by
      obtain ⟨guard, hb⟩ := hji
      exact mem_staying.mpr ⟨(hrange _ hb).1, hj⟩
    exact ⟨_, (leads_without_iff hj hi hrange).mpr hji⟩

omit hleads in
theorem mem_staying_iff_held {i : Nat} : i ∈ g.staying gone ↔ i = g.finish ∨ i < g.finish ∧ g.Held i := by
  rw [mem_staying]
  rcases Nat.lt_trichotomy i g.finish with hlt | rfl | hlt
  · have hne : i ≠ g.finish := Nat.ne_of_lt hlt
    rw [or_iff_right hne, and_iff_right hlt, and_iff_right (Nat.le_of_lt hlt)]
    rcases Nat.eq_zero_or_pos i with rfl | hpos
    · exact iff_of_true (mem_staying.mp (start_mem_staying hremoved.toGone)).2 held_start
    · exact hremoved.notMem_iff (fun b hb ↦ (hends b hb).1) hexhausted ⟨hpos, Nat.le_of_lt_succ hlt⟩
  · exact iff_of_true ⟨Nat.le_refl _, hremoved.toGone.finish_notMem⟩ (.inl rfl)
  · exact iff_of_false (fun h ↦ absurd h.1 (Nat.not_le_of_lt hlt))
      (not_or.mpr ⟨Nat.ne_of_gt hlt, fun h ↦ absurd h.1 (Nat.not_lt_of_gt hlt)⟩)

end Without

theorem pruned_nil (g : Graph) : g.pruned [] = g.table := by
  simp [pruned, table, incoming_eq, outgoing_eq]

/-- The table of a graph without some blocks has the blocks that stay, and the branches between them. -/
theorem compacts_without (hgone : Gone g gone) (hrange : g.InRange) :
    (g.without gone).table.Compacts (g.pruned []) (g.staying gone) := by
  constructor
  · have hkept : (g.staying gone).filterMap (fun i ↦ ((g.pruned []).nodes[i]?).map (·.statements)) =
        (g.staying gone).filterMap (some ∘ g.block) :=
      List.filterMap_congr fun i hi ↦ by rw [getElem?_pruned, if_pos (mem_staying.mp hi).1]; rfl
    rw [hkept, List.filterMap_eq_map, table, List.map_map, ← length_staying hgone, ← map_renumber, List.map_map]
    exact List.map_congr_left fun i hi ↦ block_staying hgone hi
  · refine List.filterMap_congr fun b hb ↦ ?_
    obtain ⟨hs, ht⟩ := hrange b hb
    have hkept : b.source ∈ g.staying gone ∧ b.target ∈ g.staying gone ↔ ¬ (b.source ∈ gone ∨ b.target ∈ gone) := by
      rw [mem_staying, mem_staying, and_iff_right hs, and_iff_right ht, not_or]
    rw [if_congr hkept rfl rfl, ite_not]
    simp [staying]

end Graph

theorem statements_pruned (g : Graph) (gone : List Nat) :
    (g.pruned gone).nodes.map (·.statements) = [] :: g.inner ++ [[]] := by
  -- Neither the branches nor the blocks cut off change the statements, so the table without branches will do.
  have hblank : (g.pruned gone).nodes.map (·.statements) =
      ((⟨g.inner, []⟩ : Graph).pruned []).nodes.map (·.statements) := by
    simp only [Graph.pruned, List.map_map]
    rfl
  rw [hblank, ← Table.ofBlocks_eq]
  simp [Table.ofBlocks, Function.comp_def]

/-- The blocks between start and finish make up the body, and begin and end where they should, and their table is in
order. The table of the blocks that stay is this one without the others, numbered anew: those stay that a way leads to
from the start or from a cycle. It is well-formed. -/
theorem Table.wellFormed {body : Body} (hflat : body.isFlat) (hlabels : ∀ l ∈ body.jumps, l ∈ body.labels) :
    ∃ full blocks kept t, Table.full? body = some full ∧
      full.nodes.map (·.statements) = [] :: blocks ++ [[]] ∧ blocks.flatten = body ∧
      (∀ block ∈ blocks, Tidy block) ∧ full.Linked ∧ Table.ofBody? body = some t ∧ kept.Pairwise (· < ·) ∧
      (∀ i, i ∈ kept ↔ i = full.finish ∨ i < full.finish ∧ (⟨blocks, full.branches⟩ : Graph).Held i) ∧
      t.Compacts full kept ∧ t.WellFormed := by
  obtain ⟨g, hg⟩ := exists_full? hlabels
  have hfull : Table.full? body = some (g.pruned []) := by
    rw [Table.full?_eq, hg]
    rfl
  have htable : Table.ofBody? body = some g.prune.table := by
    rw [Table.ofBody?_eq, Graph.ofBody?, if_pos hflat, hg]
    rfl
  have hremoved := g.removed_unreached
  have hexhausted := g.exhausted_unreached
  have hends := ends_full hg
  have hleads {i : Nat} (hi : i ≤ g.inner.length) : ∃ j, g.Leads i j := exists_leads hg hi
  refine ⟨g.pruned [], split body, g.staying (g.unreached g.inner.length []), g.prune.table, hfull, ?_,
    flatten_split body, fun _ ↦ tidy_of_mem_split, ?_, htable, List.pairwise_lt_range.filter _, fun i ↦ ?_,
    Graph.compacts_without hremoved.toGone (Graph.inRange_of_ends hends),
    Graph.wellFormed_without hremoved hexhausted hends fun _ ↦ hleads⟩
  · rw [statements_pruned, inner_full hg]
  · rw [Graph.pruned_nil]
    refine Graph.linked_table (fun b hb ↦ ?_) fun i hi ↦ hleads (Nat.le_of_lt_succ hi)
    obtain ⟨hs, ht⟩ := hends b hb
    exact ⟨Nat.lt_succ_of_le hs, ht⟩
  · rw [Graph.mem_staying_iff_held hremoved hexhausted hends, Graph.finish_pruned, ← inner_full hg]
    rfl

/-- Two loops, and a return between them, of which only the first loop is reached. The second loop stays, the
return does not. -/
theorem Table.wellFormed_loops :
    let body : Body := [.label (.made 1), .goto (.made 1), .leave none, .label (.made 2), .goto (.made 2)]
    body.isFlat ∧ (∀ l ∈ body.jumps, l ∈ body.labels) ∧
      ∃ full kept t, Table.full? body = some full ∧ full.nodes.length = 5 ∧
        full.branches.map (fun b ↦ (b.source, b.target)) = [(0, 1), (1, 1), (2, 4), (3, 3)] ∧
        Table.ofBody? body = some t ∧ t.nodes.length = 4 ∧
        t.branches.map (fun b ↦ (b.source, b.target)) = [(0, 1), (1, 1), (2, 2)] ∧
        2 ∉ kept ∧ 3 ∈ kept ∧ t.Compacts full kept ∧ t.WellFormed := by
  intro body
  have hflat : body.isFlat := by decide
  have hlabels : ∀ l ∈ body.jumps, l ∈ body.labels := by decide
  have hshape : (Table.full? body).map (fun t ↦ (t.nodes.length, t.branches.map fun b ↦ (b.source, b.target))) =
      some (5, [(0, 1), (1, 1), (2, 4), (3, 3)]) := by decide
  have hshape' : (Graph.ofBody? body).map (fun g ↦ (g.finish, g.branches.map fun b ↦ (b.source, b.target))) =
      some (3, [(0, 1), (1, 1), (2, 2)]) := by decide
  obtain ⟨full, blocks, kept, t, hfull, -, -, -, -, ht, -, hkept, hcompacts, hwell⟩ := Table.wellFormed hflat hlabels
  rw [hfull] at hshape
  obtain ⟨hlength, hends⟩ := Prod.mk.inj (Option.some.inj hshape)
  have hgraph := ht
  rw [Table.ofBody?_eq] at hgraph
  obtain ⟨g, hg, rfl⟩ := Option.map_eq_some_iff.mp hgraph
  rw [hg] at hshape'
  obtain ⟨hfinish, hends'⟩ := Prod.mk.inj (Option.some.inj hshape')
  have hfull_finish : full.finish = 4 := by rw [Table.finish, hlength]
  have hleads {i j : Nat} : (⟨blocks, full.branches⟩ : Graph).Leads i j ↔
      (i, j) ∈ [(0, 1), (1, 1), (2, 4), (3, 3)] := by
    rw [← hends, List.mem_map]
    constructor
    · rintro ⟨guard, hb⟩
      exact ⟨_, hb, rfl⟩
    · rintro ⟨b, hb, heq⟩
      obtain ⟨rfl, rfl⟩ := Prod.mk.inj heq
      exact ⟨b.guard, hb⟩
  refine ⟨hflat, hlabels, full, kept, g.table, hfull, hlength, hends, ht, ?_, hends', fun h ↦ ?_, ?_, hcompacts, hwell⟩
  · simp [Graph.table, hfinish]
  · obtain ⟨-, j, hj, hway⟩ := ((hkept 2).mp h).resolve_left (by omega)
    have hinto : ∃ k, (⟨blocks, full.branches⟩ : Graph).Leads k 2 := by
      rcases hway.cases_tail with rfl | ⟨k, -, hk⟩
      · obtain ⟨k, -, hk⟩ := Relation.TransGen.tail'_iff.mp (hj.resolve_left (by decide))
        exact ⟨k, hk⟩
      · exact ⟨k, hk⟩
    obtain ⟨k, hk⟩ := hinto
    simpa using hleads.mp hk
  · exact (hkept 3).mpr (.inr ⟨by omega, Graph.held_of_cycle (.single (hleads.mpr (by decide)))⟩)

end SmallScript.Flow
