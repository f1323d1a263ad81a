import SmallScript.Proofs.Flow.Removal

namespace SmallScript.Flow

open Code (Expression Statement Body)
open Relation (ReflTransGen TransGen)

section Full

variable {body : Body} {g : Graph} (hg : Graph.full? body = some g)
include hg

theorem leads_leave {k : Nat} {block : Body} {e : Option Expression} (hk : (split body)[k]? = some block)
    (hs : block.getLast? = some (.leave e)) : g.Leads (k + 1) g.finish := by
  obtain ⟨bs, hbs, hmem⟩ := branches_full hg hk
  unfold branchesOf? at hbs
  rw [hs] at hbs
  obtain rfl := Option.some.inj hbs
  refine ⟨none, ?_⟩
  rw [Graph.finish, inner_full hg]
  exact hmem _ List.mem_cons_self _ rfl

theorem exists_leads {i : Nat} (hi : i ≤ g.inner.length) : ∃ j, g.Leads i j := by
  cases i with
  | zero => exact ⟨1, leads_start hg⟩
  | succ k =>
    rw [inner_full hg] at hi
    have hk : (split body)[k]? = some (split body)[k] := List.getElem?_eq_getElem hi
    have hne := ne_nil_of_mem_splitFrom (List.getElem_mem hi)
    obtain ⟨s, hs⟩ : ∃ s, (split body)[k].getLast? = some s := ⟨_, List.getLast?_eq_some_getLast hne⟩
    cases s with
    | goto l =>
      obtain ⟨t, -, hleads⟩ := leads_last hg hk hs
      exact ⟨t, hleads⟩
    | gotoIf l e negated =>
      obtain ⟨t, -, htaken, hmissed⟩ := leads_last hg hk hs
      by_cases he : e = .literal (.bool negated)
      · exact ⟨k + 2, hmissed fun h ↦ by simp [he] at h⟩
      · exact ⟨t, htaken he⟩
    | leave e => exact ⟨_, leads_leave hg hk hs⟩
    | _ => exact ⟨_, leads_last hg hk hs⟩

end Full

namespace Graph

variable {g : Graph} {gone : List Nat}

theorem unreached_eq (g : Graph) : (g.pruned []).prune [] =
    (g.pruned (g.unreached g.inner.length []), g.unreached g.inner.length []) :=
  Table.prune_pruned g (by simp [kept])

/-- What is taken away from a graph are blocks that only they themselves lead to, none on a cycle. -/
theorem removed_unreached (g : Graph) : Removed g (g.unreached g.inner.length []) := by
  have h := (Table.Removes.run (Table.removes_prune (g.pruned []) [])).1
  rwa [unreached_eq] at h

theorem exhausted_unreached (g : Graph) : g.Exhausted (g.unreached g.inner.length []) := by
  have h := Table.not_removes_prune (g.pruned []) []
  rw [unreached_eq] at h
  exact Table.exhausted_of_not_removes h

section Without

variable (hgone : Gone g gone) {i j : Nat}
include hgone

theorem exists_renumber {k : Nat} (hk : k ≤ (g.without gone).finish) :
    ∃ i ∈ g.staying gone, g.renumber gone i = k := by
  have hmem : k ∈ (g.staying gone).map (g.renumber gone) := by
    rw [map_renumber, length_staying hgone]
    exact List.mem_range.mpr (Nat.lt_succ_of_le hk)
  exact List.mem_map.mp hmem

theorem renumber_le (hi : i ∈ g.staying gone) : g.renumber gone i ≤ (g.without gone).finish := by
  have hmem : g.renumber gone i ∈ (g.staying gone).map (g.renumber gone) := List.mem_map_of_mem hi
  rw [map_renumber, length_staying hgone] at hmem
  exact Nat.le_of_lt_succ (List.mem_range.mp hmem)

theorem finish_mem_staying : g.finish ∈ g.staying gone := mem_staying.mpr ⟨Nat.le_refl _, hgone.finish_notMem⟩

theorem start_mem_staying : 0 ∈ g.staying gone :=
  mem_staying.mpr ⟨Nat.zero_le _, fun h ↦ absurd (hgone.inner 0 h).1 (by decide)⟩

omit hgone in
theorem leads_without_iff (hi : i ∈ g.staying gone) (hj : j ∈ g.staying gone) (hrange : g.InRange) :
    (g.without gone).Leads (g.renumber gone i) (g.renumber gone j) ↔ g.Leads i j := by
  have hmem (b' : Branch) : b' ∈ (g.without gone).branches ↔ ∃ b ∈ g.branches,
      (b.source ∉ gone ∧ b.target ∉ gone) ∧
        ⟨g.renumber gone b.source, g.renumber gone b.target, b.guard⟩ = b' := by
    simp [without, renumber]
  constructor
  · rintro ⟨guard, hb'⟩
    obtain ⟨b, hb, ⟨hs, ht⟩, heq⟩ := (hmem _).mp hb'
    obtain ⟨hsource, htarget, rfl⟩ := Branch.mk.inj heq
    obtain ⟨hsle, htle⟩ := hrange b hb
    obtain rfl := renumber_inj (mem_staying.mpr ⟨hsle, hs⟩) hsource
    obtain rfl := renumber_inj (mem_staying.mpr ⟨htle, ht⟩) htarget
    exact ⟨b.guard, hb⟩
  · rintro ⟨guard, hb⟩
    exact ⟨guard, (hmem _).mpr ⟨_, hb, ⟨(mem_staying.mp hi).2, (mem_staying.mp hj).2⟩, rfl⟩⟩

end Without

section Ways

variable (hremoved : Removed g gone) (hrange : g.InRange) {i j : Nat}
include hremoved hrange

omit hrange in
theorem staying_of_held (hle : i ≤ g.finish) (h : g.Held i) : i ∈ g.staying gone :=
  mem_staying.mpr ⟨hle, fun hi ↦ hremoved.not_held hi h⟩

theorem way_of_without {k : Nat} (hi : i ∈ g.staying gone)
    (h : ReflTransGen (g.without gone).Leads (g.renumber gone i) k) :
    ∀ j ∈ g.staying gone, g.renumber gone j = k → ReflTransGen g.Leads i j := by
  induction h with
  | refl =>
    intro j hj heq
    obtain rfl := renumber_inj hj heq
    exact .refl
  | @tail l k _ hleads ih =>
    rintro j hj rfl
    have hle : l ≤ (g.without gone).finish := by
      obtain ⟨guard, hb⟩ := hleads
      exact (inRange_without hremoved.toGone hrange _ hb).1
    obtain ⟨k, hk, rfl⟩ := exists_renumber hremoved.toGone hle
    exact (ih k hk rfl).tail ((leads_without_iff hk hj hrange).mp hleads)

theorem way_without (h : ReflTransGen g.Leads 0 j) :
    j ∈ g.staying gone ∧ ReflTransGen (g.without gone).Leads 0 (g.renumber gone j) := by
  induction h with
  | refl =>
    rw [renumber_start hremoved.toGone]
    exact ⟨start_mem_staying hremoved.toGone, .refl⟩
  | @tail k j hway hleads ih =>
    have hle : j ≤ g.finish := by
      obtain ⟨guard, hb⟩ := hleads
      exact (hrange _ hb).2
    have hj := staying_of_held hremoved hle ⟨0, .inl rfl, hway.tail hleads⟩
    exact ⟨hj, ih.2.tail ((leads_without_iff ih.1 hj hrange).mpr hleads)⟩

theorem way_without_iff (hj : j ∈ g.staying gone) :
    ReflTransGen (g.without gone).Leads 0 (g.renumber gone j) ↔ ReflTransGen g.Leads 0 j := by
  refine ⟨fun h ↦ ?_, fun h ↦ (way_without hremoved hrange h).2⟩
  rw [← renumber_start hremoved.toGone] at h
  exact way_of_without hremoved hrange (start_mem_staying hremoved.toGone) h j hj rfl

end Ways

theorem alwaysReturns_eq_false_iff (g : Graph) : g.alwaysReturns = false ↔
    ∃ i, g.Leads i g.finish ∧ ∀ e, (g.block i).getLast? ≠ some (.leave e) := by
  rw [alwaysReturns, List.all_eq_false]
  constructor
  · rintro ⟨b, hb, h⟩
    rw [Bool.not_eq_true, Bool.or_eq_false_iff, bne_eq_false_iff_eq] at h
    refine ⟨b.source, ⟨b.guard, h.1 ▸ hb⟩, fun e he ↦ ?_⟩
    rw [he] at h
    cases h.2
  · rintro ⟨i, ⟨guard, hb⟩, hlast⟩
    refine ⟨_, hb, ?_⟩
    rw [bne_self_eq_false, Bool.false_or]
    split
    · next e he => exact absurd he (hlast e)
    · exact Bool.false_ne_true

section Kept

variable (hremoved : Removed g gone) (hexhausted : g.Exhausted gone)
  (hends : ∀ b ∈ g.branches, b.source ≤ g.inner.length ∧ 1 ≤ b.target ∧ b.target ≤ g.finish) {i : Nat}
include hremoved

theorem renumber_lt (hi : i ∈ g.staying gone) (hle : i ≤ g.inner.length) :
    g.renumber gone i < (g.without gone).finish := by
  refine Nat.lt_of_le_of_ne (renumber_le hremoved.toGone hi) fun heq ↦ ?_
  rw [← renumber_finish hremoved.toGone] at heq
  obtain rfl := renumber_inj hi heq
  exact absurd hle (Nat.not_succ_le_self _)

include hends

theorem leads_without {k l : Nat} (h : (g.without gone).Leads k l) :
    ∃ i ∈ g.staying gone, ∃ j ∈ g.staying gone, g.renumber gone i = k ∧ g.renumber gone j = l ∧
      g.Leads i j ∧ k < (g.without gone).finish ∧ 0 < l := by
  have hrange := inRange_of_ends hends
  obtain ⟨guard, hb⟩ := h
  obtain ⟨hk, hl⟩ := inRange_without hremoved.toGone hrange _ hb
  obtain ⟨i, hi, rfl⟩ := exists_renumber hremoved.toGone hk
  obtain ⟨j, hj, rfl⟩ := exists_renumber hremoved.toGone hl
  have hleads := (leads_without_iff hi hj hrange).mp ⟨guard, hb⟩
  obtain ⟨guard', hb'⟩ := hleads
  obtain ⟨hsource, htarget, -⟩ := hends _ hb'
  refine ⟨i, hi, j, hj, rfl, rfl, ⟨guard', hb'⟩, renumber_lt hremoved hi hsource, ?_⟩
  refine Nat.pos_of_ne_zero fun heq ↦ ?_
  rw [← renumber_start hremoved.toGone] at heq
  obtain rfl := renumber_inj hj heq
  exact absurd htarget (Nat.not_succ_le_self 0)

include hexhausted

theorem exists_held {k : Nat} (hk : k < (g.without gone).finish) :
    ∃ i ∈ g.staying gone, g.renumber gone i = k ∧ i ≤ g.inner.length ∧ g.Held i := by
  obtain ⟨i, hi, rfl⟩ := exists_renumber hremoved.toGone (Nat.le_of_lt hk)
  obtain ⟨hle, hnot⟩ := mem_staying.mp hi
  have hne : i ≠ g.finish := by
    rintro rfl
    rw [renumber_finish hremoved.toGone] at hk
    exact absurd hk (Nat.lt_irrefl _)
  have hle : i ≤ g.inner.length := Nat.le_of_lt_succ (Nat.lt_of_le_of_ne hle hne)
  refine ⟨i, hi, rfl, hle, ?_⟩
  rcases Nat.eq_zero_or_pos i with rfl | hpos
  · exact held_start
  · exact hexhausted.held (fun b hb ↦ (hends b hb).1) (mem_kept.mpr ⟨⟨hpos, hle⟩, hnot⟩)

theorem all_reached_iff : (∀ i < (g.without gone).finish, ReflTransGen (g.without gone).Leads 0 i) ↔
    ∀ j, TransGen g.Leads j j → ReflTransGen g.Leads 0 j := by
  have hrange := inRange_of_ends hends
  constructor
  · intro h j hcycle
    have hle : j ≤ g.inner.length := by
      obtain ⟨_, ⟨guard, hb⟩, -⟩ := TransGen.head'_iff.mp hcycle
      exact (hends _ hb).1
    have hj := staying_of_held hremoved (Nat.le_succ_of_le hle) (held_of_cycle hcycle)
    exact (way_without_iff hremoved hrange hj).mp (h _ (renumber_lt hremoved hj hle))
  · intro h k hk
    obtain ⟨i, hi, rfl, -, j, hj, hway⟩ := exists_held hremoved hexhausted hends hk
    have hstart : ReflTransGen g.Leads 0 j := by
      rcases hj with rfl | hcycle
      · exact .refl
      · exact h j hcycle
    exact (way_without_iff hremoved hrange hi).mpr (hstart.trans hway)

theorem exists_past_iff {P : Body → Prop} :
    (∃ k, (g.without gone).Leads k (g.without gone).finish ∧ P ((g.without gone).block k)) ↔
      ∃ i, g.Held i ∧ g.Leads i g.finish ∧ P (g.block i) := by
  have hrange := inRange_of_ends hends
  have hfinish := finish_mem_staying hremoved.toGone
  rw [← renumber_finish hremoved.toGone]
  constructor
  · rintro ⟨k, hleads, hp⟩
    obtain ⟨i, hi, j, hj, rfl, heq, hleads, hk, -⟩ := leads_without hremoved hends hleads
    obtain rfl := renumber_inj hj heq
    obtain ⟨i', hi', heq, -, hheld⟩ := exists_held hremoved hexhausted hends hk
    obtain rfl := renumber_inj hi' heq
    exact ⟨i', hheld, hleads, block_staying hremoved.toGone hi ▸ hp⟩
  · rintro ⟨i, hheld, hleads, hp⟩
    have hle : i ≤ g.finish := by
      obtain ⟨guard, hb⟩ := hleads
      exact (hrange _ hb).1
    have hi := staying_of_held hremoved hle hheld
    refine ⟨_, (leads_without_iff hi hfinish hrange).mpr hleads, ?_⟩
    rwa [block_staying hremoved.toGone hi]

end Kept

variable {body : Body}

/-- A graph of a body keeps what is reached, and cycles with what they lead to. So every block in front of the
finish is reached exactly if every cycle is. Some way passes the last statement, as far as the graph says,
exactly if a block that is kept does; if every block is reached, then a way from the start comes there. -/
theorem reached_iff (hflat : body.isFlat) (hlabels : ∀ l ∈ body.jumps, l ∈ body.labels) :
    ∃ full g, full? body = some full ∧ ofBody? body = some g ∧
      ((∀ i < g.finish, ReflTransGen g.Leads 0 i) ↔
        ∀ j, TransGen full.Leads j j → ReflTransGen full.Leads 0 j) ∧
      (Flow.alwaysReturns body = false ↔ ∃ i, full.Held i ∧ full.Leads i full.finish ∧
        ∀ e, (full.block i).getLast? ≠ some (.leave e)) ∧
      ((∀ i < g.finish, ReflTransGen g.Leads 0 i) → Flow.alwaysReturns body = false →
        ∃ i, ReflTransGen g.Leads 0 i ∧ g.Leads i g.finish ∧
          ∀ e, (g.block i).getLast? ≠ some (.leave e)) := by
  obtain ⟨full, hfull⟩ := exists_full? hlabels
  have hg : ofBody? body = some full.prune := by
    rw [ofBody?, if_pos hflat, hfull]
    rfl
  have hreturns : Flow.alwaysReturns body = full.prune.alwaysReturns := by
    rw [Flow.alwaysReturns, hg]
    rfl
  have hremoved := full.removed_unreached
  have hexhausted := full.exhausted_unreached
  have hends := ends_full hfull
  refine ⟨full, full.prune, hfull, hg, all_reached_iff hremoved hexhausted hends, ?_, fun hall hfalse ↦ ?_⟩
  · rw [hreturns, alwaysReturns_eq_false_iff]
    exact exists_past_iff hremoved hexhausted hends (P := fun b ↦ ∀ e, b.getLast? ≠ some (.leave e))
  · rw [hreturns, alwaysReturns_eq_false_iff] at hfalse
    obtain ⟨k, hleads, hlast⟩ := hfalse
    obtain ⟨-, -, -, -, -, -, -, hk, -⟩ := leads_without hremoved hends hleads
    exact ⟨k, hall k hk, hleads, hlast⟩

/-- A loop behind a return, as it is flattened. -/
def deadLoop : Body :=
  (Code.flattenBody [.leave (some (.literal (.int 1))),
    .whileLoop (.var ⟨Builtin.firstFree, "a", .parameter, .bool, true⟩) (.block []) ⟨.breakOf 1, .continueOf 1⟩] 4).1

theorem exists_graph_deadLoop : ∃ g, ofBody? deadLoop = some g ∧ g.finish = 5 ∧
    ∀ i j, g.Leads i j → (i, j) ∈ [(0, 1), (1, 5), (2, 3), (3, 2), (3, 4), (4, 5)] := by
  have hgraph : (ofBody? deadLoop).map (fun g ↦ (g.finish, g.branches.map fun b ↦ (b.source, b.target))) =
      some (5, [(0, 1), (1, 5), (2, 3), (3, 2), (3, 4), (4, 5)]) := by decide
  obtain ⟨g, hg, heq⟩ := Option.map_eq_some_iff.mp hgraph
  obtain ⟨hfinish, hends⟩ := Prod.mk.inj heq
  refine ⟨g, hg, hfinish, fun i j ⟨guard, hb⟩ ↦ ?_⟩
  rw [← hends]
  exact List.mem_map.mpr ⟨_, hb, rfl⟩

theorem reached_deadLoop {g : Graph} {i : Nat} (h : ReflTransGen g.Leads 0 i)
    (hleads : ∀ i j, g.Leads i j → (i, j) ∈ [(0, 1), (1, 5), (2, 3), (3, 2), (3, 4), (4, 5)]) :
    i = 0 ∨ i = 1 ∨ i = 5 := by
  induction h with
  | refl => exact .inl rfl
  | tail _ hstep ih =>
    have := hleads _ _ hstep
    simp at this
    omega

/-- The graph has the four blocks, and not all of them are reached, as the loop is a cycle that is not. -/
theorem reached_iff_dead_loop :
    deadLoop.isFlat ∧ (∀ l ∈ deadLoop.jumps, l ∈ deadLoop.labels) ∧
      ∃ full g, full? deadLoop = some full ∧ ofBody? deadLoop = some g ∧ g.finish = 5 ∧
        ¬ ReflTransGen g.Leads 0 2 ∧ ∃ j, TransGen full.Leads j j ∧ ¬ ReflTransGen full.Leads 0 j := by
  have hflat : deadLoop.isFlat := by decide
  have hlabels : ∀ l ∈ deadLoop.jumps, l ∈ deadLoop.labels := by decide
  obtain ⟨full, g, hfull, hg, hiff, -⟩ := reached_iff hflat hlabels
  obtain ⟨g', hg', hfinish, hleads⟩ := exists_graph_deadLoop
  obtain rfl := Option.some.inj (hg.symm.trans hg')
  have hnot : ¬ ReflTransGen g.Leads 0 2 := fun h ↦ by
    have := reached_deadLoop h hleads
    omega
  refine ⟨hflat, hlabels, full, g, hfull, hg, hfinish, hnot, ?_⟩
  have hunreached := mt hiff.mpr fun h ↦ hnot (h 2 (by omega))
  push Not at hunreached
  exact hunreached

/-- The loop is never reached, and all ways from the start end in the return. The graph has the loop all the
same, so that the body seems not to return always. -/
theorem keeps_dead_loop :
    deadLoop.isFlat ∧ (∀ l ∈ deadLoop.jumps, l ∈ deadLoop.labels) ∧ Flow.alwaysReturns deadLoop = false ∧
      ∃ g, ofBody? deadLoop = some g ∧ (∃ i < g.finish, ¬ ReflTransGen g.Leads 0 i) ∧
        ∀ i, ReflTransGen g.Leads 0 i → g.Leads i g.finish → ∃ e, (g.block i).getLast? = some (.leave e) := by
  have hlast : (ofBody? deadLoop).map (fun g ↦ (g.block 1).getLast?) =
      some (some (.leave (some (.literal (.int 1))))) := by rfl
  obtain ⟨g, hg, hfinish, hleads⟩ := exists_graph_deadLoop
  rw [hg] at hlast
  refine ⟨by decide, by decide, by decide, g, hg, ⟨2, by omega, fun h ↦ ?_⟩, ?_⟩
  · have := reached_deadLoop h hleads
    omega
  · intro i hi hi5
    rw [hfinish] at hi5
    have := hleads _ _ hi5
    have hi := reached_deadLoop hi hleads
    obtain rfl : i = 1 := by
      simp at this
      omega
    exact ⟨_, Option.some.inj hlast⟩

end Graph

end SmallScript.Flow
