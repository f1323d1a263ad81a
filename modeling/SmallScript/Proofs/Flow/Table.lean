import SmallScript.Proofs.Flow.Pruned

namespace SmallScript.Flow

open Code (Body)

section Numbered

theorem numbered_append (n : Nat) (keep keep' : List Bool) :
    numbered n (keep ++ keep') = numbered n keep ++ numbered (n + keep.count true) keep' := by
  induction keep generalizing n with
  | nil => rfl
  | cons k keep ih =>
    cases k
    · simp [numbered, ih]
    · simp [numbered, ih, Nat.add_assoc, Nat.add_comm 1]

@[simp] theorem length_numbered (n : Nat) (keep : List Bool) : (numbered n keep).length = keep.length := by
  induction keep generalizing n with
  | nil => rfl
  | cons k keep ih => cases k <;> simp [numbered, ih]

theorem getElem?_numbered {l : List Nat} (hl : l.Nodup) (p : Nat → Bool) (n : Nat) {k a : Nat}
    (h : l[k]? = some a) :
    (numbered n (l.map p))[k]?.join = if p a then some (n + (l.filter p).idxOf a) else none := by
  induction l generalizing n k with
  | nil => nomatch h
  | cons b l ih =>
    obtain ⟨hb, hl⟩ := List.nodup_cons.mp hl
    cases k with
    | zero =>
      obtain rfl : b = a := by simpa using h
      cases hp : p b <;> simp [numbered, hp]
    | succ k =>
      have h : l[k]? = some a := by simpa using h
      have hne : b ≠ a := fun heq ↦ hb (heq ▸ List.mem_of_getElem? h)
      cases hp : p b
      · simpa [numbered, hp] using ih hl n h
      · simp only [List.map_cons, hp, numbered, List.getElem?_cons_succ, ih hl (n + 1) h,
          List.filter_cons_of_pos hp, List.idxOf_cons_ne _ hne]
        simp [Nat.add_assoc, Nat.add_comm 1]

variable {branches : List Branch} {p q : Branch → Prop} [DecidablePred p] [DecidablePred q]

theorem filterMap_numbersOf {f : Branch → Option Branch}
    (h : ∀ b ∈ branches, ∀ b', f b = some b' → (p b ↔ q b')) :
    (numbersOf branches p).filterMap (fun n ↦ (numbered 0 (branches.map fun b ↦ (f b).isSome))[n]?.join) =
      numbersOf (branches.filterMap f) q := by
  induction branches using List.reverseRecOn with
  | nil => rfl
  | append_singleton branches b ih =>
    have hbefore : (numbersOf branches p).filterMap (fun n ↦
        (numbered 0 ((branches ++ [b]).map fun b ↦ (f b).isSome))[n]?.join) =
          numbersOf (branches.filterMap f) q := by
      rw [← ih fun b hb ↦ h b (List.mem_append_left _ hb)]
      refine List.filterMap_congr fun n hn ↦ ?_
      obtain ⟨b', hb', -⟩ := mem_numbersOf.mp hn
      have hlt := (List.getElem?_eq_some_iff.mp hb').1
      rw [List.map_append, numbered_append, List.getElem?_append_left (by simpa using hlt)]
    have hlast : (numbered 0 ((branches ++ [b]).map fun b ↦ (f b).isSome))[branches.length]?.join =
        (f b).map fun _ ↦ (branches.filterMap f).length := by
      rw [List.map_append, numbered_append, List.getElem?_append_right (by simp)]
      have hcount : (branches.map fun b ↦ (f b).isSome).count true = (branches.filterMap f).length := by
        rw [List.count_eq_countP, List.countP_map, List.length_filterMap_eq_countP]
        congr 1
        funext b
        simp
      cases hb : f b <;> simp [numbered, hb, hcount]
    have hnew : [branches.length].filterMap (fun n ↦
        (numbered 0 ((branches ++ [b]).map fun b ↦ (f b).isSome))[n]?.join) =
          ((f b).map fun _ ↦ (branches.filterMap f).length).toList := by
      rw [List.filterMap_cons, hlast]
      cases f b <;> rfl
    rw [numbersOf_append_singleton, List.filterMap_append, List.filterMap_append, hbefore]
    cases hb : f b with
    | none =>
      rw [hb] at hnew
      split
      · simp only [hnew, List.filterMap_cons_none hb]
        simp
      · simp [hb]
    | some b' =>
      have hq := h b (List.mem_append_right _ (List.mem_singleton_self b)) b' hb
      rw [hb] at hnew
      rw [List.filterMap_cons_some hb, List.filterMap_nil, numbersOf_append_singleton]
      by_cases hp : p b
      · rw [if_pos hp, if_pos (hq.mp hp), hnew]
        rfl
      · rw [if_neg hp, if_neg (mt hq.mpr hp), List.filterMap_nil]

end Numbered

section Compact

variable {g : Graph} {gone : List Nat}

def Graph.staying (g : Graph) (gone : List Nat) : List Nat :=
  (List.range (g.finish + 1)).filter fun i ↦ !gone.contains i

theorem mem_staying {i : Nat} : i ∈ g.staying gone ↔ i ≤ g.finish ∧ i ∉ gone := by
  rw [Graph.staying, List.mem_filter, List.mem_range, Nat.lt_succ_iff]
  simp

theorem map_renumber : (g.staying gone).map (g.renumber gone) = List.range (g.staying gone).length := by
  apply List.ext_getElem (by simp)
  intro k hk hk'
  rw [List.getElem_map, List.getElem_range]
  exact (List.nodup_range.filter _).idxOf_getElem k _

theorem renumber_inj {i j : Nat} (hi : i ∈ g.staying gone)
    (h : g.renumber gone i = g.renumber gone j) : i = j :=
  (List.idxOf_inj hi).mp h

theorem length_staying (hgone : g.Gone gone) : (g.staying gone).length = (g.without gone).finish + 1 := by
  have hfinish : (g.without gone).finish = (g.kept gone).length + 1 := by
    rw [Graph.finish, Graph.inner_without, List.length_map]
  rw [Graph.staying, hgone.filter_range, hfinish]
  simp

theorem place?_pruned {i : Nat} (hi : i ≤ g.finish) :
    (g.pruned gone).place? gone i = if i ∈ gone then none else some (g.renumber gone i) := by
  have hlength : (g.pruned gone).nodes.length = g.finish + 1 := by simp [Graph.pruned]
  have h := getElem?_numbered List.nodup_range (fun i ↦ !gone.contains i) 0
    (List.getElem?_range (Nat.lt_succ_of_le hi))
  rw [Table.place?, Table.stays, hlength, h, Nat.zero_add]
  by_cases hgone : i ∈ gone <;> simp [hgone, Graph.renumber]

theorem moved?_pruned (h : g.InRange) {b : Branch} (hb : b ∈ g.branches) :
    (g.pruned gone).moved? gone b =
      if b.source ∈ gone ∨ b.target ∈ gone then none
      else some ⟨g.renumber gone b.source, g.renumber gone b.target, b.guard⟩ := by
  obtain ⟨hs, ht⟩ := h b hb
  rw [Table.moved?, place?_pruned hs, place?_pruned ht]
  by_cases hs : b.source ∈ gone <;> by_cases ht : b.target ∈ gone <;> simp [hs, ht]

theorem nodes_compact (t : Table) (node : Nat → Node) (n : Nat) (ht : t.nodes = (List.range n).map node) :
    (t.compact gone).nodes = ((List.range n).filter fun i ↦ !gone.contains i).map fun i ↦
      ⟨(node i).statements, (node i).incoming.filterMap (t.number? gone),
        (node i).outgoing.filterMap (t.number? gone)⟩ := by
  have h {α β : Type} (keep : α → Bool) (f : α → β) (l : List α) :
      l.filterMap (fun a ↦ if keep a then some (f a) else none) = (l.filter keep).map f := by
    induction l with
    | nil => rfl
    | cons a l ih => cases ha : keep a <;> simp [ha, ih]
  simp only [Table.compact, Table.stays, ht, List.length_map, List.length_range, List.zip_map',
    List.filterMap_map, Function.comp_def]
  exact h ..

theorem block_staying (hgone : g.Gone gone) {i : Nat} (hi : i ∈ g.staying gone) :
    (g.without gone).block (g.renumber gone i) = g.block i := by
  obtain ⟨hle, hnot⟩ := mem_staying.mp hi
  have hfinish (g : Graph) : g.block g.finish = [] := by simp [Graph.block, Graph.finish]
  rcases Nat.eq_zero_or_pos i with rfl | hpos
  · rw [Graph.renumber_start hgone]
    rfl
  · rcases Nat.eq_or_lt_of_le hle with rfl | hlt
    · rw [Graph.renumber_finish hgone, hfinish, hfinish]
    · exact Graph.block_without hgone (Graph.mem_kept.mpr ⟨⟨hpos, Nat.le_of_lt_succ hlt⟩, hnot⟩)

theorem compact_pruned (h : g.InRange) (hgone : g.Gone gone) :
    (g.pruned gone).compact gone = (g.without gone).table := by
  have hbranches : g.branches.filterMap ((g.pruned gone).moved? gone) = (g.without gone).branches := by
    refine List.filterMap_congr fun b hb ↦ ?_
    rw [moved?_pruned h hb]
    simp [Graph.renumber]
  have hnodes : ((g.pruned gone).compact gone).nodes = (g.without gone).table.nodes := by
    have htable : (g.without gone).table.nodes = (g.staying gone).map fun i ↦
        ⟨(g.without gone).block (g.renumber gone i), (g.without gone).incoming (g.renumber gone i),
          (g.without gone).outgoing (g.renumber gone i)⟩ := by
      rw [Graph.table, ← length_staying hgone, ← map_renumber, List.map_map]
      rfl
    rw [nodes_compact _ _ _ rfl, htable]
    refine List.map_congr_left fun i hi ↦ ?_
    -- A branch that stays has an end in the new block exactly if it had this end in the old one.
    have hends {b b' : Branch} (hb : b ∈ g.branches) (hb' : (g.pruned gone).moved? gone b = some b') :
        b.source ∉ gone ∧ (b.target = i ↔ b'.target = g.renumber gone i) ∧
          (b.source = i ↔ b'.source = g.renumber gone i) := by
      rw [moved?_pruned h hb] at hb'
      split at hb'
      · cases hb'
      · next hnot =>
        rw [not_or] at hnot
        obtain rfl := Option.some.inj hb'
        have hiff {j : Nat} (hj : j ∈ g.staying gone) : j = i ↔ g.renumber gone j = g.renumber gone i :=
          ⟨congrArg _, renumber_inj hj⟩
        exact ⟨hnot.1, hiff (mem_staying.mpr ⟨(h b hb).2, hnot.2⟩),
          hiff (mem_staying.mpr ⟨(h b hb).1, hnot.1⟩)⟩
    have hincoming : (numbersOf g.branches fun b ↦ b.target = i ∧ b.source ∉ gone).filterMap
        ((g.pruned gone).number? gone) = (g.without gone).incoming (g.renumber gone i) := by
      rw [Graph.incoming_eq, ← hbranches]
      refine filterMap_numbersOf fun b hb b' hb' ↦ ?_
      obtain ⟨hnot, htarget, -⟩ := hends hb hb'
      exact (and_iff_left hnot).trans htarget
    have houtgoing : (numbersOf g.branches fun b ↦ b.source = i ∧ b.source ∉ gone).filterMap
        ((g.pruned gone).number? gone) = (g.without gone).outgoing (g.renumber gone i) := by
      rw [Graph.outgoing_eq, ← hbranches]
      refine filterMap_numbersOf fun b hb b' hb' ↦ ?_
      obtain ⟨hnot, -, hsource⟩ := hends hb hb'
      exact (and_iff_left hnot).trans hsource
    dsimp only
    rw [block_staying hgone hi, hincoming, houtgoing]
  unfold Table.compact at hnodes ⊢
  exact Table.ext_nodes (fun i ↦ congrArg (·[i]?) hnodes) hbranches

/-- The table built for a body, its lists kept up to date by hand, is the table of the graph of the body. -/
theorem Table.ofBody?_eq (body : Body) : Table.ofBody? body = (Graph.ofBody? body).map Graph.table := by
  unfold Table.ofBody? Graph.ofBody?
  split
  · rw [full?_eq]
    cases hg : Graph.full? body with
    | none => rfl
    | some g =>
      have hkept : (g.kept []).length ≤ g.inner.length := by
        simp [Graph.kept]
      have hcompact := compact_pruned (inRange_full hg) (g.gone_unreached g.inner.length Graph.gone_nil)
      simp only [Option.map_some, prune_pruned g hkept, hcompact]
      rfl
  · rfl

@[simp] theorem finish_table : g.table.finish = g.finish := by
  simp [Graph.table, Table.finish]

theorem getElem?_table {i : Nat} (hi : i ≤ g.finish) :
    g.table.nodes[i]? = some ⟨g.block i, g.incoming i, g.outgoing i⟩ := by
  rw [Graph.table, List.getElem?_map, List.getElem?_range (Nat.lt_succ_of_le hi), Option.map_some]

theorem lists_table (h : g.InRange) (i : Nat) :
    g.table.incoming i = g.incoming i ∧ g.table.outgoing i = g.outgoing i := by
  rw [Table.incoming, Table.outgoing]
  by_cases hi : i ≤ g.finish
  · rw [getElem?_table hi]
    exact ⟨rfl, rfl⟩
  · have hnone : g.table.nodes[i]? = none := by
      rw [List.getElem?_eq_none_iff, Graph.table, List.length_map, List.length_range]
      omega
    rw [hnone, Graph.incoming_eq, Graph.outgoing_eq]
    constructor
    · refine (List.eq_nil_iff_forall_not_mem.mpr fun n hn ↦ ?_).symm
      obtain ⟨b, hb, rfl⟩ := mem_numbersOf.mp hn
      exact hi (h b (List.mem_of_getElem? hb)).2
    · refine (List.eq_nil_iff_forall_not_mem.mpr fun n hn ↦ ?_).symm
      obtain ⟨b, hb, rfl⟩ := mem_numbersOf.mp hn
      exact hi (h b (List.mem_of_getElem? hb)).1

theorem alwaysReturns_table (h : g.InRange) : g.table.alwaysReturns = g.alwaysReturns := by
  rw [Table.alwaysReturns, finish_table, (lists_table h _).1, Graph.incoming_eq, Graph.alwaysReturns,
    Bool.eq_iff_iff, List.all_eq_true, List.all_eq_true]
  have hlast {n : Nat} {b : Branch} (hn : g.branches[n]? = some b) :
      ((g.table.branches[n]?).bind fun b ↦ (g.table.nodes[b.source]?).bind (·.statements.getLast?)) =
        (g.block b.source).getLast? := by
    have hb : g.table.branches[n]? = some b := hn
    rw [hb, Option.bind_some, getElem?_table (h b (List.mem_of_getElem? hn)).1, Option.bind_some]
  constructor
  · intro hall b hb
    obtain ⟨n, hn⟩ := List.mem_iff_getElem?.mp hb
    rw [Bool.or_eq_true, bne_iff_ne, or_iff_not_imp_left, not_not]
    intro ht
    have hn' := hall n (mem_numbersOf.mpr ⟨b, hn, ht⟩)
    rw [hlast hn] at hn'
    exact hn'
  · intro hall n hn
    obtain ⟨b, hb, ht⟩ := mem_numbersOf.mp hn
    have hb' := hall b (List.mem_of_getElem? hb)
    rw [ht, bne_self_eq_false, Bool.false_or] at hb'
    rw [hlast hb]
    exact hb'

theorem inRange_ofBody? {body : Body} (hg : Graph.ofBody? body = some g) : g.InRange := by
  unfold Graph.ofBody? at hg
  split at hg
  · obtain ⟨full, hfull, rfl⟩ := Option.map_eq_some_iff.mp hg
    exact Graph.inRange_without (Graph.gone_unreached _ Graph.gone_nil) (inRange_full hfull)
  · nomatch hg

theorem any_alwaysReturns (body : Body) :
    (Table.ofBody? body).any Table.alwaysReturns = Flow.alwaysReturns body := by
  rw [Table.ofBody?_eq, Flow.alwaysReturns]
  cases hg : Graph.ofBody? body with
  | none => rfl
  | some g => exact alwaysReturns_table (inRange_ofBody? hg)

end Compact

end SmallScript.Flow
