import SmallScript.Proofs.Lowering.Loops

namespace SmallScript

open Code (Statement Body Expression Supply flattenAll nodesAll makeUpperBound IsExit)
open Nested (Ending)
open Run (Paired)

namespace Stage

variable {U V : Prop} {σ : Stage U V}
variable {K : Kept} {S : Machine → Machine → Prop} {loops : List Exits} {k n r q : Nat}
variable {C : Ending → Run (Option Value)} {next : Nat} {b : Body} {c : Nat → Nat}
variable {run : Nat → Option Value → Run Ending} {x : Exits} {last : Option Value}

section Branches

variable {e : Expression} {l l' : Label} (he : ∀ v ∈ e.vars, σ.taken v)
include he

theorem matches_ifThen (hl : σ.target l) (hb : σ.Matches loops next b c run) :
    σ.Matches loops next (.gotoIf l e true :: b ++ [.label l]) (fun n ↦ c n + 2)
      (fun n last ↦ do
        if ← Nested.test σ.limits σ.nested e then run n last else return .on last) := by
  intro K S k n r p last C hat hfree hrest hU hV
  beta_reduce at hU
  have hbody : At σ.code (p + 1) b := hat.left.tail
  have hlabel : At σ.code (p + 1 + b.length) [.label l] := by
    have := hat.right
    rwa [List.length_cons, Nat.add_comm b.length, ← Nat.add_assoc] at this
  have hq : p + (Statement.gotoIf l e true :: b ++ [Statement.label l]).length =
      p + 1 + b.length + 1 := by
    simp
    omega
  rw [hq] at hrest
  simp only [bind_assoc]
  refine σ.agrees_gotoIf hrest.below (σ.agrees_test he) hat.left.head
    (hU.imp_right fun h ↦ by omega) (σ.place _ _ hl hlabel.head) fun j goes hj ↦ ?_
  cases goes with
  | true =>
    refine hb (r := r + 1) hbody hfree (hrest.behind (by omega) (by omega) fun i hi hir last ↦ ?_)
      (hU.imp_right fun h ↦ by omega) (hV.imp_right fun h ↦ by omega)
    refine σ.agrees_label hlabel.head (hir.imp_right fun h ↦ by omega) ?_
    intro i' hi'
    exact hrest.on (by omega) (hir.imp_right fun h ↦ by omega) last
  | false =>
    simp only [Bool.false_eq_true, if_false, pure_bind]
    exact hrest.on (by omega) (hU.imp_right fun h ↦ by omega) last

theorem matches_ifElse {b' : Body} {c' : Nat → Nat} {run' : Nat → Option Value → Run Ending}
    {next' : Nat} (hnext : next ≤ next') (hl : σ.target l) (hl' : σ.target l')
    (hb : σ.Matches loops next b c run) (hb' : σ.Matches loops next' b' c' run') :
    σ.Matches loops next
      (.gotoIf l e true :: b ++ [.goto l', .label l] ++ b' ++ [.label l'])
      (fun n ↦ c n + c' n + 3)
      (fun n last ↦ do
        if ← Nested.test σ.limits σ.nested e then run n last else run' n last) := by
  intro K S k n r p last C hat hfree hrest hU hV
  beta_reduce at hU
  have hfirst : At σ.code (p + 1) b := hat.left.left.left.tail
  have hmiddle : At σ.code (p + 1 + b.length) [.goto l', .label l] := by
    have := hat.left.left.right
    rwa [List.length_cons, Nat.add_comm b.length, ← Nat.add_assoc] at this
  have hsecond : At σ.code (p + 1 + b.length + 2) b' := by
    have := hat.left.right
    rwa [List.length_append, List.length_cons, Nat.add_comm b.length, ← Nat.add_assoc,
      ← Nat.add_assoc] at this
  have hlabel : At σ.code (p + 1 + b.length + 2 + b'.length) [.label l'] := by
    have := hat.right
    rwa [List.length_append, List.length_append, List.length_cons, Nat.add_comm b.length,
      ← Nat.add_assoc, ← Nat.add_assoc, ← Nat.add_assoc] at this
  have hq : p + (Statement.gotoIf l e true :: b ++ [Statement.goto l', .label l] ++ b'
      ++ [Statement.label l']).length = p + 1 + b.length + 2 + b'.length + 1 := by
    simp
    omega
  rw [hq] at hrest
  have hplace' := σ.place _ _ hl' hlabel.head
  simp only [bind_assoc]
  refine σ.agrees_gotoIf hrest.below (σ.agrees_test he) hat.left.left.left.head
    (hU.imp_right fun h ↦ by omega) (σ.place _ _ hl hmiddle.tail.head) fun j goes hj ↦ ?_
  cases goes with
  | true =>
    refine hb (r := r + 1) hfirst hfree (hrest.behind (by omega) (by omega) fun i hi hir last ↦ ?_)
      (hU.imp_right fun h ↦ by omega) (hV.imp_right fun h ↦ by omega)
    refine σ.agrees_goto hmiddle.head (hir.imp_right fun h ↦ by omega) hplace' ?_
    intro i' hi'
    exact hrest.on (by omega) (hir.imp_right fun h ↦ by omega) last
  | false =>
    simp only [Bool.false_eq_true, if_false]
    refine hb' (r := r + 1) hsecond (hfree.mono hnext)
      (hrest.behind (by omega) (by omega) fun i hi hir last ↦ ?_)
      (hU.imp_right fun h ↦ by omega) (hV.imp_right fun h ↦ by omega)
    refine σ.agrees_label hlabel.head (hir.imp_right fun h ↦ by omega) ?_
    intro i' hi'
    exact hrest.on (by omega) (hir.imp_right fun h ↦ by omega) last

end Branches

section Blocks

theorem matches_nil (next : Nat) :
    σ.Matches loops next [] (fun _ ↦ 0) fun _ last ↦ return .on last := by
  intro K S k n r p last C hat hfree hrest hU hV
  simp only [pure_bind]
  exact hrest.on (Nat.le_refl k) (hU.imp_right fun h ↦ by omega) last

theorem matches_append {b' : Body} {c' : Nat → Nat} {run' : Nat → Option Value → Run Ending}
    {next' : Nat} (hnext : next ≤ next') (hb : σ.Matches loops next b c run)
    (hb' : σ.Matches loops next' b' c' run') :
    σ.Matches loops next (b ++ b') (fun n ↦ c n + c' n) fun n last ↦
      run n last >>= Nested.onward (run' n) := by
  intro K S k n r p last C hat hfree hrest hU hV
  beta_reduce at hU
  rw [List.length_append, ← Nat.add_assoc] at hrest
  simp only [bind_assoc]
  refine hb (r := c' n + r) hat.left hfree ⟨hrest.below, fun i hi hir e he ↦ ?_⟩
    (hU.imp_right fun h ↦ by omega) hV
  cases e with
  | on last =>
    have hrest' : σ.Rest K S loops i r (p + b.length + b'.length) C :=
      hrest.behind hi (Nat.le_refl r) fun i' hi' hir last ↦ hrest.on (by omega) hir last
    exact hb' hat.right (hfree.mono hnext) hrest' hir (hV.imp_right fun h ↦ by omega)
  | jump l last => exact hrest.ends i hi (hir.imp_right fun h ↦ by omega) (.jump l last) he
  | done result => exact hrest.ends i hi (hir.imp_right fun h ↦ by omega) (.done result) he

end Blocks

section Flat

variable {e : Expression} {l : Label} {i : Nat}

theorem matches_label : σ.Matches loops next [.label l] (fun _ ↦ 1) fun _ last ↦ return .on last := by
  intro K S k n r p last C hat hfree hrest hU hV
  beta_reduce at hU
  simp only [pure_bind]
  refine σ.agrees_label hat.head (hU.imp_right fun h ↦ by omega) ?_
  intro j hj
  exact hrest.on (by omega) (hU.imp_right fun h ↦ by omega) last

theorem matches_goto (hl : IsExit loops l) (hplace : Run.place? σ.code l = some i) :
    σ.Matches loops next [.goto l] (fun _ ↦ 1) fun _ last ↦ return .jump l last := by
  intro K S k n r p last C hat hfree hrest hU hV
  beta_reduce at hU
  simp only [pure_bind]
  refine σ.agrees_goto hat.head (hU.imp_right fun h ↦ by omega) hplace ?_
  intro j hj
  exact hrest.jump (by omega) (hU.imp_right fun h ↦ by omega) hl hplace last

theorem matches_leave : σ.Matches loops next [.leave none] (fun _ ↦ 1) fun _ _ ↦ return .done none := by
  intro K S k n r p last C hat hfree hrest hU hV
  beta_reduce at hU
  simp only [pure_bind]
  refine σ.agrees_run hat.head (hU.imp_right fun h ↦ by omega) ?_
  intro j hj
  exact hrest.ends j (by omega) (hU.imp_right fun h ↦ by omega) (.done none) trivial

variable (he : ∀ v ∈ e.vars, σ.taken v)
include he

theorem matches_gotoIf {negated : Bool} (hl : IsExit loops l)
    (hplace : Run.place? σ.code l = some i) :
    σ.Matches loops next [.gotoIf l e negated] (fun _ ↦ 1) fun _ last ↦ do
      if (← Nested.test σ.limits σ.nested e) = negated then return .on last
      else return .jump l last := by
  intro K S k n r p last C hat hfree hrest hU hV
  beta_reduce at hU
  simp only [bind_assoc]
  refine σ.agrees_gotoIf hrest.below (σ.agrees_test he) hat.head (hU.imp_right fun h ↦ by omega)
    hplace fun j goes hj ↦ ?_
  have hr : U ∨ r ≤ j := hU.imp_right fun h ↦ by omega
  by_cases hgoes : goes = negated
  · rw [if_pos hgoes, if_pos hgoes, pure_bind]
    exact hrest.on (by omega) hr last
  · rw [if_neg hgoes, if_neg hgoes, pure_bind]
    exact hrest.jump (by omega) hr hl hplace last

theorem matches_return : σ.Matches loops next [.leave (some e)] (fun _ ↦ 1) fun _ _ ↦ do
    return .done (← Run.evaluate σ.limits σ.nested e) := by
  intro K S k n r p last C hat hfree hrest hU hV
  beta_reduce at hU
  simp only [bind_assoc, pure_bind]
  refine σ.agrees_return he hrest.below hat.head (hU.imp_right fun h ↦ by omega) ?_
  intro j o hj
  exact hrest.ends j (by omega) (hU.imp_right fun h ↦ by omega) (.done o) trivial

theorem matches_expression : σ.Matches loops next [.expression e] (fun _ ↦ 1) fun _ _ ↦ do
    return .on (← Run.evaluate σ.limits σ.nested e) := by
  intro K S k n r p last C hat hfree hrest hU hV
  beta_reduce at hU
  simp only [bind_assoc, pure_bind]
  refine σ.agrees_expression he hrest.below hat.head (hU.imp_right fun h ↦ by omega)
    fun j o hj ↦ ?_
  exact hrest.on (by omega) (hU.imp_right fun h ↦ by omega) o

theorem matches_declare {v : Variable} (hv : σ.taken v) :
    σ.Matches loops next [.declare v e] (fun _ ↦ 1) fun _ _ ↦ do
      return .on (some (← Nested.assign σ.limits σ.nested v e)) := by
  intro K S k n r p last C hat hfree hrest hU hV
  beta_reduce at hU
  simp only [bind_assoc, pure_bind]
  refine σ.agrees_declare he hrest.below hv hat.head (hU.imp_right fun h ↦ by omega)
    fun j x hj ↦ ?_
  exact hrest.on (by omega) (hU.imp_right fun h ↦ by omega) (some x)

end Flat

def Placed (σ : Stage U V) (loops : List Exits) : Prop :=
  ∀ l, IsExit loops l → ∃ i, Run.place? σ.code l = some i

theorem Placed.cons {s : Statement} (h : σ.Placed loops) (hs : σ.Proper s)
    (hx : s.exits = [x.leave, x.again]) : σ.Placed (x :: loops) := by
  intro l hl
  rcases Code.isExit_cons.mp hl with hl | hl
  · refine (hs.targets l ?_).2
    rw [hx]
    rcases hl with rfl | rfl <;> simp
  · exact h l hl

mutual

theorem matches_statement (σ : Stage U V) : (s : Statement) → {loops : List Exits} → {u : Supply} →
    s.JumpsInside loops → σ.Placed loops → (∀ t ∈ s.nodes, σ.Proper t) → σ.first ≤ u.nextSymbol →
      (s.flatten u).2.nextSymbol ≤ σ.bound →
        σ.Matches loops u.nextSymbol (s.flatten u).1 (fun n ↦ s.cost n) fun n last ↦
          Nested.statement σ.limits σ.nested n s last
  | .block ss, loops, u, hin, hp, hs, hfirst, hbound =>
    matches_statements σ ss hin hp (fun t ht ↦ hs t (List.mem_cons_of_mem _ ht)) hfirst hbound
  | .ifThen e s, loops, u, hin, hp, hs, hfirst, hbound => by
    obtain ⟨he, hs⟩ := List.forall_mem_cons.mp hs
    exact matches_ifThen he.uses (σ.made _)
      (matches_statement σ s (u := u.skip 1) hin hp hs hfirst hbound)
  | .ifElse e s s', loops, u, hin, hp, hs, hfirst, hbound => by
    obtain ⟨he, hs⟩ := List.forall_mem_cons.mp hs
    obtain ⟨hs, hs'⟩ := List.forall_mem_append.mp hs
    have hle := s.nextSymbol_le (u.skip 2)
    have hle' := s'.nextSymbol_le (s.flatten (u.skip 2)).2
    exact matches_ifElse he.uses hle (σ.made _) (σ.made _)
      (matches_statement σ s (u := u.skip 2) hin.1 hp hs hfirst (Nat.le_trans hle' hbound))
      (matches_statement σ s' hin.2 hp hs' (Nat.le_trans hfirst hle) hbound)
  | .whileLoop e s x, loops, u, hin, hp, hs, hfirst, hbound => by
    obtain ⟨he, hs⟩ := List.forall_mem_cons.mp hs
    exact matches_whileLoop he.uses (he.targets x.leave (by simp [Statement.exits])).1
      (he.targets x.again (by simp [Statement.exits])).1 (σ.made _)
      (matches_statement σ s (u := u.skip 1) hin (hp.cons he rfl) hs hfirst hbound)
  | .doLoop s e x, loops, u, hin, hp, hs, hfirst, hbound => by
    obtain ⟨he, hs⟩ := List.forall_mem_cons.mp hs
    exact matches_doLoop he.uses (he.targets x.leave (by simp [Statement.exits])).1
      (he.targets x.again (by simp [Statement.exits])).1 (σ.made _)
      (matches_statement σ s (u := u.skip 1) hin (hp.cons he rfl) hs hfirst hbound)
  | .forLoop v lower upper s x, loops, u, hin, hp, hs, hfirst, hbound => by
    obtain ⟨he, hs⟩ := List.forall_mem_cons.mp hs
    obtain ⟨hv, huses⟩ := List.forall_mem_cons.mp he.uses
    obtain ⟨hlower, hupper⟩ := List.forall_mem_append.mp huses
    have hle := s.nextSymbol_le ((makeUpperBound v u).2.skip 2)
    exact matches_forLoop hv (he.counters v rfl) hlower hupper
      (he.targets x.leave (by simp [Statement.exits])).1
      (he.targets x.again (by simp [Statement.exits])).1 (σ.made _) (σ.made _) hfirst
      (Nat.lt_of_lt_of_le (Nat.lt_of_lt_of_le (Nat.lt_succ_self _) hle) hbound)
      (matches_statement σ s (u := (makeUpperBound v u).2.skip 2) hin (hp.cons he rfl) hs
        (Nat.le_succ_of_le hfirst) hbound)
  | .declare v e, loops, u, _, _, hs, _, _ => by
    obtain ⟨hv, he⟩ := List.forall_mem_cons.mp (hs _ List.mem_cons_self).uses
    exact matches_declare he hv
  | .label l, loops, u, _, _, _, _, _ => matches_label
  | .goto l, loops, u, hin, hp, _, _, _ => by
    obtain ⟨i, hi⟩ := hp l hin
    exact matches_goto hin hi
  | .gotoIf l e negated, loops, u, hin, hp, hs, _, _ => by
    obtain ⟨i, hi⟩ := hp l hin
    exact matches_gotoIf (hs _ List.mem_cons_self).uses hin hi
  | .leave none, loops, u, _, _, _, _, _ => matches_leave
  | .leave (some e), loops, u, _, _, hs, _, _ => matches_return (hs _ List.mem_cons_self).uses
  | .expression e, loops, u, _, _, hs, _, _ => matches_expression (hs _ List.mem_cons_self).uses

theorem matches_statements (σ : Stage U V) : (ss : List Statement) → {loops : List Exits} →
    {u : Supply} → Code.AllJumpInside loops ss → σ.Placed loops → (∀ t ∈ nodesAll ss, σ.Proper t) →
      σ.first ≤ u.nextSymbol → (flattenAll ss u).2.nextSymbol ≤ σ.bound →
        σ.Matches loops u.nextSymbol (flattenAll ss u).1 (fun n ↦ Code.costAll n ss) fun n last ↦
          Nested.statements σ.limits σ.nested n ss last
  | [], loops, u, _, _, _, _, _ => matches_nil u.nextSymbol
  | s :: rest, loops, u, hin, hp, hs, hfirst, hbound => by
    obtain ⟨hs, hrest⟩ := List.forall_mem_append.mp hs
    have hle := s.nextSymbol_le u
    have hle' := Code.nextSymbol_le_all rest (s.flatten u).2
    exact matches_append hle
      (matches_statement σ s hin.1 hp hs hfirst (Nat.le_trans hle' hbound))
      (matches_statements σ rest hin.2 hp hrest (Nat.le_trans hfirst hle) hbound)

end

end Stage

end SmallScript
