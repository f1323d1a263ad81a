import SmallScript.Proofs.Lowered
import SmallScript.Proofs.Run.Counting

namespace SmallScript

open Code (Statement Body Expression nodesAll declaredBy flattenAll flattenBody makeUpperBound)
open Run (Walk Turns Takes Turning Within Around Ranged)

namespace Code

theorem getElem?_between (x y z : Body) {j : Nat} (hj : j < y.length) : (x ++ y ++ z)[x.length + j]? = y[j]? := by
  rw [List.append_assoc, List.getElem?_append_right (Nat.le_add_right _ _), Nat.add_sub_cancel_left,
    List.getElem?_append_left hj]

theorem ranged_flatten {v : Variable} {lower upper : Expression} {s : Statement} {x : Exits} {u : Supply}
    {before after turn b : Body} (hturn : turn = (s.flatten ((makeUpperBound v u).2.skip 2)).1)
    (hb : b = before ++ ((Statement.forLoop v lower upper s x).flatten u).1 ++ after) (hlabels : b.labels.Nodup)
    (hv : turn.Spares v) (hbound : turn.Spares (makeUpperBound v u).1) (hne : v ≠ (makeUpperBound v u).1) :
    Ranged b v (makeUpperBound v u).1 (before.length + 2) (before.length + 4) (before.length + 4 + turn.length) := by
  let front : Body := [.declare v lower, .declare (makeUpperBound v u).1 upper, .goto (u.label 0), .label (u.label 1)]
  let back : Body := [.label x.again, increment v, .label (u.label 0),
    .gotoIf (u.label 1) (atMost v (makeUpperBound v u).1) false, .label x.leave]
  obtain rfl : b = before ++ (front ++ turn ++ back) ++ after := by
    rw [hb, flatten_forLoop, ← hturn]
    simp [flatWhile, front, back]
  have hplace {l : Label} {j : Nat} (hj : (before ++ (front ++ turn ++ back) ++ after)[j]? = some (.label l)) :
      Run.place? (before ++ (front ++ turn ++ back) ++ after) l = some (j + 1) :=
    Run.place?_of_count (List.nodup_iff_count_le_one.mp hlabels l) hj
  have hfront {j : Nat} (hj : j < 4) :
      (before ++ (front ++ turn ++ back) ++ after)[before.length + j]? = front[j]? := by
    rw [getElem?_between _ _ _ (by simp [front]; omega), List.append_assoc, List.getElem?_append_left hj]
  have hback {j : Nat} (hj : j < 5) :
      (before ++ (front ++ turn ++ back) ++ after)[before.length + 4 + turn.length + j]? = back[j]? := by
    have hlength : before.length + 4 + turn.length = (before ++ front ++ turn).length := by
      simp [front]
      omega
    rw [hlength, ← List.append_assoc before, ← List.append_assoc before]
    exact getElem?_between _ _ _ hj
  have hmiddle {j : Nat} (hj : j < turn.length) :
      (before ++ (front ++ turn ++ back) ++ after)[before.length + 4 + j]? = turn[j]? := by
    have hlength : before.length + 4 = (before ++ front).length := by simp [front]
    rw [hlength, ← List.append_assoc before, ← List.append_assoc before, List.append_assoc (before ++ front ++ turn)]
    exact getElem?_between _ _ _ hj
  refine ⟨by omega, Nat.le_add_right _ _, ⟨_, hfront (by decide), hplace (hback (j := 2) (by decide))⟩,
    ⟨_, hback (j := 0) (by decide)⟩, hback (j := 1) (by decide), ⟨_, hback (j := 2) (by decide)⟩,
    ⟨_, hback (j := 3) (by decide), hplace (hfront (j := 3) (by decide))⟩, ⟨_, hback (j := 4) (by decide)⟩,
    fun j t ⟨hlo, hhi⟩ ht ↦ ?_, hne⟩
  obtain ⟨k, rfl⟩ := Nat.exists_eq_add_of_le hlo
  rw [hmiddle (by omega)] at ht
  have hmem := List.mem_of_getElem? ht
  exact ⟨hv.not_mem_assigned hmem, hbound.not_mem_assigned hmem⟩

/-- The flat code of a loop over a range stands in the body, and keeps the variable and its bound. -/
theorem Lowered.exists_ranged {kind : Variable.Kind} {n m : Nat} {ss : List Statement} {b : Body}
    (h : Lowered kind n m ss b) {v : Variable} {lower upper : Expression} {s : Statement} {x : Exits}
    (hloop : .forLoop v lower upper s x ∈ nodesAll ss) :
    ∃ before u after, b = before ++ ((Statement.forLoop v lower upper s x).flatten u).1 ++ after ∧
      v.readOnly = true ∧ v ∉ upper.assigned ∧
      Ranged b v (makeUpperBound v u).1 (before.length + 2) (before.length + 4)
        (before.length + 4 + (s.flatten ((makeUpperBound v u).2.skip 2)).1.length) := by
  have hlabels := h.closed.nodup
  obtain ⟨k, hintroduced, rfl, -, -⟩ := h.body
  have hparts := forall_nodesAll (M := fun t ↦ t.nodes <:+: nodesAll ss ∧
    t.Of (fun _ ↦ True) (·.Assigns (·.readOnly = false)) ∧
    ∃ u, k ≤ u.nextSymbol ∧ (t.flatten u).1 <:+: (flattenBody ss k).1)
    (fun t ⟨hnodes, hof, u, hk, hflat⟩ part hpart ↦ by
      obtain ⟨u', hle, hin⟩ := Statement.flatten_infix hpart u
      exact ⟨(Statement.nodes_infix hpart).trans hnodes, hof.parts hpart, u', Nat.le_trans hk hle, hin.trans hflat⟩)
    ss fun t ht ↦ by
      obtain ⟨u, hle, hin⟩ := flatten_infix_flattenAll ht ⟨0, k⟩
      exact ⟨nodes_infix_nodesAll ht, allOf_iff.mp h.assigns t ht, u, hle, hin⟩
  obtain ⟨hnodes, ⟨-, ⟨-, hupper⟩, hbody⟩, u, hk, before, after, hflat⟩ := hparts _ hloop
  have hfixed : v.readOnly = true := hintroduced.counters _ hloop v rfl
  have hsub : (v :: declaredBy s.nodes).Sublist (declaredBy (nodesAll ss)) :=
    hnodes.sublist.filterMap Statement.declared?
  have hnodup := List.nodup_cons.mp (hintroduced.nodup.sublist hsub)
  have hid {w : Variable} (hw : w ∈ v :: declaredBy s.nodes) : w.id < u.nextSymbol :=
    Nat.lt_of_lt_of_le (hintroduced.numbered w (hsub.subset hw)).2.2 hk
  have hspared {w : Variable} (hw : w ∉ declaredBy s.nodes) (hfixed : w.readOnly = true)
      (hlt : w.id < u.nextSymbol + 1) : Body.Spares w (s.flatten ((makeUpperBound v u).2.skip 2)).1 :=
    Statement.spares_flatten (Statement.Of.mono (fun _ ↦ id) (fun e he ↦ he.ne_of_readOnly hfixed) s hbody) hw hlt
  have hnew {w : Variable} (hw : w ∈ v :: declaredBy s.nodes) : w ≠ (makeUpperBound v u).1 := by
    rintro rfl
    exact absurd (hid hw) (Nat.lt_irrefl _)
  have hbound : v ∉ upper.assigned := fun hv ↦ Expression.Assigns.ne_of_readOnly hupper hfixed v hv rfl
  refine ⟨before, u, after, hflat.symm, hfixed, hbound, ranged_flatten rfl hflat.symm hlabels ?_ ?_ ?_⟩
  · exact hspared hnodup.1 hfixed (Nat.lt_succ_of_lt (hid List.mem_cons_self))
  · exact hspared (fun hw ↦ hnew (List.mem_cons_of_mem v hw) rfl) rfl (Nat.lt_succ_self _)
  · exact hnew List.mem_cons_self

end Code

theorem Run.get?_of_declare {limits : Limits} {invoke : Run.Invoke} {b : Body} {p : Run.Point} {v : Variable}
    {e : Expression} {j : Nat} {x : Value} {m : Machine}
    (h : Run.carryOut limits invoke b p (.declare v e) = .ok (.at j (some x)) m) : m.get? v = some x := by
  obtain ⟨_, m₁, -, h⟩ := Run.bind_eq_ok h
  obtain ⟨o, m₂, -, h⟩ := Run.bind_eq_ok h
  obtain ⟨y, m₃, -, h⟩ := Run.bind_eq_ok h
  cases h
  exact Machine.get?_set_self ..

namespace Compilation

section

attribute [local irreducible] ofText

variable {c : Compilation} {earlier : List Compilation}

/-- In a chain of texts without reports, take any loop over a range, its flat code in the body it belongs to, and a
run that enters it with the values `L` and `U` of its bounds. If each turn through the body of the loop comes to its
end, or goes on with the next one, and the limit on steps is not met, there is one turn for each number from `L` to
`U`, in their order, and then the run is behind the loop. The one exception is the greatest number as `U`: then the
variable is never above it, there are as many turns as one likes, and no run ends. -/
theorem Chain.loop_counts (h : Chain c earlier) (hclean : ∀ d ∈ c :: earlier, d.tree.reports = [])
    (hobstacles : c.obstacles = []) {ss : List Statement} {b : Body} (hb : c.Lowers ss b) {v : Variable}
    {lower upper : Expression} {s : Statement} {x : Exits} (hloop : .forLoop v lower upper s x ∈ nodesAll ss) :
    ∃ before u after, b = before ++ ((Statement.forLoop v lower upper s x).flatten u).1 ++ after ∧
      let i := before.length
      let hi := i + 4 + (s.flatten ((makeUpperBound v u).2.skip 2)).1.length
      ∀ (limits : Limits) (n : Nat) (last : Option Value) (m m₁ m₂ : Machine) (L U : Int32),
        let invoke := Run.call c.program limits n
        let entry : Run.Point := ⟨m₂, i + 2, some (.int U)⟩
        Run.carryOut limits invoke b ⟨m, i, last⟩ (.declare v lower) = .ok (.at (i + 1) (some (.int L))) m₁ →
        Run.carryOut limits invoke b ⟨m₁, i + 1, some (.int L)⟩ (.declare (makeUpperBound v u).1 upper) =
          .ok (.at (i + 2) (some (.int U))) m₂ →
        Turning limits invoke b (i + 2) (i + 4) hi entry →
        (U ≠ .maxValue → ∃ r t d,
          Turns limits invoke b v (i + 2) (i + 4) hi
            ((List.range (U.toInt - L.toInt + 1).toNat).map fun j : Nat ↦ Int32.ofInt (L.toInt + j)) entry r ∧
          Walk limits invoke b (Around (i + 2) (i + 4) hi) r t ∧ t.index = hi + 5 ∧
          Takes limits invoke b d entry t) ∧
        (U = .maxValue → ∀ N : Nat, (∃ r,
          Turns limits invoke b v (i + 2) (i + 4) hi
            ((List.range N).map fun j : Nat ↦ Int32.ofInt (L.toInt + j)) entry r) ∧
          ∃ m', Run.body limits invoke b N entry.index entry.last entry.machine = .error .unfinished m') := by
  obtain ⟨_, _, _, hlowered⟩ := h.lowered hclean hobstacles hb
  obtain ⟨before, u, after, hflat, hfixed, hupper, hranged⟩ := hlowered.exists_ranged hloop
  refine ⟨before, u, after, hflat, ?_⟩
  intro i hi limits n last m m₁ m₂ L U invoke entry hlowers huppers hturning
  have hspares := h.spares hclean hobstacles hfixed
  have hassigned : v ∉ (Statement.declare (makeUpperBound v u).1 upper).assigned := fun hv ↦
    (List.mem_cons.mp hv).elim hranged.apart hupper
  have hkept := (Program.value_after_step hspares huppers hassigned).2
  exact hranged.counts hspares (h.spares hclean hobstacles rfl) hturning rfl
    ⟨hkept.trans (Run.get?_of_declare hlowers), Run.get?_of_declare huppers⟩

end

/-- A loop that prints three times. -/
theorem Chain.loop_counts_three :
    let c := ofText "for i = 1 to 3 \x7b print(\"x\") \x7d" [] 3
    let limits : Limits := ⟨none, none, id⟩
    ∃ i entry r t d, Turns limits (Run.call c.program limits 9) c.program.main ⟨3, "i", .global, .int, true⟩
        (i + 2) (i + 4) (i + 5) [1, 2, 3] entry r ∧
      Walk limits (Run.call c.program limits 9) c.program.main (Around (i + 2) (i + 4) (i + 5)) r t ∧
      t.index = i + 10 ∧ Takes limits (Run.call c.program limits 9) c.program.main d entry t := by
  intro c limits
  have hchain : Chain c [] := .first _ (by decide)
  have hc : c = ofTree (.ofChars _) [] 3 := ofText_ofList ..
  have hclean : ∀ d ∈ [c], d.tree.reports = [] := by
    rw [List.forall_mem_singleton, hc]
    decide +kernel
  have hobstacles : c.obstacles = [] := by
    rw [hc]
    decide +kernel
  have hstatements : (layerOf "for i = 1 to 3 \x7b print(\"x\") \x7d" [] 3).statements =
      [.forLoop ⟨3, "i", .global, .int, true⟩ (.literal (.int 1)) (.literal (.int 3))
        (.block [.expression (.call Builtin.print.function [.literal (.string "x")])]) ⟨.breakOf 1, .continueOf 1⟩] := by
    rw [layerOf, Tree.ofText_ofList]
    rfl
  have hloop : .forLoop ⟨3, "i", .global, .int, true⟩ (.literal (.int 1)) (.literal (.int 3))
      (.block [.expression (.call Builtin.print.function [.literal (.string "x")])]) ⟨.breakOf 1, .continueOf 1⟩ ∈
      nodesAll (layerOf "for i = 1 to 3 \x7b print(\"x\") \x7d" [] 3).statements := by
    rw [hstatements]
    exact List.mem_cons_self
  have hlayer : layerOf "for i = 1 to 3 \x7b print(\"x\") \x7d" [] 3 ∈ c.layer? :=
    congrArg List.head? (layers_ofText _ [] 3)
  obtain ⟨before, u, after, hb, hrun⟩ := hchain.loop_counts hclean hobstacles (.main hlayer) hloop
  have hbody : c.program.main[before.length + 4]? =
      some (.expression (.call Builtin.print.function [.literal (.string "x")])) := by
    rw [hb]
    exact Code.getElem?_between before _ after (j := 4) (show 4 < 10 by decide)
  have hturning (entry : Run.Point) : Turning limits (Run.call c.program limits 9) c.program.main (before.length + 2)
      (before.length + 4) (before.length + 5) entry := by
    refine ⟨fun _ _ k hk ↦ absurd hk (Option.not_mem_none k),
      fun q _ hq ↦ ⟨_, .one ⟨Nat.le_of_eq hq.symm, ?_⟩ (hq ▸ hbody) rfl, ?_⟩⟩
    · exact Nat.lt_of_le_of_lt (Nat.le_of_eq hq) (Nat.lt_succ_self _)
    · exact .inl (congrArg (· + 1) hq)
  obtain ⟨r, t, d, hturns, hwalk, hindex, htakes⟩ :=
    (hrun limits 9 none (.start .empty ⟨[], #[]⟩) _ _ 1 3 rfl rfl (hturning _)).1 (by decide)
  exact ⟨_, _, r, t, d, hturns, hwalk, hindex, htakes⟩

/-- The loop prints without end, although its range is a single number. -/
theorem counts_past_greatest :
    let c := first "function f() \x7b for i = 2147483647 to 2147483647 \x7b print(\"x\") \x7d \x7d f()"
    let e := c.evaluate ⟨some 100, none, id⟩ 101 .empty ⟨[], #[]⟩
    c.obstacles = [] ∧ (e.outcome matches .failed (.stepLimitExceeded 100)) ∧ 1 < e.console.output.size := by
  intro c
  have hc : c = ofTree (.ofChars _) [] Builtin.firstFree := first_ofList ..
  rw [hc]
  decide +kernel

end Compilation

end SmallScript
