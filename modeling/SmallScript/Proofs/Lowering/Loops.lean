import SmallScript.Proofs.Lowering.Stage

namespace SmallScript

open Code (Statement Body Expression Supply flattenAll nodesAll makeUpperBound IsExit)
open Nested (Ending)
open Run (Paired)

namespace Code

mutual

/-- A bound on the statements of flat code that a statement takes, if no loop makes more than `n`
tests. -/
def Statement.cost (n : Nat) : Statement → Nat
  | .block ss => costAll n ss
  | .ifThen _ s => s.cost n + 2
  | .ifElse _ s s' => s.cost n + s'.cost n + 3
  | .whileLoop _ s _ => n * (s.cost n + 2) + 3
  | .doLoop s _ _ => (n + 1) * (s.cost n + 2) + 3
  | .forLoop _ _ _ s _ => n * (s.cost n + 4) + 5
  | .declare _ _ | .label _ | .goto _ | .gotoIf _ _ _ | .leave _ | .expression _ => 1

def costAll (n : Nat) : List Statement → Nat
  | [] => 0
  | s :: rest => s.cost n + costAll n rest

end

mutual

theorem Statement.cost_mono {n n' : Nat} (h : n ≤ n') : (s : Statement) → s.cost n ≤ s.cost n'
  | .block ss => costAll_mono h ss
  | .ifThen _ s => by
    have ih := s.cost_mono h
    simp only [Statement.cost]
    omega
  | .ifElse _ s s' => by
    have ih := s.cost_mono h
    have ih' := s'.cost_mono h
    simp only [Statement.cost]
    omega
  | .whileLoop _ s _ => by
    have ih := Nat.mul_le_mul h (Nat.add_le_add_right (s.cost_mono h) 2)
    simp only [Statement.cost]
    omega
  | .doLoop s _ _ => by
    have ih := Nat.mul_le_mul (Nat.succ_le_succ h) (Nat.add_le_add_right (s.cost_mono h) 2)
    simp only [Statement.cost, Nat.succ_eq_add_one] at ih ⊢
    omega
  | .forLoop _ _ _ s _ => by
    have ih := Nat.mul_le_mul h (Nat.add_le_add_right (s.cost_mono h) 4)
    simp only [Statement.cost]
    omega
  | .declare _ _ | .label _ | .goto _ | .gotoIf _ _ _ | .leave _ | .expression _ => Nat.le_refl 1

theorem costAll_mono {n n' : Nat} (h : n ≤ n') : (ss : List Statement) → costAll n ss ≤ costAll n' ss
  | [] => Nat.le_refl 0
  | s :: rest => Nat.add_le_add (s.cost_mono h) (costAll_mono h rest)

end

end Code

def Nested.Ending.Within (loops : List Exits) : Ending → Prop
  | .jump l _ => IsExit loops l
  | _ => True

namespace Stage

variable {U V : Prop} (σ : Stage U V)

structure Proper (s : Statement) : Prop where
  uses : ∀ v ∈ s.vars, σ.taken v
  counters : ∀ v, s.counter? = some v → σ.counter v
  targets : ∀ l ∈ s.exits, σ.target l ∧ ∃ i, Run.place? σ.code l = some i

def Free (K : Kept) (next : Nat) : Prop :=
  ∀ v u, σ.counter v → ∀ q ∈ K.place (makeUpperBound v u).1, q.1.id < next

/-- What is known of the flat code behind a statement that ends at the place `q`, as long as at least
`r` statements more may be run. -/
structure Rest (K : Kept) (S : Machine → Machine → Prop) (loops : List Exits) (k r q : Nat)
    (C : Ending → Run (Option Value)) : Prop where
  below : σ.Below K S
  ends : ∀ j ≤ k, U ∨ r ≤ j → ∀ e : Ending, e.Within loops → σ.Agrees K S (σ.resume j q e) (C e)

/-- Wherever it stands, flat code ends like a run of nested code, which takes at most `c n` statements
of it. -/
def Matches (loops : List Exits) (next : Nat) (b : Body) (c : Nat → Nat)
    (run : Nat → Option Value → Run Ending) : Prop :=
  ∀ {K S k n r p last C}, At σ.code p b → σ.Free K next → σ.Rest K S loops k r (p + b.length) C →
    U ∨ c n + r ≤ k → V ∨ k ≤ n → σ.Agrees K S (σ.run k p last) (run n last >>= C)

variable {σ} {K : Kept} {S : Machine → Machine → Prop} {loops : List Exits} {k n r q : Nat}
variable {C : Ending → Run (Option Value)} {next : Nat} {b : Body} {c : Nat → Nat}
variable {run : Nat → Option Value → Run Ending} {x : Exits} {last : Option Value}

theorem Free.mono (h : σ.Free K next) {next' : Nat} (hle : next ≤ next') : σ.Free K next' :=
  fun v u hv q hq ↦ Nat.lt_of_lt_of_le (h v u hv q hq) hle

theorem Rest.on (h : σ.Rest K S loops k r q C) {j : Nat} (hj : j ≤ k) (hr : U ∨ r ≤ j)
    (last : Option Value) : σ.Agrees K S (σ.run j q last) (C (.on last)) :=
  h.ends j hj hr (.on last) trivial

theorem Rest.jump (h : σ.Rest K S loops k r q C) {j : Nat} (hj : j ≤ k) (hr : U ∨ r ≤ j) {l : Label}
    (hl : IsExit loops l) {i : Nat} (hplace : Run.place? σ.code l = some i) (last : Option Value) :
    σ.Agrees K S (σ.run j i last) (C (.jump l last)) := by
  have hends := h.ends j hj hr (.jump l last) hl
  simp only [resume, σ.target_of_place hplace, pure_bind] at hends
  exact hends

/-- The end of a loop's body: it goes on with the loop, leaves it, or leaves loops around it. -/
theorem agrees_round (hb : σ.Matches (x :: loops) next b c run) (hfree : σ.Free K next) {a : Nat}
    (hat : At σ.code a b) (hlabel : σ.code[a + b.length]? = some (.label x.again))
    (hagain : Run.place? σ.code x.again = some (a + b.length + 1))
    (hleave : Run.place? σ.code x.leave = some q) (hrest : σ.Rest K S loops k r q C) {j w : Nat}
    (hj : j ≤ k) (hr : r ≤ w) (hU : U ∨ c n + 1 + w ≤ j) (hV : V ∨ j ≤ n)
    {again : Option Value → Run Ending}
    (h : ∀ i ≤ j, U ∨ w ≤ i → ∀ last,
      σ.Agrees K S (σ.run i (a + b.length + 1) last) (again last >>= C)) :
    σ.Agrees K S (σ.run j a last) ((run n last >>= Nested.follow x again) >>= C) := by
  rw [bind_assoc]
  refine hb (r := w + 1) hat hfree ⟨hrest.below, fun i hi hir e he ↦ ?_⟩
    (hU.imp_right fun h ↦ by omega) hV
  have hiw : U ∨ r ≤ i := hir.imp_right fun h ↦ by omega
  cases e with
  | on last =>
    refine σ.agrees_label hlabel (hir.imp_right fun h ↦ by omega) ?_
    intro i' hi'
    exact h i' (by omega) (hir.imp_right fun h ↦ by omega) last
  | done result =>
    exact hrest.ends i (by omega) hiw (.done result) trivial
  | jump l last =>
    simp only [Nested.follow]
    by_cases hagain' : l = x.again
    · subst hagain'
      simp only [if_true, resume, σ.target_of_place hagain, pure_bind]
      exact h i hi (hir.imp_right fun h ↦ by omega) last
    · rw [if_neg hagain']
      by_cases hleave' : l = x.leave
      · subst hleave'
        simp only [if_true, resume, σ.target_of_place hleave, pure_bind]
        exact hrest.on (by omega) hiw last
      · rw [if_neg hleave', pure_bind]
        apply hrest.ends i (by omega) hiw (.jump l last)
        rcases Code.isExit_cons.mp he with (h | h) | h
        · exact absurd h hleave'
        · exact absurd h hagain'
        · exact h

theorem agrees_turns {g a d : Nat} {start l : Label} {condition : Expression} {test : Run Bool}
    {round : (Option Value → Run Ending) → Option Value → Run Ending}
    (htest : Paired U V σ.taken K (Nested.test σ.limits σ.flat condition) test)
    (hgoto : σ.code[g]? = some (.gotoIf start condition false))
    (hstart : Run.place? σ.code start = some a) (hlabel : σ.code[g + 1]? = some (.label l))
    (hrest : σ.Rest K S loops k r (g + 2) C)
    (hround : ∀ j r' go, j ≤ k → r ≤ r' → U ∨ d + r' ≤ j + 1 → V ∨ j ≤ n →
      (∀ i ≤ j, U ∨ r' ≤ i → ∀ last, σ.Agrees K S (σ.run i g last) (go last >>= C)) →
        ∀ last, σ.Agrees K S (σ.run j a last) (round go last >>= C)) (t : Nat) (ht : t ≤ n) :
    ∀ j last, j ≤ k → U ∨ t * d + 2 + r ≤ j → V ∨ j ≤ t →
      σ.Agrees K S (σ.run j g last) (Nested.turns test round t last >>= C) := by
  induction t with
  | zero =>
    intro j last hj hU hV
    rcases hV with hV | hV
    · exact .right hV _
    · obtain rfl := Nat.le_zero.mp hV
      rcases hU with hU | hU
      · exact .left hU _
      · omega
  | succ t ih =>
    intro j last hj hU hV
    rw [Nat.succ_mul] at hU
    simp only [Nested.turns, bind_assoc]
    refine σ.agrees_gotoIf hrest.below htest hgoto (hU.imp_right fun h ↦ by omega) hstart
      fun i goes hi ↦ ?_
    cases goes with
    | true =>
      refine hround i (t * d + 2 + r) (Nested.turns test round t) (by omega) (by omega)
        (hU.imp_right fun h ↦ by omega) (hV.imp_right fun h ↦ by omega) (fun i' hi' hir last ↦ ?_)
        last
      exact ih (by omega) i' last (by omega) hir (hV.imp_right fun h ↦ by omega)
    | false =>
      refine σ.agrees_label hlabel (hU.imp_right fun h ↦ by omega) ?_
      intro i' hi'
      simp only [Bool.false_eq_true, if_false, pure_bind]
      exact hrest.on (by omega) (hU.imp_right fun h ↦ by omega) last

section Loops

variable {p : Nat} {start : Label} {e : Expression}

theorem at_flatWhile {code : Body} (h : At code p (Code.flatWhile start e b x)) :
    code[p]? = some (.goto x.again) ∧ code[p + 1]? = some (.label start) ∧ At code (p + 2) b ∧
      At code (p + 2 + b.length) [.label x.again, .gotoIf start e false, .label x.leave] := by
  refine ⟨h.left.left.head, h.left.left.tail.head, h.left.right, ?_⟩
  have hend := h.right
  rw [List.length_append, ← Nat.add_assoc] at hend
  exact hend

theorem at_flatDo {code : Body} (h : At code p (Code.flatDo start b e x)) :
    code[p]? = some (.label start) ∧ At code (p + 1) b ∧
      At code (p + 1 + b.length) [.label x.again, .gotoIf start e false, .label x.leave] := by
  have h' : At code p ([.label start] ++ b ++ [.label x.again, .gotoIf start e false,
    .label x.leave]) := h
  refine ⟨h'.left.left.head, h'.left.right, ?_⟩
  have hend := h'.right
  rw [List.length_append, ← Nat.add_assoc] at hend
  exact hend

variable (he : ∀ v ∈ e.vars, σ.taken v) (hleave : σ.target x.leave) (hagain : σ.target x.again)
  (hmade : σ.target start)
include he hleave hagain hmade

theorem matches_whileLoop (hb : σ.Matches (x :: loops) next b c run) :
    σ.Matches loops next (Code.flatWhile start e b x) (fun n ↦ n * (c n + 2) + 3) fun n last ↦
      Nested.turns (Nested.test σ.limits σ.nested e) (fun go last ↦ run n last >>= Nested.follow x go)
        n last := by
  intro K S k n r p last C hat hfree hrest hU hV
  beta_reduce at hU
  obtain ⟨hgoto, hstart, hbody, hend⟩ := at_flatWhile hat
  have hq : p + (Code.flatWhile start e b x).length = p + 2 + b.length + 1 + 2 := by
    simp [Code.flatWhile]
    omega
  rw [hq] at hrest
  have hplace := σ.place _ _ hagain hend.head
  refine σ.agrees_goto hgoto (hU.imp_right fun h ↦ by omega) hplace ?_
  intro j hj
  refine agrees_turns (d := c n + 2) (k := k) (σ.agrees_test he) hend.tail.head
    (σ.place _ _ hmade hstart) hend.tail.tail.head hrest (fun j r' go hj hr hU hV h last ↦ ?_) n
    (Nat.le_refl n) j last (by omega) (hU.imp_right fun h ↦ by omega) (hV.imp_right fun h ↦ by omega)
  exact agrees_round hb hfree hbody hend.head hplace (σ.place _ _ hleave hend.tail.tail.head) hrest
    hj hr (hU.imp_right fun h ↦ by omega) hV h

theorem matches_doLoop (hb : σ.Matches (x :: loops) next b c run) :
    σ.Matches loops next (Code.flatDo start b e x) (fun n ↦ (n + 1) * (c n + 2) + 3) fun n last ↦
      run n last >>= Nested.follow x (Nested.turns (Nested.test σ.limits σ.nested e)
        (fun go last ↦ run n last >>= Nested.follow x go) n) := by
  intro K S k n r p last C hat hfree hrest hU hV
  beta_reduce at hU
  obtain ⟨hstart, hbody, hend⟩ := at_flatDo hat
  have hq : p + (Code.flatDo start b e x).length = p + 1 + b.length + 1 + 2 := by
    simp [Code.flatDo]
    omega
  rw [hq] at hrest
  rw [Nat.succ_mul] at hU
  have hplace := σ.place _ _ hagain hend.head
  have hround (j r' : Nat) (go : Option Value → Run Ending) (hj : j ≤ k) (hr : r ≤ r')
      (hU : U ∨ c n + 2 + r' ≤ j + 1) (hV : V ∨ j ≤ n)
      (h : ∀ i ≤ j, U ∨ r' ≤ i → ∀ last,
        σ.Agrees K S (σ.run i (p + 1 + b.length + 1) last) (go last >>= C)) (last : Option Value) :
      σ.Agrees K S (σ.run j (p + 1) last) ((run n last >>= Nested.follow x go) >>= C) :=
    agrees_round hb hfree hbody hend.head hplace (σ.place _ _ hleave hend.tail.tail.head) hrest
      hj hr (hU.imp_right fun h ↦ by omega) hV h
  have hturns := agrees_turns (d := c n + 2) (k := k) (σ.agrees_test he) hend.tail.head
    (σ.place _ _ hmade hstart) hend.tail.tail.head hrest hround n (Nat.le_refl n)
  refine σ.agrees_label hstart (hU.imp_right fun h ↦ by omega) ?_
  intro j hj
  refine hround j (n * (c n + 2) + 2 + r) _ (by omega) (by omega) (hU.imp_right fun h ↦ by omega)
    (hV.imp_right fun h ↦ by omega) (fun i hi hir last ↦ ?_) last
  exact hturns i last (by omega) hir (hV.imp_right fun h ↦ by omega)

end Loops

theorem Rest.keep (h : σ.Rest K S loops k r q C) (v : Variable) (y : Value) :
    σ.Rest (K.add v y) S loops k r q C :=
  ⟨fun m m' hm ↦ h.below m m' hm.of_add,
    fun j hj hr e he ↦ (h.ends j hj hr e he).of_left fun _ _ hm ↦ hm.of_add⟩

theorem Free.keep {v : Variable} {u : Supply} (h : σ.Free K u.nextSymbol) (y : Value) :
    σ.Free (K.add (makeUpperBound v u).1 y) (u.nextSymbol + 1) := by
  intro w u' hw q hq
  rcases Kept.of_mem_place_add hq with rfl | hq
  · exact Nat.lt_succ_self u.nextSymbol
  · exact Nat.lt_succ_of_lt (h w u' hw q hq)

theorem matches_forLoop {v : Variable} {lower upper : Expression} {u : Supply} {start test : Label}
    (hv : σ.taken v) (hcounter : σ.counter v) (hlower : ∀ w ∈ lower.vars, σ.taken w)
    (hupper : ∀ w ∈ upper.vars, σ.taken w) (hleave : σ.target x.leave)
    (hagain : σ.target x.again) (hstart : σ.target start) (htest : σ.target test)
    (hfirst : σ.first ≤ u.nextSymbol) (hbound : u.nextSymbol < σ.bound)
    (hb : σ.Matches (x :: loops) (u.nextSymbol + 1) b c run) :
    σ.Matches loops u.nextSymbol
      ([.declare v lower, .declare (makeUpperBound v u).1 upper]
        ++ Code.flatWhile start (Code.atMost v (makeUpperBound v u).1)
          (b ++ [.label x.again, Code.increment v]) ⟨x.leave, test⟩)
      (fun n ↦ n * (c n + 4) + 5) (fun n _ ↦ do
        let _ ← Nested.assign σ.limits σ.nested v lower
        let y ← Run.need (← Run.evaluate σ.limits σ.nested upper)
        Nested.turns (Nested.atMost v y)
          (fun go last ↦ run n last >>= Nested.follow x fun _ ↦ Nested.increment v >>= go) n (some y)) := by
  intro K S k n r p last C hat hfree hrest hU hV
  beta_reduce at hU
  obtain ⟨hgoto, hlabel, hbody, hend⟩ := at_flatWhile hat.right
  have hlen : p + 2 + 2 + (b ++ [.label x.again, Code.increment v]).length =
      p + 2 + 2 + b.length + 2 := by simp [Nat.add_assoc]
  have hq : p + ([Statement.declare v lower, .declare (makeUpperBound v u).1 upper]
        ++ Code.flatWhile start (Code.atMost v (makeUpperBound v u).1)
          (b ++ [Statement.label x.again, Code.increment v]) ⟨x.leave, test⟩).length =
      p + 2 + 2 + b.length + 2 + 1 + 2 := by
    simp [Code.flatWhile]
    omega
  rw [hq] at hrest
  simp only [List.length_cons, List.length_nil] at hgoto hlabel hbody hend
  rw [hlen] at hend
  have hfresh : ¬ σ.taken (makeUpperBound v u).1 := by
    intro ht
    have hid : (makeUpperBound v u).1.id = u.nextSymbol := rfl
    have := σ.free _ ht
    omega
  simp only [bind_assoc]
  refine σ.agrees_declare hlower hrest.below hv hat.left.head (hU.imp_right fun h ↦ by omega)
    fun j _ hj ↦ ?_
  refine σ.agrees_keep hupper hrest.below hfresh (fun q hq ↦ ?_) hat.left.tail.head
    (hU.imp_right fun h ↦ by omega) fun j' y hj' ↦ ?_
  · intro hid
    have hlt := hfree v u hcounter q hq
    rw [hid] at hlt
    exact Nat.lt_irrefl _ hlt
  refine σ.agrees_goto hgoto (hU.imp_right fun h ↦ by omega) (σ.place _ _ htest hend.head)
    fun i hi ↦ ?_
  have hrest' := hrest.keep (makeUpperBound v u).1 y
  refine agrees_turns (d := c n + 4) (k := k) (σ.agrees_atMost hv (Kept.mem_place_add K _ y))
    hend.tail.head (σ.place _ _ hstart hlabel) hend.tail.tail.head hrest'
    (fun j r' go hj hr hU hV h last ↦ ?_) n (Nat.le_refl n) i _ (by omega)
    (hU.imp_right fun h ↦ by omega) (hV.imp_right fun h ↦ by omega)
  refine agrees_round (w := r' + 2) hb (hfree.keep y) hbody.left hbody.right.head
    (σ.place _ _ hagain hbody.right.head) (σ.place _ _ hleave hend.tail.tail.head) hrest'
    hj (by omega) (hU.imp_right fun h ↦ by omega) hV fun i hi hir last ↦ ?_
  rw [bind_assoc, ← evaluate_increment σ.limits σ.nested v]
  refine σ.agrees_expression (fun w hw ↦ ?_) hrest'.below hbody.right.tail.head
    (hir.imp_right fun h ↦ by omega) fun i' o hi' ↦ ?_
  · have hw : w ∈ [v, v] := hw
    simp only [List.mem_cons, List.not_mem_nil, or_false, or_self] at hw
    exact hw ▸ hv
  refine σ.agrees_label hend.head (hir.imp_right fun h ↦ by omega) ?_
  intro i'' hi''
  exact h i'' (by omega) (hir.imp_right fun h ↦ by omega) o

theorem Rest.behind (h : σ.Rest K S loops k r q C) {j w q' : Nat} (hj : j ≤ k) (hw : r ≤ w)
    (hon : ∀ i ≤ j, U ∨ w ≤ i → ∀ last, σ.Agrees K S (σ.run i q' last) (C (.on last))) :
    σ.Rest K S loops j w q' C := by
  refine ⟨h.below, ?_⟩
  intro i hi hir e he
  cases e with
  | on last => exact hon i hi hir last
  | jump l last => exact h.ends i (by omega) (hir.imp_right fun h ↦ by omega) (.jump l last) he
  | done result => exact h.ends i (by omega) (hir.imp_right fun h ↦ by omega) (.done result) he

end Stage

end SmallScript
