import SmallScript.Proofs.Lowering.Alike

namespace SmallScript

open Code (Statement Body flattenBody nodesAll)
open Run (Invoke Accord Accords Paired InvokePaired)

section Programs

variable {U V : Prop} {taken : Variable → Prop} {limits : Limits} {p p' : Program}

structure Program.WellNested (taken : Variable → Prop) (p : Program) : Prop where
  functions : ∀ f ∈ p.functions, Code.Body.WellNested taken f.2
  main : Code.Body.WellNested taken p.main

def Program.CountsLocally (p : Program) : Prop :=
  ∀ f ∈ p.functions, ∀ s ∈ nodesAll f.2, ∀ v, s.counter? = some v → v.kind ≠ .global

structure Program.Lowers (taken : Variable → Prop) (p p' : Program) : Prop where
  functions : List.Forall₂ (fun f f' ↦ f'.1 = f.1 ∧ Code.Body.Lowers taken f.2 f'.2) p.functions
    p'.functions
  main : Code.Body.Lowers taken p.main p'.main

/-- A bound on the statements of flat code that a call takes outside other calls, if no loop makes more
than `n` tests. -/
def Program.cost (p : Program) (n : Nat) : Nat :=
  Code.costAll n p.main + (p.functions.map fun f ↦ Code.costAll n f.2).sum + 1

theorem Program.costAll_lt {f : Function × Body} (hf : f ∈ p.functions) (n : Nat) :
    Code.costAll n f.2 < p.cost n := by
  have hle := List.single_le_sum (fun _ _ ↦ Nat.zero_le _) _
    (List.mem_map_of_mem (f := fun f ↦ Code.costAll n f.2) hf)
  unfold cost
  omega

theorem Program.Lowers.body? (h : p.Lowers taken p') (f : Function) :
    p.body? f = none ∧ p'.body? f = none ∨
      ∃ b b', (f, b) ∈ p.functions ∧ p.body? f = some b ∧ p'.body? f = some b' ∧
        Code.Body.Lowers taken b b' := by
  obtain ⟨hf, -⟩ := h
  unfold Program.body?
  generalize p.functions = fs at hf ⊢
  generalize p'.functions = fs' at hf ⊢
  induction hf with
  | nil => exact .inl ⟨rfl, rfl⟩
  | @cons g g' _ _ hg _ ih =>
    obtain ⟨g, b⟩ := g
    obtain ⟨g', b'⟩ := g'
    obtain ⟨rfl, hb⟩ := hg
    by_cases hfg : f = g'
    · subst hfg
      exact .inr ⟨b, b', List.mem_cons_self, List.lookup_cons_self, List.lookup_cons_self, hb⟩
    · have hne : (f == g') = false := by simpa using hfg
      simp only [List.lookup_cons, hne]
      rcases ih with ih | ⟨c, c', hmem, hc, hc', hlow⟩
      · exact .inl ih
      · exact .inr ⟨c, c', List.mem_cons_of_mem _ hmem, hc, hc', hlow⟩

theorem Run.paired_withFrame {K : Kept} {a b : Run (Option Value)}
    (h : Paired U V taken K.push a b) (frame : Store) :
    Paired U V taken K (withFrame frame a) (withFrame frame b) := by
  intro m m' hm
  have hab := h _ _ (hm.push frame)
  unfold withFrame
  cases ha : a { m with frames := frame :: m.frames } <;>
    cases hb : b { m' with frames := frame :: m'.frames } <;> rw [ha, hb] at hab <;> cases hab
  case ok.ok.ok h => exact .ok _ h.pop
  case error.error.error h => exact .error _ h.pop
  case ok.error.right hV => exact .right hV _ _
  case error.ok.left hU => exact .left hU _ _
  case error.error.left hU => exact .left hU _ _
  case error.error.right hV => exact .right hV _ _

theorem Program.Lowers.call_accords (h : p.Lowers taken p') (hp : p.WellNested taken)
    (hlocal : p.CountsLocally) (hlimits : limits.steps = none) {most : Nat} (n : Nat) :
    ∀ k, n ≤ most → U ∨ n + p.cost most ≤ k → V ∨ k ≤ n → ∀ K,
      InvokePaired U V taken K (Run.call p' limits k) (Nested.call p limits n) := by
  induction n with
  | zero =>
    intro k _ hU hV K f frame
    rcases hV with hV | hV
    · exact .right hV _
    · obtain rfl := Nat.le_zero.mp hV
      rcases hU with hU | hU
      · exact .left hU _
      · unfold cost at hU
        omega
  | succ n ih =>
    intro k hn hU hV K f frame
    cases k with
    | zero =>
      rcases hU with hU | hU
      · exact .left hU _
      · omega
    | succ k =>
      unfold Run.call Nested.call
      rcases h.body? f with ⟨hb, hb'⟩ | ⟨b, b', hmem, hb, hb', hlow⟩
      · rw [hb, hb']
        exact Run.paired_throw _
      · rw [hb, hb']
        have hcost : Code.costAll n b < p.cost most :=
          Nat.lt_of_le_of_lt (Code.costAll_mono (by omega) b) (p.costAll_lt hmem most)
        have hU' : U ∨ Code.costAll n b + 1 ≤ k := hU.imp_right fun h ↦ by omega
        refine (Run.paired_withFrame (Code.Body.WellNested.accords (hp.functions _ hmem) hlow
          (hlocal _ hmem) hlimits
          (ih k (by omega) (hU.imp_right fun h ↦ by omega) (hV.imp_right fun h ↦ by omega))
          (fun v u hv ↦ ?_) hU' (hV.imp_right fun h ↦ by omega))
          frame).chain fun o ↦ Run.paired_pure _
        -- A loop that does not count with a global puts its bound in the frame, which is new.
        unfold Kept.place
        cases hkind : v.kind with
        | global => exact absurd hkind hv
        | «local» | parameter => simp [Code.makeUpperBound, hkind, Kept.push, modifyGet,
            MonadStateOf.modifyGet, StateT.modifyGet]

/-- The functions of a program with flat bodies, and the next free number for a symbol. -/
def Program.flattenFunctions : List (Function × Body) → Nat → List (Function × Body) × Nat
  | [], n => ([], n)
  | (f, b) :: rest, n =>
    let (b', next) := flattenBody b n
    let (rest', next) := flattenFunctions rest next
    ((f, b') :: rest', next)

/-- A program with flat bodies. Variables made for it are numbered from `n` on. -/
def Program.flatten (p : Program) (n : Nat) : Program :=
  let (functions, next) := flattenFunctions p.functions n
  { p with functions, main := (flattenBody p.main next).1 }

theorem Program.lowers_flattenFunctions (fs : List (Function × Body)) {n : Nat}
    (h : ∀ v, taken v → v.id < n) :
    n ≤ (flattenFunctions fs n).2 ∧
      List.Forall₂ (fun f f' ↦ f'.1 = f.1 ∧ Code.Body.Lowers taken f.2 f'.2) fs
        (flattenFunctions fs n).1 := by
  induction fs generalizing n with
  | nil => exact ⟨Nat.le_refl n, .nil⟩
  | cons f rest ih =>
    obtain ⟨f, b⟩ := f
    have hle : n ≤ (flattenBody b n).2 := Code.nextSymbol_le_flattenBody b n
    obtain ⟨hrest, hfs⟩ := ih fun v hv ↦ Nat.lt_of_lt_of_le (h v hv) hle
    exact ⟨Nat.le_trans hle hrest, .cons ⟨rfl, n, _, rfl, fun v hv ↦ .inl (h v hv)⟩ hfs⟩

theorem Program.lowers_flatten (p : Program) {n : Nat} (h : ∀ v, taken v → v.id < n) :
    p.Lowers taken (p.flatten n) := by
  obtain ⟨hle, hfs⟩ := lowers_flattenFunctions p.functions h
  exact ⟨hfs, _, _, rfl, fun v hv ↦ .inl (Nat.lt_of_lt_of_le (h v hv) hle)⟩

theorem Program.Lowers.bodies_alike (h : p.Lowers taken p') (hp : p.WellNested taken)
    (hlocal : p.CountsLocally) (hlimits : limits.steps = none) {m m' : Machine}
    (hm : Machine.Same taken m m') {b b' : Body} (hb : Code.Body.WellNested taken b)
    (hlow : Code.Body.Lowers taken b b') (hcost : ∀ n, Code.costAll n b < p.cost n) :
    Run.Alike taken (fun k ↦ Run.body limits (Run.call p' limits k) b' k 0 none m)
      fun n ↦ Nested.body limits (Nested.call p limits n) n b m' := by
  have haccords {U V : Prop} {k n : Nat} (hU : U ∨ n + p.cost n ≤ k) (hV : V ∨ k ≤ n) :
      Accord U V (Machine.Same taken) (Run.body limits (Run.call p' limits k) b' k 0 none m)
        (Nested.body limits (Nested.call p limits n) n b m') := by
    have hcost := hcost n
    let counter : Variable → Prop := fun _ ↦ True
    have hcounter : ∀ s ∈ nodesAll b, ∀ v, s.counter? = some v → counter v := fun _ _ _ _ ↦ trivial
    refine (hb.accords hlow hcounter hlimits
      (h.call_accords hp hlocal hlimits n k (Nat.le_refl n) hU hV)
      (fun v u _ ↦ Kept.place_none m _) (hU.imp_right fun h ↦ by omega) hV m m' hm.twin).mono ?_
    exact fun _ _ hm ↦ hm.machineSame
  exact Run.Alike.of_bounds (fun k n hkn ↦ haccords (.inl trivial) (.inr hkn))
    fun k n hnk ↦ haccords (.inr hnk) (.inl trivial)

/-- Lowering preserves meaning. From machines that agree, the statements outside functions and the body
of any function end if and only if they do as they stand, with the same result or for the same reason,
and in machines that agree. -/
theorem Program.Lowers.runs_alike (h : p.Lowers taken p') (hp : p.WellNested taken)
    (hlocal : p.CountsLocally) (hlimits : limits.steps = none) {m m' : Machine}
    (hm : Machine.Same taken m m') :
    Run.Alike taken (fun k ↦ p'.run limits k m) (fun n ↦ p.runNested limits n m') ∧
    ∀ f b b', p.body? f = some b → p'.body? f = some b' →
      Run.Alike taken (fun k ↦ Run.body limits (Run.call p' limits k) b' k 0 none m)
        fun n ↦ Nested.body limits (Nested.call p limits n) n b m' := by
  constructor
  · apply h.bodies_alike hp hlocal hlimits hm hp.main h.main
    intro n
    unfold cost
    omega
  · intro f b b' hb hb'
    rcases h.body? f with ⟨hnone, -⟩ | ⟨c, c', hmem, hc, hc', hlow⟩
    · rw [hnone] at hb
      nomatch hb
    · obtain rfl := Option.some.inj (hb.symm.trans hc)
      obtain rfl := Option.some.inj (hb'.symm.trans hc')
      exact h.bodies_alike hp hlocal hlimits hm (hp.functions _ hmem) hlow (p.costAll_lt hmem)

end Programs

section Counting

/-- A function that counts from zero up to its parameter, printing. Called with one, it calls itself with
zero before it goes on. -/
def Program.counting (i : Variable) : Program :=
  let bound : Variable := ⟨4, "p", .parameter, .int, true⟩
  let f : Function := ⟨.declared 0, "f", [bound], .void⟩
  let isEqual (v : Variable) (n : Int32) : Code.Expression :=
    .binary (.var v) ⟨.equalsEquals, .equals, .int, .bool⟩ (.literal (.int n))
  let body : Body := [.forLoop i (.literal (.int 0)) (.var bound)
    (.block [.expression (.call Builtin.print.function [.convert .string (.var i)]),
      .ifThen (.binary (isEqual i 0) ⟨.ampersandAmpersand, .logicalAnd, .bool, .bool⟩ (isEqual bound 1))
        (.block [.expression (.call f [.literal (.int 0)]),
          .expression (.assign i (.literal (.int 0)))])])
    ⟨.given 0 "b", .given 1 "c"⟩]
  ⟨[(f, body)], [.expression (.call f [.literal (.int 1)])], []⟩

theorem Program.wellNested_counting {i : Variable} (hi : i.id < 5) :
    (counting i).WellNested (·.id < 5) := by
  constructor
  · intro f hf
    obtain rfl := List.mem_singleton.mp hf
    refine ⟨?_, ⟨?_, ?_, ?_⟩, ?_⟩
    all_goals simp [Code.AllJumpInside, Code.Statement.JumpsInside, nodesAll, Statement.nodes,
      Code.exitsOf, Statement.exits, Statement.vars, Code.Expression.vars,
      Code.varsAll, hi]
  · refine ⟨?_, ⟨?_, ?_, ?_⟩, ?_⟩
    all_goals simp [counting, Code.AllJumpInside, Code.Statement.JumpsInside, nodesAll,
      Statement.nodes, Code.exitsOf, Statement.exits, Statement.vars,
      Code.Expression.vars, Code.varsAll]

theorem Program.counting_runs_alike :
    (counting ⟨3, "i", .local, .int, false⟩).CountsLocally ∧
    Run.Alike (·.id < 5)
      (fun k ↦ ((counting ⟨3, "i", .local, .int, false⟩).flatten 5).run ⟨none, none, id⟩ k
        (.start .empty ⟨[], #[]⟩))
      (fun n ↦ (counting ⟨3, "i", .local, .int, false⟩).runNested ⟨none, none, id⟩ n
        (.start .empty ⟨[], #[]⟩)) := by
  have hlocal : (counting ⟨3, "i", .local, .int, false⟩).CountsLocally := by
    intro f hf
    obtain rfl := List.mem_singleton.mp hf
    simp [nodesAll, Statement.nodes, Statement.counter?]
  have hlow : (counting ⟨3, "i", .local, .int, false⟩).Lowers (·.id < 5) _ :=
    lowers_flatten _ (n := 5) fun _ hv ↦ hv
  exact ⟨hlocal, (hlow.runs_alike (wellNested_counting (by decide)) hlocal rfl (.refl _)).1⟩

def Run.Result.printed? : Run.Result → Option (Array String)
  | .ok _ m => some m.console.output
  | .error _ _ => none

theorem Run.Result.finished_of_printed? {r : Run.Result} {lines : Array String}
    (h : r.printed? = some lines) : r.Finished := by
  cases r with
  | ok x m => trivial
  | error e m => nomatch h

theorem Run.Alike.printed?_eq {taken : Variable → Prop} {F G : Nat → Run.Result}
    (h : Run.Alike taken F G) {k n : Nat} {lines lines' : Array String}
    (hF : (F k).printed? = some lines) (hG : (G n).printed? = some lines') : lines = lines' := by
  have hsame := h.same k n (Run.Result.finished_of_printed? hF) (Run.Result.finished_of_printed? hG)
  have hprinted : (F k).printed? = (G n).printed? := by
    generalize F k = r at hsame
    generalize G n = r' at hsame
    cases hsame with
    | ok x h => exact congrArg (fun c ↦ some c.output) h.console
    | error e h => rfl
    | left hU m => exact hU.elim
    | right hV _ m => exact hV.elim
  rw [hF, hG] at hprinted
  exact Option.some.inj hprinted

/-- Lowering changes the meaning of a function that counts with a global: all its calls share one
variable for the upper bound. -/
theorem Program.counting_global_not_alike :
    (counting ⟨3, "g", .global, .int, false⟩).WellNested (·.id < 5) ∧
    (counting ⟨3, "g", .global, .int, false⟩).Lowers (·.id < 5)
      ((counting ⟨3, "g", .global, .int, false⟩).flatten 5) ∧
    ¬ Run.Alike (·.id < 5)
      (fun k ↦ ((counting ⟨3, "g", .global, .int, false⟩).flatten 5).run ⟨none, none, id⟩ k
        (.start .empty ⟨[], #[]⟩))
      (fun n ↦ (counting ⟨3, "g", .global, .int, false⟩).runNested ⟨none, none, id⟩ n
        (.start .empty ⟨[], #[]⟩)) := by
  refine ⟨wellNested_counting (by decide), lowers_flatten _ fun _ hv ↦ hv, ?_⟩
  intro h
  have hflat : Run.Result.printed? (((counting ⟨3, "g", .global, .int, false⟩).flatten 5).run
      ⟨none, none, id⟩ 60 (.start .empty ⟨[], #[]⟩)) = some #["0", "0"] := by decide +kernel
  have hnested : Run.Result.printed? ((counting ⟨3, "g", .global, .int, false⟩).runNested
      ⟨none, none, id⟩ 60 (.start .empty ⟨[], #[]⟩)) = some #["0", "0", "1"] := by decide +kernel
  exact absurd (h.printed?_eq hflat hnested) (by decide)

end Counting

end SmallScript
