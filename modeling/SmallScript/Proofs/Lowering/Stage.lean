import SmallScript.Proofs.Lowering.Nested
import SmallScript.Proofs.Lowering.Places
import SmallScript.Proofs.Lowering.Twin

namespace SmallScript

open Code (Statement Body Expression)
open Run (Invoke Accords Paired InvokePaired)
open Nested (Ending)

/-- Two runs side by side: that of flat code, and that of the nested code it was made from. The numbers
from `first` up to `bound` are for variables of the flat code alone, and jumps go to labels that are
targets. -/
structure Stage (U V : Prop) where
  limits : Limits
  flat : Invoke
  nested : Invoke
  code : Body
  taken : Variable → Prop
  counter : Variable → Prop
  target : Label → Prop
  first : Nat
  bound : Nat
  steps : limits.steps = none
  invoke : ∀ K, InvokePaired U V taken K flat nested
  place : ∀ i l, target l → code[i]? = some (.label l) → Run.place? code l = some (i + 1)
  made : ∀ n, target (.made n)
  free : ∀ v, taken v → v.id < first ∨ bound ≤ v.id

def At (code : Body) (p : Nat) (b : Body) : Prop := ∀ i s, b[i]? = some s → code[p + i]? = some s

namespace At

variable {code b c : Body} {p : Nat} {s : Statement}

theorem head (h : At code p (s :: b)) : code[p]? = some s := h 0 s rfl

theorem tail (h : At code p (s :: b)) : At code (p + 1) b := by
  intro i t ht
  rw [Nat.add_assoc, Nat.add_comm 1 i]
  exact h (i + 1) t ht

theorem left (h : At code p (b ++ c)) : At code p b := by
  intro i t ht
  apply h i t
  rw [List.getElem?_append_left (List.getElem?_eq_some_iff.mp ht).1, ht]

theorem right (h : At code p (b ++ c)) : At code (p + b.length) c := by
  intro i t ht
  rw [Nat.add_assoc]
  apply h (b.length + i) t
  rw [List.getElem?_append_right (Nat.le_add_right _ _), Nat.add_sub_cancel_left, ht]

end At

namespace Stage

variable {U V : Prop} (σ : Stage U V) {K : Kept} {S : Machine → Machine → Prop} {k p : Nat}
variable {last : Option Value} {X : Run (Option Value)} {s : Statement} {e : Expression}

def run (k p : Nat) (last : Option Value) : Run (Option Value) :=
  Run.body σ.limits σ.flat σ.code k p last

def proceed (k : Nat) : Run.Next → Run (Option Value)
  | .at p last => σ.run k p last
  | .done result => return result

def resume (k p : Nat) : Ending → Run (Option Value)
  | .on last => σ.run k p last
  | .jump l last => do σ.run k (← Run.target σ.code l) last
  | .done result => return result

abbrev Agrees (K : Kept) (S : Machine → Machine → Prop) (a b : Run (Option Value)) : Prop :=
  Accords U V (Machine.Twin σ.taken K) S a b

abbrev Below (K : Kept) (S : Machine → Machine → Prop) : Prop :=
  ∀ m m', Machine.Twin σ.taken K m m' → S m m'

theorem run_succ (hs : σ.code[p]? = some s) : σ.run (k + 1) p last =
    (do Run.tick σ.limits; Run.step σ.limits σ.flat σ.code (p + 1) last s >>= σ.proceed k) := by
  unfold run
  rw [Run.body, hs]
  apply bind_congr
  intro _
  apply bind_congr
  intro next
  cases next <;> rfl

theorem agrees_run (hs : σ.code[p]? = some s) (hk : U ∨ 1 ≤ k)
    (h : ∀ j, k = j + 1 →
      σ.Agrees K S (Run.step σ.limits σ.flat σ.code (p + 1) last s >>= σ.proceed j) X) :
    σ.Agrees K S (σ.run k p last) X := by
  cases k with
  | zero =>
    rcases hk with hU | hk
    · exact .left hU X
    · omega
  | succ k =>
    rw [σ.run_succ hs]
    intro m m' hm
    have htick : Run.tick σ.limits m = .ok ⟨⟩ { m with steps := m.steps + 1 } := by
      unfold Run.tick
      rw [σ.steps]
      rfl
    change Run.Accord U V S (EStateM.bind (Run.tick σ.limits) _ m) (X m')
    unfold EStateM.bind
    rw [htick]
    exact h k rfl _ m' ⟨hm.globals, hm.frames, hm.draws, hm.console⟩

theorem agrees_end (hp : σ.code[p]? = none) (hk : U ∨ 1 ≤ k) :
    σ.Agrees K (Machine.Twin σ.taken K) (σ.run k p last) (pure last) := by
  cases k with
  | zero =>
    rcases hk with hU | hk
    · exact .left hU _
    · omega
  | succ k =>
    unfold run
    rw [Run.body, hp]
    exact Run.paired_pure last

theorem agrees_label {l : Label} (hs : σ.code[p]? = some (.label l)) (hk : U ∨ 1 ≤ k)
    (h : ∀ j, k = j + 1 → σ.Agrees K S (σ.run j (p + 1) last) X) :
    σ.Agrees K S (σ.run k p last) X := σ.agrees_run hs hk h

theorem target_of_place {l : Label} {i : Nat} (hl : Run.place? σ.code l = some i) :
    Run.target σ.code l = pure i := by rw [Run.target_eq, hl]

theorem agrees_goto {l : Label} {i : Nat} (hs : σ.code[p]? = some (.goto l)) (hk : U ∨ 1 ≤ k)
    (hl : Run.place? σ.code l = some i)
    (h : ∀ j, k = j + 1 → σ.Agrees K S (σ.run j i last) X) :
    σ.Agrees K S (σ.run k p last) X := by
  apply σ.agrees_run hs hk
  intro j hj
  simp only [Run.step, σ.target_of_place hl, pure_bind]
  exact h j hj

section Expressions

variable (he : ∀ v ∈ e.vars, σ.taken v)
include he

theorem agrees_evaluate : Paired U V σ.taken K (Run.evaluate σ.limits σ.flat e)
    (Run.evaluate σ.limits σ.nested e) := Run.evaluate_twin σ.limits (σ.invoke K) e he

theorem agrees_test : Paired U V σ.taken K (Nested.test σ.limits σ.flat e)
    (Nested.test σ.limits σ.nested e) := (σ.agrees_evaluate he).chain Run.paired_needBool

theorem agrees_expression {f : Option Value → Run (Option Value)} (hS : σ.Below K S)
    (hs : σ.code[p]? = some (.expression e)) (hk : U ∨ 1 ≤ k)
    (h : ∀ j o, k = j + 1 → σ.Agrees K S (σ.run j (p + 1) o) (f o)) :
    σ.Agrees K S (σ.run k p last) (Run.evaluate σ.limits σ.nested e >>= f) := by
  apply σ.agrees_run hs hk
  intro j hj
  simp only [Run.step, bind_assoc, pure_bind]
  exact .bind (σ.agrees_evaluate he) hS fun o ↦ h j o hj

theorem agrees_declare {v : Variable} {f : Value → Run (Option Value)} (hS : σ.Below K S)
    (hv : σ.taken v) (hs : σ.code[p]? = some (.declare v e)) (hk : U ∨ 1 ≤ k)
    (h : ∀ j x, k = j + 1 → σ.Agrees K S (σ.run j (p + 1) (some x)) (f x)) :
    σ.Agrees K S (σ.run k p last) (Nested.assign σ.limits σ.nested v e >>= f) := by
  apply σ.agrees_run hs hk
  intro j hj
  simp only [Run.step, Nested.assign, bind_assoc, pure_bind]
  exact .bind (σ.agrees_evaluate he) hS fun o ↦ .bind (Run.paired_need o) hS fun x ↦
    .bind (Run.paired_write hv x) hS fun _ ↦ h j x hj

/-- The flat code takes a variable of its own for a value of the nested code. -/
theorem agrees_keep {v : Variable} {f : Value → Run (Option Value)} (hS : σ.Below K S)
    (hv : ¬ σ.taken v) (hne : ∀ q ∈ K.place v, q.1 ≠ v) (hs : σ.code[p]? = some (.declare v e))
    (hk : U ∨ 1 ≤ k)
    (h : ∀ j x, k = j + 1 → σ.Agrees (K.add v x) S (σ.run j (p + 1) (some x)) (f x)) :
    σ.Agrees K S (σ.run k p last)
      (Run.evaluate σ.limits σ.nested e >>= fun o ↦ Run.need o >>= f) := by
  apply σ.agrees_run hs hk
  intro j hj
  simp only [Run.step, bind_assoc, pure_bind]
  exact .bind (σ.agrees_evaluate he) hS fun o ↦ .bind (Run.paired_need o) hS fun x ↦
    .modify_left (fun _ _ hm ↦ hm.add hv hne x) (h j x hj)

theorem agrees_return {f : Option Value → Run (Option Value)} (hS : σ.Below K S)
    (hs : σ.code[p]? = some (.leave (some e))) (hk : U ∨ 1 ≤ k)
    (h : ∀ j o, k = j + 1 → σ.Agrees K S (pure o) (f o)) :
    σ.Agrees K S (σ.run k p last) (Run.evaluate σ.limits σ.nested e >>= f) := by
  apply σ.agrees_run hs hk
  intro j hj
  simp only [Run.step, bind_assoc, pure_bind]
  exact .bind (σ.agrees_evaluate he) hS fun o ↦ h j o hj

end Expressions

theorem agrees_gotoIf {l : Label} {i : Nat} {negated : Bool} {test : Run Bool}
    {f : Bool → Run (Option Value)} (hS : σ.Below K S)
    (htest : Paired U V σ.taken K (Nested.test σ.limits σ.flat e) test)
    (hs : σ.code[p]? = some (.gotoIf l e negated)) (hk : U ∨ 1 ≤ k)
    (hl : Run.place? σ.code l = some i)
    (h : ∀ j b, k = j + 1 →
      σ.Agrees K S (σ.run j (if b = negated then p + 1 else i) last) (f b)) :
    σ.Agrees K S (σ.run k p last) (test >>= f) := by
  apply σ.agrees_run hs hk
  intro j hj
  have hstep : Run.step σ.limits σ.flat σ.code (p + 1) last (.gotoIf l e negated) >>= σ.proceed j =
      Nested.test σ.limits σ.flat e >>= fun b ↦
        σ.run j (if b = negated then p + 1 else i) last := by
    simp only [Run.step, Nested.test, σ.target_of_place hl, bind_assoc, pure_bind]
    apply bind_congr
    intro o
    apply bind_congr
    intro b
    split <;> rfl
  rw [hstep]
  exact .bind htest hS fun b ↦ h j b hj

theorem evaluate_increment (limits : Limits) (invoke : Invoke) (v : Variable) :
    Run.evaluate limits invoke
      (.assign v (.binary (.var v) ⟨.plus, .addition, .int, .int⟩ (.literal (.int 1)))) =
      Nested.increment v := by
  simp only [Run.evaluate, Nested.increment, Run.need, bind_assoc, pure_bind]

theorem agrees_atMost {v bound : Variable} {x : Value} (hv : σ.taken v)
    (hbound : (bound, x) ∈ K.place bound) :
    Paired U V σ.taken K (Nested.test σ.limits σ.flat (Code.atMost v bound))
      (Nested.atMost v x) := by
  simp only [Nested.test, Nested.atMost, Code.atMost, Run.evaluate, Run.need, bind_assoc, pure_bind]
  apply (Run.paired_read hv).chain
  intro y
  refine .congr_left (fun m m' hm ↦ ?_)
    ((Run.paired_ofExcept _).chain fun z ↦ Run.paired_needBool (some z))
  have hread : Run.read bound m = .ok x m := by
    have hget (f : Machine → Run Value) : (get >>= f) m = f m m := rfl
    rw [Run.read, hget, hm.get?_kept hbound]
    rfl
  change EStateM.bind (Run.read bound) _ m = _
  unfold EStateM.bind
  rw [hread]

end Stage

end SmallScript
