import SmallScript.Proofs.Assigned
import SmallScript.Proofs.Run.Limits
import SmallScript.Proofs.Run.Keeps

namespace SmallScript

open Code (Expression Statement Body)

/-- Whether a call with `n` arguments has all that a builtin function takes. -/
def Function.Supplied (f : Function) (n : Nat) : Prop :=
  ∀ b, f.origin = .builtin b → b.function.parameters.length ≤ n

/-- A program in which every call of a builtin function has the arguments that the function takes. -/
def Program.Supplied (p : Program) : Prop :=
  ∀ b ∈ p.main :: p.functions.map Prod.snd, ∀ s ∈ b, ∀ e ∈ s.operand?,
    e.Respects (fun _ ↦ True) Function.Supplied

theorem Builtin.origin_function (b : Builtin) : b.function.origin = .builtin b := by cases b <;> rfl

def Halt.Final (p : Program) : Halt → Prop
  | .fault _ => True
  | .stuck => ¬ p.Supplied
  | .unfinished => False

namespace Run

/-- A property of machines that all but steps and calls keep. A run may stop for any fault, and for missing
arguments if `C` allows calls without them. -/
structure Stays (C : Function → Nat → Prop) (I : Machine → Prop) (E : Halt → Prop) : Prop where
  write : ∀ {m}, I m → ∀ v x, I (m.set v x)
  draw : ∀ {m}, I m → I { m with draws := m.draws + 1 }
  talk : ∀ {m}, I m → ∀ c, I { m with console := c }
  fault : ∀ f, E (.fault f)
  stuck : E .stuck ∨ ∀ f n, C f n → f.Supplied n

abbrev Kept {α : Type} (I : Machine → Prop) (E : Halt → Prop) (x : Run α) : Prop :=
  Keeps I E x fun _ ↦ True

section Evaluate

variable {C : Function → Nat → Prop} {I : Machine → Prop} {E : Halt → Prop}
  {limits : Limits} {invoke : Invoke}

namespace Stays

variable {α : Type} (h : Stays C I E)
include h

theorem ofExcept (x : Except Fault α) : Kept I E (ofExcept x) :=
  .ofExcept (fun _ _ ↦ trivial) fun f _ ↦ h.fault f

theorem need (o : Option Value) : Kept I E (need o) := by
  cases o with
  | none => exact .fail (h.fault _)
  | some x => exact .pure trivial

theorem needInt (o : Option Value) : Kept I E (needInt o) := (h.need o).bind fun _ _ ↦ h.ofExcept _

theorem needBool (o : Option Value) : Kept I E (needBool o) := (h.need o).bind fun _ _ ↦ h.ofExcept _

theorem needString (o : Option Value) : Kept I E (needString o) :=
  (h.need o).bind fun _ _ ↦ h.ofExcept _

theorem read (v : Variable) : Kept I E (read v) := by
  intro m hm
  rw [read_eq]
  cases m.get? v with
  | none => exact ⟨hm, h.fault _⟩
  | some x => exact ⟨hm, trivial⟩

theorem write_value (v : Variable) (x : Value) : Kept I E (Run.write v x) :=
  .modify fun _ hm ↦ h.write hm v x

theorem print (line : String) : Kept I E (print line) := .modify fun _ hm ↦ h.talk hm _

theorem input : Kept I E input := fun _ hm ↦ ⟨h.talk hm _, trivial⟩

theorem random (min max : Int32) : Kept I E (random limits min max) :=
  .ite (fun _ ↦ .fail (h.fault _)) fun _ ↦ .ite (fun _ ↦ .pure trivial) fun _ _ hm ↦
    ⟨h.draw hm, trivial⟩

theorem checkDepth : Kept I E (checkDepth limits) := by
  intro m hm
  rw [checkDepth_eq]
  unfold allow
  cases limits.depth with
  | none => exact ⟨hm, trivial⟩
  | some d =>
    by_cases hd : d ≤ m.frames.length
    · simp only [if_pos hd]
      exact ⟨hm, h.fault _⟩
    · simp only [if_neg hd]
      exact ⟨hm, trivial⟩

end Stays

theorem binary_keeps (h : Stays C I E) (o : BinaryOperator) {e e' : Expression}
    (hleft : Kept I E (evaluate limits invoke e)) (hright : Kept I E (evaluate limits invoke e')) :
    Kept I E (evaluate limits invoke (.binary e o e')) := by
  simp only [evaluate]
  split
  · refine hleft.bind fun x _ ↦ (h.needBool x).bind fun b _ ↦ .ite (fun _ ↦ ?_) fun _ ↦ .pure trivial
    exact hright.bind fun y _ ↦ (h.needBool y).bind fun _ _ ↦ .pure trivial
  · refine hleft.bind fun x _ ↦ (h.needBool x).bind fun b _ ↦ .ite (fun _ ↦ .pure trivial) fun _ ↦ ?_
    exact hright.bind fun y _ ↦ (h.needBool y).bind fun _ _ ↦ .pure trivial
  · exact hleft.bind fun x _ ↦ (h.need x).bind fun _ _ ↦ hright.bind fun y _ ↦ (h.need y).bind fun _ _ ↦
      (h.ofExcept _).bind fun _ _ ↦ .pure trivial

theorem arguments_keep (h : Stays C I E) {es : List Expression}
    (hes : ∀ e ∈ es, Kept I E (evaluate limits invoke e)) (vs : List Variable) (frame : Store) :
    Kept I E (bindArguments limits invoke frame vs es) := by
  induction es generalizing vs frame with
  | nil => cases vs <;> exact .pure trivial
  | cons e es ih =>
    obtain ⟨he, hes⟩ := List.forall_mem_cons.mp hes
    cases vs with
    | nil => exact .pure trivial
    | cons v vs => exact he.bind fun o _ ↦ (h.need o).bind fun x _ ↦ ih hes vs _

def CallsKeep (C : Function → Nat → Prop) (I : Machine → Prop) (E : Halt → Prop) (invoke : Invoke) : Prop :=
  ∀ f n frame, C f n → Kept I E (invoke f frame)

theorem Stays.stuck_of_lt (h : Stays C I E) {f : Function} {n : Nat} {b : Builtin} (hC : C f n)
    (hb : f.origin = .builtin b) (hn : n < b.function.parameters.length) : E .stuck := by
  refine h.stuck.elim id fun hsupplied ↦ ?_
  have := hsupplied f n hC b hb
  omega

theorem call_keeps (h : Stays C I E) (hcalls : CallsKeep C I E invoke) (f : Function)
    {es : List Expression} (hC : C f es.length) (hes : ∀ e ∈ es, Kept I E (evaluate limits invoke e)) :
    Kept I E (evaluate limits invoke (.call f es)) := by
  unfold evaluate
  cases hf : f.origin with
  | builtin b =>
    have hstuck := h.stuck_of_lt hC hf
    cases b with
    | print =>
      cases es with
      | nil => exact .throw (hstuck Nat.zero_lt_one)
      | cons e es =>
        exact (hes e List.mem_cons_self).bind fun x _ ↦ (h.needString x).bind fun line _ ↦
          (h.print line).bind fun _ _ ↦ .pure trivial
    | input => exact h.input.bind fun _ _ ↦ .pure trivial
    | random =>
      rcases es with _ | ⟨e, _ | ⟨e', es⟩⟩
      · exact .throw (hstuck Nat.zero_lt_two)
      · exact (hes e List.mem_cons_self).bind fun x _ ↦ (h.needInt x).bind fun _ _ ↦
          .throw (hstuck Nat.one_lt_two)
      · obtain ⟨he, hes⟩ := List.forall_mem_cons.mp hes
        exact he.bind fun x _ ↦ (h.needInt x).bind fun min _ ↦ (hes e' List.mem_cons_self).bind fun y _ ↦
          (h.needInt y).bind fun max _ ↦ (h.random min max).bind fun _ _ ↦ .pure trivial
  | declared id =>
    exact h.checkDepth.bind fun _ _ ↦ (arguments_keep h hes f.parameters .empty).bind fun frame _ ↦
      hcalls f es.length frame hC

mutual

theorem evaluate_keeps (h : Stays C I E) (hcalls : CallsKeep C I E invoke) : (e : Expression) →
    e.Respects (fun _ ↦ True) C → Kept I E (evaluate limits invoke e)
  | .error, _ => .fail (h.fault _)
  | .literal _, _ => .pure trivial
  | .var v, _ => (h.read v).bind fun _ _ ↦ .pure trivial
  | .assign v e, he => (evaluate_keeps h hcalls e he).bind fun o _ ↦ (h.need o).bind fun x _ ↦
      (h.write_value v x).bind fun _ _ ↦ .pure trivial
  | .unary _ e, he | .convert _ e, he =>
    (evaluate_keeps h hcalls e he).bind fun o _ ↦ (h.need o).bind fun _ _ ↦
      (h.ofExcept _).bind fun _ _ ↦ .pure trivial
  | .binary e o e', ⟨he, he'⟩ =>
    binary_keeps h o (evaluate_keeps h hcalls e he) (evaluate_keeps h hcalls e' he')
  | .call f es, ⟨hC, hes⟩ => call_keeps h hcalls f hC (all_keep h hcalls es hes)

theorem all_keep (h : Stays C I E) (hcalls : CallsKeep C I E invoke) : (es : List Expression) →
    Code.AllRespect (fun _ ↦ True) C es → ∀ e ∈ es, Kept I E (evaluate limits invoke e)
  | [], _ => nofun
  | e :: es, ⟨he, hes⟩ =>
    List.forall_mem_cons.mpr ⟨evaluate_keeps h hcalls e he, all_keep h hcalls es hes⟩

end

theorem Stays.target (h : Stays C I E) (b : Body) (l : Label) : Kept I E (target b l) := by
  rw [target_eq]
  cases place? b l with
  | none => exact .throw (h.fault _)
  | some i => exact .pure trivial

theorem step_keeps (h : Stays C I E) (hcalls : CallsKeep C I E invoke) (b : Body) (i : Nat)
    (last : Option Value) {s : Statement} (hs : ∀ e ∈ s.operand?, e.Respects (fun _ ↦ True) C) :
    Kept I E (step limits invoke b i last s) := by
  have hoperand {e : Expression} (he : e ∈ s.operand?) : Kept I E (evaluate limits invoke e) :=
    evaluate_keeps h hcalls e (hs e he)
  cases s with
  | declare v e =>
    exact (hoperand rfl).bind fun o _ ↦ (h.need o).bind fun x _ ↦ (h.write_value v x).bind fun _ _ ↦
      .pure trivial
  | expression e => exact (hoperand rfl).bind fun _ _ ↦ .pure trivial
  | label l => exact .pure trivial
  | goto l => exact (h.target b l).bind fun _ _ ↦ .pure trivial
  | gotoIf l e negated =>
    exact (hoperand rfl).bind fun o _ ↦ (h.needBool o).bind fun t _ ↦ .ite (fun _ ↦ .pure trivial) fun _ ↦
      (h.target b l).bind fun _ _ ↦ .pure trivial
  | leave e =>
    cases e with
    | none => exact .pure trivial
    | some e => exact (hoperand rfl).bind fun _ _ ↦ .pure trivial
  | block | ifThen | ifElse | whileLoop | doLoop | forLoop => exact .fail (h.fault _)

end Evaluate

def Spare (k r : Nat) (m : Machine) : Prop := k ≤ m.steps + r

variable {k r : Nat} {limits : Limits} {p : Program}

theorem Spare.mono {r' : Nat} {m : Machine} (h : Spare k r m) (hr : r ≤ r') : Spare k r' m := by
  unfold Spare at *
  omega

theorem Spare.stays {C : Function → Nat → Prop} (hC : p.Supplied → ∀ f n, C f n → f.Supplied n) :
    Stays C (Spare k r) (Halt.Final p) where
  write h v x := by
    unfold Spare at *
    rwa [Machine.steps_set]
  draw h := h
  talk h _ := h
  fault _ := trivial
  stuck := by
    by_cases hp : p.Supplied
    · exact .inr (hC hp)
    · exact .inl hp

theorem Spare.after_tick {α : Type} {E : Halt → Prop} {x : Run α} (hlimit : limits.steps = some k)
    (hE : ∀ f, E (.fault f)) (hx : ∀ r' < r, Kept (Spare k r') E x) :
    Kept (Spare k r) E (do tick limits; x) := by
  intro m hm
  have htick : tick limits m =
      if k ≤ m.steps then .error (.fault (.stepLimitExceeded k)) { m with steps := m.steps + 1 }
      else .ok () { m with steps := m.steps + 1 } := by
    rw [tick_eq, hlimit]
    rfl
  by_cases hk : k ≤ m.steps
  · rw [bind_of_error (htick.trans (if_pos hk))]
    exact ⟨Nat.le_add_right_of_le (Nat.le_succ_of_le hk), hE _⟩
  · have hlt : r - 1 < r := by
      unfold Spare at hm
      omega
    have hspare : Spare k (r - 1) { m with steps := m.steps + 1 } := by
      unfold Spare at *
      dsimp only
      omega
    have hout := hx (r - 1) hlt _ hspare
    rw [bind_of_ok (htick.trans (if_neg hk))]
    cases hrun : x { m with steps := m.steps + 1 } with
    | ok a m' =>
      rw [hrun] at hout
      exact ⟨hout.1.mono (Nat.sub_le r 1), trivial⟩
    | error e m' =>
      rw [hrun] at hout
      exact ⟨hout.1.mono (Nat.sub_le r 1), hout.2⟩

section Program

variable {C : Function → Nat → Prop}

/-- A body ends if it may make more statements than there are steps left, and all calls end that leave a
step less. -/
theorem Spare.body (hlimit : limits.steps = some k) (hC : p.Supplied → ∀ f n, C f n → f.Supplied n)
    {invoke : Invoke} (hinvoke : ∀ r' < r, CallsKeep C (Spare k r') (Halt.Final p) invoke) {b : Body}
    (hb : ∀ s ∈ b, ∀ e ∈ s.operand?, e.Respects (fun _ ↦ True) C) {n : Nat} (hn : r < n) (i : Nat)
    (last : Option Value) : Kept (Spare k r) (Halt.Final p) (body limits invoke b n i last) := by
  induction n generalizing r i last with
  | zero => exact absurd hn (Nat.not_lt_zero r)
  | succ n ih =>
    unfold Run.body
    cases hs : b[i]? with
    | none => exact .pure trivial
    | some s =>
      refine Spare.after_tick hlimit (fun _ ↦ trivial) fun r' hr' ↦ ?_
      refine (step_keeps (Spare.stays hC) (hinvoke r' hr') b (i + 1) last
        (hb s (List.mem_of_getElem? hs))).bind fun next _ ↦ ?_
      cases next with
      | «at» j last => exact ih (fun r'' hr'' ↦ hinvoke r'' (Nat.lt_trans hr'' hr')) (by omega) j last
      | done result => exact .pure trivial

theorem Spare.withFrame {α : Type} {E : Halt → Prop} {x : Run α} (h : Kept (Spare k r) E x) (frame : Store) :
    Kept (Spare k r) E (Run.withFrame frame x) := by
  intro m hm
  have hx := h { m with frames := frame :: m.frames } hm
  unfold Run.withFrame
  cases hr : x { m with frames := frame :: m.frames } with
  | ok a m' =>
    rw [hr] at hx
    exact hx
  | error e m' =>
    rw [hr] at hx
    exact hx

/-- A call ends if its bound is two above the steps left: one for the call itself, one for the statement
that goes beyond the limit. -/
theorem Spare.call (hlimit : limits.steps = some k) (hC : p.Supplied → ∀ f n, C f n → f.Supplied n)
    (hp : ∀ b ∈ p.functions.map Prod.snd, ∀ s ∈ b, ∀ e ∈ s.operand?, e.Respects (fun _ ↦ True) C) {n : Nat}
    (hn : r + 1 < n) : CallsKeep C (Spare k r) (Halt.Final p) (call p limits n) := by
  induction n generalizing r with
  | zero => exact absurd hn (Nat.not_lt_zero _)
  | succ n ih =>
    intro f _ frame _
    unfold Run.call
    cases hb : p.body? f with
    | none => exact .throw trivial
    | some b =>
      have hmem : b ∈ p.functions.map Prod.snd :=
        List.mem_map_of_mem (f := Prod.snd) (Program.mem_functions_of_body? hb)
      have hbody := Spare.body hlimit hC (fun r' hr' ↦ ih (by omega)) (hp b hmem) (by omega : r < n) 0 none
      exact (Spare.withFrame hbody frame).bind fun _ _ ↦ .pure trivial

end Program

end Run

namespace Code

variable {R : Rules}

def Rules.Known (R : Rules) : Prop :=
  ∀ f, R.callable f → (∃ b : Builtin, f = b.function) ∨ ∃ id, f.origin = .declared id

mutual

theorem Expression.WellTyped.supplied (hR : R.Known) : (e : Expression) → e.WellTyped R →
    e.Respects (fun _ ↦ True) Function.Supplied
  | .error, _ | .literal _, _ | .var _, _ => trivial
  | .assign _ e, ⟨_, _, he, _⟩ | .unary _ e, ⟨_, he, _⟩ | .convert _ e, ⟨he, _⟩ =>
    Expression.WellTyped.supplied hR e he
  | .binary e _ e', ⟨_, ⟨he, _⟩, he', _⟩ =>
    ⟨Expression.WellTyped.supplied hR e he, Expression.WellTyped.supplied hR e' he'⟩
  | .call f es, ⟨hf, hes⟩ => by
    obtain ⟨hlength, hrest⟩ := argumentsTyped_supplied hR f.parameters es hes
    refine ⟨fun b hb ↦ ?_, hrest⟩
    rcases hR f hf with ⟨b', rfl⟩ | ⟨id, hid⟩
    · rw [Builtin.origin_function] at hb
      cases hb
      exact Nat.le_of_eq hlength.symm
    · rw [hid] at hb
      nomatch hb

theorem argumentsTyped_supplied (hR : R.Known) : (vs : List Variable) → (es : List Expression) →
    ArgumentsTyped R vs es → es.length = vs.length ∧ AllRespect (fun _ ↦ True) Function.Supplied es
  | [], [], _ => ⟨rfl, trivial⟩
  | _ :: vs, e :: es, ⟨⟨he, _⟩, hes⟩ => by
    obtain ⟨hlength, hrest⟩ := argumentsTyped_supplied hR vs es hes
    exact ⟨congrArg (· + 1) hlength, Expression.WellTyped.supplied hR e he, hrest⟩

end

end Code

namespace Program

theorem Sound.supplied {F : Function → Prop} {p : Program} (h : p.Sound F) : p.Supplied := by
  have hR : (Code.Rules.source F).flat.Known := fun f hf ↦ (h.callable f hf).imp_right And.left
  have htyped : ∀ b ∈ p.main :: p.functions.map Prod.snd, ∃ owner,
      Code.AllTyped (Code.Rules.source F).flat owner b := by
    refine List.forall_mem_cons.mpr ⟨⟨none, h.main.typed⟩, fun b hb ↦ ?_⟩
    obtain ⟨⟨f, b⟩, hf, rfl⟩ := List.mem_map.mp hb
    exact ⟨some f, (h.bodies f b hf).typed⟩
  intro b hb s hs e he
  obtain ⟨owner, hb⟩ := htyped b hb
  exact Code.Expression.WellTyped.supplied hR e (hb.operand s hs e he)

variable (p : Program)

theorem exists_respected : ∃ C : Function → Nat → Prop, (p.Supplied → ∀ f n, C f n → f.Supplied n) ∧
    ∀ b ∈ p.main :: p.functions.map Prod.snd, ∀ s ∈ b, ∀ e ∈ s.operand?, e.Respects (fun _ ↦ True) C := by
  by_cases hp : p.Supplied
  · exact ⟨Function.Supplied, fun _ _ _ h ↦ h, hp⟩
  · exact ⟨fun _ _ ↦ True, fun h ↦ absurd h hp, fun _ _ _ _ e _ ↦ e.respects_any⟩

/-- With a limit of `k` steps every run ends, and any bound above `k` on its depth is high enough for it.
If all builtin functions have their arguments, it ends with a result or a fault. -/
theorem halts_within_steps (k : Nat) (depth : Option Nat) (stream : Nat → Nat) (globals : Store)
    (console : Console) :
    ∃ r, p.Ends ⟨some k, depth, stream⟩ (.start globals console) r ∧
      (∀ n > k, p.run ⟨some k, depth, stream⟩ n (.start globals console) = r) ∧
      (p.Supplied → ∀ e ∈ Run.halt? r, ∃ f, e = .fault f) := by
  obtain ⟨C, hC, hrespects⟩ := p.exists_respected
  obtain ⟨hmain, hfunctions⟩ := List.forall_mem_cons.mp hrespects
  have hlimit : (⟨some k, depth, stream⟩ : Limits).steps = some k := rfl
  have hcalls (r : Nat) (hr : r < k) := Run.Spare.call hlimit hC hfunctions (by omega : r + 1 < k + 1)
  have hrun := Run.Spare.body hlimit hC hcalls hmain (Nat.lt_succ_self k) 0 none (.start globals console)
    (Nat.le_add_left k 0)
  have hfinal : ∀ e ∈ Run.halt? (p.run ⟨some k, depth, stream⟩ (k + 1) (.start globals console)),
      e.Final p := by
    change ∀ e ∈ Run.halt? (Run.body _ _ p.main (k + 1) 0 none _), e.Final p
    generalize Run.body _ _ p.main (k + 1) 0 none _ = r at hrun
    cases r with
    | ok a m => nofun
    | error e m =>
      rintro _ ⟨⟩
      exact hrun.2
  have hend : Run.halt? (p.run ⟨some k, depth, stream⟩ (k + 1) (.start globals console)) ≠
      some .unfinished := fun h ↦ hfinal _ h
  refine ⟨_, ⟨hend, k + 1, rfl⟩, fun n hn ↦ p.run_of_le hn hend rfl, fun hp e he ↦ ?_⟩
  have he := hfinal e he
  cases e with
  | fault f => exact ⟨f, rfl⟩
  | stuck => exact absurd hp he
  | unfinished => exact he.elim

/-- A function that does nothing but call itself. -/
def endless : Program :=
  let f : Function := ⟨.declared 3, "f", [], .void⟩
  ⟨[(f, [.expression (.call f [])])], [.expression (.call f [])], []⟩

/-- An endless recursion ends in a fault without any limit on calls, however high the bound is. -/
theorem halts_within_steps_endless : endless.Supplied ∧
    Run.halt? (endless.run ⟨some 5, none, id⟩ 6 (.start .empty ⟨[], #[]⟩)) =
      some (.fault (.stepLimitExceeded 5)) ∧
    ∀ n > 5, endless.run ⟨some 5, none, id⟩ n (.start .empty ⟨[], #[]⟩) =
      endless.run ⟨some 5, none, id⟩ 6 (.start .empty ⟨[], #[]⟩) ∧
    ∀ e ∈ Run.halt? (endless.run ⟨some 5, none, id⟩ n (.start .empty ⟨[], #[]⟩)), ∃ f, e = .fault f := by
  have hsupplied : endless.Supplied := by
    simp [Supplied, endless, Code.Statement.operand?, Expression.Respects, Code.AllRespect,
      Function.Supplied]
  obtain ⟨r, -, hrun, hfault⟩ := endless.halts_within_steps 5 none id .empty ⟨[], #[]⟩
  refine ⟨hsupplied, by decide +kernel, fun n hn ↦ ?_⟩
  rw [hrun n hn, hrun 6 (by decide)]
  exact ⟨rfl, hfault hsupplied⟩

/-- A call of `print` without an argument has no end that is a result or a fault. -/
theorem stuck_without_argument : ¬ ∀ (p : Program) (k : Nat) (depth : Option Nat) (stream : Nat → Nat)
    (globals : Store) (console : Console), ∃ r, p.Ends ⟨some k, depth, stream⟩ (.start globals console) r ∧
      ∀ e ∈ Run.halt? r, ∃ f, e = .fault f := by
  intro h
  let p : Program := ⟨[], [.expression (.call Builtin.print.function [])], []⟩
  obtain ⟨r, ⟨hend, n, hr⟩, hfault⟩ := h p 400 (some 20) id .empty ⟨[], #[]⟩
  have hstuck : Run.halt? (p.run ⟨some 400, some 20, id⟩ (n + 2) (.start .empty ⟨[], #[]⟩)) = some .stuck := rfl
  rw [p.run_of_le (Nat.le_add_right n 2) hend hr] at hstuck
  obtain ⟨f, ⟨⟩⟩ := hfault _ hstuck

end Program

end SmallScript
