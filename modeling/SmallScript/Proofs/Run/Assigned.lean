import SmallScript.Proofs.Code.Settled
import SmallScript.Proofs.Run.Trace
import SmallScript.Proofs.Typing.Basic

namespace SmallScript

open Code (Expression Statement Body)

theorem Store.isSome_set {s : Store} {w : Variable} (h : (s.get? w).isSome) (v : Variable) (x : Value) :
    ((s.set v x).get? w).isSome := by
  rw [get?_set]
  split
  · rfl
  · exact h

namespace Machine

variable {m : Machine} {w : Variable}

theorem isSome_globals_set (h : (m.globals.get? w).isSome) (v : Variable) (x : Value) :
    ((m.set v x).globals.get? w).isSome := by
  unfold set
  split
  · exact Store.isSome_set h v x
  · exact Store.isSome_set h v x
  · exact h

theorem isSome_set (h : (m.get? w).isSome) (v : Variable) (x : Value) : ((m.set v x).get? w).isSome := by
  obtain ⟨globals, frames, _, _, _⟩ := m
  revert h
  unfold get? set
  cases v.kind <;> cases w.kind <;> cases frames <;>
    first | exact id | exact fun h ↦ Store.isSome_set h v x

/-- With the same frames, what has a value keeps one while the globals that have values do. -/
theorem isSome_of_globals {m' : Machine} (hframes : m'.frames = m.frames)
    (hglobals : ∀ v, (m.globals.get? v).isSome → (m'.globals.get? v).isSome) (h : (m.get? w).isSome) :
    (m'.get? w).isSome := by
  revert h
  unfold get?
  rw [hframes]
  cases w.kind <;> cases m.frames <;> first | exact id | exact hglobals w

end Machine

def Excused (loose : List String) (inCall : Prop) (v : Variable) : Prop :=
  v.kind = .global ∧ inCall ∨ v.name ∈ loose

theorem Excused.imp {loose : List String} {a b : Prop} (h : a → b) {v : Variable} (hv : Excused loose a v) :
    Excused loose b v := hv.imp_left fun hv ↦ ⟨hv.1, h hv.2⟩

def Moment.Excused (loose : List String) (moment : Moment) : Prop :=
  ∀ v, moment.act = .read v → moment.machine.get? v = none →
    SmallScript.Excused loose (moment.machine.frames ≠ []) v

section Assigned

variable (loose : List String)

/-- While `k` calls are active, on top of the frames `outer`: the globals with `G` and the variables in `A`
have values, and all that was read before is excused or had. -/
structure Assigned (outer : List Store) (k : Nat) (G : Variable → Prop) (A : List Variable) (m : Machine)
    (l : List Moment) : Prop where
  frames : m.frames.length = k
  outer : m.frames.tail = outer
  globals : ∀ v, G v → (m.globals.get? v).isSome
  values : ∀ v ∈ A, (m.get? v).isSome
  reads : ∀ moment ∈ l, moment.Excused loose

structure AssignedAtEnd (e : Halt) (_ : Machine) (l : List Moment) : Prop where
  reads : ∀ moment ∈ l, moment.Excused loose
  last : ∀ name, e = .fault (.unassignedVariable name) →
    ∃ v m, l.getLast? = some ⟨.read v, m⟩ ∧ v.name = name ∧ m.get? v = none

variable {loose} {outer : List Store} {k : Nat} {G : Variable → Prop} {A A' : List Variable} {m : Machine}
  {l : List Moment} {limits : Limits}

theorem forall_mem_snoc {moment : Moment} (h : ∀ other ∈ l, other.Excused loose)
    (hm : moment.Excused loose) : ∀ other ∈ l ++ [moment], other.Excused loose := by
  intro other hother
  rcases List.mem_append.mp hother with hother | hother
  · exact h other hother
  · obtain rfl := List.mem_singleton.mp hother
    exact hm

namespace Assigned

theorem mono (h : Assigned loose outer k G A m l) (hA : ∀ v ∈ A', v ∈ A ∨ (m.get? v).isSome) :
    Assigned loose outer k G A' m l :=
  { h with values := fun v hv ↦ (hA v hv).elim (h.values v) id }

theorem excused_read {V : Variable → Prop} (hV : ∀ v, V v → v ∈ A ∨ SmallScript.Excused loose (k ≠ 0) v)
    (h : Assigned loose outer k G A m l) {v : Variable} (hv : V v) :
    (⟨.read v, m⟩ : Moment).Excused loose := by
  rintro _ ⟨⟩ hnone
  rcases hV v hv with hv | hv
  · have hsome := h.values v hv
    rw [hnone] at hsome
    nomatch hsome
  · refine hv.imp fun hk hnil ↦ hk ?_
    rw [← h.frames, hnil]
    rfl

theorem invariant {V : Variable → Prop} (hV : ∀ v, V v → v ∈ A ∨ SmallScript.Excused loose (k ≠ 0) v) :
    Run.Invariant V (fun _ ↦ True) k (Assigned loose outer k G A) (AssignedAtEnd loose) where
  frames h := h.frames
  write {_ _ v} h _ x := by
    refine ⟨?_, ?_, fun w hw ↦ Machine.isSome_globals_set (h.globals w hw) v x,
      fun w hw ↦ Machine.isSome_set (h.values w hw) v x, h.reads⟩
    · rw [Machine.length_frames_set, h.frames]
    · rw [Machine.tail_frames_set, h.outer]
  read h hv := { h with reads := forall_mem_snoc h.reads (h.excused_read hV hv) }
  unread h hv hnone := by
    refine ⟨forall_mem_snoc h.reads (h.excused_read hV hv), ?_⟩
    rintro _ ⟨⟩
    exact ⟨_, _, List.getLast?_concat, rfl, hnone⟩
  draw h := ⟨h.frames, h.outer, h.globals, h.values, h.reads⟩
  talk h _ := ⟨h.frames, h.outer, h.globals, h.values, h.reads⟩
  stop := by
    intro m l e h he
    refine ⟨h.reads, ?_⟩
    rintro name rfl
    exact he.elim

theorem tick (s : Statement) :
    Run.Meets (Assigned loose outer k G A) (Run.tick limits)
      (Run.andThen (Run.tick limits) fun _ m ↦ [⟨.begin s, m⟩]) (fun _ ↦ Assigned loose outer k G A)
      (AssignedAtEnd loose) :=
  Run.Meets.tick s
    (fun _ _ h ↦ ⟨h.frames, h.outer, h.globals, h.values, forall_mem_snoc h.reads nofun⟩)
    fun _ _ _ h ↦ ⟨h.reads, nofun⟩

end Assigned

namespace Code

def Complete (f : Function) (n : Nat) : Prop := n = f.parameters.length

structure Body.Ready (E : Variable → Prop) (A : List Variable) (b : Body) : Prop where
  guarded : ∃ known : Label → List Variable, b.Guarded E known A
  complete : ∀ s ∈ b, ∀ e ∈ s.operand?, e.Respects (fun _ ↦ True) Complete

mutual

theorem Expression.Respects.and {V : Variable → Prop} {C : Function → Nat → Prop} :
    (e : Expression) → e.Respects (fun _ ↦ True) C → (∀ v ∈ e.vars, V v) → e.Respects V C
  | .error, _, _ | .literal _, _, _ => trivial
  | .var v, _, hv => hv v (List.mem_singleton_self v)
  | .assign v e, h, hv => Expression.Respects.and e h fun w hw ↦ hv w (List.mem_cons_of_mem v hw)
  | .unary _ e, h, hv | .convert _ e, h, hv => Expression.Respects.and e h hv
  | .binary e _ e', h, hv =>
    ⟨Expression.Respects.and e h.1 fun v hv' ↦ hv v (List.mem_append_left e'.vars hv'),
      Expression.Respects.and e' h.2 fun v hv' ↦ hv v (List.mem_append_right e.vars hv')⟩
  | .call _ es, h, hv => ⟨h.1, AllRespect.and es h.2 hv⟩

theorem AllRespect.and {V : Variable → Prop} {C : Function → Nat → Prop} :
    (es : List Expression) → AllRespect (fun _ ↦ True) C es → (∀ v ∈ varsAll es, V v) → AllRespect V C es
  | [], _, _ => trivial
  | e :: es, h, hv =>
    ⟨Expression.Respects.and e h.1 fun v hv' ↦ hv v (List.mem_append_left (varsAll es) hv'),
      AllRespect.and es h.2 fun v hv' ↦ hv v (List.mem_append_right e.vars hv')⟩

end

end Code

open Code (Complete)

theorem Assigned.go {E : Variable → Prop} {known : Label → List Variable} {b : Body}
    (h : b.Guarded E known A) {i j : Nat} {s : Statement} (hs : b[i]? = some s)
    (hj : Run.Arrives b s (i + 1) j m)
    (hm : Assigned loose outer k G (Body.knownEnd known A (b.take i)) m l) :
    Assigned loose outer k G (Body.knownEnd known A (b.take j)) m l := by
  have hguarded := h.at hs
  have hnext (hsub : ∀ v ∈ s.knownAfter known (Body.knownEnd known A (b.take i)),
      v ∈ Body.knownEnd known A (b.take i) ∨ (m.get? v).isSome) :
      Assigned loose outer k G (Body.knownEnd known A (b.take (i + 1))) m l := by
    rw [Body.knownEnd_take_succ hs]
    exact hm.mono hsub
  have hjump {label : Label} (hlabel : label ∈ s.jump?) (hplace : Run.place? b label = some j) :
      Assigned loose outer k G (Body.knownEnd known A (b.take j)) m l := by
    obtain ⟨i', rfl, hi⟩ := Run.getElem?_of_place? hplace
    rw [Body.knownEnd_take_succ hi]
    exact hm.mono fun v hv ↦ .inl (hguarded.jump label hlabel hv)
  cases s with
  | declare v e =>
    obtain ⟨rfl, hv⟩ := hj
    refine hnext fun w hw ↦ ?_
    rcases List.mem_cons.mp hw with rfl | hw
    · exact .inr hv
    · exact .inl hw
  | expression e =>
    obtain rfl := hj
    exact hnext fun v hv ↦ .inl hv
  | label label =>
    obtain rfl := hj
    exact hnext fun v hv ↦ .inl (hguarded.label label rfl hv)
  | goto label => exact hjump rfl hj
  | gotoIf label e negated =>
    rcases hj with rfl | hj
    · exact hnext fun v hv ↦ .inl hv
    · exact hjump rfl hj
  | leave e => exact hj.elim
  | block | ifThen | ifElse | whileLoop | doLoop | forLoop => exact hj.elim

theorem Assigned.body (limits : Limits) {inCall : Prop} {known : Label → List Variable} {b : Body}
    (hk : inCall → k ≠ 0) (h : b.Guarded (Excused loose inCall) known A)
    (hcomplete : ∀ s ∈ b, ∀ e ∈ s.operand?, e.Respects (fun _ ↦ True) Complete) :
    Run.Holds (fun i v ↦ v ∈ Body.knownEnd known A (b.take i) ∨ Excused loose inCall v) (fun _ _ ↦ True)
      Complete k (fun i ↦ Assigned loose outer k G (Body.knownEnd known A (b.take i))) (AssignedAtEnd loose)
      limits b where
  invariant _ := Assigned.invariant fun _ hv ↦ hv.imp_right (.imp hk)
  respects hs e he :=
    (hcomplete _ (List.mem_of_getElem? hs) e he).and e ((h.at hs).operand e he)
  assigns _ _ _ := trivial
  tick _ := Assigned.tick _
  go hs hj hm := hm.go h hs hj

/-- A program of which each body uses only what it has assigned, but for what is excused. -/
structure Program.Ready (loose : List String) (p : Program) : Prop where
  main : p.main.Ready (Excused loose False) []
  functions : ∀ f b, (f, b) ∈ p.functions → b.Ready (Excused loose True) f.parameters
  parameters : ∀ f b, (f, b) ∈ p.functions → ∀ v ∈ f.parameters, v.kind ≠ .global

variable {p : Program}

theorem Program.mem_functions_of_body? {f : Function} {b : Body} (h : p.body? f = some b) :
    (f, b) ∈ p.functions := by
  obtain ⟨before, after, heq, -⟩ := List.lookup_eq_some_iff.mp h
  exact heq ▸ List.mem_append_right before List.mem_cons_self

theorem Machine.get?_of_frame {frame : Store} {frames : List Store} {v : Variable} (hv : v.kind ≠ .global) :
    ({ m with frames := frame :: frames } : Machine).get? v = frame.get? v := by
  unfold Machine.get?
  cases h : v.kind with
  | global => exact absurd h hv
  | «local» => rfl
  | parameter => rfl

theorem Assigned.after_call {m' : Machine} {l' : List Moment} {k' : Nat}
    (hm : Assigned loose outer k G A m l)
    (h : Assigned loose m.frames k' (fun v ↦ (m.globals.get? v).isSome) A' m' l') :
    Assigned loose outer k G A { m' with frames := m'.frames.tail } l' where
  frames := by rw [h.outer, hm.frames]
  outer := by rw [h.outer, hm.outer]
  globals v hv := h.globals v (hm.globals v hv)
  values _ hv := Machine.isSome_of_globals h.outer h.globals (hm.values _ hv)
  reads := h.reads

theorem Assigned.call (hp : p.Ready loose) (n : Nat) {f : Function} {frame : Store}
    (hframe : Run.Binds f f.parameters.length frame) :
    Run.Meets (Assigned loose outer k G A) (Run.call p limits n f frame) (Run.callMoments limits p n f frame)
      (fun _ ↦ Assigned loose outer k G A) (AssignedAtEnd loose) := by
  have hinvariant {outer : List Store} {k : Nat} {G : Variable → Prop} {A : List Variable} :
      Run.Invariant (· ∈ A) (fun _ ↦ True) k (Assigned loose outer k G A) (AssignedAtEnd loose) :=
    Assigned.invariant fun _ ↦ .inl
  induction n generalizing f frame outer k G A with
  | zero => exact .throw fun _ _ h ↦ hinvariant.stop h trivial
  | succ n ih =>
    unfold Run.call Run.callMoments
    cases hb : p.body? f with
    | none => exact .throw fun _ _ h ↦ hinvariant.stop h trivial
    | some b =>
      have hf := Program.mem_functions_of_body? hb
      obtain ⟨⟨known, hguarded⟩, hcomplete⟩ := hp.functions f b hf
      refine Run.Meets.after (Q := fun _ ↦ Assigned loose outer k G A) ?_ fun _ ↦ .pure fun _ _ h ↦ h
      -- What the call leaves alone is told by the machine that it begins with.
      intro m l hm
      have hbody := Run.body_meets (K := Assigned loose m.frames (k + 1) (fun v ↦ (m.globals.get? v).isSome) [])
        (Assigned.body limits (k := k + 1) (fun _ ↦ Nat.succ_ne_zero k) hguarded hcomplete)
        (fun i f n' frame hn hframe _ ↦ ih (hn ▸ hframe))
        (fun i m l h ↦ h.mono nofun) n 0 none
      refine hbody.frame (P := fun m' l' ↦ m' = m ∧ l' = l) (.enter f) frame ?_ ?_ ?_ m l ⟨rfl, rfl⟩
      · rintro _ _ ⟨rfl, rfl⟩
        refine ⟨congrArg (· + 1) hm.frames, rfl, fun _ ↦ id, fun v hv ↦ ?_, forall_mem_snoc hm.reads nofun⟩
        have hv : v ∈ f.parameters := hv
        rw [Machine.get?_of_frame (hp.parameters f b hf v hv)]
        exact hframe v (List.take_length ▸ hv)
      · exact fun _ _ _ h ↦ hm.after_call h
      · exact fun _ _ _ h ↦ ⟨h.reads, h.last⟩

theorem Program.run_assigned (hp : p.Ready loose) (limits : Limits) (n : Nat) :
    Run.Meets (Assigned loose [] 0 (fun _ ↦ False) []) (p.run limits n) (p.moments limits n)
      (fun _ _ l ↦ ∀ moment ∈ l, moment.Excused loose) (AssignedAtEnd loose) := by
  obtain ⟨⟨known, hguarded⟩, hcomplete⟩ := hp.main
  have hcalls (i : Nat) : Run.CallsMeet Complete 0
      (Assigned loose [] 0 (fun _ ↦ False) (Body.knownEnd known [] (p.main.take i))) (AssignedAtEnd loose)
      limits (Run.call p limits n) (Run.callMoments limits p n) :=
    fun f n' frame hn hframe _ ↦ Assigned.call hp n (hn ▸ hframe)
  exact Run.body_meets (Assigned.body limits False.elim hguarded hcomplete) hcalls (fun _ _ _ h ↦ h.reads) n 0 none

end Assigned

end SmallScript
