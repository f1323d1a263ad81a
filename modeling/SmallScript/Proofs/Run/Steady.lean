import SmallScript.Proofs.Code.Writes
import SmallScript.Proofs.Run.Assigned
import SmallScript.Proofs.Run.Limits
import SmallScript.Proofs.Run.Visits

namespace SmallScript

open Code (Expression Statement Body)

namespace Machine

/-- The value of a variable for the call at a depth, or outside calls for the depth zero, whatever calls are
active within it. -/
def at? (m : Machine) (d : Nat) (v : Variable) : Option Value :=
  ({ m with frames := m.frames.drop (m.frames.length - d) } : Machine).get? v

variable {m : Machine} {d : Nat} {v w : Variable}

theorem at?_length (m : Machine) (v : Variable) : m.at? m.frames.length v = m.get? v := by
  unfold at?
  rw [Nat.sub_self, List.drop_zero]

theorem at?_zero (m : Machine) (v : Variable) : m.at? 0 v = m.globals.get? v := by
  unfold at? get?
  rw [Nat.sub_zero, List.drop_length]
  cases v.kind <;> rfl

theorem at?_congr {m' : Machine} (hglobals : m'.globals = m.globals) (hframes : m'.frames = m.frames) :
    m'.at? d v = m.at? d v := by
  unfold at? get?
  dsimp only
  rw [hglobals, hframes]

theorem at?_push (h : d ≤ m.frames.length) (frame : Store) :
    ({ m with frames := frame :: m.frames } : Machine).at? d v = m.at? d v := by
  unfold at?
  rw [List.length_cons, Nat.succ_sub h, List.drop_succ_cons]

theorem at?_tail (h : d < m.frames.length) :
    ({ m with frames := m.frames.tail } : Machine).at? d v = m.at? d v := by
  cases hf : m.frames with
  | nil =>
    rw [hf] at h
    nomatch h
  | cons frame rest =>
    have hle : d ≤ ({ m with frames := rest } : Machine).frames.length := by
      rw [hf] at h
      exact Nat.le_of_lt_succ h
    have hsame : ({ m with frames := frame :: rest } : Machine).at? d v = m.at? d v := at?_congr rfl hf.symm
    exact (at?_push hle frame).symm.trans hsame

theorem get?_set_of_ne (h : w ≠ v) (x : Value) : (m.set w x).get? v = m.get? v := by
  obtain ⟨globals, frames, _, _, _⟩ := m
  unfold get? set
  cases w.kind <;> cases v.kind <;> cases frames <;> simp [Store.get?_set, h.symm]

theorem drop_frames_set (h : d < m.frames.length) (x : Value) :
    (m.set w x).frames.drop (m.frames.length - d) = m.frames.drop (m.frames.length - d) := by
  unfold set
  split
  · rfl
  · rfl
  · next frame rest hf _ =>
    rw [hf] at h ⊢
    rw [List.length_cons, Nat.succ_sub (Nat.le_of_lt_succ h), List.drop_succ_cons, List.drop_succ_cons]

theorem get?_globals_set (h : m.frames ≠ []) (hv : v.kind = .global → w ≠ v) (x : Value) :
    (m.set w x).globals.get? v = m.globals.get? v := by
  have hne (hw : w.kind = .global) : v ≠ w := by
    rintro rfl
    exact hv hw rfl
  unfold set
  split
  · next _ hw => rw [Store.get?_set, if_neg (hne hw)]
  · next hf _ => exact absurd hf h
  · rfl

theorem at?_set_of_lt (h : d < m.frames.length) (hv : v.kind = .global → w ≠ v) (x : Value) :
    (m.set w x).at? d v = m.at? d v := by
  have hframes := drop_frames_set (w := w) h x
  have hglobals := get?_globals_set (m := m) (List.ne_nil_of_length_pos (Nat.zero_lt_of_lt h)) hv x
  unfold at? get?
  dsimp only
  rw [length_frames_set, hframes, hglobals]

theorem at?_set_of_ne (h : m.frames.length = d) (hw : w ≠ v) (x : Value) :
    (m.set w x).at? d v = m.at? d v := by
  subst h
  rw [at?_length, ← get?_set_of_ne hw x, ← at?_length, length_frames_set]

theorem at?_set_self (h : m.frames.length = d) (x : Value) : (m.set v x).at? d v = some x := by
  subst h
  rw [← get?_set_self m v x, ← at?_length, length_frames_set]

end Machine

section Steady

/-- Of machines that are passed one after the other: once a variable has a value, it keeps it. -/
def Steady (d : Nat) (v : Variable) (ms : List Machine) : Prop :=
  ms.Pairwise fun m m' ↦ ∀ x, m.at? d v = some x → m'.at? d v = some x

/-- While `k` calls are active: the machines seen so far and the one at hand are steady, and the last of them
shows `o`. -/
structure SteadyAt (d : Nat) (v : Variable) (o : Option Value) (k : Nat) (m : Machine) (l : List Moment) :
    Prop where
  frames : m.frames.length = k
  value : m.at? d v = o
  steady : Steady d v (l.map (·.machine) ++ [m])

variable {d k : Nat} {v : Variable} {o : Option Value} {m m' : Machine} {l : List Moment} {limits : Limits}
  {p : Program}

theorem Steady.now {ms : List Machine} (h : Steady d v (ms ++ [m])) :
    ∀ other ∈ ms, ∀ x, other.at? d v = some x → m.at? d v = some x :=
  fun other hother ↦ (List.pairwise_append.mp h).2.2 other hother m (List.mem_singleton_self m)

theorem Steady.replace {ms : List Machine} (h : Steady d v (ms ++ [m]))
    (hsee : ∀ x, m.at? d v = some x → m'.at? d v = some x) : Steady d v (ms ++ [m']) := by
  have hnow := h.now
  refine List.pairwise_append.mpr ⟨(List.pairwise_append.mp h).1, List.pairwise_singleton _ _, ?_⟩
  intro other hother _ hm x hx
  obtain rfl := List.mem_singleton.mp hm
  exact hsee x (hnow other hother x hx)

namespace SteadyAt

theorem next (h : SteadyAt d v o k m l) {k' : Nat} (hframes : m'.frames.length = k')
    (hsee : m'.at? d v = m.at? d v) : SteadyAt d v o k' m' l :=
  ⟨hframes, hsee.trans h.value, h.steady.replace fun _ hx ↦ hsee.trans hx⟩

theorem see (h : SteadyAt d v o k m l) (act : Act) : SteadyAt d v o k m (l ++ [⟨act, m⟩]) := by
  refine ⟨h.frames, h.value, ?_⟩
  rw [List.map_append]
  refine List.pairwise_append.mpr ⟨h.steady, List.pairwise_singleton _ _, ?_⟩
  intro other hother last hlast x hx
  obtain rfl := List.mem_singleton.mp hlast
  rcases List.mem_append.mp hother with hother | hother
  · exact h.steady.now other hother x hx
  · obtain rfl := List.mem_singleton.mp hother
    exact hx

theorem invariant {W : Variable → Prop}
    (hW : ∀ (m : Machine) w x, m.frames.length = k → W w → (m.set w x).at? d v = m.at? d v) :
    Run.Invariant (fun _ ↦ True) W k (SteadyAt d v o k) fun _ ↦ SteadyAt d v o k where
  frames h := h.frames
  write h hw x := h.next ((Machine.length_frames_set ..).trans h.frames) (hW _ _ x h.frames hw)
  read h _ := h.see _
  unread h _ _ := h.see _
  draw h := h.next h.frames rfl
  talk h _ := h.next h.frames rfl
  stop h _ := h

theorem tick (limits : Limits) (s : Statement) :
    Run.Meets (SteadyAt d v o k) (Run.tick limits)
      (Run.andThen (Run.tick limits) fun _ m ↦ [⟨.begin s, m⟩]) (fun _ ↦ SteadyAt d v o k)
      fun _ ↦ SteadyAt d v o k := by
  have hpass {m : Machine} {l : List Moment} (h : SteadyAt d v o k m l) :
      SteadyAt d v o k { m with steps := m.steps + 1 } l := h.next h.frames rfl
  exact Run.Meets.tick s (fun _ _ h ↦ (hpass h).see _) fun _ _ _ h ↦ hpass h

end SteadyAt

theorem SteadyAt.holds (limits : Limits) {W : Variable → Prop} {b : Body}
    (hW : ∀ (m : Machine) w x, m.frames.length = k → W w → (m.set w x).at? d v = m.at? d v)
    (hb : ∀ s ∈ b, ∀ w ∈ s.assigned, W w) :
    Run.Holds (fun _ _ ↦ True) (fun _ ↦ W) (fun _ _ ↦ True) k (fun _ ↦ SteadyAt d v o k)
      (fun _ ↦ SteadyAt d v o k) limits b where
  invariant _ := SteadyAt.invariant hW
  respects _ e _ := e.respects_any
  assigns hs := hb _ (List.mem_of_getElem? hs)
  tick _ := SteadyAt.tick limits _
  go _ _ h := h

def Program.Spares (p : Program) (v : Variable) : Prop :=
  ∀ f b, (f, b) ∈ p.functions → ∀ s ∈ b, ∀ w ∈ s.assigned, v.kind = .global → w ≠ v

theorem SteadyAt.call (hp : p.Spares v) (hd : d ≤ k) (n : Nat) (f : Function) (frame : Store) :
    Run.Meets (SteadyAt d v o k) (Run.call p limits n f frame) (Run.callMoments limits p n f frame)
      (fun _ ↦ SteadyAt d v o k) fun _ ↦ SteadyAt d v o k := by
  induction n generalizing k f frame with
  | zero => exact .throw fun _ _ h ↦ h
  | succ n ih =>
    unfold Run.call Run.callMoments
    cases hb : p.body? f with
    | none => exact .throw fun _ _ h ↦ h
    | some b =>
      have hholds := SteadyAt.holds (d := d) (o := o) limits
        (fun m w x (hm : m.frames.length = k + 1) hw ↦ Machine.at?_set_of_lt (by omega) hw x)
        (hp f b (Program.mem_functions_of_body? hb))
      have hbody := Run.body_meets (K := SteadyAt d v o (k + 1)) hholds
        (fun _ f _ frame _ _ _ ↦ ih (Nat.le_succ_of_le hd) f frame) (fun _ _ _ h ↦ h) n 0 none
      have hout : ∀ m l, SteadyAt d v o (k + 1) m l → SteadyAt d v o k { m with frames := m.frames.tail } l :=
        fun m l h ↦ h.next (by simp [h.frames]) (Machine.at?_tail (by have := h.frames; omega))
      refine Run.Meets.after (Q := fun _ ↦ SteadyAt d v o k) ?_ fun _ ↦ .pure fun _ _ h ↦ h
      refine hbody.frame (.enter f) frame (fun m l h ↦ ?_) (fun _ ↦ hout) fun _ ↦ hout
      exact (h.next (congrArg (· + 1) h.frames) (Machine.at?_push (h.frames.symm ▸ hd) frame)).see _

theorem SteadyAt.aside :
    Run.Invariant (fun _ ↦ True) (· ≠ v) d (SteadyAt d v o d) fun _ ↦ SteadyAt d v o d :=
  SteadyAt.invariant fun _ _ x hm hw ↦ Machine.at?_set_of_ne hm hw x

theorem SteadyAt.calls (limits : Limits) (hp : p.Spares v) (n : Nat) :
    Run.CallsMeet (fun _ _ ↦ True) d (SteadyAt d v o d) (fun _ ↦ SteadyAt d v o d) limits
      (Run.call p limits n) (Run.callMoments limits p n) :=
  fun f _ frame _ _ _ ↦ SteadyAt.call hp (Nat.le_refl d) n f frame

theorem SteadyAt.body (limits : Limits) (hp : p.Spares v) {b : Body} (hb : ∀ s ∈ b, v ∉ s.assigned)
    (n n' i : Nat) (last : Option Value) :
    Run.Meets (SteadyAt d v o d) (Run.body limits (Run.call p limits n) b n' i last)
      (Run.bodyMoments limits (Run.call p limits n) (Run.callMoments limits p n) b n' i last)
      (fun _ ↦ SteadyAt d v o d) fun _ ↦ SteadyAt d v o d :=
  Run.body_meets
    (SteadyAt.holds (W := (· ≠ v)) limits (fun _ _ x hm hw ↦ Machine.at?_set_of_ne hm hw x)
      fun s hs _ hw heq ↦ hb s hs (heq ▸ hw))
    (fun _ ↦ SteadyAt.calls limits hp n) (fun _ _ _ ↦ id) n' i last

theorem SteadyAt.step (limits : Limits) (hp : p.Spares v) (b : Body) {s : Statement} (hs : v ∉ s.assigned)
    (n i : Nat) (last : Option Value) :
    Run.Meets (SteadyAt d v o d) (Run.step limits (Run.call p limits n) b i last s)
      (Run.stepMoments limits (Run.call p limits n) (Run.callMoments limits p n) s)
      (Run.Lands b s i (SteadyAt d v o d)) fun _ ↦ SteadyAt d v o d :=
  Run.step_meets SteadyAt.aside (SteadyAt.calls limits hp n) i last (fun e _ ↦ e.respects_any)
    fun _ hw heq ↦ hs (heq ▸ hw)

theorem Run.Arrives.eq_or {b : Body} {s : Statement} {i j : Nat} (h : Run.Arrives b s i j m) :
    j = i ∨ ∃ l ∈ s.jump?, Run.place? b l = some j := by
  cases s with
  | declare => exact .inl h.1
  | expression | label => exact .inl h
  | goto l => exact .inr ⟨l, rfl, h⟩
  | gotoIf l => exact h.imp_right fun h ↦ ⟨l, rfl, h⟩
  | _ => exact h.elim

def SteadyUnless (d : Nat) (v : Variable) (unset : Prop) (m : Machine) (l : List Moment) : Prop :=
  ∃ o, SteadyAt d v o d m l ∧ (unset → o = none)

variable {b : Body} {c : Nat}

theorem SteadyAt.step_declare (limits : Limits) (hp : p.Spares v) (b : Body) {e : Expression} (hv : v ∉ e.assigned)
    (n i : Nat) (last : Option Value) :
    Run.Meets (SteadyAt d v none d) (Run.step limits (Run.call p limits n) b i last (.declare v e))
      (Run.stepMoments limits (Run.call p limits n) (Run.callMoments limits p n) (.declare v e))
      (fun next m l ↦ ∃ x, next = .at i (some x) ∧ SteadyAt d v (some x) d m l) fun _ ↦ SteadyAt d v none d := by
  have hvalue := Run.evaluate_meets (SteadyAt.aside (d := d) (o := none)) (SteadyAt.calls limits hp n) e
    e.respects_any fun w hw heq ↦ hv (heq ▸ hw)
  have hwrite (x : Value) : Run.Meets (SteadyAt d v none d) (Run.write v x) (fun _ ↦ [])
      (fun _ ↦ SteadyAt d v (some x) d) fun _ ↦ SteadyAt d v none d := by
    refine .of_unseen fun m l hm ↦ ⟨(Machine.length_frames_set ..).trans hm.frames,
      Machine.at?_set_self hm.frames x, hm.steady.replace fun y hy ↦ ?_⟩
    rw [hm.value] at hy
    nomatch hy
  exact hvalue.after fun o ↦ (SteadyAt.aside.need o).after fun x ↦ (hwrite x).after fun _ ↦
    .pure fun m l hm ↦ ⟨x, rfl, hm⟩

/-- One step: before the declaration nothing is shown, and from there on no place is before it. -/
theorem SteadyAt.step_of_cut (hp : p.Spares v) (hb : b.Cut v c) (n : Nat) {i : Nat} {s : Statement}
    (hs : b[i]? = some s) (last : Option Value) :
    Run.Meets (SteadyUnless d v (i ≤ c)) (Run.step limits (Run.call p limits n) b (i + 1) last s)
      (Run.stepMoments limits (Run.call p limits n) (Run.callMoments limits p n) s)
      (fun | .at j _ => SteadyUnless d v (j ≤ c) | .done _ => SteadyUnless d v False)
      fun _ ↦ SteadyUnless d v False := by
  have hany {o : Option Value} {m : Machine} {l : List Moment} (h : SteadyAt d v o d m l) :
      SteadyUnless d v False m l := ⟨o, h, False.elim⟩
  rintro m l ⟨o, hm, ho⟩
  by_cases hi : i = c
  · subst hi
    obtain ⟨e, he, hv⟩ := hb.declares
    obtain rfl := Option.some.inj (hs.symm.trans he)
    obtain rfl := ho (Nat.le_refl i)
    refine (SteadyAt.step_declare limits hp b hv n (i + 1) last).imp (fun next m l hm ↦ ?_) (fun _ _ _ ↦ hany) m l hm
    obtain ⟨x, rfl, hm⟩ := hm
    exact ⟨some x, hm, fun h ↦ absurd h (Nat.not_succ_le_self i)⟩
  · have hstep := SteadyAt.step (d := d) (o := o) limits hp b (hb.only hs hi) n (i + 1) last
    refine hstep.imp (fun next m l hm ↦ ?_) (fun _ _ _ ↦ hany) m l hm
    cases next with
    | done result => exact hany hm
    | «at» j last =>
      refine ⟨o, hm.1, fun hj ↦ ho ?_⟩
      rcases hm.2.eq_or with rfl | ⟨label, hlabel, hplace⟩
      · omega
      · by_contra hlt
        have := hb.onward hs (by omega) hlabel hplace
        omega

theorem SteadyAt.steps_of_cut (limits : Limits) (hp : p.Spares v) (hb : b.Cut v c) (n : Nat) :
    Run.Steps (fun i ↦ SteadyUnless d v (i ≤ c)) (SteadyUnless d v False) (fun _ ↦ SteadyUnless d v False)
      limits (Run.call p limits n) (Run.callMoments limits p n) b where
  tick hs := by
    rintro m l ⟨o, hm, ho⟩
    exact ((SteadyAt.tick limits _).imp (fun _ _ _ h ↦ ⟨o, h, ho⟩) (fun _ _ _ h ↦ ⟨o, h, False.elim⟩)) m l hm
  step hs := SteadyAt.step_of_cut hp hb n hs
  unfinished := fun ⟨o, hm, _⟩ ↦ ⟨o, hm, False.elim⟩
  beyond := fun ⟨o, hm, _⟩ ↦ ⟨o, hm, False.elim⟩

theorem Run.Meets.final {α : Type} {P R : History} {x : Run α} {t : Machine → List Moment}
    (h : Run.Meets P x t (fun _ ↦ R) fun _ ↦ R) (hm : P m l) : R (Run.final (x m)) (l ++ t m) := by
  have hx := h m l hm
  revert hx
  cases x m with
  | ok a m' => exact id
  | error e m' => exact id

/-- The machines of a run of a body: the first, those that are seen, also within calls, and the last. -/
def Program.machines (p : Program) (limits : Limits) (n : Nat) (b : Body) (m : Machine) : List Machine :=
  m :: (Run.bodyMoments limits (Run.call p limits n) (Run.callMoments limits p n) b n 0 none m).map (·.machine) ++
    [Run.final (Run.body limits (Run.call p limits n) b n 0 none m)]

theorem SteadyAt.seen (m : Machine) (v : Variable) :
    SteadyAt m.frames.length v (m.at? m.frames.length v) m.frames.length m [⟨.read v, m⟩] :=
  ⟨rfl, rfl, List.pairwise_pair.mpr fun _ ↦ id⟩

theorem Steady.all {ms : List Machine} (h : Steady d v (m :: ms ++ [m'])) (hsame : m'.at? d v = m.at? d v) :
    ∀ other ∈ m :: ms ++ [m'], other.at? d v = m.at? d v := by
  intro other hother
  cases ho : m.at? d v with
  | none =>
    rw [Option.eq_none_iff_forall_ne_some]
    intro x hx
    have hlast : m'.at? d v = some x := by
      rcases List.mem_append.mp hother with hother | hother
      · exact h.now other hother x hx
      · obtain rfl := List.mem_singleton.mp hother
        exact hx
    rw [hsame, ho] at hlast
    nomatch hlast
  | some x =>
    rcases List.mem_cons.mp hother with rfl | hother
    · exact ho
    · exact (List.pairwise_cons.mp h).1 other hother x ho

namespace Program

theorem value_of_mem_machines (hp : p.Spares v) (hb : ∀ s ∈ b, v ∉ s.assigned) (limits : Limits) (n : Nat)
    (m : Machine) : ∀ m' ∈ p.machines limits n b m, m'.at? m.frames.length v = m.at? m.frames.length v := by
  have hfinal := Run.Meets.final (SteadyAt.body limits hp hb n n 0 none) (.seen m v)
  exact hfinal.steady.all hfinal.value

/-- A variable that is declared at one place, to which no jump leads back, keeps the value it is given. -/
theorem steady_of_cut (hp : p.Spares v) (hcut : b.Cut v c) (limits : Limits) (n : Nat)
    (hnone : m.at? m.frames.length v = none) : Steady m.frames.length v (p.machines limits n b m) := by
  have hstart : SteadyUnless m.frames.length v (0 ≤ c) m [⟨.read v, m⟩] := ⟨none, hnone ▸ .seen m v, fun _ ↦ rfl⟩
  obtain ⟨o, hfinal, -⟩ := Run.Meets.final ((SteadyAt.steps_of_cut limits hp hcut n).body n 0 none) hstart
  exact hfinal.steady

/-- A statement that does not assign a variable keeps its value, and the calls that are active. -/
theorem value_after_step (hp : p.Spares v) {n : Nat} {q : Run.Point} {s : Statement} {next : Run.Next}
    (h : Run.carryOut limits (Run.call p limits n) b q s = .ok next m) (hs : v ∉ s.assigned) :
    m.frames.length = q.machine.frames.length ∧ m.get? v = q.machine.get? v := by
  obtain ⟨_, m₁, htick, hstep⟩ := Run.bind_eq_ok h
  have hseen := SteadyAt.tick limits s _ _ (.seen q.machine v)
  rw [htick] at hseen
  have hlast := SteadyAt.step limits hp b hs n (q.index + 1) q.last _ _ hseen
  rw [hstep] at hlast
  have hsteady : ∃ l, SteadyAt q.machine.frames.length v (q.machine.at? q.machine.frames.length v)
      q.machine.frames.length m l := by
    cases next with
    | «at» j last => exact ⟨_, hlast.1⟩
    | done result => exact ⟨_, hlast⟩
  obtain ⟨l, hsteady⟩ := hsteady
  have hvalue := hsteady.value
  rw [Machine.at?_length, ← hsteady.frames, Machine.at?_length] at hvalue
  exact ⟨hsteady.frames, hvalue⟩

end Program

theorem Machine.at?_enter (m : Machine) (frame : Store) (hv : v.kind ≠ .global) :
    ({ m with frames := frame :: m.frames } : Machine).at? (m.frames.length + 1) v = frame.get? v := by
  have hlength := ({ m with frames := frame :: m.frames } : Machine).at?_length v
  rw [Machine.get?_of_frame hv] at hlength
  exact hlength

end Steady

end SmallScript
