import SmallScript.Proofs.Run.Moments

namespace SmallScript

open Code (Expression Statement Body)

namespace Run

variable {α β : Type} {P : History} {E : Halt → History}

section Evaluate

variable {V W : Variable → Prop} {C : Function → Nat → Prop} {k : Nat} {I : History}
  {limits : Limits} {invoke : Invoke} {watch : Watch}

def CallsMeet (C : Function → Nat → Prop) (k : Nat) (I : History) (E : Halt → History) (limits : Limits)
    (invoke : Invoke) (watch : Watch) : Prop :=
  ∀ f n frame, C f n → Binds f n frame → (∀ d, limits.depth = some d → k < d) →
    Meets I (invoke f frame) (watch f frame) (fun _ ↦ I) E

namespace Invariant

variable (hI : Invariant V W k I E)
include hI

theorem need (o : Option Value) : Meets I (need o) (fun _ ↦ []) (fun _ ↦ I) E := by
  cases o with
  | none => exact .throw fun _ _ hm ↦ hI.stop hm trivial
  | some x => exact .pure fun _ _ hm ↦ hm

theorem needInt (o : Option Value) : Meets I (needInt o) (fun _ ↦ []) (fun _ ↦ I) E :=
  (hI.need o).after fun _ ↦ .ofExcept (fun _ _ _ _ hm ↦ hm) fun _ _ _ hf hm ↦
    hI.stop hm (Value.plain_of_int? hf)

theorem needBool (o : Option Value) : Meets I (needBool o) (fun _ ↦ []) (fun _ ↦ I) E :=
  (hI.need o).after fun _ ↦ .ofExcept (fun _ _ _ _ hm ↦ hm) fun _ _ _ hf hm ↦
    hI.stop hm (Value.plain_of_bool? hf)

theorem needString (o : Option Value) : Meets I (needString o) (fun _ ↦ []) (fun _ ↦ I) E :=
  (hI.need o).after fun _ ↦ .ofExcept (fun _ _ _ _ hm ↦ hm) fun _ _ _ hf hm ↦
    hI.stop hm (Value.plain_of_string? hf)

theorem write_value {v : Variable} (hv : W v) (x : Value) : Meets I (Run.write v x) (fun _ ↦ [])
    (fun _ m l ↦ I m l ∧ (m.get? v).isSome) E :=
  .of_unseen fun m _ hm ↦ ⟨hI.write hm hv x, by rw [Machine.get?_set_self]; rfl⟩

theorem read_value {v : Variable} (hv : V v) :
    Meets I (Run.read v) (fun m ↦ [⟨.read v, m⟩]) (fun _ ↦ I) E := by
  intro m l hm
  rw [read_eq]
  cases hx : m.get? v with
  | none => exact hI.unread hm hv hx
  | some x => exact hI.read hm hv

theorem print (line : String) : Meets I (print line) (fun _ ↦ []) (fun _ ↦ I) E :=
  .of_unseen fun _ _ hm ↦ hI.talk hm _

theorem input : Meets I input (fun _ ↦ []) (fun _ ↦ I) E := .of_unseen fun _ _ hm ↦ hI.talk hm _

theorem random (min max : Int32) : Meets I (random limits min max) (fun _ ↦ []) (fun _ ↦ I) E := by
  unfold Run.random
  split
  · exact .throw fun _ _ hm ↦ hI.stop hm trivial
  · split
    · exact .pure fun _ _ hm ↦ hm
    · exact .of_unseen fun m l hm ↦ hI.draw (m := m) (l := l) hm

/-- The limit on calls lets one more pass only where it is above the calls that are active. -/
theorem checkDepth : Meets I (checkDepth limits) (fun _ ↦ [])
    (fun _ m l ↦ I m l ∧ ∀ d, limits.depth = some d → k < d) E := by
  refine .of_unseen fun m l hm ↦ ?_
  rw [checkDepth_eq, hI.frames hm]
  unfold allow
  cases limits.depth with
  | none => exact ⟨hm, nofun⟩
  | some d =>
    by_cases h : d ≤ k
    · simp only [if_pos h]
      exact hI.stop hm trivial
    · simp only [if_neg h]
      refine ⟨hm, fun d' hd ↦ ?_⟩
      obtain rfl := Option.some.inj hd
      omega

end Invariant

theorem Meets.imp {x : Run α} {t : Machine → List Moment} {Q Q' : α → History} {E' : Halt → History}
    (h : Meets P x t Q E) (hQ : ∀ a m l, Q a m l → Q' a m l) (hE : ∀ e m l, E e m l → E' e m l) :
    Meets P x t Q' E' := by
  intro m l hm
  have hx := h m l hm
  revert hx
  cases x m with
  | ok a m' => exact hQ a m' _
  | error e m' => exact hE e m' _

theorem binary_meets (hI : Invariant V W k I E) (o : BinaryOperator) {e e' : Expression}
    (hleft : Meets I (evaluate limits invoke e) (moments limits invoke watch e) (fun _ ↦ I) E)
    (hright : Meets I (evaluate limits invoke e') (moments limits invoke watch e') (fun _ ↦ I) E) :
    Meets I (evaluate limits invoke (.binary e o e')) (moments limits invoke watch (.binary e o e'))
      (fun _ ↦ I) E := by
  have hvalue (f : Bool → Run (Option Value)) (hf : ∀ b, ∃ x, f b = return x) :
      Meets I (evaluate limits invoke e' >>= fun y ↦ needBool y >>= f)
        (moments limits invoke watch e') (fun _ ↦ I) E := by
    refine hright.after fun y ↦ (hI.needBool y).after fun b ↦ ?_
    obtain ⟨x, hx⟩ := hf b
    rw [hx]
    exact .pure fun _ _ hm ↦ hm
  simp only [evaluate, moments]
  generalize o.action = action
  cases action
  case logicalAnd =>
    refine hleft.bind fun x ↦ (hI.needBool x).before fun b ↦ ?_
    cases b with
    | true => exact hvalue _ fun b ↦ ⟨_, rfl⟩
    | false => exact .pure fun _ _ hm ↦ hm
  case logicalOr =>
    refine hleft.bind fun x ↦ (hI.needBool x).before fun b ↦ ?_
    cases b with
    | true => exact .pure fun _ _ hm ↦ hm
    | false => exact hvalue _ fun b ↦ ⟨_, rfl⟩
  all_goals
    exact hleft.bind fun x ↦ (hI.need x).before fun x ↦ hright.after fun y ↦ (hI.need y).after fun y ↦
      (Meets.ofExcept (fun _ _ _ _ hm ↦ hm) fun _ _ _ hf hm ↦
        hI.stop hm (BinaryAction.plain_of_apply hf)).after fun _ ↦ .pure fun _ _ hm ↦ hm

def Filled (I : History) (vs : List Variable) (frame : Store) : History :=
  fun m l ↦ I m l ∧ ∀ v ∈ vs, (frame.get? v).isSome

theorem arguments_meet (hI : Invariant V W k I E) {es : List Expression}
    (h : ∀ e ∈ es, Meets I (evaluate limits invoke e) (moments limits invoke watch e) (fun _ ↦ I) E)
    (vs done : List Variable) (frame : Store) (hdone : ∀ v ∈ done, (frame.get? v).isSome) :
    Meets I (bindArguments limits invoke frame vs es)
      (argumentMoments limits invoke watch frame vs es)
      (fun frame ↦ Filled I (done ++ vs.take es.length) frame) E := by
  induction es generalizing vs done frame with
  | nil => cases vs <;> exact .pure fun _ _ hm ↦ ⟨hm, by simpa using hdone⟩
  | cons e es ih =>
    obtain ⟨he, hes⟩ := List.forall_mem_cons.mp h
    cases vs with
    | nil => exact .pure fun _ _ hm ↦ ⟨hm, by simpa using hdone⟩
    | cons v vs =>
      simp only [bindArguments, argumentMoments]
      refine he.bind fun o ↦ (hI.need o).before fun x ↦ ?_
      have hrest := ih hes vs (done ++ [v]) (frame.set v x) ?_
      · simpa using hrest
      · intro w hw
        rw [Store.get?_set]
        split
        · rfl
        · next hne => exact hdone w (by simpa [hne] using hw)

theorem call_meets (hI : Invariant V W k I E) (hcalls : CallsMeet C k I E limits invoke watch)
    (f : Function) {es : List Expression} (hC : C f es.length)
    (hes : ∀ e ∈ es, Meets I (evaluate limits invoke e) (moments limits invoke watch e) (fun _ ↦ I) E) :
    Meets I (evaluate limits invoke (.call f es)) (moments limits invoke watch (.call f es))
      (fun _ ↦ I) E := by
  have hstuck : Meets I (throw .stuck : Run (Option Value)) (fun _ ↦ []) (fun _ ↦ I) E :=
    .throw fun _ _ hm ↦ hI.stop hm trivial
  unfold evaluate moments
  generalize f.origin = origin
  rcases origin with (_ | _ | _) | id
  · cases es with
    | nil => exact hstuck
    | cons e es =>
      exact (hes e List.mem_cons_self).after fun x ↦ (hI.needString x).after fun line ↦
        (hI.print line).after fun _ ↦ .pure fun _ _ hm ↦ hm
  · exact hI.input.after fun _ ↦ .pure fun _ _ hm ↦ hm
  · rcases es with _ | ⟨e, _ | ⟨e', es⟩⟩
    · exact hstuck
    · exact (hes e List.mem_cons_self).after fun x ↦ (hI.needInt x).after fun _ ↦ hstuck
    · obtain ⟨he, hes⟩ := List.forall_mem_cons.mp hes
      exact he.bind fun x ↦ (hI.needInt x).before fun min ↦
        (hes e' List.mem_cons_self).after fun y ↦ (hI.needInt y).after fun max ↦
          (hI.random min max).after fun _ ↦ .pure fun _ _ hm ↦ hm
  · refine hI.checkDepth.before fun _ m l hm ↦ ?_
    have hargs := arguments_meet hI hes f.parameters [] .empty nofun
    refine Meets.bind hargs (fun frame m l hframe ↦ ?_) m l hm.1
    exact hcalls f es.length frame hC hframe.2 hm.2 m l hframe.1

mutual

theorem evaluate_meets (hI : Invariant V W k I E) (hcalls : CallsMeet C k I E limits invoke watch) :
    (e : Expression) → e.Respects V C → (∀ v ∈ e.assigned, W v) →
      Meets I (evaluate limits invoke e) (moments limits invoke watch e) (fun _ ↦ I) E
  | .error, _, _ => .throw fun _ _ hm ↦ hI.stop hm trivial
  | .literal _, _, _ => .pure fun _ _ hm ↦ hm
  | .var _, hv, _ => (hI.read_value hv).after fun _ ↦ .pure fun _ _ hm ↦ hm
  | .assign v e, he, hw => by
    obtain ⟨hv, hw⟩ := List.forall_mem_cons.mp hw
    exact (evaluate_meets hI hcalls e he hw).after fun o ↦ (hI.need o).after fun x ↦
      (hI.write_value hv x).after fun _ ↦ .pure fun _ _ hm ↦ hm.1
  | .unary _ e, he, hw =>
    (evaluate_meets hI hcalls e he hw).after fun o ↦ (hI.need o).after fun _ ↦
      (Meets.ofExcept (fun _ _ _ _ hm ↦ hm) fun _ _ _ hf hm ↦
        hI.stop hm (UnaryAction.plain_of_apply hf)).after fun _ ↦ .pure fun _ _ hm ↦ hm
  | .binary e o e', ⟨he, he'⟩, hw =>
    have hw := List.forall_mem_append.mp hw
    binary_meets hI o (evaluate_meets hI hcalls e he hw.1) (evaluate_meets hI hcalls e' he' hw.2)
  | .call f es, ⟨hC, hes⟩, hw => call_meets hI hcalls f hC (all_meet hI hcalls es hes hw)
  | .convert _ e, he, hw =>
    (evaluate_meets hI hcalls e he hw).after fun o ↦ (hI.need o).after fun _ ↦
      (Meets.ofExcept (fun _ _ _ _ hm ↦ hm) fun _ _ _ hf hm ↦
        hI.stop hm (Value.plain_of_convert hf)).after fun _ ↦ .pure fun _ _ hm ↦ hm

theorem all_meet (hI : Invariant V W k I E) (hcalls : CallsMeet C k I E limits invoke watch) :
    (es : List Expression) → Code.AllRespect V C es → (∀ v ∈ Code.assignedAll es, W v) → ∀ e ∈ es,
      Meets I (evaluate limits invoke e) (moments limits invoke watch e) (fun _ ↦ I) E
  | [], _, _ => nofun
  | e :: es, ⟨he, hes⟩, hw =>
    have hw := List.forall_mem_append.mp hw
    List.forall_mem_cons.mpr ⟨evaluate_meets hI hcalls e he hw.1, all_meet hI hcalls es hes hw.2⟩

end

def Arrives (b : Body) (s : Statement) (index j : Nat) (m : Machine) : Prop :=
  match s with
  | .goto l => place? b l = some j
  | .gotoIf l _ _ => j = index ∨ place? b l = some j
  | .declare v _ => j = index ∧ (m.get? v).isSome
  | .expression _ | .label _ => j = index
  | _ => False

def Lands (b : Body) (s : Statement) (index : Nat) (I : History) : Next → History
  | .at j _ => fun m l ↦ I m l ∧ Arrives b s index j m
  | .done _ => I

variable {b : Body}

theorem Invariant.target (hI : Invariant V W k I E) (l : Label) : Meets I (target b l) (fun _ ↦ [])
    (fun j m l' ↦ I m l' ∧ place? b l = some j) E := by
  rw [target_eq]
  cases place? b l with
  | none => exact .throw fun _ _ hm ↦ hI.stop hm trivial
  | some j => exact .pure fun _ _ hm ↦ ⟨hm, rfl⟩

theorem step_meets (hI : Invariant V W k I E) (hcalls : CallsMeet C k I E limits invoke watch)
    (index : Nat) (last : Option Value) {s : Statement} (hs : ∀ e ∈ s.operand?, e.Respects V C)
    (hw : ∀ v ∈ s.assigned, W v) :
    Meets I (step limits invoke b index last s) (stepMoments limits invoke watch s)
      (Lands b s index I) E := by
  have hnext {l : Label} (h : ∀ j, place? b l = some j → ∀ m, Arrives b s index j m) :
      Meets I (do return Next.at (← target b l) last) (fun _ ↦ []) (Lands b s index I) E :=
    (hI.target l).after fun j ↦ .pure fun m _ hm ↦ ⟨hm.1, h j hm.2 m⟩
  have hoperand {e : Expression} (he : e ∈ s.operand?) :
      Meets I (evaluate limits invoke e) (moments limits invoke watch e) (fun _ ↦ I) E :=
    evaluate_meets hI hcalls e (hs e he) fun v hv ↦ hw v (Statement.assigned_operand he hv)
  cases s with
  | declare v e =>
    exact (hoperand rfl).after fun o ↦ (hI.need o).after fun x ↦
      (hI.write_value (hw v List.mem_cons_self) x).after fun _ ↦ .pure fun _ _ hm ↦ ⟨hm.1, rfl, hm.2⟩
  | expression e => exact (hoperand rfl).after fun o ↦ .pure fun _ _ hm ↦ ⟨hm, rfl⟩
  | label l => exact .pure fun _ _ hm ↦ ⟨hm, rfl⟩
  | goto l => exact hnext fun j hj _ ↦ hj
  | gotoIf l e negated =>
    refine (hoperand rfl).after fun o ↦ (hI.needBool o).after fun t ↦ ?_
    split
    · exact .pure fun _ _ hm ↦ ⟨hm, .inl rfl⟩
    · exact hnext fun j hj _ ↦ .inr hj
  | leave e =>
    cases e with
    | none => exact .pure fun _ _ hm ↦ hm
    | some e => exact (hoperand rfl).after fun o ↦ .pure fun _ _ hm ↦ hm
  | block | ifThen | ifElse | whileLoop | doLoop | forLoop =>
    exact .throw fun _ _ hm ↦ hI.stop hm trivial

/-- A property for each place of a body that goes on to the place that each statement leads to. -/
structure Steps (I : Nat → History) (K : History) (E : Halt → History) (limits : Limits) (invoke : Invoke)
    (watch : Watch) (b : Body) : Prop where
  tick : ∀ {i s}, b[i]? = some s → Meets (I i) (tick limits)
    (andThen (tick limits) fun _ m ↦ [⟨.begin s, m⟩]) (fun _ ↦ I i) E
  step : ∀ {i s}, b[i]? = some s → ∀ last, Meets (I i) (step limits invoke b (i + 1) last s)
    (stepMoments limits invoke watch s) (fun | .at j _ => I j | .done _ => K) E
  unfinished : ∀ {i m l}, I i m l → E .unfinished m l
  beyond : ∀ {i m l}, I i m l → K m l

theorem Steps.body {I : Nat → History} {K : History} (h : Steps I K E limits invoke watch b) (n i : Nat)
    (last : Option Value) :
    Meets (I i) (body limits invoke b n i last) (bodyMoments limits invoke watch b n i last)
      (fun _ ↦ K) E := by
  induction n generalizing i last with
  | zero => exact .throw fun _ _ hm ↦ h.unfinished hm
  | succ n ih =>
    unfold Run.body bodyMoments
    cases hs : b[i]? with
    | none => exact .pure fun _ _ ↦ h.beyond
    | some s =>
      have hcons (t : Machine → List Moment) : andThen (Run.tick limits) (fun _ m ↦ ⟨.begin s, m⟩ :: t m) =
          fun m ↦ andThen (Run.tick limits) (fun _ m ↦ [⟨.begin s, m⟩]) m ++
            andThen (Run.tick limits) (fun _ ↦ t) m := by
        funext m
        unfold andThen
        split <;> rfl
      dsimp only
      rw [hcons]
      refine (h.tick hs).bind fun _ ↦ (h.step hs last).bind fun next ↦ ?_
      cases next with
      | «at» j last => exact ih j last
      | done result => exact .pure fun _ _ hm ↦ hm

/-- A property for each place of a body, which holds of the next place after each statement. -/
structure Holds (V W : Nat → Variable → Prop) (C : Function → Nat → Prop) (k : Nat) (I : Nat → History)
    (E : Halt → History) (limits : Limits) (b : Body) : Prop where
  invariant : ∀ i, Invariant (V i) (W i) k (I i) E
  respects : ∀ {i} {s : Statement}, b[i]? = some s → ∀ e ∈ s.operand?, e.Respects (V i) C
  assigns : ∀ {i} {s : Statement}, b[i]? = some s → ∀ v ∈ s.assigned, W i v
  tick : ∀ {i s}, b[i]? = some s → Meets (I i) (tick limits)
    (andThen (tick limits) fun _ m ↦ [⟨.begin s, m⟩]) (fun _ ↦ I i) E
  go : ∀ {i s j m l}, b[i]? = some s → Arrives b s (i + 1) j m → I i m l → I j m l

theorem body_meets {V W : Nat → Variable → Prop} {I : Nat → History} {K : History}
    (h : Holds V W C k I E limits b) (hcalls : ∀ i, CallsMeet C k (I i) E limits invoke watch)
    (hK : ∀ i m l, I i m l → K m l) (n i : Nat) (last : Option Value) :
    Meets (I i) (body limits invoke b n i last) (bodyMoments limits invoke watch b n i last)
      (fun _ ↦ K) E := by
  refine Steps.body ⟨h.tick, fun {i s} hs last ↦ ?_, fun hm ↦ (h.invariant _).stop hm trivial, hK _ _ _⟩ n i
    last
  have hstep := step_meets (b := b) (h.invariant i) (hcalls i) (i + 1) last (h.respects hs) (h.assigns hs)
  refine hstep.imp (fun next m l hm ↦ ?_) fun _ _ _ ↦ id
  cases next with
  | «at» j last => exact h.go hs hm.2 hm.1
  | done result => exact hK _ _ _ hm

theorem Meets.frame {x : Run α} {t : Machine → List Moment} {I' : History} {Q Q' : α → History}
    {E' : Halt → History} (act : Act) (frame : Store) (h : Meets I' x t Q' E')
    (hin : ∀ m l, P m l → I' { m with frames := frame :: m.frames }
      (l ++ [⟨act, { m with frames := frame :: m.frames }⟩]))
    (hout : ∀ a m l, Q' a m l → Q a { m with frames := m.frames.tail } l)
    (hstop : ∀ e m l, E' e m l → E e { m with frames := m.frames.tail } l) :
    Meets P (withFrame frame x)
      (fun m ↦ ⟨act, { m with frames := frame :: m.frames }⟩ :: t { m with frames := frame :: m.frames })
      Q E := by
  intro m l hm
  have hx := h _ _ (hin m l hm)
  unfold withFrame
  rw [List.append_cons]
  cases hr : x { m with frames := frame :: m.frames } with
  | ok a m' =>
    rw [hr] at hx
    exact hout a m' _ hx
  | error e m' =>
    rw [hr] at hx
    exact hstop e m' _ hx

end Evaluate

end Run

end SmallScript
