import SmallScript.Proofs.Code.Parts
import SmallScript.Proofs.Flow.Split
import SmallScript.Run.Evaluate

namespace SmallScript

open Code (Expression Statement Body)

/-- What a run does next: carry out a function, carry out a statement, or read a variable. -/
inductive Act
  | enter (f : Function)
  | begin (s : Statement)
  | read (v : Variable)

structure Moment where
  act : Act
  machine : Machine

namespace Machine

variable (m : Machine) (v : Variable) (x : Value)

theorem length_frames_set : (m.set v x).frames.length = m.frames.length := by
  unfold set
  split <;> simp_all

theorem tail_frames_set : (m.set v x).frames.tail = m.frames.tail := by
  unfold set
  split <;> simp_all

theorem steps_set : (m.set v x).steps = m.steps := by
  unfold set
  split <;> rfl

end Machine

namespace Run

variable {α β : Type}

/-- The machine that a run ends with. -/
def final : EStateM.Result Halt Machine α → Machine
  | .ok _ m => m
  | .error _ m => m

/-- Why a run has no result. -/
def halt? : EStateM.Result Halt Machine α → Option Halt
  | .ok _ _ => none
  | .error e _ => some e

def andThen (x : Run α) (t : α → Machine → List Moment) (m : Machine) : List Moment :=
  match x m with
  | .ok a m' => t a m'
  | .error _ _ => []

abbrev Watch := Function → Store → Machine → List Moment

section Moments

variable (limits : Limits) (invoke : Invoke) (watch : Watch)

mutual

/-- What is seen of an expression. -/
def moments : Expression → Machine → List Moment
  | .error | .literal _ => fun _ ↦ []
  | .var v => fun m ↦ [⟨.read v, m⟩]
  | .assign _ e | .unary _ e | .convert _ e => moments e
  | .binary e o e' => fun m ↦ moments e m ++ andThen (evaluate limits invoke e) (fun x ↦
    match o.action with
    | .logicalAnd => andThen (needBool x) fun b ↦ if b then moments e' else fun _ ↦ []
    | .logicalOr => andThen (needBool x) fun b ↦ if b then fun _ ↦ [] else moments e'
    | _ => andThen (need x) fun _ ↦ moments e') m
  | .call f arguments =>
    match f.origin, arguments with
    | .builtin .print, e :: _ => moments e
    | .builtin .input, _ => fun _ ↦ []
    | .builtin .random, e :: e' :: _ => fun m ↦ moments e m ++
      andThen (evaluate limits invoke e) (fun x ↦ andThen (needInt x) fun _ ↦ moments e') m
    | .builtin .random, [e] => moments e
    | .builtin _, _ => fun _ ↦ []
    | .declared _, es => andThen (checkDepth limits) fun _ m ↦
      argumentMoments .empty f.parameters es m ++
        andThen (bindArguments limits invoke .empty f.parameters es) (watch f) m

def argumentMoments (frame : Store) : List Variable → List Expression → Machine → List Moment
  | v :: vs, e :: es => fun m ↦ moments e m ++
    andThen (evaluate limits invoke e) (fun x ↦
      andThen (need x) fun x ↦ argumentMoments (frame.set v x) vs es) m
  | _, _ => fun _ ↦ []

end

def stepMoments (s : Statement) : Machine → List Moment :=
  s.operand?.elim (fun _ ↦ []) (moments limits invoke watch)

/-- What is seen of a body from a place on. -/
def bodyMoments (b : Body) : (n : Nat) → (index : Nat) → (last : Option Value) → Machine → List Moment
  | 0, _, _ => fun _ ↦ []
  | n + 1, index, last =>
    match b[index]? with
    | none => fun _ ↦ []
    | some s => andThen (tick limits) fun _ m ↦
      ⟨.begin s, m⟩ :: (stepMoments limits invoke watch s m ++
        andThen (step limits invoke b (index + 1) last s) (fun
          | .at index last => bodyMoments b n index last
          | .done _ => fun _ ↦ []) m)

/-- What is seen of a call, at first with its frame. -/
def callMoments (p : Program) : (n : Nat) → Watch
  | 0, _, _ => fun _ ↦ []
  | n + 1, f, frame =>
    match p.body? f with
    | none => fun _ ↦ []
    | some b => fun m ↦
      let m : Machine := { m with frames := frame :: m.frames }
      ⟨.enter f, m⟩ :: bodyMoments limits (call p limits n) (callMoments p n) b n 0 none m

end Moments

end Run

/-- What is seen of a run of a program. -/
def Program.moments (p : Program) (limits : Limits) (n : Nat) : Machine → List Moment :=
  Run.bodyMoments limits (Run.call p limits n) (Run.callMoments limits p n) p.main n 0 none

abbrev History := Machine → List Moment → Prop

def Halt.Plain : Halt → Prop
  | .fault (.stepLimitExceeded _) | .fault (.unassignedVariable _) => False
  | _ => True

theorem Value.plain_of_int? {x : Value} {f : Fault} (h : x.int? = .error f) : (Halt.fault f).Plain := by
  cases x <;> cases h <;> trivial

theorem Value.plain_of_bool? {x : Value} {f : Fault} (h : x.bool? = .error f) :
    (Halt.fault f).Plain := by
  cases x <;> cases h <;> trivial

theorem Value.plain_of_string? {x : Value} {f : Fault} (h : x.string? = .error f) :
    (Halt.fault f).Plain := by
  cases x <;> cases h <;> trivial

theorem UnaryAction.plain_of_apply {a : UnaryAction} {x : Value} {f : Fault}
    (h : a.apply x = .error f) : (Halt.fault f).Plain := by
  cases a <;> cases x <;> cases h <;> trivial

theorem BinaryAction.plain_of_apply {a : BinaryAction} {x y : Value} {f : Fault}
    (h : a.apply x y = .error f) : (Halt.fault f).Plain := by
  unfold apply at h
  split at h
  case h_7 =>
    split at h
    · cases h
      trivial
    · nomatch h
  all_goals cases h <;> trivial

theorem Value.plain_of_convert {x : Value} {t : Ty} {f : Fault} (h : x.convert t = .error f) :
    (Halt.fault f).Plain := by
  unfold convert at h
  split at h
  case h_3 | h_5 => split at h <;> cases h; trivial
  all_goals cases h <;> trivial

namespace Code

mutual

/-- Whether an expression reads only variables with `V`, and calls functions only with numbers of
arguments that have `C`. -/
def Expression.Respects (V : Variable → Prop) (C : Function → Nat → Prop) : Expression → Prop
  | .error | .literal _ => True
  | .var v => V v
  | .assign _ e | .unary _ e | .convert _ e => e.Respects V C
  | .binary e _ e' => e.Respects V C ∧ e'.Respects V C
  | .call f es => C f es.length ∧ AllRespect V C es

def AllRespect (V : Variable → Prop) (C : Function → Nat → Prop) : List Expression → Prop
  | [] => True
  | e :: es => e.Respects V C ∧ AllRespect V C es

end

end Code

namespace Run

theorem read_eq (v : Variable) (m : Machine) : read v m = match m.get? v with
    | some x => .ok x m
    | none => .error (.fault (.unassignedVariable v.name)) m := by
  change (match m.get? v with
    | some x => return x
    | none => fail (.unassignedVariable v.name) : Run Value) m = _
  cases m.get? v <;> rfl

def allow (limit : Option Nat) (count : Nat) (fault : Nat → Fault) (m : Machine) :
    EStateM.Result Halt Machine Unit :=
  match limit with
  | some k => if k ≤ count then .error (.fault (fault k)) m else .ok () m
  | none => .ok () m

theorem checkDepth_eq (limits : Limits) (m : Machine) :
    checkDepth limits m = allow limits.depth m.frames.length .callDepthExceeded m := by
  unfold checkDepth allow
  cases limits.depth with
  | none => rfl
  | some d =>
    change (if d ≤ m.frames.length then fail (.callDepthExceeded d) else pure () : Run Unit) m = _
    dsimp only
    split <;> rfl

theorem tick_eq (limits : Limits) (m : Machine) : tick limits m =
    allow limits.steps m.steps .stepLimitExceeded { m with steps := m.steps + 1 } := by
  unfold tick allow
  change (match limits.steps with | some k => _ | none => _ : Run Unit) m = _
  cases limits.steps with
  | none => rfl
  | some k =>
    change (if k ≤ m.steps then _ else _ : Run Unit) m = _
    dsimp only
    split <;> rfl

variable {α β : Type} {P : History} {E : Halt → History}

/-- From a machine with `P` on, what an action does and what is seen of it lead to `Q` with a result, and
to `E` without one. -/
def Meets (P : History) (x : Run α) (t : Machine → List Moment) (Q : α → History)
    (E : Halt → History) : Prop :=
  ∀ m l, P m l → match x m with
    | .ok a m' => Q a m' (l ++ t m)
    | .error e m' => E e m' (l ++ t m)

namespace Meets

theorem of_unseen {x : Run α} {Q : α → History} (h : ∀ m l, P m l → match x m with
    | .ok a m' => Q a m' l
    | .error e m' => E e m' l) : Meets P x (fun _ ↦ []) Q E := by
  intro m l hm
  rw [List.append_nil]
  exact h m l hm

theorem pure {a : α} {Q : α → History} (h : ∀ m l, P m l → Q a m l) :
    Meets P (pure a) (fun _ ↦ []) Q E := of_unseen h

theorem throw {e : Halt} {Q : α → History} (h : ∀ m l, P m l → E e m l) :
    Meets P (throw e : Run α) (fun _ ↦ []) Q E := of_unseen h

theorem ofExcept {x : Except Fault α} {Q : α → History} (hok : ∀ a m l, x = .ok a → P m l → Q a m l)
    (herror : ∀ f m l, x = .error f → P m l → E (.fault f) m l) :
    Meets P (ofExcept x) (fun _ ↦ []) Q E := by
  cases x with
  | ok a => exact pure fun m l ↦ hok a m l rfl
  | error f => exact throw fun m l ↦ herror f m l rfl

theorem bind {x : Run α} {f : α → Run β} {t : Machine → List Moment} {u : α → Machine → List Moment}
    {Q : α → History} {R : β → History} (hx : Meets P x t Q E) (hf : ∀ a, Meets (Q a) (f a) (u a) R E) :
    Meets P (x >>= f) (fun m ↦ t m ++ andThen x u m) R E := by
  intro m l hm
  have h := hx m l hm
  change match EStateM.bind x f m with
    | .ok a m' => R a m' _
    | .error e m' => E e m' _
  unfold EStateM.bind
  cases hr : x m with
  | ok a m' =>
    rw [hr] at h
    have hrest := hf a m' _ h
    simpa only [andThen, hr, List.append_assoc] using hrest
  | error e m' =>
    rw [hr] at h
    simpa only [andThen, hr, List.append_nil] using h

theorem before {x : Run α} {f : α → Run β} {u : α → Machine → List Moment} {Q : α → History}
    {R : β → History} (hx : Meets P x (fun _ ↦ []) Q E) (hf : ∀ a, Meets (Q a) (f a) (u a) R E) :
    Meets P (x >>= f) (andThen x u) R E := hx.bind hf

theorem after {x : Run α} {f : α → Run β} {t : Machine → List Moment} {Q : α → History}
    {R : β → History} (hx : Meets P x t Q E) (hf : ∀ a, Meets (Q a) (f a) (fun _ ↦ []) R E) :
    Meets P (x >>= f) t R E := by
  have hnil : (fun m ↦ t m ++ andThen x (fun _ _ ↦ []) m) = t := by
    funext m
    unfold andThen
    split <;> simp
  rw [← hnil]
  exact hx.bind hf

/-- Before each statement a step is counted, and the limit on steps is kept. -/
theorem tick {limits : Limits} (s : Statement) {Q : History}
    (hgo : ∀ m l, P m l → Q { m with steps := m.steps + 1 } (l ++ [⟨.begin s, { m with steps := m.steps + 1 }⟩]))
    (hstop : ∀ k m l, P m l → E (.fault (.stepLimitExceeded k)) { m with steps := m.steps + 1 } l) :
    Meets P (tick limits) (andThen (tick limits) fun _ m ↦ [⟨.begin s, m⟩]) (fun _ ↦ Q) E := by
  intro m l h
  unfold andThen
  rw [tick_eq]
  unfold allow
  cases limits.steps with
  | none => exact hgo m l h
  | some k =>
    by_cases hk : k ≤ m.steps
    · simpa only [if_pos hk, List.append_nil] using hstop k m l h
    · simpa only [if_neg hk] using hgo m l h

end Meets

/-- A property that goes on through all that an expression does by itself while `k` calls are active, if it
reads variables with `V` and assigns variables with `W`. -/
structure Invariant (V W : Variable → Prop) (k : Nat) (I : History) (E : Halt → History) : Prop where
  frames : ∀ {m l}, I m l → m.frames.length = k
  write : ∀ {m l v}, I m l → W v → ∀ x, I (m.set v x) l
  read : ∀ {m l v}, I m l → V v → I m (l ++ [⟨.read v, m⟩])
  unread : ∀ {m l v}, I m l → V v → m.get? v = none →
    E (.fault (.unassignedVariable v.name)) m (l ++ [⟨.read v, m⟩])
  draw : ∀ {m l}, I m l → I { m with draws := m.draws + 1 } l
  talk : ∀ {m l}, I m l → ∀ c, I { m with console := c } l
  stop : ∀ {m l e}, I m l → e.Plain → E e m l

def Binds (f : Function) (n : Nat) (frame : Store) : Prop :=
  ∀ v ∈ f.parameters.take n, (frame.get? v).isSome

end Run

end SmallScript
