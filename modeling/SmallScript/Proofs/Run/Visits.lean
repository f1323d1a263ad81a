import SmallScript.Proofs.Code.Flatten
import SmallScript.Proofs.Flow.Split
import SmallScript.Run.Evaluate

namespace SmallScript.Run

open Code (Statement Body Expression)

/-- A place that a run of a body is at, with the machine and the last value there. -/
structure Point where
  machine : Machine
  index : Nat
  last : Option Value

section Visits

variable (limits : Limits) (invoke : Invoke) (b : Body)

/-- Carries out the statement at a point, which counts as a step before it does anything. -/
def carryOut (p : Point) (s : Statement) : EStateM.Result Halt Machine Next :=
  (do tick limits; step limits invoke b (p.index + 1) p.last s) p.machine

/-- What the statement at a point does on the machine that has counted it, and what comes next. -/
inductive Carries (p : Point) (m : Machine) : Statement → Next → Machine → Prop
  | declare {v : Variable} {e : Expression} {x : Value} {m₁ : Machine}
      (he : evaluate limits invoke e m = .ok (some x) m₁) :
      Carries p m (.declare v e) (.at (p.index + 1) (some x)) (m₁.set v x)
  | expression {e : Expression} {o : Option Value} {m₁ : Machine} (he : evaluate limits invoke e m = .ok o m₁) :
      Carries p m (.expression e) (.at (p.index + 1) o) m₁
  | label {l : Label} : Carries p m (.label l) (.at (p.index + 1) p.last) m
  | goto {l : Label} {j : Nat} (hl : place? b l = some j) : Carries p m (.goto l) (.at j p.last) m
  | stay {l : Label} {e : Expression} {negated : Bool} {m₁ : Machine}
      (he : (evaluate limits invoke e >>= needBool) m = .ok negated m₁) :
      Carries p m (.gotoIf l e negated) (.at (p.index + 1) p.last) m₁
  | jump {l : Label} {e : Expression} {t negated : Bool} {m₁ : Machine} {j : Nat}
      (he : (evaluate limits invoke e >>= needBool) m = .ok t m₁) (hne : t ≠ negated)
      (hl : place? b l = some j) : Carries p m (.gotoIf l e negated) (.at j p.last) m₁
  | leave : Carries p m (.leave none) (.done none) m
  | leaveWith {e : Expression} {o : Option Value} {m₁ : Machine} (he : evaluate limits invoke e m = .ok o m₁) :
      Carries p m (.leave (some e)) (.done o) m₁

/-- Whether a condition gives `t` where a run is at the jump that tests it. -/
def Finds (p : Point) (e : Expression) (t : Bool) : Prop :=
  ∃ m, (do tick limits; needBool (← evaluate limits invoke e)) p.machine = .ok t m

/-- The points that a run comes to from a machine on, each after `k` statements. -/
inductive Visits (m : Machine) : (k : Nat) → Point → Prop
  | start : Visits m 0 ⟨m, 0, none⟩
  | go {k j : Nat} {p : Point} {s : Statement} {last : Option Value} {m' : Machine}
      (h : Visits m k p) (hs : b[p.index]? = some s)
      (hgo : carryOut limits invoke b p s = .ok (.at j last) m') : Visits m (k + 1) ⟨m', j, last⟩

/-- The point that a run comes to after `k` statements, if it gets that far. -/
def pointAfter? (m : Machine) : (k : Nat) → Option Point
  | 0 => some ⟨m, 0, none⟩
  | k + 1 =>
    (pointAfter? m k).bind fun p ↦
      b[p.index]?.bind fun s ↦
        match carryOut limits invoke b p s with
        | .ok (.at j last) m' => some ⟨m', j, last⟩
        | _ => none

end Visits

variable {limits : Limits} {invoke : Invoke} {b : Body}

theorem visits_iff {m : Machine} {k : Nat} {p : Point} :
    Visits limits invoke b m k p ↔ pointAfter? limits invoke b m k = some p := by
  constructor
  · intro h
    induction h with
    | start => rfl
    | go h hs hgo ih => simp only [pointAfter?, ih, Option.bind_some, hs, hgo]
  · intro h
    induction k generalizing p with
    | zero =>
      obtain rfl := Option.some.inj h
      exact .start
    | succ k ih =>
      obtain ⟨q, hq, h⟩ := Option.bind_eq_some_iff.mp h
      obtain ⟨s, hs, h⟩ := Option.bind_eq_some_iff.mp h
      split at h
      · next j last m' hgo =>
        obtain rfl := Option.some.inj h
        exact .go (ih hq) hs hgo
      · nomatch h

theorem bind_eq_ok {α β : Type} {x : Run α} {f : α → Run β} {m m' : Machine} {c : β}
    (h : (x >>= f) m = .ok c m') : ∃ a m₁, x m = .ok a m₁ ∧ f a m₁ = .ok c m' := by
  change EStateM.bind x f m = .ok c m' at h
  unfold EStateM.bind at h
  split at h
  · next a m₁ hx => exact ⟨a, m₁, hx, h⟩
  · nomatch h

theorem bind_of_ok {α β : Type} {x : Run α} {f : α → Run β} {m m' : Machine} {a : α} (h : x m = .ok a m') :
    (x >>= f) m = f a m' := by
  change EStateM.bind x f m = _
  unfold EStateM.bind
  rw [h]

theorem bind_of_error {α β : Type} {x : Run α} {f : α → Run β} {m m' : Machine} {e : Halt} (h : x m = .error e m') :
    (x >>= f) m = .error e m' := by
  change EStateM.bind x f m = _
  unfold EStateM.bind
  rw [h]

theorem place?_of_target {l : Label} {j : Nat} {m m' : Machine} (h : target b l m = .ok j m') :
    place? b l = some j ∧ m' = m := by
  rw [target_eq] at h
  split at h
  · next j' hj =>
    cases h
    exact ⟨hj, rfl⟩
  · nomatch h

theorem carries_of_carryOut {p : Point} {s : Statement} {next : Next} {m' : Machine}
    (h : carryOut limits invoke b p s = .ok next m') :
    ∃ m, tick limits p.machine = .ok () m ∧ Carries limits invoke b p m s next m' := by
  obtain ⟨_, m, htick, h⟩ := bind_eq_ok h
  refine ⟨m, htick, ?_⟩
  cases s with
  | declare v e =>
    obtain ⟨o, m₁, he, h⟩ := bind_eq_ok h
    obtain ⟨x, m₂, hx, h⟩ := bind_eq_ok h
    obtain ⟨_, m₃, hv, h⟩ := bind_eq_ok h
    cases o with
    | none => nomatch hx
    | some x' =>
      cases hx
      cases hv
      cases h
      exact .declare he
  | expression e =>
    obtain ⟨o, m₁, he, h⟩ := bind_eq_ok h
    cases h
    exact .expression he
  | label l =>
    cases h
    exact .label
  | goto l =>
    obtain ⟨j, m₁, hj, h⟩ := bind_eq_ok h
    cases h
    obtain ⟨hl, rfl⟩ := place?_of_target hj
    exact .goto hl
  | gotoIf l e negated =>
    obtain ⟨o, m₁, ho, h⟩ := bind_eq_ok h
    obtain ⟨t, m₂, ht, h⟩ := bind_eq_ok h
    have he : (evaluate limits invoke e >>= needBool) m = .ok t m₂ := (bind_of_ok ho).trans ht
    split at h
    · next hn =>
      cases h
      exact .stay (hn ▸ he)
    · next hn =>
      obtain ⟨j, m₃, hj, h⟩ := bind_eq_ok h
      cases h
      obtain ⟨hl, rfl⟩ := place?_of_target hj
      exact .jump he hn hl
  | leave e =>
    cases e with
    | none =>
      cases h
      exact .leave
    | some e =>
      obtain ⟨o, m₁, he, h⟩ := bind_eq_ok h
      cases h
      exact .leaveWith he
  | block | ifThen | ifElse | whileLoop | doLoop | forLoop => nomatch h

/-- What the statement at a place may be, if control goes on from there, and where it goes on. -/
theorem carryOut_at {p : Point} {s : Statement} {j : Nat} {last : Option Value} {m : Machine}
    (h : carryOut limits invoke b p s = .ok (.at j last) m) :
    match s with
    | .goto l => place? b l = some j
    | .gotoIf l e negated => ∃ t, Finds limits invoke p e t ∧
        if t = negated then j = p.index + 1 else place? b l = some j
    | .declare _ _ | .expression _ | .label _ => j = p.index + 1
    | _ => False := by
  obtain ⟨m₁, htick, h⟩ := carries_of_carryOut h
  cases h with
  | declare | expression | label => rfl
  | goto hl => exact hl
  | stay he => exact ⟨_, ⟨_, (bind_of_ok htick).trans he⟩, by rw [if_pos rfl]⟩
  | jump he hne hl => exact ⟨_, ⟨_, (bind_of_ok htick).trans he⟩, by rwa [if_neg hne]⟩

theorem carryOut_done {p : Point} {s : Statement} {result : Option Value} {m : Machine}
    (h : carryOut limits invoke b p s = .ok (.done result) m) : ∃ e, s = .leave e := by
  obtain ⟨m₁, -, h⟩ := carries_of_carryOut h
  cases h with
  | leave | leaveWith => exact ⟨_, rfl⟩

theorem body_succ (n : Nat) (p : Point) :
    body limits invoke b (n + 1) p.index p.last p.machine = match b[p.index]? with
      | none => .ok p.last p.machine
      | some s => match carryOut limits invoke b p s with
        | .ok (.at j last) m => body limits invoke b n j last m
        | .ok (.done result) m => .ok result m
        | .error e m => .error e m := by
  conv_lhs => unfold body
  cases b[p.index]? with
  | none => rfl
  | some s =>
    have hcarry : carryOut limits invoke b p s =
        EStateM.bind (tick limits) (fun _ ↦ step limits invoke b (p.index + 1) p.last s) p.machine := rfl
    change EStateM.bind (tick limits) _ p.machine = _
    dsimp only
    rw [hcarry]
    unfold EStateM.bind
    cases tick limits p.machine with
    | error e m => rfl
    | ok _ m =>
      change EStateM.bind _ _ m = _
      unfold EStateM.bind
      dsimp only
      cases step limits invoke b (p.index + 1) p.last s m with
      | error e m => rfl
      | ok next m => cases next <;> rfl

theorem body_of_visits {m : Machine} {k : Nat} {p : Point} (h : Visits limits invoke b m k p) (n : Nat) :
    body limits invoke b (k + n) 0 none m = body limits invoke b n p.index p.last p.machine := by
  induction h generalizing n with
  | start => rw [Nat.zero_add]
  | @go k j p s last m' h hs hgo ih =>
    rw [Nat.add_assoc, Nat.add_comm 1 n, ih (n + 1), body_succ, hs]
    simp only [hgo]

/-- A run that has a result passes the last statement, or comes to a return that gives the result. -/
theorem exists_end_of_body {m m' : Machine} {n : Nat} {result : Option Value}
    (h : body limits invoke b n 0 none m = .ok result m') :
    ∃ k < n, ∃ p, Visits limits invoke b m k p ∧
      (b[p.index]? = none ∨ ∃ e, b[p.index]? = some (.leave e) ∧
        carryOut limits invoke b p (.leave e) = .ok (.done result) m') := by
  suffices ∀ (n k : Nat) (p : Point), Visits limits invoke b m k p →
      body limits invoke b n p.index p.last p.machine = .ok result m' →
      ∃ k' < k + n, ∃ p, Visits limits invoke b m k' p ∧
        (b[p.index]? = none ∨ ∃ e, b[p.index]? = some (.leave e) ∧
          carryOut limits invoke b p (.leave e) = .ok (.done result) m') by
    simpa using this n 0 ⟨m, 0, none⟩ .start h
  intro n
  induction n with
  | zero => exact fun k p hp h ↦ nomatch h
  | succ n ih =>
    intro k p hp h
    rw [body_succ] at h
    split at h
    · next hnone => exact ⟨k, by omega, p, hp, .inl hnone⟩
    · next s hs =>
      split at h
      · next j last m₁ hgo =>
        obtain ⟨k', hk', q, hq⟩ := ih (k + 1) _ (.go hp hs hgo) h
        exact ⟨k', by omega, q, hq⟩
      · next result' m₁ hdone =>
        cases h
        obtain ⟨e, rfl⟩ := carryOut_done hdone
        exact ⟨k, by omega, p, hp, .inr ⟨e, hs, hdone⟩⟩
      · nomatch h

end SmallScript.Run
