import SmallScript.Proofs.Run.Visits

namespace SmallScript

open Code (Expression Statement Body)

/-- Whether a statement of flat code gives a value as it is carried out. -/
def Code.Statement.givesValue : Statement → Bool
  | .declare _ _ | .expression _ => true
  | _ => false

def Function.GivesNothing (f : Function) : Prop :=
  f = Builtin.print.function ∨ (∃ id, f.origin = .declared id) ∧ f.returns = .void

namespace Run

/-- What the statement at a place gave. A call may have given nothing. -/
structure Given where
  place : Nat
  value : Option Value
  deriving DecidableEq

section Given

variable (limits : Limits) (invoke : Invoke) (b : Body) (m : Machine)

/-- What a run gives by the statement that follows `k` others. -/
def givenAt? (k : Nat) : Option Given := do
  let p ← pointAfter? limits invoke b m k
  let q ← pointAfter? limits invoke b m (k + 1)
  if (b[p.index]?).any Statement.givesValue then some ⟨p.index, q.last⟩ else none

/-- What a run gives by its first `k` statements, one after the other. -/
def given (k : Nat) : List Given := (List.range k).filterMap (givenAt? limits invoke b m)

end Given

/-- The last value that was given. -/
def lastValue (given : List Given) : Option Value := given.getLast?.bind (·.value)

variable {limits : Limits} {invoke : Invoke} {b : Body} {m : Machine} {k : Nat} {p : Point} {s : Statement}

theorem givenAt?_eq (h : Visits limits invoke b m k p) (hs : b[p.index]? = some s) {j : Nat} {last : Option Value}
    {m' : Machine} (hgo : carryOut limits invoke b p s = .ok (.at j last) m') :
    givenAt? limits invoke b m k = if s.givesValue then some ⟨p.index, last⟩ else none := by
  simp only [givenAt?, visits_iff.mp h, visits_iff.mp (h.go hs hgo), Option.bind_eq_bind, Option.bind_some, hs,
    Option.any_some]

theorem mem_given {g : Given} : g ∈ given limits invoke b m k ↔ ∃ j < k, ∃ p s i m',
    Visits limits invoke b m j p ∧ b[p.index]? = some s ∧ s.givesValue ∧
      carryOut limits invoke b p s = .ok (.at i g.value) m' ∧ g.place = p.index := by
  simp only [given, List.mem_filterMap, List.mem_range]
  refine exists_congr fun j ↦ and_congr_right fun _ ↦ ⟨fun h ↦ ?_, ?_⟩
  · obtain ⟨p, hp, hrest⟩ := Option.bind_eq_some_iff.mp h
    obtain ⟨q, hq, -⟩ := Option.bind_eq_some_iff.mp hrest
    cases visits_iff.mpr hq with
    | go hv hs hgo =>
      rw [givenAt?_eq hv hs hgo] at h
      split at h
      · next hvalue =>
        obtain rfl := Option.some.inj h
        exact ⟨_, _, _, _, hv, hs, hvalue, hgo, rfl⟩
      · nomatch h
  · rintro ⟨p, s, i, m', hv, hs, hvalue, hgo, hplace⟩
    rw [givenAt?_eq hv hs hgo, if_pos hvalue, ← hplace]

theorem last_of_carryOut (hs : s.givesValue = false) {j : Nat} {last : Option Value} {m' : Machine}
    (h : carryOut limits invoke b p s = .ok (.at j last) m') : last = p.last := by
  obtain ⟨m, -, h⟩ := carries_of_carryOut h
  cases h with
  | declare | expression => nomatch hs
  | label | goto | stay | jump => rfl

theorem last_of_visits (h : Visits limits invoke b m k p) : p.last = lastValue (given limits invoke b m k) := by
  induction h with
  | start => rfl
  | @go k j p s last m' h hs hgo ih =>
    rw [given, List.range_succ, List.filterMap_append, ← given, List.filterMap_cons, givenAt?_eq h hs hgo]
    cases hvalue : s.givesValue with
    | true => simp [lastValue]
    | false =>
      rw [last_of_carryOut hvalue hgo, ih]
      exact congrArg lastValue (List.append_nil _).symm

theorem exists_last {g : Given} (h : (given limits invoke b m k).getLast? = some g) :
    ∃ j < k, givenAt? limits invoke b m j = some g ∧ ∀ i, j < i → i < k → givenAt? limits invoke b m i = none := by
  induction k with
  | zero => nomatch h
  | succ k ih =>
    rw [given, List.range_succ, List.filterMap_append, ← given] at h
    cases hlast : givenAt? limits invoke b m k with
    | some g' =>
      rw [List.filterMap_cons, hlast, List.filterMap_nil, List.getLast?_concat] at h
      obtain rfl := Option.some.inj h
      exact ⟨k, Nat.lt_succ_self k, hlast, fun i hlo hhi ↦ absurd hhi (by omega)⟩
    | none =>
      rw [List.filterMap_cons, hlast, List.filterMap_nil, List.append_nil] at h
      obtain ⟨j, hj, hg, hlater⟩ := ih h
      refine ⟨j, Nat.lt_succ_of_lt hj, hg, fun i hlo hhi ↦ ?_⟩
      rcases Nat.lt_succ_iff_lt_or_eq.mp hhi with hhi | rfl
      · exact hlater i hlo hhi
      · exact hlast

theorem Visits.exists_of_lt (h : Visits limits invoke b m k p) {i : Nat} (hi : i < k) :
    ∃ q s j last m', Visits limits invoke b m i q ∧ b[q.index]? = some s ∧
      carryOut limits invoke b q s = .ok (.at j last) m' ∧ Visits limits invoke b m (i + 1) ⟨m', j, last⟩ := by
  induction h with
  | start => nomatch hi
  | go h hs hgo ih =>
    rcases Nat.lt_succ_iff_lt_or_eq.mp hi with hi | rfl
    · exact ih hi
    · exact ⟨_, _, _, _, _, h, hs, hgo, .go h hs hgo⟩

theorem Visits.unique (h : Visits limits invoke b m k p) {q : Point} (h' : Visits limits invoke b m k q) : p = q :=
  Option.some.inj ((visits_iff.mp h).symm.trans (visits_iff.mp h'))

/-- A statement behind which there is one that gives a value does not give the last one, if the run passes the
end of the body. -/
theorem next_of_last {g : Given} (h : (given limits invoke b m k).getLast? = some g)
    (hp : Visits limits invoke b m k p) (hend : b[p.index]? = none) {v : Variable} {e : Expression}
    (hs : b[g.place]? = some (.declare v e)) {t : Statement} (ht : b[g.place + 1]? = some t) :
    t.givesValue = false := by
  obtain ⟨j, hj, hg, hlater⟩ := exists_last h
  obtain ⟨q, s, i, last, m', hq, hs', hgo, hnext⟩ := hp.exists_of_lt hj
  rw [givenAt?_eq hq hs' hgo] at hg
  split at hg
  · obtain rfl := Option.some.inj hg
    obtain rfl := Option.some.inj (hs.symm.trans hs')
    have hi : i = q.index + 1 := carryOut_at hgo
    subst hi
    rcases Nat.lt_or_ge (j + 1) k with hlt | hge
    · obtain ⟨q', t', i', last', m'', hq', ht', hgo', -⟩ := hp.exists_of_lt hlt
      obtain rfl := hnext.unique hq'
      obtain rfl := Option.some.inj (ht.symm.trans ht')
      have hnone := hlater (j + 1) (Nat.lt_succ_self j) hlt
      rw [givenAt?_eq hq' ht' hgo'] at hnone
      split at hnone
      · nomatch hnone
      · next hvalue => exact Bool.eq_false_iff.mpr hvalue
    · obtain rfl : k = j + 1 := Nat.le_antisymm hge hj
      obtain rfl := hnext.unique hp
      exact nomatch ht.symm.trans hend
  · nomatch hg

theorem result_of_visits {n : Nat} {m' : Machine} {result : Option Value} (h : Visits limits invoke b m k p)
    (hk : k < n) (hend : b[p.index]? = none) (hbody : body limits invoke b n 0 none m = .ok result m') :
    result = p.last := by
  obtain ⟨d, rfl⟩ := Nat.exists_eq_add_of_lt hk
  rw [Nat.add_assoc, body_of_visits h, body_succ, hend] at hbody
  cases hbody
  rfl

theorem call_of_evaluate {e : Expression} {m m' : Machine} (h : evaluate limits invoke e m = .ok none m') :
    ∃ f es, e = .call f es := by
  cases e with
  | call f es => exact ⟨f, es, rfl⟩
  | error | literal => nomatch h
  | var v =>
    obtain ⟨x, m₁, -, h⟩ := bind_eq_ok h
    nomatch h
  | assign v e =>
    obtain ⟨o, m₁, -, h⟩ := bind_eq_ok h
    obtain ⟨x, m₂, -, h⟩ := bind_eq_ok h
    obtain ⟨_, m₃, -, h⟩ := bind_eq_ok h
    nomatch h
  | unary o e | convert target e =>
    obtain ⟨o, m₁, -, h⟩ := bind_eq_ok h
    obtain ⟨x, m₂, -, h⟩ := bind_eq_ok h
    obtain ⟨y, m₃, -, h⟩ := bind_eq_ok h
    nomatch h
  | binary e o e' =>
    obtain ⟨sign, action, operand, result⟩ := o
    cases action with
    | logicalAnd =>
      obtain ⟨o, m₁, -, h⟩ := bind_eq_ok h
      obtain ⟨t, m₂, -, h⟩ := bind_eq_ok h
      split at h
      · obtain ⟨o', m₃, -, h⟩ := bind_eq_ok h
        obtain ⟨t', m₄, -, h⟩ := bind_eq_ok h
        nomatch h
      · nomatch h
    | logicalOr =>
      obtain ⟨o, m₁, -, h⟩ := bind_eq_ok h
      obtain ⟨t, m₂, -, h⟩ := bind_eq_ok h
      split at h
      · nomatch h
      · obtain ⟨o', m₃, -, h⟩ := bind_eq_ok h
        obtain ⟨t', m₄, -, h⟩ := bind_eq_ok h
        nomatch h
    | _ =>
      obtain ⟨o, m₁, -, h⟩ := bind_eq_ok h
      obtain ⟨x, m₂, -, h⟩ := bind_eq_ok h
      obtain ⟨o', m₃, -, h⟩ := bind_eq_ok h
      obtain ⟨y, m₄, -, h⟩ := bind_eq_ok h
      obtain ⟨z, m₅, -, h⟩ := bind_eq_ok h
      nomatch h

theorem call_of_carryOut (hs : s.givesValue) {j : Nat} {m' : Machine}
    (h : carryOut limits invoke b p s = .ok (.at j none) m') : ∃ f es, s = .expression (.call f es) := by
  obtain ⟨m, -, h⟩ := carries_of_carryOut h
  generalize ho : none = o at h
  cases h with
  | expression he =>
    obtain ⟨f, es, rfl⟩ := call_of_evaluate (ho ▸ he)
    exact ⟨f, es, rfl⟩
  | declare => nomatch ho
  | label | goto | stay | jump => nomatch hs

theorem evaluate_call_givesNothing {program : Program} {n : Nat} {f : Function} (hf : f.GivesNothing)
    {es : List Expression} {o : Option Value} {m' : Machine}
    (h : evaluate limits (call program limits n) (.call f es) m = .ok o m') : o = none := by
  obtain ⟨origin, name, parameters, returns⟩ := f
  rcases hf with hf | ⟨⟨id, rfl⟩, rfl⟩
  · cases hf
    cases es with
    | nil => nomatch h
    | cons e es =>
      obtain ⟨x, m₁, -, h⟩ := bind_eq_ok h
      obtain ⟨t, m₂, -, h⟩ := bind_eq_ok h
      obtain ⟨_, m₃, -, h⟩ := bind_eq_ok h
      cases h
      rfl
  · obtain ⟨_, m₁, -, h⟩ := bind_eq_ok h
    obtain ⟨frame, m₂, -, h⟩ := bind_eq_ok h
    cases n with
    | zero => nomatch h
    | succ n =>
      simp only [call] at h
      cases hb : program.body? ⟨.declared id, name, parameters, .void⟩ with
      | none =>
        rw [hb] at h
        nomatch h
      | some statements =>
        rw [hb] at h
        obtain ⟨result, m₃, -, h⟩ := bind_eq_ok h
        cases h
        rfl

theorem carryOut_givesNothing {program : Program} {n : Nat} {f : Function} (hf : f.GivesNothing)
    {es : List Expression} {j : Nat} {last : Option Value} {m' : Machine}
    (h : carryOut limits (call program limits n) b p (.expression (.call f es)) = .ok (.at j last) m') :
    last = none := by
  obtain ⟨m, -, h⟩ := carries_of_carryOut h
  cases h with
  | expression he => exact evaluate_call_givesNothing hf he

end Run

end SmallScript
