import SmallScript.Proofs.Lowering.Places
import SmallScript.Proofs.Run.Steady

namespace SmallScript

open Code (Expression Statement Body)

def Machine.counted (m : Machine) : Machine := { m with steps := m.steps + 1 }

theorem Machine.get?_counted (m : Machine) {v : Variable} : m.counted.get? v = m.get? v := rfl

namespace Run

section Walk

variable (limits : Limits) (invoke : Invoke) (b : Body)

/-- A run of a body goes from one point to another, through places with `R`. -/
inductive Walk (R : Nat → Prop) : Point → Point → Prop
  | refl (p : Point) : Walk R p p
  | step {p q : Point} {s : Statement} {j : Nat} {last : Option Value} {m : Machine} (hp : R p.index)
      (hs : b[p.index]? = some s) (hgo : carryOut limits invoke b p s = .ok (.at j last) m)
      (h : Walk R ⟨m, j, last⟩ q) : Walk R p q

/-- The places of a loop over a range from `i` on, without those of its body, which are from `lo` on and before
`hi`. -/
def Around (i lo hi j : Nat) : Prop := i ≤ j ∧ j < lo ∨ hi ≤ j ∧ j < hi + 5

def Within (lo hi j : Nat) : Prop := lo ≤ j ∧ j < hi

/-- Turns of a loop over a range. Each comes through the test to the body with a value of the variable, and goes
through the body to the label behind it or, by a jump to that label, to the place behind the label. -/
inductive Turns (v : Variable) (i lo hi : Nat) : List Int32 → Point → Point → Prop
  | none (p : Point) : Turns v i lo hi [] p p
  | turn {p t q r s : Point} {k : Int32} {ks : List Int32} (hin : Walk limits invoke b (Around i lo hi) p t)
      (ht : t.index = hi + 3) (hgo : Walk limits invoke b (· = hi + 3) t q) (hq : q.index = lo)
      (hv : q.machine.get? v = some (.int k)) (hbody : Walk limits invoke b (Within lo hi) q r)
      (hr : r.index = hi ∨ r.index = hi + 1) (h : Turns v i lo hi ks r s) : Turns v i lo hi (k :: ks) p s

/-- From a point on, the limit on steps lets all statements of a loop pass, and each turn through its body comes to
the end of the body, or goes on with the next one. -/
structure Turning (i lo hi : Nat) (p : Point) : Prop where
  passes : ∀ q, Walk limits invoke b (fun j ↦ i ≤ j ∧ j < hi + 5) p q → ∀ k ∈ limits.steps, q.machine.steps < k
  ends : ∀ q, Walk limits invoke b (fun j ↦ i ≤ j ∧ j < hi + 5) p q → q.index = lo →
    ∃ r, Walk limits invoke b (Within lo hi) q r ∧ (r.index = hi ∨ r.index = hi + 1)

/-- A run takes `k` statements from one point to another. -/
structure Takes (k : Nat) (p q : Point) : Prop where
  goes : ∀ n, body limits invoke b (k + n) p.index p.last p.machine = body limits invoke b n q.index q.last q.machine
  unfinished : ∀ n < k, ∃ m, body limits invoke b n p.index p.last p.machine = .error .unfinished m

end Walk

variable {limits : Limits} {invoke : Invoke} {b : Body} {R R' : Nat → Prop} {p q r : Point}

namespace Walk

theorem trans (h : Walk limits invoke b R p q) (h' : Walk limits invoke b R q r) : Walk limits invoke b R p r := by
  induction h with
  | refl => exact h'
  | step hp hs hgo h ih => exact .step hp hs hgo (ih h')

theorem one {s : Statement} {j : Nat} {last : Option Value} {m : Machine} (hp : R p.index)
    (hs : b[p.index]? = some s) (hgo : carryOut limits invoke b p s = .ok (.at j last) m) :
    Walk limits invoke b R p ⟨m, j, last⟩ := .step hp hs hgo (.refl _)

theorem mono (h : Walk limits invoke b R p q) (hR : ∀ j, R j → R' j) : Walk limits invoke b R' p q := by
  induction h with
  | refl p => exact .refl p
  | step hp hs hgo h ih => exact .step (hR _ hp) hs hgo ih

end Walk

theorem Takes.trans {k k' : Nat} (h : Takes limits invoke b k p q) (h' : Takes limits invoke b k' q r) :
    Takes limits invoke b (k + k') p r where
  goes n := by rw [Nat.add_assoc, h.goes, h'.goes]
  unfinished n hn := by
    rcases Nat.lt_or_ge n k with hlt | hge
    · exact h.unfinished n hlt
    · obtain ⟨d, rfl⟩ := Nat.exists_eq_add_of_le hge
      rw [h.goes]
      exact h'.unfinished d (by omega)

theorem Walk.takes (h : Walk limits invoke b R p q) :
    ∃ k, Takes limits invoke b k p q ∧ (p.index ≠ q.index → 0 < k) := by
  induction h with
  | refl p => exact ⟨0, ⟨fun n ↦ by rw [Nat.zero_add], nofun⟩, fun hne ↦ absurd rfl hne⟩
  | @step p q s j last m hp hs hgo h ih =>
    obtain ⟨k, hk, -⟩ := ih
    have hone (n : Nat) : body limits invoke b (n + 1) p.index p.last p.machine =
        body limits invoke b n j last m := by
      rw [body_succ, hs]
      simp only [hgo]
    refine ⟨k + 1, ⟨fun n ↦ ?_, fun n hn ↦ ?_⟩, fun _ ↦ Nat.succ_pos k⟩
    · rw [Nat.add_right_comm, hone]
      exact hk.goes n
    · cases n with
      | zero => exact ⟨p.machine, rfl⟩
      | succ n =>
        rw [hone]
        exact hk.unfinished n (Nat.lt_of_succ_lt_succ hn)

theorem Turns.takes {v : Variable} {i lo hi : Nat} {ks : List Int32} (hlast : lo ≤ hi)
    (h : Turns limits invoke b v i lo hi ks p q) : ∃ k, ks.length ≤ k ∧ Takes limits invoke b k p q := by
  induction h with
  | none p => exact ⟨0, Nat.le_refl 0, fun n ↦ by rw [Nat.zero_add], nofun⟩
  | turn hin ht hgo hq hv hbody hr h ih =>
    obtain ⟨k, hk, -⟩ := hin.takes
    obtain ⟨k', hk', hpos⟩ := hgo.takes
    obtain ⟨k'', hk'', -⟩ := hbody.takes
    obtain ⟨d, hle, hd⟩ := ih
    have hsome := hpos (by omega)
    exact ⟨k + k' + k'' + d, by simp only [List.length_cons]; omega, ((hk.trans hk').trans hk'').trans hd⟩

theorem Walk.get? {p : Program} {n : Nat} {q r : Point} {v : Variable}
    (h : Walk limits (Run.call p limits n) b R q r) (hp : p.Spares v)
    (hR : ∀ j s, R j → b[j]? = some s → v ∉ s.assigned) : r.machine.get? v = q.machine.get? v := by
  induction h with
  | refl => rfl
  | step hq hs hgo h ih => exact ih.trans (Program.value_after_step hp hgo (hR _ _ hq hs)).2

theorem read_of_get? {m : Machine} {v : Variable} {x : Value} (h : m.get? v = some x) : read v m = .ok x m := by
  rw [read_eq, h]

theorem tick_of_lt {m : Machine} (h : ∀ k ∈ limits.steps, m.steps < k) : tick limits m = .ok () m.counted := by
  rw [tick_eq]
  unfold allow
  cases hlimit : limits.steps with
  | none => rfl
  | some k => exact if_neg (Nat.not_le.mpr (h k hlimit))

theorem target_of_place? {l : Label} {j : Nat} (hl : place? b l = some j) (m : Machine) : target b l m = .ok j m := by
  rw [target_eq, hl]
  rfl

section Steps

variable {v bound : Variable} {k upper : Int32} {l : Label} {j : Nat}
variable (invoke) (h : ∀ k ∈ limits.steps, p.machine.steps < k)
include h

theorem carryOut_eq (s : Statement) : carryOut limits invoke b p s =
    step limits invoke b (p.index + 1) p.last s p.machine.counted := bind_of_ok (tick_of_lt h)

theorem carryOut_label : carryOut limits invoke b p (.label l) = .ok (.at (p.index + 1) p.last) p.machine.counted :=
  carryOut_eq invoke h _

theorem carryOut_goto (hl : place? b l = some j) :
    carryOut limits invoke b p (.goto l) = .ok (.at j p.last) p.machine.counted :=
  (carryOut_eq invoke h _).trans (bind_of_ok (target_of_place? hl _))

theorem carryOut_increment (hv : p.machine.get? v = some (.int k)) :
    carryOut limits invoke b p (Code.increment v) =
      .ok (.at (p.index + 1) (some (.int (k + 1)))) (p.machine.counted.set v (.int (k + 1))) := by
  rw [carryOut_eq invoke h]
  simp only [Code.increment, step, evaluate, need, bind_assoc, pure_bind]
  exact bind_of_ok (read_of_get? (p.machine.get?_counted.trans hv))

theorem carryOut_test (hl : place? b l = some j) (hv : p.machine.get? v = some (.int k))
    (hbound : p.machine.get? bound = some (.int upper)) :
    carryOut limits invoke b p (.gotoIf l (Code.atMost v bound) false) =
      .ok (.at (if k ≤ upper then j else p.index + 1) p.last) p.machine.counted := by
  rw [carryOut_eq invoke h]
  simp only [Code.atMost, step, evaluate, need, bind_assoc, pure_bind]
  rw [bind_of_ok (read_of_get? (p.machine.get?_counted.trans hv)),
    bind_of_ok (read_of_get? (p.machine.get?_counted.trans hbound))]
  by_cases hle : k ≤ upper
  · have happly : BinaryAction.lessOrEquals.apply (.int k) (.int upper) = .ok (.bool true) := by
      simp [BinaryAction.apply, hle]
    rw [happly, if_pos hle]
    exact bind_of_ok (target_of_place? hl _)
  · have happly : BinaryAction.lessOrEquals.apply (.int k) (.int upper) = .ok (.bool false) := by
      simp [BinaryAction.apply, hle]
    rw [happly, if_neg hle]
    rfl

end Steps

/-- The places of a loop over a range in a body. It begins with a jump to the test behind the body. -/
structure Ranged (b : Body) (v bound : Variable) (i lo hi : Nat) : Prop where
  first : i < lo
  last : lo ≤ hi
  enter : ∃ l, b[i]? = some (.goto l) ∧ place? b l = some (hi + 3)
  again : ∃ l, b[hi]? = some (.label l)
  increment : b[hi + 1]? = some (Code.increment v)
  behind : ∃ l, b[hi + 2]? = some (.label l)
  test : ∃ l, b[hi + 3]? = some (.gotoIf l (Code.atMost v bound) false) ∧ place? b l = some lo
  leave : ∃ l, b[hi + 4]? = some (.label l)
  spared : ∀ j s, Within lo hi j → b[j]? = some s → v ∉ s.assigned ∧ bound ∉ s.assigned
  apart : v ≠ bound

structure Shows (v bound : Variable) (k upper : Int32) (p : Point) : Prop where
  value : p.machine.get? v = some (.int k)
  bound : p.machine.get? bound = some (.int upper)

section Ranged

variable {i lo hi : Nat} {v bound : Variable} {k upper : Int32} {t : Point}

theorem Turning.after (h : Turning limits invoke b i lo hi p)
    (hw : Walk limits invoke b (fun j ↦ i ≤ j ∧ j < hi + 5) p q) : Turning limits invoke b i lo hi q where
  passes r hr := h.passes r (hw.trans hr)
  ends r hr := h.ends r (hw.trans hr)

theorem ofInt_next (k : Int32) (j : Nat) :
    Int32.ofInt ((k + 1).toInt + j) = Int32.ofInt (k.toInt + (j + 1 : Nat)) := by
  rw [Int32.ofInt_add, Int32.ofInt_add, Int32.ofInt_toInt, Int32.ofInt_toInt, Int32.add_assoc]
  congr 1
  rw [Nat.add_comm, Int.natCast_add, Int32.ofInt_add]
  rfl

theorem range_map_ofInt (k : Int32) (N : Nat) : (List.range (N + 1)).map (fun j : Nat ↦ Int32.ofInt (k.toInt + j)) =
    k :: (List.range N).map fun j : Nat ↦ Int32.ofInt ((k + 1).toInt + j) := by
  rw [List.range_succ_eq_map, List.map_cons, List.map_map]
  congr 1
  · simp
  · exact List.map_congr_left fun j _ ↦ (ofInt_next k j).symm

theorem ofInt_le {j : Nat} (hj : j < (upper.toInt - k.toInt + 1).toNat) : Int32.ofInt (k.toInt + j) ≤ upper := by
  have hlt := upper.toInt_lt
  have hle := k.le_toInt
  rw [Int32.le_iff_toInt_le, Int32.toInt_ofInt_of_le (by omega) (by omega)]
  omega

theorem not_ofInt_le (hne : upper ≠ .maxValue) :
    ¬Int32.ofInt (k.toInt + (upper.toInt - k.toInt + 1).toNat) ≤ upper := by
  have hlt := upper.toInt_lt
  have hle := k.le_toInt
  have hlt' := k.toInt_lt
  have hmax : upper.toInt ≠ 2147483647 := fun heq ↦ hne (Int32.toInt_inj.mp heq)
  rw [Int32.le_iff_toInt_le, Int32.toInt_ofInt_of_le (by omega) (by omega)]
  omega

theorem le_maxValue (k : Int32) : k ≤ .maxValue := by
  have hlt := k.toInt_lt
  rw [Int32.le_iff_toInt_le]
  change _ ≤ (2147483647 : Int)
  omega

namespace Ranged

variable (h : Ranged b v bound i lo hi)
include h

theorem inside_of_around {j : Nat} (hj : Around i lo hi j) : i ≤ j ∧ j < hi + 5 := by
  have hfirst := h.first
  have hlast := h.last
  unfold Around at hj
  omega

theorem inside_of_within {j : Nat} (hj : Within lo hi j) : i ≤ j ∧ j < hi + 5 := by
  have hfirst := h.first
  unfold Within at hj
  omega

section Steps

variable (hturning : Turning limits invoke b i lo hi p) (hshows : Shows v bound k upper p)
include hturning hshows

theorem exists_test (hp : p.index = i) : ∃ t, Walk limits invoke b (Around i lo hi) p t ∧ t.index = hi + 3 ∧
    Shows v bound k upper t := by
  obtain ⟨l, hl, hplace⟩ := h.enter
  rw [← hp] at hl
  have hgo := carryOut_goto invoke (hturning.passes p (.refl p)) hplace
  exact ⟨_, .one (.inl ⟨Nat.le_of_eq hp.symm, hp ▸ h.first⟩) hl hgo, rfl, ⟨hshows.value, hshows.bound⟩⟩

theorem exists_turn (hp : p.index = hi + 3) (hle : k ≤ upper) : ∃ t, Walk limits invoke b (· = hi + 3) p t ∧
    t.index = lo ∧ Shows v bound k upper t := by
  obtain ⟨l, hl, hplace⟩ := h.test
  rw [← hp] at hl
  have hgo := carryOut_test invoke (hturning.passes p (.refl p)) hplace hshows.value hshows.bound
  rw [if_pos hle] at hgo
  exact ⟨_, .one hp hl hgo, rfl, ⟨hshows.value, hshows.bound⟩⟩

theorem exists_leave (hp : p.index = hi + 3) (hlt : ¬k ≤ upper) : ∃ t, Walk limits invoke b (Around i lo hi) p t ∧
    t.index = hi + 5 := by
  obtain ⟨l, hl, hplace⟩ := h.test
  obtain ⟨l', hl'⟩ := h.leave
  rw [← hp] at hl
  have hgo := carryOut_test invoke (hturning.passes p (.refl p)) hplace hshows.value hshows.bound
  rw [if_neg hlt] at hgo
  have hwalk : Walk limits invoke b (Around i lo hi) p ⟨p.machine.counted, p.index + 1, p.last⟩ :=
    .one (.inr (by omega)) hl hgo
  have hnext := hturning.after (hwalk.mono fun _ ↦ h.inside_of_around)
  rw [hp] at hwalk hnext
  exact ⟨_, hwalk.trans (.one (.inr (by constructor <;> dsimp only <;> omega)) hl'
    (carryOut_label invoke (hnext.passes _ (.refl _)))), rfl⟩

theorem exists_test_of_increment (hp : p.index = hi + 1) : ∃ t, Walk limits invoke b (Around i lo hi) p t ∧
    t.index = hi + 3 ∧ Shows v bound (k + 1) upper t := by
  obtain ⟨l, hl⟩ := h.behind
  have hs := h.increment
  rw [← hp] at hs
  have hwalk := Walk.one (R := Around i lo hi) (.inr (by omega)) hs
    (carryOut_increment invoke (hturning.passes p (.refl p)) hshows.value)
  have hnext := hturning.after (hwalk.mono fun _ ↦ h.inside_of_around)
  rw [hp] at hwalk hnext
  refine ⟨_, hwalk.trans (.one (.inr (by constructor <;> dsimp only <;> omega)) hl
    (carryOut_label invoke (hnext.passes _ (.refl _)))), rfl, Machine.get?_set_self .., ?_⟩
  exact (Machine.get?_set_of_ne h.apart _).trans hshows.bound

theorem exists_test_of_end (hp : p.index = hi ∨ p.index = hi + 1) : ∃ t, Walk limits invoke b (Around i lo hi) p t ∧
    t.index = hi + 3 ∧ Shows v bound (k + 1) upper t := by
  rcases hp with hp | hp
  · obtain ⟨l, hl⟩ := h.again
    rw [← hp] at hl
    have hwalk := Walk.one (R := Around i lo hi) (.inr (by omega)) hl
      (carryOut_label invoke (hturning.passes p (.refl p)))
    have hnext := hturning.after (hwalk.mono fun _ ↦ h.inside_of_around)
    obtain ⟨t, ht, hrest⟩ := h.exists_test_of_increment hnext ⟨hshows.value, hshows.bound⟩ (by dsimp only; omega)
    exact ⟨t, hwalk.trans ht, hrest⟩
  · exact h.exists_test_of_increment hturning hshows hp

end Steps

theorem shows_of_within {p : Program} {n : Nat} {q r : Point} (hv : p.Spares v) (hbound : p.Spares bound)
    (hshows : Shows v bound k upper q) (hwalk : Walk limits (Run.call p limits n) b (Within lo hi) q r) :
    Shows v bound k upper r where
  value := (hwalk.get? hv fun j s hj hs ↦ (h.spared j s hj hs).1).trans hshows.value
  bound := (hwalk.get? hbound fun j s hj hs ↦ (h.spared j s hj hs).2).trans hshows.bound

/-- From a test on, there are as many turns as numbers from the value of the variable on that are not above the
bound, and another test behind them. -/
theorem turns {p : Program} {n : Nat} (hv : p.Spares v) (hbound : p.Spares bound) (N : Nat) {q t : Point}
    (hturning : Turning limits (Run.call p limits n) b i lo hi q)
    (htest : Walk limits (Run.call p limits n) b (Around i lo hi) q t) (ht : t.index = hi + 3)
    (hshows : Shows v bound k upper t) (hle : ∀ j < N, Int32.ofInt (k.toInt + j) ≤ upper) :
    ∃ r t',
      Turns limits (Run.call p limits n) b v i lo hi
        ((List.range N).map fun j : Nat ↦ Int32.ofInt (k.toInt + j)) q r ∧
      Turning limits (Run.call p limits n) b i lo hi r ∧
      Walk limits (Run.call p limits n) b (Around i lo hi) r t' ∧ t'.index = hi + 3 ∧
      Shows v bound (.ofInt (k.toInt + N)) upper t' := by
  induction N generalizing q t k with
  | zero =>
    refine ⟨q, t, .none q, hturning, htest, ht, ?_⟩
    simpa using hshows
  | succ N ih =>
    have htturning := hturning.after (htest.mono fun _ ↦ h.inside_of_around)
    obtain ⟨u, hu, hlo, hushows⟩ := h.exists_turn htturning hshows ht (by simpa using hle 0 (Nat.succ_pos N))
    have huturning := htturning.after (hu.mono fun _ hj ↦ h.inside_of_around (.inr (by omega)))
    obtain ⟨r, hr, hend⟩ := huturning.ends u (.refl u) hlo
    have hrshows := h.shows_of_within hv hbound hushows hr
    have hrturning := huturning.after (hr.mono fun _ ↦ h.inside_of_within)
    obtain ⟨t', ht', hindex, hshows'⟩ := h.exists_test_of_end hrturning hrshows hend
    obtain ⟨s, t'', hturns, hrest⟩ := ih hrturning ht' hindex hshows' fun j hj ↦ by
      rw [ofInt_next]
      exact hle (j + 1) (Nat.succ_lt_succ hj)
    rw [ofInt_next] at hrest
    refine ⟨s, t'', ?_, hrest⟩
    rw [range_map_ofInt]
    exact .turn htest ht hu hlo hushows.value hr hend hturns

/-- If each turn comes to an end, a loop has a turn for each number of its range, and is left behind them. But
where the bound is the greatest number, it has turns without end. -/
theorem counts {p : Program} {n : Nat} (hv : p.Spares v) (hbound : p.Spares bound) {q : Point}
    (hturning : Turning limits (Run.call p limits n) b i lo hi q) (hq : q.index = i)
    (hshows : Shows v bound k upper q) :
    (upper ≠ .maxValue → ∃ r t d,
      Turns limits (Run.call p limits n) b v i lo hi
        ((List.range (upper.toInt - k.toInt + 1).toNat).map fun j : Nat ↦ Int32.ofInt (k.toInt + j)) q r ∧
      Walk limits (Run.call p limits n) b (Around i lo hi) r t ∧ t.index = hi + 5 ∧
      Takes limits (Run.call p limits n) b d q t) ∧
    (upper = .maxValue → ∀ N : Nat, (∃ r,
      Turns limits (Run.call p limits n) b v i lo hi
        ((List.range N).map fun j : Nat ↦ Int32.ofInt (k.toInt + j)) q r) ∧
      ∃ m, body limits (Run.call p limits n) b N q.index q.last q.machine = .error .unfinished m) := by
  obtain ⟨t, ht, hindex, htshows⟩ := h.exists_test hturning hshows hq
  refine ⟨fun hne ↦ ?_, ?_⟩
  · obtain ⟨r, t', hturns, hrturning, ht', hindex', hshows'⟩ := h.turns hv hbound _ hturning ht hindex htshows
      fun j hj ↦ ofInt_le hj
    obtain ⟨s, hs, hout⟩ := h.exists_leave (hrturning.after (ht'.mono fun _ ↦ h.inside_of_around)) hshows' hindex'
      (not_ofInt_le hne)
    obtain ⟨d, -, hd⟩ := hturns.takes h.last
    obtain ⟨d', hd', -⟩ := (ht'.trans hs).takes
    exact ⟨r, s, d + d', hturns, ht'.trans hs, hout, hd.trans hd'⟩
  · rintro rfl N
    have hturns (N : Nat) : ∃ r, Turns limits (Run.call p limits n) b v i lo hi
        ((List.range N).map fun j : Nat ↦ Int32.ofInt (k.toInt + j)) q r := by
      obtain ⟨r, -, hturns, -⟩ := h.turns hv hbound N hturning ht hindex htshows fun j _ ↦ le_maxValue _
      exact ⟨r, hturns⟩
    obtain ⟨r, hmore⟩ := hturns (N + 1)
    obtain ⟨d, hle, hd⟩ := hmore.takes h.last
    rw [List.length_map, List.length_range] at hle
    exact ⟨hturns N, hd.unfinished N hle⟩

end Ranged

end Ranged

end Run

end SmallScript
