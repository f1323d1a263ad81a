import SmallScript.Proofs.Run.Cuts

namespace SmallScript

open Code (Expression Statement Body)

def Act.begins : Act → Bool
  | .begin _ => true
  | _ => false

/-- How many statements are begun in what is seen. -/
def begun (l : List Moment) : Nat := l.countP (·.act.begins)

section Held

variable (limits : Limits)

/-- What is seen of a run within its limits: all statements counted so far, and never more calls than are
allowed. -/
structure Held (k : Nat) (m : Machine) (l : List Moment) : Prop where
  frames : m.frames.length = k
  calls : ∀ d ∈ limits.depth, ∀ moment ∈ l, moment.machine.frames.length ≤ d
  begun : m.steps = begun l
  steps : ∀ s ∈ limits.steps, m.steps ≤ s

/-- What is seen of a run without a result. The limit on steps stops it after as many statements. -/
structure HeldAtEnd (e : Halt) (_ : Machine) (l : List Moment) : Prop where
  calls : ∀ d ∈ limits.depth, ∀ moment ∈ l, moment.machine.frames.length ≤ d
  begun : ∀ s, e = .fault (.stepLimitExceeded s) → limits.steps = some s ∧ SmallScript.begun l = s

variable {limits} {k : Nat} {m : Machine} {l : List Moment}

theorem begun_append (l l' : List Moment) : begun (l ++ l') = begun l + begun l' := List.countP_append

theorem Held.see (h : Held limits k m l) {moment : Moment} {k' : Nat}
    (hk : ∀ d ∈ limits.depth, k' ≤ d) (hm : moment.machine.frames.length = k') :
    ∀ d ∈ limits.depth, ∀ other ∈ l ++ [moment], other.machine.frames.length ≤ d := by
  intro d hd other hother
  rcases List.mem_append.mp hother with hother | hother
  · exact h.calls d hd other hother
  · obtain rfl := List.mem_singleton.mp hother
    exact hm ▸ hk d hd

theorem Held.invariant (hk : ∀ d ∈ limits.depth, k ≤ d) (V W : Variable → Prop) :
    Run.Invariant V W k (Held limits k) (HeldAtEnd limits) where
  frames h := h.frames
  write := by
    intro m l v h _ x
    have hsteps := m.steps_set v x
    exact ⟨(m.length_frames_set v x).trans h.frames, h.calls, hsteps ▸ h.begun, hsteps ▸ h.steps⟩
  read h _ := ⟨h.frames, h.see hk h.frames, by rw [begun_append]; exact h.begun, h.steps⟩
  unread h _ _ := ⟨h.see hk h.frames, nofun⟩
  draw h := ⟨h.frames, h.calls, h.begun, h.steps⟩
  talk h _ := ⟨h.frames, h.calls, h.begun, h.steps⟩
  stop := by
    intro m l e h he
    refine ⟨h.calls, ?_⟩
    rintro s rfl
    exact he.elim

theorem Held.tick (hk : ∀ d ∈ limits.depth, k ≤ d) (s : Statement) :
    Run.Meets (Held limits k) (Run.tick limits)
      (Run.andThen (Run.tick limits) fun _ m ↦ [⟨.begin s, m⟩]) (fun _ ↦ Held limits k)
      (HeldAtEnd limits) := by
  intro m l h
  have hgo (hsteps : ∀ s ∈ limits.steps, m.steps + 1 ≤ s) :
      Held limits k { m with steps := m.steps + 1 }
        (l ++ [⟨.begin s, { m with steps := m.steps + 1 }⟩]) :=
    ⟨h.frames, h.see hk h.frames, by rw [begun_append, ← h.begun]; rfl, hsteps⟩
  unfold Run.andThen
  rw [Run.tick_eq]
  cases hlimit : limits.steps with
  | none => exact hgo fun s hs ↦ nomatch hlimit.symm.trans hs
  | some n =>
    have hle := h.steps n hlimit
    by_cases hn : n ≤ m.steps
    · have hstop (m' : Machine) : Run.allow (some n) m.steps .stepLimitExceeded m' =
          .error (.fault (.stepLimitExceeded n)) m' := if_pos hn
      simp only [hstop, List.append_nil]
      refine ⟨h.calls, fun s hs ↦ ?_⟩
      cases hs
      exact ⟨hlimit, h.begun.symm.trans (Nat.le_antisymm hle hn)⟩
    · have hpass (m' : Machine) : Run.allow (some n) m.steps .stepLimitExceeded m' = .ok () m' :=
        if_neg hn
      simp only [hpass]
      refine hgo fun s hs ↦ ?_
      obtain rfl := Option.some.inj (hlimit.symm.trans hs)
      omega

theorem Held.body (hk : ∀ d ∈ limits.depth, k ≤ d) (b : Body) :
    Run.Holds (fun _ _ ↦ True) (fun _ _ ↦ True) (fun _ _ ↦ True) k (fun _ ↦ Held limits k)
      (HeldAtEnd limits) limits b where
  invariant _ := Held.invariant hk _ _
  respects _ e _ := e.respects_any
  assigns _ _ _ := trivial
  tick _ := Held.tick hk _
  go _ _ h := h

theorem Held.call (p : Program) (n : Nat) (f : Function) (frame : Store)
    (hk : ∀ d ∈ limits.depth, k < d) :
    Run.Meets (Held limits k) (Run.call p limits n f frame) (Run.callMoments limits p n f frame)
      (fun _ ↦ Held limits k) (HeldAtEnd limits) := by
  have hk' : ∀ d ∈ limits.depth, k ≤ d := fun d hd ↦ Nat.le_of_lt (hk d hd)
  induction n generalizing f frame k with
  | zero => exact .throw fun _ _ h ↦ (Held.invariant hk' (fun _ ↦ True) fun _ ↦ True).stop h trivial
  | succ n ih =>
    unfold Run.call Run.callMoments
    cases p.body? f with
    | none => exact .throw fun _ _ h ↦ (Held.invariant hk' (fun _ ↦ True) fun _ ↦ True).stop h trivial
    | some b =>
      have hcalls : Run.CallsMeet (fun _ _ ↦ True) (k + 1) (Held limits (k + 1)) (HeldAtEnd limits)
          limits (Run.call p limits n) (Run.callMoments limits p n) :=
        fun f _ frame _ _ hlt ↦ ih f frame hlt fun d hd ↦ Nat.le_of_lt (hlt d hd)
      have hbody := Run.body_meets (K := Held limits (k + 1)) (Held.body hk b) (fun _ ↦ hcalls)
        (fun _ _ _ h ↦ h) n 0 none
      refine (hbody.frame (.enter f) frame ?_ ?_ ?_).after fun _ ↦ .pure fun _ _ h ↦ h
      · intro m l h
        have hframes : (frame :: m.frames).length = k + 1 := congrArg (· + 1) h.frames
        exact ⟨hframes, h.see hk hframes, by rw [begun_append]; exact h.begun, h.steps⟩
      · intro _ m l h
        exact ⟨by simp [h.frames], h.calls, h.begun, h.steps⟩
      · exact fun _ _ _ h ↦ ⟨h.calls, h.begun⟩

theorem Program.run_held (p : Program) (n : Nat) :
    Run.Meets (Held limits 0) (p.run limits n) (p.moments limits n) (fun _ ↦ Held limits 0)
      (HeldAtEnd limits) :=
  Run.body_meets (Held.body (fun _ _ ↦ Nat.zero_le _) p.main)
    (fun _ f _ frame _ _ hlt ↦ Held.call p n f frame hlt) (fun _ _ _ h ↦ h) n 0 none

end Held

namespace Program

variable (p : Program)

/-- How a run ends, with a bound on its depth that is high enough. -/
def Ends (limits : Limits) (m : Machine) (r : EStateM.Result Halt Machine (Option Value)) : Prop :=
  Run.halt? r ≠ some .unfinished ∧ ∃ n, p.run limits n m = r

variable {l l' : Limits}

theorem run_of_le {n n' : Nat} (hn : n ≤ n') {m : Machine}
    {r : EStateM.Result Halt Machine (Option Value)} (hr : Run.halt? r ≠ some .unfinished) (h : p.run l n m = r) :
    p.run l n' m = r := by
  have hcuts := Run.program_cuts (C := (· = .unfinished)) p (.of_eq (Run.grows_checkDepth l)) rfl
    (.of_eq (Run.grows_tick l)) rfl hn
  have hshort := hcuts.short m
  rw [h] at hshort
  generalize p.run l n' m = r' at hshort
  cases hshort with
  | same => rfl
  | cut he _ =>
    subst he
    exact absurd rfl hr

theorem shortOf_run (h : l.Within l') {n n' : Nat} (hn : n ≤ n') (m : Machine) :
    Run.ShortOf (fun e ↦ e = .unfinished ∨ e.IsLimit) (p.run l n m) (p.run l' n' m) :=
  (Run.program_cuts p (Run.cuts_checkDepth h.depth fun _ ↦ .inr trivial) h.stream
    (Run.cuts_tick h.steps fun _ ↦ .inr trivial) (.inl rfl) hn).short m

/-- Limits only cut a run short. A run that they do not stop ends the same way under wider ones, and any
run prints the beginning of what it prints under wider ones. The limit on steps stops a run after exactly
as many statements, and the limit on calls is never exceeded. -/
theorem limits_only_cut (h : l.Within l') (globals : Store) (console : Console) :
    (∀ r, p.Ends l (.start globals console) r → (∀ e ∈ Run.halt? r, ¬ e.IsLimit) →
      p.Ends l' (.start globals console) r) ∧
    (∀ r r', p.Ends l (.start globals console) r → p.Ends l' (.start globals console) r' →
      Run.printed (Run.final r) <+: Run.printed (Run.final r')) ∧
    (∀ n k, Run.halt? (p.run l n (.start globals console)) = some (.fault (.stepLimitExceeded k)) →
      l.steps = some k ∧ begun (p.moments l n (.start globals console)) = k) ∧
    ∀ n, ∀ d ∈ l.depth, ∀ moment ∈ p.moments l n (.start globals console),
      moment.machine.frames.length ≤ d := by
  have hstart : Held l 0 (.start globals console) [] := ⟨rfl, nofun, rfl, fun _ _ ↦ Nat.zero_le _⟩
  have hheld (n : Nat) := p.run_held n (.start globals console) [] hstart
  refine ⟨?_, ?_, ?_, ?_⟩
  · rintro r ⟨hend, n, hr⟩ hstop
    have hshort := p.shortOf_run h (Nat.le_refl n) (.start globals console)
    rw [hr] at hshort
    refine ⟨hend, n, ?_⟩
    generalize p.run l' n _ = r' at hshort
    cases hshort with
    | same => rfl
    | cut he _ =>
      rcases he with rfl | he
      · exact absurd rfl hend
      · exact absurd he (hstop _ rfl)
  · rintro r r' ⟨hend, n, hr⟩ ⟨hend', n', hr'⟩
    have hshort := p.shortOf_run h (Nat.le_max_left n n') (.start globals console)
    rw [hr, p.run_of_le (Nat.le_max_right n n') hend' hr'] at hshort
    cases hshort with
    | same => exact List.prefix_rfl
    | cut _ hshort => exact hshort
  · intro n k hr
    have hn := hheld n
    generalize p.run l n _ = r at hn hr
    cases r with
    | ok a m => nomatch hr
    | error e m => exact hn.begun k (Option.some.inj hr)
  · intro n
    have hn := hheld n
    generalize p.run l n _ = r at hn
    cases r with
    | ok a m => exact hn.calls
    | error e m => exact hn.calls

/-- A function that prints a number and calls itself with the next lower one, down to zero. -/
def countdown (i : Int32) : Program :=
  let n : Variable := ⟨3, "n", .parameter, .int, true⟩
  let f : Function := ⟨.declared 4, "f", [n], .void⟩
  let zero : Expression := .literal (.int 0)
  let lower : Expression := .binary (.var n) ⟨.minus, .subtraction, .int, .int⟩ (.literal (.int 1))
  let body : Body :=
    [.expression (.call Builtin.print.function [.convert .string (.var n)]),
      .gotoIf (.made 1) (.binary (.var n) ⟨.equalsEquals, .equals, .int, .bool⟩ zero) false,
      .expression (.call f [lower]), .label (.made 1)]
  ⟨[(f, body)], [.expression (.call f [.literal (.int i)])], []⟩

/-- Six steps print two of three numbers. What ends within a limit on calls ends alike without it. -/
theorem limits_only_cut_countdown :
    (Limits.Within ⟨some 6, some 3, id⟩ ⟨none, some 4, id⟩ ∧
      Run.halt? ((countdown 2).run ⟨some 6, some 3, id⟩ 20 (.start .empty ⟨[], #[]⟩)) =
        some (.fault (.stepLimitExceeded 6)) ∧
      Run.printed (Run.final ((countdown 2).run ⟨some 6, some 3, id⟩ 20 (.start .empty ⟨[], #[]⟩))) <+:
        Run.printed (Run.final ((countdown 2).run ⟨none, some 4, id⟩ 20 (.start .empty ⟨[], #[]⟩))) ∧
      begun ((countdown 2).moments ⟨some 6, some 3, id⟩ 20 (.start .empty ⟨[], #[]⟩)) = 6) ∧
    Limits.Within ⟨none, some 4, id⟩ ⟨none, none, id⟩ ∧
      (countdown 2).Ends ⟨none, none, id⟩ (.start .empty ⟨[], #[]⟩)
        ((countdown 2).run ⟨none, some 4, id⟩ 20 (.start .empty ⟨[], #[]⟩)) := by
  have hwithin : Limits.Within ⟨some 6, some 3, id⟩ ⟨none, some 4, id⟩ :=
    ⟨nofun, fun _ h ↦ ⟨3, rfl, by cases h; decide⟩, rfl⟩
  have hwithin' : Limits.Within ⟨none, some 4, id⟩ ⟨none, none, id⟩ := ⟨nofun, nofun, rfl⟩
  have hcut := (countdown 2).limits_only_cut hwithin .empty ⟨[], #[]⟩
  have hcut' := (countdown 2).limits_only_cut hwithin' .empty ⟨[], #[]⟩
  have hstop : Run.halt? ((countdown 2).run ⟨some 6, some 3, id⟩ 20 (.start .empty ⟨[], #[]⟩)) =
      some (.fault (.stepLimitExceeded 6)) := by decide +kernel
  have hdone : Run.halt? ((countdown 2).run ⟨none, some 4, id⟩ 20 (.start .empty ⟨[], #[]⟩)) = none := by
    decide +kernel
  refine ⟨⟨hwithin, hstop, hcut.2.1 _ _ ⟨?_, 20, rfl⟩ ⟨?_, 20, rfl⟩, (hcut.2.2.1 20 6 hstop).2⟩,
    hwithin', hcut'.1 _ ⟨?_, 20, rfl⟩ ?_⟩
  all_goals simp [hstop, hdone]

end Program

end SmallScript
