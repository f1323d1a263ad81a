import SmallScript.Proofs.Run.Steady

namespace SmallScript

open Code (Expression Statement Body)

/-- The values that a frame has are those that `D` allows. -/
def Store.Only (D : Variable → Value → Prop) (s : Store) : Prop := ∀ v x, s.get? v = some x → D v x

/-- There is a frame with nothing but what `D` allows right on top of the frames `outer`. -/
def Machine.Above (D : Variable → Value → Prop) (outer : List Store) (m : Machine) : Prop :=
  ∃ inner own, m.frames = inner ++ own :: outer ∧ own.Only D

/-- While a call is active on top of the frames `outer`: it has a frame of its own there, and had one at
all moments seen so far. -/
structure OnTop (D : Variable → Value → Prop) (outer : List Store) (m : Machine) (l : List Moment) : Prop where
  own : ∃ own, m.frames = own :: outer ∧ own.Only D
  seen : ∀ x ∈ l, x.machine.Above D outer

namespace OnTop

variable {D : Variable → Value → Prop} {outer : List Store} {m m' : Machine} {l : List Moment}
  {W : Variable → Prop}

theorem next (h : OnTop D outer m l) (hframes : m'.frames = m.frames) : OnTop D outer m' l :=
  ⟨hframes ▸ h.own, h.seen⟩

theorem see (h : OnTop D outer m l) (act : Act) : OnTop D outer m (l ++ [⟨act, m⟩]) := by
  obtain ⟨own, hframes, hown⟩ := h.own
  refine ⟨h.own, List.forall_mem_append.mpr ⟨h.seen, List.forall_mem_singleton.mpr ?_⟩⟩
  exact ⟨[], own, hframes, hown⟩

theorem set (h : OnTop D outer m l) {v : Variable} (hv : v.kind ≠ .global → ∀ x, D v x) (x : Value) :
    OnTop D outer (m.set v x) l := by
  obtain ⟨own, hframes, hown⟩ := h.own
  by_cases hkind : v.kind = .global
  · refine h.next ?_
    unfold Machine.set
    rw [hkind]
  · refine ⟨⟨own.set v x, ?_, fun w y hy ↦ ?_⟩, h.seen⟩
    · unfold Machine.set
      rw [hframes]
      cases hv : v.kind with
      | global => exact absurd hv hkind
      | «local» | parameter => rfl
    · rw [Store.get?_set] at hy
      split at hy
      · next heq =>
        obtain rfl := heq
        exact hv hkind y
      · exact hown w y hy

theorem invariant (hW : ∀ v, W v → v.kind ≠ .global → ∀ x, D v x) :
    Run.Invariant (fun _ ↦ True) W (outer.length + 1) (OnTop D outer) fun _ ↦ OnTop D outer where
  frames h := by
    obtain ⟨own, hframes, -⟩ := h.own
    rw [hframes, List.length_cons]
  write h hv x := h.set (hW _ hv) x
  read h _ := h.see _
  unread h _ _ := h.see _
  draw h := h.next rfl
  talk h _ := h.next rfl
  stop h _ := h

theorem tick (limits : Limits) (s : Statement) :
    Run.Meets (OnTop D outer) (Run.tick limits)
      (Run.andThen (Run.tick limits) fun _ m ↦ [⟨.begin s, m⟩]) (fun _ ↦ OnTop D outer)
      fun _ ↦ OnTop D outer := by
  have hpass {m : Machine} {l : List Moment} (h : OnTop D outer m l) :
      OnTop D outer { m with steps := m.steps + 1 } l := h.next rfl
  exact Run.Meets.tick s (fun _ _ h ↦ (hpass h).see _) fun _ _ _ h ↦ hpass h

theorem holds (limits : Limits) {b : Body}
    (hb : ∀ s ∈ b, ∀ v ∈ s.assigned, v.kind ≠ .global → ∀ x, D v x) :
    Run.Holds (fun _ _ ↦ True) (fun _ v ↦ v.kind ≠ .global → ∀ x, D v x) (fun _ _ ↦ True) (outer.length + 1)
      (fun _ ↦ OnTop D outer) (fun _ ↦ OnTop D outer) limits b where
  invariant _ := invariant fun _ ↦ id
  respects _ e _ := e.respects_any
  assigns hs := hb _ (List.mem_of_getElem? hs)
  tick _ := tick limits _
  go _ _ h := h

end OnTop

namespace Run

variable {D : Variable → Value → Prop} {limits : Limits} {p : Program} {n : Nat} {f : Function} {b : Body}

end Run

end SmallScript
