import SmallScript.Proofs.Resolve.Loops
import SmallScript.Proofs.Scope.Layers

namespace SmallScript

def Resolution.seen (r : Resolution) : List Frame := r.scopes.chain r.scope

namespace Scopes

variable {s s' : Scopes} {scope n : Nat} {f : Frame}

theorem outward_congr (hs : s.Ordered) (h : ∀ i ≤ scope, s'.frames[i]? = s.frames[i]?) {n n' : Nat}
    (hn : scope < n) (hn' : scope < n') : s'.outward n' scope = s.outward n scope := by
  induction scope using Nat.strongRecOn generalizing n n' with
  | ind scope ih =>
    obtain ⟨n, rfl⟩ := Nat.exists_eq_succ_of_ne_zero (Nat.ne_of_gt (Nat.zero_lt_of_lt hn))
    obtain ⟨n', rfl⟩ := Nat.exists_eq_succ_of_ne_zero (Nat.ne_of_gt (Nat.zero_lt_of_lt hn'))
    simp only [outward, h scope (Nat.le_refl _)]
    cases hf : s.frames[scope]? with
    | none => rfl
    | some f =>
      cases hp : f.parent with
      | none => simp [hp]
      | some p =>
        have hlt := hs scope f p hf hp
        simp only [hp, Option.elim_some]
        exact congrArg _ (ih p hlt (fun i hi ↦ h i (by omega)) (by omega) (by omega))

theorem chain_eq (hs : s.Ordered) (hf : s.frames[scope]? = some f) :
    s.chain scope = f :: f.parent.elim [] s.chain := by
  have hlt := (Array.getElem?_eq_some_iff.mp hf).1
  obtain ⟨n, hn⟩ := Nat.exists_eq_succ_of_ne_zero (Nat.ne_of_gt (Nat.zero_lt_of_lt hlt))
  rw [chain, hn, outward, hf]
  cases hp : f.parent with
  | none => simp [hp]
  | some p =>
    have hlt' := hs scope f p hf hp
    simp only [hp, Option.elim_some]
    exact congrArg _ (outward_congr hs (fun _ _ ↦ rfl) (by omega) (by omega))

theorem getElem?_set!_frame {f g : Frame} (hf : s.frames[scope]? = some f) (i : Nat) :
    (s.frames.set! scope g)[i]? = if i = scope then some g else s.frames[i]? := by
  have hlt := (Array.getElem?_eq_some_iff.mp hf).1
  rw [Array.set!_eq_setIfInBounds, Array.getElem?_setIfInBounds]
  by_cases hi : scope = i
  · subst hi
    simp [hlt]
  · simp [hi, Ne.symm hi]

theorem frames_declareVariable (hf : s.frames[scope]? = some f) (v : Variable) (i : Nat) :
    ((s.declareVariable? scope v).getD s).frames[i]? =
      if i = scope then some (f.withVariable v) else s.frames[i]? := by
  simp only [declareVariable?, hf, Frame.withVariable]
  split
  · by_cases hi : i = scope
    · simp [hi, hf]
    · simp [hi]
  · exact getElem?_set!_frame hf i

theorem frames_declareFunction (hf : s.frames[scope]? = some f) (g : Function) (i : Nat) :
    ((s.declareFunction? scope g).getD s).frames[i]? =
      if i = scope then some (f.withFunction g) else s.frames[i]? := by
  simp only [declareFunction?, hf, Frame.withFunction]
  split
  · by_cases hi : i = scope
    · simp [hi, hf]
    · simp [hi]
  · exact getElem?_set!_frame hf i

end Scopes

namespace Resolution

variable {r r' r'' : Resolution}

/-- What is known later: the same scope is in force, and of the others before none is changed. -/
structure Kept (r r' : Resolution) : Prop extends r.Extends r' where
  others : ∀ i < r.scopes.frames.size, i ≠ r.scope → r'.scopes.frames[i]? = r.scopes.frames[i]?

theorem Kept.refl (r : Resolution) : r.Kept r := ⟨.refl r, fun _ _ _ ↦ rfl⟩

theorem Kept.trans (h : r.Kept r') (h' : r'.Kept r'') : r.Kept r'' := by
  refine ⟨h.toExtends.trans h'.toExtends, fun i hi hne ↦ ?_⟩
  rw [h'.others i (Nat.lt_of_lt_of_le hi h.frames) (h.scope ▸ hne), h.others i hi hne]

end Resolution

namespace Resolver

variable {α β : Type} {m : Resolver α} {f : α → Resolver β} {T T' : List Frame → α → List Frame → Prop}
  {U : α → List Frame → β → List Frame → Prop}

/-- An action changes no scope but the one in force, and relates what is seen before it, its result and
what is seen after it. -/
def Stacked (m : Resolver α) (T : List Frame → α → List Frame → Prop) : Prop :=
  ∀ r, r.Stands → r.Kept (m r).2 ∧ T r.seen (m r).1 (m r).2.seen

theorem Stacked.mono (h : Stacked m T) (hT : ∀ env a env', T env a env' → T' env a env') :
    Stacked m T' := fun r hr ↦ ⟨(h r hr).1, hT _ _ _ (h r hr).2⟩

theorem Stacked.pure {a : α} (h : ∀ env, T env a env) : Stacked (pure a) T :=
  fun r _ ↦ ⟨.refl r, h r.seen⟩

theorem Stacked.bind (hm : Stacked m T) (hf : ∀ a, Stacked (f a) (U a)) :
    Stacked (m >>= f) fun env b env' ↦ ∃ a mid, T env a mid ∧ U a mid b env' := by
  intro r hr
  obtain ⟨hkept, hT⟩ := hm r hr
  obtain ⟨hkept', hU⟩ := hf (m r).1 (m r).2 (hkept.stands hr)
  exact ⟨hkept.trans hkept', _, _, hT, hU⟩

theorem Stacked.ite {c : Prop} [Decidable c] {m' : Resolver α} (h : c → Stacked m T)
    (h' : ¬ c → Stacked m' T) : Stacked (if c then m else m') T := by
  split
  · next hc => exact h hc
  · next hc => exact h' hc

theorem Reporting.stacked {Q : List Frame → α → Prop} (h : Reporting m) (hQ : ∀ r, Q r.seen (m r).1) :
    Stacked m fun env a env' ↦ env' = env ∧ Q env a := by
  intro r _
  obtain ⟨new, hnew⟩ := h r
  refine ⟨⟨(h.loopless r).1, fun i _ _ ↦ by rw [hnew]⟩, by rw [hnew]; rfl, hQ r⟩

theorem stacked_freshSymbol : Stacked freshSymbol fun env _ env' ↦ env' = env :=
  fun r _ ↦ ⟨⟨(loopless_freshSymbol r).1, fun _ _ _ ↦ rfl⟩, rfl⟩

/-- An action that changes the frame in force, and answers what that frame says, changes the nearest of those
seen. -/
theorem stacked_of_frames {φ : Frame → Frame} {answer : Frame → α} (hm : Loopless m)
    (hφ : ∀ f, (φ f).parent = f.parent)
    (hframes : ∀ r f, r.scopes.frames[r.scope]? = some f → (m r).1 = answer f ∧ ∀ i,
      (m r).2.scopes.frames[i]? = if i = r.scope then some (φ f) else r.scopes.frames[i]?) :
    Stacked m fun env a env' ↦ ∃ f rest, env = f :: rest ∧ env' = φ f :: rest ∧ a = answer f := by
  intro r hr
  obtain ⟨f, hf⟩ : ∃ f, r.scopes.frames[r.scope]? = some f := ⟨_, Array.getElem?_eq_getElem hr.scope⟩
  have hext := (hm r).1
  have hstands := hext.stands hr
  obtain ⟨hanswer, hset⟩ := hframes r f hf
  have hsame (i : Nat) (hi : i ≠ r.scope) := (hset i).trans (if_neg hi)
  have htop : (m r).2.scopes.frames[(m r).2.scope]? = some (φ f) := by
    rw [hext.scope]
    exact (hset r.scope).trans (if_pos rfl)
  refine ⟨⟨hext, fun i _ hi ↦ hsame i hi⟩, f, f.parent.elim [] r.scopes.chain,
    Scopes.chain_eq hr.ordered hf, (Scopes.chain_eq hstands.ordered htop).trans ?_, hanswer⟩
  rw [hφ]
  cases hp : f.parent with
  | none => rfl
  | some p =>
    have hlt := hr.ordered r.scope f p hf hp
    have hscope := Nat.lt_trans hlt hr.scope
    refine congrArg _ (Scopes.outward_congr hr.ordered (fun i hi ↦ hsame i (by omega)) hscope ?_)
    exact Nat.lt_of_lt_of_le hscope hext.frames

theorem stacked_declareVariable (v : Variable) :
    Stacked (declareVariable v) fun env isFree env' ↦ ∃ f rest, env = f :: rest ∧
      env' = f.withVariable v :: rest ∧ isFree = (f.lookupVariable v.name).isNone := by
  refine stacked_of_frames (loopless_declareVariable v) (fun _ ↦ Frame.parent_withVariable v) ?_
  intro r f hf
  rw [declareVariable_fst, declareVariable_snd]
  refine ⟨?_, Scopes.frames_declareVariable hf v⟩
  rw [Scopes.declareVariable?, hf]
  cases hfree : f.lookupVariable v.name <;> simp [hfree]

theorem stacked_declareFunction (g : Function) :
    Stacked (declareFunction g) fun env isFree env' ↦ ∃ f rest, env = f :: rest ∧
      env' = f.withFunction g :: rest ∧ isFree = (f.lookupFunction g.name).isNone := by
  refine stacked_of_frames (loopless_declareFunction g) (fun _ ↦ Frame.parent_withFunction g) ?_
  intro r f hf
  rw [declareFunction_fst, declareFunction_snd]
  refine ⟨?_, Scopes.frames_declareFunction hf g⟩
  rw [Scopes.declareFunction?, hf]
  cases hfree : f.lookupFunction g.name <;> simp [hfree]

theorem stands_enter {r : Resolution} (hr : r.Stands) : (enter r).2.Stands := by
  have hsize : (r.scopes.push r.scope).2.frames.size = r.scopes.frames.size + 1 := by
    simp [Scopes.push]
  exact ⟨hsize ▸ Nat.lt_succ_self _, hr.ordered.push hr.scope⟩

theorem seen_enter {r : Resolution} (hr : r.Stands) :
    (enter r).2.seen = ⟨some r.scope, [], []⟩ :: r.seen := by
  have htop : (r.scopes.push r.scope).2.frames[(r.scopes.push r.scope).1]? =
      some ⟨some r.scope, [], []⟩ := by simp [Scopes.push]
  refine (Scopes.chain_eq (stands_enter hr).ordered htop).trans (congrArg _ ?_)
  have hlt := hr.scope
  refine Scopes.outward_congr hr.ordered (fun i hi ↦ ?_) hlt ?_
  · change (r.scopes.push r.scope).2.frames[i]? = r.scopes.frames[i]?
    simp only [Scopes.push, Array.getElem?_push]
    rw [if_neg (by omega)]
  · change r.scope < (r.scopes.push r.scope).2.frames.size
    simp only [Scopes.push, Array.size_push]
    omega

theorem inside_apply (m : Resolver α) (r : Resolution) :
    inside m r = ((m (enter r).2).1, { (m (enter r).2).2 with scope := r.scope }) := rfl

theorem kept_inside {m : Resolver α} {r : Resolution} (hr : r.Stands)
    (hkept : (enter r).2.Kept (m (enter r).2).2) :
    r.Kept (inside m r).2 ∧ (inside m r).2.seen = r.seen := by
  have hsize : (enter r).2.scopes.frames.size = r.scopes.frames.size + 1 := by
    simp [enter, modifyGet_apply, Scopes.push]
  have hsame (i : Nat) (hi : i < r.scopes.frames.size) :
      (m (enter r).2).2.scopes.frames[i]? = r.scopes.frames[i]? := by
    rw [hkept.others i (by omega) (Nat.ne_of_lt hi)]
    simp only [enter, modifyGet_apply, Scopes.push, Array.getElem?_push]
    rw [if_neg (by omega)]
  have hle : r.scopes.frames.size ≤ (m (enter r).2).2.scopes.frames.size :=
    Nat.le_trans (by omega) hkept.frames
  rw [inside_apply]
  refine ⟨⟨⟨rfl, hle, hkept.loopCount, fun _ ↦ ?_⟩, fun i hi _ ↦ hsame i hi⟩, ?_⟩
  · exact ⟨Nat.lt_of_lt_of_le hr.scope hle, (hkept.stands (stands_enter hr)).ordered⟩
  · exact Scopes.outward_congr hr.ordered (fun i hi ↦ hsame i (Nat.lt_of_le_of_lt hi hr.scope)) hr.scope
      (Nat.lt_of_lt_of_le hr.scope hle)

theorem stacked_inside (h : Stacked m T) :
    Stacked (inside m) fun env a env' ↦
      env' = env ∧ ∃ parent inner, T (⟨some parent, [], []⟩ :: env) a inner := by
  intro r hr
  obtain ⟨hkept, hT⟩ := h _ (stands_enter hr)
  obtain ⟨hkept', hseen⟩ := kept_inside hr hkept
  exact ⟨hkept', hseen, r.scope, _, seen_enter hr ▸ hT⟩

def openLoop (r : Resolution) : Resolution :=
  { r with
    loopCount := r.loopCount + 1
    loops := ⟨.breakOf (r.loopCount + 1), .continueOf (r.loopCount + 1)⟩ :: r.loops }

theorem insideLoop_apply (m : Resolver α) (r : Resolution) :
    insideLoop m r = (((m (openLoop r)).1, ⟨.breakOf (r.loopCount + 1), .continueOf (r.loopCount + 1)⟩),
      { (m (openLoop r)).2 with loops := (m (openLoop r)).2.loops.tail }) := rfl

theorem kept_insideLoop {m : Resolver α} {r : Resolution} (hr : r.Stands)
    (hkept : (openLoop r).Kept (m (openLoop r)).2) : r.Kept (insideLoop m r).2 := by
  refine ⟨⟨hkept.scope, hkept.frames, Nat.le_trans (Nat.le_succ _) hkept.loopCount, fun _ ↦ ?_⟩,
    hkept.others⟩
  have hstands := hkept.stands ⟨hr.scope, hr.ordered⟩
  exact ⟨hstands.scope, hstands.ordered⟩

theorem stacked_insideLoop (h : Stacked m T) :
    Stacked (insideLoop m) fun env p env' ↦ T env p.1 env' := by
  intro r hr
  obtain ⟨hkept, hT⟩ := h (openLoop r) ⟨hr.scope, hr.ordered⟩
  exact ⟨kept_insideLoop hr hkept, hT⟩

end Resolver

end SmallScript
