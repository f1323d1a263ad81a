import SmallScript.Proofs.Run.Trace

namespace SmallScript.Run

/-- A result of one run and what `Q` says of the values of another one: the second result goes with the first one. -/
abbrev Follow (α β : Type) := α → Machine → EStateM.Result Halt Machine β → Prop

/-- The second of two results goes with the first one: it is what `Q` says of a value, or has the same reason to
stop in a machine that `R` relates. The first one may be cut short if `U`, the second one if `V`. -/
inductive Matched {α β : Type} (U V : Prop) (R : Machine → Machine → Prop) (Q : Follow α β) :
    EStateM.Result Halt Machine α → EStateM.Result Halt Machine β → Prop
  | ok {a : α} {m : Machine} {r : EStateM.Result Halt Machine β} (h : Q a m r) : Matched U V R Q (.ok a m) r
  | error (e : Halt) {m m' : Machine} (h : R m m') : Matched U V R Q (.error e m) (.error e m')
  | left (hU : U) (m : Machine) (r : EStateM.Result Halt Machine β) : Matched U V R Q (.error .unfinished m) r
  | right (hV : V) (r : EStateM.Result Halt Machine α) (m : Machine) : Matched U V R Q r (.error .unfinished m)

/-- From machines that `R` relates, the result of the second action goes with that of the first one. -/
def Tracks {α β : Type} (U V : Prop) (R : Machine → Machine → Prop) (Q : Follow α β) (x : Run α) (y : Run β) : Prop :=
  ∀ m m', R m m' → Matched U V R Q (x m) (y m')

def Gives {α β : Type} (R : Machine → Machine → Prop) (L : α → β → Prop) : Follow α β :=
  fun a m r ↦ ∃ b m', r = .ok b m' ∧ R m m' ∧ L a b

abbrev Matches {α β : Type} (U V : Prop) (R : Machine → Machine → Prop) (L : α → β → Prop) :
    Run α → Run β → Prop := Tracks U V R (Gives R L)

variable {U V : Prop} {R : Machine → Machine → Prop} {α β γ δ : Type}

theorem Matched.mono {R' : Machine → Machine → Prop} {Q Q' : Follow α β} {r : EStateM.Result Halt Machine α}
    {r' : EStateM.Result Halt Machine β} (h : Matched U V R Q r r') (hR : ∀ m m', R m m' → R' m m')
    (hQ : ∀ a m r, Q a m r → Q' a m r) : Matched U V R' Q' r r' := by
  cases h with
  | ok h => exact .ok (hQ _ _ _ h)
  | error e h => exact .error e (hR _ _ h)
  | left hU => exact .left hU _ _
  | right hV => exact .right hV _ _

namespace Tracks

variable {Q : Follow α β}

theorem pure {L : α → β → Prop} {a : α} {b : β} (h : L a b) : Tracks U V R (Gives R L) (pure a) (pure b) :=
  fun _ _ hm ↦ .ok ⟨b, _, rfl, hm, h⟩

theorem throw (e : Halt) : Tracks U V R Q (throw e) (throw e) := fun _ _ hm ↦ .error e hm

theorem left (hU : U) (y : Run β) : Tracks U V R Q (MonadExcept.throw Halt.unfinished) y :=
  fun m m' _ ↦ .left hU m (y m')

theorem right (hV : V) (x : Run α) : Tracks U V R Q x (MonadExcept.throw Halt.unfinished) :=
  fun m m' _ ↦ .right hV (x m) m'

end Tracks

namespace Matches

variable {L : α → β → Prop} {x : Run α} {y : Run β}

theorem bind {f : α → Run γ} {g : β → Run δ} {Q : Follow γ δ} (h : Matches U V R L x y)
    (hfg : ∀ a b, L a b → Tracks U V R Q (f a) (g b)) : Tracks U V R Q (x >>= f) (y >>= g) := by
  intro m m' hm
  have hx := h m m' hm
  change Matched U V R Q (EStateM.bind x f m) (EStateM.bind y g m')
  unfold EStateM.bind
  generalize x m = r, y m' = r' at hx
  cases hx with
  | ok hok =>
    obtain ⟨b, m', rfl, hm, hL⟩ := hok
    exact hfg _ b hL _ m' hm
  | error e hm => exact .error e hm
  | left hU => exact .left hU _ _
  | right hV => exact .right hV _ _

theorem before {y : Run α} {f : α → Run γ} {g : α → Run δ} {Q : Follow γ δ} (h : Matches U V R Eq x y)
    (hfg : ∀ a, Tracks U V R Q (f a) (g a)) : Tracks U V R Q (x >>= f) (y >>= g) :=
  h.bind fun a _ heq ↦ heq ▸ hfg a

theorem ofExcept (x : Except Fault α) : Matches U V R Eq (ofExcept x) (ofExcept x) := by
  cases x with
  | ok a => exact Tracks.pure rfl
  | error f => exact Tracks.throw (.fault f)

theorem need (o : Option Value) : Matches U V R Eq (need o) (need o) := by
  cases o with
  | none => exact Tracks.throw (.fault .missingValue)
  | some x => exact Tracks.pure rfl

theorem needInt (o : Option Value) : Matches U V R Eq (needInt o) (needInt o) :=
  (need o).before fun _ ↦ ofExcept _

theorem needBool (o : Option Value) : Matches U V R Eq (needBool o) (needBool o) :=
  (need o).before fun _ ↦ ofExcept _

theorem needString (o : Option Value) : Matches U V R Eq (needString o) (needString o) :=
  (need o).before fun _ ↦ ofExcept _

end Matches

end SmallScript.Run
