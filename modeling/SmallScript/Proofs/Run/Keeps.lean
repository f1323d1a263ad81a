import SmallScript.Run.Machine

namespace SmallScript.Run

/-- From a machine with `I` on, an action ends in one, with a result that has `Q` or a reason that has
`E`. -/
def Keeps {α : Type} (I : Machine → Prop) (E : Halt → Prop) (m : Run α) (Q : α → Prop) : Prop :=
  ∀ s, I s → match m s with
    | .ok a s' => I s' ∧ Q a
    | .error e s' => I s' ∧ E e

namespace Keeps

variable {α β : Type} {I : Machine → Prop} {E : Halt → Prop}

theorem pure {a : α} {Q : α → Prop} (h : Q a) : Keeps I E (pure a) Q := fun _ hs ↦ ⟨hs, h⟩

theorem bind {m : Run α} {f : α → Run β} {P : α → Prop} {Q : β → Prop} (hm : Keeps I E m P)
    (hf : ∀ a, P a → Keeps I E (f a) Q) : Keeps I E (m >>= f) Q := by
  intro s hs
  have h := hm s hs
  change match EStateM.bind m f s with
    | .ok a s' => I s' ∧ Q a
    | .error e s' => I s' ∧ E e
  unfold EStateM.bind
  cases hr : m s with
  | ok a s' =>
    rw [hr] at h
    exact hf a h.2 s' h.1
  | error e s' =>
    rw [hr] at h
    exact h

theorem mono {m : Run α} {P Q : α → Prop} (h : Keeps I E m P) (hPQ : ∀ a, P a → Q a) :
    Keeps I E m Q := by
  intro s hs
  have := h s hs
  split <;> simp_all

theorem ite {c : Prop} [Decidable c] {m m' : Run α} {Q : α → Prop} (h : c → Keeps I E m Q)
    (h' : ¬ c → Keeps I E m' Q) : Keeps I E (if c then m else m') Q := by
  split
  · next hc => exact h hc
  · next hc => exact h' hc

theorem throw {e : Halt} {Q : α → Prop} (h : E e) : Keeps I E (throw e) Q := fun _ hs ↦ ⟨hs, h⟩

theorem fail {f : Fault} {Q : α → Prop} (h : E (.fault f)) : Keeps I E (fail f) Q := throw h

theorem get : Keeps I E get I := fun _ hs ↦ ⟨hs, hs⟩

theorem set {s : Machine} (h : I s) : Keeps I E (set s) fun _ ↦ True := fun _ _ ↦ ⟨h, trivial⟩

theorem modify {f : Machine → Machine} (h : ∀ s, I s → I (f s)) :
    Keeps I E (modify f) fun _ ↦ True :=
  fun s hs ↦ ⟨h s hs, trivial⟩

theorem ofExcept {x : Except Fault α} {Q : α → Prop} (hok : ∀ a, x = .ok a → Q a)
    (herror : ∀ f, x = .error f → E (.fault f)) : Keeps I E (ofExcept x) Q := by
  cases x with
  | ok a => exact pure (hok a rfl)
  | error f => exact fail (herror f rfl)

end Keeps

end SmallScript.Run
