import SmallScript.Report.Basic

namespace SmallScript

def Grows {σ α : Type} (log : σ → List Report) (m : StateM σ α) : Prop :=
  ∀ s, log s <:+ log (m s).2

namespace Grows

variable {σ α β : Type} {log : σ → List Report}

theorem of_log_eq {m : StateM σ α} (h : ∀ s, log (m s).2 = log s) : Grows log m :=
  fun s ↦ h s ▸ List.suffix_rfl

theorem pure (a : α) : Grows log (pure a : StateM σ α) := of_log_eq fun _ ↦ rfl

theorem bind {m : StateM σ α} {f : α → StateM σ β} (hm : Grows log m) (hf : ∀ a, Grows log (f a)) :
    Grows log (m >>= f) :=
  fun s ↦ (hm s).trans (hf _ _)

theorem ite {c : Prop} [Decidable c] {m m' : StateM σ α} (h : Grows log m) (h' : Grows log m') :
    Grows log (if c then m else m') := by
  split
  · exact h
  · exact h'

theorem eq_of_bind {m : StateM σ α} {f : α → StateM σ β} (hm : Grows log m) (hf : ∀ a, Grows log (f a))
    {s : σ} (h : log ((m >>= f) s).2 = log s) : log (m s).2 = log s := by
  have hq : log ((f (m s).1) (m s).2).2 = log s := h
  have hle := (hf (m s).1 (m s).2).length_le
  rw [hq] at hle
  exact ((hm s).eq_of_length_le hle).symm

end Grows

/-- An action that begins in a state with `I` and reports nothing ends in one, and its result has `Q`. -/
structure Honest {σ α : Type} (log : σ → List Report) (I : σ → Prop) (m : StateM σ α)
    (Q : α → Prop) : Prop where
  grows : Grows log m
  sound (s : σ) : I s → log (m s).2 = log s → I (m s).2 ∧ Q (m s).1

namespace Honest

variable {σ α β : Type} {log : σ → List Report} {I : σ → Prop}

theorem pure {a : α} {Q : α → Prop} (h : Q a) : Honest log I (pure a : StateM σ α) Q where
  grows := .pure a
  sound _ hI _ := ⟨hI, h⟩

theorem mono {m : StateM σ α} {P Q : α → Prop} (h : Honest log I m P) (hPQ : ∀ a, P a → Q a) :
    Honest log I m Q where
  grows := h.grows
  sound s hI hq := ⟨(h.sound s hI hq).1, hPQ _ (h.sound s hI hq).2⟩

theorem and {m : StateM σ α} {P Q : α → Prop} (h : Honest log I m P) (h' : Honest log I m Q) :
    Honest log I m fun a ↦ P a ∧ Q a where
  grows := h.grows
  sound s hI hq := ⟨(h.sound s hI hq).1, (h.sound s hI hq).2, (h'.sound s hI hq).2⟩

/-- What follows an action may keep the invariant only because of what the action promises. -/
theorem bind_of {m : StateM σ α} {f : α → StateM σ β} {P : α → Prop} {Q : β → Prop}
    (hm : Honest log I m P) (hg : ∀ a, Grows log (f a))
    (hf : ∀ a, P a → Honest log I (f a) Q) : Honest log I (m >>= f) Q where
  grows := hm.grows.bind hg
  sound s hI hq := by
    have hquiet := hm.grows.eq_of_bind hg hq
    obtain ⟨hI', hP⟩ := hm.sound s hI hquiet
    exact (hf _ hP).sound (m s).2 hI' (hq.trans hquiet.symm)

theorem bind {m : StateM σ α} {f : α → StateM σ β} {P : α → Prop} {Q : β → Prop}
    (hm : Honest log I m P) (hf : ∀ a, Honest log I (f a) fun b ↦ P a → Q b) :
    Honest log I (m >>= f) Q :=
  hm.bind_of (fun a ↦ (hf a).grows) fun a ha ↦ (hf a).mono fun _ hb ↦ hb ha

theorem ite {c : Prop} [Decidable c] {m m' : StateM σ α} {Q : α → Prop} (h : c → Honest log I m Q)
    (h' : ¬ c → Honest log I m' Q) : Honest log I (if c then m else m') Q := by
  split
  · next hc => exact h hc
  · next hc => exact h' hc

theorem get : Honest log I (get : StateM σ σ) I where
  grows _ := List.suffix_rfl
  sound _ hI _ := ⟨hI, hI⟩

theorem of_log_eq {m : StateM σ α} {Q : α → Prop} (hlog : ∀ s, log (m s).2 = log s)
    (h : ∀ s, I s → I (m s).2 ∧ Q (m s).1) : Honest log I m Q where
  grows s := hlog s ▸ List.suffix_rfl
  sound s hI _ := h s hI

theorem of_cons {m : StateM σ α} {Q : α → Prop} (h : ∀ s, ∃ r, log (m s).2 = r :: log s) :
    Honest log I m Q where
  grows s := by
    obtain ⟨r, hr⟩ := h s
    exact hr ▸ List.suffix_cons r _
  sound s _ hq := by
    obtain ⟨r, hr⟩ := h s
    exact absurd (hr.symm.trans hq) (List.cons_ne_self r _)

end Honest

end SmallScript
