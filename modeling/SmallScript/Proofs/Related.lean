import Mathlib.Data.List.Forall2

namespace SmallScript

variable {α β γ δ : Type} {R : α → β → Prop} {S : γ → δ → Prop} {l : List α} {l' : List β}

theorem map_eq_of_forall₂ (h : List.Forall₂ R l l') {f : α → γ} {g : β → γ} (hfg : ∀ a b, R a b → g b = f a) :
    l'.map g = l.map f := by
  induction h with
  | nil => rfl
  | cons hab _ ih => rw [List.map_cons, List.map_cons, hfg _ _ hab, ih]

theorem all_eq_of_forall₂ (h : List.Forall₂ R l l') {p : α → Bool} {q : β → Bool}
    (hpq : ∀ a b, R a b → q b = p a) : l'.all q = l.all p := by
  induction h with
  | nil => rfl
  | cons hab _ ih => rw [List.all_cons, List.all_cons, hpq _ _ hab, ih]

theorem mapM_rel (h : List.Forall₂ R l l') {f : α → Option γ} {g : β → Option δ}
    (hfg : ∀ a b, R a b → Option.Rel S (f a) (g b)) : Option.Rel (List.Forall₂ S) (l.mapM f) (l'.mapM g) := by
  induction h with
  | nil => exact .some .nil
  | @cons a b l l' hab _ ih =>
    have hone := hfg a b hab
    rw [List.mapM_cons, List.mapM_cons]
    generalize f a = o, g b = o' at hone
    generalize l.mapM f = rest, l'.mapM g = rest' at ih
    cases hone with
    | none => exact .none
    | some hc =>
      cases ih with
      | none => exact .none
      | some hrest => exact .some (.cons hc hrest)

theorem getLast?_rel (h : List.Forall₂ R l l') : Option.Rel R l.getLast? l'.getLast? := by
  rw [List.getLast?_eq_head?_reverse, List.getLast?_eq_head?_reverse]
  have hreverse := List.rel_reverse h
  generalize l.reverse = r, l'.reverse = r' at hreverse
  cases hreverse with
  | nil => exact .none
  | cons hab => exact .some hab

theorem getElem?_rel (h : List.Forall₂ R l l') (i : Nat) : Option.Rel R l[i]? l'[i]? := by
  induction h generalizing i with
  | nil => exact .none
  | cons hab _ ih =>
    cases i with
    | zero => exact .some hab
    | succ i => exact ih i

theorem exists_left_of_rel {o : Option α} {o' : Option β} {b : β} (h : Option.Rel R o o') (hb : o' = some b) :
    ∃ a, o = some a ∧ R a b := by
  subst hb
  cases h with
  | some hab => exact ⟨_, rfl, hab⟩

theorem exists_right_of_rel {o : Option α} {o' : Option β} {a : α} (h : Option.Rel R o o') (ha : o = some a) :
    ∃ b, o' = some b ∧ R a b := by
  subst ha
  cases h with
  | some hab => exact ⟨_, rfl, hab⟩

theorem zipIdx_rel (h : List.Forall₂ R l l') (n : Nat) :
    List.Forall₂ (fun p q ↦ R p.1 q.1 ∧ q.2 = p.2) (l.zipIdx n) (l'.zipIdx n) := by
  induction h generalizing n with
  | nil => exact .nil
  | cons hab _ ih => exact .cons ⟨hab, rfl⟩ (ih (n + 1))

theorem find?_rel (h : List.Forall₂ R l l') {p : α → Bool} {q : β → Bool} {P : α → β → Prop}
    (hpq : ∀ a b, R a b → q b = p a) (hP : ∀ a b, R a b → p a → P a b) :
    Option.Rel P (l.find? p) (l'.find? q) := by
  induction h with
  | nil => exact .none
  | @cons a b l l' hab _ ih =>
    rw [List.find?_cons, List.find?_cons, hpq a b hab]
    cases hp : p a with
    | true => exact .some (hP a b hab hp)
    | false => exact ih

theorem findSome?_rel (h : List.Forall₂ R l l') {look : α → Option γ} {look' : β → Option δ}
    (hlook : ∀ a b, R a b → Option.Rel S (look a) (look' b)) :
    Option.Rel S (l.findSome? look) (l'.findSome? look') := by
  induction h with
  | nil => exact .none
  | @cons a b l l' hab _ ih =>
    have hone := hlook a b hab
    rw [List.findSome?_cons, List.findSome?_cons]
    generalize look a = o, look' b = o' at hone
    cases hone with
    | some hcd => exact .some hcd
    | none => exact ih

end SmallScript
