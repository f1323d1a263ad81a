import SmallScript.Proofs.Run.Isolated

namespace SmallScript

open Code (Expression Statement Body)
open scoped List

namespace Store

/-- A store with values for some variables, by place. -/
def ofPlaces (vs : List Variable) (xs : List Value) : Store := (vs.zip xs).foldl (fun s p ↦ s.set p.1 p.2) empty

end Store

namespace Run

section Arguments

variable (limits : Limits) (invoke : Invoke)

def values : List Expression → Run (List Value)
  | [] => return []
  | e :: es => do
    let x ← need (← evaluate limits invoke e)
    return x :: (← values es)

end Arguments

variable {p : Program} {limits : Limits} {C : Function → Nat → Prop} {f : Function} {m : Machine}
  {l l' : List Moment} {k : Nat}

/-- A body is entered: in the course of `l` a call of `f` is evaluated, its arguments are put in a frame,
and this is put on what they leave behind. -/
structure Enters (p : Program) (limits : Limits) (C : Function → Nat → Prop) (f : Function) (m : Machine)
    (l : List Moment) (k : Nat) (es : List Expression) (before : Machine) (frame : Store) (outside : Machine) :
    Prop where
  declared : ∃ id, f.origin = .declared id
  complete : C f es.length
  passes : checkDepth limits before = .ok () before
  binds : bindArguments limits (call p limits (k + 1)) .empty f.parameters es before = .ok frame outside
  machine : m = { outside with frames := frame :: outside.frames }
  body : ∃ b, p.body? f = some b
  seen : moments limits (call p limits (k + 1)) (callMoments limits p (k + 1)) (.call f es) before <:+: l

def Traced (p : Program) (limits : Limits) (C : Function → Nat → Prop) (l : List Moment) : Prop :=
  ∀ f m, ⟨.enter f, m⟩ ∈ l → ∃ k es before frame outside, Enters p limits C f m l k es before frame outside

/-- A call is seen as the entry of the body and what comes after it, if the body is entered at all. -/
def Opens (p : Program) (limits : Limits) (C : Function → Nat → Prop) (k : Nat) : Prop :=
  ∀ f frame m, callMoments limits p k f frame m = [] ∨ ∃ j b rest, k = j + 1 ∧ p.body? f = some b ∧
    callMoments limits p k f frame m = ⟨.enter f, { m with frames := frame :: m.frames }⟩ :: rest ∧
    Traced p limits C rest

theorem checkDepth_ok {u : Unit} {before : Machine} (h : checkDepth limits before = .ok u m) : m = before := by
  rw [checkDepth_eq] at h
  unfold allow at h
  split at h
  · split at h
    · nomatch h
    · exact (EStateM.Result.ok.inj h).2.symm
  · exact (EStateM.Result.ok.inj h).2.symm

namespace Traced

theorem nil : Traced p limits C [] := fun _ _ h ↦ absurd h List.not_mem_nil

theorem within (h : Traced p limits C l) (hl : l <:+: l') (hx : ⟨.enter f, m⟩ ∈ l) :
    ∃ k es before frame outside, Enters p limits C f m l' k es before frame outside := by
  obtain ⟨k, es, before, frame, outside, henter⟩ := h f m hx
  exact ⟨k, es, before, frame, outside, { henter with seen := henter.seen.trans hl }⟩

theorem append (h : Traced p limits C l) (h' : Traced p limits C l') : Traced p limits C (l ++ l') := by
  intro f m hx
  rcases List.mem_append.mp hx with hx | hx
  · exact h.within (List.prefix_append l l').isInfix hx
  · exact h'.within (List.suffix_append l l').isInfix hx

theorem cons (h : Traced p limits C l) {x : Moment} (hx : ∀ f, x.act ≠ .enter f) : Traced p limits C (x :: l) := by
  intro f m hm
  rcases List.mem_cons.mp hm with rfl | hm
  · exact absurd rfl (hx f)
  · exact h.within (List.suffix_cons x l).isInfix hm

theorem andThen {α : Type} {x : Run α} {t : α → Machine → List Moment}
    (h : ∀ a m', x m = .ok a m' → Traced p limits C (t a m')) : Traced p limits C (andThen x t m) := by
  unfold Run.andThen
  split
  · next a m' heq => exact h a m' heq
  · exact nil

end Traced

section Moments

theorem evaluate_declared {id : Nat} (hf : f.origin = .declared id) (limits : Limits) (invoke : Invoke)
    (es : List Expression) : evaluate limits invoke (.call f es) =
      checkDepth limits >>= fun _ ↦ bindArguments limits invoke .empty f.parameters es >>= invoke f := by
  unfold evaluate
  rw [hf]

theorem moments_declared {id : Nat} (hf : f.origin = .declared id) (limits : Limits) (invoke : Invoke)
    (watch : Watch) (es : List Expression) : moments limits invoke watch (.call f es) =
      andThen (checkDepth limits) fun _ m ↦ argumentMoments limits invoke watch .empty f.parameters es m ++
        andThen (bindArguments limits invoke .empty f.parameters es) (watch f) m := by
  unfold moments
  rw [hf]

theorem traced_arguments {es : List Expression} (h : ∀ e ∈ es, ∀ m,
    Traced p limits C (moments limits (call p limits k) (callMoments limits p k) e m))
    (frame : Store) (vs : List Variable) (m : Machine) :
    Traced p limits C (argumentMoments limits (call p limits k) (callMoments limits p k) frame vs es m) := by
  induction es generalizing frame vs m with
  | nil => cases vs <;> exact .nil
  | cons e es ih =>
    obtain ⟨he, hes⟩ := List.forall_mem_cons.mp h
    cases vs with
    | nil => exact .nil
    | cons v vs => exact (he m).append (.andThen fun _ _ _ ↦ .andThen fun x _ _ ↦ ih hes _ vs _)

/-- What is seen of a call of a declared function is seen of its arguments and then of its body. -/
theorem traced_declared (hopen : Opens p limits C k) {id : Nat} {es : List Expression}
    (hf : f.origin = .declared id) (hC : C f es.length) (h : ∀ e ∈ es, ∀ m,
      Traced p limits C (moments limits (call p limits k) (callMoments limits p k) e m)) (m : Machine) :
    Traced p limits C (moments limits (call p limits k) (callMoments limits p k) (.call f es) m) := by
  intro g x hx
  rw [moments_declared hf] at hx ⊢
  unfold andThen at hx ⊢
  cases hpasses : checkDepth limits m with
  | error e m' =>
    rw [hpasses] at hx
    nomatch hx
  | ok u m' =>
    obtain rfl := checkDepth_ok hpasses
    rw [hpasses] at hx
    dsimp only at hx ⊢
    rcases List.mem_append.mp hx with hx | hx
    · exact (traced_arguments h _ _ m').within (List.prefix_append _ _).isInfix hx
    · cases hbinds : bindArguments limits (call p limits k) .empty f.parameters es m' with
      | error e outside =>
        rw [hbinds] at hx
        nomatch hx
      | ok frame outside =>
        rw [hbinds] at hx
        dsimp only at hx ⊢
        rcases hopen f frame outside with hnil | ⟨j, b, rest, rfl, hbody, hopens, hrest⟩
        · rw [hnil] at hx
          nomatch hx
        · rw [hopens] at hx ⊢
          rcases List.mem_cons.mp hx with hx | hx
          · obtain ⟨hact, hmachine⟩ := Moment.mk.inj hx
            obtain rfl := Act.enter.inj hact
            have hwhole : moments limits (call p limits (j + 1)) (callMoments limits p (j + 1)) (.call g es) m' =
                argumentMoments limits (call p limits (j + 1)) (callMoments limits p (j + 1)) .empty g.parameters es m' ++
                  ⟨.enter g, { outside with frames := frame :: outside.frames }⟩ :: rest := by
              rw [moments_declared hf, andThen, hpasses]
              dsimp only
              rw [andThen, hbinds]
              dsimp only
              rw [hopens]
            exact ⟨j, es, m', frame, outside, ⟨id, hf⟩, hC, hpasses, hbinds, hmachine, ⟨b, hbody⟩,
              hwhole ▸ List.infix_refl _⟩
          · exact hrest.within ((List.suffix_cons _ rest).trans (List.suffix_append _ _)).isInfix hx

mutual

theorem traced_moments (hopen : Opens p limits C k) : (e : Expression) → e.Respects (fun _ ↦ True) C → ∀ m,
    Traced p limits C (moments limits (call p limits k) (callMoments limits p k) e m)
  | .error, _, _ | .literal _, _, _ => .nil
  | .var _, _, _ => Traced.nil.cons fun _ h ↦ Act.noConfusion h
  | .assign _ e, h, m | .unary _ e, h, m | .convert _ e, h, m => traced_moments hopen e h m
  | .binary e o e', ⟨h, h'⟩, m => by
    have hleft := traced_moments hopen e h
    have hright := traced_moments hopen e' h'
    simp only [moments]
    refine (hleft m).append (.andThen fun x m' _ ↦ ?_)
    cases o.action
    case logicalAnd => exact .andThen fun b m' _ ↦ by cases b <;> first | exact hright m' | exact .nil
    case logicalOr => exact .andThen fun b m' _ ↦ by cases b <;> first | exact hright m' | exact .nil
    all_goals exact .andThen fun _ m' _ ↦ hright m'
  | .call f es, ⟨hC, hes⟩, m => by
    have hall := traced_all hopen es hes
    cases hf : f.origin with
    | declared id => exact traced_declared hopen hf hC hall m
    | builtin b =>
      unfold moments
      rw [hf]
      rcases b with _ | _ | _
      · rcases es with _ | ⟨e, es⟩
        · exact .nil
        · exact hall e List.mem_cons_self m
      · exact .nil
      · rcases es with _ | ⟨e, _ | ⟨e', es⟩⟩
        · exact .nil
        · exact hall e List.mem_cons_self m
        · obtain ⟨he, hes⟩ := List.forall_mem_cons.mp hall
          exact (he m).append (.andThen fun _ _ _ ↦ .andThen fun _ m' _ ↦ hes e' List.mem_cons_self m')

theorem traced_all (hopen : Opens p limits C k) : (es : List Expression) → Code.AllRespect (fun _ ↦ True) C es → ∀ e ∈ es, ∀ m,
    Traced p limits C (moments limits (call p limits k) (callMoments limits p k) e m)
  | [], _ => List.forall_mem_nil _
  | e :: es, ⟨he, hes⟩ => List.forall_mem_cons.mpr ⟨traced_moments hopen e he, traced_all hopen es hes⟩

end

theorem traced_body (hopen : Opens p limits C k) {b : Body} (hb : ∀ s ∈ b, ∀ e ∈ s.operand?, e.Respects (fun _ ↦ True) C) (n i : Nat)
    (last : Option Value) (m : Machine) :
    Traced p limits C (bodyMoments limits (call p limits k) (callMoments limits p k) b n i last m) := by
  induction n generalizing i last m with
  | zero => exact .nil
  | succ n ih =>
    unfold bodyMoments
    cases hs : b[i]? with
    | none => exact .nil
    | some s =>
      refine .andThen fun _ m' _ ↦ .cons (.append ?_ (.andThen fun next m' _ ↦ ?_)) fun _ h ↦ Act.noConfusion h
      · unfold stepMoments
        cases he : s.operand? with
        | none => exact .nil
        | some e => exact traced_moments hopen e (hb s (List.mem_of_getElem? hs) e he) m'
      · cases next with
        | «at» j last => exact ih j last m'
        | done result => exact .nil

end Moments

theorem opens (hp : ∀ f b, (f, b) ∈ p.functions → ∀ s ∈ b, ∀ e ∈ s.operand?, e.Respects (fun _ ↦ True) C)
    (k : Nat) : Opens p limits C k := by
  induction k with
  | zero => exact fun _ _ _ ↦ .inl rfl
  | succ k ih =>
    intro f frame m
    cases hbody : p.body? f with
    | none =>
      left
      unfold callMoments
      rw [hbody]
    | some b =>
      have hrest := traced_body ih (hp f b (Program.mem_functions_of_body? hbody)) k 0 none
        { m with frames := frame :: m.frames }
      refine .inr ⟨k, b, _, rfl, rfl, ?_, hrest⟩
      unfold callMoments
      rw [hbody]

end Run

end SmallScript
