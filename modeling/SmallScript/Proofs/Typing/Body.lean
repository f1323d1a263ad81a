import SmallScript.Proofs.Flow.Returns
import SmallScript.Proofs.Typing.Program
import SmallScript.Proofs.Typing.Run

namespace SmallScript

open Code

theorem Run.exists_place? {body : Body} {l : Label} (h : l ∈ body.labels) :
    ∃ i, place? body l = some i := by
  induction body using List.reverseRecOn with
  | nil => nomatch h
  | append_singleton body s ih =>
    rw [place?_append_singleton]
    split
    · exact ⟨_, rfl⟩
    · next hs =>
      rw [Body.labels_append, List.mem_append] at h
      rcases h with h | h
      · exact ih h
      · rw [Body.labels_cons, Body.labels_nil, List.append_nil, Option.mem_toList] at h
        exact absurd h hs

namespace Run

variable {R : Rules} {owner : Option Function} {body : Body} (limits : Limits) {invoke : Invoke}

def Leads (owner : Option Function) (body : Body) (i : Nat) : Next → Prop
  | .at j _ => Flow.Goes body i j
  | .done result => ∃ f, owner = some f ∧ f.returns.Fits result

theorem safe_target {l : Label} (h : l ∈ body.labels) :
    Safe (target body l) fun i ↦ place? body l = some i := by
  obtain ⟨i, hi⟩ := exists_place? h
  rw [target_eq, hi]
  exact .pure rfl

theorem evaluate_condition (h : Callees R invoke) {e : Expression} (he : e.WellTyped R)
    (hty : e.ty = .bool) :
    Safe (evaluate limits invoke e) fun o ↦
      Ty.bool.Fits o ∧ ∀ x, e = .literal x → o = some x := by
  have hsafe := evaluate_typed limits h e he
  rw [hty] at hsafe
  cases e with
  | literal x => exact .pure ⟨hty, fun y hy ↦ by cases hy; rfl⟩
  | _ => exact hsafe.mono fun o ho ↦ ⟨ho, nofun⟩

theorem step_typed (hb : body.Sound R owner) (h : Callees R invoke) {i : Nat} {s : Statement}
    (hs : body[i]? = some s) (last : Option Value) :
    Safe (step limits invoke body (i + 1) last s) (Leads owner body i) := by
  have hmem := List.mem_of_getElem? hs
  have hty := allTyped_iff.mp hb.typed s hmem
  have hflat := List.all_eq_true.mp hb.flat s hmem
  cases s with
  | declare v e =>
    obtain ⟨hv, he, hvty⟩ := hty
    refine .bind (evaluate_typed limits h e he) fun o ho ↦
      .bind (safe_need (hvty ▸ hv) ho) fun x hx ↦
        .bind (safe_write (hx.trans hvty)) fun _ _ ↦ .pure ?_
    simp [Leads, Flow.Goes, hs]
  | expression e =>
    refine .bind (evaluate_typed limits h e hty) fun o _ ↦ .pure ?_
    simp [Leads, Flow.Goes, hs]
  | label l =>
    refine .pure ?_
    simp [Leads, Flow.Goes, hs]
  | goto l =>
    have hl := hb.closed l (Body.mem_jumps.mpr ⟨_, hmem, rfl⟩)
    refine .bind (safe_target hl) fun j hj ↦ .pure ?_
    simpa [Leads, Flow.Goes, hs] using hj
  | gotoIf l e negated =>
    have hl := hb.closed l (Body.mem_jumps.mpr ⟨_, hmem, rfl⟩)
    refine .bind (evaluate_condition limits h hty.1 hty.2) fun o ho ↦
      .bind (safe_needBool ho.1) fun b hob ↦ ?_
    have hconst : ∀ b', e = .literal (.bool b') → b = b' := fun b' he ↦ by
      have := hob.symm.trans (ho.2 _ he)
      simpa using this
    refine .ite (fun hbn ↦ .pure ?_) fun hbn ↦ .bind (safe_target hl) fun j hj ↦ .pure ?_
    · simp only [Leads, Flow.Goes, hs]
      exact ⟨b, hconst, by rw [if_pos hbn]; trivial⟩
    · simp only [Leads, Flow.Goes, hs]
      exact ⟨b, hconst, by rwa [if_neg hbn]⟩
  | leave e =>
    cases owner with
    | none => exact hty.elim
    | some f =>
      cases e with
      | none => exact .pure ⟨f, rfl, hty⟩
      | some e =>
        refine .bind (evaluate_typed limits h e hty.2.1) fun o ho ↦ .pure ⟨f, rfl, ?_⟩
        exact hty.2.2 ▸ ho
  | block | ifThen | ifElse | whileLoop | doLoop | forLoop => nomatch hflat

theorem safe_tick : Safe (tick limits) fun _ ↦ True := by
  refine .bind .get ?_
  intro m hm
  split
  · exact .ite (fun _ ↦ .bind (.set hm) fun _ _ ↦ .fail rfl) fun _ ↦ .set hm
  · exact .set hm

theorem body_typed (hb : body.Sound R owner) (h : Callees R invoke) (n : Nat) {i : Nat}
    (hi : Flow.Reaches body i) (last : Option Value) :
    Safe (Run.body limits invoke body n i last) fun result ↦
      ∀ f, owner = some f → f.returns ≠ .void → f.returns.Fits result := by
  induction n generalizing i last with
  | zero => exact .throw trivial
  | succ n ih =>
    unfold Run.body
    split
    · next hnone =>
      refine .pure ?_
      intro f hf hv
      have := hi.lt_length (hb.returns f hf hv)
      exact absurd this (Nat.not_lt_of_le (List.getElem?_eq_none_iff.mp hnone))
    · next s hs =>
      refine .bind (safe_tick limits) ?_
      intro _ _
      refine .bind (step_typed limits hb h hs last) ?_
      intro next hnext
      cases next with
      | «at» j last => exact ih (.goes hi hnext) last
      | done result =>
        obtain ⟨f, hf, hfit⟩ := hnext
        refine .pure ?_
        intro f' hf' _
        obtain rfl := Option.some.inj (hf.symm.trans hf')
        exact hfit

theorem safe_withFrame {α : Type} {m : Run α} {Q : α → Prop} (h : Safe m Q) {frame : Store}
    (hframe : frame.Typed) : Safe (withFrame frame m) Q := by
  intro s hs
  have hin : ({ s with frames := frame :: s.frames } : Machine).Typed :=
    ⟨hs.1, List.forall_mem_cons.mpr ⟨hframe, hs.2⟩⟩
  have hrun := h _ hin
  unfold withFrame
  generalize m { s with frames := frame :: s.frames } = result at hrun ⊢
  cases result with
  | ok a s' => exact ⟨⟨hrun.1.1, fun f hf ↦ hrun.1.2 f (List.mem_of_mem_tail hf)⟩, hrun.2⟩
  | error e s' => exact ⟨⟨hrun.1.1, fun f hf ↦ hrun.1.2 f (List.mem_of_mem_tail hf)⟩, hrun.2⟩

end Run

namespace Program.Sound

variable {F : Function → Prop} {p : Program} (h : p.Sound F) (limits : Limits)
include h

theorem exists_body {f : Function} (hf : F f) (hd : ∃ id, f.origin = .declared id) :
    ∃ body, p.body? f = some body ∧ body.Sound (Rules.source F).flat (some f) := by
  obtain ⟨id, hid⟩ := hd
  rcases h.callable f hf with ⟨b, rfl⟩ | ⟨-, body, hbody⟩
  · cases b <;> nomatch hid
  · cases hl : p.body? f with
    | none => simpa using List.lookup_eq_none_iff.mp hl _ hbody
    | some body' =>
      obtain ⟨before, after, heq, -⟩ := List.lookup_eq_some_iff.mp hl
      exact ⟨body', rfl, h.bodies f body' (heq ▸ List.mem_append_right before List.mem_cons_self)⟩

theorem callees (n : Nat) : Run.Callees (Rules.source F).flat (Run.call p limits n) := by
  refine ⟨h.proper, ?_, ?_⟩
  · intro f hf
    exact (h.callable f hf).imp_right And.left
  · induction n with
    | zero => exact fun f frame _ _ _ ↦ .throw trivial
    | succ n ih =>
      intro f frame hf hd hframe
      obtain ⟨body, hl, hb⟩ := h.exists_body hf hd
      have hcallees : Run.Callees (Rules.source F).flat (Run.call p limits n) :=
        ⟨h.proper, fun f hf ↦ (h.callable f hf).imp_right And.left, ih⟩
      unfold Run.call
      rw [hl]
      refine .bind (Run.safe_withFrame (Run.body_typed limits hb hcallees n .start none) hframe)
        fun result hresult ↦ .pure ?_
      split
      · next hv => exact hv
      · next hv => exact hresult f rfl hv

/-- A run keeps the types of all variables, and makes no mistake. -/
theorem run (n : Nat) : Run.Safe (p.run limits n) fun _ ↦ True :=
  (Run.body_typed limits h.main (h.callees limits n) n .start none).mono fun _ _ ↦ trivial

end Program.Sound

end SmallScript
