import SmallScript.Proofs.Code.Parts
import SmallScript.Proofs.Lowering.Nested
import SmallScript.Run.Evaluate

namespace SmallScript

open Code (Expression)

/-- Values that a machine keeps among its globals and in each frame, the innermost first. -/
structure Kept where
  globals : List (Variable × Value)
  frames : List (List (Variable × Value))

namespace Kept

def place (K : Kept) (v : Variable) : List (Variable × Value) :=
  match v.kind, K.frames with
  | .global, _ | _, [] => K.globals
  | _, top :: _ => top

def add (K : Kept) (v : Variable) (x : Value) : Kept :=
  match v.kind, K.frames with
  | .global, _ | _, [] => { K with globals := (v, x) :: K.globals }
  | _, top :: rest => { K with frames := ((v, x) :: top) :: rest }

def push (K : Kept) : Kept := { K with frames := [] :: K.frames }

theorem mem_place_add (K : Kept) (v : Variable) (x : Value) : (v, x) ∈ (K.add v x).place v := by
  unfold add place
  cases v.kind <;> cases K.frames <;> simp

theorem of_mem_place_add {K : Kept} {v w : Variable} {x : Value} {q : Variable × Value}
    (hq : q ∈ (K.add v x).place w) : q = (v, x) ∨ q ∈ K.place w := by
  obtain ⟨g, fs⟩ := K
  unfold add place at hq
  unfold place
  cases hv : v.kind <;> cases hw : w.kind <;> cases fs <;> rw [hv, hw] at hq <;>
    first | exact .inr hq | exact List.mem_cons.mp hq

end Kept

section Twin

variable {taken : Variable → Prop}

structure Store.Twin (taken : Variable → Prop) (kept : List (Variable × Value)) (s s' : Store) :
    Prop where
  same : ∀ v, taken v → s.get? v = s'.get? v
  keeps : ∀ q ∈ kept, ¬ taken q.1 ∧ s.get? q.1 = some q.2

namespace Store.Twin

variable {kept : List (Variable × Value)} {s s' : Store} {v w : Variable}

theorem refl (s : Store) : Twin taken [] s s := ⟨fun _ _ ↦ rfl, fun _ hq ↦ nomatch hq⟩

theorem set (h : Twin taken kept s s') (hv : taken v) (x : Value) :
    Twin taken kept (s.set v x) (s'.set v x) := by
  constructor
  · intro w hw
    rw [get?_set, get?_set, h.same w hw]
  · intro q hq
    obtain ⟨hfree, hget⟩ := h.keeps q hq
    have hne : q.1 ≠ v := fun heq ↦ hfree (heq ▸ hv)
    exact ⟨hfree, by rw [get?_set, if_neg hne, hget]⟩

theorem add (h : Twin taken kept s s') (hw : ¬ taken w) (hne : ∀ q ∈ kept, q.1 ≠ w) (x : Value) :
    Twin taken ((w, x) :: kept) (s.set w x) s' := by
  constructor
  · intro v hv
    have hvw : v ≠ w := fun heq ↦ hw (heq ▸ hv)
    rw [get?_set, if_neg hvw, h.same v hv]
  · intro q hq
    rcases List.mem_cons.mp hq with rfl | hq
    · exact ⟨hw, by rw [get?_set, if_pos rfl]⟩
    · obtain ⟨hfree, hget⟩ := h.keeps q hq
      exact ⟨hfree, by rw [get?_set, if_neg (hne q hq), hget]⟩

theorem of_cons {q : Variable × Value} (h : Twin taken (q :: kept) s s') : Twin taken kept s s' :=
  ⟨h.same, fun p hp ↦ h.keeps p (List.mem_cons_of_mem q hp)⟩

end Store.Twin

inductive Frames.Twin (taken : Variable → Prop) :
    List (List (Variable × Value)) → List Store → List Store → Prop
  | nil : Twin taken [] [] []
  | cons {kept : List (Variable × Value)} {s s' : Store} {ks : List (List (Variable × Value))}
      {fs fs' : List Store} (h : Store.Twin taken kept s s') (hrest : Twin taken ks fs fs') :
      Twin taken (kept :: ks) (s :: fs) (s' :: fs')

theorem Frames.Twin.length_eq {ks : List (List (Variable × Value))} {fs fs' : List Store}
    (h : Twin taken ks fs fs') : fs.length = fs'.length := by
  induction h with
  | nil => rfl
  | cons _ _ ih => simp [ih]

/-- Machines that agree on the variables taken and on the world outside. The first one keeps values of
its own. -/
structure Machine.Twin (taken : Variable → Prop) (K : Kept) (m m' : Machine) : Prop where
  globals : Store.Twin taken K.globals m.globals m'.globals
  frames : Frames.Twin taken K.frames m.frames m'.frames
  draws : m.draws = m'.draws
  console : m.console = m'.console

namespace Machine.Twin

variable {K : Kept} {m m' : Machine} {v : Variable} {x : Value}

theorem get?_eq (h : Twin taken K m m') (hv : taken v) : m.get? v = m'.get? v := by
  obtain ⟨kg, ks⟩ := K
  obtain ⟨g, fs, n, d, c⟩ := m
  obtain ⟨g', fs', n', d', c'⟩ := m'
  obtain ⟨hg, hf, -, -⟩ := h
  unfold get?
  cases hf with
  | nil => cases v.kind <;> exact hg.same v hv
  | cons hs _ =>
    cases v.kind with
    | global => exact hg.same v hv
    | «local» | parameter => exact hs.same v hv

theorem get?_kept (h : Twin taken K m m') (hv : (v, x) ∈ K.place v) : m.get? v = some x := by
  obtain ⟨kg, ks⟩ := K
  obtain ⟨g, fs, n, d, c⟩ := m
  obtain ⟨g', fs', n', d', c'⟩ := m'
  obtain ⟨hg, hf, -, -⟩ := h
  unfold Kept.place at hv
  unfold get?
  cases hf with
  | nil => cases hk : v.kind <;> rw [hk] at hv <;> exact (hg.keeps _ hv).2
  | cons hs _ =>
    cases hk : v.kind <;> rw [hk] at hv
    case global => exact (hg.keeps _ hv).2
    all_goals exact (hs.keeps _ hv).2

theorem set (h : Twin taken K m m') (hv : taken v) (x : Value) :
    Twin taken K (m.set v x) (m'.set v x) := by
  obtain ⟨kg, ks⟩ := K
  obtain ⟨g, fs, n, d, c⟩ := m
  obtain ⟨g', fs', n', d', c'⟩ := m'
  obtain ⟨hg, hf, hd, hc⟩ := h
  unfold Machine.set
  cases hf with
  | nil => cases v.kind <;> exact ⟨hg.set hv x, .nil, hd, hc⟩
  | cons hs hrest =>
    cases v.kind with
    | global => exact ⟨hg.set hv x, .cons hs hrest, hd, hc⟩
    | «local» | parameter => exact ⟨hg, .cons (hs.set hv x) hrest, hd, hc⟩

/-- The first machine takes a new variable for a value that it keeps. -/
theorem add (h : Twin taken K m m') (hv : ¬ taken v) (hne : ∀ q ∈ K.place v, q.1 ≠ v) (x : Value) :
    Twin taken (K.add v x) (m.set v x) m' := by
  obtain ⟨kg, ks⟩ := K
  obtain ⟨g, fs, n, d, c⟩ := m
  obtain ⟨g', fs', n', d', c'⟩ := m'
  obtain ⟨hg, hf, hd, hc⟩ := h
  unfold Kept.place at hne
  unfold Machine.set Kept.add
  cases hf with
  | nil => cases hk : v.kind <;> rw [hk] at hne <;> exact ⟨hg.add hv hne x, .nil, hd, hc⟩
  | cons hs hrest =>
    cases hk : v.kind <;> rw [hk] at hne
    case global => exact ⟨hg.add hv hne x, .cons hs hrest, hd, hc⟩
    all_goals exact ⟨hg, .cons (hs.add hv hne x) hrest, hd, hc⟩

theorem of_add (h : Twin taken (K.add v x) m m') : Twin taken K m m' := by
  obtain ⟨kg, ks⟩ := K
  obtain ⟨g, fs, n, d, c⟩ := m
  obtain ⟨g', fs', n', d', c'⟩ := m'
  obtain ⟨hg, hf, hd, hc⟩ := h
  unfold Kept.add at hg hf
  cases ks with
  | nil => cases hk : v.kind <;> rw [hk] at hg hf <;> exact ⟨hg.of_cons, hf, hd, hc⟩
  | cons top rest =>
    cases hk : v.kind <;> rw [hk] at hg hf
    case global => exact ⟨hg.of_cons, hf, hd, hc⟩
    all_goals
      cases hf with
      | cons hs hrest => exact ⟨hg, .cons hs.of_cons hrest, hd, hc⟩

theorem push (h : Twin taken K m m') (frame : Store) :
    Twin taken K.push { m with frames := frame :: m.frames }
      { m' with frames := frame :: m'.frames } :=
  ⟨h.globals, .cons (.refl frame) h.frames, h.draws, h.console⟩

theorem pop (h : Twin taken K.push m m') :
    Twin taken K { m with frames := m.frames.tail } { m' with frames := m'.frames.tail } := by
  obtain ⟨g, fs, n, d, c⟩ := m
  obtain ⟨g', fs', n', d', c'⟩ := m'
  obtain ⟨hg, hf, hd, hc⟩ := h
  unfold Kept.push at hf
  cases hf with
  | cons _ hrest => exact ⟨hg, hrest, hd, hc⟩

end Machine.Twin

namespace Run

variable {U V : Prop} {K : Kept} {α : Type}

abbrev Paired (U V : Prop) (taken : Variable → Prop) (K : Kept) (a b : Run α) : Prop :=
  Accords U V (Machine.Twin taken K) (Machine.Twin taken K) a b

theorem paired_pure (x : α) : Paired U V taken K (pure x) (pure x) := .pure (fun _ _ h ↦ h) x

theorem paired_throw (e : Halt) : Paired U V taken K (throw e : Run α) (throw e) :=
  .throw (fun _ _ h ↦ h) e

theorem Accords.chain {β : Type} {a b : Run α} {f g : α → Run β} (hab : Paired U V taken K a b)
    (hfg : ∀ x, Paired U V taken K (f x) (g x)) : Paired U V taken K (a >>= f) (b >>= g) :=
  .bind hab (fun _ _ h ↦ h) hfg

theorem paired_ofExcept (x : Except Fault α) : Paired U V taken K (ofExcept x) (ofExcept x) :=
  .ofExcept (fun _ _ h ↦ h) x

theorem paired_need (o : Option Value) : Paired U V taken K (need o) (need o) := by
  cases o with
  | none => exact paired_throw (.fault .missingValue)
  | some x => exact paired_pure x

theorem paired_needInt (o : Option Value) : Paired U V taken K (needInt o) (needInt o) :=
  (paired_need o).chain fun _ ↦ paired_ofExcept _

theorem paired_needBool (o : Option Value) : Paired U V taken K (needBool o) (needBool o) :=
  (paired_need o).chain fun _ ↦ paired_ofExcept _

theorem paired_needString (o : Option Value) : Paired U V taken K (needString o) (needString o) :=
  (paired_need o).chain fun _ ↦ paired_ofExcept _

theorem paired_read {v : Variable} (hv : taken v) : Paired U V taken K (read v) (read v) := by
  refine .get_bind ?_
  intro m m' h
  rw [h.get?_eq hv]
  cases m'.get? v with
  | none => exact paired_throw _ m m' h
  | some x => exact paired_pure x m m' h

theorem paired_write {v : Variable} (hv : taken v) (x : Value) :
    Paired U V taken K (write v x) (write v x) := .modify fun _ _ h ↦ h.set hv x

theorem paired_print (line : String) : Paired U V taken K (print line) (print line) :=
  .modify fun _ _ h ↦ ⟨h.globals, h.frames, h.draws, congrArg (·.printLine line) h.console⟩

theorem paired_input : Paired U V taken K input input := by
  intro m m' h
  have hread : m.console.readLine = m'.console.readLine := congrArg Console.readLine h.console
  change Accord U V _ (.ok m.console.readLine.1 { m with console := m.console.readLine.2 })
    (.ok m'.console.readLine.1 { m' with console := m'.console.readLine.2 })
  rw [hread]
  exact .ok _ ⟨h.globals, h.frames, h.draws, rfl⟩

variable (limits : Limits) {invoke invoke' : Invoke}

theorem paired_random (min max : Int32) :
    Paired U V taken K (random limits min max) (random limits min max) := by
  unfold random
  split
  · exact paired_throw _
  · split
    · exact paired_pure _
    · refine .get_bind ?_
      intro m m' h
      rw [h.draws]
      exact .ok _ ⟨h.globals, h.frames, rfl, h.console⟩

theorem paired_checkDepth : Paired U V taken K (checkDepth limits) (checkDepth limits) := by
  unfold checkDepth
  split
  · refine .get_bind ?_
    intro m m' h
    rw [h.frames.length_eq]
    split
    · exact paired_throw _ m m' h
    · exact paired_pure _ m m' h
  · exact paired_pure _

abbrev InvokePaired (U V : Prop) (taken : Variable → Prop) (K : Kept) (invoke invoke' : Invoke) :
    Prop := ∀ f frame, Paired U V taken K (invoke f frame) (invoke' f frame)

theorem paired_binary (o : BinaryOperator) {e e' : Expression}
    (hleft : Paired U V taken K (evaluate limits invoke e) (evaluate limits invoke' e))
    (hright : Paired U V taken K (evaluate limits invoke e') (evaluate limits invoke' e')) :
    Paired U V taken K (evaluate limits invoke (.binary e o e'))
      (evaluate limits invoke' (.binary e o e')) := by
  simp only [evaluate]
  split
  · apply hleft.chain
    intro p
    apply (paired_needBool p).chain
    intro b
    cases b with
    | true => exact hright.chain fun q ↦ (paired_needBool q).chain fun _ ↦ paired_pure _
    | false => exact paired_pure _
  · apply hleft.chain
    intro p
    apply (paired_needBool p).chain
    intro b
    cases b with
    | true => exact paired_pure _
    | false => exact hright.chain fun q ↦ (paired_needBool q).chain fun _ ↦ paired_pure _
  · exact hleft.chain fun p ↦ (paired_need p).chain fun x ↦ hright.chain fun q ↦
      (paired_need q).chain fun y ↦ (paired_ofExcept _).chain fun _ ↦ paired_pure _

theorem paired_bindArguments {es : List Expression}
    (h : ∀ e ∈ es, Paired U V taken K (evaluate limits invoke e) (evaluate limits invoke' e))
    (vs : List Variable) (frame : Store) :
    Paired U V taken K (bindArguments limits invoke frame vs es)
      (bindArguments limits invoke' frame vs es) := by
  induction es generalizing vs frame with
  | nil => cases vs <;> exact paired_pure _
  | cons e es ih =>
    obtain ⟨he, hes⟩ := List.forall_mem_cons.mp h
    cases vs with
    | nil => exact paired_pure _
    | cons v vs => exact he.chain fun p ↦ (paired_need p).chain fun x ↦ ih hes vs _

theorem paired_call (h : InvokePaired U V taken K invoke invoke') (f : Function)
    {es : List Expression}
    (hes : ∀ e ∈ es, Paired U V taken K (evaluate limits invoke e) (evaluate limits invoke' e)) :
    Paired U V taken K (evaluate limits invoke (.call f es))
      (evaluate limits invoke' (.call f es)) := by
  unfold evaluate
  split
  · obtain ⟨he, -⟩ := List.forall_mem_cons.mp hes
    exact he.chain fun p ↦ (paired_needString p).chain fun line ↦
      (paired_print line).chain fun _ ↦ paired_pure _
  · exact paired_input.chain fun _ ↦ paired_pure _
  · obtain ⟨he, hes⟩ := List.forall_mem_cons.mp hes
    obtain ⟨he', -⟩ := List.forall_mem_cons.mp hes
    exact he.chain fun p ↦ (paired_needInt p).chain fun min ↦
      he'.chain fun q ↦ (paired_needInt q).chain fun max ↦
        (paired_random limits min max).chain fun _ ↦ paired_pure _
  · obtain ⟨he, -⟩ := List.forall_mem_cons.mp hes
    exact he.chain fun p ↦ (paired_needInt p).chain fun _ ↦ paired_throw _
  · exact paired_throw _
  · exact (paired_checkDepth limits).chain fun _ ↦
      (paired_bindArguments limits hes f.parameters .empty).chain fun frame ↦ h f frame

mutual

theorem evaluate_twin (h : InvokePaired U V taken K invoke invoke') : (e : Expression) →
    (∀ v ∈ e.vars, taken v) →
      Paired U V taken K (evaluate limits invoke e) (evaluate limits invoke' e)
  | .error, _ => paired_throw _
  | .literal x, _ => paired_pure _
  | .var v, he => (paired_read (he v List.mem_cons_self)).chain fun _ ↦ paired_pure _
  | .assign v e, he => by
    obtain ⟨hv, he⟩ := List.forall_mem_cons.mp he
    exact (evaluate_twin h e he).chain fun p ↦ (paired_need p).chain fun x ↦
      (paired_write hv x).chain fun _ ↦ paired_pure _
  | .unary o e, he =>
    (evaluate_twin h e he).chain fun p ↦ (paired_need p).chain fun x ↦
      (paired_ofExcept _).chain fun _ ↦ paired_pure _
  | .binary e o e', he => by
    obtain ⟨hl, hr⟩ := List.forall_mem_append.mp he
    exact paired_binary limits o (evaluate_twin h e hl) (evaluate_twin h e' hr)
  | .call f es, he => by
    exact paired_call limits h f (arguments_twin h es he)
  | .convert target e, he =>
    (evaluate_twin h e he).chain fun p ↦ (paired_need p).chain fun x ↦
      (paired_ofExcept _).chain fun _ ↦ paired_pure _

theorem arguments_twin (h : InvokePaired U V taken K invoke invoke') : (es : List Expression) →
    (∀ v ∈ Code.varsAll es, taken v) → ∀ e ∈ es,
      Paired U V taken K (evaluate limits invoke e) (evaluate limits invoke' e)
  | [], _ => fun _ he ↦ nomatch he
  | e :: es, hes => by
    obtain ⟨hl, hr⟩ := List.forall_mem_append.mp hes
    exact List.forall_mem_cons.mpr ⟨evaluate_twin h e hl, arguments_twin h es hr⟩

end

end Run

end Twin

end SmallScript
