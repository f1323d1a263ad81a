import SmallScript.Proofs.Run.Trace

namespace SmallScript

open Code (Expression Statement Body)

namespace Code

mutual

theorem Expression.respects_any : (e : Expression) → e.Respects (fun _ ↦ True) fun _ _ ↦ True
  | .error | .literal _ | .var _ => trivial
  | .assign _ e | .unary _ e | .convert _ e => e.respects_any
  | .binary e _ e' => ⟨e.respects_any, e'.respects_any⟩
  | .call _ es => ⟨trivial, allRespect_any es⟩

theorem allRespect_any : (es : List Expression) → AllRespect (fun _ ↦ True) (fun _ _ ↦ True) es
  | [] => trivial
  | e :: es => ⟨e.respects_any, allRespect_any es⟩

end

end Code

/-- A limit of `k`, where one is given, allows no more than the limit `k'`. -/
def AtMost (k k' : Option Nat) : Prop := ∀ n' ∈ k', ∃ n ∈ k, n ≤ n'

/-- Limits that allow no more than others do, with the same random numbers. -/
structure Limits.Within (l l' : Limits) : Prop where
  steps : AtMost l.steps l'.steps
  depth : AtMost l.depth l'.depth
  stream : l.stream = l'.stream

def Halt.IsLimit : Halt → Prop
  | .fault (.stepLimitExceeded _) | .fault (.callDepthExceeded _) => True
  | _ => False

namespace Run

variable {α β : Type}

/-- All that a machine has printed. -/
abbrev printed (m : Machine) : List String := m.console.output.toList

/-- Results that are the same, unless the first one has a reason to stop with `C` and the second one
prints on. -/
inductive ShortOf (C : Halt → Prop) :
    EStateM.Result Halt Machine α → EStateM.Result Halt Machine α → Prop
  | same (r : EStateM.Result Halt Machine α) : ShortOf C r r
  | cut {e : Halt} (he : C e) {m : Machine} {r : EStateM.Result Halt Machine α}
      (h : printed m <+: printed (final r)) : ShortOf C (.error e m) r

/-- The first action is the second one, cut short for reasons with `C`. Nothing printed is taken back. -/
structure Cuts (C : Halt → Prop) (x y : Run α) : Prop where
  short : ∀ m, ShortOf C (x m) (y m)
  grows : ∀ m, printed m <+: printed (final (y m))

variable {C : Halt → Prop}

namespace Cuts

theorem of_eq {x : Run α} (h : ∀ m, printed m <+: printed (final (x m))) : Cuts C x x :=
  ⟨fun _ ↦ .same _, h⟩

theorem prefix_of_eq {m m' : Machine} (h : m'.console.output = m.console.output) :
    printed m <+: printed m' := by
  unfold printed
  exact h ▸ List.prefix_rfl

theorem pure (a : α) : Cuts C (pure a) (pure a) := of_eq fun _ ↦ List.prefix_rfl

theorem throw (e : Halt) : Cuts C (throw e : Run α) (throw e) := of_eq fun _ ↦ List.prefix_rfl

theorem unfinished (hC : C .unfinished) {x y : Run α} (h : Cuts C x y) :
    Cuts C (MonadExcept.throw Halt.unfinished) y := ⟨fun m ↦ .cut hC (h.grows m), h.grows⟩

theorem ofExcept (x : Except Fault α) : Cuts C (ofExcept x) (ofExcept x) := by
  cases x with
  | ok a => exact pure a
  | error f => exact throw (.fault f)

theorem bind {x y : Run α} {f g : α → Run β} (h : Cuts C x y) (hfg : ∀ a, Cuts C (f a) (g a)) :
    Cuts C (x >>= f) (y >>= g) := by
  have hgrow (m : Machine) : printed (final (y m)) <+: printed (final ((y >>= g) m)) := by
    change _ <+: printed (final (EStateM.bind y g m))
    unfold EStateM.bind
    cases y m with
    | ok a m' => exact (hfg a).grows m'
    | error e m' => exact List.prefix_rfl
  refine ⟨fun m ↦ ?_, fun m ↦ (h.grows m).trans (hgrow m)⟩
  have hm := h.short m
  have hout := hgrow m
  change ShortOf C (EStateM.bind x f m) (EStateM.bind y g m)
  change _ <+: printed (final (EStateM.bind y g m)) at hout
  generalize hr : EStateM.bind y g m = r at hout ⊢
  unfold EStateM.bind at hr ⊢
  generalize x m = q, y m = q' at hm hr hout
  cases hm with
  | same =>
    subst hr
    cases q with
    | ok a m' => exact (hfg a).short m'
    | error e m' => exact .same _
  | cut he hshort => exact .cut he (hshort.trans hout)

theorem need (o : Option Value) : Cuts C (need o) (need o) := by
  cases o with
  | none => exact throw (.fault .missingValue)
  | some x => exact pure x

theorem needInt (o : Option Value) : Cuts C (needInt o) (needInt o) :=
  (need o).bind fun _ ↦ ofExcept _

theorem needBool (o : Option Value) : Cuts C (needBool o) (needBool o) :=
  (need o).bind fun _ ↦ ofExcept _

theorem needString (o : Option Value) : Cuts C (needString o) (needString o) :=
  (need o).bind fun _ ↦ ofExcept _

theorem read (v : Variable) : Cuts C (read v) (read v) := by
  refine of_eq fun m ↦ ?_
  rw [read_eq]
  cases m.get? v <;> exact List.prefix_rfl

theorem write (v : Variable) (x : Value) : Cuts C (write v x) (write v x) := by
  have hset (m : Machine) : (m.set v x).console = m.console := by
    unfold Machine.set
    split <;> rfl
  exact of_eq fun m ↦ prefix_of_eq (congrArg Console.output (hset m))

theorem print (line : String) : Cuts C (print line) (print line) := by
  refine of_eq fun m ↦ ?_
  change m.console.output.toList <+: (m.console.output.push line).toList
  simp

theorem input : Cuts C input input := by
  have hsame (c : Console) : c.readLine.2.output = c.output := by
    unfold Console.readLine
    split <;> rfl
  exact of_eq fun m ↦ prefix_of_eq (hsame m.console)

theorem random {l l' : Limits} (h : l.stream = l'.stream) (min max : Int32) :
    Cuts C (random l min max) (random l' min max) := by
  unfold Run.random
  split
  · exact throw _
  · split
    · exact pure _
    · rw [h]
      exact of_eq fun _ ↦ List.prefix_rfl

end Cuts

section Evaluate

variable {limits limits' : Limits} {invoke invoke' : Invoke}

structure CutsCalls (C : Halt → Prop) (limits limits' : Limits) (invoke invoke' : Invoke) : Prop where
  depth : Cuts C (checkDepth limits) (checkDepth limits')
  stream : limits.stream = limits'.stream
  invoke : ∀ f frame, Cuts C (invoke f frame) (invoke' f frame)

theorem cuts_binary (o : BinaryOperator) {e e' : Expression}
    (hleft : Cuts C (evaluate limits invoke e) (evaluate limits' invoke' e))
    (hright : Cuts C (evaluate limits invoke e') (evaluate limits' invoke' e')) :
    Cuts C (evaluate limits invoke (.binary e o e')) (evaluate limits' invoke' (.binary e o e')) := by
  simp only [evaluate]
  split
  · refine hleft.bind fun x ↦ (Cuts.needBool x).bind fun b ↦ ?_
    cases b with
    | true => exact hright.bind fun y ↦ (Cuts.needBool y).bind fun _ ↦ .pure _
    | false => exact .pure _
  · refine hleft.bind fun x ↦ (Cuts.needBool x).bind fun b ↦ ?_
    cases b with
    | true => exact .pure _
    | false => exact hright.bind fun y ↦ (Cuts.needBool y).bind fun _ ↦ .pure _
  · exact hleft.bind fun x ↦ (Cuts.need x).bind fun _ ↦ hright.bind fun y ↦ (Cuts.need y).bind fun _ ↦
      (Cuts.ofExcept _).bind fun _ ↦ .pure _

theorem cuts_arguments {es : List Expression}
    (h : ∀ e ∈ es, Cuts C (evaluate limits invoke e) (evaluate limits' invoke' e))
    (vs : List Variable) (frame : Store) :
    Cuts C (bindArguments limits invoke frame vs es) (bindArguments limits' invoke' frame vs es) := by
  induction es generalizing vs frame with
  | nil => cases vs <;> exact .pure _
  | cons e es ih =>
    obtain ⟨he, hes⟩ := List.forall_mem_cons.mp h
    cases vs with
    | nil => exact .pure _
    | cons v vs => exact he.bind fun o ↦ (Cuts.need o).bind fun x ↦ ih hes vs _

theorem cuts_call (h : CutsCalls C limits limits' invoke invoke') (f : Function) {es : List Expression}
    (hes : ∀ e ∈ es, Cuts C (evaluate limits invoke e) (evaluate limits' invoke' e)) :
    Cuts C (evaluate limits invoke (.call f es)) (evaluate limits' invoke' (.call f es)) := by
  unfold evaluate
  split
  · exact (hes _ List.mem_cons_self).bind fun x ↦ (Cuts.needString x).bind fun line ↦
      (Cuts.print line).bind fun _ ↦ .pure _
  · exact Cuts.input.bind fun _ ↦ .pure _
  · obtain ⟨he, hes⟩ := List.forall_mem_cons.mp hes
    exact he.bind fun x ↦ (Cuts.needInt x).bind fun min ↦ (hes _ List.mem_cons_self).bind fun y ↦
      (Cuts.needInt y).bind fun max ↦ (Cuts.random h.stream min max).bind fun _ ↦ .pure _
  · exact (hes _ List.mem_cons_self).bind fun x ↦ (Cuts.needInt x).bind fun _ ↦ .throw _
  · exact .throw _
  · exact h.depth.bind fun _ ↦ (cuts_arguments hes f.parameters .empty).bind fun frame ↦
      h.invoke f frame

mutual

theorem evaluate_cuts (h : CutsCalls C limits limits' invoke invoke') : (e : Expression) →
    Cuts C (evaluate limits invoke e) (evaluate limits' invoke' e)
  | .error => .throw _
  | .literal _ => .pure _
  | .var v => (Cuts.read v).bind fun _ ↦ .pure _
  | .assign v e => (evaluate_cuts h e).bind fun o ↦ (Cuts.need o).bind fun x ↦
      (Cuts.write v x).bind fun _ ↦ .pure _
  | .unary _ e | .convert _ e => (evaluate_cuts h e).bind fun o ↦ (Cuts.need o).bind fun _ ↦
      (Cuts.ofExcept _).bind fun _ ↦ .pure _
  | .binary e o e' => cuts_binary o (evaluate_cuts h e) (evaluate_cuts h e')
  | .call f es => cuts_call h f (evaluate_cuts_all h es)

theorem evaluate_cuts_all (h : CutsCalls C limits limits' invoke invoke') : (es : List Expression) →
    ∀ e ∈ es, Cuts C (evaluate limits invoke e) (evaluate limits' invoke' e)
  | [] => nofun
  | e :: es => List.forall_mem_cons.mpr ⟨evaluate_cuts h e, evaluate_cuts_all h es⟩

end

theorem target_cuts (b : Body) (l : Label) : Cuts C (target b l) (target b l) := by
  rw [target_eq]
  cases place? b l with
  | none => exact .throw _
  | some i => exact .pure i

theorem step_cuts (h : CutsCalls C limits limits' invoke invoke') (b : Body) (i : Nat)
    (last : Option Value) (s : Statement) :
    Cuts C (step limits invoke b i last s) (step limits' invoke' b i last s) := by
  cases s with
  | declare v e => exact (evaluate_cuts h e).bind fun o ↦ (Cuts.need o).bind fun x ↦
      (Cuts.write v x).bind fun _ ↦ .pure _
  | expression e => exact (evaluate_cuts h e).bind fun _ ↦ .pure _
  | label l => exact .pure _
  | goto l => exact (target_cuts b l).bind fun _ ↦ .pure _
  | gotoIf l e negated =>
    refine (evaluate_cuts h e).bind fun o ↦ (Cuts.needBool o).bind fun t ↦ ?_
    split
    · exact .pure _
    · exact (target_cuts b l).bind fun _ ↦ .pure _
  | leave e =>
    cases e with
    | none => exact .pure _
    | some e => exact (evaluate_cuts h e).bind fun _ ↦ .pure _
  | block | ifThen | ifElse | whileLoop | doLoop | forLoop => exact .throw _

theorem body_cuts (h : CutsCalls C limits limits' invoke invoke')
    (htick : Cuts C (tick limits) (tick limits')) (hC : C .unfinished) (b : Body) {n n' : Nat}
    (hn : n ≤ n') (i : Nat) (last : Option Value) :
    Cuts C (body limits invoke b n i last) (body limits' invoke' b n' i last) := by
  induction n' generalizing n i last with
  | zero =>
    obtain rfl := Nat.le_zero.mp hn
    exact .throw _
  | succ n' ih =>
    have hsucc (k : Nat) (hk : k ≤ n') :
        Cuts C (body limits invoke b (k + 1) i last) (body limits' invoke' b (n' + 1) i last) := by
      unfold body
      cases b[i]? with
      | none => exact .pure last
      | some s =>
        refine htick.bind fun _ ↦ (step_cuts h b (i + 1) last s).bind fun next ↦ ?_
        cases next with
        | «at» j last => exact ih hk j last
        | done result => exact .pure result
    cases n with
    | zero => exact .unfinished hC (hsucc n' (Nat.le_refl n'))
    | succ k => exact hsucc k (Nat.le_of_succ_le_succ hn)

theorem cuts_frame {x y : Run α} (h : Cuts C x y) (frame : Store) :
    Cuts C (withFrame frame x) (withFrame frame y) := by
  have hfinal (m : Machine) : printed (final (withFrame frame y m)) =
      printed (final (y { m with frames := frame :: m.frames })) := by
    unfold withFrame
    cases y { m with frames := frame :: m.frames } <;> rfl
  refine ⟨fun m ↦ ?_, fun m ↦ ?_⟩
  · have hm := h.short { m with frames := frame :: m.frames }
    have hout := hfinal m
    generalize hr : withFrame frame y m = r at hout ⊢
    unfold withFrame at hr ⊢
    generalize x { m with frames := frame :: m.frames } = q,
      y { m with frames := frame :: m.frames } = q' at hm hr hout
    cases hm with
    | same =>
      subst hr
      exact .same _
    | cut he hshort => exact .cut he (hout ▸ hshort)
  · rw [hfinal]
    exact h.grows { m with frames := frame :: m.frames }

end Evaluate

section Program

variable (p : Program) {limits limits' : Limits}

theorem call_cuts (hdepth : Cuts C (checkDepth limits) (checkDepth limits'))
    (hstream : limits.stream = limits'.stream) (htick : Cuts C (tick limits) (tick limits'))
    (hC : C .unfinished) {n n' : Nat} (hn : n ≤ n') (f : Function) (frame : Store) :
    Cuts C (call p limits n f frame) (call p limits' n' f frame) := by
  induction n' generalizing n f frame with
  | zero =>
    obtain rfl := Nat.le_zero.mp hn
    exact .throw _
  | succ n' ih =>
    have hsucc (k : Nat) (hk : k ≤ n') :
        Cuts C (call p limits (k + 1) f frame) (call p limits' (n' + 1) f frame) := by
      unfold call
      cases p.body? f with
      | none => exact .throw _
      | some b =>
        have hbody := body_cuts ⟨hdepth, hstream, ih hk⟩ htick hC b hk 0 none
        exact (cuts_frame hbody frame).bind fun _ ↦ .pure _
    cases n with
    | zero => exact .unfinished hC (hsucc n' (Nat.le_refl n'))
    | succ k => exact hsucc k (Nat.le_of_succ_le_succ hn)

/-- Of two runs, the one with the lower limits and the lower bound is the other one, cut short. -/
theorem program_cuts (hdepth : Cuts C (checkDepth limits) (checkDepth limits'))
    (hstream : limits.stream = limits'.stream) (htick : Cuts C (tick limits) (tick limits'))
    (hC : C .unfinished) {n n' : Nat} (hn : n ≤ n') : Cuts C (p.run limits n) (p.run limits' n') :=
  body_cuts ⟨hdepth, hstream, call_cuts p hdepth hstream htick hC hn⟩ htick hC p.main hn 0 none

end Program

theorem final_allow (limit : Option Nat) (count : Nat) (fault : Nat → Fault) (m : Machine) :
    final (allow limit count fault m) = m := by
  cases limit with
  | none => rfl
  | some k =>
    unfold allow
    dsimp only
    split <;> rfl

theorem shortOf_allow {k k' : Option Nat} (h : AtMost k k') {fault : Nat → Fault}
    (hC : ∀ n, C (.fault (fault n))) (count : Nat) (m : Machine) :
    ShortOf C (allow k count fault m) (allow k' count fault m) := by
  cases k with
  | none =>
    cases k' with
    | none => exact .same _
    | some n' =>
      obtain ⟨n, hn, -⟩ := h n' rfl
      nomatch hn
  | some n =>
    by_cases hle : n ≤ count
    · have hstop : allow (some n) count fault m = .error (.fault (fault n)) m := if_pos hle
      rw [hstop]
      exact .cut (hC n) (Cuts.prefix_of_eq (by rw [final_allow]))
    · have hpass : allow k' count fault m = .ok () m := by
        cases k' with
        | none => rfl
        | some n' =>
          obtain ⟨_, ⟨⟩, hle'⟩ := h n' rfl
          exact if_neg (by omega)
      have hpass' : allow (some n) count fault m = .ok () m := if_neg hle
      rw [hpass, hpass']
      exact .same _

theorem grows_tick (limits : Limits) (m : Machine) :
    printed m <+: printed (final (tick limits m)) :=
  Cuts.prefix_of_eq (by rw [tick_eq, final_allow])

theorem grows_checkDepth (limits : Limits) (m : Machine) :
    printed m <+: printed (final (checkDepth limits m)) :=
  Cuts.prefix_of_eq (by rw [checkDepth_eq, final_allow])

theorem cuts_tick {l l' : Limits} (h : AtMost l.steps l'.steps)
    (hC : ∀ n, C (.fault (.stepLimitExceeded n))) : Cuts C (tick l) (tick l') := by
  refine ⟨fun m ↦ ?_, grows_tick l'⟩
  rw [tick_eq, tick_eq]
  exact shortOf_allow h hC _ _

theorem cuts_checkDepth {l l' : Limits} (h : AtMost l.depth l'.depth)
    (hC : ∀ n, C (.fault (.callDepthExceeded n))) : Cuts C (checkDepth l) (checkDepth l') := by
  refine ⟨fun m ↦ ?_, grows_checkDepth l'⟩
  rw [checkDepth_eq, checkDepth_eq]
  exact shortOf_allow h hC _ _

end Run

end SmallScript
