import Mathlib.Data.List.Forall2
import SmallScript.Proofs.Code.Renumber
import SmallScript.Proofs.Flow.Closed
import SmallScript.Proofs.Run.Match

namespace SmallScript

open Code (Expression Statement Body translateAll translateArguments AllOf)

/-- The same values in the same order, for variables under other numbers. -/
def Store.renumbered (φ : Renumbering) (s : Store) : Store := ⟨s.entries.map (Prod.map φ.var id)⟩

def Store.Renumbered (φ : Renumbering) (s s' : Store) : Prop := ∀ v, s'.get? (φ.var v) = s.get? v

/-- Machines that are the same while `k` calls are active, but for the numbers of variables. -/
structure Machine.Renumbered (φ : Renumbering) (k : Nat) (m m' : Machine) : Prop where
  globals : m'.globals = m.globals.renumbered φ
  kinds : ∀ e ∈ m.globals.entries, e.1.kind = .global
  frames : List.Forall₂ (Store.Renumbered φ) m.frames m'.frames
  depth : m.frames.length = k
  draws : m'.draws = m.draws
  console : m'.console = m.console

def Variable.InReach (k : Nat) (v : Variable) : Prop := v.kind = .global ∨ 0 < k

variable {φ : Renumbering} {k : Nat} {m m' : Machine}

namespace Store

theorem get?_renumbered (s : Store) (v : Variable) : (s.renumbered φ).get? (φ.var v) = s.get? v := by
  obtain ⟨entries⟩ := s
  induction entries with
  | nil => rfl
  | cons e rest ih =>
    have hrest : getEntry? (φ.var v) (rest.map (Prod.map φ.var id)) = getEntry? v rest := ih
    have hkey : φ.var v = φ.var e.1 ↔ v = e.1 := ⟨φ.var_injective, congrArg φ.var⟩
    simp only [get?, renumbered, List.map_cons, getEntry?, Prod.map, hrest, if_congr hkey rfl rfl, id]

theorem renumbered_set (s : Store) (v : Variable) (x : Value) :
    (s.set v x).renumbered φ = (s.renumbered φ).set (φ.var v) x := by
  obtain ⟨entries⟩ := s
  refine congrArg Store.mk ?_
  change (setEntry v x entries).map (Prod.map φ.var id) = setEntry (φ.var v) x (entries.map (Prod.map φ.var id))
  induction entries with
  | nil => rfl
  | cons e rest ih =>
    have hkey : φ.var v = φ.var e.1 ↔ v = e.1 := ⟨φ.var_injective, congrArg φ.var⟩
    by_cases hv : v = e.1
    · simp [setEntry, Prod.map, hv]
    · simp [setEntry, Prod.map, hkey, hv, ih]

theorem fst_of_mem_set {s : Store} {v : Variable} {x : Value} {e : Variable × Value} (he : e ∈ (s.set v x).entries) :
    e ∈ s.entries ∨ e.1 = v := by
  obtain ⟨entries⟩ := s
  replace he : e ∈ setEntry v x entries := he
  induction entries with
  | nil => exact .inr (List.mem_singleton.mp he ▸ rfl)
  | cons first rest ih =>
    by_cases hv : v = first.1
    · rw [setEntry, if_pos hv] at he
      rcases List.mem_cons.mp he with rfl | he
      · exact .inr rfl
      · exact .inl (List.mem_cons_of_mem _ he)
    · rw [setEntry, if_neg hv] at he
      rcases List.mem_cons.mp he with rfl | he
      · exact .inl List.mem_cons_self
      · exact (ih he).imp_left (List.mem_cons_of_mem _)

end Store

theorem Store.Renumbered.empty : Store.Renumbered φ .empty .empty := fun _ ↦ rfl

theorem Store.Renumbered.set {s s' : Store} (h : s.Renumbered φ s') (v : Variable) (x : Value) :
    (s.set v x).Renumbered φ (s'.set (φ.var v) x) := by
  intro w
  rw [get?_set, get?_set, h w]
  by_cases hw : w = v
  · rw [if_pos hw, if_pos (congrArg φ.var hw)]
  · rw [if_neg hw, if_neg fun heq ↦ hw (φ.var_injective heq)]

namespace Machine

section Kinds

variable {v : Variable} {frame : Store} {rest : List Store}

theorem get?_global (hv : v.kind = .global) : m.get? v = m.globals.get? v := by
  unfold get?
  rw [hv]

theorem get?_local (hv : v.kind ≠ .global) (hm : m.frames = frame :: rest) : m.get? v = frame.get? v := by
  unfold get?
  rw [hm]
  cases hk : v.kind with
  | global => exact absurd hk hv
  | _ => rfl

theorem set_global (hv : v.kind = .global) (x : Value) : m.set v x = { m with globals := m.globals.set v x } := by
  unfold set
  rw [hv]

theorem set_local (hv : v.kind ≠ .global) (hm : m.frames = frame :: rest) (x : Value) :
    m.set v x = { m with frames := frame.set v x :: rest } := by
  unfold set
  rw [hm]
  cases hk : v.kind with
  | global => exact absurd hk hv
  | _ => rfl

end Kinds

namespace Renumbered

theorem length (h : m.Renumbered φ k m') : m'.frames.length = m.frames.length :=
  (List.Forall₂.length_eq h.frames).symm

theorem frame (h : m.Renumbered φ k m') (hk : 0 < k) : ∃ frame rest frame' rest',
    m.frames = frame :: rest ∧ m'.frames = frame' :: rest' ∧ frame.Renumbered φ frame' ∧
      List.Forall₂ (Store.Renumbered φ) rest rest' := by
  have hframes := h.frames
  have hdepth := h.depth
  cases hm : m.frames with
  | nil =>
    rw [hm] at hdepth
    exact absurd hk (hdepth ▸ Nat.lt_irrefl 0)
  | cons frame rest =>
    rw [hm] at hframes
    obtain ⟨frame', rest', hframe, hrest, hm'⟩ := List.forall₂_cons_left_iff.mp hframes
    exact ⟨frame, rest, frame', rest', rfl, hm', hframe, hrest⟩

theorem get?_eq (h : m.Renumbered φ k m') {v : Variable} (hv : v.InReach k) : m'.get? (φ.var v) = m.get? v := by
  have hkind : (φ.var v).kind = v.kind := rfl
  by_cases hglobal : v.kind = .global
  · rw [get?_global hglobal, get?_global (hkind.trans hglobal), h.globals, Store.get?_renumbered]
  · obtain ⟨frame, rest, frame', rest', hm, hm', hframe, -⟩ := h.frame (hv.resolve_left hglobal)
    rw [get?_local hglobal hm, get?_local (hkind ▸ hglobal) hm', hframe v]

theorem set (h : m.Renumbered φ k m') {v : Variable} (hv : v.InReach k) (x : Value) :
    (m.set v x).Renumbered φ k (m'.set (φ.var v) x) := by
  have hkind : (φ.var v).kind = v.kind := rfl
  by_cases hglobal : v.kind = .global
  · rw [set_global hglobal, set_global (hkind.trans hglobal)]
    refine ⟨?_, fun e he ↦ ?_, h.frames, h.depth, h.draws, h.console⟩
    · rw [Store.renumbered_set, h.globals]
    · rcases Store.fst_of_mem_set he with he | he
      · exact h.kinds e he
      · rw [he, hglobal]
  · obtain ⟨frame, rest, frame', rest', hm, hm', hframe, hrest⟩ := h.frame (hv.resolve_left hglobal)
    have hdepth : (frame :: rest).length = k := hm ▸ h.depth
    rw [set_local hglobal hm, set_local (hkind ▸ hglobal) hm']
    exact ⟨h.globals, h.kinds, .cons (hframe.set v x) hrest, hdepth, h.draws, h.console⟩

theorem talk (h : m.Renumbered φ k m') (f : Console → Console) :
    { m with console := f m.console }.Renumbered φ k { m' with console := f m'.console } :=
  ⟨h.globals, h.kinds, h.frames, h.depth, h.draws, congrArg f h.console⟩

end Renumbered

end Machine

namespace Run

variable {U V : Prop} {limits : Limits} {invoke invoke' : Invoke}

theorem matches_read {v : Variable} (hv : v.InReach k) :
    Matches U V (Machine.Renumbered φ k) Eq (read v) (read (φ.var v)) := by
  intro m m' hm
  rw [read_eq, read_eq, hm.get?_eq hv]
  cases m.get? v with
  | some x => exact .ok ⟨x, m', rfl, hm, rfl⟩
  | none => exact .error _ hm

theorem matches_write {v : Variable} (hv : v.InReach k) (x : Value) :
    Matches U V (Machine.Renumbered φ k) Eq (write v x) (write (φ.var v) x) :=
  fun _ _ hm ↦ .ok ⟨(), _, rfl, hm.set hv x, rfl⟩

theorem matches_print (line : String) : Matches U V (Machine.Renumbered φ k) Eq (print line) (print line) :=
  fun _ _ hm ↦ .ok ⟨(), _, rfl, hm.talk (·.printLine line), rfl⟩

theorem matches_input : Matches U V (Machine.Renumbered φ k) Eq input input := by
  have hinput (m : Machine) :
      input m = .ok m.console.readLine.1 { m with console := m.console.readLine.2 } := rfl
  intro m m' hm
  rw [hinput, hinput]
  exact .ok ⟨_, _, rfl, hm.talk (·.readLine.2), by rw [hm.console]⟩

theorem matches_random (min max : Int32) :
    Matches U V (Machine.Renumbered φ k) Eq (random limits min max) (random limits min max) := by
  unfold random
  split
  · exact Tracks.throw _
  · split
    · exact .pure rfl
    · intro m m' hm
      refine .ok ⟨_, { m' with draws := m'.draws + 1 }, rfl, ?_, ?_⟩
      · exact ⟨hm.globals, hm.kinds, hm.frames, hm.depth, congrArg (· + 1) hm.draws, hm.console⟩
      · rw [hm.draws]

theorem matches_checkDepth :
    Matches U V (Machine.Renumbered φ k) Eq (checkDepth limits) (checkDepth limits) := by
  intro m m' hm
  rw [checkDepth_eq, checkDepth_eq, hm.length]
  unfold allow
  split
  · split
    · exact .error _ hm
    · exact .ok ⟨(), m', rfl, hm, rfl⟩
  · exact .ok ⟨(), m', rfl, hm, rfl⟩

theorem matches_tick (hsteps : limits.steps = none) :
    Matches U V (Machine.Renumbered φ k) Eq (tick limits) (tick limits) := by
  intro m m' hm
  rw [tick_eq, tick_eq, hsteps]
  exact .ok ⟨(), _, rfl, ⟨hm.globals, hm.kinds, hm.frames, hm.depth, hm.draws, hm.console⟩, rfl⟩

def Recalls (U V : Prop) (φ : Renumbering) (k : Nat) (invoke invoke' : Invoke) : Prop :=
  ∀ f frame frame', frame.Renumbered φ frame' →
    Matches U V (Machine.Renumbered φ k) Eq (invoke f frame) (invoke' (φ.func f) frame')

abbrev Reaches (k : Nat) : Expression → Prop := Expression.Uses True (Variable.InReach k) fun _ ↦ True

section Evaluate

variable {x : Offsets}

theorem matches_binary (o : BinaryOperator) {e e' c c' : Expression}
    (hleft : Matches U V (Machine.Renumbered φ k) Eq (evaluate limits invoke e) (evaluate limits invoke' c))
    (hright : Matches U V (Machine.Renumbered φ k) Eq (evaluate limits invoke e') (evaluate limits invoke' c')) :
    Matches U V (Machine.Renumbered φ k) Eq (evaluate limits invoke (.binary e o e'))
      (evaluate limits invoke' (.binary c o c')) := by
  simp only [evaluate]
  split
  · refine hleft.before fun o ↦ (Matches.needBool o).before fun b ↦ ?_
    cases b with
    | true => exact hright.before fun o ↦ (Matches.needBool o).before fun _ ↦ .pure rfl
    | false => exact .pure rfl
  · refine hleft.before fun o ↦ (Matches.needBool o).before fun b ↦ ?_
    cases b with
    | true => exact .pure rfl
    | false => exact hright.before fun o ↦ (Matches.needBool o).before fun _ ↦ .pure rfl
  · exact hleft.before fun o ↦ (Matches.need o).before fun _ ↦ hright.before fun o ↦ (Matches.need o).before fun _ ↦
      (Matches.ofExcept _).before fun _ ↦ .pure rfl

theorem matches_arguments {es : List Expression}
    (h : ∀ e ∈ es, Matches U V (Machine.Renumbered φ k) Eq (evaluate limits invoke e)
      (evaluate limits invoke' (e.translate (φ.translation x))))
    (vs : List Variable) {frame frame' : Store} (hframe : frame.Renumbered φ frame') :
    Matches U V (Machine.Renumbered φ k) (Store.Renumbered φ) (bindArguments limits invoke frame vs es)
      (bindArguments limits invoke' frame' (vs.map φ.var) (translateArguments (φ.translation x) es)) := by
  induction es generalizing vs frame frame' with
  | nil => cases vs <;> exact .pure hframe
  | cons e es ih =>
    obtain ⟨he, hes⟩ := List.forall_mem_cons.mp h
    cases vs with
    | nil => exact .pure hframe
    | cons v vs => exact he.before fun o ↦ (Matches.need o).before fun y ↦ ih hes vs (hframe.set v y)

theorem matches_call (hcalls : Recalls U V φ k invoke invoke') (f : Function) {es : List Expression}
    (hes : ∀ e ∈ es, Matches U V (Machine.Renumbered φ k) Eq (evaluate limits invoke e)
      (evaluate limits invoke' (e.translate (φ.translation x)))) :
    Matches U V (Machine.Renumbered φ k) Eq (evaluate limits invoke (.call f es))
      (evaluate limits invoke' (.call (φ.func f) (translateArguments (φ.translation x) es))) := by
  have horigin : (φ.func f).origin = φ.origin f.origin := rfl
  unfold evaluate
  rw [horigin]
  rcases f.origin with (_ | _ | _) | id
  · cases es with
    | nil => exact Tracks.throw _
    | cons e es =>
      exact (hes e List.mem_cons_self).before fun o ↦ (Matches.needString o).before fun line ↦
        (matches_print line).before fun _ ↦ .pure rfl
  · exact matches_input.before fun _ ↦ .pure rfl
  · rcases es with _ | ⟨e, _ | ⟨e', es⟩⟩
    · exact Tracks.throw _
    · exact (hes e List.mem_cons_self).before fun o ↦ (Matches.needInt o).before fun _ ↦ Tracks.throw _
    · obtain ⟨he, hes⟩ := List.forall_mem_cons.mp hes
      exact he.before fun o ↦ (Matches.needInt o).before fun min ↦ (hes e' List.mem_cons_self).before fun o ↦
        (Matches.needInt o).before fun max ↦ (matches_random min max).before fun _ ↦ .pure rfl
  · exact matches_checkDepth.before fun _ ↦ (matches_arguments hes f.parameters .empty).bind fun _ _ hframe ↦
      hcalls f _ _ hframe

variable (x)

mutual

theorem evaluate_renumber (hcalls : Recalls U V φ k invoke invoke') : (e : Expression) → Reaches k e →
    Matches U V (Machine.Renumbered φ k) Eq (evaluate limits invoke e)
      (evaluate limits invoke' (e.translate (φ.translation x)))
  | .error, _ => Tracks.throw _
  | .literal _, _ => .pure rfl
  | .var _, hv => (matches_read hv).before fun _ ↦ .pure rfl
  | .assign _ e, ⟨hv, he⟩ => (evaluate_renumber hcalls e he).before fun o ↦ (Matches.need o).before fun y ↦
      (matches_write hv y).before fun _ ↦ .pure rfl
  | .unary _ e, he | .convert _ e, he => (evaluate_renumber hcalls e he).before fun o ↦ (Matches.need o).before fun _ ↦
      (Matches.ofExcept _).before fun _ ↦ .pure rfl
  | .binary e o e', ⟨he, he'⟩ => matches_binary o (evaluate_renumber hcalls e he) (evaluate_renumber hcalls e' he')
  | .call f es, ⟨_, hes⟩ => matches_call hcalls f (all_renumber hcalls es hes)

theorem all_renumber (hcalls : Recalls U V φ k invoke invoke') : (es : List Expression) →
    Code.AllUse True (Variable.InReach k) (fun _ ↦ True) es → ∀ e ∈ es,
      Matches U V (Machine.Renumbered φ k) Eq (evaluate limits invoke e)
        (evaluate limits invoke' (e.translate (φ.translation x)))
  | [], _ => List.forall_mem_nil _
  | e :: es, ⟨he, hes⟩ => List.forall_mem_cons.mpr ⟨evaluate_renumber hcalls e he, all_renumber hcalls es hes⟩

end

end Evaluate

end Run

end SmallScript
