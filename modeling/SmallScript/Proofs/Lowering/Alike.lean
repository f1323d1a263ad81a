import Mathlib.Algebra.GroupWithZero.Nat
import Mathlib.Algebra.Order.BigOperators.Group.List
import Mathlib.Algebra.Order.Group.Nat
import Mathlib.Data.List.Forall2
import SmallScript.Proofs.Lowering.Simulation

namespace SmallScript

open Code (Statement Body flattenBody nodesAll)
open Run (Invoke Accord Accords Paired InvokePaired)

section Same

def Store.Same (taken : Variable → Prop) (s s' : Store) : Prop := ∀ v, taken v → s.get? v = s'.get? v

/-- Machines that agree on some variables, and on the world outside. -/
structure Machine.Same (taken : Variable → Prop) (m m' : Machine) : Prop where
  globals : Store.Same taken m.globals m'.globals
  frames : List.Forall₂ (Store.Same taken) m.frames m'.frames
  draws : m.draws = m'.draws
  console : m.console = m'.console

variable {taken : Variable → Prop}

theorem Store.Same.symm {s s' : Store} (h : Store.Same taken s s') : Store.Same taken s' s :=
  fun v hv ↦ (h v hv).symm

theorem Store.Same.trans {s s' s'' : Store} (h : Store.Same taken s s') (h' : Store.Same taken s' s'') :
    Store.Same taken s s'' := fun v hv ↦ (h v hv).trans (h' v hv)

theorem Frames.Twin.same {ks : List (List (Variable × Value))} {fs fs' : List Store}
    (h : Frames.Twin taken ks fs fs') : List.Forall₂ (Store.Same taken) fs fs' := by
  induction h with
  | nil => exact .nil
  | cons hs _ ih => exact .cons hs.same ih

theorem Frames.Twin.of_same {fs fs' : List Store} (h : List.Forall₂ (Store.Same taken) fs fs') :
    Frames.Twin taken (fs.map fun _ ↦ []) fs fs' := by
  induction h with
  | nil => exact .nil
  | cons hs _ ih => exact .cons ⟨hs, fun _ hq ↦ nomatch hq⟩ ih

theorem Frames.same_trans {fs fs' fs'' : List Store} (h : List.Forall₂ (Store.Same taken) fs fs')
    (h' : List.Forall₂ (Store.Same taken) fs' fs'') : List.Forall₂ (Store.Same taken) fs fs'' := by
  induction h generalizing fs'' with
  | nil => exact h'
  | cons hs _ ih =>
    cases h' with
    | cons hs' hf' => exact .cons (hs.trans hs') (ih hf')

namespace Machine.Same

variable {m m' m'' : Machine}

theorem refl (m : Machine) : Same taken m m :=
  ⟨fun _ _ ↦ rfl, List.forall₂_same.mpr fun _ _ _ _ ↦ rfl, rfl, rfl⟩

theorem symm (h : Same taken m m') : Same taken m' m :=
  ⟨h.globals.symm, (h.frames.imp fun _ _ hs ↦ hs.symm).flip, h.draws.symm, h.console.symm⟩

theorem trans (h : Same taken m m') (h' : Same taken m' m'') : Same taken m m'' :=
  ⟨h.globals.trans h'.globals, Frames.same_trans h.frames h'.frames, h.draws.trans h'.draws,
    h.console.trans h'.console⟩

end Machine.Same

def Kept.none (m : Machine) : Kept := ⟨[], m.frames.map fun _ ↦ []⟩

theorem Machine.Same.twin {m m' : Machine} (h : Machine.Same taken m m') :
    Machine.Twin taken (Kept.none m) m m' :=
  ⟨⟨h.globals, fun _ hq ↦ nomatch hq⟩, .of_same h.frames, h.draws, h.console⟩

theorem Machine.Twin.machineSame {K : Kept} {m m' : Machine} (h : Machine.Twin taken K m m') :
    Machine.Same taken m m' := ⟨h.globals.same, h.frames.same, h.draws, h.console⟩

theorem Kept.place_none (m : Machine) (v : Variable) : (Kept.none m).place v = [] := by
  unfold place none
  cases v.kind <;> cases m.frames <;> rfl

end Same

namespace Run

/-- What a run came to within a bound on its depth, if that was enough. -/
abbrev Result := EStateM.Result Halt Machine (Option Value)

def Result.Finished : Run.Result → Prop
  | .error .unfinished _ => False
  | _ => True

/-- Two runs, each given by what it comes to within any bound on its depth: if one of them ends, so does
the other, and in the same way. -/
structure Alike (taken : Variable → Prop) (F G : Nat → Run.Result) : Prop where
  ends : (∃ k, (F k).Finished) ↔ ∃ n, (G n).Finished
  same : ∀ k n, (F k).Finished → (G n).Finished →
    Accord False False (Machine.Same taken) (F k) (G n)

namespace Accord

variable {taken : Variable → Prop} {U V : Prop} {S : Machine → Machine → Prop} {r r' : Run.Result}

theorem mono {S' : Machine → Machine → Prop} (h : Accord U V S r r') (hS : ∀ m m', S m m' → S' m m') :
    Accord U V S' r r' := by
  cases h with
  | ok x h => exact .ok x (hS _ _ h)
  | error e h => exact .error e (hS _ _ h)
  | left hU m => exact .left hU m _
  | right hV _ m => exact .right hV _ m

theorem of_left (h : Accord True False S r r') (hr : r.Finished) : Accord False False S r r' := by
  cases h with
  | ok x h => exact .ok x h
  | error e h => exact .error e h
  | left _ m => exact hr.elim
  | right hV _ m => exact hV.elim

theorem of_right (h : Accord False True S r r') (hr : r'.Finished) : Accord False False S r r' := by
  cases h with
  | ok x h => exact .ok x h
  | error e h => exact .error e h
  | left hU m => exact hU.elim
  | right _ _ m => exact hr.elim

theorem finished_iff (h : Accord False False S r r') : r.Finished ↔ r'.Finished := by
  cases h with
  | ok x h => exact Iff.rfl
  | error e h => cases e <;> exact Iff.rfl
  | left hU m => exact hU.elim
  | right hV _ m => exact hV.elim

theorem symm (h : Accord False False (Machine.Same taken) r r') :
    Accord False False (Machine.Same taken) r' r := by
  cases h with
  | ok x h => exact .ok x h.symm
  | error e h => exact .error e h.symm
  | left hU m => exact hU.elim
  | right hV _ m => exact hV.elim

theorem trans {r'' : Run.Result} (h : Accord False False (Machine.Same taken) r r')
    (h' : Accord False False (Machine.Same taken) r' r'') :
    Accord False False (Machine.Same taken) r r'' := by
  cases h with
  | ok x h =>
    cases h' with
    | ok _ h' => exact .ok x (h.trans h')
    | right hV _ m => exact hV.elim
  | error e h =>
    cases h' with
    | error _ h' => exact .error e (h.trans h')
    | left hU m => exact hU.elim
    | right hV _ m => exact hV.elim
  | left hU m => exact hU.elim
  | right hV _ m => exact hV.elim

end Accord

theorem Alike.of_bounds {taken : Variable → Prop} {F G : Nat → Run.Result} {enough : Nat → Nat}
    (hF : ∀ k n, k ≤ n → Accord True False (Machine.Same taken) (F k) (G n))
    (hG : ∀ k n, enough n ≤ k → Accord False True (Machine.Same taken) (F k) (G n)) :
    Alike taken F G := by
  constructor
  · constructor
    · rintro ⟨k, hk⟩
      exact ⟨k, ((hF k k (Nat.le_refl k)).of_left hk).finished_iff.mp hk⟩
    · rintro ⟨n, hn⟩
      exact ⟨enough n, ((hG _ n (Nat.le_refl _)).of_right hn).finished_iff.mpr hn⟩
  · intro k n hk hn
    -- Both runs are compared with a nested one that may go deeper than either, by way of flat ones.
    have hdeep := (hF k (max k n) (Nat.le_max_left k n)).of_left hk
    have hlong := (hG (max (enough n) (enough (max k n))) (max k n) (Nat.le_max_right _ _)).of_right
      (hdeep.finished_iff.mp hk)
    have hshort := (hG (max (enough n) (enough (max k n))) n (Nat.le_max_left _ _)).of_right hn
    exact (hdeep.trans hlong.symm).trans hshort

end Run

/-- A body with jumps and labels as a resolver leaves them, and no variables but some. -/
structure Code.Body.WellNested (taken : Variable → Prop) (b : Body) : Prop where
  inside : Code.AllJumpInside [] b
  distinct : b.Distinct
  uses : ∀ s ∈ nodesAll b, ∀ v ∈ s.vars, taken v

/-- A body and its flat code, for which variables were numbered that are not taken. -/
def Code.Body.Lowers (taken : Variable → Prop) (b b' : Body) : Prop :=
  ∃ n n', flattenBody b n = (b', n') ∧ ∀ v, taken v → v.id < n ∨ n' ≤ v.id

section Bodies

variable {U V : Prop} {taken : Variable → Prop} {limits : Limits} {flat nested : Invoke}

theorem Code.Body.Distinct.exists_place {b : Body} (h : b.Distinct) {l : Label}
    (hl : l ∈ Code.exitsOf (nodesAll b)) (n : Nat) :
    ∃ i, Run.place? (flattenBody b n).1 l = some i := by
  have hcount := Code.count_flattenAll l b ⟨0, n⟩
  have hpos : 0 < (Code.exitsOf (nodesAll b)).count l := List.count_pos_iff.mpr hl
  have hmade : Code.madeCount l 0 = 0 := by
    cases l with
    | made k => exact absurd hl (h.made k).1
    | _ => rfl
  have hlabel : l ∈ (flattenBody b n).1.labels := by
    rw [← List.count_pos_iff]
    change 0 < (Code.flattenAll b ⟨0, n⟩).1.labels.count l
    rw [hmade] at hcount
    omega
  obtain ⟨i, hi⟩ := List.getElem?_of_mem (Code.Body.mem_labels.mp hlabel)
  exact ⟨i + 1, h.place?_flattenBody (.inl hl) hi⟩

theorem Code.Body.WellNested.accords {b b' : Body} (hb : Code.Body.WellNested taken b) (h : Code.Body.Lowers taken b b')
    {counter : Variable → Prop} (hcounter : ∀ s ∈ nodesAll b, ∀ v, s.counter? = some v → counter v)
    (hlimits : limits.steps = none) (hinvoke : ∀ K, InvokePaired U V taken K flat nested) {K : Kept}
    (hK : ∀ v u, counter v → K.place (Code.makeUpperBound v u).1 = []) {k n : Nat}
    (hU : U ∨ Code.costAll n b + 1 ≤ k) (hV : V ∨ k ≤ n) :
    Paired U V taken K (Run.body limits flat b' k 0 none) (Nested.body limits nested n b) := by
  obtain ⟨first, bound, hflat, hfree⟩ := h
  obtain ⟨rfl, rfl⟩ := Prod.ext_iff.mp hflat
  let σ : Stage U V :=
    { limits, flat, nested, taken, counter, first
      code := (flattenBody b first).1
      target := Code.IsTarget b
      bound := (flattenBody b first).2
      steps := hlimits
      invoke := hinvoke
      place := fun _ _ hl hi ↦ hb.distinct.place?_flattenBody hl hi
      made := fun n ↦ .inr ⟨n, rfl⟩
      free := hfree }
  have hproper : ∀ t ∈ nodesAll b, σ.Proper t := by
    intro t ht
    refine ⟨hb.uses t ht, hcounter t ht, ?_⟩
    intro l hl
    have hexit : l ∈ Code.exitsOf (nodesAll b) := List.mem_flatMap.mpr ⟨t, ht, hl⟩
    exact ⟨.inl hexit, hb.distinct.exists_place hexit first⟩
  have hplaced : σ.Placed [] := by
    rintro l ⟨x, hx, -⟩
    nomatch hx
  have hmatch : σ.Matches [] first _ _ _ := Stage.matches_statements σ b (u := ⟨0, first⟩) hb.inside
    hplaced hproper (Nat.le_refl first) (Nat.le_refl _)
  refine hmatch (r := 1) (p := 0) (C := Nested.finish) (fun i s hs ↦ ?_) (fun v u hv q hq ↦ ?_)
    ⟨fun _ _ hm ↦ hm, fun j hj hr e he ↦ ?_⟩ hU hV
  · rw [Nat.zero_add]
    exact hs
  · rw [hK v u hv] at hq
    nomatch hq
  · cases e with
    | on last =>
      have hend : σ.code[0 + (Code.flattenAll b ⟨0, first⟩).1.length]? = none := by
        rw [Nat.zero_add]
        exact List.getElem?_eq_none (Nat.le_refl _)
      exact σ.agrees_end hend hr
    | jump l last =>
      obtain ⟨x, hx, -⟩ := he
      nomatch hx
    | done result => exact Run.paired_pure result

end Bodies

end SmallScript
