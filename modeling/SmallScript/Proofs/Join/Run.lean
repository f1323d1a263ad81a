import SmallScript.Proofs.Join.Program
import SmallScript.Proofs.Run.Renumber

namespace SmallScript

open Code (Body Statement translateAll AllOf)
open Run (Follow Tracks Gives Matched Recalls Inside)

/-- Statements outside functions that are closed, use globals only and never return, and closed bodies. -/
structure Program.Standalone (p : Program) : Prop where
  main : p.main.Closed
  body : ∀ f b, p.body? f = some b → b.Closed
  globals : AllOf (Variable.InReach 0) (Run.Reaches 0) p.main
  stays : ∀ e, .leave e ∉ p.main

structure Machine.Leaves (φ : Renumbering) (m m' : Machine) : Prop where
  globals : m'.globals = m.globals.renumbered φ
  console : m'.console = m.console

def Program.inTurn (p p' : Program) (limits : Limits) (n : Nat) (globals : Store) (console : Console) :
    EStateM.Result Halt Machine (Option Value) :=
  match p.run limits n (.start globals console) with
  | .ok _ m => p'.run limits n (.start m.globals m.console)
  | .error e m => .error e m

/-- Where the statements of one program begin that are those of the second of two, with a bound of more than `n` on
their number. -/
def Program.AtJoint (V : Prop) (φ : Renumbering) (p joint : Program) (limits : Limits) (n n' : Nat) :
    Follow (Option Value) (Option Value) :=
  fun _ m r ↦ ∃ e last m', (V ∨ n ≤ e) ∧ e < n' ∧ m.Renumbered φ 0 m' ∧
    r = Run.body limits (Run.call joint limits n') joint.main (e + 1) p.main.length last m'

namespace Program.Linked

variable {φ φ' : Renumbering} {x : Offsets} {p p' joint : Program} {U V : Prop} {limits : Limits}

theorem recalls {ψ : Renumbering} {q : Program} (hq : q.Standalone) (hsteps : limits.steps = none)
    (hbody : ∀ f, joint.body? (ψ.func f) = (q.body? f).map (translateAll (ψ.translation .zero))) {n n' : Nat}
    (hn : V ∨ n ≤ n') (hn' : U ∨ n' ≤ n) :
    Recalls U V ψ 0 (Run.call q limits n) (Run.call joint limits n') := by
  refine Run.call_renumber hsteps hbody (fun f b hb ↦ ⟨?_, (hq.body f b hb).flat⟩) hn hn'
  have hin : Inside ψ .zero 0 b ([] ++ translateAll (ψ.translation .zero) b ++ []) :=
    Inside.of_append (hq.body f b hb) [] fun _ _ ↦ List.not_mem_nil
  rwa [List.nil_append, List.append_nil] at hin

variable (h : Program.Linked φ φ' x p p' joint) (hsteps : limits.steps = none) {n n' : Nat}
include h hsteps

theorem first (hp : p.Standalone) (hapart : ∀ l ∈ p.main.labels, ∀ l' ∈ p'.main.labels, x.label l' ≠ l)
    (hn : V ∨ n + n ≤ n') (hn' : U ∨ n' ≤ n) :
    Tracks U V (Machine.Renumbered φ 0) (AtJoint V φ p joint limits n n') (p.run limits n) (joint.run limits n') := by
  have hcalls : Recalls U V φ 0 (Run.call p limits n) (Run.call joint limits n') :=
    recalls hp hsteps h.body (hn.imp_right Nat.le_of_add_right_le) hn'
  have hin : Inside φ .zero 0 p.main joint.main := by
    have happend : Inside φ .zero 0 p.main
        ([] ++ translateAll (φ.translation .zero) p.main ++ translateAll (φ'.translation x) p'.main) := by
      refine Inside.of_append hp.main [] fun l hl hmem ↦ ?_
      rw [Offsets.label_zero, Run.labels_translate] at hmem
      obtain ⟨l', hl', heq⟩ := List.mem_map.mp hmem
      exact hapart l hl l' hl' heq
    rwa [List.nil_append, ← h.main] at happend
  have hend (e : Nat) (last last' : Option Value) (m m' : Machine) (he : V ∨ n ≤ e) (hlt : e < n') (_ : True)
      (hm : m.Renumbered φ 0 m') : AtJoint V φ p joint limits n n' last m
        (Run.body limits (Run.call joint limits n') joint.main (e + 1) (0 + p.main.length) last' m') :=
    ⟨e, last', m', he, hlt, hm, by rw [Nat.zero_add]⟩
  exact Run.body_renumber hcalls hsteps hin (fun _ ↦ trivial) hp.globals hend (fun e he ↦ absurd he (hp.stays e))
    hn hn' (Nat.le_refl n') (Nat.zero_le _) trivial

theorem second (hp' : p'.Standalone) {e : Nat} (he : V ∨ n ≤ e) (hlt : e < n') (hn : V ∨ n ≤ n') (hn' : U ∨ n' ≤ n)
    (last : Option Value) :
    Run.Matches U V (Machine.Renumbered φ' 0) (fun _ _ ↦ True) (p'.run limits n)
      (Run.body limits (Run.call joint limits n') joint.main (e + 1) p.main.length last) := by
  have hcalls : Recalls U V φ' 0 (Run.call p' limits n) (Run.call joint limits n') :=
    recalls hp' hsteps h.body' hn hn'
  have hlength : (translateAll (φ.translation .zero) p.main).length = p.main.length := by
    rw [Code.translateAll_eq_map, List.length_map]
  have hin : Inside φ' x p.main.length p'.main joint.main := by
    have happend : Inside φ' x (translateAll (φ.translation .zero) p.main).length p'.main
        (translateAll (φ.translation .zero) p.main ++ translateAll (φ'.translation x) p'.main ++ []) :=
      Inside.of_append hp'.main _ fun _ _ ↦ List.not_mem_nil
    rwa [List.append_nil, hlength, ← h.main] at happend
  have hend (k : Nat) (last last' : Option Value) (m m' : Machine) (_ : V ∨ 0 ≤ k) (_ : k < e + 1) (_ : True)
      (hm : m.Renumbered φ' 0 m') : Gives (Machine.Renumbered φ' 0) (fun _ _ ↦ True) last m
        (Run.body limits (Run.call joint limits n') joint.main (k + 1) (p.main.length + p'.main.length) last' m') := by
    refine ⟨last', m', ?_, hm, trivial⟩
    have hlast : joint.main.length ≤ p.main.length + p'.main.length := by simp [h.main, Code.translateAll_eq_map]
    rw [Run.body, List.getElem?_eq_none hlast]
    rfl
  exact Run.body_renumber hcalls hsteps hin (fun _ ↦ trivial) hp'.globals hend (fun e he ↦ absurd he (hp'.stays e))
    (he.imp_right fun hle ↦ by omega) (hn'.imp_right fun hle ↦ by omega) (Nat.le_refl _) (Nat.zero_le _) trivial

/-- One program does what two do in turn, if the first one draws no random number. -/
theorem inTurn (hp : p.Standalone) (hp' : p'.Standalone)
    (hapart : ∀ l ∈ p.main.labels, ∀ l' ∈ p'.main.labels, x.label l' ≠ l)
    (hglobal : ∀ v : Variable, v.kind = .global → φ'.var v = φ.var v) (console : Console)
    (hdraws : (Run.final (p.run limits n (.start .empty console))).draws = 0) (hn : V ∨ n + n ≤ n')
    (hn' : U ∨ n' ≤ n) :
    Matched U V (Machine.Leaves φ) (Gives (Machine.Leaves φ) fun _ _ ↦ True)
      (p.inTurn p' limits n .empty console) (joint.run limits n' (.start .empty console)) := by
  have hstart : (Machine.start .empty console).Renumbered φ 0 (.start .empty console) :=
    ⟨rfl, nofun, .nil, rfl, rfl, rfl⟩
  have hfirst := h.first hsteps hp hapart hn hn' _ _ hstart
  unfold Program.inTurn
  generalize p.run limits n (.start .empty console) = r at hfirst hdraws
  generalize joint.run limits n' (.start .empty console) = r' at hfirst
  cases hfirst with
  | @ok a m _ hok =>
    obtain ⟨e, last, m', he, hlt, hm, rfl⟩ := hok
    have hdraws : m.draws = 0 := hdraws
    have hframes : m.frames = [] := List.length_eq_zero_iff.mp hm.depth
    have hframes' : m'.frames = [] := List.length_eq_zero_iff.mp (hm.length.trans hm.depth)
    have hsame {m : Machine} (hm : ∀ e ∈ m.globals.entries, e.1.kind = .global) :
        m.globals.renumbered φ' = m.globals.renumbered φ :=
      congrArg Store.mk (List.map_congr_left fun e he ↦ Prod.ext (hglobal e.1 (hm e he)) rfl)
    have hnext : (Machine.start m.globals m.console).Renumbered φ' 0 m' := by
      refine ⟨hm.globals.trans (hsame hm.kinds).symm, hm.kinds, ?_, rfl, hm.draws.trans hdraws, hm.console⟩
      rw [hframes']
      exact .nil
    have hleaves (m m' : Machine) (h : m.Renumbered φ' 0 m') : m.Leaves φ m' :=
      ⟨h.globals.trans (hsame h.kinds), h.console⟩
    have hsecond := h.second hsteps hp' he hlt (hn.imp_right Nat.le_of_add_right_le) hn' last _ _ hnext
    refine hsecond.mono hleaves ?_
    rintro a m r ⟨b, m', rfl, hm, -⟩
    exact ⟨b, m', rfl, hleaves m m' hm, trivial⟩
  | error e hm => exact .error e ⟨hm.globals, hm.console⟩
  | left hU => exact .left hU _ _
  | right hV => exact .right hV _ _

end Program.Linked

end SmallScript
