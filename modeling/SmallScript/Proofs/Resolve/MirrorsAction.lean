import SmallScript.Proofs.Code.Rename
import SmallScript.Proofs.Scope.Layers
import SmallScript.Proofs.Typing.Resolve

namespace SmallScript.Resolver

open Code (Expression Statement Renaming)

/-- One more scope between some that declare globals and those inside them. Symbols are numbered from
`later` later on. -/
structure Insertion where
  outer : List Frame
  linear : Scopes.Linear outer
  ne_nil : outer ≠ []
  global : ∀ f ∈ outer, ∀ v ∈ f.vars, v.kind = .global
  between : Frame
  parent : between.parent = some (outer.length - 1)
  later : Nat

namespace Insertion

variable (S : Insertion)

abbrev shift : Renaming := .shift S.later

def Keeps (v : Variable) : Prop := v.kind = .global → S.between.lookupVariable v.name = none

def KeepsFunction (f : Function) : Prop := S.between.lookupFunction f.name = none

abbrev Clear : Expression → Prop := Expression.Uses False S.Keeps S.KeepsFunction

abbrev ClearStatement : Statement → Prop := Statement.Of (·.kind ≠ .global) S.Clear

/-- What is known with the new scope, next to what is known without it. There are `k` scopes at least. -/
def Beside (k : Nat) (r r' : Resolution) : Prop :=
  ∃ inner, r.scopes = .ofList (S.outer ++ inner) ∧ Scopes.Nested S.outer.length inner ∧
    (∀ f ∈ inner, f.functions = []) ∧ S.outer.length ≤ r.scope ∧
    r.scope < S.outer.length + inner.length ∧ k ≤ S.outer.length + inner.length ∧
    r' = ⟨.ofList (S.outer ++ S.between :: inner.map (Frame.move S.shift.var)), r.scope + 1,
      r.loops, r.loopCount, r.nextSymbol + S.later, r.reports⟩

namespace Beside

variable {S : Insertion} {k : Nat} {r r' : Resolution} (h : S.Beside k r r')
include h

theorem outer_le : S.outer.length ≤ r.scope := h.choose_spec.2.2.2.1

theorem scope_eq : r'.scope = r.scope + 1 := by
  obtain ⟨inner, -, -, -, -, -, -, rfl⟩ := h
  rfl

theorem push :
    ∃ k', k ≤ k' ∧ r.scope < k' ∧
      S.Beside k' { r with scopes := (r.scopes.push r.scope).2, scope := (r.scopes.push r.scope).1 }
        { r' with scopes := (r'.scopes.push r'.scope).2, scope := (r'.scopes.push r'.scope).1 } := by
  obtain ⟨inner, hs, hin, hnone, hle, hlt, hk, rfl⟩ := h
  have hpush := Scopes.push_ofList (S.outer ++ inner) r.scope
  have hpush' := Scopes.push_ofList
    (S.outer ++ S.between :: inner.map (Frame.move S.shift.var)) (r.scope + 1)
  rw [← hs, List.append_assoc] at hpush
  refine ⟨S.outer.length + inner.length + 1, by omega, by omega,
    inner ++ [⟨some r.scope, [], []⟩], by rw [hpush], hin.push hle hlt, fun f hf ↦ ?_, ?_, ?_, ?_, ?_⟩
  · rcases List.mem_append.mp hf with hf | hf
    · exact hnone f hf
    · obtain rfl := List.mem_singleton.mp hf
      rfl
  · simp [hpush]
  · simp [hpush]
  · simp [Nat.add_assoc]
  · rw [hpush, hpush']
    simp [Frame.move, Nat.add_assoc]

theorem leave {scope : Nat} (hle : S.outer.length ≤ scope) (hlt : scope < k) :
    S.Beside k { r with scope } { r' with scope := scope + 1 } := by
  obtain ⟨inner, hs, hin, hnone, -, -, hk, rfl⟩ := h
  exact ⟨inner, hs, hin, hnone, hle, Nat.lt_of_lt_of_le hlt hk, hk, rfl⟩

theorem mono {k' : Nat} (hk' : k' ≤ k) : S.Beside k' r r' := by
  obtain ⟨inner, hs, hin, hnone, hle, hlt, hk, hr'⟩ := h
  exact ⟨inner, hs, hin, hnone, hle, hlt, Nat.le_trans hk' hk, hr'⟩

end Beside

end Insertion

variable {S : Insertion} {k : Nat} {α β γ δ : Type}

/-- If an action reports nothing and its result has `G`, then `P` holds, and another action does the same
with the new scope. -/
structure Mirrors (S : Insertion) (k : Nat) (ρ : α → β) (G : α → Prop) (P : Prop) (m : Resolver α)
    (m' : Resolver β) : Prop where
  honest : Honest Resolution.reports (fun _ ↦ True) m fun a ↦ G a → P
  follow (r r' : Resolution) : S.Beside k r r' → (m r).2.reports = r.reports → G (m r).1 →
    (m' r').1 = ρ (m r).1 ∧ S.Beside k (m r).2 (m' r').2

namespace Mirrors

variable {ρ : α → β} {σ : γ → δ} {G : α → Prop} {H : γ → Prop} {P P₁ Q : Prop} {m : Resolver α}
  {m' : Resolver β} {f : α → Resolver γ} {f' : β → Resolver δ}

theorem pure {a : α} {b : β} (hb : b = ρ a) (h : G a → P) :
    Mirrors S k ρ G P (pure a) (pure b) where
  honest := .pure h
  follow _ _ hr _ _ := ⟨hb, hr⟩

theorem bind_of (hP : P₁ → Q → P) (hm : Mirrors S k ρ G P₁ m m')
    (hf : ∀ a, Mirrors S k σ H (Q ∧ G a) (f a) (f' (ρ a))) :
    Mirrors S k σ H P (m >>= f) (m' >>= f') where
  honest := hm.honest.bind fun a ↦ (hf a).honest.mono fun b hb h hH ↦
    hP (h (hb hH).2) (hb hH).1
  follow r r' hr hq hH := by
    have hquiet := hm.honest.grows.eq_of_bind (fun a ↦ (hf a).honest.grows) hq
    have hrest : (f (m r).1 (m r).2).2.reports = (m r).2.reports := hq.trans hquiet.symm
    obtain ⟨-, hneeds⟩ := (hf _).honest.sound _ trivial hrest
    obtain ⟨hval, hr'⟩ := hm.follow r r' hr hquiet (hneeds hH).2
    have hend := (hf _).follow _ _ hr' hrest hH
    rw [← hval] at hend
    exact hend

theorem bind (hm : Mirrors S k ρ G P m m') (hf : ∀ a, Mirrors S k σ H (G a) (f a) (f' (ρ a))) :
    Mirrors S k σ H P (m >>= f) (m' >>= f') :=
  bind_of (fun h (_ : True) ↦ h) hm fun a ↦
    ⟨(hf a).honest.mono fun _ h hH ↦ ⟨trivial, h hH⟩, (hf a).follow⟩

theorem mono (h : Mirrors S k ρ G P m m') (hP : P → Q) : Mirrors S k ρ G Q m m' :=
  ⟨h.honest.mono fun _ h hG ↦ hP (h hG), h.follow⟩

theorem ite {c : Prop} [Decidable c] {n : Resolver α} {n' : Resolver β}
    (h : c → Mirrors S k ρ G P m m') (h' : ¬ c → Mirrors S k ρ G P n n') :
    Mirrors S k ρ G P (if c then m else n) (if c then m' else n') := by
  split
  · next hc => exact h hc
  · next hc => exact h' hc

theorem report {span : Span} {cause : Cause} {n : Unit → Resolver α}
    (hn : ∀ u, Grows Resolution.reports (n u)) :
    Mirrors S k ρ G P (report span cause >>= n) m' := by
  have hfalse : Honest Resolution.reports (fun _ ↦ True) (Resolver.report span cause >>= n)
      fun _ ↦ False :=
    .bind (honest_report _ _) fun u ↦ ⟨hn u, fun _ _ _ ↦ ⟨trivial, id⟩⟩
  exact ⟨hfalse.mono fun _ h ↦ h.elim, fun r _ _ hq _ ↦ (hfalse.sound r trivial hq).2.elim⟩

/-- An action that only reports, with a result that does not depend on what is known. -/
theorem reporting (hm : Reporting m) (h : ∀ r r', S.Beside k r r' → G (m r).1 →
      (m' r').1 = ρ (m r).1 ∧ (m' r').2 = r') (hP : ∀ r, G (m r).1 → P) : Mirrors S k ρ G P m m' where
  honest := ⟨fun r ↦ (hm r).elim fun new hnew ↦ hnew ▸ List.suffix_append new r.reports,
    fun r _ _ ↦ ⟨trivial, hP r⟩⟩
  follow r r' hr hq hG := by
    obtain ⟨hval, hsame⟩ := h r r' hr hG
    rw [hm.eq_of_reports hq, hsame]
    exact ⟨hval, hr⟩

end Mirrors

section Actions

theorem mirrors_lookupVariable (name : String) :
    Mirrors S k (Option.map S.shift.var) (fun o ↦ ∃ v, o = some v ∧ S.Keeps v) True
      (lookupVariable name) (lookupVariable name) := by
  refine .reporting (.lookupVariable name) (fun r r' hr ⟨v, hv, hkeeps⟩ ↦ ⟨?_, rfl⟩) fun _ _ ↦ trivial
  obtain ⟨inner, hs, hin, -, hle, hlt, -, rfl⟩ := hr
  change r.scopes.lookupVariable r.scope name = some v at hv
  change Scopes.lookupVariable _ _ name = (r.scopes.lookupVariable r.scope name).map _
  rw [hv, Option.map_some]
  rw [hs] at hv
  rcases Scopes.lookupVariable_insert S.linear S.ne_nil S.parent hin S.shift.var hle hlt
    S.shift.name_var hv with
    ⟨-, hnew⟩ | ⟨hv, hnew⟩
  · exact hnew
  · obtain ⟨f, hf, hfind⟩ := List.exists_of_findSome?_eq_some hv
    have hname : v.name = name := by simpa using List.find?_some hfind
    have hglobal := S.global f (List.mem_reverse.mp hf) v (List.mem_of_find?_eq_some hfind)
    rw [hnew, List.findSome?_cons, ← hname, hkeeps hglobal, hname, hv,
      S.shift.var_of_ne_local (by rw [hglobal]; nofun)]

theorem mirrors_lookupFunction (name : String) :
    Mirrors S k id (fun o ↦ ∃ f, o = some f ∧ S.KeepsFunction f) True
      (lookupFunction name) (lookupFunction name) := by
  refine .reporting (.lookupFunction name) (fun r r' hr ⟨f, hf, hkeeps⟩ ↦ ⟨?_, rfl⟩) fun _ _ ↦ trivial
  obtain ⟨inner, hs, hin, hnone, hle, hlt, -, rfl⟩ := hr
  change r.scopes.lookupFunction r.scope name = some f at hf
  change Scopes.lookupFunction _ _ name = r.scopes.lookupFunction r.scope name
  obtain ⟨hold, hnew⟩ := Scopes.lookupFunction_insert S.linear S.ne_nil S.parent hin S.shift.var
    hle hlt hnone name
  rw [hf]
  rw [hs, hold] at hf
  obtain ⟨g, -, hfind⟩ := List.exists_of_findSome?_eq_some hf
  have hname : f.name = name := by simpa using List.find?_some hfind
  rw [hnew, List.findSome?_cons, ← hname, hkeeps, hname, hf]

theorem mirrors_freshSymbol : Mirrors S k (· + S.later) (fun _ ↦ True) True freshSymbol freshSymbol where
  honest := .of_log_eq (fun _ ↦ rfl) fun _ _ ↦ ⟨trivial, fun _ ↦ trivial⟩
  follow r r' hr _ _ := by
    obtain ⟨inner, hs, hin, hnone, hle, hlt, hk, rfl⟩ := hr
    refine ⟨rfl, inner, hs, hin, hnone, hle, hlt, hk, ?_⟩
    change (⟨_, _, _, _, r.nextSymbol + S.later + 1, _⟩ : Resolution) = _
    rw [Nat.add_right_comm]
    rfl

theorem mirrors_declareVariable (v : Variable) :
    Mirrors S k id (fun _ ↦ True) True (declareVariable v) (declareVariable (S.shift.var v)) where
  honest := .of_log_eq (fun r ↦ by rw [declareVariable_snd]) fun _ _ ↦ ⟨trivial, fun _ ↦ trivial⟩
  follow r r' hr _ _ := by
    obtain ⟨inner, hs, hin, hnone, hle, hlt, hk, rfl⟩ := hr
    obtain ⟨f, hf, hat, hset⟩ := Scopes.exists_inner hle hlt
    have hat' : (S.outer ++ S.between :: inner.map (Frame.move S.shift.var))[r.scope + 1]? =
        some (f.move S.shift.var) := by
      rw [List.getElem?_append_right (by omega),
        show r.scope + 1 - S.outer.length = r.scope - S.outer.length + 1 by omega,
        List.getElem?_cons_succ, List.getElem?_map, hf]
      rfl
    rw [declareVariable_fst, declareVariable_fst, declareVariable_snd, declareVariable_snd]
    refine ⟨?_, inner.set (r.scope - S.outer.length) (f.withVariable v), ?_,
      hin.set hf (Frame.parent_withVariable v), fun g hg ↦ ?_, hle, ?_, ?_, ?_⟩
    · rw [hs, Scopes.declareVariable?_ofList hat, Scopes.declareVariable?_ofList hat',
        Frame.lookupVariable_move S.shift.name_var, S.shift.name_var, Option.isSome_map]
      split <;> rfl
    · rw [hs, Scopes.declareVariable_getD hat, hset]
    · rcases List.mem_or_eq_of_mem_set hg with hg | rfl
      · exact hnone g hg
      · rw [Frame.functions_withVariable]
        exact hnone f (List.mem_of_getElem? hf)
    · simpa using hlt
    · simpa using hk
    · rw [Scopes.declareVariable_getD hat', Frame.withVariable_move S.shift.name_var, List.set_append,
        if_neg (by omega), show r.scope + 1 - S.outer.length = r.scope - S.outer.length + 1 by omega,
        List.set_cons_succ, List.map_set]

theorem mirrors_inside {ρ : α → β} {G : α → Prop} {P : Prop} {m : Resolver α} {m' : Resolver β}
    (h : ∀ k, Mirrors S k ρ G P m m') : Mirrors S k ρ G P (inside m) (inside m') where
  honest := .bind (.of_log_eq (Q := fun _ ↦ True) (fun _ ↦ rfl) fun _ h ↦ ⟨h, trivial⟩) fun _ ↦
    .bind (h k).honest fun _ ↦
      .bind (.of_log_eq (Q := fun _ ↦ True) (fun _ ↦ rfl) fun _ h ↦ ⟨h, trivial⟩) fun _ ↦
        .pure fun _ h _ ↦ h
  follow r r' hr hq hG := by
    obtain ⟨k', hk, hlt, hopen⟩ := hr.push
    obtain ⟨hval, hend⟩ := (h k').follow _ _ hopen hq hG
    have hleave := (hend.leave hr.outer_le hlt).mono hk
    rw [← hr.scope_eq] at hleave
    exact ⟨hval, hleave⟩

theorem mirrors_insideLoop {ρ : α → β} {G : α → Prop} {P : Prop} {m : Resolver α} {m' : Resolver β}
    (h : Mirrors S k ρ G P m m') :
    Mirrors S k (Prod.map ρ id) (fun p ↦ G p.1) P (insideLoop m) (insideLoop m') where
  honest := .bind (.of_log_eq (Q := fun _ ↦ True) (fun _ ↦ rfl) fun _ h ↦ ⟨h, trivial⟩) fun _ ↦
    .bind h.honest fun _ ↦
      .bind (.of_log_eq (Q := fun _ ↦ True) (fun _ ↦ rfl) fun _ h ↦ ⟨h, trivial⟩) fun _ ↦
        .pure fun _ h _ ↦ h
  follow r r' hr hq hG := by
    obtain ⟨inner, hs, hin, hnone, hle, hlt, hk, rfl⟩ := hr
    obtain ⟨hval, inner', hs', hin', hnone', hle', hlt', hk', hend⟩ := h.follow
      { r with
        loopCount := r.loopCount + 1
        loops := ⟨.breakOf (r.loopCount + 1), .continueOf (r.loopCount + 1)⟩ :: r.loops }
      _ ⟨inner, hs, hin, hnone, hle, hlt, hk, rfl⟩ hq hG
    refine ⟨Prod.ext hval rfl, inner', hs', hin', hnone', hle', hlt', hk', ?_⟩
    exact congrArg (fun s : Resolution ↦ { s with loops := s.loops.tail }) hend

end Actions

end SmallScript.Resolver
