import SmallScript.Proofs.Code.Renumber
import SmallScript.Proofs.Resolve.Settled
import SmallScript.Proofs.Resolve.Source
import SmallScript.Proofs.Typing.Resolve

namespace SmallScript

open Code (translateExits translateArguments translateAll)

/-- What is seen in two places, in the second one under other numbers. There the nearest frame begins with
variables of its own. -/
structure Fits (φ : Renumbering) (before : List Variable) (env env' : List Frame) : Prop where
  vars : ∀ name v, env.findSome? (·.lookupVariable name) = some v →
    env'.findSome? (·.lookupVariable name) = some (φ.var v)
  functions : ∀ name f, env.findSome? (·.lookupFunction name) = some f →
    env'.findSome? (·.lookupFunction name) = some (φ.func f)
  top : ∃ f rest f' rest', env = f :: rest ∧ env' = f' :: rest' ∧ f'.vars = before ++ f.vars.map φ.var

/-- How the numbers that are taken in two places go together: those from `first` on and below `limit` in the
one place are those from `first'` on in the other one. -/
structure Course where
  numbers : Renumbering
  offsets : Offsets
  first : Nat
  first' : Nat
  limit : Nat

namespace Course

variable (C : Course)

abbrev translation : Code.Translation := C.numbers.translation C.offsets

def Takes (g : Nat → Nat) : Prop := Slides g C.first C.first' C.limit

structure Abreast (E : List Frame → List Frame → Prop) (r r' : Resolution) : Prop where
  stands : r.Stands
  stands' : r'.Stands
  seen : E r.seen r'.seen
  loops : r'.loops = r.loops.map (translateExits C.translation)
  loopCount : r'.loopCount = r.loopCount + C.offsets.loop
  symbols : r'.nextSymbol + C.first = r.nextSymbol + C.first'
  le : C.first ≤ r.nextSymbol

end Course

namespace Resolver

variable {C : Course} {E : List Frame → List Frame → Prop} {α β γ δ : Type} {m : Resolver α} {m' : Resolver β}

structure Rises (m : Resolver α) : Prop where
  reports : Grows Resolution.reports m
  symbols : ∀ r, r.nextSymbol ≤ (m r).2.nextSymbol

theorem Reporting.rises (h : Reporting m) : Rises m where
  reports r := (h r).elim fun new hnew ↦ hnew ▸ List.suffix_append new r.reports
  symbols r := (h r).elim fun _ hnew ↦ Nat.le_of_eq (by rw [hnew])

theorem Rises.bind {f : α → Resolver γ} (hm : Rises m) (hf : ∀ a, Rises (f a)) : Rises (m >>= f) where
  reports := hm.reports.bind fun a ↦ (hf a).reports
  symbols r := Nat.le_trans (hm.symbols r) ((hf _).symbols _)

/-- If the first of two actions reports nothing and takes no number at the limit, the second one reports
nothing, their results have `Q`, and what is known goes on abreast. -/
structure Follows (C : Course) (E : List Frame → List Frame → Prop) (Q : α → β → Prop) (m : Resolver α)
    (m' : Resolver β) : Prop where
  rises : Rises m
  follow (r r' : Resolution) : C.Abreast E r r' → (m r).2.reports = r.reports →
    (m r).2.nextSymbol ≤ C.limit →
      (m' r').2.reports = r'.reports ∧ Q (m r).1 (m' r').1 ∧ C.Abreast E (m r).2 (m' r').2

abbrev FollowsWith (C : Course) (E : List Frame → List Frame → Prop) (ρ : α → β) (m : Resolver α)
    (m' : Resolver β) : Prop := Follows C E (fun a b ↦ b = ρ a) m m'

namespace Follows

variable {Q : α → β → Prop} {Q' : γ → δ → Prop} {ρ : α → β} {f : α → Resolver γ} {f' : β → Resolver δ}

theorem pure {a : α} {b : β} (h : Q a b) : Follows C E Q (pure a) (pure b) where
  rises := (Reporting.pure a).rises
  follow _ _ hr _ _ := ⟨rfl, h, hr⟩

theorem bind_rises (hm : Follows C E Q m m') (hrises : ∀ a, Rises (f a))
    (hf : ∀ a b, Q a b → Follows C E Q' (f a) (f' b)) : Follows C E Q' (m >>= f) (m' >>= f') where
  rises := hm.rises.bind hrises
  follow r r' hr hq hlimit := by
    have hquiet := hm.rises.reports.eq_of_bind (fun a ↦ (hrises a).reports) hq
    have hrest : (f (m r).1 (m r).2).2.reports = (m r).2.reports := hq.trans hquiet.symm
    have hle := (hrises (m r).1).symbols (m r).2
    obtain ⟨hquiet', hQ, hr'⟩ := hm.follow r r' hr hquiet (Nat.le_trans hle hlimit)
    obtain ⟨hrest', hQ', hend⟩ := (hf _ _ hQ).follow _ _ hr' hrest hlimit
    exact ⟨hrest'.trans hquiet', hQ', hend⟩

theorem bind_of (htotal : ∀ a, ∃ b, Q a b) (hm : Follows C E Q m m')
    (hf : ∀ a b, Q a b → Follows C E Q' (f a) (f' b)) : Follows C E Q' (m >>= f) (m' >>= f') :=
  hm.bind_rises (fun a ↦ (htotal a).elim fun b hb ↦ (hf a b hb).rises) hf

theorem bind (hm : FollowsWith C E ρ m m') (hf : ∀ a, Follows C E Q' (f a) (f' (ρ a))) :
    Follows C E Q' (m >>= f) (m' >>= f') :=
  bind_of (Q := fun a b ↦ b = ρ a) (fun a ↦ ⟨ρ a, rfl⟩) hm fun a _ hb ↦ hb ▸ hf a

theorem ite {c c' : Prop} [Decidable c] [Decidable c'] {n : Resolver α} {n' : Resolver β} (hc : c ↔ c')
    (h : c → Follows C E Q m m') (h' : ¬ c → Follows C E Q n n') :
    Follows C E Q (if c then m else n) (if c' then m' else n') := by
  by_cases hcase : c
  · rw [if_pos hcase, if_pos (hc.mp hcase)]
    exact h hcase
  · rw [if_neg hcase, if_neg fun h ↦ hcase (hc.mpr h)]
    exact h' hcase

theorem of_never (hm : Rises m) (h : ∀ r, (m r).2.reports ≠ r.reports) : Follows C E Q m m' where
  rises := hm
  follow r _ _ hq _ := absurd hq (h r)

theorem report {span : Span} {cause : Cause} {n : Unit → Resolver α} (hn : ∀ u, Rises (n u)) :
    Follows C E Q (Resolver.report span cause >>= n) m' := by
  refine of_never ((Reporting.report span cause).rises.bind hn) fun r hr ↦ ?_
  have hle := ((hn ()).reports { r with reports := ⟨span, cause⟩ :: r.reports }).length_le
  have hsame : (n () { r with reports := ⟨span, cause⟩ :: r.reports }).2.reports = r.reports := hr
  rw [hsame] at hle
  exact absurd hle (Nat.not_succ_le_self _)

theorem of_unchanged (hm : ∀ r, (m r).2 = r) (hm' : ∀ r, (m' r).2 = r)
    (h : ∀ r r', C.Abreast E r r' → Q (m r).1 (m' r').1) : Follows C E Q m m' where
  rises := Reporting.rises fun r ↦ ⟨[], hm r⟩
  follow r r' hr _ _ := by
    rw [hm, hm']
    exact ⟨rfl, h r r' hr, hr⟩

end Follows

theorem follows_freshSymbol {g : Nat → Nat} (hg : C.Takes g) : FollowsWith C E g freshSymbol freshSymbol where
  rises := ⟨fun _ ↦ List.suffix_rfl, fun r ↦ Nat.le_succ r.nextSymbol⟩
  follow r r' hr _ hlimit := by
    have hslide := hg r.nextSymbol hr.le hlimit
    have hsymbols := hr.symbols
    refine ⟨rfl, ?_, ⟨hr.stands.scope, hr.stands.ordered⟩, ⟨hr.stands'.scope, hr.stands'.ordered⟩, hr.seen,
      hr.loops, hr.loopCount, ?_, Nat.le_succ_of_le hr.le⟩
    · change r'.nextSymbol = g r.nextSymbol
      omega
    · change r'.nextSymbol + 1 + C.first = r.nextSymbol + 1 + C.first'
      omega

end Resolver

section Fits

variable {φ : Renumbering} {before : List Variable} {env env' rest rest' : List Frame} {f f' : Frame}
  {v : Variable} {name : String}

namespace Fits

theorem lookup_top (h : Fits φ before (f :: rest) (f' :: rest')) (hname : ∀ w ∈ before, w.name ≠ name) :
    f'.lookupVariable name = (f.lookupVariable name).map φ.var := by
  obtain ⟨_, _, _, _, heq, heq', hvars⟩ := h.top
  obtain ⟨rfl, rfl⟩ := List.cons.inj heq
  obtain ⟨rfl, rfl⟩ := List.cons.inj heq'
  have hnone : before.find? (·.name == name) = none :=
    List.find?_eq_none.mpr fun w hw ↦ by simpa using hname w hw
  rw [Frame.lookupVariable, hvars, List.find?_append, hnone, Option.none_or, List.find?_map]
  rfl

/-- In both places a name is free or not, and is declared if it is free. -/
theorem declare (h : Fits φ before (f :: rest) (f' :: rest')) (hname : ∀ w ∈ before, w.name ≠ v.name) :
    Fits φ before (f.withVariable v :: rest) (f'.withVariable (φ.var v) :: rest') := by
  have hlookup : f'.lookupVariable v.name = (f.lookupVariable v.name).map φ.var := h.lookup_top hname
  cases hfree : f.lookupVariable v.name with
  | some w =>
    have hold : f.withVariable v = f := by simp [Frame.withVariable, hfree]
    have hold' : f'.withVariable (φ.var v) = f' := by
      simp [Frame.withVariable, Renumbering.var, hlookup, hfree]
    rw [hold, hold']
    exact h
  | none =>
    rw [hfree, Option.map_none] at hlookup
    have hlookup' : f'.lookupVariable (φ.var v).name = none := hlookup
    refine ⟨fun name w hw ↦ ?_, fun name g hg ↦ ?_, _, _, _, _, rfl, rfl, ?_⟩
    · have hrest := h.vars name
      rw [List.findSome?_cons, Frame.lookupVariable_withVariable] at hw
      rw [List.findSome?_cons, Frame.lookupVariable_withVariable]
      by_cases hvn : v.name = name
      · subst hvn
        have hvar : (φ.var v).name = v.name := rfl
        simp_all
      · have hvn' : (φ.var v).name ≠ name := hvn
        simp only [hvn, hvn', if_false, Option.or_none] at hw ⊢
        simpa [List.findSome?_cons] using hrest w (by simpa [List.findSome?_cons] using hw)
    · have hrest := h.functions name g
      simp only [List.findSome?_cons, Frame.lookupFunction, Frame.functions_withVariable] at hg hrest ⊢
      exact hrest hg
    · obtain ⟨_, _, _, _, heq, heq', hvars⟩ := h.top
      obtain ⟨rfl, rfl⟩ := List.cons.inj heq
      obtain ⟨rfl, rfl⟩ := List.cons.inj heq'
      simp [Frame.withVariable, hfree, hlookup', hvars]

theorem enter (h : Fits φ before env env') (p p' : Option Nat) :
    Fits φ [] (⟨p, [], []⟩ :: env) (⟨p', [], []⟩ :: env') :=
  ⟨fun name v hv ↦ h.vars name v hv, fun name g hg ↦ h.functions name g hg, _, _, _, _, rfl, rfl, rfl⟩

end Fits

end Fits

namespace Resolver

variable {C : Course} {E : List Frame → List Frame → Prop} {before : List Variable} {α β : Type}
  {m : Resolver α} {m' : Resolver β} {Q : α → β → Prop}

theorem follows_lookupVariable (name : String) :
    Follows C (Fits C.numbers before) (fun o o' ↦ ∀ v, o = some v → o' = some (C.numbers.var v))
      (lookupVariable name) (lookupVariable name) :=
  .of_unchanged (fun _ ↦ rfl) (fun _ ↦ rfl) fun _ _ hr ↦ hr.seen.vars name

theorem follows_lookupFunction (name : String) :
    Follows C (Fits C.numbers before) (fun o o' ↦ ∀ f, o = some f → o' = some (C.numbers.func f))
      (lookupFunction name) (lookupFunction name) :=
  .of_unchanged (fun _ ↦ rfl) (fun _ ↦ rfl) fun _ _ hr ↦ hr.seen.functions name

theorem follows_declareVariable {v : Variable} (hname : ∀ w ∈ before, w.name ≠ v.name) :
    FollowsWith C (Fits C.numbers before) id (declareVariable v) (declareVariable (C.numbers.var v)) where
  rises := by
    refine ⟨.of_log_eq fun r ↦ ?_, fun r ↦ Nat.le_of_eq ?_⟩ <;> rw [declareVariable_snd]
  follow r r' hr _ _ := by
    obtain ⟨hkept, f, rest, hseen, hend, hres⟩ := stacked_declareVariable v r hr.stands
    obtain ⟨hkept', f', rest', hseen', hend', hres'⟩ := stacked_declareVariable (C.numbers.var v) r' hr.stands'
    have hfits := hr.seen
    rw [hseen, hseen'] at hfits
    have hlookup : f'.lookupVariable v.name = _ := hfits.lookup_top hname
    refine ⟨by rw [declareVariable_snd], ?_, hkept.stands hr.stands, hkept'.stands hr.stands', ?_, ?_, ?_, ?_, ?_⟩
    · rw [hres, hres', id, show (C.numbers.var v).name = v.name from rfl, hlookup, Option.isNone_map]
    · rw [hend, hend']
      exact hfits.declare hname
    · rw [declareVariable_snd, declareVariable_snd]
      exact hr.loops
    · rw [declareVariable_snd, declareVariable_snd]
      exact hr.loopCount
    · rw [declareVariable_snd, declareVariable_snd]
      exact hr.symbols
    · rw [declareVariable_snd]
      exact hr.le

theorem follows_inside {T : List Frame → α → List Frame → Prop} {T' : List Frame → β → List Frame → Prop}
    (h : Follows C (Fits C.numbers []) Q m m') (hm : Stacked m T) (hm' : Stacked m' T') :
    Follows C (Fits C.numbers before) Q (inside m) (inside m') where
  rises := ⟨fun r ↦ h.rises.reports (enter r).2, fun r ↦ h.rises.symbols (enter r).2⟩
  follow r r' hr hq hlimit := by
    obtain ⟨hkept, hseen, -⟩ := stacked_inside hm r hr.stands
    obtain ⟨hkept', hseen', -⟩ := stacked_inside hm' r' hr.stands'
    have henter : C.Abreast (Fits C.numbers []) (enter r).2 (enter r').2 := by
      refine ⟨stands_enter hr.stands, stands_enter hr.stands', ?_, hr.loops, hr.loopCount, hr.symbols, hr.le⟩
      rw [seen_enter hr.stands, seen_enter hr.stands']
      exact hr.seen.enter _ _
    obtain ⟨hquiet, hQ, hend⟩ := h.follow _ _ henter hq hlimit
    refine ⟨hquiet, hQ, hkept.stands hr.stands, hkept'.stands hr.stands', ?_, hend.loops, hend.loopCount,
      hend.symbols, hend.le⟩
    rw [hseen, hseen']
    exact hr.seen

theorem follows_insideLoop {ρ : α → β} (h : FollowsWith C E ρ m m') :
    FollowsWith C E (Prod.map ρ (translateExits C.translation)) (insideLoop m) (insideLoop m') where
  rises := by
    refine ⟨fun r ↦ h.rises.reports { r with loopCount := _, loops := _ :: r.loops }, fun r ↦ ?_⟩
    exact h.rises.symbols { r with loopCount := _, loops := _ :: r.loops }
  follow r r' hr hq hlimit := by
    have hcount := hr.loopCount
    have hexits : (⟨.breakOf (r'.loopCount + 1), .continueOf (r'.loopCount + 1)⟩ : Exits) =
        translateExits C.translation ⟨.breakOf (r.loopCount + 1), .continueOf (r.loopCount + 1)⟩ := by
      simp [translateExits, Offsets.label, hcount, Nat.add_right_comm]
    obtain ⟨hquiet, hres, hend⟩ := h.follow
      { r with
        loopCount := r.loopCount + 1
        loops := ⟨.breakOf (r.loopCount + 1), .continueOf (r.loopCount + 1)⟩ :: r.loops }
      { r' with
        loopCount := r'.loopCount + 1
        loops := ⟨.breakOf (r'.loopCount + 1), .continueOf (r'.loopCount + 1)⟩ :: r'.loops }
      ⟨⟨hr.stands.scope, hr.stands.ordered⟩, ⟨hr.stands'.scope, hr.stands'.ordered⟩, hr.seen,
        by rw [hexits, hr.loops]; rfl, by simp only; omega, hr.symbols, hr.le⟩ hq hlimit
    refine ⟨hquiet, Prod.ext hres hexits, ⟨hend.stands.scope, hend.stands.ordered⟩,
      ⟨hend.stands'.scope, hend.stands'.ordered⟩, hend.seen, ?_, hend.loopCount, hend.symbols, hend.le⟩
    have hloops := hend.loops
    exact (congrArg List.tail hloops).trans List.map_tail.symm

end Resolver

end SmallScript
