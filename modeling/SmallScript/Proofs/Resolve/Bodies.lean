import SmallScript.Proofs.Flow.Translate
import SmallScript.Proofs.Resolve.Fresh
import SmallScript.Proofs.Resolve.Heads

namespace SmallScript

open Code (translateAll)

/-- Layers behind which all names stand for what they stand for behind others, under other numbers. -/
structure Layers.Covers (φ : Renumbering) (layers layers' : Layers) : Prop where
  vars : ∀ name v, layers.vars.find? (·.name == name) = some v →
    layers'.vars.find? (·.name == name) = some (φ.var v)
  callables : ∀ name f, layers.callables.find? (·.name == name) = some f →
    layers'.callables.find? (·.name == name) = some (φ.func f)

variable {φ : Renumbering} {layers layers' : Layers} {t t' : FunctionText}

theorem Frame.vars_foldl_map {f f' : Frame} (h : f'.vars = f.vars.map φ.var) (vs : List Variable) :
    ((vs.map φ.var).foldl withVariable f').vars = (vs.foldl withVariable f).vars.map φ.var := by
  induction vs generalizing f f' with
  | nil => exact h
  | cons v vs ih =>
    rw [List.map_cons, List.foldl_cons, List.foldl_cons]
    refine ih ?_
    have hlookup : f'.lookupVariable (φ.var v).name = (f.lookupVariable v.name).map φ.var := by
      rw [lookupVariable, h, List.find?_map]
      rfl
    unfold withVariable
    rw [hlookup, Option.isSome_map]
    split
    · exact h
    · simp [h]

namespace Layers.Covers

variable (h : layers.Covers φ layers') (ht : t.Moved φ t') (n n' : Nat)
include h ht

theorem fits_start : Fits φ [] (t.start layers n).seen (t'.start layers' n').seen := by
  have hparameters : t'.function.parameters = t.function.parameters.map φ.var := by rw [ht.function]; rfl
  have hvars : (t'.frame (layers'.frames.length - 1)).vars =
      (t.frame (layers.frames.length - 1)).vars.map φ.var := by
    rw [FunctionText.frame, hparameters]
    exact Frame.vars_foldl_map rfl _
  have hlookup (name : String) : (t'.frame (layers'.frames.length - 1)).lookupVariable name =
      ((t.frame (layers.frames.length - 1)).lookupVariable name).map φ.var := by
    rw [Frame.lookupVariable, hvars, List.find?_map]
    rfl
  rw [FunctionText.seen_start, FunctionText.seen_start]
  refine ⟨fun name v hv ↦ ?_, fun name f hf ↦ ?_, _, _, _, _, rfl, rfl, hvars⟩
  · rw [List.findSome?_cons, findSome?_lookupVariable] at hv ⊢
    rw [hlookup]
    cases hfound : (t.frame (layers.frames.length - 1)).lookupVariable name with
    | some w =>
      rw [hfound] at hv
      obtain rfl : w = v := Option.some.inj hv
      rfl
    | none =>
      rw [hfound] at hv
      exact h.vars name v hv
  · rw [List.findSome?_cons, findSome?_lookupFunction, Frame.lookupFunction, FunctionText.functions_frame] at hf ⊢
    exact h.callables name f hf

variable {n n'} {first first' limit : Nat}

/-- The statements of a function on which nothing is reported are resolved elsewhere to the same code. -/
theorem resolved_moved (hslide : Slides (φ.number .local) first first' limit) (hle : first ≤ n)
    (hn : n' + first = n + first') (hquiet : (t.resolved layers n).2.reports = [])
    (hlimit : (t.resolved layers n).2.nextSymbol ≤ limit) :
    (t'.resolved layers' n').2.reports = [] ∧
      (t'.resolved layers' n').1 = translateAll (φ.translation .zero) (t.resolved layers n).1 ∧
      (t'.resolved layers' n').2.nextSymbol + first = (t.resolved layers n).2.nextSymbol + first' ∧
      first ≤ (t.resolved layers n).2.nextSymbol := by
  let C : Course := ⟨φ, .zero, first, first', limit⟩
  have habreast : C.Abreast (Fits φ []) (t.start layers n) (t'.start layers' n') := by
    refine ⟨t.stands_start layers n, t'.stands_start layers' n', h.fits_start ht n n', ?_, ?_, ?_, ?_⟩ <;>
      simp only [FunctionText.start_eq]
    · rfl
    · rfl
    · exact hn
    · exact hle
  have howner : some t'.function = (some t.function).map φ.func := by rw [ht.function]; rfl
  have hlocal : C.Takes (C.numbers.number (Resolver.declaredKind (some t.function))) := hslide
  have hstatements : Resolver.FollowsWith C (Fits φ []) (translateAll C.translation)
      (Resolver.statements (some t.function) t.text.body.statements)
      (Resolver.statements (some t'.function) t'.text.body.statements) := by
    rw [howner]
    exact Resolver.follows_statements hlocal _ _ ht.text.body (List.forall_mem_nil _)
  have hfollows : Resolver.FollowsWith C (Fits φ []) _ _ _ := Resolver.follows_inside hstatements
    (Resolver.stacked_statements (E := fun _ ↦ True) _ _ fun _ _ ↦ trivial)
    (Resolver.stacked_statements (E := fun _ ↦ True) _ _ fun _ _ ↦ trivial)
  have hstart (t : FunctionText) (layers : Layers) (n : Nat) : (t.start layers n).reports = [] := by
    rw [FunctionText.start_eq]
  obtain ⟨hreports, hcode, hend⟩ := hfollows.follow _ _ habreast (hquiet.trans (hstart t layers n).symm) hlimit
  exact ⟨hreports.trans (hstart t' layers' n'), hcode, hend.symbols, hend.le⟩

/-- The body of a function on which nothing is reported is the same elsewhere, but for its numbers. -/
theorem body_moved (hparameters : ∀ v ∈ t.function.parameters, v.kind = .parameter)
    (hslide : Slides (φ.number .local) first first' limit) (hle : first ≤ n) (hn : n' + first = n + first')
    (hquiet : (t.body layers n).reports = []) (hlimit : (t.body layers n).nextSymbol ≤ limit) :
    (t'.body layers' n').reports = [] ∧
      (t'.body layers' n').body = translateAll (φ.translation .zero) (t.body layers n).body ∧
      (t'.body layers' n').nextSymbol + first = (t.body layers n).nextSymbol + first' := by
  rw [FunctionText.body_eq] at hquiet hlimit ⊢
  rw [FunctionText.body_eq]
  obtain ⟨hreports, hmissing⟩ := List.append_eq_nil_iff.mp hquiet
  obtain ⟨-, hlocal⟩ := t.located_resolved layers n hparameters
  have hnext := Code.nextSymbol_le_flattenBody (t.resolved layers n).1 (t.resolved layers n).2.nextSymbol
  obtain ⟨hreports', hcode, hsymbols, hfirst⟩ := h.resolved_moved ht hslide hle hn
    (List.reverse_eq_nil_iff.mp hreports) (Nat.le_trans hnext hlimit)
  have hkinds (v : Variable) (hv : v.kind ≠ .global) :
      Slides (φ.number (if v.kind = .global then .global else .local)) first first' limit := by
    rw [if_neg hv]
    exact hslide
  have hsupply : Code.Supply.Later .zero first first' ⟨0, (t.resolved layers n).2.nextSymbol⟩
      ⟨0, (t'.resolved layers' n').2.nextSymbol⟩ := ⟨rfl, hsymbols, hfirst⟩
  obtain ⟨hflat, hend⟩ := Code.flattenAll_renumber hkinds _ hsupply hlocal hlimit
  have hbody : (Code.flattenBody (t'.resolved layers' n').1 (t'.resolved layers' n').2.nextSymbol).1 =
      translateAll (φ.translation .zero)
        (Code.flattenBody (t.resolved layers n).1 (t.resolved layers n).2.nextSymbol).1 := by
    rw [hcode]
    exact hflat
  have hreturns := Flow.alwaysReturns_translate (T := φ.translation .zero) Offsets.label_zero
    (Code.flattenBody (t.resolved layers n).1 (t.resolved layers n).2.nextSymbol).1
  refine ⟨?_, hbody, ?_⟩
  · rw [hreports', hbody, hreturns, show t'.function.returns = t.function.returns by rw [ht.function]; rfl]
    refine List.append_eq_nil_iff.mpr ⟨rfl, ?_⟩
    split at hmissing
    · nomatch hmissing
    · next hnot => rw [if_neg hnot]
  · rw [hcode]
    exact hend.symbols

end Layers.Covers

namespace Program

theorem functionBodies_cons (layers : Layers) (n : Nat) (t : FunctionText) (ts : List FunctionText) :
    functionBodies layers n (t :: ts) =
      ((t.function, (t.body layers n).body) :: (functionBodies layers (t.body layers n).nextSymbol ts).1,
        (t.body layers n).reports ++ (functionBodies layers (t.body layers n).nextSymbol ts).2.1,
        (functionBodies layers (t.body layers n).nextSymbol ts).2.2) := rfl

theorem functionBodies_append (layers : Layers) (n : Nat) (ts ts' : List FunctionText) :
    functionBodies layers n (ts ++ ts') =
      ((functionBodies layers n ts).1 ++ (functionBodies layers (functionBodies layers n ts).2.2 ts').1,
        (functionBodies layers n ts).2.1 ++ (functionBodies layers (functionBodies layers n ts).2.2 ts').2.1,
        (functionBodies layers (functionBodies layers n ts).2.2 ts').2.2) := by
  induction ts generalizing n with
  | nil => rfl
  | cons t ts ih =>
    rw [List.cons_append, functionBodies_cons, ih, functionBodies_cons]
    simp

theorem le_functionBodies (layers : Layers) (n : Nat) {ts : List FunctionText}
    (hparameters : ∀ t ∈ ts, ∀ v ∈ t.function.parameters, v.kind = .parameter) :
    n ≤ (functionBodies layers n ts).2.2 := by
  induction ts generalizing n with
  | nil => exact Nat.le_refl n
  | cons t ts ih =>
    obtain ⟨ht, hts⟩ := List.forall_mem_cons.mp hparameters
    exact Nat.le_trans (FunctionText.nextSymbol_body layers n ht) (ih _ hts)

/-- The bodies of functions on which nothing is reported are the same elsewhere, but for their numbers. -/
theorem functionBodies_moved (h : layers.Covers φ layers') {ts ts' : List FunctionText}
    (hts : List.Forall₂ (FunctionText.Moved φ) ts ts')
    (hparameters : ∀ t ∈ ts, ∀ v ∈ t.function.parameters, v.kind = .parameter) {n n' first first' limit : Nat}
    (hslide : Slides (φ.number .local) first first' limit) (hle : first ≤ n) (hn : n' + first = n + first')
    (hquiet : (functionBodies layers n ts).2.1 = []) (hlimit : (functionBodies layers n ts).2.2 ≤ limit) :
    (functionBodies layers' n' ts').2.1 = [] ∧
      (functionBodies layers' n' ts').1 =
        (functionBodies layers n ts).1.map (Prod.map φ.func (translateAll (φ.translation .zero))) ∧
      (functionBodies layers' n' ts').2.2 + first = (functionBodies layers n ts).2.2 + first' := by
  induction hts generalizing n n' with
  | nil => exact ⟨rfl, rfl, hn⟩
  | @cons t t' ts ts' ht _ ih =>
    obtain ⟨hkinds, hrest⟩ := List.forall_mem_cons.mp hparameters
    rw [functionBodies_cons] at hquiet hlimit ⊢
    rw [functionBodies_cons]
    obtain ⟨hfirst, hlater⟩ := List.append_eq_nil_iff.mp hquiet
    have hmore := le_functionBodies layers (t.body layers n).nextSymbol hrest
    have hstart := FunctionText.nextSymbol_body layers n hkinds
    obtain ⟨hreports, hbody, hnext⟩ := h.body_moved ht hkinds hslide hle hn hfirst (Nat.le_trans hmore hlimit)
    obtain ⟨hreports', hbodies, hend⟩ := ih hrest (Nat.le_trans hle hstart) hnext hlater hlimit
    refine ⟨List.append_eq_nil_iff.mpr ⟨hreports, hreports'⟩, ?_, hend⟩
    rw [hbody, hbodies, ht.function]
    rfl

end Program

end SmallScript
