import SmallScript.Proofs.Related
import SmallScript.Proofs.Resolve.Abreast
import SmallScript.Proofs.Tree.Retype

namespace SmallScript

structure Ty.FadesTo (t t' : Ty) : Prop where
  known : t ≠ .unknown
  eq_or_unknown : t' = t ∨ t' = .unknown

theorem Ty.FadesTo.refl {t : Ty} (h : t ≠ .unknown) : t.FadesTo t := ⟨h, .inl rfl⟩

/-- What is unknown of some functions: types of parameters, by the names of function and parameter, and types
that functions return. Some functions are called, and some give back a value with `return`. -/
structure Losses where
  parameter : String → String → Prop
  returns : String → Prop
  called : String → Prop
  valued : String → Prop

namespace Losses

variable {K : Losses}

/-- What is reported where the type of a parameter is unknown, or where a function for want of its type returns
nothing. -/
inductive Entails (K : Losses) : Cause → Prop
  | argument {f p : String} {t : Ty} (hp : K.parameter f p) (hcalled : K.called f) (ht : t ≠ .unknown) :
    Entails K (.argumentType f p .unknown t)
  | value {f : String} (hf : K.returns f) (hcalled : K.called f) : Entails K .valueMissing
  | returned {f : String} (hf : K.returns f) (hvalued : K.valued f) : Entails K (.voidReturnsValue f)

/-- Some reports tell, in order, that types do not exist; what else they tell follows from losses. -/
inductive Tells (K : Losses) : List Token → List Report → Prop
  | nil : Tells K [] []
  | missing {ts : List Token} {rs : List Report} (t : Token) (h : Tells K ts rs) :
    Tells K (t :: ts) (⟨t.span, .typeMissing t.text⟩ :: rs)
  | entailed {ts : List Token} {rs : List Report} (span : Span) {c : Cause} (hc : K.Entails c) (h : Tells K ts rs) :
    Tells K ts (⟨span, c⟩ :: rs)

theorem Tells.append {ts ts' : List Token} {rs rs' : List Report} (h : K.Tells ts rs) (h' : K.Tells ts' rs') :
    K.Tells (ts ++ ts') (rs ++ rs') := by
  induction h with
  | nil => exact h'
  | missing t _ ih => exact .missing t ih
  | entailed span hc _ ih => exact .entailed span hc ih

/-- Where nothing follows from losses, each type that does not exist is reported, and nothing else. -/
theorem Tells.eq_map {ts : List Token} {rs : List Report} (h : K.Tells ts rs) (hK : ∀ c, ¬ K.Entails c) :
    rs = ts.map fun t ↦ ⟨t.span, .typeMissing t.text⟩ := by
  induction h with
  | nil => rfl
  | missing t _ ih => rw [ih, List.map_cons]
  | entailed _ hc => exact absurd hc (hK _)

theorem Tells.filter_eq_map {ts : List Token} {rs : List Report} (h : K.Tells ts rs) :
    rs.filter (·.cause.code == 2013) = ts.map fun t ↦ ⟨t.span, .typeMissing t.text⟩ := by
  induction h with
  | nil => rfl
  | missing t _ ih => rw [List.filter_cons_of_pos rfl, ih, List.map_cons]
  | entailed _ hc _ ih =>
    rw [List.filter_cons_of_neg, ih]
    cases hc <;> simp [Cause.code]

end Losses

section Relations

variable (K : Losses)

structure Variable.FadesTo (v v' : Variable) : Prop where
  name : v'.name = v.name
  readOnly : v'.readOnly = v.readOnly
  ty : v.ty.FadesTo v'.ty

structure Function.FadesTo (f f' : Function) : Prop where
  name : f'.name = f.name
  parameters : List.Forall₂ (fun v v' : Variable ↦ v.FadesTo v' ∧ (v'.ty = v.ty ∨ K.parameter f.name v.name))
    f.parameters f'.parameters
  known : f.returns ≠ .unknown
  returns : f'.returns = f.returns ∨ f'.returns = .void ∧ K.returns f.name

structure Frame.FadesTo (f f' : Frame) : Prop where
  parent : f'.parent = f.parent
  vars : List.Forall₂ Variable.FadesTo f.vars f'.vars
  functions : List.Forall₂ (Function.FadesTo K) f.functions f'.functions

structure Scopes.FadesTo (s s' : Scopes) : Prop where
  size : s'.frames.size = s.frames.size
  frames : ∀ i : Nat, Option.Rel (Frame.FadesTo K) s.frames[i]? s'.frames[i]?

structure Resolution.FadesTo (r r' : Resolution) : Prop where
  scopes : r.scopes.FadesTo K r'.scopes
  scope : r'.scope = r.scope
  loops : r'.loops = r.loops
  loopCount : r'.loopCount = r.loopCount

end Relations

variable {K : Losses}

namespace Frame.FadesTo

variable {f f' : Frame} (h : f.FadesTo K f') (name : String)
include h

theorem lookupVariable : Option.Rel Variable.FadesTo (f.lookupVariable name) (f'.lookupVariable name) :=
  find?_rel h.vars (fun _ _ hv ↦ by rw [hv.name]) fun _ _ hv _ ↦ hv

theorem lookupFunction : Option.Rel (fun g g' : Function ↦ g.FadesTo K g' ∧ g.name = name)
    (f.lookupFunction name) (f'.lookupFunction name) :=
  find?_rel h.functions (fun _ _ hg ↦ by rw [hg.name]) fun _ _ hg hname ↦ ⟨hg, eq_of_beq hname⟩

omit name

theorem withVariable {v v' : Variable} (hv : v.FadesTo v') : (f.withVariable v).FadesTo K (f'.withVariable v') := by
  have hlookup := h.lookupVariable v.name
  unfold Frame.withVariable
  rw [hv.name]
  generalize f.lookupVariable v.name = o, f'.lookupVariable v.name = o' at hlookup
  cases hlookup with
  | some => exact h
  | none => exact ⟨h.parent, List.rel_append h.vars (.cons hv .nil), h.functions⟩

theorem withFunction {g g' : Function} (hg : g.FadesTo K g') :
    (f.withFunction g).FadesTo K (f'.withFunction g') := by
  have hlookup := h.lookupFunction g.name
  unfold Frame.withFunction
  rw [hg.name]
  generalize f.lookupFunction g.name = o, f'.lookupFunction g.name = o' at hlookup
  cases hlookup with
  | some => exact h
  | none => exact ⟨h.parent, h.vars, List.rel_append h.functions (.cons hg .nil)⟩

end Frame.FadesTo

namespace Scopes.FadesTo

variable {s s' : Scopes}

theorem ofList {fs fs' : List Frame} (h : List.Forall₂ (Frame.FadesTo K) fs fs') :
    (Scopes.ofList fs).FadesTo K (Scopes.ofList fs') where
  size := by simp [Scopes.ofList, h.length_eq]
  frames i := by
    rw [Scopes.frames_ofList, Scopes.frames_ofList]
    exact getElem?_rel h i

variable (h : s.FadesTo K s')
include h

theorem outward (n scope : Nat) : List.Forall₂ (Frame.FadesTo K) (s.outward n scope) (s'.outward n scope) := by
  induction n generalizing scope with
  | zero => exact .nil
  | succ n ih =>
    have hframe := h.frames scope
    unfold Scopes.outward
    generalize s.frames[scope]? = o, s'.frames[scope]? = o' at hframe
    cases hframe with
    | none => exact .nil
    | @some f f' hf =>
      refine .cons hf ?_
      rw [hf.parent]
      cases f.parent with
      | none => exact .nil
      | some p => exact ih p

theorem chain (scope : Nat) : List.Forall₂ (Frame.FadesTo K) (s.chain scope) (s'.chain scope) := by
  rw [Scopes.chain, Scopes.chain, h.size]
  exact h.outward _ _

theorem lookupVariable (scope : Nat) (name : String) :
    Option.Rel Variable.FadesTo (s.lookupVariable scope name) (s'.lookupVariable scope name) :=
  findSome?_rel (h.chain scope) fun _ _ hf ↦ hf.lookupVariable name

theorem lookupFunction (scope : Nat) (name : String) :
    Option.Rel (fun g g' : Function ↦ g.FadesTo K g' ∧ g.name = name) (s.lookupFunction scope name)
      (s'.lookupFunction scope name) :=
  findSome?_rel (h.chain scope) fun _ _ hf ↦ hf.lookupFunction name

theorem push (parent : Nat) : (s.push parent).2.FadesTo K (s'.push parent).2 where
  size := by simp [Scopes.push, h.size]
  frames i := by
    simp only [Scopes.push, Array.getElem?_push, h.size]
    split
    · exact .some ⟨rfl, .nil, .nil⟩
    · exact h.frames i

theorem set {scope : Nat} {f f' : Frame} (hf : f.FadesTo K f') :
    (⟨s.frames.set! scope f⟩ : Scopes).FadesTo K ⟨s'.frames.set! scope f'⟩ where
  size := by simp [h.size]
  frames i := by
    have hframe := h.frames i
    simp only [Array.set!_eq_setIfInBounds, Array.getElem?_setIfInBounds, h.size]
    split
    · split
      · exact .some hf
      · exact .none
    · exact hframe

theorem declareVariable? {v v' : Variable} (hv : v.FadesTo v') (scope : Nat) :
    Option.Rel (Scopes.FadesTo K) (s.declareVariable? scope v) (s'.declareVariable? scope v') := by
  have hframe := h.frames scope
  unfold Scopes.declareVariable?
  generalize s.frames[scope]? = o, s'.frames[scope]? = o' at hframe
  cases hframe with
  | none => exact .none
  | @some f f' hf =>
    have hlookup := hf.lookupVariable v.name
    simp only [hv.name]
    generalize f.lookupVariable v.name = o, f'.lookupVariable v.name = o' at hlookup
    cases hlookup with
    | some => exact .none
    | none => exact .some (h.set ⟨hf.parent, List.rel_append hf.vars (.cons hv .nil), hf.functions⟩)

theorem declareFunction? {g g' : Function} (hg : g.FadesTo K g') (scope : Nat) :
    Option.Rel (Scopes.FadesTo K) (s.declareFunction? scope g) (s'.declareFunction? scope g') := by
  have hframe := h.frames scope
  unfold Scopes.declareFunction?
  generalize s.frames[scope]? = o, s'.frames[scope]? = o' at hframe
  cases hframe with
  | none => exact .none
  | @some f f' hf =>
    have hlookup := hf.lookupFunction g.name
    simp only [hg.name]
    generalize f.lookupFunction g.name = o, f'.lookupFunction g.name = o' at hlookup
    cases hlookup with
    | some => exact .none
    | none => exact .some (h.set ⟨hf.parent, hf.vars, List.rel_append hf.functions (.cons hg .nil)⟩)

end Scopes.FadesTo

namespace Resolver

variable {α β γ δ : Type} {Q : α → β → Prop} {Q' : γ → δ → Prop} {ts ts' : List Token} {m : Resolver α}
  {m' : Resolver β} {f : α → Resolver γ} {f' : β → Resolver δ}

theorem Reporting.grows (h : Reporting m) : Grows Resolution.reports m := h.rises.reports

/-- If the first of two actions reports nothing, the second one tells that the types do not exist which `ts`
names, and what follows from losses; their results have `Q`. -/
structure Fades (K : Losses) (Q : α → β → Prop) (ts : List Token) (m : Resolver α) (m' : Resolver β) : Prop where
  grows : Grows Resolution.reports m
  fade (r r' : Resolution) : r.FadesTo K r' → (m r).2.reports = r.reports →
    Q (m r).1 (m' r').1 ∧ (m r).2.FadesTo K (m' r').2 ∧
      ∃ new, (m' r').2.reports = new.reverse ++ r'.reports ∧ K.Tells ts new

namespace Fades

theorem pure {a : α} {b : β} (h : Q a b) : Fades K Q [] (pure a) (pure b) where
  grows := .pure a
  fade _ _ hr _ := ⟨h, hr, [], rfl, .nil⟩

theorem bind (hm : Fades K Q ts m m') (hgrows : ∀ a, Grows Resolution.reports (f a))
    (hf : ∀ a b, Q a b → Fades K Q' ts' (f a) (f' b)) : Fades K Q' (ts ++ ts') (m >>= f) (m' >>= f') where
  grows := hm.grows.bind hgrows
  fade r r' hr hq := by
    have hquiet := hm.grows.eq_of_bind hgrows hq
    obtain ⟨hQ, hmid, new, hnew, htells⟩ := hm.fade r r' hr hquiet
    obtain ⟨hQ', hend, more, hmore, htells'⟩ := (hf _ _ hQ).fade _ _ hmid (hq.trans hquiet.symm)
    refine ⟨hQ', hend, new ++ more, ?_, htells.append htells'⟩
    change ((f' (m' r').1) (m' r').2).2.reports = _
    rw [hmore, hnew, List.reverse_append, List.append_assoc]

theorem bind_plain (hm : Fades K Q ts m m') (hgrows : ∀ a, Grows Resolution.reports (f a))
    (hf : ∀ a b, Q a b → Fades K Q' [] (f a) (f' b)) : Fades K Q' ts (m >>= f) (m' >>= f') := by
  have h := hm.bind hgrows hf
  rwa [List.append_nil] at h

theorem map {g : α → γ} {g' : β → δ} (hm : Fades K Q ts m m') (h : ∀ a b, Q a b → Q' (g a) (g' b)) :
    Fades K Q' ts (m >>= fun a ↦ Pure.pure (g a)) (m' >>= fun b ↦ Pure.pure (g' b)) :=
  hm.bind_plain (fun _ ↦ .pure _) fun a b hQ ↦ .pure (h a b hQ)

theorem mono {P : α → β → Prop} (hm : Fades K Q ts m m') (h : ∀ a b, Q a b → P a b) : Fades K P ts m m' where
  grows := hm.grows
  fade r r' hr hq := by
    obtain ⟨hQ, hend⟩ := hm.fade r r' hr hq
    exact ⟨h _ _ hQ, hend⟩

theorem map_pure {g : α → γ} {b : δ} (hm : Reporting m) (h : ∀ a, Q' (g a) b) :
    Fades K Q' [] (m >>= fun a ↦ Pure.pure (g a)) (Pure.pure b) where
  grows := hm.grows.bind fun _ ↦ .pure _
  fade r r' hr hq := by
    have hsame : ((m >>= fun a ↦ Pure.pure (g a)) r).2 = r := hm.eq_of_reports hq
    rw [hsame]
    exact ⟨h _, hr, [], rfl, .nil⟩

theorem of_never (hm : Grows Resolution.reports m) (h : ∀ r, (m r).2.reports ≠ r.reports) : Fades K Q ts m m' where
  grows := hm
  fade r _ _ hq := absurd hq (h r)

theorem report {span : Span} {cause : Cause} {n : Unit → Resolver α} (hn : ∀ u, Grows Resolution.reports (n u)) :
    Fades K Q ts (Resolver.report span cause >>= n) m' where
  grows := (Reporting.report span cause).grows.bind hn
  fade r _ _ hq := by
    have hle := (hn () { r with reports := ⟨span, cause⟩ :: r.reports }).length_le
    have hsame : (n () { r with reports := ⟨span, cause⟩ :: r.reports }).2.reports = r.reports := hq
    rw [hsame] at hle
    exact absurd hle (Nat.not_succ_le_self _)

theorem missing (t : Token) {n' : Unit → Resolver β} (h : Fades K Q ts m (n' ())) :
    Fades K Q (t :: ts) m (Resolver.report t.span (.typeMissing t.text) >>= n') where
  grows := h.grows
  fade r r' hr hq := by
    obtain ⟨hQ, hend, new, hnew, htells⟩ :=
      h.fade r { r' with reports := ⟨t.span, .typeMissing t.text⟩ :: r'.reports }
        ⟨hr.scopes, hr.scope, hr.loops, hr.loopCount⟩ hq
    refine ⟨hQ, hend, _, ?_, .missing t htells⟩
    change (n' () { r' with reports := ⟨t.span, .typeMissing t.text⟩ :: r'.reports }).2.reports = _
    rw [hnew, List.reverse_cons, List.append_assoc]
    rfl

theorem entailed {span : Span} {cause : Cause} (hcause : K.Entails cause) {n' : Unit → Resolver β}
    (h : Fades K Q ts m (n' ())) : Fades K Q ts m (Resolver.report span cause >>= n') where
  grows := h.grows
  fade r r' hr hq := by
    obtain ⟨hQ, hend, new, hnew, htells⟩ := h.fade r { r' with reports := ⟨span, cause⟩ :: r'.reports }
      ⟨hr.scopes, hr.scope, hr.loops, hr.loopCount⟩ hq
    refine ⟨hQ, hend, _, ?_, .entailed span hcause htells⟩
    change (n' () { r' with reports := ⟨span, cause⟩ :: r'.reports }).2.reports = _
    rw [hnew, List.reverse_cons, List.append_assoc]
    rfl

theorem ite {c c' : Prop} [Decidable c] [Decidable c'] {n : Resolver α} {n' : Resolver β} (hc : c ↔ c')
    (h : c → Fades K Q ts m m') (h' : ¬ c → Fades K Q ts n n') :
    Fades K Q ts (if c then m else n) (if c' then m' else n') := by
  by_cases hcase : c
  · rw [if_pos hcase, if_pos (hc.mp hcase)]
    exact h hcase
  · rw [if_neg hcase, if_neg fun h ↦ hcase (hc.mpr h)]
    exact h' hcase

theorem map_right {g : β → δ} {P : α → δ → Prop} (hm : Fades K Q ts m m') (h : ∀ a b, Q a b → P a (g b)) :
    Fades K P ts m (m' >>= fun b ↦ Pure.pure (g b)) where
  grows := hm.grows
  fade r r' hr hq := by
    obtain ⟨hQ, hend⟩ := hm.fade r r' hr hq
    exact ⟨h _ _ hQ, hend⟩

theorem bind_unchanged (hgrows : Grows Resolution.reports (m >>= f)) (hm : ∀ r, (m r).2 = r)
    (hm' : ∀ r, (m' r).2 = r) (h : ∀ r r', r.FadesTo K r' → Q (m r).1 (m' r').1)
    (hf : ∀ a b, Q a b → Fades K Q' ts (f a) (f' b)) : Fades K Q' ts (m >>= f) (m' >>= f') where
  grows := hgrows
  fade r r' hr hq := by
    have hstep : (m >>= f) r = f (m r).1 r := congrArg (f (m r).1) (hm r)
    have hstep' : (m' >>= f') r' = f' (m' r').1 r' := congrArg (f' (m' r').1) (hm' r')
    rw [hstep] at hq ⊢
    rw [hstep']
    exact (hf _ _ (h r r' hr)).fade r r' hr hq

end Fades

section Lookup

variable {r r' : Resolution} (hr : r.FadesTo K r') (name : String)
include hr

theorem rel_lookupVariable :
    Option.Rel Variable.FadesTo (lookupVariable name r).1 (lookupVariable name r').1 := by
  change Option.Rel _ (r.scopes.lookupVariable r.scope name) (r'.scopes.lookupVariable r'.scope name)
  rw [hr.scope]
  exact hr.scopes.lookupVariable r.scope name

theorem rel_lookupFunction :
    Option.Rel (fun g g' : Function ↦ g.FadesTo K g' ∧ g.name = name) (lookupFunction name r).1
      (lookupFunction name r').1 := by
  change Option.Rel _ (r.scopes.lookupFunction r.scope name) (r'.scopes.lookupFunction r'.scope name)
  rw [hr.scope]
  exact hr.scopes.lookupFunction r.scope name

end Lookup

theorem grows_freshSymbol : Grows Resolution.reports freshSymbol := .of_log_eq fun _ ↦ rfl

theorem grows_declareVariable (v : Variable) : Grows Resolution.reports (declareVariable v) :=
  .of_log_eq fun r ↦ by rw [declareVariable_snd]

theorem grows_declareFunction (g : Function) : Grows Resolution.reports (declareFunction g) :=
  .of_log_eq fun r ↦ by rw [declareFunction_snd]

theorem fades_freshSymbol : Fades K (fun _ _ ↦ True) [] freshSymbol freshSymbol where
  grows := grows_freshSymbol
  fade _ _ hr _ := ⟨trivial, ⟨hr.scopes, hr.scope, hr.loops, hr.loopCount⟩, [], rfl, .nil⟩

theorem fades_declareVariable {v v' : Variable} (hv : v.FadesTo v') :
    Fades K Eq [] (declareVariable v) (declareVariable v') where
  grows := grows_declareVariable v
  fade r r' hr _ := by
    have hscopes := hr.scopes.declareVariable? hv r.scope
    rw [declareVariable_fst, declareVariable_fst, declareVariable_snd, declareVariable_snd, hr.scope]
    generalize r.scopes.declareVariable? r.scope v = o, r'.scopes.declareVariable? r.scope v' = o' at hscopes
    cases hscopes with
    | some h => exact ⟨rfl, ⟨h, rfl, hr.loops, hr.loopCount⟩, [], rfl, .nil⟩
    | none => exact ⟨rfl, ⟨hr.scopes, rfl, hr.loops, hr.loopCount⟩, [], rfl, .nil⟩

theorem fades_declareFunction {g g' : Function} (hg : g.FadesTo K g') :
    Fades K Eq [] (declareFunction g) (declareFunction g') where
  grows := grows_declareFunction g
  fade r r' hr _ := by
    have hscopes := hr.scopes.declareFunction? hg r.scope
    rw [declareFunction_fst, declareFunction_fst, declareFunction_snd, declareFunction_snd, hr.scope]
    generalize r.scopes.declareFunction? r.scope g = o, r'.scopes.declareFunction? r.scope g' = o' at hscopes
    cases hscopes with
    | some h => exact ⟨rfl, ⟨h, rfl, hr.loops, hr.loopCount⟩, [], rfl, .nil⟩
    | none => exact ⟨rfl, ⟨hr.scopes, rfl, hr.loops, hr.loopCount⟩, [], rfl, .nil⟩

theorem fades_inside (h : Fades K Q ts m m') : Fades K Q ts (inside m) (inside m') where
  grows r := h.grows (enter r).2
  fade r r' hr hq := by
    have henter : (enter r).2.FadesTo K (enter r').2 := by
      refine ⟨?_, hr.scopes.size, hr.loops, hr.loopCount⟩
      change (r.scopes.push r.scope).2.FadesTo K (r'.scopes.push r'.scope).2
      rw [hr.scope]
      exact hr.scopes.push r.scope
    obtain ⟨hQ, hend, new, hnew, htells⟩ := h.fade _ _ henter hq
    exact ⟨hQ, ⟨hend.scopes, hr.scope, hend.loops, hend.loopCount⟩, new, hnew, htells⟩

theorem fades_insideLoop (h : Fades K Q ts m m') :
    Fades K (fun p p' ↦ Q p.1 p'.1 ∧ p'.2 = p.2) ts (insideLoop m) (insideLoop m') where
  grows r := h.grows
    { r with
      loopCount := r.loopCount + 1
      loops := ⟨.breakOf (r.loopCount + 1), .continueOf (r.loopCount + 1)⟩ :: r.loops }
  fade r r' hr hq := by
    obtain ⟨hQ, hend, new, hnew, htells⟩ := h.fade
      { r with
        loopCount := r.loopCount + 1
        loops := ⟨.breakOf (r.loopCount + 1), .continueOf (r.loopCount + 1)⟩ :: r.loops }
      { r' with
        loopCount := r'.loopCount + 1
        loops := ⟨.breakOf (r'.loopCount + 1), .continueOf (r'.loopCount + 1)⟩ :: r'.loops }
      ⟨hr.scopes, hr.scope, by simp only [hr.loops, hr.loopCount], congrArg (· + 1) hr.loopCount⟩ hq
    refine ⟨⟨hQ, ?_⟩, ⟨hend.scopes, hend.scope, congrArg List.tail hend.loops, hend.loopCount⟩, new, hnew, htells⟩
    change (⟨.breakOf (r'.loopCount + 1), .continueOf (r'.loopCount + 1)⟩ : Exits) = _
    rw [hr.loopCount]
    rfl

end Resolver

end SmallScript
