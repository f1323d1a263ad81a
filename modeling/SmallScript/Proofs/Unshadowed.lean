import SmallScript.Proofs.Flow.Translate
import SmallScript.Proofs.Resolve.Fresh
import SmallScript.Proofs.Resolve.Mirrors
import SmallScript.Proofs.Typing.Soundness

namespace SmallScript

open Code (Body Expression Statement Rules Renaming renameAll AllOf)

namespace Code

variable {R : Rules} {V : Variable → Prop} {F : Function → Prop}

theorem Statement.WellTyped.uses {owner : Option Function} {D : Variable → Prop} {s : Statement}
    (hflat : s.isFlat) (hs : s.WellTyped R owner) {P : Expression → Prop} (hD : s.Of D P)
    (h : s.Of V (·.Uses True V F)) : s.Of D (·.Uses False V F) := by
  cases s with
  | declare v e => exact ⟨hD.1, Expression.WellTyped.uses e hs.2.1 h.2⟩
  | label l => trivial
  | goto l => trivial
  | gotoIf l e negated => exact Expression.WellTyped.uses e hs.1 h
  | leave e =>
    intro c hc
    cases owner with
    | none => exact hs.elim
    | some f =>
      obtain rfl : e = some c := hc
      exact Expression.WellTyped.uses c hs.2.1 (h c rfl)
  | expression e => exact Expression.WellTyped.uses e hs h
  | _ => nomatch hflat

/-- Whether a body becomes another under other numbers for its locals and other labels. -/
def Body.RenamesTo (b b' : Body) : Prop := ∃ φ : Renaming, b' = renameAll φ b

/-- Whether a body uses no global and calls no function whose name a layer declares. -/
structure Body.Unshadowed (layer : Layer) (b : Body) : Prop where
  globals : ∀ s ∈ b, ∀ v ∈ s.vars, v.kind = .global → ∀ w ∈ layer.vars, w.name ≠ v.name
  calls : ∀ s ∈ b, ∀ f ∈ s.functions, ∀ t ∈ layer.functions, t.function.name ≠ f.name

end Code

namespace FunctionText

variable {t : FunctionText} {layers : Layers} {layer : Layer} {n k k' : Nat}

theorem body_body (t : FunctionText) (layers : Layers) (n : Nat) : (t.body layers n).body =
    (Code.flattenBody (t.resolved layers n).1 (t.resolved layers n).2.nextSymbol).1 := rfl

theorem reports_body (t : FunctionText) (layers : Layers) (n : Nat) : (t.body layers n).reports =
    (t.resolved layers n).2.reports.reverse ++
      if t.function.returns ≠ .void ∧ !Flow.alwaysReturns (t.body layers n).body then
        [⟨t.text.identifier.span, .pathWithoutReturn⟩]
      else [] := rfl

theorem located_body (ht : ∀ v ∈ t.function.parameters, v.kind = .parameter) :
    AllOf (·.kind ≠ .global) (layers.locals t.function n).Uses (t.body layers n).body := by
  have hcounts : Code.Counts (·.kind ≠ .global) (layers.locals t.function n).Uses :=
    Code.counts_uses fun v hv ↦ .inl ⟨0, hv⟩
  exact (Code.allOf_flattenBody hcounts _ _).mpr (t.located_resolved layers n ht).2

theorem isFlat_body {s : Statement} (hs : s ∈ (t.body layers n).body) : s.isFlat :=
  List.all_eq_true.mp (Code.flattenAll_isFlat _ _) s hs

/-- What a body uses that it does not declare is what the name stands for outside. -/
theorem sees_of_mem_body (ht : ∀ v ∈ t.function.parameters, v.kind = .parameter) {s : Statement}
    (hs : s ∈ (t.body layers n).body) :
    (∀ v ∈ s.vars, v.kind = .global →
      layers.frames.reverse.findSome? (·.lookupVariable v.name) = some v) ∧
    ∀ f ∈ s.functions, layers.frames.reverse.findSome? (·.lookupFunction f.name) = some f := by
  have hof := Code.allOf_iff.mp (located_body ht) s hs
  have hmention : s.Of (layers.locals t.function n).Sees (layers.locals t.function n).Uses :=
    Statement.Of.mono (fun v hv ↦ .inl ⟨0, hv⟩) (fun _ h ↦ h) s hof
  obtain ⟨hv, hf⟩ := (Code.Statement.of_iff (isFlat_body hs)).mp hmention
  constructor
  · intro v hmem hglobal
    rcases hv v hmem with ⟨_, hlocal⟩ | hseen
    · exact absurd hglobal hlocal
    · exact hseen
  · intro f hmem
    rcases hf f hmem with hnone | hseen
    · exact hnone.elim
    · exact hseen

theorem frame_move {φ : Renaming} (ht : ∀ v ∈ t.function.parameters, v.kind = .parameter)
    (parent : Nat) : (t.frame parent).move φ.var = t.frame (parent + 1) := by
  have hfold (vs : List Variable) (hvs : ∀ v ∈ vs, φ.var v = v) (f : Frame) :
      (vs.foldl Frame.withVariable f).move φ.var = vs.foldl Frame.withVariable (f.move φ.var) := by
    induction vs generalizing f with
    | nil => rfl
    | cons v vs ih =>
      obtain ⟨hv, hvs⟩ := List.forall_mem_cons.mp hvs
      rw [List.foldl_cons, List.foldl_cons, ih hvs, ← Frame.withVariable_move φ.name_var, hv]
  refine hfold _ (fun v hv ↦ φ.var_of_ne_local ?_) _
  rw [ht v hv]
  nofun

end FunctionText

def Layers.insertion (layers : Layers) (layer : Layer)
    (h : ∀ l ∈ layers, ∀ v ∈ l.vars, v.kind = .global) (later : Nat) : Resolver.Insertion where
  outer := layers.frames
  linear := layers.linear_frames
  ne_nil := layers.frames_ne_nil
  global f hf v hv := by
    obtain ⟨l, hl, hv⟩ := (mem_frames hf).1 v hv
    exact h l hl v hv
  between := layer.frame (layers.frames.length - 1)
  parent := Layer.parent_frame _ _
  later := later

namespace Layers

variable {layers : Layers} {layer : Layer} {n m m' : Nat}

theorem of_findSome?_cons {α : Type} {look : Frame → Option α} {a : α}
    (h : (frames (layer :: layers)).reverse.findSome? look = some a)
    (hlook : (look (layer.frame (layers.frames.length - 1))).isSome) :
    look (layer.frame (layers.frames.length - 1)) = some a := by
  obtain ⟨a', ha⟩ := Option.isSome_iff_exists.mp hlook
  rw [frames, List.reverse_concat, List.findSome?_cons, ha] at h
  exact ha.trans h

theorem not_mem_vars_of_seen (hlayers : ∀ l ∈ layers, l.Numbered 0 m) (hlayer : layer.Numbered n m')
    (hmn : m ≤ n) {v : Variable} {name : String}
    (h : layers.frames.reverse.findSome? (·.lookupVariable name) = some v) : v ∉ layer.vars := by
  intro hv
  obtain ⟨f, hf, hfind⟩ := List.exists_of_findSome?_eq_some h
  obtain ⟨l, hl, hvl⟩ := (mem_frames (List.mem_reverse.mp hf)).1 v (List.mem_of_find?_eq_some hfind)
  have hle := (hlayer.vars v hv).2.1
  have hlt := ((hlayers l hl).vars v hvl).2.2
  omega

theorem ne_function_of_seen (hlayers : ∀ l ∈ layers, l.Numbered 0 m) (hlayer : layer.Numbered n m')
    (hmn : m ≤ n) {f : Function} {name : String}
    (h : layers.frames.reverse.findSome? (·.lookupFunction name) = some f) :
    ∀ t ∈ layer.functions, t.function ≠ f := by
  rintro t ht rfl
  obtain ⟨-, id, hid, hle, -⟩ := hlayer.functions t ht
  obtain ⟨fr, hfr, hfind⟩ := List.exists_of_findSome?_eq_some h
  rcases (mem_frames (List.mem_reverse.mp hfr)).2 _ (List.mem_of_find?_eq_some hfind) with
    ⟨b, hb⟩ | ⟨l, hl, t', ht', hsame⟩
  · rw [hb] at hid
    cases b <;> nomatch hid
  · obtain ⟨-, id', hid', -, hlt⟩ := (hlayers l hl).functions t' ht'
    rw [hsame, hid'] at hid
    have hids : id' = id := Function.Origin.declared.inj hid
    omega

end Layers

namespace FunctionText

variable {t : FunctionText} {layers : Layers} {layer : Layer} {n m m' k k' : Nat}

theorem beside_start (ht : ∀ v ∈ t.function.parameters, v.kind = .parameter)
    (h : ∀ l ∈ layers, ∀ v ∈ l.vars, v.kind = .global) (hk : k ≤ k') :
    (layers.insertion layer h (k' - k)).Beside 0 (t.start layers k) (t.start (layer :: layers) k') := by
  have hpos : 0 < layers.frames.length := List.length_pos_iff.mpr layers.frames_ne_nil
  have hframes : Layers.frames (layer :: layers) =
      layers.frames ++ [layer.frame (layers.frames.length - 1)] := rfl
  rw [start_eq, start_eq]
  refine ⟨[t.frame (layers.frames.length - 1)], rfl, layers.nested_singleton (t.parent_frame _),
    fun f hf ↦ ?_, Nat.le_refl _, Nat.lt_succ_self _, Nat.zero_le _, ?_⟩
  · obtain rfl := List.mem_singleton.mp hf
    exact t.functions_frame _
  · have hnumber : k + (k' - k) = k' := by omega
    have hparent : layers.frames.length - 1 + 1 = layers.frames.length := by omega
    simp [Layers.insertion, hframes, frame_move ht, hnumber, hparent]

theorem clear_resolved (h : layers.Sound) (ht : t.Sound)
    (hps : ∀ v ∈ t.function.parameters, v.kind = .parameter) {S : Resolver.Insertion}
    (hS : S.between = layer.frame (layers.frames.length - 1))
    (hquiet : (t.body layers k).reports = []) (hu : (t.body layers k).body.Unshadowed layer) :
    AllOf (·.kind ≠ .global) S.Clear (t.resolved layers k).1 := by
  have hcounts : Code.Counts (·.kind ≠ .global) S.Clear :=
    Code.counts_uses fun v hv hg ↦ absurd hg hv
  refine (Code.allOf_flattenBody hcounts _ (t.resolved layers k).2.nextSymbol).mp
    (Code.allOf_iff.mpr fun s hs ↦ ?_)
  have htyped := Code.allTyped_iff.mp (h.body ht hquiet).typed s hs
  have hlocated := Code.allOf_iff.mp (located_body hps) s hs
  refine Code.Statement.WellTyped.uses (isFlat_body hs) htyped hlocated
    ((Code.Statement.of_iff (isFlat_body hs)).mpr ⟨fun v hv hg ↦ ?_, fun f hf ↦ ?_⟩)
  · rw [hS, ← Option.not_isSome_iff_eq_none, Layer.isSome_lookupVariable_frame]
    rintro ⟨w, hw, hname⟩
    exact hu.globals s hs v hv hg w hw hname
  · change S.between.lookupFunction f.name = none
    rw [hS, ← Option.not_isSome_iff_eq_none, Layer.isSome_lookupFunction_frame]
    rintro ⟨t', ht', hname⟩
    exact hu.calls s hs f hf t' ht' hname

theorem body_cons (h : layers.Sound) (ht : t.Sound)
    (hps : ∀ v ∈ t.function.parameters, v.kind = .parameter)
    (hglobal : ∀ l ∈ layers, ∀ v ∈ l.vars, v.kind = .global)
    (hquiet : (t.body layers k).reports = []) (hu : (t.body layers k).body.Unshadowed layer)
    (hk : k ≤ k') :
    (t.body (layer :: layers) k').reports = [] ∧
      (t.body (layer :: layers) k').body =
        renameAll (.shift (k' - k)) (t.body layers k).body := by
  generalize hS : layers.insertion layer hglobal (k' - k) = S
  have hclear := clear_resolved h ht hps (S := S) (hS ▸ rfl) hquiet hu
  have hlater : S.later = k' - k := hS ▸ rfl
  rw [reports_body] at hquiet
  have hresolved := List.reverse_eq_nil_iff.mp (List.append_eq_nil_iff.mp hquiet).1
  have hbeside : S.Beside 0 (t.start layers k) (t.start (layer :: layers) k') :=
    hS ▸ beside_start hps hglobal hk
  have hstart : (t.start layers k).reports = [] := by rw [start_eq]
  obtain ⟨hval, hend⟩ := (Resolver.mirrors_inside
    (Resolver.mirrors_statements t.function t.text.body.statements)).follow _ _ hbeside
      (hresolved.trans hstart.symm) hclear
  change (t.resolved (layer :: layers) k').1 = renameAll S.shift (t.resolved layers k).1 at hval
  change S.Beside 0 (t.resolved layers k).2 (t.resolved (layer :: layers) k').2 at hend
  obtain ⟨inner, -, -, -, -, -, -, hend⟩ := hend
  have hbody : (t.body (layer :: layers) k').body = renameAll S.shift (t.body layers k).body := by
    rw [body_body, hval, hend]
    exact congrArg Prod.fst (Code.flattenBody_shift S.later hclear _)
  refine ⟨?_, hlater ▸ hbody⟩
  rw [reports_body, hbody, hend, Flow.alwaysReturns_rename fun _ ↦ rfl]
  exact hquiet

theorem unshadowed_of_renamesTo (hps : ∀ v ∈ t.function.parameters, v.kind = .parameter)
    (hlayers : ∀ l ∈ layers, l.Numbered 0 m) (hlayer : layer.Numbered n m') (hmn : m ≤ n)
    (hr : (t.body layers k).body.RenamesTo (t.body (layer :: layers) k').body) :
    (t.body layers k).body.Unshadowed layer := by
  obtain ⟨φ, hφ⟩ := hr
  have hmem {s : Statement} (hs : s ∈ (t.body layers k).body) :
      s.rename φ ∈ (t.body (layer :: layers) k').body := by
    rw [hφ, Code.renameAll_eq_map]
    exact List.mem_map_of_mem hs
  constructor
  · intro s hs v hv hg w hw hname
    have hfix : φ.var v = v := φ.var_of_ne_local (by rw [hg]; nofun)
    have hv' : v ∈ (s.rename φ).vars := by
      rw [Code.Statement.vars_rename, ← hfix]
      exact List.mem_map_of_mem hv
    have hold := (sees_of_mem_body hps hs).1 v hv hg
    have hnew := (sees_of_mem_body hps (hmem hs)).1 v hv' hg
    have hfound : (layer.frame (layers.frames.length - 1)).lookupVariable v.name = some v :=
      Layers.of_findSome?_cons hnew ((Layer.isSome_lookupVariable_frame _).mpr ⟨w, hw, hname⟩)
    exact Layers.not_mem_vars_of_seen hlayers hlayer hmn hold
      (Layer.mem_vars_frame (List.mem_of_find?_eq_some hfound))
  · intro s hs f hf t' ht' hname
    have hf' : f ∈ (s.rename φ).functions := by
      rw [Code.Statement.functions_rename]
      exact hf
    have hold := (sees_of_mem_body hps hs).2 f hf
    have hnew := (sees_of_mem_body hps (hmem hs)).2 f hf'
    have hfound : (layer.frame (layers.frames.length - 1)).lookupFunction f.name = some f :=
      Layers.of_findSome?_cons hnew ((Layer.isSome_lookupFunction_frame _).mpr ⟨t', ht', hname⟩)
    obtain ⟨t₁, ht₁, rfl⟩ := Layer.mem_functions_frame (List.mem_of_find?_eq_some hfound)
    exact Layers.ne_function_of_seen hlayers hlayer hmn hold t₁ ht₁ rfl

end FunctionText

end SmallScript
