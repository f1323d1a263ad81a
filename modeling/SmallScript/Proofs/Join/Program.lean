import SmallScript.Proofs.Closed
import SmallScript.Proofs.Join.Layers

namespace SmallScript

open Code (Body Statement translateAll AllOf flattenAll)

/-- One program has the bodies of two, and their statements one behind the other, but for the numbers. -/
structure Program.Linked (φ φ' : Renumbering) (x : Offsets) (p p' joint : Program) : Prop where
  main : joint.main = translateAll (φ.translation .zero) p.main ++ translateAll (φ'.translation x) p'.main
  body : ∀ f, joint.body? (φ.func f) = (p.body? f).map (translateAll (φ.translation .zero))
  body' : ∀ f, joint.body? (φ'.func f) = (p'.body? f).map (translateAll (φ'.translation .zero))
  reports : joint.reports = []

theorem Code.flattenAll_append (ss ss' : List Statement) (u : Supply) :
    flattenAll (ss ++ ss') u =
      ((flattenAll ss u).1 ++ (flattenAll ss' (flattenAll ss u).2).1, (flattenAll ss' (flattenAll ss u).2).2) := by
  induction ss generalizing u with
  | nil => rfl
  | cons s rest ih =>
    rw [List.cons_append, flattenAll_cons, ih, flattenAll_cons]
    simp

def Label.Between (x y : Offsets) : Label → Prop
  | .breakOf n | .continueOf n => x.loop < n ∧ n ≤ y.loop
  | .made n => x.made < n ∧ n ≤ y.made
  | .given _ _ => False

theorem Label.Between.label_ne {x y : Offsets} {l l' : Label} (h : l.Between .zero y) (h' : l'.Between .zero x) :
    x.label l ≠ l' := by
  intro heq
  cases l with
  | given => exact h
  | breakOf n | continueOf n | made n =>
    subst heq
    obtain ⟨hpos, -⟩ := h
    obtain ⟨-, hle⟩ := h'
    have hzero : 0 < n := hpos
    omega

theorem Code.between_of_mem_labels {k : Nat} {ss : List Statement} (h : Looped 0 k (nodesAll ss)) (m : Nat) {l : Label}
    (hl : l ∈ (flattenBody ss m).1.labels) : l.Between .zero ⟨(flattenAll ss ⟨0, m⟩).2.labels, k⟩ := by
  rcases isTarget_of_mem_labels h m hl with hexit | ⟨i, rfl⟩
  · obtain ⟨i, hlo, hhi, rfl | rfl⟩ := h.numbered l hexit <;> exact ⟨hlo, hhi⟩
  · have hcount := count_flattenAll (.made i) ss ⟨0, m⟩
    have hpos : 0 < (flattenAll ss ⟨0, m⟩).1.labels.count (.made i) := List.count_pos_iff.mpr hl
    have hexits : (exitsOf (nodesAll ss)).count (.made i) = 0 :=
      List.count_eq_zero.mpr ((distinct_of_looped h).made i).1
    rw [h.labels, hexits, List.count_nil] at hcount
    simp only [madeCount] at hcount
    constructor
    · change 0 < i
      by_contra hzero
      rw [if_pos (by omega)] at hcount
      split at hcount <;> omega
    · by_contra hlater
      rw [if_neg hlater] at hcount
      omega

namespace Join

section Lookup

variable {φ : Renumbering} {T : Body → Body} {l l' : List (Function × Body)}

theorem lookup_map (f : Function) : (l.map (Prod.map φ.func T)).lookup (φ.func f) = (l.lookup f).map T := by
  induction l with
  | nil => rfl
  | cons p l ih =>
    have hkey : (φ.func f == φ.func p.1) = (f == p.1) := by
      rw [Bool.eq_iff_iff, beq_iff_eq, beq_iff_eq]
      exact ⟨φ.func_injective, congrArg φ.func⟩
    rw [List.map_cons, Prod.map, List.lookup_cons, List.lookup_cons, ih, hkey]
    cases f == p.1 <;> rfl

theorem lookup_swap (h : ∀ p ∈ l, ∀ q ∈ l', p.1 ≠ q.1) (f : Function) : (l ++ l').lookup f = (l' ++ l).lookup f := by
  rw [List.lookup_append, List.lookup_append]
  cases hl : l.lookup f with
  | none => rw [Option.none_or, Option.or_none]
  | some b =>
    cases hl' : l'.lookup f with
    | none => rfl
    | some b' =>
      obtain ⟨before, after, heq, -⟩ := List.lookup_eq_some_iff.mp hl
      obtain ⟨before', after', heq', -⟩ := List.lookup_eq_some_iff.mp hl'
      exact absurd rfl (h (f, b) (heq ▸ by simp) (f, b') (heq' ▸ by simp))

end Lookup

section Covers

variable {s₁ s₂ s : Tree.Source} {φ φ' : Renumbering} {x : Offsets} {joint : Layer}

theorem covers_first (h : s₁.Joins s₂ s) (hjoint : Joint φ φ' x (first s₁) (second s₁ s₂) joint) :
    Layers.Covers φ [first s₁] [joint] := by
  obtain ⟨ts, ts', hfunctions, hts, hts'⟩ := hjoint.functions
  have hvars (layer : Layer) : Layers.vars [layer] = layer.vars := List.flatMap_singleton _ _
  constructor
  · intro name v hv
    rw [hvars] at hv ⊢
    rw [hjoint.vars, List.find?_append, find?_vars_map, hv]
    rfl
  · intro name f hf
    rw [callables_first] at hf ⊢
    rw [hfunctions, List.map_append, functions_moved hts]
    refine find?_callable (fun g hg b ↦ ?_) hf
    obtain ⟨t, ht, rfl⟩ := mem_of_moved hts' hg
    exact builtins_apart h _ (List.mem_map_of_mem ht) b

theorem covers_second (h : s₁.Joins s₂ s) (hJ : (marks s₁ s₂).Joins φ φ')
    (hjoint : Joint φ φ' x (first s₁) (second s₁ s₂) joint) :
    Layers.Covers φ' [second s₁ s₂, first s₁] [joint] := by
  obtain ⟨ts, ts', hfunctions, hts, hts'⟩ := hjoint.functions
  have hvars : Layers.vars [joint] = (first s₁).vars.map φ'.var ++ (second s₁ s₂).vars.map φ'.var := by
    have hfirst : (first s₁).vars.map φ'.var = (first s₁).vars.map φ.var :=
      List.map_congr_left fun v hv ↦ var_global hJ ((Layer.numbered_ofSource _ _ _).2.vars v hv).1
    rw [hfirst, ← hjoint.vars]
    exact List.flatMap_singleton _ _
  constructor
  · intro name v hv
    rw [hvars]
    refine find?_swap (vars_apart h) ?_
    simpa [Layers.vars] using hv
  · intro name f hf
    rw [callables_second] at hf
    rw [callables_first, hfunctions, List.map_append, functions_moved (moved_first hJ hts), functions_moved hts']
    exact find?_swap_callable (functions_apart h) (builtins_apart h) hf

end Covers

section Bodies

variable {s₁ s₂ s : Tree.Source} {φ φ' : Renumbering} {x : Offsets} {joint : Layer}

/-- The functions of the first text, the functions of the second text, and those of the first text behind it. -/
def bodies (s₁ : Tree.Source) : List (Function × Body) × List Report × Nat :=
  Program.functionBodies [first s₁] (Layer.ofSource [] s₁ Builtin.firstFree).2 (first s₁).functions

def ownBodies (s₁ s₂ : Tree.Source) : List (Function × Body) × List Report × Nat :=
  Program.functionBodies [second s₁ s₂, first s₁] (Layer.ofSource [first s₁] s₂ (finish s₁)).2 (second s₁ s₂).functions

def bodiesAgain (s₁ s₂ : Tree.Source) : List (Function × Body) × List Report × Nat :=
  Program.functionBodies [second s₁ s₂, first s₁] (ownBodies s₁ s₂).2.2 (first s₁).functions

theorem bodies_second : Program.functionBodies [second s₁ s₂, first s₁] (Layer.ofSource [first s₁] s₂ (finish s₁)).2
    ((second s₁ s₂).functions ++ (first s₁).functions) =
      ((ownBodies s₁ s₂).1 ++ (bodiesAgain s₁ s₂).1, (ownBodies s₁ s₂).2.1 ++ (bodiesAgain s₁ s₂).2.1,
        (bodiesAgain s₁ s₂).2.2) := Program.functionBodies_append _ _ _ _

theorem bodies_joint (h : s₁.Joins s₂ s) (hJ : (marks s₁ s₂).Joins φ φ')
    (hjoint : Joint φ φ' x (first s₁) (second s₁ s₂) joint) (hquiet : (bodies s₁).2.1 = [])
    (hown : (ownBodies s₁ s₂).2.1 = []) (hagain : (bodiesAgain s₁ s₂).2.1 = []) :
    let r := Program.functionBodies [joint] (marks s₁ s₂).jointBodies joint.functions
    let T := Prod.map φ.func (translateAll (φ.translation .zero))
    let T' := Prod.map φ'.func (translateAll (φ'.translation .zero))
    r.1 = (bodies s₁).1.map T ++ (ownBodies s₁ s₂).1.map T' ∧ (bodies s₁).1.map T = (bodiesAgain s₁ s₂).1.map T' ∧
      r.2.1 = [] ∧ r.2.2 = (marks s₁ s₂).jointFlat := by
  let M := marks s₁ s₂
  obtain ⟨ts, ts', hfunctions, hts, hts'⟩ := hjoint.functions
  have hfirst := covers_first h hjoint
  have hsecond := covers_second h hJ hjoint
  have hbodies' : (bodiesAgain s₁ s₂).2.2 = M.bodies' := by
    change _ = (Program.functionBodies _ _ _).2.2
    rw [bodies_second]
  obtain ⟨hreports, hcode, -⟩ := Program.functionBodies_moved hfirst hts
    (parameters_ofSource _ _ _) hJ.bodies (Nat.le_refl _) (Nat.add_comm M.jointBodies _) hquiet (Nat.le_refl _)
  obtain ⟨-, hcode', hend⟩ := Program.functionBodies_moved hsecond (moved_first hJ hts)
    (parameters_ofSource _ _ _) hJ.again (Nat.le_refl _) (Nat.add_comm M.jointBodies _) hagain (Nat.le_of_eq hbodies')
  have hle := M.ordered
  have hown' : (Program.functionBodies [joint] M.jointBodies ts).2.2 = M.jointOwn := by
    have hnumbers : _ + M.own = (bodiesAgain s₁ s₂).2.2 + M.jointBodies := hend
    rw [Marks.jointOwn]
    omega
  obtain ⟨hreports', hcode'', hend'⟩ := Program.functionBodies_moved hsecond hts'
    (parameters_ofSource _ _ _) hJ.own (Nat.le_refl _) (Nat.add_comm M.jointOwn _) hown (Nat.le_refl _)
  intro r T T'
  let q := Program.functionBodies [joint] M.jointBodies ts
  let q' := Program.functionBodies [joint] M.jointOwn ts'
  have hr : r = (q.1 ++ q'.1, q.2.1 ++ q'.2.1, q'.2.2) := by
    change Program.functionBodies [joint] M.jointBodies joint.functions = _
    rw [hfunctions, Program.functionBodies_append, hown']
  rw [hr]
  refine ⟨?_, hcode.symm.trans hcode', List.append_eq_nil_iff.mpr ⟨hreports, hreports'⟩, ?_⟩
  · exact congrArg₂ (· ++ ·) hcode hcode''
  · have hnumbers : q'.2.2 + M.statements' = M.own + M.jointOwn := hend'
    change q'.2.2 = M.jointOwn + (M.own - M.statements')
    omega

theorem exists_of_mem_bodies {layers : Layers} {ts : List FunctionText} {n : Nat} {T : Body → Body} {ψ : Renumbering}
    {p : Function × Body} (hp : p ∈ (Program.functionBodies layers n ts).1.map (Prod.map ψ.func T)) :
    ∃ t ∈ ts, p.1 = ψ.func t.function := by
  obtain ⟨q, hq, rfl⟩ := List.mem_map.mp hp
  obtain ⟨t, ht, k, rfl, -⟩ := Program.exists_of_mem_functionBodies hq
  exact ⟨t, ht, rfl⟩

/-- No function is numbered in the first text as one of the second text is numbered behind it. -/
theorem func_ne (hJ : (marks s₁ s₂).Joins φ φ') (f : Function) {t : FunctionText} (ht : t ∈ (second s₁ s₂).functions) :
    φ.func f ≠ φ'.func t.function := by
  obtain ⟨-, id, hid, hle, hlt⟩ := (Layer.numbered_headed _ _ _).1 t ht
  intro heq
  have horigin : φ.origin f.origin = φ'.origin t.function.origin := congrArg Function.origin heq
  rw [hid] at horigin
  cases hf : f.origin with
  | builtin b =>
    rw [hf] at horigin
    nomatch horigin
  | declared k =>
    rw [hf] at horigin
    have hsame : φ.function k = φ'.function id := Function.Origin.declared.inj horigin
    have hlater := hJ.functions' id hle hlt
    have hordered := (marks s₁ s₂).finish_le
    have hlt : id < (marks s₁ s₂).heads' := hlt
    rcases hJ.others k with hk | hk
    · have hearlier := hJ.functions k (Nat.zero_le k) hk
      have hle : (marks s₁ s₂).finish ≤ id := hle
      omega
    · rw [Marks.jointHeads] at hk
      omega

theorem bodies_apart : ∀ p ∈ (ownBodies s₁ s₂).1, ∀ q ∈ (bodiesAgain s₁ s₂).1, p.1 ≠ q.1 := by
  intro p hp q hq
  obtain ⟨t, ht, k, rfl, -⟩ := Program.exists_of_mem_functionBodies hp
  obtain ⟨t', ht', k', rfl, -⟩ := Program.exists_of_mem_functionBodies hq
  have hordered := (marks s₁ s₂).ordered
  have hle : (marks s₁ s₂).heads ≤ (marks s₁ s₂).finish := by omega
  exact (((Layer.numbered_headed _ _ _).1 t' ht').ne ((Layer.numbered_headed _ _ _).1 t ht) hle).symm

end Bodies

section Main

variable {s₁ s₂ s : Tree.Source} {φ φ' : Renumbering}

def offsets (s₁ : Tree.Source) : Offsets :=
  ⟨(flattenAll (first s₁).statements ⟨0, (bodies s₁).2.2⟩).2.labels, loops s₁⟩

theorem counts_globals : Code.Counts (·.kind = .global) (·.Uses True (·.kind = .global) fun _ ↦ True) := by
  intro v u hv
  have hbound : (Code.makeUpperBound v u).1.kind = .global := by
    change (if v.kind = .global then Variable.Kind.global else .local) = .global
    rw [if_pos hv]
  exact ⟨hbound, ⟨hv, hbound⟩, hv, hv, trivial⟩

theorem globals_resolved (earlier : Layers) (hearlier : ∀ l ∈ earlier, ∀ v ∈ l.vars, v.kind = .global)
    (source : Tree.Source) (n : Nat) :
    AllOf (·.kind = .global) (·.Uses True (·.kind = .global) fun _ ↦ True) (Layer.ofSource earlier source n).1.statements := by
  refine AllOf.mono (fun v ⟨_, hv⟩ ↦ hv.1) (fun e he ↦ ?_) _ (Layer.located_resolved earlier source n).2
  obtain ⟨hvars, -⟩ := (Code.Expression.uses_iff e).mp he
  refine (Code.Expression.uses_iff e).mpr ⟨fun v hv ↦ ?_, fun _ _ ↦ trivial⟩
  rcases hvars v hv with ⟨_, hdeclared⟩ | hseen
  · exact hdeclared.1
  · have hfound : earlier.frames.reverse.findSome? (·.lookupVariable v.name) = some v := hseen
    rw [Layers.findSome?_lookupVariable] at hfound
    obtain ⟨layer, hlayer, hmem⟩ := List.mem_flatMap.mp (List.mem_of_find?_eq_some hfound)
    exact hearlier layer hlayer v hmem

theorem vars_global (earlier : Layers) (source : Tree.Source) (n : Nat) :
    ∀ v ∈ (Layer.ofSource earlier source n).1.vars, v.kind = .global :=
  fun v hv ↦ ((Layer.numbered_ofSource earlier source n).2.vars v hv).1

theorem main_joint (hJ : (marks s₁ s₂).Joins φ φ') {joint : Layer}
    (hjoint : Joint φ φ' (offsets s₁) (first s₁) (second s₁ s₂) joint) :
    (Code.flattenBody joint.statements (marks s₁ s₂).jointFlat).1 =
      translateAll (φ.translation .zero) (Code.flattenBody (first s₁).statements (bodies s₁).2.2).1 ++
        translateAll (φ'.translation (offsets s₁))
          (Code.flattenBody (second s₁ s₂).statements (bodiesAgain s₁ s₂).2.2).1 := by
  let M := marks s₁ s₂
  let u := (flattenAll (first s₁).statements ⟨0, (bodies s₁).2.2⟩).2
  have hkinds {g : Variable.Kind → Nat → Nat} {n n' limit : Nat} (hslide : Slides (g .global) n n' limit)
      (v : Variable) (hv : v.kind = .global) :
      Slides (g (if v.kind = .global then .global else .local)) n n' limit := by
    rw [if_pos hv]
    exact hslide
  have hfinish : u.nextSymbol = M.finish := by
    change _ = finish s₁
    rw [finish, ofLayers_first]
    rfl
  have hbodies' : (bodiesAgain s₁ s₂).2.2 = M.bodies' := by
    change _ = (Program.functionBodies _ _ _).2.2
    rw [bodies_second]
  have hfinish' : (flattenAll (second s₁ s₂).statements ⟨0, (bodiesAgain s₁ s₂).2.2⟩).2.nextSymbol = M.finish' := by
    change _ = (Program.ofLayers _ _).2
    rw [ofLayers_second, bodies_second]
    rfl
  have hsupply : Code.Supply.Later .zero M.bodies M.jointFlat ⟨0, (bodies s₁).2.2⟩ ⟨0, M.jointFlat⟩ :=
    ⟨rfl, Nat.add_comm _ _, Nat.le_refl _⟩
  obtain ⟨hcode, hmid⟩ := Code.flattenAll_renumber (hkinds hJ.flat) _ hsupply
    (globals_resolved [] (List.forall_mem_nil _) s₁ _) (Nat.le_of_eq hfinish)
  have hordered := M.bodies_le
  have hflat' : Slides (φ'.number .global) M.bodies' M.jointFlat' M.finish' := hJ.global ▸ hJ.flat'
  let u' := (flattenAll (translateAll (φ.translation .zero) (first s₁).statements) ⟨0, M.jointFlat⟩).2
  have hsupply' : Code.Supply.Later (offsets s₁) M.bodies' M.jointFlat' ⟨0, (bodiesAgain s₁ s₂).2.2⟩ u' := by
    refine ⟨hmid.labels.trans (Nat.add_comm _ _), ?_, Nat.le_of_eq hbodies'.symm⟩
    have hnumbers : u'.nextSymbol + M.bodies = u.nextSymbol + M.jointFlat := hmid.symbols
    change u'.nextSymbol + M.bodies' = (bodiesAgain s₁ s₂).2.2 + (M.jointFlat + (M.finish - M.bodies))
    omega
  obtain ⟨hcode', -⟩ := Code.flattenAll_renumber (hkinds hflat') _ hsupply'
    (globals_resolved [first s₁] (List.forall_mem_singleton.mpr (vars_global _ _ _)) s₂ _) (Nat.le_of_eq hfinish')
  change (flattenAll joint.statements ⟨0, M.jointFlat⟩).1 = _
  rw [hjoint.statements, Code.flattenAll_append]
  exact congrArg₂ (· ++ ·) hcode hcode'

def firstProgram (s₁ : Tree.Source) : Program :=
  (Program.ofLayers [first s₁] (Layer.ofSource [] s₁ Builtin.firstFree).2).1

def secondProgram (s₁ s₂ : Tree.Source) : Program :=
  (Program.ofLayers [second s₁ s₂, first s₁] (Layer.ofSource [first s₁] s₂ (finish s₁)).2).1

theorem linked (h : s₁.Joins s₂ s) (hJ : (marks s₁ s₂).Joins φ φ') {joint : Layer}
    (hjoint : Joint φ φ' (offsets s₁) (first s₁) (second s₁ s₂) joint) (hquiet : (firstProgram s₁).reports = [])
    (hquiet' : (secondProgram s₁ s₂).reports = []) :
    Program.Linked φ φ' (offsets s₁) (firstProgram s₁) (secondProgram s₁ s₂)
      (Program.ofLayers [joint] (marks s₁ s₂).jointBodies).1 := by
  have hfirst : firstProgram s₁ = ⟨(bodies s₁).1, (Code.flattenBody (first s₁).statements (bodies s₁).2.2).1,
      (bodies s₁).2.1⟩ := by
    rw [firstProgram, ofLayers_first]
    rfl
  have hsecond : secondProgram s₁ s₂ = ⟨(ownBodies s₁ s₂).1 ++ (bodiesAgain s₁ s₂).1,
      (Code.flattenBody (second s₁ s₂).statements (bodiesAgain s₁ s₂).2.2).1,
      (ownBodies s₁ s₂).2.1 ++ (bodiesAgain s₁ s₂).2.1⟩ := by
    rw [secondProgram, ofLayers_second, bodies_second]
  rw [hfirst] at hquiet ⊢
  rw [hsecond] at hquiet' ⊢
  obtain ⟨hown, hagain⟩ := List.append_eq_nil_iff.mp hquiet'
  obtain ⟨hcode, hsame, hreports, hend⟩ := bodies_joint h hJ hjoint hquiet hown hagain
  rw [ofLayers_first]
  refine ⟨?_, fun f ↦ ?_, fun f ↦ ?_, hreports⟩
  · rw [hend]
    exact main_joint hJ hjoint
  · have hnone : ((ownBodies s₁ s₂).1.map (Prod.map φ'.func (translateAll (φ'.translation .zero)))).lookup (φ.func f) =
        none := by
      refine List.lookup_eq_none_iff.mpr fun p hp ↦ ?_
      obtain ⟨t, ht, hkey⟩ := exists_of_mem_bodies hp
      simpa [hkey] using func_ne hJ f ht
    rw [Program.body?, hcode, List.lookup_append, hnone, Option.or_none, lookup_map]
    rfl
  · have happart := lookup_swap (@bodies_apart s₁ s₂) f
    rw [Program.body?, hcode, hsame, ← List.map_append, lookup_map, ← happart]
    rfl

theorem globals_main (earlier : Layers) (hearlier : ∀ l ∈ earlier, ∀ v ∈ l.vars, v.kind = .global)
    (source : Tree.Source) (n m : Nat) : AllOf (·.kind = .global) (·.Uses True (·.kind = .global) fun _ ↦ True)
      (Code.flattenBody (Layer.ofSource earlier source n).1.statements m).1 :=
  (Code.allOf_flattenBody counts_globals _ m).mpr (globals_resolved earlier hearlier source n)

theorem globals_firstProgram : AllOf (·.kind = .global) (·.Uses True (·.kind = .global) fun _ ↦ True)
    (firstProgram s₁).main := by
  rw [firstProgram, ofLayers_first]
  exact globals_main [] (List.forall_mem_nil _) s₁ _ _

theorem globals_secondProgram : AllOf (·.kind = .global) (·.Uses True (·.kind = .global) fun _ ↦ True)
    (secondProgram s₁ s₂).main := by
  rw [secondProgram, ofLayers_second]
  exact globals_main [first s₁] (List.forall_mem_singleton.mpr (vars_global _ _ _)) s₂ _ _

/-- What one text declares is what two texts declare, and its program has the bodies of their functions and their
statements, but for the numbers. Globals are changed alike in both texts. -/
theorem exists_linked (h : s₁.Joins s₂ s) (hquiet : (first s₁).reports = []) (hquiet' : (second s₁ s₂).reports = [])
    (hprogram : (firstProgram s₁).reports = []) (hprogram' : (secondProgram s₁ s₂).reports = []) :
    ∃ φ φ' : Renumbering,
      Program.Linked φ φ' (offsets s₁) (firstProgram s₁) (secondProgram s₁ s₂) (firstProgram s) ∧
      (first s).vars = ((first s₁).vars ++ (second s₁ s₂).vars).map φ.var ∧ (first s).reports = [] ∧
      ∀ v : Variable, v.kind = .global → φ'.var v = φ.var v := by
  obtain ⟨φ, φ', hJ⟩ := (marks s₁ s₂).exists_joins
  obtain ⟨hjoint, hnext⟩ := joint_ofSource (x := offsets s₁) h hJ hquiet hquiet' rfl
  have hlinked := linked h hJ hjoint hprogram hprogram'
  rw [← hnext] at hlinked
  have hsecond : (second s₁ s₂).vars.map φ'.var = (second s₁ s₂).vars.map φ.var :=
    List.map_congr_left fun v hv ↦ var_global hJ (vars_global _ _ _ v hv)
  refine ⟨φ, φ', hlinked, ?_, hjoint.reports, fun v ↦ var_global hJ⟩
  rw [hjoint.vars, hsecond, List.map_append]

end Main

section Labels

variable (s₁ s₂ : Tree.Source)

theorem between_first {l : Label} (hl : l ∈ (firstProgram s₁).main.labels) : l.Between .zero (offsets s₁) := by
  rw [firstProgram, ofLayers_first] at hl
  exact Code.between_of_mem_labels (Layer.looped_ofSource _ _ _) _ hl

theorem labels_apart : ∀ l ∈ (firstProgram s₁).main.labels, ∀ l' ∈ (secondProgram s₁ s₂).main.labels,
    (offsets s₁).label l' ≠ l := by
  intro l hl l' hl'
  rw [secondProgram, ofLayers_second] at hl'
  exact (Code.between_of_mem_labels (Layer.looped_ofSource _ _ _) _ hl').label_ne (between_first s₁ hl)

end Labels

end Join

end SmallScript
