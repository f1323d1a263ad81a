import SmallScript.Proofs.Join.Heads

namespace SmallScript

namespace Join

open Code (translateAll)

section Joint

variable {s₁ s₂ : Tree.Source} {φ φ' : Renumbering} {ms₁ ms₂ : List Tree.Member}

section Find

variable {vs vs' : List Variable} {fs fs' gs : List Function} {name : String}

theorem find?_vars_map : (vs.map φ.var).find? (·.name == name) = (vs.find? (·.name == name)).map φ.var := List.find?_map

theorem find?_functions_map : (fs.map φ.func).find? (·.name == name) = (fs.find? (·.name == name)).map φ.func :=
  List.find?_map

theorem find?_builtins {f : Function} (h : (Builtin.all.map Builtin.function).find? (·.name == name) = some f) :
    ∃ b : Builtin, f = b.function ∧ b.function.name = name := by
  obtain ⟨b, -, rfl⟩ := List.mem_map.mp (List.mem_of_find?_eq_some h)
  exact ⟨b, rfl, by simpa using List.find?_some h⟩

/-- Names of the one list are found where they were, if those of the other one are not among them. -/
theorem find?_swap {v : Variable} (hnames : ∀ x ∈ vs', ∀ y ∈ vs, x.name ≠ y.name)
    (h : (vs' ++ vs).find? (·.name == name) = some v) :
    (vs.map φ.var ++ vs'.map φ.var).find? (·.name == name) = some (φ.var v) := by
  rw [List.find?_append] at h
  rw [List.find?_append, find?_vars_map, find?_vars_map]
  cases hfound : vs'.find? (·.name == name) with
  | some w =>
    rw [hfound] at h
    obtain rfl : w = v := Option.some.inj h
    have hname : w.name = name := by simpa using List.find?_some hfound
    have hnone : vs.find? (·.name == name) = none := List.find?_eq_none.mpr fun y hy ↦ by
      simpa [← hname] using Ne.symm (hnames w (List.mem_of_find?_eq_some hfound) y hy)
    rw [hnone]
    rfl
  | none =>
    rw [hfound, Option.none_or] at h
    rw [h]
    rfl

theorem find?_callable {f : Function} (hbuiltins : ∀ g ∈ gs, ∀ b : Builtin, g.name ≠ b.function.name)
    (h : (fs ++ Builtin.all.map Builtin.function).find? (·.name == name) = some f) :
    (fs.map φ.func ++ gs ++ Builtin.all.map Builtin.function).find? (·.name == name) = some (φ.func f) := by
  rw [List.find?_append] at h
  rw [List.find?_append, List.find?_append, find?_functions_map]
  cases hfound : fs.find? (·.name == name) with
  | some g =>
    rw [hfound] at h
    obtain rfl : g = f := Option.some.inj h
    rfl
  | none =>
    rw [hfound, Option.none_or] at h
    obtain ⟨b, rfl, rfl⟩ := find?_builtins h
    have hnone : gs.find? (·.name == b.function.name) = none :=
      List.find?_eq_none.mpr fun g hg ↦ by simpa using hbuiltins g hg b
    rw [hnone, h, φ.func_builtin]
    rfl

theorem find?_swap_callable {f : Function} (hnames : ∀ x ∈ fs', ∀ y ∈ fs, x.name ≠ y.name)
    (hbuiltins : ∀ g ∈ fs', ∀ b : Builtin, g.name ≠ b.function.name)
    (h : (fs' ++ (fs ++ Builtin.all.map Builtin.function)).find? (·.name == name) = some f) :
    (fs.map φ.func ++ fs'.map φ.func ++ Builtin.all.map Builtin.function).find? (·.name == name) =
      some (φ.func f) := by
  rw [List.find?_append] at h
  cases hfound : fs'.find? (·.name == name) with
  | some g =>
    rw [hfound] at h
    obtain rfl : g = f := Option.some.inj h
    have hname : g.name = name := by simpa using List.find?_some hfound
    have hnone : fs.find? (·.name == name) = none := List.find?_eq_none.mpr fun y hy ↦ by
      simpa [← hname] using Ne.symm (hnames g (List.mem_of_find?_eq_some hfound) y hy)
    rw [List.find?_append, List.find?_append, find?_functions_map, find?_functions_map, hnone, hfound]
    rfl
  | none =>
    rw [hfound, Option.none_or] at h
    refine find?_callable (fun g hg ↦ ?_) h
    obtain ⟨f, hf, rfl⟩ := List.mem_map.mp hg
    exact hbuiltins f hf

end Find

theorem callables_first (layer : Layer) : Layers.callables [layer] =
    layer.functions.map (·.function) ++ Builtin.all.map Builtin.function := by simp [Layers.callables]

theorem callables_second (layer earlier : Layer) : Layers.callables [layer, earlier] =
    layer.functions.map (·.function) ++
      (earlier.functions.map (·.function) ++ Builtin.all.map Builtin.function) := by simp [Layers.callables]

section Apart

variable {s : Tree.Source} (h : s₁.Joins s₂ s)
include h

theorem functions_apart : ∀ f ∈ (second s₁ s₂).functions.map (·.function),
    ∀ g ∈ (first s₁).functions.map (·.function), f.name ≠ g.name := by
  rintro _ hf _ hg heq
  obtain ⟨t, ht, rfl⟩ := List.mem_map.mp hf
  obtain ⟨t', ht', rfl⟩ := List.mem_map.mp hg
  exact h.functions _ (name_mem_functionNames ht) (heq ▸ name_mem_functionNames ht')

theorem builtins_apart : ∀ f ∈ (second s₁ s₂).functions.map (·.function), ∀ b : Builtin, f.name ≠ b.function.name := by
  rintro _ hf b
  obtain ⟨t, ht, rfl⟩ := List.mem_map.mp hf
  exact h.builtins _ (name_mem_functionNames ht) b

theorem vars_apart : ∀ v ∈ (second s₁ s₂).vars, ∀ w ∈ (first s₁).vars, v.name ≠ w.name := by
  intro v hv w hw heq
  have hsecond : v.name ∈ s₂.variableNames := Layer.name_var _ _ _ hv
  have hfirst : w.name ∈ s₁.variableNames := Layer.name_var _ _ _ hw
  exact h.vars _ hsecond (heq ▸ hfirst)

end Apart

theorem fits_of_outside {earlier earlier' : Layers} {before vs vs' : List Variable} {ts ts' : List FunctionText}
    {r r' : Resolution} (h : r.Outside earlier vs ts) (h' : r'.Outside earlier' vs' ts')
    (hvars : ∀ name v, (vs ++ earlier.vars).find? (·.name == name) = some v →
      (vs' ++ earlier'.vars).find? (·.name == name) = some (φ.var v))
    (hfunctions : ∀ name f, (ts.map (·.function) ++ earlier.callables).find? (·.name == name) = some f →
      (ts'.map (·.function) ++ earlier'.callables).find? (·.name == name) = some (φ.func f))
    (hbefore : vs' = before ++ vs.map φ.var) : Fits φ before r.seen r'.seen := by
  have hvar (layers : Layers) (p : Option Nat) (ws : List Variable) (gs : List Function) (name : String) :
      (⟨p, ws, gs⟩ :: layers.frames.reverse).findSome? (·.lookupVariable name) =
        (ws ++ layers.vars).find? (·.name == name) := by
    rw [List.findSome?_cons, Layers.findSome?_lookupVariable, List.find?_append, Frame.lookupVariable]
    cases ws.find? (·.name == name) <;> rfl
  have hfunction (layers : Layers) (p : Option Nat) (ws : List Variable) (gs : List Function) (name : String) :
      (⟨p, ws, gs⟩ :: layers.frames.reverse).findSome? (·.lookupFunction name) =
        (gs ++ layers.callables).find? (·.name == name) := by
    rw [List.findSome?_cons, Layers.findSome?_lookupFunction, List.find?_append, Frame.lookupFunction]
    cases gs.find? (·.name == name) <;> rfl
  rw [h.seen, h'.seen]
  refine ⟨fun name v hv ↦ ?_, fun name f hf ↦ ?_, _, _, _, _, rfl, rfl, hbefore⟩
  · rw [hvar] at hv ⊢
    exact hvars name v hv
  · rw [hfunction] at hf ⊢
    exact hfunctions name f hf

theorem vars_of_fits {earlier earlier' : Layers} {before vs vs' : List Variable} {ts ts' : List FunctionText}
    {r r' : Resolution} (h : r.Outside earlier vs ts) (h' : r'.Outside earlier' vs' ts')
    (hfits : Fits φ before r.seen r'.seen) : vs' = before ++ vs.map φ.var := by
  obtain ⟨f, rest, f', rest', hf, hf', hvars⟩ := hfits.top
  obtain ⟨rfl, -⟩ := List.cons.inj (hf.symm.trans h.seen)
  obtain ⟨rfl, -⟩ := List.cons.inj (hf'.symm.trans h'.seen)
  exact hvars

theorem statements_first {s : Tree.Source} (h : s₁.Joins s₂ s) (hJ : (marks s₁ s₂).Joins φ φ')
    (hquiet : (first s₁).reports = []) (hms : List.Forall₂ Tree.Member.Alike s₁.members ms₁)
    {ts ts' : List FunctionText} {r : Resolution} (hr : r.Outside [] [] (ts ++ ts'))
    (hts : List.Forall₂ (FunctionText.Moved φ) (first s₁).functions ts)
    (hts' : List.Forall₂ (FunctionText.Moved φ') (second s₁ s₂).functions ts')
    (hsymbols : r.nextSymbol = (marks s₁ s₂).jointHeads) (hreports : r.reports = []) (hcount : r.loopCount = 0) :
    let r' := Resolver.statements none (ms₁.filterMap Resolver.memberStatement?) r
    r'.1 = translateAll (φ.translation .zero) (first s₁).statements ∧ r'.2.reports = [] ∧
      r'.2.Outside [] ((first s₁).vars.map φ.var) (ts ++ ts') ∧
      r'.2.nextSymbol = (marks s₁ s₂).jointStatements ∧
      r'.2.loopCount = (Layer.resolved [] s₁ Builtin.firstFree).2.loopCount := by
  let M := marks s₁ s₂
  let C : Course := ⟨φ, .zero, M.heads, M.jointHeads, M.statements⟩
  have hheaded := Layer.outside_headed [] s₁ Builtin.firstFree
  have hfits : Fits φ [] (Layer.headed [] s₁ Builtin.firstFree).2.seen r.seen := by
    refine fits_of_outside hheaded hr (fun name v hv ↦ nomatch hv) (fun name f hf ↦ ?_) rfl
    rw [List.map_append, functions_moved hts]
    refine find?_callable (fun g hg b ↦ ?_) hf
    obtain ⟨t, ht, rfl⟩ := mem_of_moved hts' hg
    exact builtins_apart h _ (List.mem_map_of_mem ht) b
  have habreast : C.Abreast (Fits φ []) (Layer.headed [] s₁ Builtin.firstFree).2 r :=
    abreast_of_outside hheaded hr hfits
      (by rw [hcount, Layer.headed, loopCount_heads _ (loopCount_start _ _)]; rfl)
      (by rw [hsymbols]; exact Nat.add_comm _ _) (Nat.le_refl _)
  have hglobal : C.Takes (C.numbers.number (Resolver.declaredKind none)) := hJ.statements
  have hfollows : Resolver.FollowsWith C (Fits φ []) (translateAll C.translation)
      (Resolver.statements none s₁.outside) (Resolver.statements none (ms₁.filterMap Resolver.memberStatement?)) :=
    Resolver.follows_statements hglobal _ _ (outside_alike hms) (List.forall_mem_nil _)
  have hresolved : (Layer.resolved [] s₁ Builtin.firstFree).2.reports = [] := List.reverse_eq_nil_iff.mp hquiet
  obtain ⟨hsame, hcode, hend⟩ := hfollows.follow _ _ habreast
    (hresolved.trans (quiet_headed φ hms hquiet).symm) (Nat.le_refl _)
  obtain ⟨vs, hr', -⟩ := hr.statements (ms₁.filterMap Resolver.memberStatement?)
  have hvars := vars_of_fits (Layer.outside_resolved [] s₁ Builtin.firstFree) hr' hend.seen
  rw [hvars] at hr'
  refine ⟨hcode, hsame.trans hreports, hr', ?_, hend.loopCount⟩
  have hle := M.heads_le
  have hnumbers : _ + M.heads = M.statements + M.jointHeads := hend.symbols
  change _ = M.jointHeads + (M.statements - M.heads)
  omega

theorem statements_second {s : Tree.Source} (h : s₁.Joins s₂ s) (hJ : (marks s₁ s₂).Joins φ φ')
    (hquiet : (second s₁ s₂).reports = []) (hms : List.Forall₂ Tree.Member.Alike s₂.members ms₂)
    {ts ts' : List FunctionText} {r : Resolution} (hr : r.Outside [] ((first s₁).vars.map φ.var) (ts ++ ts'))
    (hts : List.Forall₂ (FunctionText.Moved φ) (first s₁).functions ts)
    (hts' : List.Forall₂ (FunctionText.Moved φ') (second s₁ s₂).functions ts')
    (hsymbols : r.nextSymbol = (marks s₁ s₂).jointStatements) (hreports : r.reports = []) (made : Nat) :
    let r' := Resolver.statements none (ms₂.filterMap Resolver.memberStatement?) r
    r'.1 = translateAll (φ'.translation ⟨made, r.loopCount⟩) (second s₁ s₂).statements ∧ r'.2.reports = [] ∧
      r'.2.Outside [] ((first s₁).vars.map φ.var ++ (second s₁ s₂).vars.map φ'.var) (ts ++ ts') ∧
      r'.2.nextSymbol = (marks s₁ s₂).jointBodies := by
  let M := marks s₁ s₂
  let C : Course := ⟨φ', ⟨made, r.loopCount⟩, M.heads', M.jointStatements, M.statements'⟩
  have hheaded := Layer.outside_headed [first s₁] s₂ (finish s₁)
  have hfirst : (first s₁).vars.map φ.var = (first s₁).vars.map φ'.var :=
    List.map_congr_left fun v hv ↦ (var_global hJ ((Layer.numbered_ofSource _ _ _).2.vars v hv).1).symm
  have hfits : Fits φ' ((first s₁).vars.map φ.var) (Layer.headed [first s₁] s₂ (finish s₁)).2.seen r.seen := by
    refine fits_of_outside hheaded hr (fun name v hv ↦ ?_) (fun name f hf ↦ ?_) (List.append_nil _).symm
    · have hfound : (first s₁).vars.find? (·.name == name) = some v := by simpa [Layers.vars] using hv
      rw [hfirst, show Layers.vars [] = [] from rfl, List.append_nil, find?_vars_map, hfound]
      rfl
    · rw [callables_first] at hf
      rw [List.map_append, functions_moved (moved_first hJ hts), functions_moved hts']
      exact find?_swap_callable (functions_apart h) (builtins_apart h) hf
  have habreast : C.Abreast (Fits φ' ((first s₁).vars.map φ.var)) (Layer.headed [first s₁] s₂ (finish s₁)).2 r :=
    abreast_of_outside hheaded hr hfits
      (by rw [Layer.headed, loopCount_heads _ (loopCount_start _ _), Nat.zero_add])
      (by rw [hsymbols]; exact Nat.add_comm _ _) (Nat.le_refl _)
  have hglobal : C.Takes (C.numbers.number (Resolver.declaredKind none)) := by
    have hstatements := hJ.statements'
    rwa [← hJ.global] at hstatements
  have hnames : ∀ w ∈ (first s₁).vars.map φ.var, ∀ s ∈ s₂.outside, w.name ∉ s.opens := by
    intro w hw s hs hmem
    obtain ⟨v, hv, rfl⟩ := List.mem_map.mp hw
    have hname : v.name ∈ s₁.variableNames := Layer.name_var _ _ _ hv
    exact h.vars _ (List.mem_flatMap.mpr ⟨s, hs, hmem⟩) hname
  have hfollows : Resolver.FollowsWith C (Fits φ' ((first s₁).vars.map φ.var)) (translateAll C.translation)
      (Resolver.statements none s₂.outside) (Resolver.statements none (ms₂.filterMap Resolver.memberStatement?)) :=
    Resolver.follows_statements hglobal _ _ (outside_alike hms) hnames
  have hresolved : (Layer.resolved [first s₁] s₂ (finish s₁)).2.reports = [] := List.reverse_eq_nil_iff.mp hquiet
  obtain ⟨hsame, hcode, hend⟩ := hfollows.follow _ _ habreast
    (hresolved.trans (quiet_headed φ' hms hquiet).symm) (Nat.le_refl _)
  obtain ⟨vs, hr', -⟩ := hr.statements (ms₂.filterMap Resolver.memberStatement?)
  have hvars := vars_of_fits (Layer.outside_resolved [first s₁] s₂ (finish s₁)) hr' hend.seen
  rw [hvars] at hr'
  refine ⟨hcode, hsame.trans hreports, hr', ?_⟩
  have hle := M.heads'_le
  have hnumbers : _ + M.heads' = M.statements' + M.jointStatements := hend.symbols
  change _ = M.jointStatements + (M.statements' - M.heads')
  omega

/-- What one text declares, and its statements, are what two texts have, but for their numbers. -/
structure Joint (φ φ' : Renumbering) (x : Offsets) (layer layer' joint : Layer) : Prop where
  functions : ∃ ts ts', joint.functions = ts ++ ts' ∧
    List.Forall₂ (FunctionText.Moved φ) layer.functions ts ∧
    List.Forall₂ (FunctionText.Moved φ') layer'.functions ts'
  vars : joint.vars = layer.vars.map φ.var ++ layer'.vars.map φ'.var
  statements : joint.statements =
    translateAll (φ.translation .zero) layer.statements ++ translateAll (φ'.translation x) layer'.statements
  reports : joint.reports = []

def loops (s₁ : Tree.Source) : Nat := (Layer.resolved [] s₁ Builtin.firstFree).2.loopCount

theorem joint_ofSource {s : Tree.Source} (h : s₁.Joins s₂ s) (hJ : (marks s₁ s₂).Joins φ φ')
    (hquiet : (first s₁).reports = []) (hquiet' : (second s₁ s₂).reports = []) {x : Offsets} (hx : x.loop = loops s₁) :
    Joint φ φ' x (first s₁) (second s₁ s₂) (first s) ∧
      (Layer.ofSource [] s Builtin.firstFree).2 = (marks s₁ s₂).jointBodies := by
  obtain ⟨made, loop⟩ := x
  obtain rfl : loop = loops s₁ := hx
  obtain ⟨ms₁, ms₂, hmembers, hms₁, hms₂⟩ : ∃ ms₁ ms₂, s.members = ms₁ ++ ms₂ ∧
      List.Forall₂ Tree.Member.Alike s₁.members ms₁ ∧ List.Forall₂ Tree.Member.Alike s₂.members ms₂ := by
    refine ⟨_, _, (List.take_append_drop s₁.members.length s.members).symm, ?_, ?_⟩
    · exact (List.forall₂_take_append _ _ _ h.members.flip).flip
    · exact (List.forall₂_drop_append _ _ _ h.members.flip).flip
  have hstart := Resolution.Outside.start [] Builtin.firstFree
  obtain ⟨hreports₁, hmoved₁, hsymbols₁⟩ := heads_first hJ hquiet hms₁
  obtain ⟨hreports₂, hmoved₂, hsymbols₂⟩ := heads_second h hJ hquiet' hms₂ (hstart.heads ms₁) hmoved₁ hsymbols₁
    hreports₁ (loopCount_heads ms₁ (loopCount_start _ _))
  have hheads := (hstart.heads ms₁).heads ms₂
  let q₁ := Resolver.functionHeads ms₁ (Layers.start [] Builtin.firstFree)
  let q₂ := Resolver.functionHeads ms₂ q₁.2
  have hheaded : Layer.headed [] s Builtin.firstFree = (q₁.1 ++ q₂.1, q₂.2) := by
    rw [Layer.headed, hmembers, Resolver.functionHeads_append]
    rfl
  have houtside : s.outside =
      ms₁.filterMap Resolver.memberStatement? ++ ms₂.filterMap Resolver.memberStatement? := by
    rw [Tree.Source.outside, hmembers, List.filterMap_append]
  obtain ⟨hcode₁, hquiet₁, hresolved₁, hnumbers₁, hcount₁⟩ := statements_first h hJ hquiet hms₁ hheads hmoved₁ hmoved₂
    hsymbols₂ hreports₂ (loopCount_heads ms₂ (loopCount_heads ms₁ (loopCount_start _ _)))
  obtain ⟨hcode₂, hquiet₂, hresolved₂, hnumbers₂⟩ := statements_second h hJ hquiet' hms₂ hresolved₁ hmoved₁ hmoved₂
    hnumbers₁ hquiet₁ made
  let r₁ := Resolver.statements none (ms₁.filterMap Resolver.memberStatement?) q₂.2
  let r₂ := Resolver.statements none (ms₂.filterMap Resolver.memberStatement?) r₁.2
  have hresolved : Layer.resolved [] s Builtin.firstFree = (r₁.1 ++ r₂.1, r₂.2) := by
    rw [Layer.resolved, hheaded, houtside, Resolver.statements_append]
    rfl
  have hfirst : first s = (Layer.ofSource [] s Builtin.firstFree).1 := rfl
  rw [hfirst, Layer.ofSource_eq, hresolved, hheaded]
  refine ⟨⟨⟨_, _, rfl, hmoved₁, hmoved₂⟩, hresolved₂.variablesOf, ?_, List.reverse_eq_nil_iff.mpr hquiet₂⟩, hnumbers₂⟩
  rw [loops, ← hcount₁, ← hcode₁, ← hcode₂]

end Joint

end Join

end SmallScript
