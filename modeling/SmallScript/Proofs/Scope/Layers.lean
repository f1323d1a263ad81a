import SmallScript.Proofs.Scope.Frames

namespace SmallScript

namespace Frame

def withVariable (f : Frame) (v : Variable) : Frame :=
  if (f.lookupVariable v.name).isSome then f else { f with vars := f.vars ++ [v] }

def withFunction (f : Frame) (g : Function) : Frame :=
  if (f.lookupFunction g.name).isSome then f else { f with functions := f.functions ++ [g] }

variable {f : Frame} {name : String}

@[simp]
theorem parent_withVariable (v : Variable) : (f.withVariable v).parent = f.parent := by
  unfold withVariable
  split <;> rfl

@[simp]
theorem parent_withFunction (g : Function) : (f.withFunction g).parent = f.parent := by
  unfold withFunction
  split <;> rfl

@[simp]
theorem functions_withVariable (v : Variable) : (f.withVariable v).functions = f.functions := by
  unfold withVariable
  split <;> rfl

@[simp]
theorem vars_withFunction (g : Function) : (f.withFunction g).vars = f.vars := by
  unfold withFunction
  split <;> rfl

theorem withVariable_move {ρ : Variable → Variable} (hρ : ∀ v, (ρ v).name = v.name) (v : Variable) :
    (f.move ρ).withVariable (ρ v) = (f.withVariable v).move ρ := by
  unfold withVariable
  rw [lookupVariable_move hρ, hρ, Option.isSome_map]
  split
  · rfl
  · simp [move]

theorem mem_vars_withVariable {v w : Variable} (h : w ∈ (f.withVariable v).vars) :
    w ∈ f.vars ∨ w = v := by
  unfold withVariable at h
  split at h
  · exact .inl h
  · simpa using h

theorem mem_functions_withFunction {g g' : Function} (h : g' ∈ (f.withFunction g).functions) :
    g' ∈ f.functions ∨ g' = g := by
  unfold withFunction at h
  split at h
  · exact .inl h
  · simpa using h

theorem isSome_lookupVariable : (f.lookupVariable name).isSome ↔ ∃ v ∈ f.vars, v.name = name := by
  simp [lookupVariable]

theorem isSome_lookupFunction : (f.lookupFunction name).isSome ↔ ∃ g ∈ f.functions, g.name = name := by
  simp [lookupFunction]

theorem lookupVariable_withVariable (v : Variable) :
    (f.withVariable v).lookupVariable name =
      (f.lookupVariable name).or (if v.name = name then some v else none) := by
  by_cases hname : v.name = name
  · subst hname
    cases h : f.lookupVariable v.name with
    | some w => simp [withVariable, h]
    | none =>
      have hnone : f.vars.find? (·.name == v.name) = none := h
      simp [withVariable, lookupVariable, hnone]
  · unfold withVariable
    split <;> simp [lookupVariable, hname]

theorem lookupFunction_withFunction (g : Function) :
    (f.withFunction g).lookupFunction name =
      (f.lookupFunction name).or (if g.name = name then some g else none) := by
  by_cases hname : g.name = name
  · subst hname
    cases h : f.lookupFunction g.name with
    | some w => simp [withFunction, h]
    | none =>
      have hnone : f.functions.find? (·.name == g.name) = none := h
      simp [withFunction, lookupFunction, hnone]
  · unfold withFunction
    split <;> simp [lookupFunction, hname]

@[simp]
theorem parent_foldl_withVariable (vs : List Variable) (f : Frame) :
    (vs.foldl withVariable f).parent = f.parent := by
  induction vs generalizing f with
  | nil => rfl
  | cons v vs ih => rw [List.foldl_cons, ih, parent_withVariable]

@[simp]
theorem functions_foldl_withVariable (vs : List Variable) (f : Frame) :
    (vs.foldl withVariable f).functions = f.functions := by
  induction vs generalizing f with
  | nil => rfl
  | cons v vs ih => rw [List.foldl_cons, ih, functions_withVariable]

@[simp]
theorem parent_foldl_withFunction (ts : List FunctionText) (f : Frame) :
    (ts.foldl (fun f t ↦ f.withFunction t.function) f).parent = f.parent := by
  induction ts generalizing f with
  | nil => rfl
  | cons t ts ih => rw [List.foldl_cons, ih, parent_withFunction]

@[simp]
theorem vars_foldl_withFunction (ts : List FunctionText) (f : Frame) :
    (ts.foldl (fun f t ↦ f.withFunction t.function) f).vars = f.vars := by
  induction ts generalizing f with
  | nil => rfl
  | cons t ts ih => rw [List.foldl_cons, ih, vars_withFunction]

theorem mem_vars_foldl_withVariable {vs : List Variable} {v : Variable} {f : Frame}
    (h : v ∈ (vs.foldl withVariable f).vars) : v ∈ f.vars ∨ v ∈ vs := by
  induction vs generalizing f with
  | nil => exact .inl h
  | cons w vs ih =>
    rcases ih h with h | h
    · exact (mem_vars_withVariable h).imp_right fun hw ↦ List.mem_cons.mpr (.inl hw)
    · exact .inr (List.mem_cons_of_mem w h)

theorem mem_functions_foldl_withFunction {ts : List FunctionText} {g : Function} {f : Frame}
    (h : g ∈ (ts.foldl (fun f t ↦ f.withFunction t.function) f).functions) :
    g ∈ f.functions ∨ ∃ t ∈ ts, g = t.function := by
  induction ts generalizing f with
  | nil => exact .inl h
  | cons t ts ih =>
    rcases ih h with h | ⟨t', ht', h⟩
    · exact (mem_functions_withFunction h).imp_right fun h ↦ ⟨t, List.mem_cons_self, h⟩
    · exact .inr ⟨t', List.mem_cons_of_mem t ht', h⟩

theorem lookupVariable_foldl (vs : List Variable) :
    (vs.foldl withVariable f).lookupVariable name =
      (f.lookupVariable name).or (vs.find? (·.name == name)) := by
  induction vs generalizing f with
  | nil => simp
  | cons v vs ih =>
    rw [List.foldl_cons, ih, lookupVariable_withVariable, Option.or_assoc]
    by_cases hname : v.name = name
    · rw [List.find?_cons_of_pos (by simpa using hname), if_pos hname, Option.some_or]
    · rw [List.find?_cons_of_neg (by simpa using hname), if_neg hname, Option.none_or]

theorem lookupFunction_foldl (ts : List FunctionText) :
    (ts.foldl (fun f t ↦ f.withFunction t.function) f).lookupFunction name =
      (f.lookupFunction name).or ((ts.map (·.function)).find? (·.name == name)) := by
  induction ts generalizing f with
  | nil => simp
  | cons t ts ih =>
    rw [List.foldl_cons, ih, lookupFunction_withFunction, Option.or_assoc, List.map_cons]
    by_cases hname : t.function.name = name
    · rw [List.find?_cons_of_pos (by simpa using hname), if_pos hname, Option.some_or]
    · rw [List.find?_cons_of_neg (by simpa using hname), if_neg hname, Option.none_or]

end Frame

namespace Scopes

variable {fs : List Frame} {f : Frame} {scope : Nat}

theorem set_getElem? {α : Type} {l : List α} {i : Nat} {a : α} (h : l[i]? = some a) :
    l.set i a = l := by
  obtain ⟨hi, rfl⟩ := List.getElem?_eq_some_iff.mp h
  exact List.set_getElem_self hi

theorem declareVariable_getD (h : fs[scope]? = some f) (v : Variable) :
    ((ofList fs).declareVariable? scope v).getD (ofList fs) =
      ofList (fs.set scope (f.withVariable v)) := by
  rw [declareVariable?_ofList h, Frame.withVariable]
  split
  · rw [Option.getD_none, set_getElem? h]
  · rfl

theorem declareFunction_getD (h : fs[scope]? = some f) (g : Function) :
    ((ofList fs).declareFunction? scope g).getD (ofList fs) =
      ofList (fs.set scope (f.withFunction g)) := by
  rw [declareFunction?_ofList h, Frame.withFunction]
  split
  · rw [Option.getD_none, set_getElem? h]
  · rfl

theorem declareVariables_last (vs : List Variable) :
    vs.foldl (fun s v ↦ (s.declareVariable? fs.length v).getD s) (ofList (fs ++ [f])) =
      ofList (fs ++ [vs.foldl Frame.withVariable f]) := by
  induction vs generalizing f with
  | nil => rfl
  | cons v vs ih =>
    rw [List.foldl_cons, declareVariable_getD (f := f) (by simp)]
    simpa using ih

theorem declareFunctions_last (ts : List FunctionText) :
    ts.foldl (fun s t ↦ (s.declareFunction? fs.length t.function).getD s) (ofList (fs ++ [f])) =
      ofList (fs ++ [ts.foldl (fun f t ↦ f.withFunction t.function) f]) := by
  induction ts generalizing f with
  | nil => rfl
  | cons t ts ih =>
    rw [List.foldl_cons, declareFunction_getD (f := f) (by simp)]
    simpa using ih

end Scopes

def Layer.frame (parent : Nat) (layer : Layer) : Frame :=
  layer.vars.foldl Frame.withVariable
    (layer.functions.foldl (fun f t ↦ f.withFunction t.function) ⟨some parent, [], []⟩)

namespace Layer

variable {parent : Nat} {layer : Layer}

theorem parent_frame (parent : Nat) (layer : Layer) : (layer.frame parent).parent = some parent := by
  rw [frame, Frame.parent_foldl_withVariable, Frame.parent_foldl_withFunction]

theorem mem_vars_frame {v : Variable} (h : v ∈ (layer.frame parent).vars) : v ∈ layer.vars := by
  rcases Frame.mem_vars_foldl_withVariable h with h | h
  · rw [Frame.vars_foldl_withFunction] at h
    nomatch h
  · exact h

theorem mem_functions_frame {g : Function} (h : g ∈ (layer.frame parent).functions) :
    ∃ t ∈ layer.functions, g = t.function := by
  rw [frame, Frame.functions_foldl_withVariable] at h
  rcases Frame.mem_functions_foldl_withFunction h with h | h
  · nomatch h
  · exact h

theorem lookupVariable_frame (layer : Layer) (parent : Nat) (name : String) :
    (layer.frame parent).lookupVariable name = layer.vars.find? (·.name == name) := by
  rw [frame, Frame.lookupVariable_foldl, Frame.lookupVariable, Frame.vars_foldl_withFunction]
  simp

theorem lookupFunction_frame (layer : Layer) (parent : Nat) (name : String) :
    (layer.frame parent).lookupFunction name = (layer.functions.map (·.function)).find? (·.name == name) := by
  have hfunctions : (layer.frame parent).lookupFunction name =
      (layer.functions.foldl (fun f t ↦ f.withFunction t.function)
        (⟨some parent, [], []⟩ : Frame)).lookupFunction name := by
    rw [Frame.lookupFunction, Frame.lookupFunction, frame, Frame.functions_foldl_withVariable]
  rw [hfunctions, Frame.lookupFunction_foldl]
  simp [Frame.lookupFunction]

theorem isSome_lookupVariable_frame (parent : Nat) {name : String} :
    ((layer.frame parent).lookupVariable name).isSome ↔ ∃ v ∈ layer.vars, v.name = name := by
  simp [lookupVariable_frame]

theorem isSome_lookupFunction_frame (parent : Nat) {name : String} :
    ((layer.frame parent).lookupFunction name).isSome ↔
      ∃ t ∈ layer.functions, t.function.name = name := by
  simp [lookupFunction_frame]

end Layer

def Layers.frames : Layers → List Frame
  | [] => [⟨none, [], Builtin.all.map Builtin.function⟩]
  | layer :: earlier => frames earlier ++ [layer.frame ((frames earlier).length - 1)]

namespace Layers

theorem frames_ne_nil (layers : Layers) : layers.frames ≠ [] := by
  cases layers <;> simp [frames]

theorem linear_frames (layers : Layers) : Scopes.Linear layers.frames := by
  induction layers with
  | nil =>
    intro i f hf
    cases i with
    | zero =>
      obtain rfl := Option.some.inj hf
      rfl
    | succ i => nomatch hf
  | cons layer earlier ih =>
    intro i f hf
    have hpos : 0 < (frames earlier).length := List.length_pos_iff.mpr (frames_ne_nil earlier)
    rw [frames, List.getElem?_append] at hf
    split at hf
    · exact ih i f hf
    · next hi =>
      have hlast : i - (frames earlier).length = 0 := by
        have := (List.getElem?_eq_some_iff.mp hf).1
        simp at this
        omega
      rw [hlast] at hf
      obtain rfl : layer.frame ((frames earlier).length - 1) = f := Option.some.inj hf
      rw [Layer.parent_frame, if_neg (by omega)]
      congr 1
      omega

theorem mem_frames {layers : Layers} {f : Frame} (hf : f ∈ layers.frames) :
    (∀ v ∈ f.vars, ∃ l ∈ layers, v ∈ l.vars) ∧
      ∀ g ∈ f.functions, (∃ b : Builtin, g = b.function) ∨ ∃ l ∈ layers, ∃ t ∈ l.functions, g = t.function := by
  induction layers with
  | nil =>
    obtain rfl := List.mem_singleton.mp hf
    refine ⟨fun v hv ↦ (nomatch hv), fun g hg ↦ .inl ?_⟩
    obtain ⟨b, -, rfl⟩ := List.mem_map.mp hg
    exact ⟨b, rfl⟩
  | cons layer earlier ih =>
    rcases List.mem_append.mp hf with hf | hf
    · constructor
      · intro v hv
        obtain ⟨l, hl, hv⟩ := (ih hf).1 v hv
        exact ⟨l, List.mem_cons_of_mem layer hl, hv⟩
      · intro g hg
        apply ((ih hf).2 g hg).imp_right
        rintro ⟨l, hl, ht⟩
        exact ⟨l, List.mem_cons_of_mem layer hl, ht⟩
    · obtain rfl := List.mem_singleton.mp hf
      exact ⟨fun v hv ↦ ⟨layer, List.mem_cons_self, Layer.mem_vars_frame hv⟩,
        fun g hg ↦ .inr ⟨layer, List.mem_cons_self, Layer.mem_functions_frame hg⟩⟩

theorem nested_singleton (layers : Layers) {f : Frame}
    (hf : f.parent = some (layers.frames.length - 1)) : Scopes.Nested layers.frames.length [f] := by
  have hpos : 0 < layers.frames.length := List.length_pos_iff.mpr layers.frames_ne_nil
  intro i g hg
  obtain rfl := List.mem_singleton.mp (List.mem_of_getElem? hg)
  exact ⟨_, hf, by omega, by omega⟩

theorem addScopes_eq (later : List Layer) (earlier : Layers) :
    addScopes (.ofList earlier.frames) (earlier.frames.length - 1) later =
      ((frames (later.reverse ++ earlier)).length - 1, .ofList (frames (later.reverse ++ earlier))) := by
  induction later generalizing earlier with
  | nil => rfl
  | cons layer later ih =>
    have hframes : frames (layer :: earlier) =
        earlier.frames ++ [layer.frame (earlier.frames.length - 1)] := rfl
    have hlength : (frames (layer :: earlier)).length - 1 = earlier.frames.length := by
      simp [hframes]
    have hrest := ih (layer :: earlier)
    rw [hlength] at hrest
    simp only [addScopes, Scopes.push_ofList, Scopes.declareFunctions_last,
      Scopes.declareVariables_last, List.reverse_cons, List.append_assoc, List.singleton_append]
    exact hrest

theorem start_eq (layers : Layers) (n : Nat) :
    layers.start n = ⟨.ofList (layers.frames ++ [⟨some (layers.frames.length - 1), [], []⟩]),
      layers.frames.length, [], 0, n, []⟩ := by
  have hadd := addScopes_eq layers.reverse []
  rw [List.reverse_reverse, List.append_nil] at hadd
  have hroot : Scopes.root = .ofList (frames []) := rfl
  simp only [start, hroot]
  rw [show (0 : Nat) = (frames []).length - 1 from rfl, hadd]
  simp only [Scopes.push_ofList]

end Layers

end SmallScript
