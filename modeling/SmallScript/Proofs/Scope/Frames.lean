import SmallScript.Resolve.Layer

namespace SmallScript

def Frame.move (ρ : Variable → Variable) (f : Frame) : Frame :=
  { f with parent := f.parent.map (· + 1), vars := f.vars.map ρ }

theorem Frame.lookupVariable_move {ρ : Variable → Variable} (hρ : ∀ v, (ρ v).name = v.name)
    (f : Frame) (name : String) : (f.move ρ).lookupVariable name = (f.lookupVariable name).map ρ := by
  simp only [lookupVariable, move, List.find?_map, Function.comp_def, hρ]

namespace Scopes

def ofList (fs : List Frame) : Scopes := ⟨fs.toArray⟩

variable {fs inner : List Frame} {f : Frame} {scope n : Nat}

@[simp]
theorem frames_ofList : (ofList fs).frames[scope]? = fs[scope]? := by simp [ofList]

theorem push_ofList (fs : List Frame) (parent : Nat) :
    (ofList fs).push parent = (fs.length, ofList (fs ++ [⟨some parent, [], []⟩])) := by
  simp [ofList, push]

theorem declareVariable?_ofList (h : fs[scope]? = some f) (v : Variable) :
    (ofList fs).declareVariable? scope v =
      if (f.lookupVariable v.name).isSome then none
      else some (ofList (fs.set scope { f with vars := f.vars ++ [v] })) := by
  simp [declareVariable?, frames_ofList, h]
  simp [ofList]

theorem declareFunction?_ofList (h : fs[scope]? = some f) (g : Function) :
    (ofList fs).declareFunction? scope g =
      if (f.lookupFunction g.name).isSome then none
      else some (ofList (fs.set scope { f with functions := f.functions ++ [g] })) := by
  simp [declareFunction?, frames_ofList, h]
  simp [ofList]

def Linear (fs : List Frame) : Prop :=
  ∀ i f, fs[i]? = some f → f.parent = if i = 0 then none else some (i - 1)

theorem outward_ofList (h : fs[scope]? = some f) :
    (ofList fs).outward (n + 1) scope = f :: f.parent.elim [] ((ofList fs).outward n) := by
  simp only [Scopes.outward, frames_ofList, h]

theorem reverse_take_succ {α : Type} {l : List α} {a : α} {i : Nat} (h : l[i]? = some a) :
    (l.take (i + 1)).reverse = a :: (l.take i).reverse := by
  rw [List.take_add_one, h]
  simp

theorem Linear.outward (h : Linear fs) (hscope : scope < fs.length) (hn : scope < n) :
    (ofList (fs ++ inner)).outward n scope = (fs.take (scope + 1)).reverse := by
  induction scope generalizing n with
  | zero =>
    obtain ⟨n, rfl⟩ := Nat.exists_eq_succ_of_ne_zero (Nat.ne_of_gt hn)
    have hf := List.getElem?_eq_getElem hscope
    rw [outward_ofList (by rw [List.getElem?_append_left hscope, hf]), h 0 _ hf,
      reverse_take_succ hf]
    rfl
  | succ scope ih =>
    obtain ⟨n, rfl⟩ := Nat.exists_eq_succ_of_ne_zero (Nat.ne_of_gt (Nat.zero_lt_of_lt hn))
    have hf := List.getElem?_eq_getElem hscope
    rw [outward_ofList (by rw [List.getElem?_append_left hscope, hf]), h _ _ hf,
      reverse_take_succ hf]
    exact congrArg _ (ih (by omega) (by omega))

theorem Linear.outward_last (h : Linear fs) (hne : fs ≠ []) (hn : fs.length ≤ n) :
    (ofList (fs ++ inner)).outward n (fs.length - 1) = fs.reverse := by
  have hpos : 0 < fs.length := List.length_pos_iff.mpr hne
  rw [h.outward (by omega) (by omega), Nat.sub_add_cancel hpos, List.take_length]

theorem Linear.outward_between (h : Linear fs) (hne : fs ≠ []) {between : Frame}
    (hbetween : between.parent = some (fs.length - 1)) (hn : fs.length < n) :
    (ofList (fs ++ between :: inner)).outward n fs.length = between :: fs.reverse := by
  obtain ⟨n, rfl⟩ := Nat.exists_eq_succ_of_ne_zero (Nat.ne_of_gt (Nat.zero_lt_of_lt hn))
  have hat : (fs ++ between :: inner)[fs.length]? = some between := by simp
  rw [outward_ofList hat, hbetween]
  exact congrArg _ (h.outward_last hne (Nat.le_of_lt_succ hn))

def Nested (k : Nat) (inner : List Frame) : Prop :=
  ∀ i f, inner[i]? = some f → ∃ p, f.parent = some p ∧ k ≤ p + 1 ∧ p < k + i

theorem Nested.push {k : Nat} (h : Nested k inner) (hle : k ≤ scope) (hlt : scope < k + inner.length) :
    Nested k (inner ++ [⟨some scope, [], []⟩]) := by
  intro i f hf
  rw [List.getElem?_append] at hf
  split at hf
  · exact h i f hf
  · next hi =>
    obtain rfl := List.mem_singleton.mp (List.mem_of_getElem? hf)
    exact ⟨scope, rfl, by omega, by omega⟩

theorem Nested.set {k i : Nat} {g : Frame} (h : Nested k inner) (hf : inner[i]? = some f)
    (hg : g.parent = f.parent) : Nested k (inner.set i g) := by
  intro j f' hf'
  rw [List.getElem?_set] at hf'
  split at hf'
  · next hij =>
    subst hij
    split at hf'
    · obtain rfl := Option.some.inj hf'
      exact hg ▸ h i f hf
    · nomatch hf'
  · exact h j f' hf'

theorem exists_inner (hle : fs.length ≤ scope) (hlt : scope < fs.length + inner.length) :
    ∃ f, inner[scope - fs.length]? = some f ∧ (fs ++ inner)[scope]? = some f ∧
      ∀ g, (fs ++ inner).set scope g = fs ++ inner.set (scope - fs.length) g := by
  obtain ⟨f, hf⟩ : ∃ f, inner[scope - fs.length]? = some f :=
    ⟨_, List.getElem?_eq_getElem (by omega)⟩
  refine ⟨f, hf, by rw [List.getElem?_append_right hle, hf], fun g ↦ ?_⟩
  rw [List.set_append, if_neg (by omega)]

/-- From an inner scope, the frames near by are seen, then those of all outer scopes. One more scope
between them is seen behind those near by. -/
theorem outward_insert (hfs : Linear fs) (hne : fs ≠ []) {between : Frame}
    (hbetween : between.parent = some (fs.length - 1)) (hin : Nested fs.length inner)
    (ρ : Variable → Variable) (hle : fs.length ≤ scope) (hlt : scope < fs.length + inner.length) :
    ∃ near : List Frame, (∀ f ∈ near, f ∈ inner) ∧
      (∀ n, scope < n → (ofList (fs ++ inner)).outward n scope = near ++ fs.reverse) ∧
      ∀ n, scope + 1 < n →
        (ofList (fs ++ between :: inner.map (Frame.move ρ))).outward n (scope + 1) =
          near.map (Frame.move ρ) ++ between :: fs.reverse := by
  induction scope using Nat.strongRecOn with
  | ind scope ih =>
    have hpos : 0 < fs.length := List.length_pos_iff.mpr hne
    obtain ⟨f, hf, hat, -⟩ := exists_inner hle hlt
    obtain ⟨p, hp, hkp, hps⟩ := hin _ f hf
    have hat' : (fs ++ between :: inner.map (Frame.move ρ))[scope + 1]? = some (f.move ρ) := by
      rw [List.getElem?_append_right (by omega), show scope + 1 - fs.length = scope - fs.length + 1 by omega,
        List.getElem?_cons_succ, List.getElem?_map, hf]
      rfl
    have hp' : (f.move ρ).parent = some (p + 1) := by simp [Frame.move, hp]
    obtain ⟨near, hmem, hold, hnew⟩ : ∃ near : List Frame, (∀ f ∈ near, f ∈ inner) ∧
        (∀ n, scope ≤ n → (ofList (fs ++ inner)).outward n p = near ++ fs.reverse) ∧
        ∀ n, scope + 1 ≤ n → (ofList (fs ++ between :: inner.map (Frame.move ρ))).outward n (p + 1) =
          near.map (Frame.move ρ) ++ between :: fs.reverse := by
      by_cases hcase : fs.length ≤ p
      · obtain ⟨near, hmem, hold, hnew⟩ := ih p (by omega) hcase (by omega)
        exact ⟨near, hmem, fun n hn ↦ hold n (by omega), fun n hn ↦ hnew n (by omega)⟩
      · obtain rfl : p = fs.length - 1 := by omega
        refine ⟨[], List.forall_mem_nil _, fun n hn ↦ hfs.outward_last hne (by omega), fun n hn ↦ ?_⟩
        rw [Nat.sub_add_cancel hpos]
        exact hfs.outward_between hne hbetween (by omega)
    refine ⟨f :: near, List.forall_mem_cons.mpr ⟨List.mem_of_getElem? hf, hmem⟩,
      fun n hn ↦ ?_, fun n hn ↦ ?_⟩
    · obtain ⟨n, rfl⟩ := Nat.exists_eq_succ_of_ne_zero (Nat.ne_of_gt (Nat.zero_lt_of_lt hn))
      rw [outward_ofList hat, hp]
      exact congrArg _ (hold n (Nat.le_of_lt_succ hn))
    · obtain ⟨n, rfl⟩ := Nat.exists_eq_succ_of_ne_zero (Nat.ne_of_gt (Nat.zero_lt_of_lt hn))
      rw [outward_ofList hat', hp']
      exact congrArg _ (hnew n (Nat.le_of_lt_succ hn))

theorem findSome?_chain {β : Type} (hfs : Linear fs) (hne : fs ≠ []) (hin : Nested fs.length inner)
    (hle : fs.length ≤ scope) (hlt : scope < fs.length + inner.length) {look : Frame → Option β}
    {b : β} (h : ((ofList (fs ++ inner)).chain scope).findSome? look = some b) :
    (∃ f ∈ inner, look f = some b) ∨ fs.reverse.findSome? look = some b := by
  have hbetween : (⟨some (fs.length - 1), [], []⟩ : Frame).parent = some (fs.length - 1) := rfl
  obtain ⟨near, hnear, hold, -⟩ := outward_insert hfs hne hbetween hin id hle hlt
  have hsize : (ofList (fs ++ inner)).frames.size = fs.length + inner.length := by simp [ofList]
  rw [chain, hsize, hold _ hlt, List.findSome?_append] at h
  cases hn : near.findSome? look with
  | some c =>
    rw [hn] at h
    obtain rfl : c = b := Option.some.inj h
    obtain ⟨f, hf, hc⟩ := List.exists_of_findSome?_eq_some hn
    exact .inl ⟨f, hnear f hf, hc⟩
  | none =>
    rw [hn] at h
    exact .inr h

section Lookup

variable (hfs : Linear fs) (hne : fs ≠ []) {between : Frame}
  (hbetween : between.parent = some (fs.length - 1)) (hin : Nested fs.length inner)
  (ρ : Variable → Variable) (hle : fs.length ≤ scope) (hlt : scope < fs.length + inner.length)
include hfs hne hbetween hin hle hlt

theorem lookupVariable_insert (hρ : ∀ v, (ρ v).name = v.name) {name : String} {v : Variable}
    (hv : (ofList (fs ++ inner)).lookupVariable scope name = some v) :
    (∃ f ∈ inner, v ∈ f.vars) ∧
        (ofList (fs ++ between :: inner.map (Frame.move ρ))).lookupVariable (scope + 1) name =
          some (ρ v) ∨
      fs.reverse.findSome? (·.lookupVariable name) = some v ∧
        (ofList (fs ++ between :: inner.map (Frame.move ρ))).lookupVariable (scope + 1) name =
          (between :: fs.reverse).findSome? (·.lookupVariable name) := by
  obtain ⟨near, hnear, hold, hnew⟩ := outward_insert hfs hne hbetween hin ρ hle hlt
  have hsize : (ofList (fs ++ inner)).frames.size = fs.length + inner.length := by simp [ofList]
  have hsize' : (ofList (fs ++ between :: inner.map (Frame.move ρ))).frames.size =
      fs.length + inner.length + 1 := by simp [ofList, Nat.add_assoc]
  have hmove : (near.map (Frame.move ρ)).findSome? (·.lookupVariable name) =
      (near.findSome? (·.lookupVariable name)).map ρ := by
    simp [List.findSome?_map, Function.comp_def, Frame.lookupVariable_move hρ, List.map_findSome?]
  rw [lookupVariable, chain, hsize, hold _ hlt, List.findSome?_append] at hv
  rw [lookupVariable, chain, hsize', hnew _ (by omega), List.findSome?_append, hmove]
  cases hn : near.findSome? (·.lookupVariable name) with
  | some w =>
    rw [hn] at hv
    obtain rfl : w = v := Option.some.inj hv
    obtain ⟨f, hf, hw⟩ := List.exists_of_findSome?_eq_some hn
    exact .inl ⟨⟨f, hnear f hf, List.mem_of_find?_eq_some hw⟩, rfl⟩
  | none =>
    rw [hn] at hv
    exact .inr ⟨hv, rfl⟩

theorem lookupFunction_insert (hnone : ∀ f ∈ inner, f.functions = []) (name : String) :
    (ofList (fs ++ inner)).lookupFunction scope name =
        fs.reverse.findSome? (·.lookupFunction name) ∧
      (ofList (fs ++ between :: inner.map (Frame.move ρ))).lookupFunction (scope + 1) name =
        (between :: fs.reverse).findSome? (·.lookupFunction name) := by
  obtain ⟨near, hnear, hold, hnew⟩ := outward_insert hfs hne hbetween hin ρ hle hlt
  have hsize : (ofList (fs ++ inner)).frames.size = fs.length + inner.length := by simp [ofList]
  have hsize' : (ofList (fs ++ between :: inner.map (Frame.move ρ))).frames.size =
      fs.length + inner.length + 1 := by simp [ofList, Nat.add_assoc]
  have hnear' : near.findSome? (·.lookupFunction name) = none := by
    rw [List.findSome?_eq_none_iff]
    intro f hf
    simp [Frame.lookupFunction, hnone f (hnear f hf)]
  have hmove : (near.map (Frame.move ρ)).findSome? (·.lookupFunction name) = none := by
    rw [List.findSome?_eq_none_iff]
    intro f hf
    obtain ⟨g, hg, rfl⟩ := List.mem_map.mp hf
    simp [Frame.lookupFunction, Frame.move, hnone g (hnear g hg)]
  constructor
  · rw [lookupFunction, chain, hsize, hold _ hlt, List.findSome?_append, hnear', Option.none_or]
  · rw [lookupFunction, chain, hsize', hnew _ (by omega), List.findSome?_append, hmove,
      Option.none_or]

end Lookup

end Scopes

end SmallScript
