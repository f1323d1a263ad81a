import SmallScript.Proofs.Resolve.Jumps
import SmallScript.Proofs.Typing.Resolve
import SmallScript.Resolve.Layer

namespace SmallScript

open Code (Rules AllTyped AllJumpInside)

open SmallScript.Tree (Whole)

/-- The functions that a text on top of some layers may call. -/
def Layers.Callable (layers : Layers) (f : Function) : Prop :=
  (∃ b : Builtin, f = b.function) ∨ ∃ layer ∈ layers, ∃ t ∈ layer.functions, f = t.function

structure FunctionText.Sound (t : FunctionText) : Prop where
  proper : t.function.Proper
  declared : ∃ id, t.function.origin = .declared id
  whole : Whole t.text.tokens

structure Layer.Sound (F : Function → Prop) (layer : Layer) : Prop where
  vars : ∀ v ∈ layer.vars, v.ty.IsValue
  functions : ∀ t ∈ layer.functions, t.Sound
  statements : AllTyped (.source F) none layer.statements
  jumps : AllJumpInside [] layer.statements

def Layers.Sound : Layers → Prop
  | [] => True
  | layer :: earlier => layer.Sound (Layers.Callable (layer :: earlier)) ∧ Layers.Sound earlier

namespace Layers

variable {layers : Layers}

theorem Sound.vars (h : layers.Sound) {layer : Layer} (hl : layer ∈ layers) :
    ∀ v ∈ layer.vars, v.ty.IsValue := by
  induction layers with
  | nil => nomatch hl
  | cons l earlier ih =>
    rcases List.mem_cons.mp hl with rfl | hl
    · exact h.1.vars
    · exact ih h.2 hl

theorem Sound.functions (h : layers.Sound) {layer : Layer} (hl : layer ∈ layers) :
    ∀ t ∈ layer.functions, t.Sound := by
  induction layers with
  | nil => nomatch hl
  | cons l earlier ih =>
    rcases List.mem_cons.mp hl with rfl | hl
    · exact h.1.functions
    · exact ih h.2 hl

theorem Sound.proper (h : layers.Sound) : (Rules.source layers.Callable).Proper := by
  rintro f (⟨b, rfl⟩ | ⟨layer, hl, t, ht, rfl⟩)
  · exact b.proper_function
  · exact (h.functions hl t ht).proper

end Layers

namespace Scopes

variable {F : Function → Prop} {s : Scopes}

theorem sound_root (h : ∀ b : Builtin, F b.function) : root.Sound F := by
  intro f hf
  obtain rfl := Array.mem_singleton.mp hf
  refine ⟨nofun, ?_⟩
  intro g hg
  obtain ⟨b, -, rfl⟩ := List.mem_map.mp hg
  exact h b

theorem Sound.declareVariables (h : s.Sound F) (scope : Nat) {vs : List Variable}
    (hvs : ∀ v ∈ vs, v.ty.IsValue) :
    (vs.foldl (fun s v ↦ (s.declareVariable? scope v).getD s) s).Sound F := by
  induction vs generalizing s with
  | nil => exact h
  | cons v vs ih =>
    obtain ⟨hv, hvs⟩ := List.forall_mem_cons.mp hvs
    exact ih (h.declareVariable hv) hvs

theorem Sound.declareFunctions (h : s.Sound F) (scope : Nat) {ts : List FunctionText}
    (hts : ∀ t ∈ ts, F t.function) :
    (ts.foldl (fun s t ↦ (s.declareFunction? scope t.function).getD s) s).Sound F := by
  induction ts generalizing s with
  | nil => exact h
  | cons t ts ih =>
    obtain ⟨ht, hts⟩ := List.forall_mem_cons.mp hts
    exact ih (h.declareFunction ht) hts

theorem Sound.addScopes (h : s.Sound F) (parent : Nat) {ls : List Layer}
    (hvars : ∀ l ∈ ls, ∀ v ∈ l.vars, v.ty.IsValue)
    (hfunctions : ∀ l ∈ ls, ∀ t ∈ l.functions, F t.function) :
    (Layers.addScopes s parent ls).2.Sound F := by
  induction ls generalizing s parent with
  | nil => exact h
  | cons l ls ih =>
    obtain ⟨hv, hvs⟩ := List.forall_mem_cons.mp hvars
    obtain ⟨hf, hfs⟩ := List.forall_mem_cons.mp hfunctions
    exact ih (((h.push parent).declareFunctions _ hf).declareVariables _ hv) _ hvs hfs

end Scopes

theorem Layers.Sound.start {layers : Layers} (h : layers.Sound) (n : Nat) :
    (layers.start n).scopes.Sound layers.Callable := by
  refine Scopes.Sound.push ?_ _
  refine (Scopes.sound_root fun b ↦ .inl ⟨b, rfl⟩).addScopes 0 ?_ ?_
  · exact fun l hl ↦ h.vars (List.mem_reverse.mp hl)
  · exact fun l hl t ht ↦ .inr ⟨l, List.mem_reverse.mp hl, t, ht, rfl⟩

namespace Resolver

section Heads

variable {F : Function → Prop}

theorem resolves_parameters (seen : List String) (ps : List Tree.Parameter)
    (hw : Whole (ps.flatMap Tree.Parameter.tokens)) :
    Resolves F (parameters seen ps) fun vs ↦ ∀ v ∈ vs, v.ty.IsValue := by
  induction ps generalizing seen with
  | nil => exact .pure nofun
  | cons p rest ih =>
    obtain ⟨hp, hrest⟩ := Whole.append_iff.mp hw
    refine .bind (honest_clauseType? (some p.clause)) ?_
    intro o
    refine .ite (fun _ ↦ ?_) fun _ ↦ ?_
    · exact .bind (honest_report _ _) fun _ ↦ (ih seen hrest).mono fun _ _ h ↦ h.elim
    · refine .bind resolves_freshSymbol ?_
      intro n
      refine .bind (ih _ hrest) fun vs ↦ .pure fun hvs _ ho ↦ ?_
      obtain ⟨hsome, hty⟩ := ho (Whole.cons_iff.mp hp).2
      obtain ⟨t, rfl⟩ := Option.isSome_iff_exists.mp hsome
      exact List.forall_mem_cons.mpr ⟨hty t rfl, hvs⟩

theorem resolves_declareFunction {f : Function} (hf : F f) :
    Resolves F (declareFunction f) fun _ ↦ True :=
  .of_log_eq (fun r ↦ by rw [declareFunction_snd]) fun r h ↦
    ⟨by rw [declareFunction_snd]; exact h.declareFunction hf, trivial⟩

theorem resolves_functionHead (text : Tree.Function) (hw : Whole text.tokens) :
    Resolves (fun _ ↦ True) (functionHead text) fun o ↦ ∀ t, o = some t → t.Sound := by
  have hw' := hw
  simp only [Tree.Function.tokens, List.cons_append, Whole.append_iff, Whole.cons_iff] at hw'
  obtain ⟨-, -, -, ⟨hps, -, hclause⟩, -⟩ := hw'
  refine .bind (resolves_parameters [] text.parameters hps) fun vs ↦
    .bind (honest_clauseType? text.clause) fun o ↦ .bind resolves_freshSymbol fun n ↦
      .ite (fun _ ↦ .pure fun _ _ _ t ht ↦ (Option.some_ne_none t ht.symm).elim) fun _ ↦ ?_
  refine .bind (resolves_declareFunction trivial) ?_
  intro b
  refine .ite (fun _ ↦ ?_) fun _ ↦ ?_
  · refine .pure ?_
    intro _ _ ho hvs t ht
    obtain rfl := Option.some.inj ht
    refine ⟨⟨hvs, ?_⟩, ⟨n, rfl⟩, hw⟩
    cases o with
    | none => exact Ty.noConfusion
    | some t => exact ((ho hclause).2 t rfl).1
  · exact .bind (honest_report _ _) fun _ ↦ .pure fun h ↦ h.elim

theorem resolves_functionHeads (ms : List Tree.Member)
    (hw : Whole (ms.flatMap Tree.Member.tokens)) :
    Resolves (fun _ ↦ True) (functionHeads ms) fun ts ↦ ∀ t ∈ ts, t.Sound := by
  induction ms with
  | nil => exact .pure fun _ ht ↦ nomatch ht
  | cons m rest ih =>
    obtain ⟨hm, hrest⟩ := Whole.append_iff.mp hw
    cases m with
    | statement s => exact ih hrest
    | function text =>
      refine .bind (resolves_functionHead text hm) ?_
      intro o
      cases o with
      | none => exact (ih hrest).mono fun _ h _ ↦ h
      | some t =>
        exact .bind (ih hrest) fun ts ↦ .pure fun hts ht ↦ List.forall_mem_cons.mpr ⟨ht t rfl, hts⟩

abbrev Unscoped {α : Type} (m : Resolver α) : Prop :=
  ∀ r, (m r).2.scopes = r.scopes

theorem unscoped_clauseType? (clause : Option Tree.TypeClause) : Unscoped (clauseType? clause) := by
  intro r
  obtain ⟨new, h⟩ := reporting_clauseType? clause r
  rw [h]

theorem Unscoped.bind {α β : Type} {m : Resolver α} {f : α → Resolver β} (hm : Unscoped m)
    (hf : ∀ a, Unscoped (f a)) : Unscoped (m >>= f) :=
  fun r ↦ (hf (m r).1 (m r).2).trans (hm r)

theorem unscoped_parameters (seen : List String) (ps : List Tree.Parameter) :
    Unscoped (parameters seen ps) := by
  induction ps generalizing seen with
  | nil => exact fun _ ↦ rfl
  | cons p rest ih =>
    refine .bind (unscoped_clauseType? _) ?_
    intro o
    split
    · exact .bind (fun _ ↦ rfl) fun _ ↦ ih seen
    · exact .bind (fun _ ↦ rfl) fun n ↦ .bind (ih _) fun _ _ ↦ rfl

def Declares {α : Type} (F : Function → Prop) (functions : α → List FunctionText)
    (m : Resolver α) : Prop :=
  ∀ r, r.scopes.Sound F → (∀ t ∈ functions (m r).1, F t.function) → (m r).2.scopes.Sound F

theorem Declares.bind {α β : Type} {m : Resolver α} {f : α → Resolver β}
    {first : α → List FunctionText} {functions : β → List FunctionText} (hm : Declares F first m)
    (hf : ∀ a, Declares F functions (f a)) (hsub : ∀ a r, first a ⊆ functions (f a r).1) :
    Declares F functions (m >>= f) :=
  fun r h hF ↦ hf _ _ (hm r h fun t ht ↦ hF t (hsub _ _ ht)) hF

theorem Unscoped.bind_declares {α β : Type} {m : Resolver α} {f : α → Resolver β}
    {functions : β → List FunctionText} (hm : Unscoped m) (hf : ∀ a, Declares F functions (f a)) :
    Declares F functions (m >>= f) :=
  fun r h hF ↦ hf (m r).1 (m r).2 ((hm r).symm ▸ h) hF

theorem declares_declareFunction (f : Function) (text : Tree.Function) :
    Declares F (fun b ↦ if b then [⟨f, text⟩] else []) (declareFunction f) := by
  intro r h hF
  rw [declareFunction_fst] at hF
  rw [declareFunction_snd]
  cases hd : r.scopes.declareFunction? r.scope f with
  | none => exact h
  | some s =>
    have hs : ((r.scopes.declareFunction? r.scope f).getD r.scopes).Sound F :=
      h.declareFunction (hF ⟨f, text⟩ (by simp [hd]))
    rwa [hd] at hs

theorem declares_functionHead (text : Tree.Function) :
    Declares F Option.toList (functionHead text) := by
  refine (unscoped_parameters _ _).bind_declares fun vs ↦
    (unscoped_clauseType? _).bind_declares fun o ↦
      Unscoped.bind_declares (m := freshSymbol) (fun _ ↦ rfl) fun n ↦ ?_
  dsimp only
  split
  · exact fun r h _ ↦ h
  · refine (declares_declareFunction _ text).bind (fun b ↦ ?_) fun b r ↦ ?_
    · cases b <;> exact fun r h _ ↦ h
    · cases b
      · exact List.nil_subset _
      · exact List.Subset.refl _

theorem declares_functionHeads (ms : List Tree.Member) : Declares F id (functionHeads ms) := by
  induction ms with
  | nil => exact fun r h _ ↦ h
  | cons m rest ih =>
    cases m with
    | statement s => exact ih
    | function text =>
      refine (declares_functionHead text).bind (fun o ↦ ?_) fun o r ↦ ?_
      · cases o with
        | none => exact ih
        | some t => exact fun r h hF ↦ ih r h (List.forall_mem_cons.mp hF).2
      · cases o with
        | none => exact List.nil_subset _
        | some t => exact List.cons_subset.mpr ⟨List.mem_cons_self, List.nil_subset _⟩

end Heads

theorem whole_memberStatements {ms : List Tree.Member}
    (hw : Whole (ms.flatMap Tree.Member.tokens)) :
    Whole (Tree.statementTokens (ms.filterMap memberStatement?)) := by
  induction ms with
  | nil => exact Whole.nil
  | cons m rest ih =>
    obtain ⟨hm, hrest⟩ := Whole.append_iff.mp hw
    cases m with
    | function text => exact ih hrest
    | statement s => exact Whole.append_iff.mpr ⟨hm, ih hrest⟩

def sourceBody (source : Tree.Source) (r : Resolution) : List Code.Statement × Resolution :=
  statements none (source.members.filterMap memberStatement?) (functionHeads source.members r).2

end Resolver

theorem Scopes.Sound.variablesOf {F : Function → Prop} {s : Scopes} (h : s.Sound F) (scope : Nat) :
    ∀ v ∈ s.variablesOf scope, v.ty.IsValue := by
  unfold Scopes.variablesOf
  cases hf : s.frames[scope]? with
  | none => nofun
  | some f => exact (h f (Array.mem_of_getElem? hf)).1

theorem Scopes.Sound.mono {F G : Function → Prop} {s : Scopes} (h : s.Sound F)
    (hFG : ∀ f, F f → G f) : s.Sound G :=
  fun f hf ↦ ⟨(h f hf).1, fun g hg ↦ hFG g ((h f hf).2 g hg)⟩

theorem Layers.Callable.cons {earlier : Layers} (layer : Layer) {f : Function}
    (h : earlier.Callable f) : Layers.Callable (layer :: earlier) f := by
  rcases h with hb | ⟨l, hl, h⟩
  · exact .inl hb
  · exact .inr ⟨l, List.mem_cons_of_mem layer hl, h⟩

/-- What is known of a whole text about which nothing is reported, once its functions are declared. -/
structure Layer.Headed (earlier : Layers) (source : Tree.Source) (n : Nat) : Prop where
  heads : (Resolver.functionHeads source.members (earlier.start n)).2.reports = []
  body : (Resolver.sourceBody source (earlier.start n)).2.reports = []
  functions : ∀ t ∈ (ofSource earlier source n).1.functions, t.Sound
  proper : (Rules.source (Layers.Callable ((ofSource earlier source n).1 :: earlier))).Proper
  scopes : (Resolver.functionHeads source.members (earlier.start n)).2.scopes.Sound
    (Layers.Callable ((ofSource earlier source n).1 :: earlier))

theorem Layer.owner_proper (f : Function) (h : none = some f) : f.returns ≠ .unknown := nomatch h

theorem Layers.Sound.headed {earlier : Layers} (h : earlier.Sound) {source : Tree.Source}
    (hw : Whole source.tokens) {n : Nat}
    (hquiet : (Layer.ofSource earlier source n).1.reports = []) : Layer.Headed earlier source n := by
  have hms := (Whole.append_iff.mp hw).1
  have hbody : (Resolver.sourceBody source (earlier.start n)).2.reports = [] :=
    List.reverse_eq_nil_iff.mp hquiet
  -- Nothing is reported after the heads either, so they are proper.
  have hgrows := (Resolver.resolves_statements (F := fun _ ↦ False) (fun _ h ↦ h.elim)
    Layer.owner_proper _ (Resolver.whole_memberStatements hms)).grows
      (Resolver.functionHeads source.members (earlier.start n)).2
  have hheads : (Resolver.functionHeads source.members (earlier.start n)).2.reports = [] :=
    List.suffix_nil.mp (hbody ▸ hgrows)
  have hfunctions := ((Resolver.resolves_functionHeads source.members hms).sound (earlier.start n)
    ((h.start n).mono fun _ _ ↦ trivial) hheads).2
  refine ⟨hheads, hbody, hfunctions, ?_, ?_⟩
  -- The text may call what it declares.
  · rintro f (⟨b, rfl⟩ | ⟨l, hl, t, ht, rfl⟩)
    · exact b.proper_function
    · rcases List.mem_cons.mp hl with rfl | hl
      · exact (hfunctions t ht).proper
      · exact (h.functions hl t ht).proper
  · refine Resolver.declares_functionHeads source.members _ ((h.start n).mono fun _ ↦ .cons _) ?_
    exact fun t ht ↦ .inr ⟨_, List.mem_cons_self, t, ht, rfl⟩

/-- A whole text about which nothing is reported adds a sound layer to sound ones. -/
theorem Layers.Sound.ofSource {earlier : Layers} (h : earlier.Sound) {source : Tree.Source}
    (hw : Whole source.tokens) {n : Nat}
    (hquiet : (Layer.ofSource earlier source n).1.reports = []) :
    Layers.Sound ((Layer.ofSource earlier source n).1 :: earlier) := by
  have hheaded := h.headed hw hquiet
  obtain ⟨hscopes, htyped⟩ := (Resolver.resolves_statements hheaded.proper Layer.owner_proper _
    (Resolver.whole_memberStatements (Whole.append_iff.mp hw).1)).sound _ hheaded.scopes
      (hheaded.body.trans hheaded.heads.symm)
  have hloops := ((Resolver.within_functionHeads source.members).sound (earlier.start n) rfl rfl).1
  exact ⟨⟨hscopes.variablesOf _, hheaded.functions, htyped, Resolver.allJumpInside_statements none _ hloops⟩, h⟩

end SmallScript
