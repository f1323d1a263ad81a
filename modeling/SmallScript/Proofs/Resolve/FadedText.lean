import SmallScript.Proofs.Lexical.Texts
import SmallScript.Proofs.Resolve.Bodies
import SmallScript.Proofs.Resolve.Fades

namespace SmallScript

open SmallScript.Tree (Whole unknownOf unknownTypesAll retypeAll callsOfAll ReturnsValueAny)

variable {K : Losses} {ρ : Tree.TypeClause → Tree.TypeClause}

/-- The types that are unknown in the head of a function are counted as lost, what it calls as called, and the
function itself as valued if it gives back a value. -/
structure Losses.Covers (K : Losses) (f : Tree.Function) : Prop where
  parameter : ∀ p ∈ f.parameters, unknownOf (some p.clause) ≠ [] →
    K.parameter f.identifier.text p.identifier.text
  returns : unknownOf f.clause ≠ [] → K.returns f.identifier.text
  called : ∀ x ∈ callsOfAll f.body.statements, K.called x
  valued : ReturnsValueAny f.body.statements → K.valued f.identifier.text

structure FunctionText.FadesTo (K : Losses) (t t' : FunctionText) : Prop where
  function : t.function.FadesTo K t'.function
  body : ∃ ρ : Tree.TypeClause → Tree.TypeClause, (∀ c, ρ c = c ∨ (ρ c).unknown?.isSome) ∧
    List.Forall₂ Tree.Statement.Alike (retypeAll ρ t.text.body.statements) t'.text.body.statements
  whole : Whole (Tree.statementTokens t.text.body.statements)
  called : ∀ x ∈ callsOfAll t'.text.body.statements, K.called x
  valued : ReturnsValueAny t'.text.body.statements → K.valued t'.function.name

namespace Resolver

theorem grows_declareHead (text : Tree.Function) (f : Function) : Grows Resolution.reports (declareHead text f) :=
  .ite (.pure _) ((grows_declareFunction f).bind fun _ ↦
    .ite (.pure _) ((Reporting.report _ _).grows.bind fun _ ↦ .pure _))

section Heads

variable (hρ : ∀ c, ρ c = c ∨ (ρ c).unknown?.isSome)
include hρ

theorem fades_parameters (f : String) (seen : List String) (ps : List Tree.Parameter) {ps' : List Tree.Parameter}
    (h : List.Forall₂ Tree.Parameter.Alike (ps.map (Tree.Parameter.retype ρ)) ps')
    (hw : Whole (ps.flatMap Tree.Parameter.tokens))
    (hK : ∀ p ∈ ps', unknownOf (some p.clause) ≠ [] → K.parameter f p.identifier.text) :
    Fades K
      (List.Forall₂ fun v v' : Variable ↦ v.FadesTo v' ∧ (v'.ty = v.ty ∨ K.parameter f v.name))
      (ps'.flatMap fun p ↦ unknownOf (some p.clause)) (parameters seen ps) (parameters seen ps') := by
  induction ps generalizing seen ps' with
  | nil =>
    cases h
    exact .pure .nil
  | cons p rest ih =>
    obtain ⟨p', rest', hp, hrest, rfl⟩ := List.forall₂_cons_left_iff.mp h
    obtain ⟨hwp, hwrest⟩ := Whole.append_iff.mp (by simpa using hw)
    obtain ⟨hKp, hKrest⟩ := List.forall_mem_cons.mp hK
    have hmore (seen : List String) := ih seen hrest hwrest hKrest
    have hname : p'.identifier.text = p.identifier.text := hp.identifier.text
    have hclause := fades_clauseType? (K := K) hρ (c := some p.clause) (.some hp.clause)
      (Whole.cons_iff.mp hwp).2
    unfold parameters
    rw [List.flatMap_cons, hname]
    refine hclause.bind (fun ty ↦ .ite ?_ ?_) fun ty ty' hty ↦ .ite Iff.rfl (fun _ ↦ ?_) fun _ ↦ ?_
    · exact (Reporting.report _ _).grows.bind fun _ ↦ (hmore _).grows
    · exact grows_freshSymbol.bind fun _ ↦ (hmore _).grows.bind fun _ ↦ .pure _
    · exact .report fun _ ↦ (hmore _).grows
    · refine fades_freshSymbol.bind (fun _ ↦ (hmore _).grows.bind fun _ ↦ .pure _) fun n n' _ ↦ ?_
      refine (hmore _).map fun vs vs' hvs ↦ .cons ?_ hvs
      cases hty with
      | kept _ ht => exact ⟨⟨rfl, rfl, .refl ht.1⟩, .inl rfl⟩
      | lost ht hlost => exact ⟨⟨rfl, rfl, ht.1, .inr rfl⟩, .inr (hname ▸ hKp hlost)⟩

theorem fades_functionHead (text : Tree.Function) {text' : Tree.Function} (h : (text.retype ρ).Alike text')
    (hw : Whole text.tokens) (hK : K.Covers text') :
    Fades K (fun o o' ↦ ∃ t t', o = some t ∧ o' = some t' ∧ t.FadesTo K t' ∧ t'.text = text') text'.unknownTypes
      (functionHead text) (functionHead text') := by
  have hname : text'.identifier.text = text.identifier.text := h.identifier.text
  have hmissing : text'.identifier.isMissing = text.identifier.isMissing := h.identifier.isMissing
  have hthere : text.identifier.isMissing = false := hw _ (by simp [Tree.Function.tokens])
  have hhead (text : Tree.Function) : functionHead text = (do
    let vs ← parameters [] text.parameters
    let ty ← clauseType? text.clause
    let n ← freshSymbol
    declareHead text ⟨.declared n, text.identifier.text, vs, ty.getD .void⟩) := rfl
  simp only [Tree.Function.tokens, Tree.Block.tokens, Whole.append_iff, Whole.cons_iff, List.cons_append] at hw
  obtain ⟨-, -, -, ⟨hwp, -, hwc⟩, -, hwb, -⟩ := hw
  rw [hhead, hhead]
  refine (fades_parameters hρ text.identifier.text [] text.parameters h.parameters hwp
    (hname ▸ hK.parameter)).bind (fun vs ↦ ?_) fun vs vs' hvs ↦ ?_
  · exact (reporting_clauseType? _).grows.bind fun _ ↦ grows_freshSymbol.bind fun _ ↦ grows_declareHead _ _
  refine (fades_clauseType? hρ h.clause hwc).bind_plain (fun ty ↦ ?_) fun ty ty' hty ↦ ?_
  · exact grows_freshSymbol.bind fun _ ↦ grows_declareHead _ _
  refine fades_freshSymbol.bind_plain (fun n ↦ grows_declareHead _ _) fun n n' _ ↦ ?_
  have hf : (⟨.declared n, text.identifier.text, vs, ty.getD .void⟩ : Function).FadesTo K
      ⟨.declared n', text'.identifier.text, vs', ty'.getD .void⟩ := by
    have hreturns := hK.returns
    rw [hname] at hreturns
    generalize text'.clause = c at hty hreturns
    cases hty with
    | none => exact ⟨hname, hvs, nofun, .inl rfl⟩
    | kept _ ht => exact ⟨hname, hvs, ht.1, .inl rfl⟩
    | lost ht hlost => exact ⟨hname, hvs, ht.1, .inr ⟨rfl, hreturns hlost⟩⟩
  unfold declareHead
  rw [hname] at hf ⊢
  rw [hmissing, if_neg (hthere ▸ Bool.false_ne_true), if_neg (hthere ▸ Bool.false_ne_true)]
  refine (fades_declareFunction hf).bind_plain (fun b ↦ ?_) ?_
  · exact .ite (.pure _) ((Reporting.report _ _).grows.bind fun _ ↦ .pure _)
  rintro b b' rfl
  refine .ite Iff.rfl (fun _ ↦ .pure ⟨_, _, rfl, rfl, ?_, rfl⟩) fun _ ↦ .report fun _ ↦ .pure _
  exact ⟨hf, ⟨ρ, hρ, h.body⟩, hwb, hK.called, hname ▸ hK.valued⟩

theorem fades_functionHeads (ms : List Tree.Member) {ms' : List Tree.Member}
    (h : List.Forall₂ Tree.Member.Alike (ms.map (Tree.Member.retype ρ)) ms')
    (hw : Whole (ms.flatMap Tree.Member.tokens)) (hK : ∀ f ∈ ms'.filterMap Tree.Member.function?, K.Covers f) :
    Fades K
      (fun ts ts' ↦ List.Forall₂ (FunctionText.FadesTo K) ts ts' ∧
        ts'.map (·.text) = ms'.filterMap Tree.Member.function?)
      ((ms'.filterMap Tree.Member.function?).flatMap Tree.Function.unknownTypes) (functionHeads ms)
      (functionHeads ms') := by
  induction ms generalizing ms' with
  | nil =>
    cases h
    exact .pure ⟨.nil, rfl⟩
  | cons m rest ih =>
    obtain ⟨m', rest', hm, hrest, rfl⟩ := List.forall₂_cons_left_iff.mp h
    obtain ⟨hwm, hwrest⟩ := Whole.append_iff.mp (by simpa using hw)
    cases m with
    | statement s =>
      cases hm
      have hKrest : ∀ f ∈ rest'.filterMap Tree.Member.function?, K.Covers f := hK
      have hmore := ih hrest hwrest hKrest
      exact hmore
    | function text =>
      obtain ⟨text', rfl, htext⟩ : ∃ text', m' = .function text' ∧ (text.retype ρ).Alike text' := by
        cases hm with
        | function htext => exact ⟨_, rfl, htext⟩
      obtain ⟨hKtext, hKrest⟩ := List.forall_mem_cons.mp hK
      have hmore := ih hrest hwrest hKrest
      rw [functionHeads_cons, functionHeads_cons]
      refine (fades_functionHead hρ text htext hwm hKtext).bind (fun o ↦ ?_) fun o o' ho ↦ ?_
      · cases o with
        | none => exact hmore.grows
        | some t => exact hmore.grows.bind fun _ ↦ .pure _
      · obtain ⟨t, t', rfl, rfl, ht, htext'⟩ := ho
        refine hmore.map fun _ _ hts ↦ ⟨.cons ht hts.1, ?_⟩
        rw [List.map_cons, htext', hts.2]
        rfl

end Heads

end Resolver

structure Layer.FadesTo (K : Losses) (layer layer' : Layer) : Prop where
  functions : List.Forall₂ (FunctionText.FadesTo K) layer.functions layer'.functions
  vars : List.Forall₂ Variable.FadesTo layer.vars layer'.vars

section Scopes

variable {layers layers' : Layers} (h : List.Forall₂ (Layer.FadesTo K) layers layers')

theorem Frame.fades_variables {f f' : Frame} (hf : f.FadesTo K f') {vs vs' : List Variable}
    (h : List.Forall₂ Variable.FadesTo vs vs') :
    (vs.foldl Frame.withVariable f).FadesTo K (vs'.foldl Frame.withVariable f') := by
  induction h generalizing f f' with
  | nil => exact hf
  | cons hv _ ih => exact ih (hf.withVariable hv)

theorem Frame.fades_functions {f f' : Frame} (hf : f.FadesTo K f') {ts ts' : List FunctionText}
    (h : List.Forall₂ (FunctionText.FadesTo K) ts ts') :
    (ts.foldl (fun f t ↦ f.withFunction t.function) f).FadesTo K
      (ts'.foldl (fun f t ↦ f.withFunction t.function) f') := by
  induction h generalizing f f' with
  | nil => exact hf
  | cons ht _ ih => exact ih (hf.withFunction ht.function)

theorem Builtin.fadesTo (K : Losses) (b : Builtin) : b.function.FadesTo K b.function := by
  obtain ⟨hparameters, hreturns⟩ := b.proper_function
  exact ⟨rfl, List.forall₂_same.mpr fun v hv ↦ ⟨⟨rfl, rfl, .refl (hparameters v hv).1⟩, .inl rfl⟩, hreturns, .inl rfl⟩

include h

theorem Layers.fades_frames : List.Forall₂ (Frame.FadesTo K) layers.frames layers'.frames := by
  induction h with
  | nil =>
    refine .cons ⟨rfl, .nil, List.forall₂_same.mpr fun f hf ↦ ?_⟩ .nil
    obtain ⟨b, -, rfl⟩ := List.mem_map.mp hf
    exact b.fadesTo K
  | cons hlayer _ ih =>
    refine List.rel_append ih (.cons ?_ .nil)
    rw [ih.length_eq]
    exact Frame.fades_variables (Frame.fades_functions ⟨rfl, .nil, .nil⟩ hlayer.functions) hlayer.vars

theorem Layers.fades_start (n n' : Nat) : (layers.start n).FadesTo K (layers'.start n') := by
  have hframes := Layers.fades_frames h
  rw [Layers.start_eq, Layers.start_eq]
  refine ⟨.ofList (List.rel_append hframes (.cons ⟨?_, .nil, .nil⟩ .nil)), hframes.length_eq.symm, rfl, rfl⟩
  rw [hframes.length_eq]

theorem FunctionText.fades_start {t t' : FunctionText} (ht : t.FadesTo K t') (n n' : Nat) :
    (t.start layers n).FadesTo K (t'.start layers' n') := by
  have hframes := Layers.fades_frames h
  have hvars : List.Forall₂ Variable.FadesTo t.function.parameters t'.function.parameters :=
    ht.function.parameters.imp fun _ _ hv ↦ hv.1
  rw [FunctionText.start_eq, FunctionText.start_eq]
  refine ⟨.ofList (List.rel_append hframes (.cons ?_ .nil)), hframes.length_eq.symm, rfl, rfl⟩
  rw [hframes.length_eq]
  exact Frame.fades_variables ⟨rfl, .nil, .nil⟩ hvars

end Scopes

theorem Scopes.FadesTo.variablesOf {s s' : Scopes} (h : s.FadesTo K s') (scope : Nat) :
    List.Forall₂ Variable.FadesTo (s.variablesOf scope) (s'.variablesOf scope) := by
  have hframe := h.frames scope
  unfold Scopes.variablesOf
  generalize s.frames[scope]? = o, s'.frames[scope]? = o' at hframe
  cases hframe with
  | none => exact .nil
  | some hf => exact hf.vars

section Outside

variable {ms ms' : List Tree.Member}

theorem outside_retype (h : List.Forall₂ Tree.Member.Alike (ms.map (Tree.Member.retype ρ)) ms') :
    List.Forall₂ Tree.Statement.Alike (retypeAll ρ (ms.filterMap Resolver.memberStatement?))
      (ms'.filterMap Resolver.memberStatement?) := by
  induction ms generalizing ms' with
  | nil =>
    cases h
    exact .nil
  | cons m rest ih =>
    obtain ⟨m', rest', hm, hrest, rfl⟩ := List.forall₂_cons_left_iff.mp h
    have hmore := ih hrest
    cases m with
    | function text =>
      cases hm
      exact hmore
    | statement s =>
      cases hm with
      | statement hs => exact .cons hs hmore

end Outside

namespace Layer

variable {earlier earlier' : Layers} {source source' : Tree.Source}

theorem fades_ofSource (hρ : ∀ c, ρ c = c ∨ (ρ c).unknown?.isSome)
    (h : List.Forall₂ (Layer.FadesTo K) earlier earlier')
    (hs : List.Forall₂ Tree.Member.Alike (source.members.map (Tree.Member.retype ρ)) source'.members)
    (hw : Whole source.tokens) (hK : ∀ f ∈ source'.functions, K.Covers f)
    (hcalled : ∀ x ∈ callsOfAll source'.outside, K.called x) (n n' : Nat)
    (hq : (ofSource earlier source n).1.reports = []) :
    (ofSource earlier source n).1.FadesTo K (ofSource earlier' source' n').1 ∧
      (ofSource earlier' source' n').1.functions.map (·.text) = source'.functions ∧
      K.Tells (source'.unknownInHeads ++ source'.unknownOutside) (ofSource earlier' source' n').1.reports := by
  obtain ⟨hwm, -⟩ := Whole.append_iff.mp hw
  have hheads := Resolver.fades_functionHeads hρ source.members hs hwm hK
  have hstatements := Resolver.fades_statements hρ (.none : Option.Rel (Function.FadesTo K) none none)
    source.outside source'.outside (outside_retype hs) (Resolver.whole_memberStatements hwm) hcalled nofun
  -- the functions, the statements, and what is known behind them
  have hboth : Resolver.Fades K
      (fun p p' ↦ List.Forall₂ (FunctionText.FadesTo K) p.1 p'.1 ∧ p'.1.map (·.text) = source'.functions) _
      (Resolver.functionHeads source.members >>= fun ts ↦ Resolver.statements none source.outside >>= fun ss ↦
        pure (ts, ss))
      (Resolver.functionHeads source'.members >>= fun ts ↦ Resolver.statements none source'.outside >>= fun ss ↦
        pure (ts, ss)) :=
    hheads.bind (fun _ ↦ hstatements.grows.bind fun _ ↦ .pure _) fun _ _ hts ↦ hstatements.map fun _ _ _ ↦ hts
  have hempty (layers : Layers) (n : Nat) : (layers.start n).reports = [] := by rw [Layers.start_eq]
  have hquiet : (resolved earlier source n).2.reports = (earlier.start n).reports :=
    (List.reverse_eq_nil_iff.mp hq).trans (hempty _ _).symm
  obtain ⟨⟨hts, htexts⟩, hend, new, hnew, htells⟩ := hboth.fade _ _ (Layers.fades_start h n n') hquiet
  refine ⟨⟨hts, ?_⟩, htexts, ?_⟩
  · have hscope : (resolved earlier' source' n').2.scope = (resolved earlier source n).2.scope := hend.scope
    rw [ofSource_eq, ofSource_eq, hscope]
    exact hend.scopes.variablesOf _
  · have hreports : (ofSource earlier' source' n').1.reports = new := by
      change (resolved earlier' source' n').2.reports.reverse = new
      rw [show (resolved earlier' source' n').2.reports = _ from hnew, hempty, List.append_nil, List.reverse_reverse]
    exact hreports ▸ htells

end Layer

/-- On the body of a function, each type is reported that does not exist, and else what follows from losses. -/
theorem FunctionText.fades_body {layers layers' : Layers} (h : List.Forall₂ (Layer.FadesTo K) layers layers')
    {t t' : FunctionText} (ht : t.FadesTo K t') (n n' : Nat) (hq : (t.body layers n).reports = []) :
    K.Tells (unknownTypesAll t'.text.body.statements) (t'.body layers' n').reports := by
  obtain ⟨ρ, hρ, hbody⟩ := ht.body
  have hempty (t : FunctionText) (layers : Layers) (n : Nat) : (t.start layers n).reports = [] := by
    rw [FunctionText.start_eq]
  rw [FunctionText.body_eq] at hq ⊢
  obtain ⟨hreports, hmissing⟩ := List.append_eq_nil_iff.mp hq
  have hquiet : (t.resolved layers n).2.reports = (t.start layers n).reports :=
    (List.reverse_eq_nil_iff.mp hreports).trans (hempty _ _ _).symm
  have hvalued : ∀ f ∈ some t'.function, ReturnsValueAny t'.text.body.statements → K.valued f.name := by
    rintro _ ⟨⟩
    exact ht.valued
  have hfades := Resolver.fades_inside
    (Resolver.fades_statements hρ (.some ht.function) _ _ hbody ht.whole ht.called hvalued)
  obtain ⟨(hflow : List.Forall₂ _ (t.resolved layers n).1 (t'.resolved layers' n').1), -, new, hnew, htells⟩ :=
    hfades.fade _ _ (FunctionText.fades_start h ht n n') hquiet
  have hnew' : (t'.resolved layers' n').2.reports = new.reverse := by
    rw [show (t'.resolved layers' n').2.reports = _ from hnew, hempty, List.append_nil]
  have hsame := Flow.alwaysReturns_same (Code.sameFlow_flattenBody hflow (t.resolved layers n).2.nextSymbol
    (t'.resolved layers' n').2.nextSymbol)
  have hnone : ¬ (t'.function.returns ≠ .void ∧ !Flow.alwaysReturns (Code.flattenBody (t'.resolved layers' n').1
      (t'.resolved layers' n').2.nextSymbol).1) := by
    rintro ⟨hvalue, hreturns⟩
    rw [ht.function.returns.resolve_right fun h ↦ hvalue h.1] at hvalue
    rw [hsame] at hreturns
    rw [if_pos ⟨hvalue, hreturns⟩] at hmissing
    nomatch hmissing
  dsimp only
  rw [if_neg hnone, hnew', List.reverse_reverse, List.append_nil]
  exact htells

namespace Program

/-- On the bodies of functions, each type is reported that does not exist, and else what follows from losses. -/
theorem fades_functionBodies {layers layers' : Layers} (h : List.Forall₂ (Layer.FadesTo K) layers layers')
    {ts ts' : List FunctionText} (hts : List.Forall₂ (FunctionText.FadesTo K) ts ts') (n n' : Nat)
    (hq : (functionBodies layers n ts).2.1 = []) :
    K.Tells (ts'.flatMap fun t ↦ unknownTypesAll t.text.body.statements) (functionBodies layers' n' ts').2.1 := by
  induction hts generalizing n n' with
  | nil => exact .nil
  | cons ht _ ih =>
    rw [functionBodies_cons] at hq ⊢
    obtain ⟨hfirst, hrest⟩ := List.append_eq_nil_iff.mp hq
    exact (FunctionText.fades_body h ht n n' hfirst).append (ih _ _ hrest)

end Program

end SmallScript
