import SmallScript.Proofs.Resolve.Cites

namespace SmallScript

open Token (Kind)

namespace Resolver

open Code (Expression Statement)
open SmallScript.Tree (Place)
open Cause

section Statements

theorem cites_value {e : Tree.Expression} (h : ∀ p ∈ e.places, p.Cited) : Cites (value e) :=
  .bind (cites_expression e h) fun _ _ ↦ cites_needValue _ _

theorem cites_valueOf {e : Tree.Expression} (h : ∀ p ∈ e.places, p.Cited) (target : Ty) : Cites (valueOf target e) :=
  .bind (cites_value h) fun _ _ ↦ cites_convert _ _ _ _

theorem cites_clauseType? {clause : Option Tree.TypeClause} (h : ∀ p ∈ Tree.clausePlaces clause, p.Cited) :
    Cites (clauseType? clause) := by
  cases clause with
  | none => exact .pure trivial
  | some clause =>
    have hname : Braceless clause.identifier.text :=
      braceless_of_cited (h _ (List.mem_cons_of_mem _ List.mem_cons_self)) (by decide)
    have hcause : (typeMissing clause.identifier.text).Clear := List.forall_mem_singleton.mpr hname
    refine .ite (.pure trivial) ?_
    split
    · exact .pure trivial
    · exact .bind (.report hcause _) fun _ _ ↦ .pure trivial

theorem cites_declared (owner : Option Function) {identifier : Token} (h : Braceless identifier.text) (readOnly : Bool)
    (ty : Ty) : Cites (declared owner identifier readOnly ty) := by
  have hname : Braceless (if identifier.isMissing then "?" else identifier.text) := by
    split
    · decide
    · exact h
  have hcause : (variableRedeclared (if identifier.isMissing then "?" else identifier.text)).Clear :=
    List.forall_mem_singleton.mpr hname
  refine .bind .freshSymbol fun _ _ ↦ .ite (.bind (.declareVariable _) fun _ _ ↦ ?_) (.pure trivial)
  exact .ite (.bind (.report hcause _) fun _ _ ↦ .pure trivial) (.pure trivial)

theorem cites_declaration (owner : Option Function) (keyword : Token) {identifier : Token}
    {clause : Option Tree.TypeClause} {initializer : Tree.Expression} (hname : Braceless identifier.text)
    (hclause : ∀ p ∈ Tree.clausePlaces clause, p.Cited) (he : ∀ p ∈ initializer.places, p.Cited) :
    Cites (declaration owner keyword identifier clause initializer) :=
  .bind (cites_clauseType? hclause) fun _ _ ↦ .bind (cites_value he) fun _ _ ↦
    .bind (cites_declared owner hname _ _) fun _ _ ↦ .bind (cites_convert _ _ _ _) fun _ _ ↦ .pure trivial

theorem cites_jump {keyword : Token} (h : Braceless keyword.text) (target : Exits → Label) :
    Cites (jump keyword target) := by
  have hcause : (outsideLoop keyword.text).Clear := List.forall_mem_singleton.mpr h
  refine .bind (.of_clear fun _ ↦ id) fun r _ ↦ ?_
  split
  · exact .pure trivial
  · exact .bind (.report hcause _) fun _ _ ↦ .pure trivial

theorem cites_leaving {owner : Option Function} (howner : ∀ f ∈ owner, f.Clear) (keyword : Token)
    {e : Option Tree.Expression} (he : ∀ x ∈ e, ∀ p ∈ x.places, p.Cited) : Cites (leaving owner keyword e) := by
  have hvalue : Cites (e.mapM value) := by
    cases e with
    | none => exact .pure trivial
    | some e => exact .bind (cites_value (he e rfl)) fun _ _ ↦ .pure trivial
  refine .bind hvalue fun result _ ↦ ?_
  cases owner with
  | none =>
    have hcause : returnOutsideFunction.Clear := List.forall_mem_nil _
    exact .bind (.report hcause _) fun _ _ ↦ .pure trivial
  | some f =>
    have hvoid : (voidReturnsValue f.name).Clear := List.forall_mem_singleton.mpr (howner f rfl).name
    have hmissing : (returnValueMissing f.returns).Clear := List.forall_mem_singleton.mpr f.returns.braceless_name
    dsimp only
    split
    · exact .ite (.bind (.report hvoid _) fun _ _ ↦ .pure trivial)
        (.bind (cites_convert _ _ _ _) fun _ _ ↦ .pure trivial)
    · exact .ite (.bind (.report hmissing _) fun _ _ ↦ .pure trivial) (.pure trivial)

mutual

theorem cites_statement {owner : Option Function} (howner : ∀ f ∈ owner, f.Clear) :
    (s : Tree.Statement) → (∀ p ∈ s.places, p.Cited) → Cites (statement owner s)
  | .block _ ss _, h => by
    rw [Tree.Statement.places, List.cons_append, List.forall_mem_cons, List.forall_mem_append] at h
    exact .bind (.inside (cites_statements howner ss h.2.1)) fun _ _ ↦ .pure trivial
  | .declare keyword identifier clause equals e, h => by
    rw [Tree.Statement.places, List.cons_append, List.cons_append, List.forall_mem_cons, List.forall_mem_cons,
      List.forall_mem_append, List.forall_mem_cons] at h
    obtain ⟨-, hidentifier, hclause, -, he⟩ := h
    exact cites_declaration owner keyword (braceless_of_cited hidentifier (by decide)) hclause he
  | .ifThen _ e s, h => by
    rw [Tree.Statement.places, List.cons_append, List.forall_mem_cons, List.forall_mem_append] at h
    exact .bind (cites_valueOf h.2.1 _) fun _ _ ↦ .bind (cites_statement howner s h.2.2) fun _ _ ↦ .pure trivial
  | .ifElse _ e s _ s', h => by
    rw [Tree.Statement.places, List.cons_append, List.cons_append, List.forall_mem_cons, List.forall_mem_append,
      List.forall_mem_append, List.forall_mem_cons] at h
    obtain ⟨-, ⟨he, hs⟩, -, hs'⟩ := h
    exact .bind (cites_valueOf he _) fun _ _ ↦ .bind (cites_statement howner s hs) fun _ _ ↦
      .bind (cites_statement howner s' hs') fun _ _ ↦ .pure trivial
  | .whileLoop _ e s, h => by
    rw [Tree.Statement.places, List.cons_append, List.forall_mem_cons, List.forall_mem_append] at h
    exact .bind (cites_valueOf h.2.1 _) fun _ _ ↦ .bind (.insideLoop (cites_statement howner s h.2.2)) fun _ _ ↦
      .pure trivial
  | .doLoop _ s _ e, h => by
    rw [Tree.Statement.places, List.cons_append, List.forall_mem_cons, List.forall_mem_append, List.forall_mem_cons]
      at h
    obtain ⟨-, hs, -, he⟩ := h
    exact .bind (.insideLoop (cites_statement howner s hs)) fun _ _ ↦ .bind (cites_valueOf he _) fun _ _ ↦ .pure trivial
  | .forLoop keyword identifier equals e toKeyword e' s, h => by
    simp only [Tree.Statement.places, List.forall_mem_append, List.forall_mem_cons] at h
    obtain ⟨⟨⟨-, hidentifier, -, he⟩, -, he'⟩, hs⟩ := h
    exact .bind (cites_valueOf he _) fun _ _ ↦ .bind (cites_valueOf he' _) fun _ _ ↦
      .inside (.bind (cites_declared owner (braceless_of_cited hidentifier (by decide)) _ _) fun _ _ ↦
        .bind (.insideLoop (cites_statement howner s hs)) fun _ _ ↦ .pure trivial)
  | .breakLoop keyword, h | .continueLoop keyword, h =>
    cites_jump (braceless_of_cited (h _ (List.mem_singleton_self _)) (by decide)) _
  | .leave keyword none, h => cites_leaving howner keyword nofun
  | .leave keyword (some e), h => by
    rw [Tree.Statement.places, List.forall_mem_cons] at h
    exact cites_leaving howner keyword fun x hx ↦ Option.some.inj hx ▸ h.2
  | .expression e, h => .bind (cites_expression e h) fun _ _ ↦ .pure trivial

theorem cites_statements {owner : Option Function} (howner : ∀ f ∈ owner, f.Clear) :
    (ss : List Tree.Statement) → (∀ p ∈ Tree.statementPlaces ss, p.Cited) → Cites (statements owner ss)
  | [], _ => .pure trivial
  | s :: rest, h => by
    rw [Tree.statementPlaces, List.forall_mem_append, List.forall_mem_cons] at h
    exact .bind (cites_statement howner s h.1) fun _ _ ↦ .bind (cites_statements howner rest h.2.2) fun _ _ ↦
      .pure trivial

end

end Statements

end Resolver

structure FunctionText.Clear (t : FunctionText) : Prop where
  function : t.function.Clear
  body : ∀ p ∈ Tree.statementPlaces t.text.body.statements, p.Cited

/-- Whether no report about some texts cites an opening brace, and none about a text after them can. -/
structure Layers.Clear (layers : Layers) : Prop where
  reports : ∀ l ∈ layers, ∀ r ∈ l.reports, r.cause.Clear
  functions : ∀ l ∈ layers, ∀ t ∈ l.functions, t.Clear

namespace Resolver

open Cause

theorem cites_parameters {ps : List Tree.Parameter} (h : ∀ p ∈ Tree.parameterPlaces ps, p.Cited)
    (seen : List String) : Cites (parameters seen ps) fun vs ↦ ∀ v ∈ vs, Braceless v.name := by
  induction ps generalizing seen with
  | nil => exact .pure (List.forall_mem_nil _)
  | cons p rest ih =>
    simp only [Tree.parameterPlaces, Tree.Parameter.places, List.forall_mem_append, List.forall_mem_cons] at h
    obtain ⟨⟨hidentifier, hclause⟩, -, hrest⟩ := h
    have hname : Braceless p.identifier.text := braceless_of_cited hidentifier (by decide)
    have hcause : (parameterRepeated p.identifier.text).Clear := List.forall_mem_singleton.mpr hname
    refine .bind (cites_clauseType? hclause) fun _ _ ↦ .ite (.bind (.report hcause _) fun _ _ ↦ ih hrest _) ?_
    exact .bind .freshSymbol fun _ _ ↦ .bind (ih hrest _) fun _ hvs ↦ .pure (List.forall_mem_cons.mpr ⟨hname, hvs⟩)

theorem cites_functionHead {f : Tree.Function} (h : ∀ p ∈ f.places, p.Cited) :
    Cites (functionHead f) fun o ↦ ∀ t ∈ o, t.Clear := by
  simp only [Tree.Function.places, Tree.Block.places, List.forall_mem_append, List.forall_mem_cons] at h
  obtain ⟨⟨⟨-, hidentifier, -, hparameters⟩, -, hclause⟩, ⟨-, hbody⟩, -⟩ := h
  have hname : Braceless f.identifier.text := braceless_of_cited hidentifier (by decide)
  have hcause : (functionRedeclared f.identifier.text).Clear := List.forall_mem_singleton.mpr hname
  refine .bind (cites_parameters hparameters _) fun params hparams ↦ .bind (cites_clauseType? hclause) fun _ _ ↦
    .bind .freshSymbol fun n _ ↦ .ite (.pure fun _ h ↦ absurd h (Option.not_mem_none _)) ?_
  refine .bind (.declareFunction ⟨hname, hparams⟩) fun _ _ ↦ .ite (.pure fun t ht ↦ ?_) ?_
  · obtain rfl := Option.some.inj ht
    exact ⟨⟨hname, hparams⟩, hbody⟩
  · exact .bind (.report hcause _) fun _ _ ↦ .pure fun _ h ↦ absurd h (Option.not_mem_none _)

theorem cites_functionHeads {ms : List Tree.Member} (h : ∀ p ∈ Tree.memberPlaces ms, p.Cited) :
    Cites (functionHeads ms) fun ts ↦ ∀ t ∈ ts, t.Clear := by
  induction ms with
  | nil => exact .pure (List.forall_mem_nil _)
  | cons m rest ih =>
    rw [Tree.memberPlaces, List.forall_mem_append, List.forall_mem_cons] at h
    obtain ⟨hm, -, hrest⟩ := h
    cases m with
    | statement s => exact ih hrest
    | function f =>
      refine .bind (cites_functionHead hm) fun o ho ↦ ?_
      cases o with
      | none => exact ih hrest
      | some t => exact .bind (ih hrest) fun _ hts ↦ .pure (List.forall_mem_cons.mpr ⟨ho t rfl, hts⟩)

end Resolver

theorem Tree.cited_memberStatements {ms : List Member} (h : ∀ p ∈ memberPlaces ms, p.Cited) :
    ∀ p ∈ statementPlaces (ms.filterMap Resolver.memberStatement?), p.Cited := by
  induction ms with
  | nil => exact List.forall_mem_nil _
  | cons m rest ih =>
    rw [memberPlaces, List.forall_mem_append, List.forall_mem_cons] at h
    obtain ⟨hm, -, hrest⟩ := h
    cases m with
    | function f => exact ih hrest
    | statement s => exact List.forall_mem_append.mpr ⟨hm, List.forall_mem_cons.mpr ⟨trivial, ih hrest⟩⟩

namespace Layers.Clear

variable {layers : Layers} (h : layers.Clear)
include h

theorem start (n : Nat) : (layers.start n).Clear := by
  rw [Layers.start_eq]
  refine ⟨List.forall_mem_nil _, fun f hf g hg ↦ ?_⟩
  rcases List.mem_append.mp (List.mem_toArray.mp hf) with hf | hf
  · obtain ⟨b, rfl⟩ | ⟨l, hl, t, ht, rfl⟩ := (mem_frames hf).2 g hg
    · exact b.clear_function
    · exact (h.functions l hl t ht).function
  · obtain rfl := List.mem_singleton.mp hf
    nomatch hg

theorem ofSource {source : Tree.Source} (hsource : ∀ p ∈ source.places, p.Cited) (n : Nat) :
    Layers.Clear ((Layer.ofSource layers source n).1 :: layers) := by
  have hmembers := (List.forall_mem_append.mp hsource).1
  obtain ⟨hheaded, hfunctions⟩ := Resolver.cites_functionHeads hmembers _ (h.start n)
  have howner : ∀ f ∈ (none : Option Function), f.Clear := fun _ hf ↦ absurd hf (Option.not_mem_none _)
  obtain ⟨hreports, -⟩ := Resolver.cites_statements howner _ (Tree.cited_memberStatements hmembers) _ hheaded
  constructor
  · exact List.forall_mem_cons.mpr ⟨fun r hr ↦ hreports.reports r (List.mem_reverse.mp hr), h.reports⟩
  · exact List.forall_mem_cons.mpr ⟨hfunctions, h.functions⟩

theorem body {t : FunctionText} (ht : t.Clear) (n : Nat) : ∀ r ∈ (t.body layers n).reports, r.cause.Clear := by
  have hstart : (t.start layers n).Clear := ⟨(h.start n).reports, (h.start n).scopes.declareVariables _ _⟩
  have howner : ∀ f ∈ some t.function, f.Clear := fun f hf ↦ Option.some.inj hf ▸ ht.function
  obtain ⟨hreports, -⟩ := Resolver.Cites.inside (Resolver.cites_statements howner _ ht.body) _ hstart
  rw [t.body_eq]
  refine List.forall_mem_append.mpr ⟨fun r hr ↦ hreports.reports r (List.mem_reverse.mp hr), fun r hr ↦ ?_⟩
  split at hr
  · obtain rfl := List.mem_singleton.mp hr
    exact List.forall_mem_nil _
  · nomatch hr

end Layers.Clear

end SmallScript
