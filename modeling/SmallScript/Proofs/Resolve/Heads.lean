import SmallScript.Proofs.Resolve.Alike
import SmallScript.Proofs.Resolve.Widens

namespace SmallScript

structure FunctionText.Moved (φ : Renumbering) (t t' : FunctionText) : Prop where
  function : t'.function = φ.func t.function
  text : t.text.Alike t'.text

/-- What is seen in two places, with the functions of the one nearest frame in the other one, behind some more. -/
def Calls (φ : Renumbering) (gs : List Function) (env env' : List Frame) : Prop :=
  ∃ f rest f' rest', env = f :: rest ∧ env' = f' :: rest' ∧ f'.functions = gs ++ f.functions.map φ.func

namespace Resolver

variable {C : Course} {E : List Frame → List Frame → Prop} {gs : List Function}

theorem functionHeads_cons (text : Tree.Function) (rest : List Tree.Member) :
    functionHeads (.function text :: rest) = functionHead text >>= fun o ↦
      o.elim (functionHeads rest) fun t ↦ functionHeads rest >>= fun ts ↦ pure (t :: ts) := by
  refine congrArg (functionHead text >>= ·) (funext fun o ↦ ?_)
  cases o <;> rfl

theorem functionHeads_append (ms ms' : List Tree.Member) :
    functionHeads (ms ++ ms') = (do
      let ts ← functionHeads ms
      let ts' ← functionHeads ms'
      return ts ++ ts') := by
  induction ms with
  | nil => rfl
  | cons m rest ih =>
    cases m with
    | statement s => exact ih
    | function text =>
      rw [List.cons_append, functionHeads_cons, functionHeads_cons, bind_assoc]
      refine congrArg (functionHead text >>= ·) (funext fun o ↦ ?_)
      cases o with
      | none => exact ih
      | some t => simp [ih]

theorem statements_append (owner : Option Function) (ss ss' : List Tree.Statement) :
    statements owner (ss ++ ss') = (do
      let code ← statements owner ss
      let code' ← statements owner ss'
      return code ++ code') := by
  induction ss with
  | nil => rfl
  | cons s rest ih =>
    have hcons (l : List Tree.Statement) : statements owner (s :: l) = (do
        let first ← statement owner s
        return first :: (← statements owner l)) := rfl
    rw [List.cons_append, hcons, hcons, ih]
    simp

theorem follows_declareFunction {f : Function} (hname : ∀ g ∈ gs, g.name ≠ f.name) :
    FollowsWith C (Calls C.numbers gs) id (declareFunction f) (declareFunction (C.numbers.func f)) where
  rises := by
    refine ⟨.of_log_eq fun r ↦ ?_, fun r ↦ Nat.le_of_eq ?_⟩ <;> rw [declareFunction_snd]
  follow r r' hr _ _ := by
    obtain ⟨hkept, g, rest, hseen, hend, hres⟩ := stacked_declareFunction f r hr.stands
    obtain ⟨hkept', g', rest', hseen', hend', hres'⟩ := stacked_declareFunction (C.numbers.func f) r' hr.stands'
    obtain ⟨h, s, h', s', heq, heq', hfunctions⟩ := hr.seen
    obtain ⟨rfl, rfl⟩ := List.cons.inj (hseen.symm.trans heq)
    obtain ⟨rfl, rfl⟩ := List.cons.inj (hseen'.symm.trans heq')
    have hlookup : g'.lookupFunction f.name = (g.lookupFunction f.name).map C.numbers.func := by
      have hnone : gs.find? (·.name == f.name) = none :=
        List.find?_eq_none.mpr fun w hw ↦ by simpa using hname w hw
      rw [Frame.lookupFunction, hfunctions, List.find?_append, hnone, Option.none_or, List.find?_map]
      rfl
    have hanswer : (g'.lookupFunction (C.numbers.func f).name).isNone = (g.lookupFunction f.name).isNone := by
      rw [show (C.numbers.func f).name = f.name from rfl, hlookup, Option.isNone_map]
    refine ⟨by rw [declareFunction_snd], hres'.trans (hanswer.trans hres.symm), hkept.stands hr.stands,
      hkept'.stands hr.stands', ?_, ?_, ?_, ?_, ?_⟩
    · rw [hend, hend', withFunction_eq_widen, withFunction_eq_widen, hanswer]
      refine ⟨_, _, _, _, rfl, rfl, ?_⟩
      cases (g.lookupFunction f.name).isNone <;> simp [hfunctions]
    · rw [declareFunction_snd, declareFunction_snd]
      exact hr.loops
    · rw [declareFunction_snd, declareFunction_snd]
      exact hr.loopCount
    · rw [declareFunction_snd, declareFunction_snd]
      exact hr.symbols
    · rw [declareFunction_snd]
      exact hr.le

theorem follows_parameters (hg : C.Takes (C.numbers.number .parameter)) (seen : List String)
    (ps ps' : List Tree.Parameter) (h : List.Forall₂ Tree.Parameter.Alike ps ps') :
    FollowsWith C E (List.map C.numbers.var) (parameters seen ps) (parameters seen ps') := by
  induction h generalizing seen with
  | nil => exact .pure rfl
  | @cons p p' rest rest' hp _ ih =>
    unfold parameters
    rw [hp.identifier.text]
    refine .bind (follows_clauseType? (.some hp.clause)) fun ty ↦ .ite Iff.rfl (fun _ ↦ ?_) fun _ ↦ ?_
    · exact .report fun _ ↦ (ih seen).rises
    · exact .bind (follows_freshSymbol hg) fun n ↦ .bind (ih _) fun vs ↦ .pure rfl

section Head

variable (hp : C.Takes (C.numbers.number .parameter)) (hf : C.Takes C.numbers.function)
include hp hf

theorem follows_functionHead {text text' : Tree.Function} (h : text.Alike text')
    (hname : ∀ g ∈ gs, g.name ≠ text.identifier.text) :
    Follows C (Calls C.numbers gs) (Option.Rel (FunctionText.Moved C.numbers)) (functionHead text)
      (functionHead text') := by
  unfold functionHead
  simp only [h.identifier.isMissing, h.identifier.text]
  refine .bind (follows_parameters hp [] _ _ h.parameters) fun ps ↦
    .bind (follows_clauseType? h.clause) fun ty ↦ .bind (follows_freshSymbol hf) fun n ↦
      .ite Iff.rfl (fun _ ↦ .pure .none) fun _ ↦ ?_
  refine .bind (follows_declareFunction (f := ⟨.declared n, text.identifier.text, ps, ty.getD .void⟩) hname)
    fun b ↦ .ite Iff.rfl (fun _ ↦ .pure (.some ⟨rfl, h⟩)) fun _ ↦ ?_
  exact .report fun _ ↦ (Reporting.pure _).rises

/-- The heads of functions on which nothing is reported are declared elsewhere, but for their numbers. -/
theorem follows_functionHeads {ms ms' : List Tree.Member} (h : List.Forall₂ Tree.Member.Alike ms ms')
    (hname : ∀ g ∈ gs, ∀ text, .function text ∈ ms → g.name ≠ text.identifier.text) :
    Follows C (Calls C.numbers gs) (List.Forall₂ (FunctionText.Moved C.numbers)) (functionHeads ms)
      (functionHeads ms') := by
  induction h with
  | nil => exact .pure .nil
  | @cons m m' rest rest' hm _ ih =>
    have hrest := ih fun g hg text htext ↦ hname g hg text (List.mem_cons_of_mem m htext)
    cases hm with
    | statement hs => exact hrest
    | @function text text' htext =>
      rw [functionHeads_cons, functionHeads_cons]
      have hhead := follows_functionHead hp hf htext fun g hg ↦ hname g hg text List.mem_cons_self
      refine hhead.bind_rises (fun o ↦ ?_) fun o o' ho ↦ ?_
      · cases o with
        | none => exact hrest.rises
        | some t => exact hrest.rises.bind fun _ ↦ (Reporting.pure _).rises
      · cases ho with
        | none => exact hrest
        | some ht =>
          exact hrest.bind_rises (fun _ ↦ (Reporting.pure _).rises) fun _ _ hts ↦ .pure (.cons ht hts)

end Head

end Resolver

end SmallScript
