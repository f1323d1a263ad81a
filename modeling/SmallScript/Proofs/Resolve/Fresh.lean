import SmallScript.Proofs.Resolve.Located
import SmallScript.Proofs.Typing.Program

namespace SmallScript

structure FunctionText.Numbered (n m : Nat) (t : FunctionText) : Prop where
  fixed : ∀ v ∈ t.function.parameters, v.kind = .parameter ∧ v.readOnly = true
  origin : ∃ id, t.function.origin = .declared id ∧ n ≤ id ∧ id < m

/-- A layer declares globals and functions with numbers from `n` on and below `m`, no function twice. -/
structure Layer.Numbered (n m : Nat) (layer : Layer) : Prop where
  vars : ∀ v ∈ layer.vars, v.kind = .global ∧ n ≤ v.id ∧ v.id < m
  functions : ∀ t ∈ layer.functions, t.Numbered n m
  distinct : layer.functions.Pairwise (·.function ≠ ·.function)

theorem FunctionText.Numbered.parameters {n m : Nat} {t : FunctionText} (h : t.Numbered n m) :
    ∀ v ∈ t.function.parameters, v.kind = .parameter := fun v hv ↦ (h.fixed v hv).1

theorem FunctionText.Numbered.mono {n m n' m' : Nat} {t : FunctionText} (h : t.Numbered n m)
    (hn : n' ≤ n) (hm : m ≤ m') : t.Numbered n' m' := by
  obtain ⟨hps, id, hid, hle, hlt⟩ := h
  exact ⟨hps, id, hid, Nat.le_trans hn hle, Nat.lt_of_lt_of_le hlt hm⟩

theorem FunctionText.Numbered.ne {n m k l : Nat} {t t' : FunctionText} (h : t.Numbered n m)
    (h' : t'.Numbered k l) (hle : m ≤ k) : t.function ≠ t'.function := by
  obtain ⟨-, id, hid, -, hlt⟩ := h
  obtain ⟨-, id', hid', hle', -⟩ := h'
  intro heq
  rw [heq, hid'] at hid
  have hsame : id' = id := Function.Origin.declared.inj hid
  omega

namespace Resolver

section Numbers

variable {α β : Type} {m : Resolver α} {f : α → Resolver β} {P : Nat → Nat → α → Prop}
  {Q : Nat → Nat → β → Prop}

/-- An action takes numbers that are free, and its result has `Q` with the next free number before the
action and that after it. -/
def Numbers (m : Resolver α) (Q : Nat → Nat → α → Prop) : Prop :=
  ∀ r, r.nextSymbol ≤ (m r).2.nextSymbol ∧ Q r.nextSymbol (m r).2.nextSymbol (m r).1

theorem Numbers.pure {a : α} (h : ∀ n, P n n a) : Numbers (pure a) P :=
  fun r ↦ ⟨Nat.le_refl _, h r.nextSymbol⟩

theorem Numbers.bind (hm : Numbers m P)
    (hf : ∀ a, Numbers (f a) fun k l b ↦ ∀ n, n ≤ k → P n k a → Q n l b) : Numbers (m >>= f) Q := by
  intro r
  obtain ⟨hle, hP⟩ := hm r
  obtain ⟨hle', hQ⟩ := hf (m r).1 (m r).2
  exact ⟨Nat.le_trans hle hle', hQ _ hle hP⟩

theorem Numbers.ite {c : Prop} [Decidable c] {m' : Resolver α} (h : Numbers m P) (h' : Numbers m' P) :
    Numbers (if c then m else m') P := by
  split
  · exact h
  · exact h'

theorem Numbers.of_eq (h : ∀ r, (m r).2.nextSymbol = r.nextSymbol) : Numbers m fun n k _ ↦ k = n :=
  fun r ↦ ⟨Nat.le_of_eq (h r).symm, h r⟩

theorem Reporting.numbers (h : Reporting m) : Numbers m fun n k _ ↦ k = n :=
  .of_eq fun r ↦ (h r).elim fun _ hnew ↦ by rw [hnew]

theorem numbers_freshSymbol : Numbers freshSymbol fun n k a ↦ a = n ∧ k = n + 1 :=
  fun _ ↦ ⟨Nat.le_succ _, rfl, rfl⟩

theorem numbers_declareFunction (g : Function) : Numbers (declareFunction g) fun n k _ ↦ k = n :=
  .of_eq fun r ↦ by rw [declareFunction_snd]

theorem numbers_parameters (seen : List String) (ps : List Tree.Parameter) :
    Numbers (parameters seen ps) fun _ _ vs ↦ ∀ v ∈ vs, v.kind = .parameter ∧ v.readOnly = true := by
  induction ps generalizing seen with
  | nil => exact .pure fun _ v hv ↦ nomatch hv
  | cons p rest ih =>
    refine .bind (reporting_clauseType? _).numbers fun o ↦ .ite ?_ ?_
    · exact .bind (Reporting.report _ _).numbers fun _ r ↦
        ⟨(ih seen r).1, fun _ _ _ _ _ _ ↦ (ih seen r).2⟩
    · refine .bind numbers_freshSymbol fun n ↦ .bind (ih _) fun vs ↦ .pure ?_
      exact fun _ _ _ hvs _ _ _ _ _ _ ↦ List.forall_mem_cons.mpr ⟨⟨rfl, rfl⟩, hvs⟩

theorem numbers_functionHead (text : Tree.Function) :
    Numbers (functionHead text) fun n m o ↦ ∀ t, o = some t → t.Numbered n m := by
  refine .bind (numbers_parameters _ _) fun vs ↦ .bind (reporting_clauseType? _).numbers fun o ↦
    .bind numbers_freshSymbol fun n ↦ .ite ?_ ?_
  · exact .pure fun _ _ _ _ _ _ _ _ _ _ t ht ↦ nomatch ht
  · refine .bind (numbers_declareFunction _) fun b ↦ .ite ?_ ?_
    · refine .pure ?_
      intro k k₁ _ h₁ k₂ _ h₂ k₃ _ h₃ k₄ _ h₄ t ht
      obtain rfl := Option.some.inj ht
      exact ⟨h₄, n, rfl, by omega, by omega⟩
    · refine .bind (Reporting.report _ _).numbers fun _ ↦ .pure ?_
      exact fun _ _ _ _ _ _ _ _ _ _ _ _ _ _ _ _ t ht ↦ nomatch ht

theorem numbers_functionHeads (ms : List Tree.Member) :
    Numbers (functionHeads ms) fun n m ts ↦
      (∀ t ∈ ts, t.Numbered n m) ∧ ts.Pairwise (·.function ≠ ·.function) := by
  induction ms with
  | nil => exact .pure fun _ ↦ ⟨fun t ht ↦ (nomatch ht), .nil⟩
  | cons m rest ih =>
    cases m with
    | statement s => exact ih
    | function text =>
      refine .bind (numbers_functionHead text) ?_
      intro o
      cases o with
      | none =>
        intro r
        obtain ⟨hle, hts, hdistinct⟩ := ih r
        exact ⟨hle, fun n hn _ ↦ ⟨fun t ht ↦ (hts t ht).mono hn (Nat.le_refl _), hdistinct⟩⟩
      | some t =>
        refine .bind ih fun ts ↦ .pure fun l k hkl ⟨hts, hdistinct⟩ n hn hhead ↦ ?_
        have ht := hhead t rfl
        refine ⟨List.forall_mem_cons.mpr ⟨ht.mono (Nat.le_refl _) hkl, fun t' ht' ↦ ?_⟩,
          .cons (fun t' ht' ↦ ht.ne (hts t' ht') (Nat.le_refl _)) hdistinct⟩
        exact (hts t' ht').mono hn (Nat.le_refl _)

end Numbers

section Located

variable {R : Region} {k : Nat}

theorem located_freshSymbol : Located R k freshSymbol fun _ ↦ True :=
  .of_log_eq (fun _ ↦ rfl) fun _ h ↦ ⟨h.freshSymbol, trivial⟩

theorem located_declareFunction {g : Function} (hg : R.callable g) :
    Located R k (declareFunction g) fun _ ↦ True :=
  .of_log_eq (fun _ ↦ rfl) fun r h ↦
    ⟨by rw [declareFunction_snd]; exact h.declareFunction hg, trivial⟩

theorem located_parameters (seen : List String) (ps : List Tree.Parameter) :
    Located R k (parameters seen ps) fun _ ↦ True := by
  induction ps generalizing seen with
  | nil => exact .pure trivial
  | cons p rest ih =>
    refine .bind (reporting_clauseType? _).located ?_
    intro o
    refine .ite (fun _ ↦ ?_) fun _ ↦ ?_
    · exact .bind (located_report _ _) fun _ ↦ (ih seen).mono fun _ _ _ _ ↦ trivial
    · exact .bind located_freshSymbol fun _ ↦ .bind (ih _) fun _ ↦ .pure fun _ _ _ ↦ trivial

theorem located_functionHead (hR : ∀ g, R.callable g) (text : Tree.Function) :
    Located R k (functionHead text) fun _ ↦ True := by
  refine .bind (located_parameters _ _) fun _ ↦ .bind (reporting_clauseType? _).located fun _ ↦
    .bind located_freshSymbol fun _ ↦ .ite (fun _ ↦ .pure fun _ _ _ ↦ trivial) fun _ ↦ ?_
  refine .bind (located_declareFunction (hR _)) fun _ ↦ .ite (fun _ ↦ .pure fun _ _ _ _ ↦ trivial)
    fun _ ↦ ?_
  exact .bind (located_report _ _) fun _ ↦ .pure fun _ _ _ _ _ ↦ trivial

theorem located_functionHeads (hR : ∀ g, R.callable g) (ms : List Tree.Member) :
    Located R k (functionHeads ms) fun _ ↦ True := by
  induction ms with
  | nil => exact .pure trivial
  | cons m rest ih =>
    cases m with
    | statement s => exact ih
    | function text =>
      refine .bind (located_functionHead hR text) ?_
      intro o
      cases o with
      | none => exact ih.mono fun _ _ _ ↦ trivial
      | some t => exact .bind ih fun _ ↦ .pure fun _ _ ↦ trivial

end Located

end Resolver

namespace Layers

variable (layers : Layers)

def globals (n first : Nat) (h : n ≤ first) : Resolver.Region where
  outer := layers.frames
  linear := layers.linear_frames
  ne_nil := layers.frames_ne_nil
  owner := none
  first := first
  declares m v := v.kind = .global ∧ n ≤ v.id ∧ v.id < m
  callable _ := True
  mono hnm hv := ⟨hv.1, hv.2.1, Nat.lt_of_lt_of_le hv.2.2 hnm⟩
  fresh _ _ _ _ hle := ⟨rfl, Nat.le_trans h hle, Nat.lt_succ_self _⟩

def locals (f : Function) (n : Nat) : Resolver.Region where
  outer := layers.frames
  linear := layers.linear_frames
  ne_nil := layers.frames_ne_nil
  owner := some f
  first := n
  declares _ v := v.kind ≠ .global
  callable _ := False
  mono _ hv := hv
  fresh _ _ _ _ _ := nofun

theorem holds_start {R : Resolver.Region} (hR : R.outer = layers.frames) {n : Nat}
    (hfirst : R.first ≤ n) : R.Holds 0 (layers.start n) := by
  rw [start_eq]
  refine ⟨[⟨some (layers.frames.length - 1), [], []⟩], by rw [hR],
    by rw [hR]; exact layers.nested_singleton rfl, fun f hf ↦ ?_, ?_, ?_, Nat.zero_le _, hfirst⟩
  · obtain rfl := List.mem_singleton.mp hf
    exact ⟨fun v hv ↦ (nomatch hv), fun g hg ↦ (nomatch hg)⟩
  · exact Nat.le_of_eq (congrArg List.length hR)
  · simp [hR]

end Layers

/-- The statements of a text that stand outside functions. -/
def Tree.Source.outside (source : Source) : List Statement := source.members.filterMap Resolver.memberStatement?

def Tree.Member.function? : Member → Option Tree.Function
  | .function f => some f
  | .statement _ => none

def Tree.Source.functions (source : Source) : List Tree.Function := source.members.filterMap Member.function?

namespace Layer

variable (earlier : Layers) (source : Tree.Source) (n : Nat)

def headed : List FunctionText × Resolution := Resolver.functionHeads source.members (earlier.start n)

def resolved : List Code.Statement × Resolution :=
  Resolver.statements none source.outside (headed earlier source n).2

theorem ofSource_eq : ofSource earlier source n =
    (⟨(headed earlier source n).1,
      (resolved earlier source n).2.scopes.variablesOf (resolved earlier source n).2.scope,
      (resolved earlier source n).1, (resolved earlier source n).2.reports.reverse⟩,
      (resolved earlier source n).2.nextSymbol) := rfl

theorem nextSymbol_start : (earlier.start n).nextSymbol = n := by rw [Layers.start_eq]

theorem le_headed : n ≤ (headed earlier source n).2.nextSymbol :=
  Nat.le_trans (Nat.le_of_eq (nextSymbol_start earlier n).symm)
    (Resolver.numbers_functionHeads source.members (earlier.start n)).1

/-- Outside functions, a text declares globals, and uses them and those of the layers before it. -/
theorem located_resolved :
    (earlier.globals n _ (le_headed earlier source n)).Holds 0 (resolved earlier source n).2 ∧
      Code.AllOf (fun v ↦ ∃ m, v.kind = .global ∧ n ≤ v.id ∧ v.id < m)
        (earlier.globals n _ (le_headed earlier source n)).Uses (resolved earlier source n).1 := by
  have hstart : (earlier.globals n n (Nat.le_refl n)).Holds 0 (earlier.start n) :=
    earlier.holds_start rfl (Nat.le_refl n)
  obtain ⟨inner, hs, hin, hdecl, hlo, hhi, hk, -⟩ :=
    ((Resolver.located_functionHeads (fun _ ↦ trivial) source.members).sound _ hstart rfl).1
  exact (Resolver.located_statements rfl source.outside 0).sound (headed earlier source n).2
    ⟨inner, hs, hin, hdecl, hlo, hhi, hk, Nat.le_refl _⟩ rfl

theorem headed_le : (headed earlier source n).2.nextSymbol ≤ (ofSource earlier source n).2 :=
  (located_resolved earlier source n).1.first_le

theorem numbered_headed :
    (∀ t ∈ (ofSource earlier source n).1.functions, t.Numbered n (headed earlier source n).2.nextSymbol) ∧
      (ofSource earlier source n).1.functions.Pairwise (·.function ≠ ·.function) := by
  have hfunctions := (Resolver.numbers_functionHeads source.members (earlier.start n)).2
  rwa [nextSymbol_start] at hfunctions

theorem numbered_ofSource :
    n ≤ (ofSource earlier source n).2 ∧
      (ofSource earlier source n).1.Numbered n (ofSource earlier source n).2 := by
  obtain ⟨hfunctions, hdistinct⟩ := numbered_headed earlier source n
  have hle := headed_le earlier source n
  obtain ⟨inner, hs, hin, hdecl, hlo, hhi, -, -⟩ := (located_resolved earlier source n).1
  refine ⟨Nat.le_trans (le_headed earlier source n) hle, fun v hv ↦ ?_,
    fun t ht ↦ (hfunctions t ht).mono (Nat.le_refl n) hle, hdistinct⟩
  rw [ofSource_eq] at hv
  obtain ⟨f, hf, hat, -⟩ := Scopes.exists_inner hlo hhi
  simp only [Scopes.variablesOf, hs, Scopes.frames_ofList] at hv
  rw [hat] at hv
  exact (hdecl f (List.mem_of_getElem? hf)).1 v hv

end Layer

namespace FunctionText

def frame (parent : Nat) (t : FunctionText) : Frame :=
  t.function.parameters.foldl Frame.withVariable ⟨some parent, [], []⟩

variable (t : FunctionText) (layers : Layers) (n : Nat)

theorem start_eq :
    t.start layers n = ⟨.ofList (layers.frames ++ [t.frame (layers.frames.length - 1)]),
      layers.frames.length, [], 0, n, []⟩ := by
  simp only [start, Layers.start_eq, Scopes.declareVariables_last]
  rfl

theorem mem_vars_frame {parent : Nat} {v : Variable} (h : v ∈ (t.frame parent).vars) :
    v ∈ t.function.parameters := by
  rcases Frame.mem_vars_foldl_withVariable h with h | h
  · nomatch h
  · exact h

theorem parent_frame (parent : Nat) : (t.frame parent).parent = some parent :=
  Frame.parent_foldl_withVariable _ _

theorem functions_frame (parent : Nat) : (t.frame parent).functions = [] :=
  Frame.functions_foldl_withVariable _ _

theorem located_resolved {t : FunctionText} (ht : ∀ v ∈ t.function.parameters, v.kind = .parameter) :
    n ≤ (t.resolved layers n).2.nextSymbol ∧
      Code.AllOf (·.kind ≠ .global) (layers.locals t.function n).Uses (t.resolved layers n).1 := by
  have hstart : (layers.locals t.function n).Holds 0 (t.start layers n) := by
    rw [start_eq]
    refine ⟨[t.frame (layers.frames.length - 1)], rfl, layers.nested_singleton (t.parent_frame _),
      fun f hf ↦ ?_, Nat.le_refl _, Nat.lt_succ_self _, Nat.zero_le _, Nat.le_refl _⟩
    · obtain rfl := List.mem_singleton.mp hf
      constructor
      · intro v hv
        have hkind := ht v (t.mem_vars_frame hv)
        exact fun hglobal ↦ nomatch hkind.symm.trans hglobal
      · intro g hg
        rw [functions_frame] at hg
        nomatch hg
  obtain ⟨hend, hof⟩ := (Resolver.located_inside
    (Resolver.located_statements rfl t.text.body.statements)).sound _ hstart rfl
  exact ⟨hend.first_le, Code.AllOf.mono (fun v ⟨_, hv⟩ ↦ hv) (fun _ h ↦ h) _ hof⟩

theorem nextSymbol_body {t : FunctionText} (ht : ∀ v ∈ t.function.parameters, v.kind = .parameter) :
    n ≤ (t.body layers n).nextSymbol := by
  rw [body_eq]
  exact Nat.le_trans (t.located_resolved layers n ht).1 (Code.nextSymbol_le_flattenBody _ _)

end FunctionText

end SmallScript
