import SmallScript.Program
import SmallScript.Proofs.Code.Flatten
import SmallScript.Proofs.Typing.Basic
import SmallScript.Proofs.Typing.Layer

namespace SmallScript

namespace Code

/-- What flat code may use: functions that a text may call, and every variable. -/
def Rules.flat (R : Rules) : Rules := ⟨R.callable, fun _ ↦ True⟩

section Lists

variable {R : Rules} {owner : Option Function} {s : Statement} {a b : Body}

@[simp]
theorem allTyped_nil : AllTyped R owner [] := trivial

@[simp]
theorem allTyped_cons : AllTyped R owner (s :: b) ↔ s.WellTyped R owner ∧ AllTyped R owner b := .rfl

@[simp]
theorem allTyped_append : AllTyped R owner (a ++ b) ↔ AllTyped R owner a ∧ AllTyped R owner b := by
  simp [allTyped_iff, or_imp, forall_and]

end Lists

variable {R : Rules} {owner : Option Function}

theorem Expression.WellTyped.flat {e : Expression} (h : e.WellTyped R) : e.WellTyped R.flat := by
  have hc (f : Function) (hf : R.callable f) : R.flat.callable f := hf
  exact Expression.WellTyped.mono hc (fun _ _ ↦ trivial) e h

theorem ReturnTyped.flat {e : Option Expression} (h : ReturnTyped R owner e) :
    ReturnTyped R.flat owner e := by
  cases owner with
  | none => exact h
  | some f =>
    cases e with
    | none => exact h
    | some e => exact ⟨h.1, h.2.1.flat, h.2.2⟩

theorem allTyped_flatWhile {start : Label} {condition : Expression} {b : Body} {x : Exits}
    (hc : condition.WellTyped R ∧ condition.ty = .bool) (hb : AllTyped R owner b) :
    AllTyped R owner (flatWhile start condition b x) := by
  simp [flatWhile, Statement.WellTyped, hc, hb]

theorem allTyped_flatDo {start : Label} {condition : Expression} {b : Body} {x : Exits}
    (hc : condition.WellTyped R ∧ condition.ty = .bool) (hb : AllTyped R owner b) :
    AllTyped R owner (flatDo start b condition x) := by
  simp [flatDo, Statement.WellTyped, hc, hb]

theorem wellTyped_atMost {v bound : Variable} (hv : v.ty = .int) (hb : bound.ty = .int) :
    (atMost v bound).WellTyped R := by
  simp [atMost, Expression.WellTyped, Expression.ty, hv, hb, Ty.isValue_int, BinaryOperator.all]

theorem wellTyped_increment {v : Variable} (hv : v.ty = .int) :
    (increment v).WellTyped R.flat owner := by
  simp [increment, Statement.WellTyped, Expression.WellTyped, Expression.ty, Value.ty, hv,
    Ty.isValue_int, BinaryOperator.all, Rules.flat]

mutual

theorem Statement.allTyped_flatten : (s : Statement) → (u : Supply) → s.WellTyped R owner →
    AllTyped R.flat owner (s.flatten u).1
  | .block statements, u, h => allTyped_flattenAll statements u h
  | .ifThen _ s, u, ⟨hc, h⟩ => by
    have ih := s.allTyped_flatten (u.skip 1) h
    simp [flatten_ifThen, Statement.WellTyped, hc.1.flat, hc.2, ih]
  | .ifElse _ s s', u, ⟨hc, h, h'⟩ => by
    have ih := s.allTyped_flatten (u.skip 2) h
    have ih' := s'.allTyped_flatten (s.flatten (u.skip 2)).2 h'
    simp [flatten_ifElse, Statement.WellTyped, hc.1.flat, hc.2, ih, ih']
  | .whileLoop _ s _, u, ⟨hc, h⟩ =>
    allTyped_flatWhile ⟨hc.1.flat, hc.2⟩ (s.allTyped_flatten (u.skip 1) h)
  | .doLoop s _ _, u, ⟨hc, h⟩ =>
    allTyped_flatDo ⟨hc.1.flat, hc.2⟩ (s.allTyped_flatten (u.skip 1) h)
  | .forLoop v lower upper s x, u, ⟨hv, hl, hu, h⟩ => by
    have ih := s.allTyped_flatten ((makeUpperBound v u).2.skip 2) h
    have hturn : AllTyped R.flat owner
        ((s.flatten ((makeUpperBound v u).2.skip 2)).1 ++ [.label x.again, increment v]) := by
      simp [ih, Statement.WellTyped, wellTyped_increment hv]
    refine allTyped_append.mpr ⟨⟨?_, ?_, trivial⟩, allTyped_flatWhile ⟨wellTyped_atMost hv rfl, rfl⟩ hturn⟩
    · exact ⟨hv ▸ Ty.isValue_int, hl.1.flat, hl.2.trans hv.symm⟩
    · exact ⟨Ty.isValue_int, hu.1.flat, hu.2⟩
  | .declare _ _, _, h => ⟨⟨h.1, h.2.1.flat, h.2.2⟩, trivial⟩
  | .label _, _, _ | .goto _, _, _ => ⟨trivial, trivial⟩
  | .gotoIf _ _ _, _, h => ⟨⟨h.1.flat, h.2⟩, trivial⟩
  | .leave _, _, h => ⟨ReturnTyped.flat h, trivial⟩
  | .expression e, _, h => ⟨Expression.WellTyped.flat (e := e) h, trivial⟩

theorem allTyped_flattenAll : (l : List Statement) → (u : Supply) → AllTyped R owner l →
    AllTyped R.flat owner (flattenAll l u).1
  | [], _, _ => trivial
  | s :: rest, u, h =>
    allTyped_append.mpr ⟨s.allTyped_flatten u h.1, allTyped_flattenAll rest (s.flatten u).2 h.2⟩

end

theorem allTyped_flattenBody {l : List Statement} (h : AllTyped R owner l) (n : Nat) :
    AllTyped R.flat owner (flattenBody l n).1 :=
  allTyped_flattenAll l ⟨0, n⟩ h

end Code

open Code (Body Rules AllTyped)

open SmallScript.Tree (Whole)

/-- Flat code with types whose jumps stay in it. That of a function with a value always returns. -/
structure Code.Body.Sound (R : Rules) (owner : Option Function) (b : Body) : Prop where
  flat : b.isFlat
  typed : AllTyped R owner b
  closed : ∀ l ∈ b.jumps, l ∈ b.labels
  returns : ∀ f, owner = some f → f.returns ≠ .void → Flow.alwaysReturns b

structure Program.Sound (F : Function → Prop) (p : Program) : Prop where
  proper : (Rules.source F).Proper
  main : p.main.Sound (Rules.source F).flat none
  bodies : ∀ f body, (f, body) ∈ p.functions → body.Sound (Rules.source F).flat (some f)
  callable : ∀ f, F f → (∃ b : Builtin, f = b.function) ∨
    (∃ id, f.origin = .declared id) ∧ ∃ body, (f, body) ∈ p.functions

namespace FunctionText

/-- What is known before the body of a function: the layers, and its parameters. -/
def start (t : FunctionText) (layers : Layers) (n : Nat) : Resolution :=
  { layers.start n with
    scopes := t.function.parameters.foldl
      (fun s v ↦ (s.declareVariable? (layers.start n).scope v).getD s) (layers.start n).scopes }

/-- The statements of a function, before they are flattened, and what is known after them. -/
def resolved (t : FunctionText) (layers : Layers) (n : Nat) : List Code.Statement × Resolution :=
  Resolver.inside (Resolver.statements (some t.function) t.text.body.statements) (t.start layers n)

theorem body_eq (t : FunctionText) (layers : Layers) (n : Nat) :
    t.body layers n =
      ⟨(Code.flattenBody (t.resolved layers n).1 (t.resolved layers n).2.nextSymbol).1,
        (t.resolved layers n).2.reports.reverse ++
          if t.function.returns ≠ .void ∧
            !Flow.alwaysReturns (Code.flattenBody (t.resolved layers n).1
              (t.resolved layers n).2.nextSymbol).1 then
            [⟨t.text.identifier.span, .pathWithoutReturn⟩]
          else [],
        (Code.flattenBody (t.resolved layers n).1 (t.resolved layers n).2.nextSymbol).2⟩ :=
  rfl

theorem Sound.wholeBody {t : FunctionText} (h : t.Sound) :
    Whole (Tree.statementTokens t.text.body.statements) := by
  have hw := h.whole
  simp only [Tree.Function.tokens, Tree.Block.tokens, List.cons_append, Whole.append_iff,
    Whole.cons_iff] at hw
  obtain ⟨-, -, -, ⟨-, -, -⟩, -, hbody, -⟩ := hw
  exact hbody

end FunctionText

namespace Layers.Sound

variable {layers : Layers} (h : layers.Sound)
include h

/-- The statements of a function on whose body nothing is reported. -/
theorem resolved {t : FunctionText} (ht : t.Sound) {n : Nat} (hquiet : (t.body layers n).reports = []) :
    AllTyped (Rules.source layers.Callable) (some t.function) (t.resolved layers n).1 ∧
      Code.AllJumpInside [] (t.resolved layers n).1 := by
  rw [FunctionText.body_eq] at hquiet
  obtain ⟨hreports, -⟩ := List.append_eq_nil_iff.mp hquiet
  have hscopes : (t.start layers n).scopes.Sound layers.Callable :=
    (h.start n).declareVariables _ ht.proper.1
  have howner : ∀ f, some t.function = some f → f.returns ≠ .unknown := by
    rintro _ ⟨⟩
    exact ht.proper.2
  have htyped := ((Resolver.resolves_inside
    (Resolver.resolves_statements h.proper howner _ ht.wholeBody)).sound _ hscopes
      (List.reverse_eq_nil_iff.mp hreports)).2
  exact ⟨htyped, ((Resolver.within_inside (Resolver.within_statements (some t.function)
    t.text.body.statements [])).sound (t.start layers n) rfl rfl).2⟩

theorem body {t : FunctionText} (ht : t.Sound) {n : Nat}
    (hquiet : (t.body layers n).reports = []) :
    (t.body layers n).body.Sound (Rules.source layers.Callable).flat (some t.function) := by
  obtain ⟨htyped, hjumps⟩ := h.resolved ht hquiet
  rw [FunctionText.body_eq] at hquiet ⊢
  obtain ⟨-, hreturns⟩ := List.append_eq_nil_iff.mp hquiet
  constructor
  · exact Code.flattenAll_isFlat _ _
  · exact Code.allTyped_flattenBody htyped _
  · exact fun l ↦ Code.mem_labels_flattenBody hjumps
  · rintro _ ⟨⟩ hv
    simpa [hv] using hreturns

omit h in
theorem exists_mem_functionBodies {ts : List FunctionText} {t : FunctionText} (ht : t ∈ ts)
    (n : Nat) : ∃ body, (t.function, body) ∈ (Program.functionBodies layers n ts).1 := by
  induction ts generalizing n with
  | nil => nomatch ht
  | cons t' rest ih =>
    rcases List.mem_cons.mp ht with rfl | ht
    · exact ⟨_, List.mem_cons_self⟩
    · obtain ⟨body, hbody⟩ := ih ht (t'.body layers n).nextSymbol
      exact ⟨body, List.mem_cons_of_mem _ hbody⟩

theorem functionBodies {ts : List FunctionText} (hts : ∀ t ∈ ts, t.Sound) {n : Nat}
    (hquiet : (Program.functionBodies layers n ts).2.1 = []) :
    ∀ f body, (f, body) ∈ (Program.functionBodies layers n ts).1 →
      body.Sound (Rules.source layers.Callable).flat (some f) := by
  induction ts generalizing n with
  | nil => exact fun f body hf ↦ nomatch hf
  | cons t rest ih =>
    obtain ⟨ht, hrest⟩ := List.forall_mem_cons.mp hts
    obtain ⟨hfirst, hlater⟩ := List.append_eq_nil_iff.mp hquiet
    intro f body hf
    rcases List.mem_cons.mp hf with hf | hf
    · cases hf
      exact h.body ht hfirst
    · exact ih hrest hlater f body hf

theorem latest :
    AllTyped (Rules.source layers.Callable) none (layers.head?.elim [] Layer.statements) ∧
      Code.AllJumpInside [] (layers.head?.elim [] Layer.statements) := by
  cases layers with
  | nil => exact ⟨trivial, trivial⟩
  | cons layer earlier => exact ⟨h.1.statements, h.1.jumps⟩

theorem ofLayers {n : Nat} (hquiet : (Program.ofLayers layers n).1.reports = []) :
    (Program.ofLayers layers n).1.Sound layers.Callable := by
  constructor
  · exact h.proper
  · obtain ⟨htyped, hjumps⟩ := h.latest
    exact ⟨Code.flattenAll_isFlat _ _, Code.allTyped_flattenBody htyped _,
      fun l ↦ Code.mem_labels_flattenBody hjumps, fun f hf ↦ nomatch hf⟩
  · exact h.functionBodies (fun t ht ↦ by
      obtain ⟨l, hl, ht⟩ := List.mem_flatMap.mp ht
      exact h.functions hl t ht) hquiet
  · rintro f (hb | ⟨l, hl, t, ht, rfl⟩)
    · exact .inl hb
    · exact .inr ⟨(h.functions hl t ht).declared,
        exists_mem_functionBodies (List.mem_flatMap.mpr ⟨l, hl, ht⟩) _⟩

end Layers.Sound

end SmallScript
