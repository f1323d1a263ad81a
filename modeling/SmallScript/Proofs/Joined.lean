import SmallScript.Proofs.Join.Run
import SmallScript.Proofs.Run.Assigned
import SmallScript.Proofs.Run.Limits
import SmallScript.Proofs.Shadowing
import SmallScript.Proofs.Tree.Alike

namespace SmallScript

open Code (AllOf)

def Evaluation.ofRun : EStateM.Result Halt Machine (Option Value) → Evaluation
  | .ok value m => ⟨.finished value, m.globals, m.console⟩
  | .error (.fault f) m => ⟨.failed f, m.globals, m.console⟩
  | .error .stuck m => ⟨.stuck, m.globals, m.console⟩
  | .error .unfinished m => ⟨.unfinished, m.globals, m.console⟩

/-- Whether two runs end for the same reason, if they end at all. Their last values may differ. -/
def Outcome.SameEnd : Outcome → Outcome → Prop
  | .finished _, .finished _ | .stuck, .stuck => True
  | .failed f, .failed f' => f = f'
  | _, _ => False

/-- Whether a run has the end of another, and leaves the same console and the same values of all globals, in the same
order and under other numbers. -/
structure Evaluation.Agrees (φ : Renumbering) (e e' : Evaluation) : Prop where
  outcome : e.outcome.SameEnd e'.outcome
  console : e'.console = e.console
  globals : e'.globals = e.globals.renumbered φ

theorem Outcome.SameEnd.ne {o o' : Outcome} (h : o.SameEnd o') : o ≠ .unfinished ∧ o' ≠ .unfinished := by
  constructor
  · rintro rfl
    exact h
  · rintro rfl
    cases o <;> exact h

theorem Evaluation.outcome_ofRun {r : EStateM.Result Halt Machine (Option Value)} {f : Fault}
    (h : Run.halt? r = some (.fault f)) : (ofRun r).outcome = .failed f := by
  cases r with
  | ok => nomatch h
  | error e =>
    obtain rfl := Option.some.inj h
    rfl

theorem Evaluation.agrees_of_matched {φ : Renumbering} {U V : Prop}
    {r r' : EStateM.Result Halt Machine (Option Value)}
    (h : Run.Matched U V (Machine.Leaves φ) (Run.Gives (Machine.Leaves φ) fun _ _ ↦ True) r r')
    (hU : U → (ofRun r).outcome ≠ .unfinished) (hV : V → (ofRun r').outcome ≠ .unfinished)
    (hend : (ofRun r).outcome ≠ .unfinished ∨ (ofRun r').outcome ≠ .unfinished) :
    (ofRun r).Agrees φ (ofRun r') := by
  cases h with
  | ok hok =>
    obtain ⟨b, m', rfl, hm, -⟩ := hok
    exact ⟨trivial, hm.console, hm.globals⟩
  | error e hm =>
    cases e with
    | fault f => exact ⟨rfl, hm.console, hm.globals⟩
    | stuck => exact ⟨trivial, hm.console, hm.globals⟩
    | unfinished => exact (hend.elim (· rfl) (· rfl)).elim
  | left hU' => exact absurd rfl (hU hU')
  | right hV' => exact absurd rfl (hV hV')

namespace Compilation

/-- Evaluates one compilation, and then another on what that leaves, if it finishes. -/
def evaluateInTurn (c c' : Compilation) (limits : Limits) (n : Nat) (globals : Store) (console : Console) :
    Evaluation :=
  match c.evaluate limits n globals console with
  | ⟨.finished _, globals, console⟩ => c'.evaluate limits n globals console
  | e => e

theorem evaluate_eq_ofRun {c : Compilation} (h : c.obstacles = []) (limits : Limits) (n : Nat) (globals : Store)
    (console : Console) : c.evaluate limits n globals console =
      .ofRun (c.program.run limits n (.start globals console)) := by
  simp only [evaluate, h, List.isEmpty_nil, if_true]
  split <;> rename_i heq <;> rw [heq] <;> rfl

theorem evaluateInTurn_eq_ofRun {c c' : Compilation} (h : c.obstacles = []) (h' : c'.obstacles = []) (limits : Limits)
    (n : Nat) (globals : Store) (console : Console) : c.evaluateInTurn c' limits n globals console =
      .ofRun (c.program.inTurn c'.program limits n globals console) := by
  rw [evaluateInTurn, evaluate_eq_ofRun h, Program.inTurn]
  cases c.program.run limits n (.start globals console) with
  | ok a m => exact evaluate_eq_ofRun h' limits n _ _
  | error e m => cases e <;> rfl

/-- What a compilation comes to in the end, on no globals, with a bound that is high enough. -/
def Ends (c : Compilation) (limits : Limits) (console : Console) (e : Evaluation) : Prop :=
  e.outcome ≠ .unfinished ∧ ∃ n, c.evaluate limits n .empty console = e

/-- What two compilations come to in turn. -/
def EndInTurn (c c' : Compilation) (limits : Limits) (console : Console) (e : Evaluation) : Prop :=
  e.outcome ≠ .unfinished ∧ ∃ n, c.evaluateInTurn c' limits n .empty console = e

/-- The variables that the texts declare outside functions, those of the first text first. -/
def declared (c : Compilation) : List Variable := c.layers.reverse.flatMap (·.vars)

/-- Two compilations that are evaluated in turn, and one whose program has the bodies and the statements of both: the
one comes to an end exactly if the two do, and then they agree. -/
theorem ends_of_linked {c c' joint : Compilation} {φ φ' : Renumbering} {x : Offsets}
    (hlinked : Program.Linked φ φ' x c.program c'.program joint.program) (hc : c.obstacles = [])
    (hc' : c'.obstacles = []) (hjoint : joint.obstacles = []) (hp : c.program.Standalone) (hp' : c'.program.Standalone)
    (hapart : ∀ l ∈ c.program.main.labels, ∀ l' ∈ c'.program.main.labels, x.label l' ≠ l)
    (hglobal : ∀ v : Variable, v.kind = .global → φ'.var v = φ.var v) {limits : Limits} (hsteps : limits.steps = none) (console : Console)
    (hdraws : ∀ n, (Run.final (c.program.run limits n (.start .empty console))).draws = 0) :
    (∀ e, EndInTurn c c' limits console e → ∃ e', joint.Ends limits console e' ∧ e.Agrees φ e') ∧
    ∀ e', joint.Ends limits console e' → ∃ e, EndInTurn c c' limits console e ∧ e.Agrees φ e' := by
  constructor
  · rintro e ⟨hend, n, rfl⟩
    -- The joint run may take as many steps as both runs together.
    have hmatched := hlinked.inTurn (U := True) (V := False) hsteps hp hp' hapart hglobal console (hdraws n)
      (.inr (Nat.le_refl (n + n))) (.inl trivial)
    rw [evaluateInTurn_eq_ofRun hc hc'] at hend ⊢
    have hagrees := Evaluation.agrees_of_matched hmatched (fun _ ↦ hend) nofun (.inl hend)
    exact ⟨_, ⟨hagrees.outcome.ne.2, n + n, evaluate_eq_ofRun hjoint limits _ _ _⟩, hagrees⟩
  · rintro e' ⟨hend, n, rfl⟩
    have hmatched := hlinked.inTurn (U := False) (V := True) hsteps hp hp' hapart hglobal console (hdraws n)
      (.inl trivial) (.inr (Nat.le_refl n))
    rw [evaluate_eq_ofRun hjoint] at hend ⊢
    have hagrees := Evaluation.agrees_of_matched hmatched nofun (fun _ ↦ hend) (.inr hend)
    exact ⟨_, ⟨hagrees.outcome.ne.1, n, evaluateInTurn_eq_ofRun hc hc' limits _ _ _⟩, hagrees⟩

section Standalone

variable {c : Compilation} {earlier : List Compilation}

/-- A text of a chain that is free of obstacles has a program that stands alone, if its statements use only globals
outside functions. -/
theorem Chain.standalone (h : Chain c earlier) (hclean : ∀ d ∈ c :: earlier, d.tree.reports = [])
    (hobstacles : c.obstacles = [])
    (hglobals : AllOf (·.kind = .global) (·.Uses True (·.kind = .global) fun _ ↦ True) c.program.main) :
    c.program.Standalone := by
  obtain ⟨F, hsound⟩ := h.program_sound hclean List.mem_cons_self hobstacles
  refine ⟨h.closed_of_mem List.mem_cons_self, fun f b hb ↦ ?_, ?_, fun e he ↦ ?_⟩
  · exact h.closed_of_mem (List.mem_cons_of_mem _ (List.mem_map_of_mem (Program.mem_functions_of_body? hb)))
  · refine AllOf.mono (fun v hv ↦ .inl hv) (fun e he ↦ ?_) _ hglobals
    obtain ⟨hvars, hfunctions⟩ := (Code.Expression.uses_iff e).mp he
    exact (Code.Expression.uses_iff e).mpr ⟨fun v hv ↦ .inl (hvars v hv), hfunctions⟩
  · exact Code.allTyped_iff.mp hsound.main.typed _ he

end Standalone

section Texts

open Join (firstProgram secondProgram finish)

attribute [local irreducible] ofText Tree.ofText

variable (t t₁ t₂ : String)

theorem layers_first : (first t).layers = [Join.first (Tree.ofText t).source] :=
  layers_ofText t [] Builtin.firstFree

theorem program_first : (first t).program = firstProgram (Tree.ofText t).source := by
  have hprogram := congrArg Prod.fst (program_nextSymbol_ofText t [] Builtin.firstFree)
  rw [layers_ofText] at hprogram
  exact hprogram

theorem nextSymbol_first : (first t).nextSymbol = finish (Tree.ofText t).source := by
  have hnext := congrArg Prod.snd (program_nextSymbol_ofText t [] Builtin.firstFree)
  rw [layers_ofText] at hnext
  exact hnext

theorem layers_next : ((first t₁).next t₂).layers =
    [Join.second (Tree.ofText t₁).source (Tree.ofText t₂).source, Join.first (Tree.ofText t₁).source] := by
  rw [next, layers_ofText, layers_first, nextSymbol_first]
  rfl

theorem program_next : ((first t₁).next t₂).program =
    secondProgram (Tree.ofText t₁).source (Tree.ofText t₂).source := by
  have hprogram := congrArg Prod.fst (program_nextSymbol_ofText t₂ (first t₁).layers (first t₁).nextSymbol)
  rw [layers_ofText, layers_first, nextSymbol_first] at hprogram
  rw [next, layers_first, nextSymbol_first]
  exact hprogram

theorem globals_first : AllOf (·.kind = .global) (·.Uses True (·.kind = .global) fun _ ↦ True)
    (first t).program.main := by
  rw [program_first]
  exact Join.globals_firstProgram

theorem globals_next : AllOf (·.kind = .global) (·.Uses True (·.kind = .global) fun _ ↦ True)
    ((first t₁).next t₂).program.main := by
  rw [program_next]
  exact Join.globals_secondProgram

variable {t t₁ t₂}

/-- Two texts that are evaluated in turn, and one text with the members of both, where the second text declares no
variable and no function of the first one, and no builtin function. If nothing is reported on the two, nothing is
reported on the one, and its globals are theirs, one for one, under other numbers. Without a limit on steps, and where
the first text draws no random number, it comes to an end exactly if they do, with the same fault if there is one, and
it leaves the same console and the same values of all globals, those of blocks and loops among them. -/
theorem joined (hjoins : (Tree.ofText t₁).source.Joins (Tree.ofText t₂).source (Tree.ofText t).source)
    (hclean : (Tree.ofText t).reports = []) (hfirst : (first t₁).obstacles = [])
    (hsecond : ((first t₁).next t₂).obstacles = []) :
    (first t).obstacles = [] ∧ ∃ φ : Renumbering,
      (first t).declared = ((first t₁).next t₂).declared.map φ.var ∧
      ∀ limits : Limits, limits.steps = none → ∀ console : Console,
        (∀ n, (Run.final ((first t₁).program.run limits n (.start .empty console))).draws = 0) →
        (∀ e, EndInTurn (first t₁) ((first t₁).next t₂) limits console e →
          ∃ e', (first t).Ends limits console e' ∧ e.Agrees φ e') ∧
        ∀ e', (first t).Ends limits console e' →
          ∃ e, EndInTurn (first t₁) ((first t₁).next t₂) limits console e ∧ e.Agrees φ e' := by
  obtain ⟨htree₁, hlayers₁, hprogram₁⟩ := (obstacles_eq_nil_iff _).mp hfirst
  obtain ⟨htree₂, hlayers₂, hprogram₂⟩ := (obstacles_eq_nil_iff _).mp hsecond
  rw [layers_first, Layers.reports_cons, List.append_eq_nil_iff] at hlayers₁
  rw [layers_next, Layers.reports_cons, List.append_eq_nil_iff] at hlayers₂
  rw [program_first] at hprogram₁
  rw [program_next] at hprogram₂
  obtain ⟨φ, φ', hlinked, hvars, hreports, hglobal⟩ :=
    Join.exists_linked hjoins hlayers₁.2 hlayers₂.2 hprogram₁ hprogram₂
  have hobstacles : (first t).obstacles = [] := by
    refine (obstacles_eq_nil_iff _).mpr ⟨?_, ?_, ?_⟩
    · rw [first, tree_ofText, hclean]
    · rw [layers_first, Layers.reports_cons, hreports]
      rfl
    · rw [program_first]
      exact hlinked.reports
  have hchain₁ : Chain (first t₁) [] := .first t₁ (Nat.le_refl _)
  have hchain₂ : Chain ((first t₁).next t₂) [first t₁] := .next hchain₁ t₂ (Nat.le_refl _)
  have hp : (first t₁).program.Standalone :=
    hchain₁.standalone (List.forall_mem_singleton.mpr htree₁) hfirst (globals_first t₁)
  have hp' : ((first t₁).next t₂).program.Standalone :=
    hchain₂.standalone (List.forall_mem_cons.mpr ⟨htree₂, List.forall_mem_singleton.mpr htree₁⟩) hsecond
      (globals_next t₁ t₂)
  have hdeclared : ((first t₁).next t₂).declared =
      (Join.first (Tree.ofText t₁).source).vars ++
        (Join.second (Tree.ofText t₁).source (Tree.ofText t₂).source).vars := by
    rw [declared, layers_next]
    simp
  have hdeclared' : (first t).declared = ((first t₁).next t₂).declared.map φ.var := by
    rw [hdeclared, ← hvars, declared, layers_first]
    simp
  have happart : ∀ l ∈ (first t₁).program.main.labels, ∀ l' ∈ ((first t₁).next t₂).program.main.labels,
      (Join.offsets (Tree.ofText t₁).source).label l' ≠ l := by
    rw [program_first, program_next]
    exact Join.labels_apart _ _
  rw [← program_first, ← program_first, ← program_next] at hlinked
  exact ⟨hobstacles, φ, hdeclared', fun limits hsteps console hdraws ↦
    ends_of_linked hlinked hfirst hsecond hobstacles hp hp' happart hglobal hsteps console hdraws⟩

end Texts

/-- The second text counts up a variable of the first one, and calls a function of its own that calls one of the first
text, which then fails. The first text has a block and a loop, whose variables are globals too. -/
theorem joined_two_texts :
    let t₁ := "var x = 2 \x7b var y = 5 \x7d for i = 1 to 1 \x7b \x7d function f(n: int): int \x7b return x / n \x7d"
    let t₂ := "x = x + 1 print(string(x)) function g() \x7b f(x - 3) \x7d g()"
    let t := "var x = 2 \x7b var y = 5 \x7d for i = 1 to 1 \x7b \x7d function f(n: int): int \x7b return x / n \x7d
      x = x + 1 print(string(x)) function g() \x7b f(x - 3) \x7d g()"
    (Tree.ofText t₁).source.Joins (Tree.ofText t₂).source (Tree.ofText t).source ∧ (Tree.ofText t).reports = [] ∧
      (first t₁).obstacles = [] ∧ ((first t₁).next t₂).obstacles = [] ∧
      (∀ n, (Run.final ((first t₁).program.run ⟨none, some 9, id⟩ n (.start .empty ⟨[], #[]⟩))).draws = 0) ∧
      ∃ φ e e', EndInTurn (first t₁) ((first t₁).next t₂) ⟨none, some 9, id⟩ ⟨[], #[]⟩ e ∧
        (first t).Ends ⟨none, some 9, id⟩ ⟨[], #[]⟩ e' ∧ e.Agrees φ e' ∧
        e.outcome = .failed .divisionByZero ∧ e'.console.output = #["3"] ∧
        e'.globals.entries.map (fun p ↦ (p.1.name, p.2)) =
          [("x", .int 3), ("y", .int 5), ("i", .int 2), ("upperBound", .int 1)] := by
  intro t₁ t₂ t
  let limits : Limits := ⟨none, some 9, id⟩
  have hnames : (Tree.ofText t₂).source.functionNames = ["g"] := by
    rw [Tree.ofText_ofList]
    decide +kernel
  have hbuiltins : ∀ x ∈ (Tree.ofText t₂).source.functionNames, ∀ b : Builtin, x ≠ b.function.name := by
    rw [hnames]
    intro x hx b
    obtain rfl := List.mem_singleton.mp hx
    cases b <;> decide
  have hjoins : (Tree.ofText t₁).source.Joins (Tree.ofText t₂).source (Tree.ofText t).source := by
    refine ⟨Tree.members_alike_of_same ?_, ?_, ?_, hbuiltins⟩
    · rw [Tree.ofText_ofList, Tree.ofText_ofList, Tree.ofText_ofList]
      decide +kernel
    · rw [Tree.ofText_ofList, Tree.ofText_ofList]
      decide +kernel
    · rw [Tree.ofText_ofList, Tree.ofText_ofList]
      decide +kernel
  have hclean : (Tree.ofText t).reports = [] := by
    rw [Tree.ofText_ofList]
    decide +kernel
  have hfirst : (first t₁).obstacles = [] := by
    rw [first_ofList]
    decide +kernel
  have hsecond : ((first t₁).next t₂).obstacles = [] := by
    rw [first_ofList, next_ofList]
    decide +kernel
  have hdraws : ∀ n, (Run.final ((first t₁).program.run limits n (.start .empty ⟨[], #[]⟩))).draws = 0 := by
    have hshort : ∀ n < 21, (Run.final ((first t₁).program.run limits n (.start .empty ⟨[], #[]⟩))).draws = 0 := by
      rw [first_ofList]
      decide +kernel
    have hdone : Run.halt? ((first t₁).program.run limits 20 (.start .empty ⟨[], #[]⟩)) = none := by
      rw [first_ofList]
      decide +kernel
    intro n
    rcases Nat.lt_or_ge n 20 with hn | hn
    · exact hshort n (by omega)
    · rw [Program.run_of_le _ hn (by rw [hdone]; nofun) rfl]
      exact hshort 20 (by omega)
  have hfault : Run.halt? ((first t₁).program.inTurn ((first t₁).next t₂).program limits 40 .empty ⟨[], #[]⟩) =
      some (.fault .divisionByZero) := by
    rw [first_ofList, next_ofList]
    decide +kernel
  obtain ⟨e, he⟩ : ∃ e, (first t₁).evaluateInTurn ((first t₁).next t₂) limits 40 .empty ⟨[], #[]⟩ = e := ⟨_, rfl⟩
  have hprinted : e.console.output = #["3"] := by
    rw [← he, first_ofList, next_ofList]
    decide +kernel
  have hvalues : e.globals.entries.map (fun p ↦ (p.1.name, p.2)) =
      [("x", .int 3), ("y", .int 5), ("i", .int 2), ("upperBound", .int 1)] := by
    rw [← he, first_ofList, next_ofList]
    decide +kernel
  have houtcome : e.outcome = .failed .divisionByZero := by
    rw [← he, evaluateInTurn_eq_ofRun hfirst hsecond]
    exact Evaluation.outcome_ofRun hfault
  have hturn : EndInTurn (first t₁) ((first t₁).next t₂) limits ⟨[], #[]⟩ e := ⟨by rw [houtcome]; nofun, 40, he⟩
  obtain ⟨-, φ, -, hends⟩ := joined hjoins hclean hfirst hsecond
  obtain ⟨e', hend, hagrees⟩ := (hends limits rfl ⟨[], #[]⟩ hdraws).1 e hturn
  refine ⟨hjoins, hclean, hfirst, hsecond, hdraws, φ, e, e', hturn, hend, hagrees, houtcome, ?_, ?_⟩
  · rw [hagrees.console, hprinted]
  · rw [hagrees.globals, Store.renumbered, List.map_map]
    exact hvalues

end Compilation

end SmallScript
