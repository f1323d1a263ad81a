import SmallScript.Proofs.Closed
import SmallScript.Proofs.Resolve.Widens
import SmallScript.Proofs.Run.Assigned

namespace SmallScript

open Code (AllSettled)

theorem Seen.exists_frame {r : Resolution} {v : Variable} (h : Seen r.seen v) :
    ∃ f ∈ r.scopes.frames, v ∈ f.vars := by
  obtain ⟨f, hf, hv⟩ := h
  exact ⟨f, Scopes.mem_frames_of_mem_outward _ _ hf, hv⟩

theorem Layers.mem_vars_of_seen_start {layers : Layers} {n : Nat} {v : Variable}
    (h : Seen (layers.start n).seen v) : ∃ layer ∈ layers, v ∈ layer.vars := by
  obtain ⟨f, hf, hv⟩ := h.exists_frame
  rw [start_eq] at hf
  rcases List.mem_append.mp (List.mem_toArray.mp hf) with hf | hf
  · exact (mem_frames hf).1 v hv
  · obtain rfl := List.mem_singleton.mp hf
    nomatch hv

theorem FunctionText.mem_vars_of_seen_start {t : FunctionText} {layers : Layers} {n : Nat} {v : Variable}
    (h : Seen (t.start layers n).seen v) :
    v ∈ t.function.parameters ∨ ∃ layer ∈ layers, v ∈ layer.vars := by
  obtain ⟨f, hf, hv⟩ := h.exists_frame
  rw [start_eq] at hf
  rcases List.mem_append.mp (List.mem_toArray.mp hf) with hf | hf
  · exact .inr ((Layers.mem_frames hf).1 v hv)
  · obtain rfl := List.mem_singleton.mp hf
    exact .inl (t.mem_vars_frame hv)

/-- The statements of a function use its parameters, what they have assigned, and what is excused. -/
theorem FunctionText.allSettled_resolved (t : FunctionText) (layers : Layers) (n : Nat) {loose : List String}
    (hglobals : ∀ layer ∈ layers, ∀ v ∈ layer.vars, v.kind = .global)
    (hloose : Tree.looseAll t.text.body.statements ⊆ loose) :
    AllSettled (Excused loose True) t.function.parameters (t.resolved layers n).1 := by
  obtain ⟨-, -, parent, inner, h⟩ := Resolver.stacked_inside (Resolver.stacked_statements
    (E := Excused loose True) (some t.function) t.text.body.statements fun v hv ↦ .inr (hloose hv)) _
      (t.stands_start layers n)
  refine h _ (Resolver.Settling.known_inside parent fun v hv ↦ (mem_vars_of_seen_start hv).imp_right ?_)
  rintro ⟨layer, hlayer, hv⟩
  exact .inl ⟨hglobals layer hlayer v hv, trivial⟩

theorem Tree.loose_subset {source : Source} {m : Member} (hm : m ∈ source.members) :
    m.loose ⊆ source.loose := fun _ hx ↦ List.mem_flatMap.mpr ⟨m, hm, hx⟩

theorem Tree.looseAll_memberStatements (ms : List Member) :
    looseAll (ms.filterMap Resolver.memberStatement?) ⊆ ms.flatMap Member.loose := by
  induction ms with
  | nil => exact List.Subset.refl _
  | cons m rest ih =>
    cases m with
    | function f => exact List.Subset.trans ih (List.subset_append_right _ _)
    | statement s => exact Code.append_subset_append s.loose ih

section Layer

variable (earlier : Layers) (source : Tree.Source) (n : Nat)

theorem Layer.text_mem_members {t : FunctionText} (ht : t ∈ (ofSource earlier source n).1.functions) :
    .function t.text ∈ source.members :=
  ((Resolver.stacked_functionHeads source.members) _ (earlier.stands_start n)).2.2 t ht

theorem Layer.allSettled_ofSource :
    AllSettled (Excused source.loose False) [] (ofSource [] source n).1.statements := by
  obtain ⟨hkept, ⟨hseen, -⟩, -⟩ := Resolver.stacked_functionHeads source.members _ (Layers.stands_start [] n)
  obtain ⟨-, h⟩ := Resolver.stacked_statements (E := Excused source.loose False) none _
    (fun v hv ↦ .inr (Tree.looseAll_memberStatements _ hv)) _ (hkept.stands (Layers.stands_start [] n))
  refine h [] fun v hv ↦ ?_
  rw [hseen, seen_widen] at hv
  obtain ⟨layer, hlayer, -⟩ := Layers.mem_vars_of_seen_start hv
  nomatch hlayer

end Layer

namespace Code

mutual

theorem Expression.WellTyped.complete {R : Rules} : (e : Expression) → e.WellTyped R →
    e.Respects (fun _ ↦ True) Complete
  | .error, _ | .literal _, _ | .var _, _ => trivial
  | .assign _ e, ⟨_, _, he, _⟩ | .unary _ e, ⟨_, he, _⟩ | .convert _ e, ⟨he, _⟩ =>
    Expression.WellTyped.complete e he
  | .binary e _ e', ⟨_, ⟨he, _⟩, he', _⟩ =>
    ⟨Expression.WellTyped.complete e he, Expression.WellTyped.complete e' he'⟩
  | .call f es, ⟨_, hes⟩ => argumentsTyped_complete f.parameters es hes

theorem argumentsTyped_complete {R : Rules} : (vs : List Variable) → (es : List Expression) →
    ArgumentsTyped R vs es → es.length = vs.length ∧ AllRespect (fun _ ↦ True) Complete es
  | [], [], _ => ⟨rfl, trivial⟩
  | _ :: vs, e :: es, ⟨⟨he, _⟩, hes⟩ => by
    obtain ⟨hlength, hrest⟩ := argumentsTyped_complete vs es hes
    exact ⟨congrArg (· + 1) hlength, Expression.WellTyped.complete e he, hrest⟩

end

theorem AllTyped.complete {R : Rules} {owner : Option Function} {b : Body} (h : AllTyped R owner b) :
    ∀ s ∈ b, ∀ e ∈ s.operand?, e.Respects (fun _ ↦ True) Complete :=
  fun s hs e he ↦ Expression.WellTyped.complete e (h.operand s hs e he)

end Code

theorem Code.Body.Closed.nodup {b : Code.Body} (h : b.Closed) : b.labels.Nodup := h.names.of_map _

theorem Program.ready_ofSource {source : Tree.Source} {n m : Nat}
    (h : Layers.Sound [(Layer.ofSource [] source n).1])
    (hquiet : (ofLayers [(Layer.ofSource [] source n).1] m).1.reports = []) :
    (ofLayers [(Layer.ofSource [] source n).1] m).1.Ready source.loose := by
  have hnumbered := (Layer.numbered_ofSource [] source n).2
  have hsound := h.ofLayers hquiet
  generalize hlayer : (Layer.ofSource [] source n).1 = layer at *
  have hfunctions {f : Function} {b : Code.Body} (hf : (f, b) ∈ (ofLayers [layer] m).1.functions) :
      ∃ t ∈ layer.functions, ∃ k, f = t.function ∧ b = (t.body [layer] k).body := by
    obtain ⟨t, ht, k, hk, -⟩ := exists_of_mem_functionBodies hf
    exact ⟨t, by simpa using ht, k, Prod.mk.inj hk⟩
  constructor
  · obtain ⟨k, hk⟩ := exists_main_ofLayers layer [] m
    refine ⟨?_, hsound.main.typed.complete⟩
    rw [hk]
    have hsettled := Layer.allSettled_ofSource source n
    have hclosed := (Layer.flattened_ofSource [] source n k).closed
    rw [hlayer] at hsettled hclosed
    exact Code.exists_guarded_flattenBody hsettled h.1.jumps hclosed.nodup
  · intro f b hf
    refine ⟨?_, (hsound.bodies f b hf).typed.complete⟩
    obtain ⟨t, ht, k, rfl, rfl⟩ := hfunctions hf
    have hclosed := (t.flattened_body [layer] k).closed
    have hmember := Layer.text_mem_members [] source n (hlayer ▸ ht)
    have hsettled := t.allSettled_resolved [layer] k
      (fun l hl v hv ↦ (hnumbered.vars v (List.mem_singleton.mp hl ▸ hv)).1) (Tree.loose_subset hmember)
    have hjumps := ((Resolver.within_inside (Resolver.within_statements (some t.function)
      t.text.body.statements [])).sound (t.start [layer] k) rfl rfl).2
    rw [FunctionText.body_eq] at hclosed ⊢
    exact Code.exists_guarded_flattenBody hsettled hjumps hclosed.nodup
  · intro f b hf v hv
    obtain ⟨t, ht, k, rfl, -⟩ := hfunctions hf
    have hkind := (hnumbered.functions t ht).parameters v hv
    exact fun hglobal ↦ nomatch hkind.symm.trans hglobal

namespace Compilation

attribute [local irreducible] ofText

theorem ready_first {text : String} (h : (first text).obstacles = []) :
    (first text).program.Ready (Tree.ofText text).source.loose := by
  rw [first] at h ⊢
  obtain ⟨htree, hlayers, hprogram⟩ := (obstacles_eq_nil_iff _).mp h
  have hsound := (Chain.first text (Nat.le_refl Builtin.firstFree)).layers_sound
    (List.forall_mem_singleton.mpr htree) hlayers
  obtain ⟨m, hm⟩ := program_ofText text [] Builtin.firstFree
  rw [layers_ofText, layerOf] at hsound
  rw [hm, layers_ofText, layerOf] at hprogram ⊢
  exact Program.ready_ofSource hsound hprogram

theorem outcome_eq_failed_iff {c : Compilation} (h : c.obstacles = []) {limits : Limits} {n : Nat}
    {globals : Store} {console : Console} {f : Fault} :
    (c.evaluate limits n globals console).outcome = .failed f ↔
      Run.halt? (c.program.run limits n (.start globals console)) = some (.fault f) := by
  simp only [evaluate, h, List.isEmpty_nil, if_true]
  split <;> simp_all [Run.halt?]

/-- In a run of a text without reports, a variable that has no value when it is read is a global one that is
read in a function, or its name is declared as a branch or a loop's body that may not run. If the run fails for
want of a value, such a read is the last thing seen of it. -/
theorem unassigned_are_global {text : String} (h : (first text).obstacles = []) (limits : Limits) (n : Nat)
    (globals : Store) (console : Console) :
    (∀ name, ((first text).evaluate limits n globals console).outcome = .failed (.unassignedVariable name) →
      ∃ v m, ((first text).program.moments limits n (.start globals console)).getLast? = some ⟨.read v, m⟩ ∧
        v.name = name ∧ m.get? v = none) ∧
    ∀ v m, ⟨.read v, m⟩ ∈ (first text).program.moments limits n (.start globals console) → m.get? v = none →
      v.kind = .global ∧ m.frames ≠ [] ∨ v.name ∈ (Tree.ofText text).source.loose := by
  have hrun := Program.run_assigned (ready_first h) limits n (.start globals console) []
    ⟨rfl, rfl, fun _ ↦ False.elim, nofun, nofun⟩
  rw [List.nil_append] at hrun
  constructor
  · intro name hname
    have hhalt := (outcome_eq_failed_iff h).mp hname
    generalize (first text).program.run limits n (.start globals console) = r at hrun hhalt
    cases r with
    | ok a m => nomatch hhalt
    | error e m => exact hrun.last name (Option.some.inj hhalt)
  · intro v m hread
    generalize (first text).program.run limits n (.start globals console) = r at hrun
    cases r with
    | ok a m' => exact hrun _ hread v rfl
    | error e m' => exact hrun.reads _ hread v rfl

/-- A function is called before the global that it reads is declared. -/
theorem unassigned_are_global_early_call :
    (first "function f() \x7b print(string(x)) \x7d f() var x = 1").obstacles = [] ∧
    ∃ v m, ((first "function f() \x7b print(string(x)) \x7d f() var x = 1").program.moments
        (Options.standard.limits 0) 20 (.start .empty ⟨[], #[]⟩)).getLast? = some ⟨.read v, m⟩ ∧
      v.name = "x" ∧ v.kind = .global ∧ m.frames ≠ [] := by
  have hobstacles : (first "function f() \x7b print(string(x)) \x7d f() var x = 1").obstacles = [] := by
    rw [first_ofList]
    decide +kernel
  have houtcome : ((first "function f() \x7b print(string(x)) \x7d f() var x = 1").evaluate
      (Options.standard.limits 0) 20 .empty ⟨[], #[]⟩).outcome = .failed (.unassignedVariable "x") := by
    rw [outcome_eq_failed_iff hobstacles, first_ofList]
    decide +kernel
  have hnone : (Tree.ofText "function f() \x7b print(string(x)) \x7d f() var x = 1").source.loose = [] := by
    rw [Tree.ofText_ofList]
    decide +kernel
  obtain ⟨hlast, hread⟩ := unassigned_are_global hobstacles (Options.standard.limits 0) 20 .empty ⟨[], #[]⟩
  obtain ⟨v, m, hmoment, hname, hvalue⟩ := hlast "x" houtcome
  have hglobal := hread v m (List.mem_of_getLast? hmoment) hvalue
  rw [hnone] at hglobal
  obtain ⟨hkind, hframes⟩ := hglobal.resolve_right List.not_mem_nil
  exact ⟨hobstacles, v, m, hmoment, hname, hkind, hframes⟩

/-- A text without functions reads a variable outside calls that has no value: its declaration is a branch that
did not run, and opens no scope. -/
theorem unassigned_of_loose_declaration :
    (first "if false var x = 1 print(string(x))").obstacles = [] ∧
    ((first "if false var x = 1 print(string(x))").evaluate (Options.standard.limits 0) 20 .empty
      ⟨[], #[]⟩).outcome = .failed (.unassignedVariable "x") ∧
    (first "if false var x = 1 print(string(x))").program.functions.isEmpty ∧
    ∃ v m, ((first "if false var x = 1 print(string(x))").program.moments (Options.standard.limits 0) 20
        (.start .empty ⟨[], #[]⟩)).getLast? = some ⟨.read v, m⟩ ∧
      v.name = "x" ∧ m.frames = [] ∧ m.get? v = none := by
  have hobstacles : (first "if false var x = 1 print(string(x))").obstacles = [] := by
    rw [first_ofList]
    decide +kernel
  have hlast : ((first "if false var x = 1 print(string(x))").program.moments (Options.standard.limits 0) 20
      (.start .empty ⟨[], #[]⟩)).getLast?.any fun moment ↦ match moment.act with
        | .read v => v.name == "x" && moment.machine.frames.isEmpty && (moment.machine.get? v).isNone
        | _ => false := by
    rw [first_ofList]
    decide +kernel
  have houtcome : ((first "if false var x = 1 print(string(x))").evaluate (Options.standard.limits 0) 20 .empty
      ⟨[], #[]⟩).outcome = .failed (.unassignedVariable "x") := by
    rw [outcome_eq_failed_iff hobstacles, first_ofList]
    decide +kernel
  have hnone : (first "if false var x = 1 print(string(x))").program.functions.isEmpty := by
    rw [first_ofList]
    decide +kernel
  refine ⟨hobstacles, houtcome, hnone, ?_⟩
  obtain ⟨⟨act, m⟩, hmoment, hread⟩ := (Option.any_eq_true _ _).mp hlast
  cases act with
  | read v =>
    simp only [Bool.and_eq_true, beq_iff_eq, List.isEmpty_iff, Option.isNone_iff_eq_none] at hread
    exact ⟨v, m, hmoment, hread.1.1, hread.1.2, hread.2⟩
  | enter f => nomatch hread
  | «begin» s => nomatch hread

end Compilation

end SmallScript
