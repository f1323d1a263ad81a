import SmallScript.Proofs.Lowered
import SmallScript.Session.Basic

namespace SmallScript

open Code (Body onceAll)
open scoped List

theorem Run.get?_bindArguments {limits : Limits} {invoke : Run.Invoke} {vs : List Variable} {v : Variable}
    (hv : v ∉ vs) {es : List Code.Expression} {frame frame' : Store} {m m' : Machine}
    (h : Run.bindArguments limits invoke frame vs es m = .ok frame' m') : frame'.get? v = frame.get? v := by
  induction vs generalizing es frame m with
  | nil =>
    cases es <;> (cases h; rfl)
  | cons w vs ih =>
    cases es with
    | nil =>
      cases h
      rfl
    | cons e es =>
      obtain ⟨hne, hv⟩ := List.ne_and_not_mem_of_not_mem_cons hv
      obtain ⟨_, _, _, h⟩ := Run.bind_eq_ok h
      obtain ⟨_, _, _, h⟩ := Run.bind_eq_ok h
      rw [ih hv h, Store.get?_set, if_neg hne]

section Steady

variable {d : Nat} {v : Variable} {ms ms' : List Machine} {m m' : Machine}

theorem Steady.of_same {o : Option Value} (h : ∀ m ∈ ms, m.at? d v = o) : Steady d v ms :=
  List.pairwise_of_forall_mem_list fun m hm m' hm' _ hx ↦ ((h m' hm').trans (h m hm).symm).trans hx

theorem Steady.append (h : Steady d v (ms ++ [m])) (h' : Steady d v (m' :: ms'))
    (hsame : m'.at? d v = m.at? d v) : Steady d v (ms ++ m' :: ms') := by
  refine List.pairwise_append.mpr ⟨(List.pairwise_append.mp h).1, h', fun first hfirst next hnext x hx ↦ ?_⟩
  have hm := hsame.trans (h.now first hfirst x hx)
  rcases List.mem_cons.mp hnext with rfl | hnext
  · exact hm
  · exact (List.pairwise_cons.mp h').1 next hnext x hm

end Steady

namespace Compilation

/-- The machines of a run of a compilation. There are none where anything is reported. -/
def machines (c : Compilation) (limits : Limits) (n : Nat) (globals : Store) (console : Console) : List Machine :=
  if c.obstacles.isEmpty then c.program.machines limits n c.program.main (.start globals console) else []

def Lets (c : Compilation) (v : Variable) : Prop :=
  v.readOnly = true ∧ ∃ layer ∈ c.layer?, v ∈ onceAll layer.statements

/-- A read-only variable that a text declares by `let` outside loops, or that its run may give a value. -/
def Fixes (c : Compilation) (v : Variable) : Prop :=
  c.Lets v ∨ v.readOnly = true ∧ c.obstacles = [] ∧ ∃ s ∈ c.program.main, v ∈ s.assigned

attribute [local irreducible] ofText

variable {c : Compilation} {earlier : List Compilation}

theorem globals_evaluate (h : c.obstacles = []) (limits : Limits) (n : Nat) (globals : Store) (console : Console) :
    (c.evaluate limits n globals console).globals =
      (Run.final (c.program.run limits n (.start globals console))).globals := by
  simp only [evaluate, h, List.isEmpty_nil, if_true]
  split <;> rename_i heq <;> rw [heq] <;> rfl

theorem Chain.among_of_fixes {text : String} {layers : Layers} {n m : Nat} (h : Chain (ofText text layers n) earlier)
    (hclean : ∀ d ∈ ofText text layers n :: earlier, d.tree.reports = []) (hnumbered : layers.Numbered m)
    (hmn : m ≤ n) {v : Variable} (hv : (ofText text layers n).Fixes v) :
    v.Among .global n (ofText text layers n).nextSymbol := by
  rcases hv with ⟨-, layer, hlayer, hv⟩ | ⟨hfixed, hobstacles, s, hs, hv⟩
  · rw [layer?_ofText text layers n hlayer, layerOf] at hv
    have hintroduced := Layer.introduced layers (Tree.ofText text).source n
    obtain ⟨hkind, hlo, hhi⟩ := hintroduced.numbered v (Code.onceAll_subset _ hv)
    exact ⟨hkind, hlo, Nat.lt_of_lt_of_le hhi (ofSource_le_ofText text layers n hnumbered hmn)⟩
  · have hsound := h.layers_sound hclean ((obstacles_eq_nil_iff _).mp hobstacles).2.1
    exact (lowered_main_ofText text layers n hnumbered hmn hsound).own (by decide) hs hv hfixed

section Run

variable {v : Variable} {globals : Store} (limits : Limits) (n : Nat) (console : Console)

def passed (c : Compilation) (limits : Limits) (n : Nat) (globals : Store) (console : Console) : List Machine :=
  let e := c.evaluate limits n globals console
  c.machines limits n globals console ++ [.start e.globals e.console]

theorem passed_of_obstacles (h : c.obstacles ≠ []) :
    c.passed limits n globals console = [.start globals console] := by
  rw [passed, evaluate_of_obstacles _ _ _ _ _ h, machines, if_neg (mt List.isEmpty_iff.mp h)]
  rfl

theorem exists_passed (h : c.obstacles = []) : ∃ ms m m',
    c.program.machines limits n c.program.main (.start globals console) = ms ++ [m] ∧
      c.passed limits n globals console = ms ++ [m] ++ [m'] ∧ m'.at? 0 v = m.at? 0 v := by
  let e := c.evaluate limits n globals console
  refine ⟨_, _, .start e.globals e.console, rfl, ?_, ?_⟩
  · exact congrArg (· ++ _) (if_pos (List.isEmpty_iff.mpr h))
  · rw [Machine.at?_zero, Machine.at?_zero]
    exact congrArg (Store.get? · v) (globals_evaluate h limits n globals console)

theorem exists_passed_eq_cons : ∃ m ms, c.passed limits n globals console = m :: ms ∧
    m.at? 0 v = globals.get? v := by
  by_cases h : c.obstacles = []
  · rw [passed, machines, if_pos (List.isEmpty_iff.mpr h)]
    exact ⟨.start globals console, _, rfl, Machine.at?_zero _ v⟩
  · exact ⟨_, _, passed_of_obstacles limits n console h, Machine.at?_zero _ v⟩

variable (h : Chain c earlier) (hclean : ∀ d ∈ c :: earlier, d.tree.reports = [])
include h hclean

theorem Chain.value_of_mem_passed (hfixed : v.readOnly = true) (hv : ¬c.Fixes v) :
    ∀ m ∈ c.passed limits n globals console, m.at? 0 v = globals.get? v := by
  by_cases hobstacles : c.obstacles = []
  · have hspared : ∀ s ∈ c.program.main, v ∉ s.assigned := fun s hs hassigned ↦
      hv (.inr ⟨hfixed, hobstacles, s, hs, hassigned⟩)
    have hall : ∀ m ∈ c.program.machines limits n c.program.main (.start globals console),
        m.at? 0 v = globals.get? v := fun m hm ↦
      (Program.value_of_mem_machines (h.spares hclean hobstacles hfixed) hspared limits n _ m hm).trans
        (Machine.at?_zero _ v)
    obtain ⟨ms, m, m', hms, hpassed, hlast⟩ := exists_passed (v := v) limits n console hobstacles
    rw [hms] at hall
    rw [hpassed]
    refine List.forall_mem_append.mpr ⟨hall, List.forall_mem_singleton.mpr (hlast.trans (hall m ?_))⟩
    exact List.mem_append_right _ (List.mem_singleton_self m)
  · rw [passed_of_obstacles limits n console hobstacles]
    exact List.forall_mem_singleton.mpr (Machine.at?_zero _ v)

/-- A run in which a variable declared by `let` has no value at first keeps the value it is given. -/
theorem Chain.steady_passed (hv : c.Lets v) (hnone : globals.get? v = none) :
    Steady 0 v (c.passed limits n globals console) := by
  obtain ⟨hfixed, layer, hlayer, hlet⟩ := hv
  by_cases hobstacles : c.obstacles = []
  · obtain ⟨_, _, _, hlowered⟩ := h.lowered hclean hobstacles (.main hlayer)
    obtain ⟨cut, hcut⟩ := hlowered.exists_cut hlet hfixed
    have hsteady := Program.steady_of_cut (h.spares hclean hobstacles hfixed) hcut limits n
      (m := .start globals console) ((Machine.at?_zero _ v).trans hnone)
    obtain ⟨ms, m, m', hms, hpassed, hlast⟩ := exists_passed (v := v) limits n console hobstacles
    rw [hms] at hsteady
    rw [hpassed, List.append_assoc]
    exact hsteady.append (List.pairwise_pair.mpr fun x hx ↦ hlast.trans hx) rfl
  · rw [passed_of_obstacles limits n console hobstacles]
    exact List.pairwise_singleton _ _

/-- Within one activation of a function, its parameters and what it declares by `let` outside loops keep the
values that they are given. -/
theorem Chain.steady_activation (hobstacles : c.obstacles = []) {t : FunctionText}
    (ht : t ∈ c.layers.flatMap (·.functions)) {k : Nat} (hb : c.program.Binds t (t.body c.layers k))
    {es : List Code.Expression} {k' : Nat} {frame : Store} {m m' : Machine}
    (hbind : Run.bindArguments limits (Run.call c.program limits k') .empty t.function.parameters es m' = .ok frame m) :
    let ms := c.program.machines limits n (t.body c.layers k).body { m with frames := frame :: m.frames }
    (∀ v ∈ t.function.parameters, ∀ m' ∈ ms, m'.at? (m.frames.length + 1) v = frame.get? v) ∧
      ∀ v ∈ onceAll (t.resolved c.layers k).1, v.readOnly = true → Steady (m.frames.length + 1) v ms := by
  have hparameters := (h.numbered.functions ht).fixed
  obtain ⟨-, hlayers, hprogram⟩ := (obstacles_eq_nil_iff c).mp hobstacles
  have hsound := h.layers_sound hclean hlayers
  obtain ⟨l, hl, hlt⟩ := List.mem_flatMap.mp ht
  have hlowered := hsound.lowered (hsound.functions hl t hlt) (List.infix_nil.mp (hprogram ▸ hb.reports))
  refine ⟨fun v hv ↦ ?_, fun v hv hfixed ↦ ?_⟩
  · obtain ⟨hkind, hfixed⟩ := hparameters v hv
    have hspared : ∀ s ∈ (t.body c.layers k).body, v ∉ s.assigned := fun s hs hassigned ↦ by
      have hlocal := (hlowered.own (by decide) hs hassigned hfixed).1
      rw [hkind] at hlocal
      nomatch hlocal
    intro m' hm'
    refine (Program.value_of_mem_machines (h.spares hclean hobstacles hfixed) hspared limits n _ m' hm').trans ?_
    exact Machine.at?_enter m frame (hkind ▸ by decide)
  · have hkind := (hlowered.declared (Code.onceAll_subset _ hv)).1
    have hnot : v ∉ t.function.parameters := fun hv' ↦ nomatch hkind.symm.trans (hparameters v hv').1
    obtain ⟨cut, hcut⟩ := hlowered.exists_cut hv hfixed
    refine Program.steady_of_cut (h.spares hclean hobstacles hfixed) hcut limits n
      (m := { m with frames := frame :: m.frames }) ?_
    refine (Machine.at?_enter m frame (hkind ▸ by decide)).trans ?_
    exact (Run.get?_bindArguments hnot hbind).trans (Store.get?_empty v)

end Run

end Compilation

namespace Session

attribute [local irreducible] Compilation.ofText

/-- How a session may go in which texts have no reports of their own. Each goes on from one compiled before it, or
from none, and runs at most once: `waiting` have not been run, `done` have been. The machines that were passed
are in `seen`, in their order. -/
inductive Course : Session → (waiting done : List Compilation) → (seen : List Machine) → Prop
  | start (input : List String) : Course (.start input) [] [] []
  | compile {s : Session} {waiting done : List Compilation} {seen : List Machine} (h : Course s waiting done seen)
      (base : Option Compilation) (hbase : ∀ b ∈ base, b ∈ waiting ++ done) (text : String)
      (hclean : (Tree.ofText text).reports = []) :
      Course (s.compile base text).2 ((s.compile base text).1 :: waiting) done seen
  | evaluate {s : Session} {before after done : List Compilation} {seen : List Machine} {c : Compilation}
      (h : Course s (before ++ c :: after) done seen) (limits : Limits) (n : Nat) :
      Course (s.evaluate limits n c).2 (before ++ after) (c :: done)
        (seen ++ c.machines limits n s.globals s.console)
  | console {s : Session} {waiting done : List Compilation} {seen : List Machine} (h : Course s waiting done seen)
      (console : Console) : Course { s with console } waiting done seen

/-- What goes on through a session: no two texts give values to one read-only variable, those that wait have
values for none, and what is declared by `let` has kept its values. -/
structure Settled (s : Session) (waiting done : List Compilation) (seen : List Machine) : Prop where
  symbols : Builtin.firstFree ≤ s.nextSymbol
  members : ∀ c ∈ waiting ++ done, c.nextSymbol ≤ s.nextSymbol ∧ (∀ v, c.Fixes v → v.id < c.nextSymbol) ∧
    ∃ earlier, Compilation.Chain c earlier ∧ ∀ d ∈ c :: earlier, d.tree.reports = []
  apart : (waiting ++ done).Pairwise fun c d ↦ ∀ v, c.Fixes v → ¬d.Fixes v
  unset : ∀ v, v.readOnly = true → (s.nextSymbol ≤ v.id ∨ ∃ c ∈ waiting, c.Fixes v) → s.globals.get? v = none
  steady : ∀ v, v.readOnly = true → (s.nextSymbol ≤ v.id ∨ ∃ c ∈ waiting ++ done, c.Lets v) →
    Steady 0 v (seen ++ [.start s.globals s.console])

namespace Settled

variable {s : Session} {waiting done before after : List Compilation} {seen : List Machine} {c : Compilation}

theorem start (input : List String) : Settled (.start input) [] [] [] where
  symbols := Nat.le_refl _
  members _ hc := nomatch hc
  apart := .nil
  unset v _ _ := Store.get?_empty v
  steady _ _ _ := List.pairwise_singleton _ _

theorem console (h : Settled s waiting done seen) (console : Console) :
    Settled { s with console } waiting done seen where
  symbols := h.symbols
  members := h.members
  apart := h.apart
  unset := h.unset
  steady v hfixed hv := (h.steady v hfixed hv).replace fun _ hx ↦ hx

theorem compiled (h : Settled s waiting done seen) {base : Option Compilation}
    (hbase : ∀ b ∈ base, b ∈ waiting ++ done) {text : String} (hclean : (Tree.ofText text).reports = []) :
    ∃ c, s.compile base text = (c, { s with nextSymbol := c.nextSymbol, clean := (s.compile base text).2.clean }) ∧
      s.nextSymbol ≤ c.nextSymbol ∧ (∀ v, c.Fixes v → v.Among .global s.nextSymbol c.nextSymbol) ∧
      ∃ earlier, Compilation.Chain c earlier ∧ ∀ d ∈ c :: earlier, d.tree.reports = [] := by
  have htree (layers : Layers) : (Compilation.ofText text layers s.nextSymbol).tree.reports = [] := by
    rw [Compilation.tree_ofText, hclean]
  cases base with
  | none =>
    have hempty : Layers.Numbered 0 [] := ⟨(fun _ hl ↦ nomatch hl), .nil⟩
    have hchain := Compilation.Chain.first text h.symbols
    have hall : ∀ d ∈ [Compilation.ofText text [] s.nextSymbol], d.tree.reports = [] :=
      List.forall_mem_singleton.mpr (htree [])
    exact ⟨_, rfl, Compilation.le_ofText text [] _ hempty (Nat.zero_le _),
      fun v hv ↦ hchain.among_of_fixes hall hempty (Nat.zero_le _) hv, _, hchain, hall⟩
  | some b =>
    obtain ⟨hle, -, earlier, hb, hearlier⟩ := h.members b (hbase b rfl)
    have hchain := hb.next text hle
    have hall : ∀ d ∈ Compilation.ofText text b.layers s.nextSymbol :: b :: earlier, d.tree.reports = [] :=
      List.forall_mem_cons.mpr ⟨htree b.layers, hearlier⟩
    exact ⟨_, rfl, Compilation.le_ofText text b.layers _ hb.numbered hle,
      fun v hv ↦ hchain.among_of_fixes hall hb.numbered hle hv, _, hchain, hall⟩

theorem compile (h : Settled s waiting done seen) (base : Option Compilation)
    (hbase : ∀ b ∈ base, b ∈ waiting ++ done) (text : String) (hclean : (Tree.ofText text).reports = []) :
    Settled (s.compile base text).2 ((s.compile base text).1 :: waiting) done seen := by
  obtain ⟨c, hc, hle, hfixes, hchain⟩ := h.compiled hbase hclean
  rw [hc]
  have hnew {v : Variable} (hv : c.nextSymbol ≤ v.id ∨ c.Fixes v) : s.nextSymbol ≤ v.id :=
    hv.elim (Nat.le_trans hle) fun hv ↦ (hfixes v hv).2.1
  refine ⟨Nat.le_trans h.symbols hle, ?_, ?_, fun v hfixed hv ↦ ?_, fun v hfixed hv ↦ ?_⟩
  · refine List.forall_mem_cons.mpr ⟨⟨Nat.le_refl _, fun v hv ↦ (hfixes v hv).2.2, hchain⟩, fun d hd ↦ ?_⟩
    obtain ⟨hd, hown, hchain⟩ := h.members d hd
    exact ⟨Nat.le_trans hd hle, hown, hchain⟩
  · refine List.pairwise_cons.mpr ⟨fun d hd v hv hv' ↦ ?_, h.apart⟩
    obtain ⟨hd, hown, -⟩ := h.members d hd
    have hlo := hnew (.inr hv)
    have hhi := hown v hv'
    omega
  · refine h.unset v hfixed ?_
    rw [List.exists_mem_cons_iff] at hv
    exact or_assoc.mpr hv |>.imp_left hnew
  · refine h.steady v hfixed ?_
    rw [List.cons_append, List.exists_mem_cons_iff] at hv
    exact or_assoc.mpr hv |>.imp_left fun hv ↦ hnew (hv.imp_right .inl)

theorem evaluate (h : Settled s (before ++ c :: after) done seen) (limits : Limits) (n : Nat) :
    Settled (s.evaluate limits n c).2 (before ++ after) (c :: done)
      (seen ++ c.machines limits n s.globals s.console) := by
  have hperm : (before ++ c :: after) ++ done ~ c :: (before ++ after ++ done) := by simp
  have hperm' : (before ++ after) ++ c :: done ~ c :: (before ++ after ++ done) := List.perm_middle
  have hmem {d : Compilation} : d ∈ (before ++ after) ++ c :: done ↔ d ∈ (before ++ c :: after) ++ done :=
    hperm'.mem_iff.trans hperm.mem_iff.symm
  have hwaits : c ∈ before ++ c :: after := List.mem_append_right _ List.mem_cons_self
  obtain ⟨-, hown, earlier, hchain, hclean⟩ := h.members c (List.mem_append_left _ hwaits)
  have hpairs := h.apart.perm hperm fun hcd v hd hc ↦ hcd v hc hd
  have hapart {d : Compilation} (hd : d ∈ before ++ after ++ done) {v : Variable} (hv : d.Fixes v) : ¬c.Fixes v :=
    fun hc ↦ (List.pairwise_cons.mp hpairs).1 d hd v hc hv
  have hnew {v : Variable} (hv : s.nextSymbol ≤ v.id) : ¬c.Fixes v := fun hc ↦ by
    have hle := (h.members c (List.mem_append_left _ hwaits)).1
    have hlt := hown v hc
    omega
  have hkeeps {v : Variable} (hfixed : v.readOnly = true) (hv : ¬c.Fixes v) :
      ∀ m ∈ c.passed limits n s.globals s.console, m.at? 0 v = s.globals.get? v :=
    hchain.value_of_mem_passed limits n s.console hclean hfixed hv
  refine ⟨h.symbols, fun d hd ↦ h.members d (hmem.mp hd), ?_, fun v hfixed hv ↦ ?_, fun v hfixed hv ↦ ?_⟩
  · exact hpairs.perm hperm'.symm fun hcd v hd hc ↦ hcd v hc hd
  · have hspared : ¬c.Fixes v := hv.elim hnew fun ⟨d, hd, hv⟩ ↦ hapart (List.mem_append_left _ hd) hv
    have hlast := hkeeps hfixed hspared _ (List.mem_append_right _ (List.mem_singleton_self _))
    rw [Machine.at?_zero] at hlast
    refine hlast.trans (h.unset v hfixed (hv.imp_right fun ⟨d, hd, hv⟩ ↦ ⟨d, ?_, hv⟩))
    rcases List.mem_append.mp hd with hd | hd
    · exact List.mem_append_left _ hd
    · exact List.mem_append_right _ (List.mem_cons_of_mem c hd)
  · have hbefore := h.steady v hfixed (hv.imp_right fun ⟨d, hd, hv⟩ ↦ ⟨d, hmem.mp hd, hv⟩)
    obtain ⟨m, ms, hpassed, hsame⟩ : ∃ m ms, c.passed limits n s.globals s.console = m :: ms ∧
        m.at? 0 v = s.globals.get? v := Compilation.exists_passed_eq_cons limits n s.console
    have hrun : Steady 0 v (c.passed limits n s.globals s.console) := by
      by_cases hlet : c.Lets v
      · exact hchain.steady_passed limits n s.console hclean hlet (h.unset v hfixed (.inr ⟨c, hwaits, .inl hlet⟩))
      · refine .of_same (hkeeps hfixed (hv.elim hnew fun ⟨d, hd, hv⟩ ↦ ?_))
        have hother := (List.mem_cons.mp (hperm'.mem_iff.mp hd)).resolve_left fun hcd ↦ hlet (hcd ▸ hv)
        exact hapart hother (.inl hv)
    rw [List.append_assoc]
    change Steady 0 v (seen ++ c.passed limits n s.globals s.console)
    rw [hpassed] at hrun ⊢
    exact hbefore.append hrun (hsame.trans (Machine.at?_zero (.start s.globals s.console) v).symm)

end Settled

theorem Course.submit {s : Session} {done : List Compilation} {seen : List Machine} (h : Course s [] done seen)
    (base : Option Compilation) (hbase : ∀ b ∈ base, b ∈ done) (text : String)
    (hclean : (Tree.ofText text).reports = []) (limits : Limits) (n : Nat) :
    Course ((s.compile base text).2.evaluate limits n (s.compile base text).1).2 [] ((s.compile base text).1 :: done)
      (seen ++ (s.compile base text).1.machines limits n s.globals s.console) :=
  @evaluate _ [] [] _ _ _ (h.compile base hbase text hclean) limits n

theorem Course.settled {s : Session} {waiting done : List Compilation} {seen : List Machine}
    (h : Course s waiting done seen) : Settled s waiting done seen := by
  induction h with
  | start input => exact .start input
  | compile h base hbase text hclean ih => exact ih.compile base hbase text hclean
  | evaluate h limits n ih => exact ih.evaluate limits n
  | console h console ih => exact ih.console console

/-- In a session of texts without reports of their own, each of which runs at most once, also if it fails: once a
variable that a text declares by `let` outside functions and loops has a value, it has the same value in all that
is passed after that. And within one activation of a function, its parameters keep their values, and so do the
locals that it declares by `let` outside loops, once they have one. -/
theorem Course.lets_keep {s : Session} {waiting done : List Compilation} {seen : List Machine}
    (h : Course s waiting done seen) {c : Compilation} (hc : c ∈ waiting ++ done) :
    (∀ layer ∈ c.layer?, ∀ v ∈ onceAll layer.statements, v.readOnly = true → Steady 0 v seen) ∧
    (c.obstacles = [] → ∀ t ∈ c.layers.flatMap (·.functions), ∃ k, c.program.Binds t (t.body c.layers k) ∧
      ∀ (limits : Limits) (n n' : Nat) (es : List Code.Expression) (frame : Store) (m m' : Machine),
        Run.bindArguments limits (Run.call c.program limits n') .empty t.function.parameters es m' = .ok frame m →
        let activation := c.program.machines limits n (t.body c.layers k).body { m with frames := frame :: m.frames }
        (∀ v ∈ t.function.parameters, ∀ now ∈ activation, now.at? (m.frames.length + 1) v = frame.get? v) ∧
        ∀ v ∈ onceAll (t.resolved c.layers k).1, v.readOnly = true → Steady (m.frames.length + 1) v activation) := by
  have hsettled := h.settled
  obtain ⟨-, -, earlier, hchain, hclean⟩ := hsettled.members c hc
  refine ⟨fun layer hlayer v hv hfixed ↦ ?_, fun hobstacles t ht ↦ ?_⟩
  · have hsteady := hsettled.steady v hfixed (.inr ⟨c, hc, hfixed, layer, hlayer, hv⟩)
    exact (List.pairwise_append.mp hsteady).1
  · obtain ⟨k, -, hb⟩ := hchain.exists_binds ht
    exact ⟨k, hb, fun limits n n' es frame m m' hbind ↦
      hchain.steady_activation limits n hclean hobstacles ht hb hbind⟩

/-- A text with a function, and one whose run fails behind a call of it. -/
theorem Course.lets_keep_through_fault :
    let limits := Options.standard.limits 0
    let x : Variable := ⟨5, "x", .global, .int, true⟩
    let a : Variable := ⟨3, "a", .parameter, .int, true⟩
    let first := (Session.start []).compile none "let x = 8 function half(a: int): int \x7b return a / 2 \x7d"
    let s := (first.2.evaluate limits 9 first.1).2
    let second := s.compile (some first.1) "let y = half(x) / 0"
    let d := second.1
    let seen := first.1.machines limits 9 .empty ⟨[], #[]⟩ ++ d.machines limits 9 s.globals s.console
    Course (second.2.evaluate limits 9 d).2 [] [d, first.1] seen ∧
      ((d.evaluate limits 9 s.globals s.console).outcome matches .failed .divisionByZero) ∧
      (Steady 0 x seen ∧ seen.head?.map (·.at? 0 x) = some none ∧
        seen.getLast?.map (·.at? 0 x) = some (some (.int 8))) ∧
      ∃ t ∈ d.layers.flatMap (·.functions), ∃ k, d.program.Binds t (t.body d.layers k) ∧
        ∀ now ∈ d.program.machines limits 9 (t.body d.layers k).body
          { Machine.start s.globals s.console with frames := [Store.empty.set a (.int 4)] },
          now.at? 1 a = some (.int 4) := by
  intro limits x a first s second d seen
  have hfirst : first.1 = .ofTree (.ofChars _) [] 3 := Compilation.ofText_ofList ..
  have hd : d = .ofTree (.ofChars _) first.1.layers first.1.nextSymbol := Compilation.ofText_ofList ..
  have hglobals : s.globals = (first.1.evaluate limits 9 .empty ⟨[], #[]⟩).globals := rfl
  have hconsole : s.console = (first.1.evaluate limits 9 .empty ⟨[], #[]⟩).console := rfl
  have hnone (b : Compilation) (hb : b ∈ none) : b ∈ [] := absurd hb (Option.not_mem_none b)
  have hsome (b : Compilation) (hb : b ∈ some first.1) : b ∈ [first.1] :=
    Option.some.inj hb ▸ List.mem_singleton_self _
  have hclean : (Tree.ofText "let x = 8 function half(a: int): int \x7b return a / 2 \x7d").reports = [] := by
    rw [Tree.ofText_ofList]
    decide +kernel
  have hclean' : (Tree.ofText "let y = half(x) / 0").reports = [] := by
    rw [Tree.ofText_ofList]
    decide +kernel
  have hcourse := ((Course.start []).submit none hnone _ hclean limits 9).submit (some first.1) hsome _ hclean' limits 9
  have hlet : ∃ layer ∈ first.1.layer?, x ∈ onceAll layer.statements := by
    rw [hfirst]
    decide +kernel
  have hone : 0 < (d.layers.flatMap (·.functions)).length := by
    rw [hd, hfirst]
    decide +kernel
  have hparameters : ∀ t ∈ d.layers.flatMap (·.functions), t.function.parameters = [a] := by
    rw [hd, hfirst]
    decide +kernel
  have hobstacles : d.obstacles = [] := by
    rw [hd, hfirst]
    decide +kernel
  have hfault : (d.evaluate limits 9 s.globals s.console).outcome matches .failed .divisionByZero := by
    rw [hglobals, hconsole, hd, hfirst]
    decide +kernel
  have hbefore : seen.head?.map (·.at? 0 x) = some none := by
    simp only [seen]
    rw [hglobals, hconsole, hd, hfirst]
    decide +kernel
  have hafter : seen.getLast?.map (·.at? 0 x) = some (some (.int 8)) := by
    simp only [seen]
    rw [hglobals, hconsole, hd, hfirst]
    decide +kernel
  refine ⟨hcourse, hfault, ⟨?_, hbefore, hafter⟩, ?_⟩
  · obtain ⟨layer, hlayer, hx⟩ := hlet
    exact (hcourse.lets_keep (List.mem_cons_of_mem d (List.mem_singleton_self _))).1 layer hlayer x hx rfl
  · obtain ⟨t, ht⟩ := List.exists_mem_of_length_pos hone
    obtain ⟨k, hb, hkeeps⟩ := (hcourse.lets_keep List.mem_cons_self).2 hobstacles t ht
    refine ⟨t, ht, k, hb, ?_⟩
    have hbind : Run.bindArguments limits (Run.call d.program limits 9) .empty t.function.parameters [.literal (.int 4)]
        (.start s.globals s.console) = .ok (Store.empty.set a (.int 4)) (.start s.globals s.console) := by
      rw [hparameters t ht]
      rfl
    exact (hkeeps limits 9 9 _ _ _ _ hbind).1 a (hparameters t ht ▸ List.mem_singleton_self a)

end Session

end SmallScript
