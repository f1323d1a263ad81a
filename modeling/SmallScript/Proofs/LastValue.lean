import SmallScript.Proofs.Lowered
import SmallScript.Proofs.Related
import SmallScript.Proofs.Resolve.Origins

namespace SmallScript

open Run (Visits Given given lastValue)

/-- Whether a value was given by a statement whose origin has `P`. -/
def Run.Given.isFrom (origins : List Origin) (P : Origin → Bool) (g : Given) : Bool := (origins[g.place]?).any P

/-- What the source's own expressions and declarations gave. -/
def Run.ownGiven (origins : List Origin) (l : List Given) : List Given := l.filter (·.isFrom origins Origin.isOwn)

theorem Layer.yields_flattenBody {earlier : Layers} {source : Tree.Source} {n : Nat}
    (hquiet : (ofSource earlier source n).1.reports = []) (k : Nat) :
    List.Forall₂ Origin.Yields (Tree.originsAll source.outside)
      (Code.flattenBody (ofSource earlier source n).1.statements k).1 := by
  have hstand := Resolver.stand_statements source.outside
  have hbody : (Resolver.sourceBody source (earlier.start n)).2.reports = [] := List.reverse_eq_nil_iff.mp hquiet
  have hgrows := hstand.grows (Resolver.functionHeads source.members (earlier.start n)).2
  have hheads : (Resolver.functionHeads source.members (earlier.start n)).2.reports = [] :=
    List.suffix_nil.mp (hbody ▸ hgrows)
  exact (hstand.sound _ trivial (hbody.trans hheads.symm)).2 ⟨0, k⟩

section Run

variable {limits : Limits} {invoke : Run.Invoke} {b : Code.Body} {m : Machine} {k : Nat} {p : Run.Point}
  {origins : List Origin}

theorem exists_origin (h : List.Forall₂ Origin.Yields origins b) {i : Nat} {s : Code.Statement}
    (hs : b[i]? = some s) : ∃ o, origins[i]? = some o ∧ o.Yields s :=
  exists_left_of_rel (getElem?_rel h i) hs

theorem exists_yielded (h : List.Forall₂ Origin.Yields origins b) {i : Nat} {o : Origin}
    (ho : origins[i]? = some o) : ∃ s, b[i]? = some s ∧ o.Yields s :=
  exists_right_of_rel (getElem?_rel h i) ho

theorem isFrom_of_mem_given (h : List.Forall₂ Origin.Yields origins b) {g : Given}
    (hg : g ∈ given limits invoke b m k) : g.isFrom origins Origin.isOwn ∨ g.isFrom origins Origin.isRange := by
  obtain ⟨j, -, p, s, i, m', -, hs, hvalue, -, hplace⟩ := Run.mem_given.mp hg
  obtain ⟨o, ho, hyields⟩ := exists_origin h hs
  simp only [Given.isFrom, hplace, ho, Option.any_some]
  exact hyields.isOwn_or_isRange hvalue

/-- The variable of a loop over a range is not the last one to be given a value: its bound is given one next. -/
theorem ne_counter_of_last (h : List.Forall₂ Origin.Yields origins b) (hpaired : Tree.Paired origins)
    (hp : Visits limits invoke b m k p) (hend : b[p.index]? = none) {g : Given}
    (hg : (given limits invoke b m k).getLast? = some g) : origins[g.place]? ≠ some .counter := by
  intro hcounter
  obtain ⟨s, hs, hyields⟩ := exists_yielded h hcounter
  obtain ⟨v, e, rfl⟩ := hyields.exists_declare
  obtain ⟨t, ht, hbound⟩ := exists_yielded h (hpaired _ hcounter)
  exact Bool.noConfusion (hbound.givesValue_of_bound.symm.trans (Run.next_of_last hg hp hend hs ht))

end Run

/-- How the result of a run of a body comes from what its statements gave. -/
structure Run.Results (origins : List Origin) (b : Code.Body) (l : List Given) (result : Option Value) : Prop where
  last : result = lastValue l
  origin : ∀ g ∈ l, g.isFrom origins Origin.isOwn ∨ g.isFrom origins Origin.isRange
  call : ∀ g ∈ l, g.value = none → ∃ f es, b[g.place]? = some (.expression (.call f es))
  nothing : ∀ g ∈ l, ∀ f es, b[g.place]? = some (.expression (.call f es)) → f.GivesNothing → g.value = none
  counter : ∀ g ∈ l.getLast?, origins[g.place]? ≠ some .counter
  own : (∀ g ∈ l.getLast?, ¬ g.isFrom origins Origin.isRange) → result = lastValue (Run.ownGiven origins l)

/-- The last one of the source's own statements gave the last value, unless a loop over a range did. -/
theorem Run.lastValue_ownGiven {origins : List Origin} {l : List Given}
    (h : ∀ g ∈ l, g.isFrom origins Origin.isOwn ∨ g.isFrom origins Origin.isRange)
    (hlast : ∀ g ∈ l.getLast?, ¬ g.isFrom origins Origin.isRange) :
    lastValue (ownGiven origins l) = lastValue l := by
  rcases List.eq_nil_or_concat l with rfl | ⟨rest, g, rfl⟩
  · rfl
  · rw [List.concat_eq_append] at h hlast ⊢
    have hrange : ¬ g.isFrom origins Origin.isRange := hlast g List.getLast?_concat
    have hown := (h g (List.mem_append_right rest List.mem_cons_self)).resolve_right hrange
    rw [lastValue, lastValue, ownGiven, List.filter_append, List.filter_cons_of_pos hown, List.filter_nil,
      List.getLast?_concat, List.getLast?_concat]

theorem Program.results_of_visits {program : Program} {origins : List Origin}
    (h : List.Forall₂ Origin.Yields origins program.main) (hpaired : Tree.Paired origins) {limits : Limits}
    {n k : Nat} {m m' : Machine} {p : Run.Point} {result : Option Value}
    (hp : Visits limits (Run.call program limits n) program.main m k p) (hk : k < n)
    (hend : program.main[p.index]? = none) (hrun : program.run limits n m = .ok result m') :
    Run.Results origins program.main (given limits (Run.call program limits n) program.main m k) result := by
  have hlast : result = lastValue (given limits (Run.call program limits n) program.main m k) :=
    (Run.result_of_visits hp hk hend hrun).trans (Run.last_of_visits hp)
  have horigin := fun g (hg : g ∈ given limits (Run.call program limits n) program.main m k) ↦
    isFrom_of_mem_given h hg
  refine ⟨hlast, horigin, fun g hg hnone ↦ ?_, fun g hg f es hs hf ↦ ?_, fun g hg ↦ ?_, fun hg ↦ ?_⟩
  · obtain ⟨j, -, q, s, i, m₁, -, hs, hvalue, hgo, hplace⟩ := Run.mem_given.mp hg
    rw [hnone] at hgo
    obtain ⟨f, es, rfl⟩ := Run.call_of_carryOut hvalue hgo
    exact ⟨f, es, hplace ▸ hs⟩
  · obtain ⟨j, -, q, s, i, m₁, -, hs', -, hgo, hplace⟩ := Run.mem_given.mp hg
    obtain rfl := Option.some.inj (hs'.symm.trans (hplace ▸ hs))
    exact Run.carryOut_givesNothing hf hgo
  · exact ne_counter_of_last h hpaired hp hend hg
  · exact hlast.trans (Run.lastValue_ownGiven horigin hg).symm

/-- The value that an outcome comes with, if the run ended without a failure. -/
def Outcome.value? : Outcome → Option (Option Value)
  | .finished value => some value
  | _ => none

theorem Outcome.eq_finished {o : Outcome} {value : Option Value} (h : o.value? = some value) :
    o = .finished value := by
  cases o with
  | finished value' => exact congrArg finished (Option.some.inj h)
  | _ => nomatch h

namespace Compilation

theorem run_of_finished {c : Compilation} {limits : Limits} {n : Nat} {globals : Store} {console : Console}
    {value : Option Value} (h : (c.evaluate limits n globals console).outcome = .finished value) :
    c.obstacles = [] ∧ ∃ m, c.program.run limits n (.start globals console) = .ok value m := by
  have hobstacles : c.obstacles = [] := (ran_evaluate_iff c limits n globals console).mp (h ▸ trivial)
  refine ⟨hobstacles, ?_⟩
  simp only [evaluate, hobstacles, List.isEmpty_nil, if_true] at h
  split at h
  · next value' m hm =>
    cases h
    exact ⟨m, hm⟩
  all_goals cases h

theorem yields_main_ofText {text : String} {layers : Layers} {k : Nat}
    (hobstacles : (ofText text layers k).obstacles = []) :
    List.Forall₂ Origin.Yields (Tree.originsAll (Tree.ofText text).source.outside)
      (ofText text layers k).program.main := by
  have hreports := ((obstacles_eq_nil_iff _).mp hobstacles).2.1
  rw [layers_ofText, Layers.reports_cons, List.append_eq_nil_iff, layerOf] at hreports
  obtain ⟨u, hu⟩ := exists_flattenBody_ofText text layers k
  rw [hu, layerOf]
  exact Layer.yields_flattenBody hreports.2 u

attribute [local irreducible] ofText

/-- A text that ends without a report or a failure has as its result what was given last by one of its own
expressions or declarations outside functions, and a call of a function without a value gives none. The one
exception is a loop over a range after that, whose bound and increment give values too. -/
theorem value_is_last (text : String) (layers : Layers) (k : Nat) (limits : Limits) (n : Nat) (globals : Store)
    (console : Console) {value : Option Value}
    (h : ((ofText text layers k).evaluate limits n globals console).outcome = .finished value) :
    let c := ofText text layers k
    let invoke := Run.call c.program limits n
    let origins := Tree.originsAll (Tree.ofText text).source.outside
    List.Forall₂ Origin.Yields origins c.program.main ∧
    ∃ j p, Visits limits invoke c.program.main (.start globals console) j p ∧ c.program.main[p.index]? = none ∧
      Run.Results origins c.program.main (given limits invoke c.program.main (.start globals console) j) value := by
  intro c invoke origins
  obtain ⟨hobstacles, m, hrun⟩ := run_of_finished h
  have hyields : List.Forall₂ Origin.Yields origins c.program.main := yields_main_ofText hobstacles
  obtain ⟨j, hj, p, hp, hend⟩ := Run.exists_end_of_body hrun
  have hend : c.program.main[p.index]? = none := by
    rcases hend with hend | ⟨e, hleave, -⟩
    · exact hend
    · obtain ⟨o, -, ho⟩ := exists_origin hyields hleave
      exact absurd rfl (ho.ne_leave e)
  exact ⟨hyields, j, p, hp, hend, Program.results_of_visits hyields (Tree.paired_originsAll _) hp hj hend hrun⟩

/-- A loop over a range, and then an expression. -/
theorem value_is_last_sum :
    let text := "var x = 1 for i = 1 to 3 \x7b x = x + i \x7d x"
    let c := ofText text [] 3
    let limits : Limits := ⟨none, none, id⟩
    let invoke := Run.call c.program limits 50
    let origins := Tree.originsAll (Tree.ofText text).source.outside
    let start : Machine := .start .empty ⟨[], #[]⟩
    List.Forall₂ Origin.Yields origins c.program.main ∧
    ∃ j p, Visits limits invoke c.program.main start j p ∧ c.program.main[p.index]? = none ∧
      Run.Results origins c.program.main (given limits invoke c.program.main start j) (some (.int 7)) := by
  refine value_is_last _ [] 3 ⟨none, none, id⟩ 50 .empty ⟨[], #[]⟩ (Outcome.eq_finished ?_)
  rw [ofText_ofList]
  decide +kernel

/-- After an expression, a loop over a range counts on, and the result is its count. -/
theorem value_is_increment :
    let text := "5 for i = 1 to 3 \x7b \x7d"
    let c := ofText text [] 3
    let limits : Limits := ⟨none, none, id⟩
    let invoke := Run.call c.program limits 50
    let origins := Tree.originsAll (Tree.ofText text).source.outside
    let start : Machine := .start .empty ⟨[], #[]⟩
    (c.evaluate limits 50 .empty ⟨[], #[]⟩).outcome.value? = some (some (.int 4)) ∧
      (Run.pointAfter? limits invoke c.program.main start 18).map (·.index) = some c.program.main.length ∧
      lastValue (Run.ownGiven origins (given limits invoke c.program.main start 18)) = some (.int 5) := by
  intro text c limits invoke origins
  have hc : c = ofTree (.ofChars _) [] 3 := ofText_ofList ..
  have horigins : origins = Tree.originsAll (Tree.ofChars _).source.outside :=
    congrArg (fun t : Tree ↦ Tree.originsAll t.source.outside) (Tree.ofText_ofList _)
  rw [horigins]
  simp only [invoke]
  rw [hc]
  decide +kernel

end Compilation

end SmallScript
