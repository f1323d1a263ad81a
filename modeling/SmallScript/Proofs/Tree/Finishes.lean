import SmallScript.Proofs.Tree.Fulfils

namespace SmallScript.Tree

open Token (Kind)

namespace Reader

structure StatementsFulfilled (n : Nat) : Prop where
  statement {c : Cursor} (hc : c.Ends) (hn : 2 * c.left + 1 ≤ n) :
    Fulfils (Job.statement.weight c) c Job.statement.plan (statement n)
  statements {c : Cursor} (hc : c.Ends) (hn : 2 * c.left + 2 ≤ n) :
    Fulfils (Job.statements.weight c) c Job.statements.plan (statements n)

namespace StatementsFulfilled

variable {n : Nat} {c : Cursor}

theorem next_statement (ih : StatementsFulfilled n) (hc : c.Ends) (hn : 2 * c.left + 1 ≤ n + 1) :
    Fulfils (Job.statement.weight c) c Job.statement.plan (Reader.statement (n + 1)) := by
  refine .kind ?_
  have hexpression {α : Type} (f : Expression → α) : Fulfils (Job.statement.weight c) c
      (Plan.call .expression >>= fun e ↦ Pure.pure (f e)) (wholeExpression >>= fun e ↦ Pure.pure (f e)) :=
    .bind (.expression hc (Job.weight_of_rank_lt (Nat.le_refl _) (by decide))) (.pure _)
  cases hk : c.current.kind with
  | mark p =>
    cases p with
    | openBrace =>
      refine .advance_then hc (hk ▸ nofun) fun _ d hd hlt ↦
        .bind (.call (ih.statements hd (by omega)).runs (Job.weight_of_left_lt hlt)) ?_
      exact .bind (.take _ _) (.pure _)
    | _ => exact hexpression _
  | word k =>
    cases k with
    | letName | varName => exact .declaration hc (hk ▸ nofun)
    | ifTest =>
      refine .advance_then hc (hk ▸ nofun) fun _ d hd hlt ↦
        .bind_of_ends hd (.expression hd (Job.weight_of_left_lt hlt)) fun _ d₁ hd₁ hle₁ ↦
        .bind_of_ends hd₁ (.call (ih.statement hd₁ (by omega)).runs (Job.weight_of_left_lt (by omega)))
          fun _ d₂ hd₂ hle₂ ↦ .kind (.ite (fun helse ↦ ?_) fun _ ↦ .pure _)
      refine .advance_then hd₂ (helse ▸ nofun) fun _ d₃ hd₃ hlt₃ ↦ ?_
      exact .bind (.call (ih.statement hd₃ (by omega)).runs (Job.weight_of_left_lt (by omega))) (.pure _)
    | whileLoop =>
      refine .advance_then hc (hk ▸ nofun) fun _ d hd hlt ↦
        .bind_of_ends hd (.expression hd (Job.weight_of_left_lt hlt)) fun _ d₁ hd₁ hle₁ ↦ ?_
      exact .bind (.call (ih.statement hd₁ (by omega)).runs (Job.weight_of_left_lt (by omega))) (.pure _)
    | doLoop =>
      refine .advance_then hc (hk ▸ nofun) fun _ d hd hlt ↦
        .bind_of_ends hd (.call (ih.statement hd (by omega)).runs (Job.weight_of_left_lt hlt)) fun _ d₁ hd₁ hle₁ ↦
        .bind_of_ends hd₁ (.take _ _) fun _ d₂ hd₂ hle₂ ↦ ?_
      exact .bind (.expression hd₂ (Job.weight_of_left_lt (by omega))) (.pure _)
    | forLoop =>
      refine .advance_then hc (hk ▸ nofun) fun _ d hd hlt ↦ .bind_of_ends hd (.take _ _) fun _ d₁ hd₁ hle₁ ↦
        .bind_of_ends hd₁ (.take _ _) fun _ d₂ hd₂ hle₂ ↦
        .bind_of_ends hd₂ (.expression hd₂ (Job.weight_of_left_lt (by omega))) fun _ d₃ hd₃ hle₃ ↦
        .bind_of_ends hd₃ (.take _ _) fun _ d₄ hd₄ hle₄ ↦
        .bind_of_ends hd₄ (.expression hd₄ (Job.weight_of_left_lt (by omega))) fun _ d₅ hd₅ hle₅ ↦ ?_
      exact .bind (.call (ih.statement hd₅ (by omega)).runs (Job.weight_of_left_lt (by omega))) (.pure _)
    | breakLoop | continueLoop => exact .bind (.advance c) (.pure _)
    | returnValue => exact .leaving hc (hk ▸ nofun)
    | _ => exact hexpression _
  | number | string | identifier | bad | endOfFile => exact hexpression _

theorem next_statements (ih : StatementsFulfilled n) (hc : c.Ends) (hn : 2 * c.left + 2 ≤ n + 1) :
    Fulfils (Job.statements.weight c) c Job.statements.plan (Reader.statements (n + 1)) := by
  refine .list_until rfl rfl fun hmark hend ↦ ?_
  split
  · contradiction
  · contradiction
  · refine .cursor (.progress_then hc hend (.call (ih.statement hc (by omega)).runs
      (Job.weight_of_rank_lt (Nat.le_refl _) (by decide))) fun _ d hd hlt ↦ ?_)
    exact .bind (.call (ih.statements hd (by omega)).runs (Job.weight_of_left_lt hlt)) (.pure _)

end StatementsFulfilled

theorem statementsFulfilled (n : Nat) : StatementsFulfilled n := by
  induction n with
  | zero => exact ⟨nofun, nofun⟩
  | succ n ih => exact ⟨ih.next_statement, ih.next_statements⟩

end Reader

namespace Fulfils

open Reader

variable {w : Nat} {c : Cursor}

theorem block (hc : c.Ends) (hw : ∀ d, d.left ≤ c.left → Job.statements.weight d < w) :
    Fulfils w c Plan.block Reader.block := by
  refine .bind_of_ends hc (.take _ _) fun _ d hd hle ↦ .bound ?_
  refine .bind (.call (j := .statements) ((statementsFulfilled _).statements hd (Nat.le_refl _)).runs (hw d hle)) ?_
  exact .bind (.take _ _) (.pure _)

theorem parameters {n : Nat} (hc : c.Ends) (hn : c.left + 1 ≤ n) :
    Fulfils (Job.parameters.weight c) c Job.parameters.plan (Reader.parameters n) := by
  induction n generalizing c with
  | zero => nomatch hn
  | succ n ih =>
    refine .list_until rfl rfl fun hmark hend ↦ ?_
    split
    · contradiction
    · contradiction
    · refine .bind_of_ends hc (.take _ _) fun _ d hd hle ↦ .bind_of_ends hd (.typeClause _) fun _ d₁ hd₁ hle₁ ↦
        .kind (.ite (fun hk ↦ ?_) fun _ ↦ .pure _)
      refine .advance_then hd₁ (hk ▸ nofun) fun _ d₂ hd₂ hlt ↦ ?_
      exact .bind (.call (j := .parameters) (ih hd₂ (by omega)).runs (Job.weight_of_left_lt (by omega))) (.pure _)

theorem function (hc : c.Ends) (hend : c.current.kind ≠ .endOfFile) :
    Fulfils (Job.members.weight c) c Plan.function Reader.function := by
  refine .advance_then hc hend fun _ d hd hlt ↦ .bind_of_ends hd (.take _ _) fun _ d₁ hd₁ hle₁ ↦
    .bind_of_ends hd₁ (.take _ _) fun _ d₂ hd₂ hle₂ ↦ .bound ?_
  refine .bind_of_ends hd₂ (.call (j := .parameters) (parameters hd₂ (Nat.le_refl _)).runs
    (Job.weight_of_left_lt (by omega))) fun _ d₃ hd₃ hle₃ ↦ .bind_of_ends hd₃ (.take _ _) fun _ d₄ hd₄ hle₄ ↦
    .bind_of_ends hd₄ (.typeClause? _) fun _ d₅ hd₅ hle₅ ↦ ?_
  exact .bind (.block hd₅ fun d' hle ↦ Job.weight_of_left_lt (by omega)) (.pure _)

theorem member (hc : c.Ends) (hend : c.current.kind ≠ .endOfFile) :
    Fulfils (Job.members.weight c) c Plan.member Reader.member := by
  refine .kind (.ite (fun _ ↦ .bind (.function hc hend) (.pure _)) fun _ ↦ .bind ?_ (.pure _))
  exact .call (j := .statement) ((statementsFulfilled _).statement hc (Nat.le_refl _)).runs
    (Job.weight_of_rank_lt (Nat.le_refl _) (by decide))

theorem members {n : Nat} (hc : c.Ends) (hn : c.left ≤ n) :
    Fulfils (Job.members.weight c) c Job.members.plan (Reader.members n) := by
  induction n generalizing c with
  | zero =>
    have hend := hc.kind_of_left (Nat.le_zero.mp hn)
    refine .kind (g := fun _ ↦ Pure.pure []) ?_
    rw [if_pos hend]
    exact .pure []
  | succ n ih =>
    refine .kind (.ite (fun _ ↦ .pure _) fun hend ↦ ?_)
    refine .cursor (.progress_then hc hend (.member hc hend) fun _ d hd hlt ↦ ?_)
    exact .bind (.call (j := .members) (ih hd (by omega)).runs (Job.weight_of_left_lt hlt)) (.pure _)

end Fulfils

namespace Job

variable {j j' : Job} {c d : Cursor}

theorem exists_fulfils (j : Job) (hc : c.Ends) : ∃ m, Fulfils (j.weight c) c j.plan m := by
  cases j with
  | expression => exact ⟨_, (Reader.expressionsFulfilled _).expression hc (Nat.le_refl _)⟩
  | operators level => exact ⟨_, (Reader.expressionsFulfilled _).operators level hc (Nat.le_refl _)⟩
  | joined level left => exact ⟨_, (Reader.expressionsFulfilled _).joined level left hc (Nat.le_refl _)⟩
  | primary => exact ⟨_, (Reader.expressionsFulfilled _).primary hc (Nat.le_refl _)⟩
  | arguments => exact ⟨_, (Reader.expressionsFulfilled _).arguments hc (Nat.le_refl _)⟩
  | statement => exact ⟨_, (Reader.statementsFulfilled _).statement hc (Nat.le_refl _)⟩
  | statements => exact ⟨_, (Reader.statementsFulfilled _).statements hc (Nat.le_refl _)⟩
  | parameters => exact ⟨_, .parameters hc (Nat.le_refl _)⟩
  | members => exact ⟨_, .members hc (Nat.le_refl _)⟩

theorem exists_runs (j : Job) (hc : c.Ends) : ∃ a d, j.plan.Runs c a d := by
  obtain ⟨m, hm⟩ := j.exists_fulfils hc
  exact ⟨_, _, hm.runs⟩

theorem weight_of_calls (hc : c.Ends) (h : j.plan.Calls c j' d) : j'.weight d < j.weight c := by
  obtain ⟨m, hm⟩ := j.exists_fulfils hc
  exact hm.calls j' d h

theorem left_lt_of_calls (hc : c.Ends) (h : j.plan.Calls c j d) : d.left < c.left := by
  have hlt := weight_of_calls hc h
  unfold weight at hlt
  omega

theorem members_again (hc : c.Ends) (hend : c.current.kind ≠ .endOfFile) :
    ∃ d, members.plan.Calls c members d ∧ d.left < c.left := by
  have hfirst := Fulfils.member hc hend
  have hskip := Fulfils.progress (w := 0) c.left (Reader.member c).2
  have hcalls : members.plan.Calls c members (Reader.progress c.left (Reader.member c).2).2 := by
    refine .kind ?_
    rw [if_neg hend]
    exact .see (hfirst.runs.calls (hskip.runs.calls (.first _ _ _)))
  exact ⟨_, hcalls, left_lt_of_calls hc hcalls⟩

theorem statements_again (hc : c.Ends) (hclose : c.current.kind ≠ .mark .closeBrace)
    (hend : c.current.kind ≠ .endOfFile) : ∃ d, statements.plan.Calls c statements d ∧ d.left < c.left := by
  obtain ⟨m, hfirst⟩ := statement.exists_fulfils hc
  have hskip := Fulfils.progress (w := 0) c.left (m c).2
  have hcalls : statements.plan.Calls c statements (Reader.progress c.left (m c).2).2 := by
    refine .kind ?_
    rw [if_neg (not_or.mpr ⟨hclose, hend⟩)]
    exact .see (.later hfirst.runs (hskip.runs.calls (.first _ _ _)))
  exact ⟨_, hcalls, left_lt_of_calls hc hcalls⟩

end Job

theorem Plan.Calls.tokens_suffix {α : Type} {p : Plan α} {c d : Cursor} {j : Job} (h : p.Calls c j d) :
    d.tokens <:+ c.tokens := by
  induction h with
  | see _ ih => exact ih
  | step _ ih => exact ih.trans (Cursor.tokens_advance _)
  | want _ ih => exact ih.trans (Cursor.tokens_take _ _)
  | first => exact List.suffix_refl _
  | later hj _ ih => exact ih.trans hj.tokens_suffix

/-- A job that is called at a cursor while the tree of some tokens is read. -/
inductive Called (first : Cursor) : Job → Cursor → Prop
  | start {j : Job} {d : Cursor} (h : Plan.source.Calls first j d) : Called first j d
  | next {j j' : Job} {c d : Cursor} (h : Called first j c) (hj : j.plan.Calls c j' d) : Called first j' d

theorem Called.ends {first c : Cursor} {j : Job} (h : Called first j c) (hfirst : first.Ends) : c.Ends := by
  induction h with
  | start h => exact hfirst.suffix h.tokens_suffix (List.cons_ne_nil _ _)
  | next _ hj ih => exact ih.suffix hj.tokens_suffix (List.cons_ne_nil _ _)

namespace Fulfils

variable {c : Cursor}

theorem source (hc : c.Ends) : Fulfils (Job.members.weight c + 1) c Plan.source Reader.source := by
  refine .bound (.bind_of_ends hc ?_ fun _ d hd hle ↦ .bind (.take _ _) (.pure _))
  exact .call (j := .members) (members hc (Nat.le_refl _)).runs (Nat.lt_add_one _)

end Fulfils

theorem EndsOnce.exists_append {ts : List Token} (h : EndsOnce ts) :
    ∃ before t, ts = before ++ [t] ∧ t.kind = .endOfFile := by
  induction h with
  | @last t h => exact ⟨[], t, rfl, h⟩
  | @cons t ts _ _ ih =>
    obtain ⟨before, last, rfl, hkind⟩ := ih
    exact ⟨t :: before, last, rfl, hkind⟩

theorem Reader.source_eq {c : Cursor} (hc : c.Ends) : ∃ d, d.tokens <:+ c.tokens ∧ d.rest = [] ∧
    d.current.kind = .endOfFile ∧ source c = (⟨(source c).1.members, d.current⟩, d) := by
  have hmembers := Fulfils.members hc (Nat.le_refl _)
  obtain ⟨-, hend⟩ := members_fills hc (Nat.le_refl c.left)
  have hrest := (hmembers.runs.ends hc).eq_singleton hend
  refine ⟨_, hmembers.runs.tokens_suffix, hrest, hend, ?_⟩
  generalize hd : (members c.left c).2 = d at hend hrest
  have htake : take .endOfFile d = (d.current, d) := by
    have hadvance : take .endOfFile d = d.advance := if_pos hend
    rw [hadvance, Cursor.advance, hrest]
  have hsource : source c = (⟨(members c.left c).1, (take .endOfFile (members c.left c).2).1⟩,
    (take .endOfFile (members c.left c).2).2) := rfl
  rw [hsource, hd, htake]

/-- Reading some tokens, of which only the last one ends the text, comes to an end: its plan is carried out, and in
no other way than readers do. It takes tokens up to the last one, which is the end that the tree has. Each job that
it calls is done too, and calls others only with less to read, or with as much and of lower rank. So a list goes on
only after one more token, and members and statements go on up to where the text or their block ends. -/
theorem Source.finishes {tokens : List Token} (h : EndsOnce tokens) :
    let first := Cursor.ofTokens (tokens.filter (·.kind != .bad))
    (∃ d, Plan.source.Runs first (ofTokens tokens).1 d ∧ (ofTokens tokens).2 = d.reports.reverse ∧ d.rest = [] ∧
      ∀ s d', Plan.source.Runs first s d' → s = (ofTokens tokens).1 ∧ d' = d) ∧
    (tokens.getLast? = some (ofTokens tokens).1.finish ∧ (ofTokens tokens).1.finish.kind = .endOfFile) ∧
    (∀ j c, Called first j c → (∃ a d, j.plan.Runs c a d) ∧
      ∀ j' d, j.plan.Calls c j' d → d.left < c.left ∨ d.left = c.left ∧ j'.rank < j.rank) ∧
    (∀ j c d, Called first j c → j.plan.Calls c j d → d.left < c.left) ∧
    (∀ c, Called first .members c → c.current.kind ≠ .endOfFile →
      ∃ d, Job.members.plan.Calls c .members d ∧ d.left < c.left) ∧
    ∀ c, Called first .statements c → c.current.kind ≠ .mark .closeBrace → c.current.kind ≠ .endOfFile →
      ∃ d, Job.statements.plan.Calls c .statements d ∧ d.left < c.left := by
  intro first
  have htokens : first.tokens = tokens.filter (·.kind != .bad) := Cursor.tokens_ofTokens h.filter.ne_nil
  have hfirst : first.Ends := by
    rw [Cursor.Ends, htokens]
    exact h.filter
  have hsource := (Fulfils.source hfirst).runs
  obtain ⟨d, hsuffix, hrest, hkind, heq⟩ := Reader.source_eq hfirst
  have hends {j : Job} {c : Cursor} (hc : Called first j c) : c.Ends := hc.ends hfirst
  refine ⟨⟨_, hsource, rfl, ?_, fun s d' hs ↦ ?_⟩, ?_, fun j c hc ↦ ⟨j.exists_runs (hends hc), fun j' d hd ↦ ?_⟩,
    fun j c d hc hd ↦ Job.left_lt_of_calls (hends hc) hd, fun c hc ↦ Job.members_again (hends hc),
    fun c hc ↦ Job.statements_again (hends hc)⟩
  · rw [heq]
    exact hrest
  · obtain ⟨rfl, rfl⟩ := hs.unique hsource
    exact ⟨rfl, rfl⟩
  · have hfinish : (ofTokens tokens).1.finish = d.current := congrArg (·.1.finish) heq
    rw [hfinish]
    refine ⟨?_, hkind⟩
    obtain ⟨before, last, rfl, hlast⟩ := h.exists_append
    rw [htokens, List.filter_append, List.filter_cons_of_pos (by simp [hlast]), Cursor.tokens, hrest] at hsuffix
    obtain ⟨before', hbefore⟩ := hsuffix
    obtain ⟨-, hcurrent⟩ := List.append_inj' hbefore rfl
    rw [(List.cons.inj hcurrent).1]
    exact List.getLast?_concat
  · have hweight := Job.weight_of_calls (hends hc) hd
    have hle : d.left ≤ c.left := Nat.le_of_succ_le_succ hd.tokens_suffix.length_le
    unfold Job.weight at hweight
    omega

/-- A parenthesis that no statement takes is skipped. -/
theorem Source.finishes_stray :
    let closing : Token := ⟨.mark .closeParenthesis, 0, ")", none, false⟩
    let finish : Token := ⟨.endOfFile, 1, "", none, false⟩
    EndsOnce [closing, finish] ∧ (ofTokens [closing, finish]).1.finish = finish ∧
      ∃ d, Plan.source.Runs ⟨closing, [finish], []⟩ (ofTokens [closing, finish]).1 d ∧ d.rest = [] := by
  intro closing finish
  have hends : EndsOnce [closing, finish] := .cons nofun (.last rfl)
  obtain ⟨⟨d, hruns, -, hrest, -⟩, ⟨hfinish, -⟩, -⟩ := finishes hends
  exact ⟨hends, (Option.some.inj hfinish).symm, d, hruns, hrest⟩

end SmallScript.Tree
