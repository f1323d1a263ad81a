import SmallScript.Proofs.Tree.Accounted
import SmallScript.Proofs.Tree.Plans

namespace SmallScript.Tree

open Token (Kind)

/-- Of two jobs at one place, the one of lower rank is called by the other one. -/
def Job.rank : Job → Nat
  | joined _ _ => 0
  | primary => 1
  | operators _ => 2
  | expression => 3
  | arguments => 4
  | statement => 5
  | statements => 6
  | parameters => 7
  | members => 8

def Job.weight (j : Job) (c : Cursor) : Nat := 9 * c.left + j.rank

theorem Job.weight_of_left_lt {j j' : Job} {c d : Cursor} (h : d.left < c.left) : j'.weight d < j.weight c := by
  have hrank : j'.rank ≤ 8 := by cases j' <;> simp [rank]
  unfold weight
  omega

theorem Job.weight_of_rank_lt {j j' : Job} {c d : Cursor} (h : d.left ≤ c.left) (hrank : j'.rank < j.rank) :
    j'.weight d < j.weight c := by
  unfold weight
  omega

/-- A plan does at a cursor what a reader does, and calls only jobs that weigh less than `w`. -/
structure Fulfils {α : Type} (w : Nat) (c : Cursor) (p : Plan α) (m : Reader α) : Prop where
  runs : p.Runs c (m c).1 (m c).2
  calls : ∀ j d, p.Calls c j d → j.weight d < w

namespace Fulfils

open Reader

variable {α β : Type} {w : Nat} {c : Cursor} {p p' : Plan α} {m m' : Reader α} {f : α → Plan β} {g : α → Reader β}
  {k k' : Kind}

theorem pure (a : α) : Fulfils w c (pure a) (pure a) := ⟨.done a c, fun _ _ h ↦ nomatch h⟩

theorem bind (hm : Fulfils w c p m) (hf : Fulfils w (m c).2 (f (m c).1) (g (m c).1)) :
    Fulfils w c (p >>= f) (m >>= g) where
  runs := by
    have hbind : (m >>= g) c = g (m c).1 (m c).2 := rfl
    rw [hbind]
    exact hm.runs.bind hf.runs
  calls j d h := by
    rcases Plan.calls_bind h with h | ⟨a, c', hruns, h⟩
    · exact hm.calls j d h
    · obtain ⟨rfl, rfl⟩ := hm.runs.unique hruns
      exact hf.calls j d h

theorem bind_of_ends (hc : c.Ends) (hm : Fulfils w c p m)
    (hf : ∀ a d, d.Ends → d.left ≤ c.left → Fulfils w d (f a) (g a)) : Fulfils w c (p >>= f) (m >>= g) :=
  hm.bind (hf _ _ (hm.runs.ends hc) hm.runs.left_le)

theorem cursor {f : Cursor → Plan β} {g : Cursor → Reader β} (h : Fulfils w c (f c) (g c)) :
    Fulfils w c (Plan.cursor >>= f) (get >>= g) where
  runs := .see h.runs
  calls j d hj := by
    cases hj with
    | see hj => exact h.calls j d hj

theorem bound {m : Cursor → Reader α} (h : Fulfils w c p (m c)) : Fulfils w c p (get >>= m) := ⟨h.runs, h.calls⟩

theorem kind {f : Kind → Plan β} {g : Kind → Reader β} (h : Fulfils w c (f c.current.kind) (g c.current.kind)) :
    Fulfils w c (Plan.kind >>= f) (Reader.kind >>= g) :=
  ⟨.see h.runs, fun j d hj ↦ by cases hj with | see hj => exact h.calls j d hj⟩

theorem advance (c : Cursor) : Fulfils w c Plan.advance Reader.advance :=
  ⟨.step (.done _ _), fun j d hj ↦ by cases hj with | step hj => nomatch hj⟩

theorem take (k : Kind) (c : Cursor) : Fulfils w c (Plan.take k) (Reader.take k) :=
  ⟨.want (.done _ _), fun j d hj ↦ by cases hj with | want hj => nomatch hj⟩

theorem call {j : Job} {m : Reader j.Result} (h : j.plan.Runs c (m c).1 (m c).2) (hw : j.weight c < w) :
    Fulfils w c (Plan.call j) m :=
  ⟨.ask h (.done _ _), fun j' d hj ↦ by
    cases hj with
    | first => exact hw
    | later _ hj => nomatch hj⟩

theorem ite {P : Prop} [Decidable P] (h : P → Fulfils w c p m) (h' : ¬P → Fulfils w c p' m') :
    Fulfils w c (if P then p else p') (if P then m else m') := by
  split
  · next hP => exact h hP
  · next hP => exact h' hP

theorem list_until {p : Punctuation} {more : Plan (List α)} {g : Kind → Reader (List α)}
    (hmark : g (.mark p) = Pure.pure []) (hend : g .endOfFile = Pure.pure [])
    (h : c.current.kind ≠ .mark p → c.current.kind ≠ .endOfFile → Fulfils w c more (g c.current.kind)) :
    Fulfils w c (Plan.kind >>= fun k ↦ if k = .mark p ∨ k = .endOfFile then Pure.pure [] else more)
      (Reader.kind >>= g) := by
  refine .kind ?_
  split
  · next hstop =>
    rcases hstop with hk | hk
    · rw [hk, hmark]
      exact .pure []
    · rw [hk, hend]
      exact .pure []
  · next hstop => exact h (hstop ∘ .inl) (hstop ∘ .inr)

theorem advance_then {f : Token → Plan β} {g : Token → Reader β} (hc : c.Ends) (hend : c.current.kind ≠ .endOfFile)
    (hf : ∀ t d, d.Ends → d.left < c.left → Fulfils w d (f t) (g t)) :
    Fulfils w c (Plan.advance >>= f) (Reader.advance >>= g) :=
  (advance c).bind (hf _ _ (hc.advance hend).1 (hc.advance hend).2.1)

theorem advance_two {f : Token → Token → Plan β} {g : Token → Token → Reader β} (hc : c.Ends)
    (hend : c.current.kind ≠ .endOfFile) (hnext : c.nextKind ≠ .endOfFile)
    (hf : ∀ t t' d, d.Ends → d.left + 1 < c.left → Fulfils w d (f t t') (g t t')) :
    Fulfils w c (Plan.advance >>= fun t ↦ Plan.advance >>= f t)
      (Reader.advance >>= fun t ↦ Reader.advance >>= g t) := by
  obtain ⟨t, rest, hrest, hadvance⟩ := hc.advance_eq hend
  obtain ⟨hends, hlt, -⟩ := hc.advance hend
  have hkind : c.advance.2.current.kind ≠ .endOfFile := by
    rw [Cursor.nextKind, hrest] at hnext
    rwa [hadvance]
  refine (advance c).bind (advance_then (c := c.advance.2) hends hkind fun t' d hd hlt' ↦ ?_)
  exact hf _ t' d hd (Nat.lt_of_le_of_lt hlt' hlt)

theorem name (c : Cursor) : Fulfils w c Plan.name Reader.name := (take _ c).bind (.pure _)

theorem progress (before : Nat) (c : Cursor) : Fulfils w c (Plan.progress before) (Reader.progress before) :=
  .cursor (.ite (fun _ ↦ (advance c).bind (.pure _)) fun _ ↦ .pure _)

/-- A token is skipped unless one was taken, so what follows has less to read. -/
theorem progress_then (hc : c.Ends) (hend : c.current.kind ≠ .endOfFile) (hm : Fulfils w c p m)
    (hf : ∀ a d, d.Ends → d.left < c.left → Fulfils w d (f a) (g a)) :
    Fulfils w c (p >>= fun a ↦ Plan.progress c.left >>= fun _ ↦ f a)
      (m >>= fun a ↦ Reader.progress c.left >>= fun _ ↦ g a) := by
  have hends := hm.runs.ends hc
  have hskips := progress (w := w) c.left (m c).2
  refine hm.bind (hskips.bind (hf _ _ (hskips.runs.ends hends) ?_))
  change ((if (m c).2.left = c.left then do let _ ← Reader.advance
    else Pure.pure () : Reader Unit) (m c).2).2.left < _
  split
  · next hleft =>
    have htokens : (m c).2.tokens = c.tokens :=
      hm.runs.tokens_suffix.eq_of_length (congrArg Nat.succ hleft)
    have hkind : (m c).2.current.kind ≠ .endOfFile := (List.cons.inj htokens).1 ▸ hend
    exact hleft ▸ (hends.advance hkind).2.1
  · next hleft => exact Nat.lt_of_le_of_ne hm.runs.left_le hleft

theorem typeClause (c : Cursor) : Fulfils w c Plan.typeClause Reader.typeClause :=
  (take _ c).bind ((take _ _).bind (.pure _))

theorem typeClause? (c : Cursor) : Fulfils w c Plan.typeClause? Reader.typeClause? :=
  .kind (.ite (fun _ ↦ (typeClause c).bind (.pure _)) fun _ ↦ .pure _)

end Fulfils

namespace Reader

structure ExpressionsFulfilled (n : Nat) : Prop where
  expression {c : Cursor} (hc : c.Ends) (hn : 3 * c.left + 3 ≤ n) :
    Fulfils (Job.expression.weight c) c Job.expression.plan (expression n)
  operators (level : Nat) {c : Cursor} (hc : c.Ends) (hn : 3 * c.left + 2 ≤ n) :
    Fulfils ((Job.operators level).weight c) c (Job.operators level).plan (operators n level)
  joined (level : Nat) (left : Expression) {c : Cursor} (hc : c.Ends) (hn : 3 * c.left + 1 ≤ n) :
    Fulfils ((Job.joined level left).weight c) c (Job.joined level left).plan (joined n level left)
  primary {c : Cursor} (hc : c.Ends) (hn : 3 * c.left + 1 ≤ n) :
    Fulfils (Job.primary.weight c) c Job.primary.plan (primary n)
  arguments {c : Cursor} (hc : c.Ends) (hn : 3 * c.left + 4 ≤ n) :
    Fulfils (Job.arguments.weight c) c Job.arguments.plan (arguments n)

namespace ExpressionsFulfilled

variable {n : Nat} {c : Cursor}

theorem next_expression (ih : ExpressionsFulfilled n) (hc : c.Ends) (hn : 3 * c.left + 3 ≤ n + 1) :
    Fulfils (Job.expression.weight c) c Job.expression.plan (Reader.expression (n + 1)) := by
  refine .kind (.cursor (.ite (fun h ↦ ?_) fun _ ↦ ?_))
  · refine .advance_two hc (h.1 ▸ nofun) (h.2 ▸ nofun) fun _ _ d hd hlt ↦ ?_
    exact .bind (.call (ih.expression hd (by omega)).runs (Job.weight_of_left_lt (by omega))) (.pure _)
  · exact .call (ih.operators 0 hc (by omega)).runs (Job.weight_of_rank_lt (Nat.le_refl _) (by decide))

theorem next_operators (ih : ExpressionsFulfilled n) (level : Nat) (hc : c.Ends) (hn : 3 * c.left + 2 ≤ n + 1) :
    Fulfils ((Job.operators level).weight c) c (Job.operators level).plan (Reader.operators (n + 1) level) := by
  have hprimary : Fulfils ((Job.operators level).weight c) c
      (do Plan.call (.joined level (← Plan.call .primary))) (do Reader.joined n level (← Reader.primary n)) := by
    refine .bind_of_ends hc (.call (ih.primary hc (by omega)).runs
      (Job.weight_of_rank_lt (Nat.le_refl _) (by simp [Job.rank]))) fun left d hd hle ↦ ?_
    exact .call (ih.joined level left hd (by omega)).runs (Job.weight_of_rank_lt hle (by simp [Job.rank]))
  refine .kind ?_
  cases hk : c.current.kind.unaryLevel? with
  | none => exact hprimary
  | some own =>
    have hend : c.current.kind ≠ .endOfFile := by
      intro h
      rw [h] at hk
      nomatch hk
    refine .ite (fun _ ↦ ?_) fun _ ↦ hprimary
    refine .advance_then hc hend fun sign d hd hlt ↦ .bind_of_ends hd
      (.call (ih.operators own hd (by omega)).runs (Job.weight_of_left_lt hlt)) fun operand d' hd' hle ↦ ?_
    exact .call (ih.joined level _ hd' (by omega)).runs (Job.weight_of_left_lt (by omega))

theorem next_joined (ih : ExpressionsFulfilled n) (level : Nat) (left : Expression) (hc : c.Ends)
    (hn : 3 * c.left + 1 ≤ n + 1) : Fulfils ((Job.joined level left).weight c) c (Job.joined level left).plan
      (Reader.joined (n + 1) level left) := by
  refine .kind ?_
  cases hk : c.current.kind.binaryLevel? with
  | none => exact .pure _
  | some own =>
    have hend : c.current.kind ≠ .endOfFile := by
      intro h
      rw [h] at hk
      nomatch hk
    refine .ite (fun _ ↦ ?_) fun _ ↦ .pure _
    refine .advance_then hc hend fun sign d hd hlt ↦ .bind_of_ends hd
      (.call (ih.operators own hd (by omega)).runs (Job.weight_of_left_lt hlt)) fun right d' hd' hle ↦ ?_
    exact .call (ih.joined level _ hd' (by omega)).runs (Job.weight_of_left_lt (by omega))

theorem next_primary (ih : ExpressionsFulfilled n) (hc : c.Ends) (hn : 3 * c.left + 1 ≤ n + 1) :
    Fulfils (Job.primary.weight c) c Job.primary.plan (Reader.primary (n + 1)) := by
  refine .kind ?_
  cases hk : c.current.kind with
  | mark p =>
    cases p with
    | openParenthesis =>
      refine .advance_then hc (hk ▸ nofun) fun _ d hd hlt ↦ .bind_of_ends hd
        (.call (ih.expression hd (by omega)).runs (Job.weight_of_left_lt hlt)) fun _ d' hd' hle ↦ ?_
      exact .bind (.take _ _) (.pure _)
    | _ => exact .name c
  | word k =>
    cases k with
    | trueValue | falseValue => exact .bind (.advance c) (.pure _)
    | _ => exact .name c
  | number | string => exact .bind (.advance c) (.pure _)
  | identifier =>
    refine .cursor (.ite (fun hnext ↦ ?_) fun _ ↦ .name c)
    refine .advance_two hc (hk ▸ nofun) (hnext ▸ nofun) fun _ _ d hd hlt ↦ .bind_of_ends hd
      (.call (ih.arguments hd (by omega)).runs (Job.weight_of_left_lt (by omega))) fun _ d' hd' hle ↦ ?_
    exact .bind (.take _ _) (.pure _)
  | bad | endOfFile => exact .name c

theorem next_arguments (ih : ExpressionsFulfilled n) (hc : c.Ends) (hn : 3 * c.left + 4 ≤ n + 1) :
    Fulfils (Job.arguments.weight c) c Job.arguments.plan (Reader.arguments (n + 1)) := by
  refine .list_until rfl rfl fun hmark hend ↦ ?_
  split
  · contradiction
  · contradiction
  · refine .bind_of_ends hc (.call (ih.expression hc (by omega)).runs
      (Job.weight_of_rank_lt (Nat.le_refl _) (by decide))) fun _ d hd hle ↦
        .kind (.ite (fun hk ↦ ?_) fun _ ↦ .pure _)
    refine .advance_then hd (hk ▸ nofun) fun _ d' hd' hlt ↦ ?_
    exact .bind (.call (ih.arguments hd' (by omega)).runs (Job.weight_of_left_lt (by omega))) (.pure _)

end ExpressionsFulfilled

theorem expressionsFulfilled (n : Nat) : ExpressionsFulfilled n := by
  induction n with
  | zero => constructor <;> intros <;> omega
  | succ n ih =>
    exact ⟨ih.next_expression, fun level ↦ ih.next_operators level, fun level left ↦ ih.next_joined level left,
      ih.next_primary, ih.next_arguments⟩

end Reader

namespace Fulfils

open Reader

variable {w : Nat} {c : Cursor}

theorem expression (hc : c.Ends) (hw : Job.expression.weight c < w) :
    Fulfils w c (Plan.call .expression) wholeExpression :=
  .call (j := .expression) ((expressionsFulfilled _).expression hc (Nat.le_refl _)).runs hw

theorem declaration (hc : c.Ends) (hend : c.current.kind ≠ .endOfFile) :
    Fulfils (Job.statement.weight c) c Plan.declaration Reader.declaration := by
  refine .advance_then hc hend fun _ d hd hlt ↦ .bind_of_ends hd (.take _ _) fun _ d₁ hd₁ hle₁ ↦
    .bind_of_ends hd₁ (.typeClause? _) fun _ d₂ hd₂ hle₂ ↦ .bind_of_ends hd₂ (.take _ _) fun _ d₃ hd₃ hle₃ ↦ ?_
  exact .bind (.expression hd₃ (Job.weight_of_left_lt (by omega))) (.pure _)

theorem leaving (hc : c.Ends) (hend : c.current.kind ≠ .endOfFile) :
    Fulfils (Job.statement.weight c) c Plan.leaving Reader.leaving := by
  refine .advance_then hc hend fun _ d hd hlt ↦ .cursor (.ite (fun _ ↦ .pure _) fun _ ↦ ?_)
  exact .bind (.expression hd (Job.weight_of_left_lt hlt)) (.pure _)

end Fulfils

end SmallScript.Tree
