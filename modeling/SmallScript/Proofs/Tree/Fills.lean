import SmallScript.Proofs.Tree.Lays

namespace SmallScript.Tree

open Token (Kind)

namespace Reader

variable {c d : Cursor} {ps : List Place}

theorem fill_progress (h : Fills ps c d) (hc : c.Ends) (hend : c.current.kind ≠ .endOfFile)
    (hps : ps.filterMap Place.token? ≠ []) :
    Fill .gap d (progress c.left d).2 ∧ (progress c.left d).2.left < c.left := by
  have hprogress : progress c.left d = (if d.left = c.left then do let _ ← advance else pure ()) d := rfl
  rw [hprogress]
  split
  · next hleft =>
    obtain ⟨htokens, hfault⟩ := h.stuck hc hleft
    obtain ⟨k, hk⟩ := hfault hps
    have hend' : d.current.kind ≠ .endOfFile := (List.cons.inj htokens).1 ▸ hend
    exact ⟨.skipped hk hend', hleft ▸ ((h.ends hc).advance hend').2.1⟩
  · next hleft => exact ⟨.noSkip, Nat.lt_of_le_of_ne h.left_le hleft⟩

theorem laysAt_progress {α β : Type} {m : Reader α} {f : α → Reader β} {p : α → List Place}
    {R : β → List Place → Prop} (hend : c.current.kind ≠ .endOfFile) (hm : Lays m fun a ps ↦ ps = p a)
    (hp : ∀ a, (p a).filterMap Place.token? ≠ []) (hf : ∀ a, Lays (f a) fun b qs ↦ R b (p a ++ .gap :: qs)) :
    LaysAt c (do let a ← m; progress c.left; f a) R := by
  intro hc
  obtain ⟨_, rfl, hfills⟩ := hm c hc
  have hgap := (fill_progress hfills hc hend (hp _)).1
  obtain ⟨qs, hR, hfills'⟩ := hf _ _ (hgap.ends (hfills.ends hc))
  exact ⟨_, hR, hfills.append (.cons hgap hfills')⟩

theorem laysAt_comma {α : Type} {a : α} {rest : Reader (List α)} {places : List α → List Place}
    (hnil : places [] = []) (hrest : Lays rest fun as ps ↦ ps = places as) (c : Cursor) :
    LaysAt c (do
        if (← kind) = .mark .comma then
          let _ ← advance
          return a :: (← rest)
        else return [a])
      fun as ps ↦ ∃ as', as = a :: as' ∧ ps = .comma (!as'.isEmpty) :: places as' := by
  refine .kind (.ite (fun hk hc ↦ ?_) fun _ _ ↦ ⟨_, ⟨[], rfl, rfl⟩, ?_⟩)
  · obtain ⟨_, rfl, hfills⟩ := hrest _ (hc.advance (hk ▸ nofun)).1
    exact ⟨_, ⟨_, rfl, rfl⟩, .cons (.comma hk) hfills⟩
  · rw [hnil]
    exact Fill.noComma.single

theorem lays_name : Lays name fun e ps ↦ ps = e.places :=
  fun _ ↦ .bind (.take nofun) fun _ _ ↦ .pure rfl

theorem mark_mem_withFixedText (p : Punctuation) : Kind.mark p ∈ Kind.withFixedText :=
  List.mem_append_left _ (List.mem_map_of_mem p.mem_all)

theorem mem_unaryOperators {k : Kind} {own : Nat} (h : k.unaryLevel? = some own) : k ∈ Kind.unaryOperators := by
  cases k with
  | mark p => exact List.mem_filter.mpr ⟨mark_mem_withFixedText p, by rw [h]; rfl⟩
  | _ => nomatch h

theorem mem_binaryOperators {k : Kind} {own : Nat} (h : k.binaryLevel? = some own) : k ∈ Kind.binaryOperators := by
  cases k with
  | mark p => exact List.mem_filter.mpr ⟨mark_mem_withFixedText p, by rw [h]; rfl⟩
  | _ => nomatch h

def LaidOperand (e : Expression) (ps : List Place) : Prop := ps = e.places ∧ e.isAssign = false

structure ExpressionsLaid (n : Nat) : Prop where
  expression : Lays (expression n) fun e ps ↦ ps = e.places
  operators (level : Nat) : Lays (operators n level) LaidOperand
  joined (level : Nat) {left : Expression} (h : left.isAssign = false) :
    Lays (joined n level left) fun e ps ↦ LaidOperand e (left.places ++ ps)
  primary : Lays (primary n) LaidOperand
  arguments : Lays (arguments n) fun es ps ↦ ps = argumentPlaces es

theorem expressionsLaid (n : Nat) : ExpressionsLaid n := by
  have hname : Lays name LaidOperand := fun _ ↦ .bind (.take nofun) fun _ _ ↦ .pure ⟨rfl, rfl⟩
  induction n with
  | zero =>
    exact ⟨lays_name, fun _ ↦ hname, fun _ _ h _ ↦ .pure ⟨List.append_nil _, h⟩, hname, fun _ ↦ .pure rfl⟩
  | succ n ih =>
    constructor
    case expression =>
      intro c
      refine .kind (.get (.ite (fun h ↦ ?_) fun _ ↦ (ih.operators 0 c).mono fun _ _ h ↦ h.1))
      exact .advance_two h.1 h.2 nofun nofun fun _ _ _ ↦ .bind (ih.expression _) fun _ _ ↦
        .pure (by simp [Expression.places])
    case operators =>
      intro level c
      refine .kind ?_
      have hprimary : LaysAt c (do joined n level (← primary n)) LaidOperand :=
        .bind_of (ih.primary c) fun left ps hleft ↦ hleft.1 ▸ ih.joined level hleft.2
      split
      · next own hown =>
        refine .ite (fun _ ↦ ?_) fun _ ↦ hprimary
        refine .bind (.advance rfl (mem_unaryOperators hown) fun hend ↦ ?_) fun sign _ ↦
          .bind_of (ih.operators own _) fun operand ps hoperand d ↦ .operand hoperand.2 ?_
        · rw [hend] at hown
          nomatch hown
        · refine (ih.joined level rfl d).mono fun e qs he ↦ ?_
          simpa [hoperand.1, Expression.places] using he
      · exact hprimary
    case joined =>
      intro level left hleft c
      refine .kind ?_
      split
      · next own hown =>
        refine .ite (fun _ ↦ .operand hleft ?_) fun _ ↦ .pure ⟨List.append_nil _, hleft⟩
        refine .bind (.advance rfl (mem_binaryOperators hown) fun hend ↦ ?_) fun sign _ ↦
          .bind_of (ih.operators own _) fun right ps hright d ↦ .operand hright.2 ?_
        · rw [hend] at hown
          nomatch hown
        · refine (ih.joined level rfl d).mono fun e qs he ↦ ?_
          simpa [hright.1, Expression.places] using he
      · exact .pure ⟨List.append_nil _, hleft⟩
    case primary =>
      intro c
      have hliteral {k : Kind} {value : Token → Value} (hk : c.current.kind = k) (h : k ∈ literalKinds)
          (hend : k ≠ .endOfFile) :
          LaysAt c (do let t ← advance; return .literal t (value t)) LaidOperand :=
        .bind (.advance hk h hend) fun _ _ ↦ .pure ⟨rfl, rfl⟩
      refine .kind ?_
      split
      · next hk =>
        exact .bind (.advance_kind hk nofun) fun _ _ ↦ .bind (ih.expression _) fun _ _ ↦
          .bind (.take nofun) fun _ _ ↦ .pure ⟨by simp [Expression.places], rfl⟩
      · next hk => exact hliteral hk (by decide) nofun
      · next hk => exact hliteral hk (by decide) nofun
      · next hk => exact hliteral hk (by decide) nofun
      · next hk => exact hliteral hk (by decide) nofun
      · next hk =>
        refine .get (.ite (fun hnext ↦ ?_) fun _ ↦ hname c)
        exact .advance_two hk hnext nofun nofun fun _ _ _ ↦ .bind (ih.arguments _) fun _ _ ↦
          .bind (.take nofun) fun _ _ ↦ .pure ⟨by simp [Expression.places], rfl⟩
      · exact hname c
    case arguments =>
      intro c
      refine .kind ?_
      split
      · exact .pure rfl
      · exact .pure rfl
      · exact .bind (ih.expression c) fun e d ↦ (laysAt_comma rfl ih.arguments d).mono fun _ _ hps ↦ by
          obtain ⟨_, rfl, rfl⟩ := hps
          rfl

theorem lays_wholeExpression : Lays wholeExpression fun e ps ↦ ps = e.places :=
  fun c ↦ .get ((expressionsLaid _).expression c)

theorem lays_typeClause : Lays typeClause fun t ps ↦ ps = t.places :=
  fun _ ↦ .bind (.take nofun) fun _ _ ↦ .bind (.take nofun) fun _ _ ↦ .pure rfl

theorem lays_typeClause? : Lays typeClause? fun t ps ↦ ps = clausePlaces t :=
  fun _ ↦ .kind (.ite (fun _ ↦ .bind (lays_typeClause _) fun _ _ ↦ .pure (List.append_nil _))
    fun _ ↦ .pure rfl)

theorem laysAt_declaration (hk : c.current.kind = .word .letName ∨ c.current.kind = .word .varName) :
    LaysAt c declaration fun s ps ↦ ps = s.places := by
  have hkind : c.current.kind ∈ [Kind.word .letName, .word .varName] := by simpa using hk
  have hend : c.current.kind ≠ .endOfFile := fun h ↦ by simp [h] at hkind
  exact .bind (.advance rfl hkind hend) fun _ _ ↦ .bind (.take nofun) fun _ _ ↦ .bind (lays_typeClause? _) fun _ _ ↦
    .bind (.take nofun) fun _ _ ↦ .bind (lays_wholeExpression _) fun _ _ ↦ .pure (by simp [Statement.places])

theorem laysAt_leaving (hk : c.current.kind = .word .returnValue) :
    LaysAt c leaving fun s ps ↦ ps = s.places := by
  refine .bind (.advance_kind hk nofun) fun _ _ ↦ .get (.ite
    (fun h _ ↦ ⟨[.bare], rfl, (Fill.bare h).single⟩) fun _ ↦ ?_)
  exact .bind (lays_wholeExpression _) fun _ _ ↦ .pure (by simp [Statement.places])

structure StatementsLaid (n : Nat) : Prop where
  statement : Lays (statement n) fun s ps ↦ ps = s.places
  statements : Lays (statements n) fun ss ps ↦ ps = statementPlaces ss

theorem statementsLaid (n : Nat) : StatementsLaid n := by
  induction n with
  | zero =>
    refine ⟨fun c ↦ .bind (lays_wholeExpression c) fun _ _ ↦ .pure ?_, fun _ ↦ .pure rfl⟩
    simp [Statement.places]
  | succ n ih =>
    constructor
    case statement =>
      intro c
      refine .kind ?_
      split
      · next hk =>
        exact .bind (.advance_kind hk nofun) fun _ _ ↦ .bind (ih.statements _) fun _ _ ↦
          .bind (.take nofun) fun _ _ ↦ .pure (by simp [Statement.places])
      · next hk => exact laysAt_declaration (.inl hk)
      · next hk => exact laysAt_declaration (.inr hk)
      · next hk =>
        refine .bind (.advance_kind hk nofun) fun _ _ ↦ .bind (lays_wholeExpression _) fun _ _ ↦
          .bind (ih.statement _) fun _ _ ↦ .kind (.ite (fun helse ↦ ?_) fun _ ↦ .pure ?_)
        · exact .bind (.advance_kind helse nofun) fun _ _ ↦ .bind (ih.statement _) fun _ _ ↦
            .pure (by simp [Statement.places])
        · simp [Statement.places]
      · next hk =>
        exact .bind (.advance_kind hk nofun) fun _ _ ↦ .bind (lays_wholeExpression _) fun _ _ ↦
          .bind (ih.statement _) fun _ _ ↦ .pure (by simp [Statement.places])
      · next hk =>
        exact .bind (.advance_kind hk nofun) fun _ _ ↦ .bind (ih.statement _) fun _ _ ↦
          .bind (.take nofun) fun _ _ ↦ .bind (lays_wholeExpression _) fun _ _ ↦ .pure (by simp [Statement.places])
      · next hk =>
        exact .bind (.advance_kind hk nofun) fun _ _ ↦ .bind (.take nofun) fun _ _ ↦
          .bind (.take nofun) fun _ _ ↦ .bind (lays_wholeExpression _) fun _ _ ↦ .bind (.take nofun) fun _ _ ↦
          .bind (lays_wholeExpression _) fun _ _ ↦ .bind (ih.statement _) fun _ _ ↦
          .pure (by simp [Statement.places])
      · next hk => exact .bind (.advance_kind hk nofun) fun _ _ ↦ .pure rfl
      · next hk => exact .bind (.advance_kind hk nofun) fun _ _ ↦ .pure rfl
      · next hk => exact laysAt_leaving hk
      · exact .bind (lays_wholeExpression c) fun _ _ ↦ .pure (by simp [Statement.places])
    case statements =>
      intro c
      refine .kind ?_
      split
      · exact .pure rfl
      · exact .pure rfl
      · next hend =>
        refine .get (laysAt_progress hend ih.statement (fun s ↦ s.tokens_places ▸ s.tokens_ne_nil) fun _ _ ↦ ?_)
        exact .bind (ih.statements _) fun _ _ ↦ .pure (by simp [statementPlaces])

theorem lays_block : Lays block fun b ps ↦ ps = b.places :=
  fun _ ↦ .bind (.take nofun) fun _ _ ↦ .get (.bind ((statementsLaid _).statements _) fun _ _ ↦
    .bind (.take nofun) fun _ _ ↦ .pure (by simp [Block.places]))

theorem lays_parameters (n : Nat) : Lays (parameters n) fun l ps ↦ ps = parameterPlaces l := by
  induction n with
  | zero => exact fun _ ↦ .pure rfl
  | succ n ih =>
    intro c
    refine .kind ?_
    split
    · exact .pure rfl
    · exact .pure rfl
    · refine .bind (.take nofun) fun _ _ ↦ .bind (lays_typeClause _) fun _ d ↦ ?_
      refine (laysAt_comma rfl ih d).mono fun _ _ hps ↦ ?_
      obtain ⟨_, rfl, rfl⟩ := hps
      rfl

theorem laysAt_function (hk : c.current.kind = .word .functionHead) :
    LaysAt c function fun f ps ↦ ps = f.places := by
  refine .bind (.advance_kind hk nofun) fun _ _ ↦ .bind (.take nofun) fun _ _ ↦
    .bind (.take nofun) fun _ _ ↦ .get (.bind (lays_parameters _ _) fun _ _ ↦ .bind (.take nofun) fun _ _ ↦
    .bind (lays_typeClause? _) fun _ _ ↦ .bind (lays_block _) fun _ _ ↦ .pure ?_)
  simp [Function.places]

theorem lays_member : Lays member fun m ps ↦ ps = m.places :=
  fun _ ↦ .kind (.ite
    (fun hk ↦ .bind (laysAt_function hk) fun _ _ ↦ .pure (List.append_nil _))
    fun _ ↦ .bind (.get ((statementsLaid _).statement _)) fun _ _ ↦ .pure (List.append_nil _))

/-- Members fill their places up to the end of a text, since each of them takes a token or is followed by a
gap that does. -/
theorem members_fills {n : Nat} (hc : c.Ends) (hn : c.left ≤ n) :
    Fills (memberPlaces (members n c).1) c (members n c).2 ∧ (members n c).2.current.kind = .endOfFile := by
  induction n generalizing c with
  | zero => exact ⟨.nil c, hc.kind_of_left (Nat.le_zero.mp hn)⟩
  | succ n ih =>
    have hmembers : members (n + 1) c = (if c.current.kind = .endOfFile then pure [] else do
        let first ← member
        progress c.left
        return first :: (← members n) : Reader (List Member)) c := by
      rw [members]
      change (ite _ _ _ : Reader _) c = _
      split <;> rfl
    rw [hmembers]
    split
    · next hend => exact ⟨.nil c, hend⟩
    · next hend =>
      obtain ⟨_, rfl, hfirst⟩ := lays_member c hc
      have hps : (member c).1.places.filterMap Place.token? ≠ [] :=
        Member.tokens_places _ ▸ Member.tokens_ne_nil _
      obtain ⟨hgap, hlt⟩ := fill_progress hfirst hc hend hps
      obtain ⟨hrest, hlast⟩ := ih (hgap.ends (hfirst.ends hc)) (by omega)
      exact ⟨hfirst.append (.cons hgap hrest), hlast⟩

theorem source_fills (hc : c.Ends) :
    ∃ d, Fills (memberPlaces (source c).1.members) c d ∧ d.current.kind = .endOfFile ∧
      (source c).1.finish = d.current ∧ (source c).2.reports = d.reports := by
  obtain ⟨hfills, hend⟩ := members_fills hc (Nat.le_refl c.left)
  have htake : (take .endOfFile (members c.left c).2) = advance (members c.left c).2 := if_pos hend
  refine ⟨_, hfills, hend, ?_, ?_⟩
  · change (take .endOfFile (members c.left c).2).1 = _
    rw [htake]
    change Prod.fst (Cursor.advance _) = _
    unfold Cursor.advance
    split <;> rfl
  · change (take .endOfFile (members c.left c).2).2.reports = _
    rw [htake]
    exact Cursor.reports_advance _

end Reader

end SmallScript.Tree
