import SmallScript.Code.Printer
import SmallScript.Proofs.Token.Pieces
import SmallScript.Tree.ReadSource

namespace SmallScript.Tree

open Code (Piece)
open Token (Kind)

def front (ts : List Token) : Kind := (Cursor.ofTokens ts).current.kind

/-- The kinds of token that an expression without faults can begin with. -/
def expressionFronts : List Kind :=
  [.identifier, .number, .string, .word .trueValue, .word .falseValue, .mark .openParenthesis, .mark .plus,
    .mark .minus, .mark .bang, .mark .tilde]

theorem front_cons (t : Token) (ts : List Token) : front (t :: ts) = t.kind := rfl

/-- From some tokens on, an action gives a result, reports nothing and leaves other tokens. -/
def Gives {α : Type} (m : Reader α) (ts : List Token) (a : α) (us : List Token) : Prop :=
  m (.ofTokens ts) = (a, .ofTokens us)

namespace Gives

open Reader

variable {α β : Type} {m : Reader α} {f : α → Reader β} {a : α} {b : β} {t : Token} {ts us vs : List Token}
  {k : Kind}

theorem bind_eq (hm : Gives m ts a us) : (m >>= f) (.ofTokens ts) = f a (.ofTokens us) := by
  change f (m _).1 (m _).2 = _
  rw [show m (.ofTokens ts) = _ from hm]

theorem bind (hm : Gives m ts a us) (hf : Gives (f a) us b vs) : Gives (m >>= f) ts b vs :=
  hm.bind_eq.trans hf

theorem pure (a : α) (ts : List Token) : Gives (pure a) ts a ts := rfl

theorem kind (ts : List Token) : Gives kind ts (front ts) ts := rfl

theorem get (ts : List Token) : Gives get ts (Cursor.ofTokens ts) ts := rfl

theorem advance (h : us ≠ []) : Gives advance (t :: us) t us := by
  obtain ⟨u, us, rfl⟩ := List.exists_cons_of_ne_nil h
  rfl

theorem take (ht : t.kind = k) (h : us ≠ []) : Gives (take k) (t :: us) t us := by
  obtain ⟨u, us, rfl⟩ := List.exists_cons_of_ne_nil h
  obtain rfl := ht
  exact if_pos rfl

end Gives

namespace Reader

variable {sign : Token} {ts us vs : List Token} {n level own : Nat} {x y : Expression}

theorem gives_joined (h : ∀ own, (front ts).binaryLevel? = some own → own ≤ level) (n : Nat)
    (x : Expression) : Gives (joined n level x) ts x ts := by
  cases n with
  | zero => rfl
  | succ n =>
    refine .bind (.kind ts) ?_
    split
    · next own hown =>
      rw [if_neg (Nat.not_lt.mpr (h own hown))]
      rfl
    · rfl

theorem joined_sign (hsign : sign.kind.binaryLevel? = some own) (hlevel : level < own)
    (hts : ts ≠ []) (hright : Gives (operators n own) ts y us) :
    joined (n + 1) level x (.ofTokens (sign :: ts)) = joined n level (.binary x sign y) (.ofTokens us) := by
  refine (Gives.kind _).bind_eq.trans ?_
  simp only [front_cons, hsign, if_pos hlevel]
  exact (Gives.advance hts).bind_eq.trans hright.bind_eq

theorem operators_sign (hsign : sign.kind.unaryLevel? = some own) (hlevel : level ≤ own)
    (hts : ts ≠ []) (hoperand : Gives (operators n own) ts x us) :
    operators (n + 1) level (.ofTokens (sign :: ts)) = joined n level (.unary sign x) (.ofTokens us) := by
  refine (Gives.kind _).bind_eq.trans ?_
  simp only [front_cons, hsign, if_pos hlevel]
  exact (Gives.advance hts).bind_eq.trans hoperand.bind_eq

theorem operators_primary (hfront : (front ts).unaryLevel? = none) (hprimary : Gives (primary n) ts x us) :
    operators (n + 1) level (.ofTokens ts) = joined n level x (.ofTokens us) := by
  refine (Gives.kind _).bind_eq.trans ?_
  rw [hfront]
  exact hprimary.bind_eq

theorem gives_primary_group {opening closing : Token} (ho : opening.kind = .mark .openParenthesis)
    (hts : ts ≠ []) (hx : Gives (expression n) ts x (closing :: us))
    (hc : closing.kind = .mark .closeParenthesis) (hus : us ≠ []) :
    Gives (primary (n + 1)) (opening :: ts) (.group opening x closing) us := by
  refine .bind (.kind _) ?_
  rw [front_cons, ho]
  exact .bind (.advance hts) (.bind hx (.bind (.take hc hus) (.pure _ _)))

theorem gives_primary_literal {t : Token} {v : Value} (ht : (Piece.literal v).IsToken t) (hts : ts ≠ []) :
    Gives (primary (n + 1)) (t :: ts) (.literal t v) ts := by
  obtain ⟨hkind, -, hvalue⟩ := ht
  refine .bind (.kind _) ?_
  rw [front_cons, hkind]
  cases v with
  | int i =>
    refine .bind (.advance hts) ?_
    rw [hvalue]
    exact .pure _ _
  | bool b => cases b <;> exact .bind (.advance hts) (.pure _ _)
  | string s =>
    refine .bind (.advance hts) ?_
    rw [hvalue]
    exact .pure _ _

theorem nextKind_ofTokens (t : Token) (hts : ts ≠ []) : (Cursor.ofTokens (t :: ts)).nextKind = front ts := by
  obtain ⟨u, us, rfl⟩ := List.exists_cons_of_ne_nil hts
  rfl

theorem gives_primary_name {t : Token} (ht : t.kind = .identifier) (hts : ts ≠ [])
    (hnext : front ts ≠ .mark .openParenthesis) : Gives (primary (n + 1)) (t :: ts) (.name t) ts := by
  refine .bind (.kind _) ?_
  rw [front_cons, ht]
  refine .bind (.get _) ?_
  rw [nextKind_ofTokens t hts, if_neg hnext]
  exact .bind (.take ht hts) (.pure _ _)

theorem gives_primary_call {t opening closing : Token} {xs : List Expression} (ht : t.kind = .identifier)
    (ho : opening.kind = .mark .openParenthesis) (hts : ts ≠ [])
    (hxs : Gives (arguments n) ts xs (closing :: us)) (hc : closing.kind = .mark .closeParenthesis)
    (hus : us ≠ []) :
    Gives (primary (n + 1)) (t :: opening :: ts) (.call t opening xs closing) us := by
  refine .bind (.kind _) ?_
  rw [front_cons, ht]
  refine .bind (.get _) ?_
  rw [nextKind_ofTokens t (List.cons_ne_nil _ _), front_cons, if_pos ho]
  exact .bind (.advance (List.cons_ne_nil _ _)) (.bind (.advance hts) (.bind hxs (.bind (.take hc hus) (.pure _ _))))

def StartsAssign (ts : List Token) : Prop :=
  front ts = .identifier ∧ (Cursor.ofTokens ts).nextKind = .mark .equals

theorem gives_expression_assign {t equals : Token} (ht : t.kind = .identifier)
    (hequals : equals.kind = .mark .equals) (hts : ts ≠ []) (hx : Gives (expression n) ts x us) :
    Gives (expression (n + 1)) (t :: equals :: ts) (.assign t equals x) us := by
  have hstarts : StartsAssign (t :: equals :: ts) := ⟨ht, hequals⟩
  refine .bind (.kind _) (.bind (.get _) ?_)
  rw [if_pos (show _ ∧ _ from hstarts)]
  exact .bind (.advance (List.cons_ne_nil _ _)) (.bind (.advance hts) (.bind hx (.pure _ _)))

theorem gives_expression_operators (h : ¬ StartsAssign ts) (hx : Gives (operators n 0) ts x us) :
    Gives (expression (n + 1)) ts x us := by
  refine .bind (.kind _) (.bind (.get _) ?_)
  rw [if_neg (show ¬ (_ ∧ _) from h)]
  exact hx

theorem gives_arguments_nil (h : front ts = .mark .closeParenthesis) (n : Nat) :
    Gives (arguments n) ts [] ts := by
  cases n with
  | zero => rfl
  | succ n =>
    refine .bind (.kind _) ?_
    rw [h]
    exact .pure _ _

theorem gives_arguments_last (h : front ts ∈ expressionFronts) (hx : Gives (expression n) ts x us)
    (hus : front us ≠ .mark .comma) : Gives (arguments (n + 1)) ts [x] us := by
  refine .bind (.kind _) ?_
  split
  · next hclose => exact absurd (hclose ▸ h) (by decide)
  · next hend => exact absurd (hend ▸ h) (by decide)
  · refine .bind hx (.bind (.kind _) ?_)
    rw [if_neg hus]
    exact .pure _ _

theorem gives_arguments_cons {comma : Token} {xs : List Expression} (h : front ts ∈ expressionFronts)
    (hx : Gives (expression n) ts x (comma :: us)) (hcomma : comma.kind = .mark .comma) (hus : us ≠ [])
    (hxs : Gives (arguments n) us xs vs) : Gives (arguments (n + 1)) ts (x :: xs) vs := by
  refine .bind (.kind _) ?_
  split
  · next hclose => exact absurd (hclose ▸ h) (by decide)
  · next hend => exact absurd (hend ▸ h) (by decide)
  · refine .bind hx (.bind (.kind _) ?_)
    rw [front_cons, if_pos hcomma]
    exact .bind (.advance hus) (.bind hxs (.pure _ _))

theorem left_ofTokens (ts : List Token) : (Cursor.ofTokens ts).left = ts.length - 1 := by
  cases ts <;> rfl

theorem gives_wholeExpression (hx : Gives (expression (3 * (ts.length - 1) + 3)) ts x us) :
    Gives wholeExpression ts x us := by
  refine .bind (.get ts) ?_
  rw [left_ofTokens]
  exact hx

theorem gives_statement (h : front ts ∈ expressionFronts) (hx : Gives wholeExpression ts x us) (n : Nat) :
    Gives (statement n) ts (.expression x) us := by
  cases n with
  | zero => exact .bind hx (.pure _ _)
  | succ n =>
    refine .bind (.kind _) ?_
    split
    case h_11 => exact .bind hx (.pure _ _)
    all_goals
      next hk => exact absurd (hk ▸ h) (by decide)

theorem gives_progress {n : Nat} (hus : us ≠ []) (h : us.length < n) : Gives (progress (n - 1)) us () us := by
  refine .bind (.get us) ?_
  have hpos := List.length_pos_iff.mpr hus
  rw [left_ofTokens, if_neg (by omega)]
  exact .pure _ _

theorem gives_members_nil (h : front ts = .endOfFile) (n : Nat) : Gives (members n) ts [] ts := by
  cases n with
  | zero => rfl
  | succ n =>
    refine .bind (.kind _) ?_
    rw [if_pos h]
    exact .pure _ _

theorem gives_members_cons {m : Member} {ms : List Member} (h : front ts ≠ .endOfFile) (hm : Gives member ts m us)
    (hus : us ≠ []) (hlt : us.length < ts.length) (hms : Gives (members n) us ms vs) :
    Gives (members (n + 1)) ts (m :: ms) vs := by
  refine .bind (.kind _) ?_
  rw [if_neg h]
  refine .bind (.get _) (.bind hm ?_)
  rw [left_ofTokens]
  exact .bind (gives_progress hus hlt) (.bind hms (.pure _ _))

theorem gives_source_of_members {ms : List Member} {finish : Token}
    (hms : Gives (members (ts.length - 1)) ts ms [finish]) (hfinish : finish.kind = .endOfFile) :
    Gives source ts ⟨ms, finish⟩ [finish] := by
  refine .bind (.get _) ?_
  rw [left_ofTokens]
  refine .bind hms (.bind ?_ (.pure _ _))
  change Cursor.take _ _ = _
  rw [Cursor.take, if_pos (by exact hfinish)]
  rfl

theorem gives_source {finish : Token} (h : front ts ∈ expressionFronts)
    (hx : Gives wholeExpression ts x [finish]) (hfinish : finish.kind = .endOfFile) (hts : 1 < ts.length) :
    Gives source ts ⟨[.statement (.expression x)], finish⟩ [finish] := by
  have hfunction : front ts ≠ .word .functionHead := fun hk ↦ absurd (hk ▸ h) (by decide)
  have hend : front ts ≠ .endOfFile := fun hk ↦ absurd (hk ▸ h) (by decide)
  have hmember : Gives member ts (.statement (.expression x)) [finish] := by
    refine .bind (.kind _) ?_
    rw [if_neg hfunction]
    exact .bind (.bind (.get _) (gives_statement h hx _)) (.pure _ _)
  refine gives_source_of_members ?_ hfinish
  obtain ⟨n, hn⟩ : ∃ n, ts.length - 1 = n + 1 := ⟨ts.length - 2, by omega⟩
  have hfront : front [finish] = .endOfFile := hfinish
  rw [hn]
  exact gives_members_cons hend hmember (List.cons_ne_nil _ _) hts (gives_members_nil hfront n)

end Reader

theorem ofText_of_gives {text : String} {ts : List Token} {s : Source} {finish : Token}
    (hscan : (scan text).map (·.token) = ts) (hgood : ∀ t ∈ ts, t.kind ≠ .bad)
    (hs : Gives Reader.source ts s [finish]) :
    (ofText text).source = s ∧ (ofText text).reports = (scan text).filterMap (·.report) := by
  have hfilter : ts.filter (·.kind != .bad) = ts :=
    List.filter_eq_self.mpr fun t ht ↦ bne_iff_ne.mpr (hgood t ht)
  have hsource : Source.ofTokens ((scan text).map (·.token)) = (s, []) := by
    rw [hscan, Source.ofTokens, hfilter]
    have hrun : Reader.source.run (.ofTokens ts) = _ := hs
    rw [hrun]
    rfl
  rw [ofText, hsource]
  exact ⟨rfl, List.append_nil _⟩

end SmallScript.Tree
