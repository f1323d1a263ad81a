import SmallScript.Proofs.Tree.Expressions

namespace SmallScript.Tree

open Token (Kind)

/-- The level of the operator that a bare operation of two operands has. -/
def Expression.level? : Expression → Option Nat
  | .binary _ sign _ => sign.kind.binaryLevel?
  | _ => none

def Expression.Tighter (level : Nat) (e : Expression) : Prop := ∀ inner ∈ e.level?, level < inner

/-- Whether an operator that follows an expression goes on with the whole of it, and not with its right
operand. -/
def Expression.Precedes (e : Expression) (k : Kind) : Prop :=
  ∀ inner ∈ e.level?, ∀ own ∈ k.binaryLevel?, own ≤ inner

mutual

/-- Whether operands are grouped as operators bind. An operand is no bare assignment, that of a sign no bare
operation of two operands, and one beside an operator only such an operation that binds at least as tightly to
the left, and more tightly to the right. -/
def Expression.Grouped : Expression → Prop
  | .literal _ _ | .name _ => True
  | .unary _ operand => operand.isAssign = false ∧ operand.level? = none ∧ operand.Grouped
  | .binary left sign right =>
    left.isAssign = false ∧ right.isAssign = false ∧
      (∃ own, sign.kind.binaryLevel? = some own ∧ (∀ inner ∈ left.level?, own ≤ inner) ∧
        ∀ inner ∈ right.level?, own < inner) ∧
      left.Grouped ∧ right.Grouped
  | .group _ inner _ => inner.Grouped
  | .assign _ _ value => value.Grouped
  | .call _ _ arguments _ => AllGrouped arguments

def AllGrouped : List Expression → Prop
  | [] => True
  | e :: rest => e.Grouped ∧ AllGrouped rest

end

structure Expression.Operand (e : Expression) : Prop where
  grouped : e.Grouped
  not_assign : e.isAssign = false

namespace Expression

variable {left right e : Expression} {sign : Token} {level own : Nat} {k : Kind}

theorem Tighter.of_none (h : e.level? = none) : e.Tighter level := by
  rw [Tighter, h]
  nofun

theorem Precedes.of_none (h : e.level? = none) : e.Precedes k := by
  rw [Precedes, h]
  nofun

theorem Operand.unary (h : e.Operand) (hnone : e.level? = none) (sign : Token) :
    (Expression.unary sign e).Operand :=
  ⟨⟨h.not_assign, hnone, h.grouped⟩, rfl⟩

theorem Operand.binary (hleft : left.Operand) (hown : sign.kind.binaryLevel? = some own)
    (hprecedes : left.Precedes sign.kind) (hright : right.Operand) (htighter : right.Tighter own) :
    (Expression.binary left sign right).Operand :=
  ⟨⟨hleft.not_assign, hright.not_assign, ⟨own, hown, fun inner h ↦ hprecedes inner h own hown, htighter⟩,
    hleft.grouped, hright.grouped⟩, rfl⟩

theorem Grouped.level?_eq_none (h : e.Grouped) (hown : k.unaryLevel? = some own) (htighter : e.Tighter own) :
    e.level? = none := by
  cases hlevel : e.level? with
  | none => rfl
  | some inner =>
    have hlt := htighter inner hlevel
    cases e with
    | binary left sign right => exact absurd hlt (Nat.lt_asymm (Kind.binaryLevel?_lt_unaryLevel? hlevel hown))
    | _ => nomatch hlevel

end Expression

namespace Reader

/-- What is read as an operand, with all operators after it that bind tighter than `level`. -/
structure Joins (level : Nat) (e : Expression) (d : Cursor) : Prop where
  operand : e.Operand
  tighter : e.Tighter level
  stops : ∀ own ∈ d.current.kind.binaryLevel?, own ≤ level

/-- How the parts of an expression are grouped when they are read to some depth. Each token that is left needs
three steps of it. -/
structure ExpressionsGrouped (n : Nat) : Prop where
  expression {c : Cursor} (hn : 3 * c.left + 2 ≤ n) : Arrives c (expression n) fun e _ ↦ e.Grouped
  operators {c : Cursor} (level : Nat) (hn : 3 * c.left + 1 ≤ n) : Arrives c (operators n level) (Joins level)
  joined {c : Cursor} {level : Nat} {left : Expression} (hn : 3 * c.left ≤ n) (hleft : left.Operand)
    (htighter : left.Tighter level) (hprecedes : left.Precedes c.current.kind) :
    Arrives c (joined n level left) (Joins level)
  primary {c : Cursor} (hn : 3 * c.left ≤ n) : Arrives c (primary n) fun e _ ↦ e.Operand ∧ e.level? = none
  arguments {c : Cursor} (hn : 3 * c.left + 3 ≤ n) : Arrives c (arguments n) fun es _ ↦ AllGrouped es

theorem name_grouped : Finds name fun e ↦ e.Operand ∧ e.level? = none :=
  .bind (.take _) fun _ _ ↦ .pure ⟨⟨trivial, rfl⟩, rfl⟩

namespace ExpressionsGrouped

variable {n : Nat} {c : Cursor}

theorem zero : ExpressionsGrouped 0 where
  expression hn := absurd hn (by omega)
  operators _ hn := absurd hn (by omega)
  joined {c level _} hn hleft htighter _ hc := by
    refine ⟨hc, Nat.le_refl _, hleft, htighter, ?_⟩
    change ∀ own ∈ c.current.kind.binaryLevel?, own ≤ level
    rw [hc.kind_of_left (by omega)]
    nofun
  primary _ := name_grouped _
  arguments hn := absurd hn (by omega)

theorem expression_succ (h : ExpressionsGrouped n) (hn : 3 * c.left + 2 ≤ n + 1) :
    Arrives c (Reader.expression (n + 1)) fun e _ ↦ e.Grouped := by
  refine .kind (.get (.ite (fun hassign ↦ ?_) fun _ ↦ ?_))
  · refine .bind (.advance (hassign.1 ▸ nofun)) fun _ d _ hd ↦ .bind (.advance ?_) fun _ d' hd' _ ↦
      .bind (h.expression (by omega)) fun _ _ _ hx ↦ .pure hx
    rw [hd.2.2, hassign.2]
    nofun
  · exact (h.operators 0 (by omega)).mono fun _ _ hx ↦ hx.operand.grouped

theorem operators_succ (h : ExpressionsGrouped n) (level : Nat) (hn : 3 * c.left + 1 ≤ n + 1) :
    Arrives c (Reader.operators (n + 1) level) (Joins level) := by
  have hprimary : Arrives c (do Reader.joined n level (← Reader.primary n)) (Joins level) :=
    .bind (h.primary (by omega)) fun left _ _ hleft ↦
      h.joined (by omega) hleft.1 (.of_none hleft.2) (.of_none hleft.2)
  refine .kind ?_
  split
  · next own hown =>
    refine .ite (fun _ ↦ ?_) fun _ ↦ hprimary
    refine .bind (.advance fun hend ↦ ?_) fun sign d _ hd ↦ .bind (h.operators own (by omega))
      fun operand d' _ hoperand ↦ ?_
    · rw [hend] at hown
      nomatch hown
    · have hnone := hoperand.operand.grouped.level?_eq_none hown hoperand.tighter
      exact h.joined (by omega) (hoperand.operand.unary hnone sign) (.of_none rfl) (.of_none rfl)
  · exact hprimary

/-- The operator that comes after a right operand did not go on with it. -/
theorem joined_succ {level : Nat} {left : Expression} (h : ExpressionsGrouped n) (hn : 3 * c.left ≤ n + 1)
    (hleft : left.Operand) (htighter : left.Tighter level) (hprecedes : left.Precedes c.current.kind) :
    Arrives c (Reader.joined (n + 1) level left) (Joins level) := by
  refine .kind ?_
  split
  · next own hown =>
    refine .ite (fun hlevel ↦ ?_) fun hlevel ↦ .pure ⟨hleft, htighter, fun own' hown' ↦ ?_⟩
    · refine .bind (.advance fun hend ↦ ?_) fun sign d _ hd ↦ .bind (h.operators own (by omega))
        fun right d' _ hright ↦ ?_
      · rw [hend] at hown
        nomatch hown
      · obtain ⟨rfl, hlt, -⟩ := hd
        have hlevel? : (Expression.binary left c.current right).level? = some own := hown
        refine h.joined (by omega) (hleft.binary hown hprecedes hright.operand hright.tighter) ?_ ?_
        · intro inner hinner
          rw [hlevel?] at hinner
          exact Option.some.inj hinner ▸ hlevel
        · intro inner hinner own' hown'
          rw [hlevel?] at hinner
          exact Option.some.inj hinner ▸ hright.stops own' hown'
    · rw [hown] at hown'
      exact Option.some.inj hown' ▸ Nat.not_lt.mp hlevel
  · next hnone =>
    refine .pure ⟨hleft, htighter, fun own hown ↦ ?_⟩
    rw [hnone] at hown
    nomatch hown

theorem primary_succ (h : ExpressionsGrouped n) (hn : 3 * c.left ≤ n + 1) :
    Arrives c (Reader.primary (n + 1)) fun e _ ↦ e.Operand ∧ e.level? = none := by
  have hliteral {value : Token → Value} :
      Arrives c (do let t ← advance; return Expression.literal t (value t)) fun e _ ↦
        e.Operand ∧ e.level? = none :=
    Finds.bind .advance (fun _ _ ↦ .pure ⟨⟨trivial, rfl⟩, rfl⟩) c
  refine .kind ?_
  split
  · next hk =>
    exact .bind (.advance (hk ▸ nofun)) fun _ d _ hd ↦ .bind (h.expression (by omega)) fun x _ _ hx ↦
      Finds.bind (.take _) (fun _ _ ↦ .pure ⟨⟨hx, rfl⟩, rfl⟩) _
  · exact hliteral
  · exact hliteral
  · exact hliteral
  · exact hliteral
  · next hk =>
    refine .get (.ite (fun hnext ↦ ?_) fun _ ↦ name_grouped c)
    refine .bind (.advance (hk ▸ nofun)) fun _ d _ hd ↦ .bind (.advance ?_) fun _ d' _ hd' ↦
      .bind (h.arguments (by omega)) fun xs _ _ hxs ↦
      Finds.bind (.take _) (fun _ _ ↦ .pure ⟨⟨hxs, rfl⟩, rfl⟩) _
    rw [hd.2.2, hnext]
    nofun
  · exact name_grouped c

theorem arguments_succ (h : ExpressionsGrouped n) (hn : 3 * c.left + 3 ≤ n + 1) :
    Arrives c (Reader.arguments (n + 1)) fun es _ ↦ AllGrouped es := by
  refine .kind ?_
  split
  · exact .pure trivial
  · exact .pure trivial
  · refine .bind (h.expression (by omega)) fun x d hd hx ↦ .kind (.ite (fun hcomma ↦ ?_) fun _ ↦
      .pure ⟨hx, trivial⟩)
    exact .bind (.advance (hcomma ▸ nofun)) fun _ d' _ hd' ↦ .bind (h.arguments (by omega)) fun _ _ _ hxs ↦
      .pure ⟨hx, hxs⟩

end ExpressionsGrouped

theorem expressionsGrouped (n : Nat) : ExpressionsGrouped n := by
  induction n with
  | zero => exact .zero
  | succ n ih =>
    exact ⟨ih.expression_succ, ih.operators_succ, ih.joined_succ, ih.primary_succ, ih.arguments_succ⟩

theorem IsWhole.grouped {e : Expression} (h : IsWhole e) : e.Grouped := by
  obtain ⟨c, hc, rfl⟩ := h
  exact ((expressionsGrouped _).expression (by omega) hc).2.2

end Reader

theorem grouped_ofText (text : String) : ∀ e ∈ (ofText text).source.expressions, e.Grouped :=
  fun e he ↦ (ofText_expressions text e he).grouped

end SmallScript.Tree
