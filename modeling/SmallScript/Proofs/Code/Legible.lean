import SmallScript.Proofs.Code.Parts
import SmallScript.Proofs.Token.Pieces
import SmallScript.Proofs.Typing.Basic

namespace SmallScript

theorem isName_of_isValue {t : Ty} (h : t.IsValue) : IsName t.name := by
  cases t with
  | unknown => exact absurd rfl h.1
  | void => exact absurd rfl h.2
  | bool | int | string => exact ⟨.of_all rfl (by decide) rfl, by decide⟩

theorem Ty.written?_name {t : Ty} (h : t.IsValue) : written? t.name = some t := by
  cases t with
  | unknown => exact absurd rfl h.1
  | void => exact absurd rfl h.2
  | bool | int | string => rfl

namespace Code

open Token (Kind)

mutual

def Expression.Legible : Expression → Prop
  | .error => True
  | .literal v => v.Plain
  | .var v => IsName v.name
  | .assign v e => IsName v.name ∧ e.Legible
  | .unary o e => o ∈ UnaryOperator.all ∧ e.Legible
  | .binary e o e' => o ∈ BinaryOperator.all ∧ e.Legible ∧ e'.Legible
  | .call f es => IsName f.name ∧ AllLegible es
  | .convert target e => target.IsValue ∧ e.Legible

def AllLegible : List Expression → Prop
  | [] => True
  | e :: es => e.Legible ∧ AllLegible es

end

/-- Whether no part of an expression is without meaning. -/
def Expression.Meant (e : Expression) : Prop := e.Uses False (fun _ ↦ True) fun _ ↦ True

theorem Expression.WellTyped.meant {R : Rules} {e : Expression} (h : e.WellTyped R) : e.Meant :=
  Expression.WellTyped.uses e h (e.uses_iff.mpr ⟨fun _ _ ↦ trivial, fun _ _ ↦ trivial⟩)

namespace Piece

def Opens : Piece → Prop
  | name s => IsName s
  | literal v => v.Plain
  | sign p => p = .openParenthesis ∨ (Kind.unaryLevel? (.mark p)).isSome
  | unknown => True
  | word _ | blank => False

theorem endsBefore_sign {p : Punctuation} {rest : List Char}
    (h : ∀ c, rest.head? = some c → c ≠ '=' ∧ c ≠ '&' ∧ c ≠ '|') : (sign p).EndsBefore rest := by
  have hnext : rest.head? ≠ some '=' ∧ rest.head? ≠ some '&' ∧ rest.head? ≠ some '|' :=
    ⟨fun hr ↦ (h _ hr).1 rfl, fun hr ↦ (h _ hr).2.1 rfl, fun hr ↦ (h _ hr).2.2 rfl⟩
  cases p <;> first
    | exact ⟨_, _, rfl, rfl⟩
    | exact ⟨_, _, rfl, congrArg some (if_neg hnext.1)⟩
    | exact ⟨_, _, rfl, congrArg some (if_neg hnext.2.1)⟩
    | exact ⟨_, _, rfl, congrArg some (if_neg hnext.2.2)⟩

theorem Opens.first {p : Piece} (h : p.Opens) :
    ∃ c cs, p.text.toList = c :: cs ∧ c ≠ '=' ∧ c ≠ '&' ∧ c ≠ '|' := by
  have hpart {c : Char} (h : isIdentifierPart c) : c ≠ '=' ∧ c ≠ '&' ∧ c ≠ '|' := by
    refine ⟨?_, ?_, ?_⟩ <;> rintro rfl <;> exact absurd h (by decide)
  cases p with
  | name s =>
    obtain ⟨c, cs, hs, hc⟩ := h.start
    exact ⟨c, cs, hs, hpart (isIdentifierPart_of_start hc)⟩
  | literal v =>
    cases v with
    | int n =>
      rw [toList_text_int h]
      have hdigits : ∀ c ∈ Nat.toDigits 10 n.toInt.toNat, c.isDigit :=
        fun c hc ↦ Nat.isDigit_of_mem_toDigits (by decide) (by decide) hc
      cases hs : Nat.toDigits 10 n.toInt.toNat with
      | nil => exact absurd hs Nat.toDigits_ne_nil
      | cons c cs =>
        rw [hs] at hdigits
        exact ⟨c, cs, rfl, hpart (isIdentifierPart_of_isDigit (hdigits c List.mem_cons_self))⟩
    | bool b => cases b <;> exact ⟨_, _, rfl, by decide⟩
    | string s => exact ⟨_, _, String.toList_ofList, by decide⟩
  | sign p =>
    rcases h with rfl | h
    · exact ⟨_, _, rfl, by decide⟩
    · cases p <;> first | exact ⟨_, _, rfl, by decide⟩ | exact absurd h (by decide)
  | unknown => exact ⟨_, _, rfl, by decide⟩
  | word | blank => exact h.elim

end Piece

def Stops (ps : List Piece) : Prop := ∀ c, (charsOf ps).head? = some c → isIdentifierPart c = false

theorem stops_blank (ps : List Piece) : Stops (.blank :: ps) := by
  intro c hc
  cases hc
  decide

theorem stops_sign (p : Punctuation) (ps : List Piece) : Stops (.sign p :: ps) := by
  have hall : Punctuation.all.all fun p ↦ p.text.toList.all fun c ↦ !isIdentifierPart c := by decide +kernel
  have hpart := List.all_eq_true.mp (List.all_eq_true.mp hall p p.mem_all)
  obtain ⟨d, ds, hs⟩ : ∃ d ds, p.text.toList = d :: ds := by cases p <;> exact ⟨_, _, rfl⟩
  intro c hc
  change (p.text.toList ++ charsOf ps).head? = some c at hc
  rw [hs] at hc
  cases hc
  exact (Bool.not_eq_true' _).mp (hpart _ (hs ▸ List.mem_cons_self))

def ReadableBefore (ps : List Piece) : Prop := ∀ rest, Readable rest → Stops rest → Readable (ps ++ rest)

section Pieces

variable {ps rest : List Piece}

theorem readable_blank (h : Readable rest) : Readable (.blank :: rest) := ⟨trivial, trivial, h⟩

theorem readable_sign_blank (p : Punctuation) (h : Readable rest) : Readable (.sign p :: .blank :: rest) := by
  refine ⟨trivial, Piece.endsBefore_sign ?_, readable_blank h⟩
  intro c hc
  cases hc
  decide

theorem readable_literal {v : Value} (hv : v.Plain) (h : Readable rest) (hstop : Stops rest) :
    Readable (.literal v :: rest) := by
  refine ⟨hv, ?_, h⟩
  cases v with
  | int | bool => exact hstop
  | string => trivial

theorem ReadableBefore.grouped (h : ReadableBefore ps) : (needed : Bool) → ReadableBefore (grouped needed ps)
  | false => h
  | true => by
    intro rest hrest _
    have hclosing : Readable (.sign .closeParenthesis :: rest) := ⟨trivial, ⟨_, _, rfl, rfl⟩, hrest⟩
    have hinner := h _ hclosing (stops_sign _ _)
    have hall : Code.grouped true ps ++ rest =
        .sign .openParenthesis :: (ps ++ .sign .closeParenthesis :: rest) := by simp [Code.grouped]
    exact hall ▸ ⟨trivial, ⟨_, _, rfl, rfl⟩, hinner⟩

theorem exists_opens_grouped (h : ∃ p qs, ps = p :: qs ∧ p.Opens) :
    (needed : Bool) → ∃ p qs, grouped needed ps = p :: qs ∧ p.Opens
  | false => h
  | true => ⟨_, _, rfl, .inl rfl⟩

end Pieces

theorem Expression.exists_opens : (e : Expression) → e.Legible → ∃ p ps, e.pieces = p :: ps ∧ p.Opens
  | .error, _ => ⟨_, _, rfl, trivial⟩
  | .literal _, h | .var _, h => ⟨_, _, rfl, h⟩
  | .assign _ _, ⟨h, _⟩ | .call _ _, ⟨h, _⟩ => ⟨_, _, rfl, h⟩
  | .convert _ _, ⟨h, _⟩ => ⟨_, _, rfl, isName_of_isValue h⟩
  | .unary o _, ⟨h, _⟩ => by
    have hall : ∀ o ∈ UnaryOperator.all, (Kind.unaryLevel? (.mark o.sign)).isSome := by decide
    exact ⟨_, _, rfl, .inr (hall o h)⟩
  | .binary e _ _, ⟨_, h, _⟩ => by
    obtain ⟨p, ps, hps, hp⟩ := exists_opens_grouped (e.exists_opens h) _
    exact ⟨p, _, by rw [pieces, hps]; rfl, hp⟩

mutual

/-- An expression scans as what it is written as, unless a word goes on after it. -/
theorem Expression.readable_pieces : (e : Expression) → e.Legible → ReadableBefore e.pieces
  | .error, _ => fun _ hrest _ ↦ ⟨trivial, trivial, hrest⟩
  | .literal _, h => fun _ ↦ readable_literal h
  | .var _, h => fun _ hrest hstop ↦ ⟨h, hstop, hrest⟩
  | .assign v e, ⟨hv, he⟩ => fun rest hrest hstop ↦
    ⟨hv, stops_blank _, readable_blank (readable_sign_blank _ (e.readable_pieces he rest hrest hstop))⟩
  | .unary o e, ⟨_, he⟩ => by
    intro rest hrest hstop
    have hoperand := (e.readable_pieces he).grouped (e.needsGroup 6 true) rest hrest hstop
    -- Only a bang could go on with the operand, and no operand begins with an equals sign.
    obtain ⟨p, ps, hps, hp⟩ := exists_opens_grouped (e.exists_opens he) (e.needsGroup 6 true)
    obtain ⟨c, cs, hc, hsign⟩ := hp.first
    refine ⟨trivial, Piece.endsBefore_sign ?_, hoperand⟩
    intro d hd
    rw [hps] at hd
    change (p.text.toList ++ charsOf (ps ++ rest)).head? = some d at hd
    rw [hc] at hd
    cases hd
    exact hsign
  | .binary e o e', ⟨_, he, he'⟩ => by
    intro rest hrest hstop
    have hright := (e'.readable_pieces he').grouped
      (e'.needsGroup ((Kind.binaryLevel? (.mark o.sign)).getD 0) true) rest hrest hstop
    have hsign := readable_blank (readable_sign_blank o.sign hright)
    have hleft := (e.readable_pieces he).grouped
      (e.needsGroup ((Kind.binaryLevel? (.mark o.sign)).getD 0) false) _ hsign (stops_blank _)
    simpa [Expression.pieces] using hleft
  | .call f es, ⟨hf, hes⟩ => by
    intro rest hrest hstop
    have hargs := (readable_argumentPieces es hes).grouped true rest hrest hstop
    exact ⟨hf, stops_sign _ _, hargs⟩
  | .convert target e, ⟨htarget, he⟩ => by
    intro rest hrest hstop
    have hoperand := (e.readable_pieces he).grouped true rest hrest hstop
    exact ⟨isName_of_isValue htarget, stops_sign _ _, hoperand⟩

theorem readable_argumentPieces : (es : List Expression) → AllLegible es → ReadableBefore (argumentPieces es)
  | [], _ => fun _ hrest _ ↦ hrest
  | [e], ⟨he, _⟩ => e.readable_pieces he
  | e :: e' :: es, ⟨he, hes⟩ => by
    intro rest hrest hstop
    have htail := readable_argumentPieces (e' :: es) hes rest hrest hstop
    have hcomma : Readable (.sign .comma :: .blank :: (argumentPieces (e' :: es) ++ rest)) :=
      readable_sign_blank _ htail
    have hhead := e.readable_pieces he _ hcomma (stops_sign _ _)
    simpa [argumentPieces] using hhead

end

theorem unknown_mem_grouped {ps : List Piece} (needed : Bool) : .unknown ∈ grouped needed ps ↔ .unknown ∈ ps := by
  cases needed <;> simp [grouped]

mutual

theorem Expression.unknown_not_mem_iff : (e : Expression) → (.unknown ∉ e.pieces ↔ e.Meant)
  | .error => by simp [Expression.pieces, Expression.Meant, Expression.Uses]
  | .literal _ | .var _ => by simp [Expression.pieces, Expression.Meant, Expression.Uses]
  | .assign _ e => by simpa [Expression.pieces, Expression.Meant, Expression.Uses] using e.unknown_not_mem_iff
  | .unary _ e | .convert _ e => by
    simpa [Expression.pieces, Expression.Meant, Expression.Uses, unknown_mem_grouped] using e.unknown_not_mem_iff
  | .binary e _ e' => by
    have h := and_congr e.unknown_not_mem_iff e'.unknown_not_mem_iff
    simpa [Expression.pieces, Expression.Meant, Expression.Uses, unknown_mem_grouped] using h
  | .call _ es => by
    simpa [Expression.pieces, Expression.Meant, Expression.Uses, unknown_mem_grouped] using unknown_not_mem_argumentPieces_iff es

theorem unknown_not_mem_argumentPieces_iff : (es : List Expression) →
    (.unknown ∉ argumentPieces es ↔ AllUse False (fun _ ↦ True) (fun _ ↦ True) es)
  | [] => by simp [argumentPieces, AllUse]
  | [e] => by simpa [argumentPieces, AllUse, Expression.Meant] using e.unknown_not_mem_iff
  | e :: e' :: es => by
    have h := and_congr e.unknown_not_mem_iff (unknown_not_mem_argumentPieces_iff (e' :: es))
    simpa [argumentPieces, AllUse, Expression.Meant] using h

end

end Code

end SmallScript
