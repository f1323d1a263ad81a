import SmallScript.Proofs.Tree.Places
import SmallScript.Tree.ReadSource

namespace SmallScript.Tree

open Token (Kind)

/-- Only the last of some tokens ends a text. -/
inductive EndsOnce : List Token → Prop
  | last {t : Token} (h : t.kind = .endOfFile) : EndsOnce [t]
  | cons {t : Token} {ts : List Token} (h : t.kind ≠ .endOfFile) (hts : EndsOnce ts) : EndsOnce (t :: ts)

def Cursor.tokens (c : Cursor) : List Token := c.current :: c.rest

def Cursor.Ends (c : Cursor) : Prop := EndsOnce c.tokens

def Cursor.fault (c : Cursor) (wanted : Kind) : Report :=
  ⟨c.current.span, .unexpectedToken c.current.kind wanted⟩

/-- Whether a return in front of a token has no value: the line ends, or a block, or the text. -/
def EndsReturn (t : Token) : Prop := t.afterBreak || t.kind == .mark .closeBrace || t.kind == .endOfFile

/-- How a place is filled from one cursor to the next. -/
inductive Fill : Place → Cursor → Cursor → Prop
  | kept {kinds : List Kind} {c : Cursor} (h : c.current.kind ∈ kinds) (hend : c.current.kind ≠ .endOfFile) :
    Fill (.token kinds c.current) c c.advance.2
  | madeUp {kinds : List Kind} {k : Kind} {c : Cursor} (h : k ∈ kinds) (hend : k ≠ .endOfFile) :
    Fill (.token kinds (.missing k c.current.start)) c { c with reports := c.fault k :: c.reports }
  | comma {between : Bool} {c : Cursor} (h : c.current.kind = .mark .comma) :
    Fill (.comma between) c c.advance.2
  | noComma {c : Cursor} : Fill (.comma false) c c
  | skipped {k : Kind} {c : Cursor} (h : c.fault k ∈ c.reports) (hend : c.current.kind ≠ .endOfFile) :
    Fill .gap c c.advance.2
  | noSkip {c : Cursor} : Fill .gap c c
  | bare {c : Cursor} (h : EndsReturn c.current) : Fill .bare c c
  | operand {c : Cursor} : Fill (.operand false) c c

/-- Places are filled one after the other. -/
inductive Fills : List Place → Cursor → Cursor → Prop
  | nil (c : Cursor) : Fills [] c c
  | cons {p : Place} {ps : List Place} {c c' c'' : Cursor} (h : Fill p c c') (hs : Fills ps c' c'') :
    Fills (p :: ps) c c''

section Fills

variable {p : Place} {ps qs : List Place} {c c' c'' : Cursor}

theorem Cursor.Ends.advance_eq (h : c.Ends) (hend : c.current.kind ≠ .endOfFile) :
    ∃ t rest, c.rest = t :: rest ∧ c.advance = (c.current, ⟨t, rest, c.reports⟩) := by
  obtain ⟨current, _ | ⟨t, rest⟩, reports⟩ := c
  · cases h with
    | last h => exact absurd h hend
    | cons _ hts => nomatch hts
  · exact ⟨t, rest, rfl, rfl⟩

theorem Cursor.Ends.advance (h : c.Ends) (hend : c.current.kind ≠ .endOfFile) :
    c.advance.2.Ends ∧ c.advance.2.left < c.left ∧ c.tokens = c.current :: c.advance.2.tokens := by
  obtain ⟨t, rest, hrest, hadvance⟩ := h.advance_eq hend
  rw [Ends, tokens, hrest] at h
  cases h with
  | cons _ hts =>
    refine ⟨?_, ?_, ?_⟩
    · rw [hadvance]
      exact hts
    · change _ < c.rest.length
      rw [hadvance, hrest]
      exact Nat.lt_add_one _
    · rw [hadvance, tokens, hrest]
      rfl

theorem Cursor.Ends.kind_of_left (h : c.Ends) (hleft : c.left = 0) : c.current.kind = .endOfFile := by
  refine Decidable.byContradiction fun hend ↦ ?_
  have hlt := (h.advance hend).2.1
  omega

theorem Cursor.reports_advance (c : Cursor) : c.advance.2.reports = c.reports := by
  unfold advance
  split <;> rfl

theorem Fill.ends (h : Fill p c c') (hc : c.Ends) : c'.Ends := by
  cases h with
  | kept _ hend | skipped _ hend => exact (hc.advance hend).1
  | comma h => exact (hc.advance (h ▸ nofun)).1
  | madeUp | noComma | noSkip | bare | operand => exact hc

theorem Fills.ends (h : Fills ps c c') (hc : c.Ends) : c'.Ends := by
  induction h with
  | nil => exact hc
  | cons h _ ih => exact ih (h.ends hc)

theorem Fill.reports_suffix (h : Fill p c c') : c.reports <:+ c'.reports := by
  cases h with
  | kept | comma | skipped => exact c.reports_advance.symm ▸ List.suffix_refl _
  | madeUp => exact List.suffix_cons _ _
  | noComma | noSkip | bare | operand => exact List.suffix_refl _

theorem Fills.reports_suffix (h : Fills ps c c') : c.reports <:+ c'.reports := by
  induction h with
  | nil => exact List.suffix_refl _
  | cons h _ ih => exact h.reports_suffix.trans ih

theorem Fill.left_le (h : Fill p c c') : c'.left ≤ c.left := by
  cases h with
  | kept | comma | skipped => exact c.left_advance_le
  | madeUp | noComma | noSkip | bare | operand => exact Nat.le_refl _

theorem Fills.left_le (h : Fills ps c c') : c'.left ≤ c.left := by
  induction h with
  | nil => exact Nat.le_refl _
  | cons h _ ih => exact Nat.le_trans ih h.left_le

theorem Fills.append (h : Fills ps c c') (h' : Fills qs c' c'') : Fills (ps ++ qs) c c'' := by
  induction h with
  | nil => exact h'
  | cons h _ ih => exact .cons h (ih h')

theorem Fill.single (h : Fill p c c') : Fills [p] c c' := .cons h (.nil _)

/-- A place that takes no token leaves the cursor where it is, and reports a token that it lacks. -/
theorem Fill.stuck (h : Fill p c c') (hc : c.Ends) (hleft : c'.left = c.left) :
    c'.tokens = c.tokens ∧ ∀ t, p.token? = some t → ∃ k, c'.fault k ∈ c'.reports := by
  have hmoved (hend : c.current.kind ≠ .endOfFile) : c.advance.2.left ≠ c.left :=
    Nat.ne_of_lt (hc.advance hend).2.1
  cases h with
  | kept _ hend | skipped _ hend => exact absurd hleft (hmoved hend)
  | comma h => exact absurd hleft (hmoved (h ▸ nofun))
  | madeUp => exact ⟨rfl, fun _ _ ↦ ⟨_, List.mem_cons_self⟩⟩
  | noComma | noSkip | bare | operand => exact ⟨rfl, fun t ht ↦ absurd ht.symm (Option.some_ne_none t)⟩

theorem Cursor.fault_eq_of_tokens (h : c'.tokens = c.tokens) (k : Kind) : c'.fault k = c.fault k := by
  rw [fault, fault, (List.cons.inj h).1]

/-- Where no token is taken for some places, and one of them lacks one, the token in front is reported. -/
theorem Fills.stuck (h : Fills ps c c') (hc : c.Ends) (hleft : c'.left = c.left) :
    c'.tokens = c.tokens ∧ (ps.filterMap Place.token? ≠ [] → ∃ k, c'.fault k ∈ c'.reports) := by
  induction h with
  | nil => exact ⟨rfl, fun hnil ↦ absurd rfl hnil⟩
  | @cons p ps c c' c'' h hs ih =>
    -- No place gives tokens back, so none has been taken by the first place either.
    have hfirst : c'.left = c.left := Nat.le_antisymm h.left_le (hleft ▸ hs.left_le)
    obtain ⟨htokens, hfault⟩ := h.stuck hc hfirst
    obtain ⟨htokens', hfault'⟩ := ih (h.ends hc) (hleft.trans hfirst.symm)
    refine ⟨htokens'.trans htokens, fun hps ↦ ?_⟩
    cases ht : p.token? with
    | none => exact hfault' (by rwa [List.filterMap_cons_none ht] at hps)
    | some t =>
      obtain ⟨k, hk⟩ := hfault t ht
      exact ⟨k, Cursor.fault_eq_of_tokens htokens' k ▸ hs.reports_suffix.subset hk⟩

end Fills

def LaysAt {α : Type} (c : Cursor) (m : Reader α) (R : α → List Place → Prop) : Prop :=
  c.Ends → ∃ ps, R (m c).1 ps ∧ Fills ps c (m c).2

abbrev Lays {α : Type} (m : Reader α) (R : α → List Place → Prop) : Prop := ∀ c, LaysAt c m R

namespace LaysAt

open Reader

variable {α β : Type} {c : Cursor} {m m' : Reader α} {f : α → Reader β} {p : α → List Place}
  {R : β → List Place → Prop} {k k' : Kind} {kinds : List Kind}

theorem bind_of {P : α → List Place → Prop} (hm : LaysAt c m P)
    (hf : ∀ a ps, P a ps → Lays (f a) fun b qs ↦ R b (ps ++ qs)) : LaysAt c (m >>= f) R := by
  intro hc
  obtain ⟨ps, hP, hfills⟩ := hm hc
  obtain ⟨qs, hR, hfills'⟩ := hf _ ps hP _ (hfills.ends hc)
  exact ⟨ps ++ qs, hR, hfills.append hfills'⟩

theorem bind (hm : LaysAt c m fun a ps ↦ ps = p a) (hf : ∀ a, Lays (f a) fun b qs ↦ R b (p a ++ qs)) :
    LaysAt c (m >>= f) R :=
  hm.bind_of fun a _ hps ↦ hps ▸ hf a

theorem pure {b : β} (h : R b []) : LaysAt c (pure b) R := fun _ ↦ ⟨[], h, .nil c⟩

theorem kind {f : Kind → Reader β} (h : LaysAt c (f c.current.kind) R) : LaysAt c (kind >>= f) R := h

theorem get {f : Cursor → Reader β} (h : LaysAt c (f c) R) : LaysAt c (get >>= f) R := h

theorem advance (h : c.current.kind = k) (hk : k ∈ kinds) (hend : k ≠ .endOfFile) :
    LaysAt c advance fun t ps ↦ ps = [.token kinds t] := by
  obtain rfl := h
  intro hc
  obtain ⟨t, rest, -, hadvance⟩ := hc.advance_eq hend
  have hgives : Reader.advance c = (c.current, c.advance.2) := by
    rw [hadvance]
    exact hadvance
  refine ⟨_, rfl, ?_⟩
  rw [hgives]
  exact (Fill.kept hk hend).single

theorem advance_kind (h : c.current.kind = k) (hend : k ≠ .endOfFile) :
    LaysAt c Reader.advance fun t ps ↦ ps = [.token [k] t] :=
  advance h (List.mem_singleton_self k) hend

theorem take (hend : k ≠ .endOfFile) : LaysAt c (take k) fun t ps ↦ ps = [.token [k] t] := by
  by_cases h : c.current.kind = k
  · have htake : Reader.take k c = Reader.advance c := if_pos h
    unfold LaysAt
    rw [htake]
    exact advance_kind h hend
  · have htake : Reader.take k c =
        (.missing k c.current.start, { c with reports := c.fault k :: c.reports }) := if_neg h
    intro _
    rw [htake]
    exact ⟨_, rfl, (Fill.madeUp (List.mem_singleton_self k) hend).single⟩

theorem advance_two {f : Token → Token → Reader β} (h : c.current.kind = k) (h' : c.nextKind = k')
    (hend : k ≠ .endOfFile) (hend' : k' ≠ .endOfFile)
    (hf : ∀ t t', Lays (f t t') fun b qs ↦ R b (.token [k] t :: .token [k'] t' :: qs)) :
    LaysAt c (Reader.advance >>= fun t ↦ Reader.advance >>= f t) R := by
  intro hc
  obtain ⟨t, rest, hrest, hadvance⟩ := hc.advance_eq (h ▸ hend)
  have hnext : c.advance.2.current.kind = k' := by
    rw [hadvance, ← h', Cursor.nextKind, hrest]
    rfl
  obtain ⟨_, rfl, hfills⟩ := advance_kind h hend hc
  obtain ⟨ps, hR, hfills'⟩ := bind (R := fun b ps ↦ R b (.token [k] (Reader.advance c).1 :: ps))
    (advance_kind hnext hend') (hf (Reader.advance c).1) (hfills.ends hc)
  exact ⟨_, hR, hfills.append hfills'⟩

theorem mono {m : Reader β} {R' : β → List Place → Prop} (h : LaysAt c m R) (hR : ∀ b ps, R b ps → R' b ps) :
    LaysAt c m R' := by
  intro hc
  obtain ⟨ps, hps, hfills⟩ := h hc
  exact ⟨ps, hR _ _ hps, hfills⟩

theorem operand {m : Reader β} {assigns : Bool} (h : assigns = false)
    (hm : LaysAt c m fun b qs ↦ R b (.operand assigns :: qs)) : LaysAt c m R := by
  obtain rfl := h
  intro hc
  obtain ⟨ps, hR, hfills⟩ := hm hc
  exact ⟨_, hR, .cons .operand hfills⟩

theorem ite {P : Prop} [Decidable P] {m m' : Reader β} (h : P → LaysAt c m R) (h' : ¬ P → LaysAt c m' R) :
    LaysAt c (if P then m else m') R := by
  split
  · next hP => exact h hP
  · next hP => exact h' hP

end LaysAt

end SmallScript.Tree
