import SmallScript.Proofs.Token.Pieces
import SmallScript.Proofs.Tree.Reading

namespace SmallScript

theorem Decimal.toInt_of_int32? {cs : List Char} {n : Int32} (hcs : ∀ c ∈ cs, c.isDigit)
    (h : int32? cs = some n) : 0 ≤ n.toInt := by
  obtain ⟨z, hz, hn⟩ := Option.bind_eq_some_iff.mp h
  split at hn
  · next hfits =>
    obtain rfl := Option.some.inj hn
    have hnonneg : 0 ≤ z := by
      unfold integer? at hz
      split at hz
      · exact absurd (hcs _ List.mem_cons_self) (by decide)
      · exact absurd (hcs _ List.mem_cons_self) (by decide)
      · obtain ⟨_, hk, rfl⟩ := Option.map_eq_some_iff.mp hz
        obtain ⟨k, -, hk⟩ := Option.bind_eq_some_iff.mp hk
        cases hk
        exact Int.natCast_nonneg k
    rw [Int32.toInt_ofInt_of_le hfits.1 hfits.2]
    exact hnonneg
  · nomatch hn

theorem Quoted.isLineBreak_of_mem_value (cs : List Char) : ∀ c ∈ (read cs).value, isLineBreak c = false := by
  fun_induction read cs with
  | case1 => exact List.forall_mem_nil _
  | case2 => exact List.forall_mem_nil _
  | case3 rest q ih => exact List.forall_mem_cons.mpr ⟨by decide, ih⟩
  | case4 rest q ih => exact List.forall_mem_cons.mpr ⟨by decide, ih⟩
  | case5 => exact List.forall_mem_nil _
  | case6 c rest _ _ _ hc q ih => exact List.forall_mem_cons.mpr ⟨eq_false_of_ne_true hc, ih⟩

structure Token.Proper (t : Token) : Prop where
  name : t.kind = .identifier → IsName t.text
  value : ∀ v, t.value = some v → v.Plain

theorem Token.Proper.of_sign {t : Token} (h : t.kind ≠ .identifier) (h' : t.value = none) : t.Proper :=
  ⟨fun hk ↦ absurd hk h, fun v hv ↦ (Option.some_ne_none v (hv.symm.trans h')).elim⟩

theorem Lexeme.isName_ofWord {c : Char} {cs : List Char} (hc : isIdentifierStart c)
    (h : (ofWord (c :: cs)).kind = .identifier) : IsName (String.ofList (ofWord (c :: cs)).chars) := by
  have hchars : (ofWord (c :: cs)).chars = c :: cs.takeWhile isIdentifierPart :=
    List.takeWhile_cons_of_pos (isIdentifierPart_of_start hc)
  refine ⟨⟨⟨c, _, by rw [hchars, String.toList_ofList], hc⟩, ?_⟩, ?_⟩
  · rw [String.toList_ofList]
    exact List.all_eq_true.mp List.all_takeWhile
  · exact Keyword.find?_of_ofWord h

theorem ScanPoint.proper_next (p : ScanPoint) : p.next.1.token.Proper := by
  simp only [next]
  split
  · exact .of_sign Token.Kind.noConfusion rfl
  · next c rest _ =>
    simp only [Lexeme.read]
    split
    · exact .of_sign Token.Kind.noConfusion rfl
    · split
      · refine ⟨Token.Kind.noConfusion, fun v hv ↦ ?_⟩
        obtain rfl := Option.some.inj hv
        change ∀ c ∈ (String.ofList _).toList, isLineBreak c = false
        rw [String.toList_ofList]
        exact Quoted.isLineBreak_of_mem_value _
      · split
        · refine ⟨Token.Kind.noConfusion, fun v hv ↦ ?_⟩
          obtain rfl := Option.some.inj hv
          change 0 ≤ ((Decimal.int32? _).getD 0).toInt
          cases hn : Decimal.int32? ((c :: rest).takeWhile Char.isDigit) with
          | none => exact Int.le_refl _
          | some n => exact Decimal.toInt_of_int32? (List.all_eq_true.mp List.all_takeWhile) hn
        · split
          · next hc => exact ⟨Lexeme.isName_ofWord hc, fun v hv ↦ (Option.some_ne_none v hv.symm).elim⟩
          · exact .of_sign Token.Kind.noConfusion rfl

theorem ScanPoint.proper_scan (n : Nat) (p : ScanPoint) : ∀ t ∈ (scan n p).map (·.token), t.Proper := by
  induction n generalizing p with
  | zero => simpa [scan] using p.proper_next
  | succ n ih =>
    simp only [scan]
    split
    · simpa using p.proper_next
    · exact List.forall_mem_cons.mpr ⟨p.proper_next, ih _⟩

namespace Tree

mutual

def Expression.Spelt : Expression → Prop
  | .literal _ v => v.Plain
  | .name t => IsName t.text
  | .unary _ e | .group _ e _ => e.Spelt
  | .binary e _ e' => e.Spelt ∧ e'.Spelt
  | .assign t _ e => IsName t.text ∧ e.Spelt
  | .call t _ es _ => IsName t.text ∧ AllSpelt es

def AllSpelt : List Expression → Prop
  | [] => True
  | e :: es => e.Spelt ∧ AllSpelt es

end

mutual

def Statement.Spelt : Statement → Prop
  | .block _ inner _ => StatementsSpelt inner
  | .declare _ t _ _ e => IsName t.text ∧ e.Spelt
  | .ifThen _ e s | .whileLoop _ e s | .doLoop _ s _ e => e.Spelt ∧ s.Spelt
  | .ifElse _ e s _ s' => e.Spelt ∧ s.Spelt ∧ s'.Spelt
  | .forLoop _ t _ lower _ upper s => IsName t.text ∧ (lower.Spelt ∧ upper.Spelt) ∧ s.Spelt
  | .breakLoop _ | .continueLoop _ => True
  | .leave _ value => ∀ e ∈ value, e.Spelt
  | .expression e => e.Spelt

def StatementsSpelt : List Statement → Prop
  | [] => True
  | s :: rest => s.Spelt ∧ StatementsSpelt rest

end

theorem statementsSpelt_iff {l : List Statement} : StatementsSpelt l ↔ ∀ s ∈ l, s.Spelt := by
  induction l with
  | nil => simp [StatementsSpelt]
  | cons s rest ih => simp [StatementsSpelt, ih]

structure Function.Spelt (f : Function) : Prop where
  name : IsName f.identifier.text
  parameters : ∀ p ∈ f.parameters, IsName p.identifier.text
  body : StatementsSpelt f.body.statements

def Member.Spelt : Member → Prop
  | .function f => f.Spelt
  | .statement s => s.Spelt

def Source.Spelt (s : Source) : Prop := ∀ m ∈ s.members, m.Spelt

def Cursor.Proper (c : Cursor) : Prop := c.current.Proper ∧ ∀ t ∈ c.rest, t.Proper

theorem Cursor.Proper.advance {c : Cursor} (h : c.Proper) : c.advance.2.Proper := by
  obtain ⟨hc, hr⟩ := h
  unfold Cursor.advance
  split
  · exact ⟨hc, hr⟩
  · next t rest hrest =>
    rw [hrest] at hr
    exact List.forall_mem_cons.mp hr

abbrev ReadsSpelt {α : Type} (m : Reader α) (Q : α → Prop) : Prop :=
  Honest Cursor.reports Cursor.Proper m Q

namespace Reader

theorem advance_eq (c : Cursor) : ∃ c', advance c = (c.current, c') ∧ c'.reports = c.reports := by
  change ∃ c', c.advance = _ ∧ _
  unfold Cursor.advance
  split
  · exact ⟨c, rfl, rfl⟩
  · exact ⟨_, rfl, rfl⟩

theorem spelt_advance : ReadsSpelt advance Token.Proper where
  grows := reads_advance.grows
  sound c hc _ := by
    obtain ⟨c', hadvance, -⟩ := advance_eq c
    exact ⟨hc.advance, by rw [hadvance]; exact hc.1⟩

theorem spelt_kind : ReadsSpelt kind fun _ ↦ True := .of_log_eq (fun _ ↦ rfl) fun _ h ↦ ⟨h, trivial⟩

def SpeltAt {α : Type} (c : Cursor) (m : Reader α) (Q : α → Prop) : Prop :=
  (m c).2.reports = c.reports → (m c).2.Proper ∧ Q (m c).1

section SpeltAt

variable {α : Type} {Q : α → Prop} {c : Cursor}

theorem speltAt_advance {f : Token → Reader α} (h : ∀ t, IsName t.text → ReadsSpelt (f t) Q) (hc : c.Proper)
    (hk : c.current.kind = .identifier) : SpeltAt c (advance >>= f) Q := by
  intro hq
  obtain ⟨c', hadvance, hreports⟩ := advance_eq c
  have hc' : (advance c).2.Proper := hc.advance
  have hbind : (advance >>= f) c = f c.current c' := by
    change f (advance c).1 (advance c).2 = _
    rw [hadvance]
  rw [hadvance] at hc'
  rw [hbind] at hq ⊢
  exact (h c.current (hc.1.name hk)).sound c' hc' (hq.trans hreports.symm)

theorem speltAt_ite {p : Cursor → Prop} [DecidablePred p] {m m' : Reader α} (h : SpeltAt c m Q)
    (h' : SpeltAt c m' Q) : SpeltAt c (get >>= fun c ↦ if p c then m else m') Q := by
  change SpeltAt c (if p c then m else m') Q
  split
  · exact h
  · exact h'

/-- What an action does after a look at the kind in front, where that is no name and where it is one. -/
theorem spelt_bind_kind {f : Token.Kind → Reader α} (hgrows : Grows Cursor.reports (kind >>= f))
    (hother : ∀ k, k ≠ .identifier → ReadsSpelt (f k) Q)
    (hname : ∀ c, c.Proper → c.current.kind = .identifier → SpeltAt c (f .identifier) Q) :
    ReadsSpelt (kind >>= f) Q where
  grows := hgrows
  sound c hc hq := by
    by_cases hk : c.current.kind = .identifier
    · have hbind : (kind >>= f) c = f .identifier c := hk ▸ rfl
      rw [hbind] at hq ⊢
      exact hname c hc hk hq
    · exact (hother _ hk).sound c hc hq

end SpeltAt

theorem spelt_identifier : ReadsSpelt (take .identifier) fun t ↦ IsName t.text where
  grows := (reads_take _).grows
  sound c hc hq := by
    change (c.take .identifier).2.reports = c.reports at hq
    change (c.take .identifier).2.Proper ∧ IsName (c.take .identifier).1.text
    rw [Cursor.take] at hq ⊢
    split at hq
    · next hk =>
      rw [if_pos hk]
      obtain ⟨c', hadvance, -⟩ := advance_eq c
      have hfront : c.advance.1 = c.current := congrArg Prod.fst hadvance
      exact ⟨hc.advance, hfront ▸ hc.1.name hk⟩
    · exact absurd hq (List.cons_ne_self _ _)

theorem spelt_name : ReadsSpelt name Expression.Spelt := .bind spelt_identifier fun _ ↦ .pure id

theorem spelt_take (k : Token.Kind) : ReadsSpelt (take k) fun _ ↦ True where
  grows := (reads_take k).grows
  sound c hc _ := by
    refine ⟨?_, trivial⟩
    change (c.take k).2.Proper
    unfold Cursor.take
    split
    · exact hc.advance
    · exact hc

structure ExpressionsSpelt (n : Nat) : Prop where
  expression : ReadsSpelt (expression n) Expression.Spelt
  operators (level : Nat) : ReadsSpelt (operators n level) Expression.Spelt
  joined (level : Nat) (left : Expression) :
    ReadsSpelt (joined n level left) fun e ↦ left.Spelt → e.Spelt
  primary : ReadsSpelt (primary n) Expression.Spelt
  arguments : ReadsSpelt (arguments n) AllSpelt

theorem plain_getD {o : Option Value} {default : Value} (ho : ∀ v, o = some v → v.Plain) (h : default.Plain) :
    (o.getD default).Plain := by
  cases o with
  | none => exact h
  | some v => exact ho v rfl

theorem expressionsSpelt (n : Nat) : ExpressionsSpelt n := by
  induction n with
  | zero => exact ⟨spelt_name, fun _ ↦ spelt_name, fun _ _ ↦ .pure id, spelt_name, .pure trivial⟩
  | succ n ih =>
    constructor
    case expression =>
      refine spelt_bind_kind (expressionsWhole (n + 1)).expression.grows ?_ ?_
      · intro k hk
        refine .bind (.mono .get fun _ _ ↦ trivial) fun _ ↦ .ite (fun h ↦ absurd h.1 hk) fun _ ↦ ?_
        exact (ih.operators 0).mono fun _ h _ ↦ h
      · intro c hc hk
        refine speltAt_ite (speltAt_advance (fun t ht ↦ ?_) hc hk) ((ih.operators 0).sound c hc)
        exact .bind spelt_advance fun _ ↦ .bind ih.expression fun _ ↦ .pure fun h _ ↦ ⟨ht, h⟩
    case operators =>
      intro level
      refine .bind spelt_kind ?_
      intro k
      split
      · refine .ite (fun _ ↦ ?_) fun _ ↦ ?_
        · exact .bind spelt_advance fun sign ↦ .bind (ih.operators _) fun operand ↦
            (ih.joined level (.unary sign operand)).mono fun _ h ho _ _ ↦ h ho
        · exact .bind ih.primary fun left ↦ (ih.joined level left).mono fun _ h hl _ ↦ h hl
      · exact .bind ih.primary fun left ↦ (ih.joined level left).mono fun _ h hl _ ↦ h hl
    case joined =>
      intro level left
      refine .bind spelt_kind ?_
      intro k
      split
      · refine .ite (fun _ ↦ ?_) fun _ ↦ .pure fun _ ↦ id
        exact .bind spelt_advance fun sign ↦ .bind (ih.operators _) fun right ↦
          (ih.joined level (.binary left sign right)).mono fun _ h hr _ _ hl ↦ h ⟨hl, hr⟩
      · exact .pure fun _ ↦ id
    case primary =>
      refine spelt_bind_kind (expressionsWhole (n + 1)).primary.grows ?_ ?_
      · intro k hk
        split
        · exact .bind spelt_advance fun _ ↦ .bind ih.expression fun _ ↦ .bind (spelt_take _) fun _ ↦
            .pure fun _ h _ ↦ h
        · exact .bind spelt_advance fun _ ↦ .pure fun _ ↦ trivial
        · exact .bind spelt_advance fun _ ↦ .pure fun _ ↦ trivial
        · exact .bind spelt_advance fun t ↦ .pure fun ht ↦ plain_getD ht.value (Int.le_refl 0)
        · exact .bind spelt_advance fun t ↦ .pure fun ht ↦ plain_getD ht.value nofun
        · exact absurd rfl hk
        · exact spelt_name
      · intro c hc hk
        refine speltAt_ite (speltAt_advance (fun t ht ↦ ?_) hc hk) (spelt_name.sound c hc)
        exact .bind spelt_advance fun _ ↦ .bind ih.arguments fun _ ↦ .bind (spelt_take _) fun _ ↦
          .pure fun _ h _ ↦ ⟨ht, h⟩
    case arguments =>
      refine .bind spelt_kind ?_
      intro k
      split
      · exact .pure fun _ ↦ trivial
      · exact .pure fun _ ↦ trivial
      · refine .bind ih.expression fun _ ↦ .bind spelt_kind fun _ ↦ .ite (fun _ ↦ ?_) fun _ ↦ .pure ?_
        · exact .bind spelt_advance fun _ ↦ .bind ih.arguments fun _ ↦ .pure fun h _ _ h' _ ↦ ⟨h', h⟩
        · exact fun _ h _ ↦ ⟨h, trivial⟩

theorem spelt_wholeExpression : ReadsSpelt wholeExpression Expression.Spelt :=
  .bind (.mono .get fun _ _ ↦ trivial) fun _ ↦ (expressionsSpelt _).expression.mono fun _ h _ ↦ h

theorem spelt_get : ReadsSpelt get fun _ ↦ True := .mono .get fun _ _ ↦ trivial

theorem spelt_typeClause : ReadsSpelt typeClause fun _ ↦ True :=
  .bind (spelt_take _) fun _ ↦ .bind (spelt_take _) fun _ ↦ .pure fun _ _ ↦ trivial

theorem spelt_typeClause? : ReadsSpelt typeClause? fun _ ↦ True :=
  .bind spelt_kind fun _ ↦ .ite
    (fun _ ↦ .bind spelt_typeClause fun _ ↦ .pure fun _ _ ↦ trivial) fun _ ↦ .pure fun _ ↦ trivial

theorem spelt_declaration : ReadsSpelt declaration Statement.Spelt :=
  .bind spelt_advance fun _ ↦ .bind spelt_identifier fun _ ↦ .bind spelt_typeClause? fun _ ↦
    .bind (spelt_take _) fun _ ↦ .bind spelt_wholeExpression fun _ ↦ .pure fun he _ _ ht _ ↦ ⟨ht, he⟩

theorem spelt_leaving : ReadsSpelt leaving Statement.Spelt := by
  refine .bind spelt_advance fun _ ↦ .bind spelt_get fun _ ↦ .ite (fun _ ↦ .pure fun _ _ ↦ nofun) fun _ ↦ ?_
  refine .bind spelt_wholeExpression fun _ ↦ .pure ?_
  rintro he - - _ ⟨⟩
  exact he

theorem spelt_progress (before : Nat) : ReadsSpelt (progress before) fun _ ↦ True :=
  .bind spelt_get fun _ ↦ .ite (fun _ ↦ .bind spelt_advance fun _ ↦ .pure fun _ _ ↦ trivial)
    fun _ ↦ .pure fun _ ↦ trivial

structure StatementsSpeltTo (n : Nat) : Prop where
  statement : ReadsSpelt (statement n) Statement.Spelt
  statements : ReadsSpelt (statements n) StatementsSpelt

theorem statementsSpeltTo (n : Nat) : StatementsSpeltTo n := by
  induction n with
  | zero => exact ⟨.bind spelt_wholeExpression fun _ ↦ .pure id, .pure trivial⟩
  | succ n ih =>
    constructor
    case statement =>
      refine .bind spelt_kind ?_
      intro k
      split
      · exact .bind spelt_advance fun _ ↦ .bind ih.statements fun _ ↦ .bind (spelt_take _) fun _ ↦
          .pure fun _ hs _ _ ↦ hs
      · exact spelt_declaration.mono fun _ h _ ↦ h
      · exact spelt_declaration.mono fun _ h _ ↦ h
      · refine .bind spelt_advance fun _ ↦ .bind spelt_wholeExpression fun _ ↦
          .bind ih.statement fun _ ↦ .bind spelt_kind fun _ ↦ .ite (fun _ ↦ ?_) fun _ ↦ .pure ?_
        · exact .bind spelt_advance fun _ ↦ .bind ih.statement fun _ ↦ .pure fun hs' _ _ hs he _ _ ↦ ⟨he, hs, hs'⟩
        · exact fun _ hs he _ _ ↦ ⟨he, hs⟩
      · exact .bind spelt_advance fun _ ↦ .bind spelt_wholeExpression fun _ ↦
          .bind ih.statement fun _ ↦ .pure fun hs he _ _ ↦ ⟨he, hs⟩
      · exact .bind spelt_advance fun _ ↦ .bind ih.statement fun _ ↦ .bind (spelt_take _) fun _ ↦
          .bind spelt_wholeExpression fun _ ↦ .pure fun he _ hs _ _ ↦ ⟨he, hs⟩
      · exact .bind spelt_advance fun _ ↦ .bind spelt_identifier fun _ ↦ .bind (spelt_take _) fun _ ↦
          .bind spelt_wholeExpression fun _ ↦ .bind (spelt_take _) fun _ ↦
          .bind spelt_wholeExpression fun _ ↦ .bind ih.statement fun _ ↦
          .pure fun hs hu _ hl _ ht _ _ ↦ ⟨ht, ⟨hl, hu⟩, hs⟩
      · exact .bind spelt_advance fun _ ↦ .pure fun _ _ ↦ trivial
      · exact .bind spelt_advance fun _ ↦ .pure fun _ _ ↦ trivial
      · exact spelt_leaving.mono fun _ h _ ↦ h
      · exact .bind spelt_wholeExpression fun _ ↦ .pure fun he _ ↦ he
    case statements =>
      refine .bind spelt_kind ?_
      intro k
      split
      · exact .pure fun _ ↦ trivial
      · exact .pure fun _ ↦ trivial
      · exact .bind spelt_get fun _ ↦ .bind ih.statement fun _ ↦ .bind (spelt_progress _) fun _ ↦
          .bind ih.statements fun _ ↦ .pure fun hrest _ hs _ _ ↦ ⟨hs, hrest⟩

theorem spelt_block : ReadsSpelt block fun b ↦ StatementsSpelt b.statements :=
  .bind (spelt_take _) fun _ ↦ .bind spelt_get fun _ ↦ .bind (statementsSpeltTo _).statements fun _ ↦
    .bind (spelt_take _) fun _ ↦ .pure fun _ hs _ _ ↦ hs

theorem spelt_parameters (n : Nat) :
    ReadsSpelt (parameters n) fun ps ↦ ∀ p ∈ ps, IsName p.identifier.text := by
  induction n with
  | zero => exact .pure (List.forall_mem_nil _)
  | succ n ih =>
    refine .bind spelt_kind ?_
    intro k
    split
    · exact .pure fun _ ↦ List.forall_mem_nil _
    · exact .pure fun _ ↦ List.forall_mem_nil _
    · refine .bind spelt_identifier fun _ ↦ .bind spelt_typeClause fun _ ↦ .bind spelt_kind fun _ ↦
        .ite (fun _ ↦ ?_) fun _ ↦ .pure fun _ _ ht _ ↦ List.forall_mem_singleton.mpr ht
      exact .bind spelt_advance fun _ ↦ .bind ih fun _ ↦ .pure fun hps _ _ _ ht _ ↦ List.forall_mem_cons.mpr ⟨ht, hps⟩

theorem spelt_function : ReadsSpelt function Function.Spelt :=
  .bind spelt_advance fun _ ↦ .bind spelt_identifier fun _ ↦ .bind (spelt_take _) fun _ ↦
    .bind spelt_get fun _ ↦ .bind (spelt_parameters _) fun _ ↦ .bind (spelt_take _) fun _ ↦
    .bind spelt_typeClause? fun _ ↦ .bind spelt_block fun _ ↦ .pure fun hbody _ _ hps _ _ ht _ ↦ ⟨ht, hps, hbody⟩

theorem spelt_wholeStatement : ReadsSpelt wholeStatement Statement.Spelt :=
  .bind spelt_get fun _ ↦ (statementsSpeltTo _).statement.mono fun _ h _ ↦ h

theorem spelt_member : ReadsSpelt member Member.Spelt :=
  .bind spelt_kind fun _ ↦ .ite (fun _ ↦ .bind spelt_function fun _ ↦ .pure fun h _ ↦ h)
    fun _ ↦ .bind spelt_wholeStatement fun _ ↦ .pure fun h _ ↦ h

theorem spelt_members (n : Nat) : ReadsSpelt (members n) fun ms ↦ ∀ m ∈ ms, m.Spelt := by
  induction n with
  | zero => exact .pure (List.forall_mem_nil _)
  | succ n ih =>
    refine .bind spelt_kind fun _ ↦ .ite (fun _ ↦ .pure fun _ ↦ List.forall_mem_nil _) fun _ ↦ ?_
    exact .bind spelt_get fun _ ↦ .bind spelt_member fun _ ↦ .bind (spelt_progress _) fun _ ↦
      .bind ih fun _ ↦ .pure fun hrest _ hm _ _ ↦ List.forall_mem_cons.mpr ⟨hm, hrest⟩

theorem spelt_source : ReadsSpelt source Source.Spelt :=
  .bind spelt_get fun _ ↦ .bind (spelt_members _) fun _ ↦ .bind (spelt_take _) fun _ ↦ .pure fun _ hms _ ↦ hms

end Reader

theorem Cursor.proper_ofTokens {ts : List Token} (h : ∀ t ∈ ts, t.Proper) : (Cursor.ofTokens ts).Proper := by
  cases ts with
  | nil => exact ⟨⟨nofun, nofun⟩, fun _ ht ↦ absurd ht List.not_mem_nil⟩
  | cons t rest => exact List.forall_mem_cons.mp h

/-- In a text about which nothing is reported, names are identifiers, and literals can be written. -/
theorem spelt_ofText {text : String} (h : (ofText text).reports = []) : (ofText text).source.Spelt := by
  have hproper : ∀ t ∈ ((scan text).map (·.token)).filter (·.kind != .bad), t.Proper :=
    fun t ht ↦ ScanPoint.proper_scan _ _ t (List.mem_filter.mp ht).1
  simp only [reports_ofText, Source.ofTokens_eq, List.append_eq_nil_iff, List.reverse_eq_nil_iff] at h
  simp only [source_ofText, Source.ofTokens_eq]
  refine (Reader.spelt_source.sound _ (Cursor.proper_ofTokens hproper) (h.2.trans ?_)).2
  unfold Cursor.ofTokens
  split <;> rfl

end Tree

end SmallScript
