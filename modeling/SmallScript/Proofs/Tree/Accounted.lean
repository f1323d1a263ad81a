import SmallScript.Proofs.Token.Tiling
import SmallScript.Proofs.Tree.Fills
import SmallScript.Proofs.Tree.Reading

namespace SmallScript

open Token (Kind)

theorem Lexeme.fault_of_bad {c : Char} {rest : List Char} (h : (read c rest).kind = .bad) :
    (read c rest).fault = some (.badCharacter c) := by
  unfold read at h ⊢
  split at h
  · nomatch h
  · split at h
    · nomatch h
    · split at h
      · nomatch h
      · split at h
        · unfold ofWord at h
          dsimp only at h
          split at h <;> nomatch h
        · next hquote hdigit hstart => simp only [hquote, hdigit, hstart, if_false, Bool.false_eq_true]

namespace ScanPoint

theorem report_of_bad {p : ScanPoint} (h : p.next.1.token.kind = .bad) :
    ∃ c, p.next.1.report = some ⟨p.next.1.token.span, .badCharacter c⟩ := by
  unfold next at h ⊢
  dsimp only at h ⊢
  split at h
  · nomatch h
  · next c rest _ =>
    refine ⟨c, ?_⟩
    dsimp only at h ⊢
    rw [Lexeme.fault_of_bad h]
    rfl

theorem exists_report_of_bad (n : Nat) (p : ScanPoint) : ∀ s ∈ scan n p, s.token.kind = .bad →
    ∃ c, s.report = some ⟨s.token.span, .badCharacter c⟩ := by
  induction n generalizing p with
  | zero => simpa [scan] using report_of_bad
  | succ n ih =>
    simp only [scan]
    split
    · simpa using report_of_bad
    · exact List.forall_mem_cons.mpr ⟨report_of_bad, ih _⟩

theorem endsOnce_scan {n : Nat} {p : ScanPoint} (hn : p.unread.length ≤ n) :
    Tree.EndsOnce ((scan n p).map (·.token)) := by
  induction n generalizing p with
  | zero => exact .last (kind_token_of_unread (List.length_eq_zero_iff.mp (Nat.le_zero.mp hn)))
  | succ n ih =>
    simp only [scan]
    split
    · next hend => exact .last hend
    · next hgo =>
      have hlt := length_unread_next (p := p) hgo
      exact .cons hgo (ih (by omega))

end ScanPoint

namespace Tree

theorem EndsOnce.filter {ts : List Token} (h : EndsOnce ts) : EndsOnce (ts.filter (·.kind != .bad)) := by
  induction h with
  | last h =>
    rw [List.filter_cons_of_pos (by simp [h])]
    exact .last h
  | @cons t ts h _ ih =>
    by_cases hbad : t.kind = .bad
    · rwa [List.filter_cons_of_neg (by simp [hbad])]
    · rw [List.filter_cons_of_pos (by simpa using hbad)]
      exact .cons h ih

/-- What happens to a token of a text, or for want of one. -/
inductive Event
  | kept (t : Token)
  | madeUp (t : Token) (r : Report)
  | separator (t : Token)
  | skipped (t : Token)

namespace Event

/-- The token of the text that an event is about. -/
def scanned? : Event → Option Token
  | kept t | separator t | skipped t => some t
  | madeUp _ _ => none

/-- The token that an event gives the tree. -/
def inTree? : Event → Option Token
  | kept t | madeUp t _ => some t
  | separator _ | skipped _ => none

def report? : Event → Option Report
  | madeUp _ r => some r
  | kept _ | separator _ | skipped _ => none

def separator? : Event → Option Token
  | separator t => some t
  | kept _ | madeUp _ _ | skipped _ => none

/-- What holds of an event where `rs` are the reports about the text. A token that is made up or skipped is
reported: the report on the one names its kind, the one on the other lies at its span. -/
def Lawful (rs : List Report) : Event → Prop
  | kept t => t.isMissing = false
  | madeUp t r => t.isMissing ∧ r.span.start = t.start ∧ ∃ found, r.cause = .unexpectedToken found t.kind
  | separator t => t.kind = .mark .comma
  | skipped t => ∃ wanted, ⟨t.span, .unexpectedToken t.kind wanted⟩ ∈ rs

end Event

/-- Events that come at the places of a tree, in their order. -/
inductive Laid : List Place → List Event → Prop
  | nil : Laid [] []
  | kept {kinds : List Kind} {t : Token} {ps : List Place} {es : List Event} (h : t.kind ∈ kinds)
      (hs : Laid ps es) : Laid (.token kinds t :: ps) (.kept t :: es)
  | madeUp {kinds : List Kind} {t : Token} {r : Report} {ps : List Place} {es : List Event} (h : t.kind ∈ kinds)
      (hs : Laid ps es) : Laid (.token kinds t :: ps) (.madeUp t r :: es)
  | separator {between : Bool} {t : Token} {ps : List Place} {es : List Event} (hs : Laid ps es) :
    Laid (.comma between :: ps) (.separator t :: es)
  | noSeparator {ps : List Place} {es : List Event} (hs : Laid ps es) : Laid (.comma false :: ps) es
  | skipped {t : Token} {ps : List Place} {es : List Event} (hs : Laid ps es) :
    Laid (.gap :: ps) (.skipped t :: es)
  | noSkip {ps : List Place} {es : List Event} (hs : Laid ps es) : Laid (.gap :: ps) es
  | bare {ps : List Place} {es : List Event} (hs : Laid ps es) : Laid (.bare :: ps) es
  | operand {ps : List Place} {es : List Event} (hs : Laid ps es) : Laid (.operand false :: ps) es

namespace Laid

variable {ps qs : List Place} {es fs : List Event}

theorem append (h : Laid ps es) (h' : Laid qs fs) : Laid (ps ++ qs) (es ++ fs) := by
  induction h with
  | nil => exact h'
  | kept h _ ih => exact .kept h ih
  | madeUp h _ ih => exact .madeUp h ih
  | separator _ ih => exact .separator ih
  | noSeparator _ ih => exact .noSeparator ih
  | skipped _ ih => exact .skipped ih
  | noSkip _ ih => exact .noSkip ih
  | bare _ ih => exact .bare ih
  | operand _ ih => exact .operand ih

theorem inTree (h : Laid ps es) : es.filterMap Event.inTree? = ps.filterMap Place.token? := by
  induction h with
  | nil => rfl
  | kept _ _ ih | madeUp _ _ ih => exact congrArg (_ :: ·) ih
  | separator _ ih | noSeparator _ ih | skipped _ ih | noSkip _ ih | bare _ ih | operand _ ih => exact ih

end Laid

theorem Event.Lawful.mono {rs rs' : List Report} {e : Event} (h : e.Lawful rs) (hsub : rs ⊆ rs') :
    e.Lawful rs' := by
  cases e with
  | skipped t => exact h.imp fun _ hr ↦ hsub hr
  | kept | madeUp | separator => exact h

/-- Some events take a reader from one cursor to the next: the tokens they are about are those that are taken,
and the reports they come with are those that are added. -/
structure Moves (es : List Event) (c c' : Cursor) : Prop where
  scanned : c.tokens = es.filterMap Event.scanned? ++ c'.tokens
  reports : c'.reports = (es.filterMap Event.report?).reverse ++ c.reports
  lawful : ∀ e ∈ es, e.Lawful c'.reports

namespace Moves

variable {es fs : List Event} {c c' c'' : Cursor}

theorem nil (c : Cursor) : Moves [] c c := ⟨rfl, rfl, fun _ h ↦ absurd h List.not_mem_nil⟩

theorem append (h : Moves es c c') (h' : Moves fs c' c'') : Moves (es ++ fs) c c'' where
  scanned := by rw [h.scanned, h'.scanned, List.filterMap_append, List.append_assoc]
  reports := by rw [h'.reports, h.reports, List.filterMap_append, List.reverse_append, List.append_assoc]
  lawful := by
    refine List.forall_mem_append.mpr ⟨fun e he ↦ (h.lawful e he).mono ?_, h'.lawful⟩
    rw [h'.reports]
    exact List.subset_append_right _ _

theorem advance {e : Event} (hc : c.Ends) (hend : c.current.kind ≠ .endOfFile)
    (hscanned : e.scanned? = some c.current) (hreport : e.report? = none) (he : e.Lawful c.reports) :
    Moves [e] c c.advance.2 where
  scanned := by
    rw [List.filterMap_cons_some hscanned]
    exact (hc.advance hend).2.2
  reports := by
    rw [List.filterMap_cons_none hreport]
    exact c.reports_advance
  lawful := by
    rw [c.reports_advance]
    exact List.forall_mem_singleton.mpr he

end Moves

section Fills

variable {p : Place} {ps : List Place} {c c' : Cursor}

theorem Fill.exists_events (h : Fill p c c') (hc : c.Ends) (hwhole : Whole c.tokens) :
    ∃ es, Laid [p] es ∧ Moves es c c' := by
  cases h with
  | kept h hend =>
    exact ⟨_, .kept h .nil, .advance hc hend rfl rfl (hwhole _ List.mem_cons_self)⟩
  | @madeUp _ k _ h hend =>
    have hlawful : Event.Lawful (c.fault k :: c.reports) (.madeUp (.missing k c.current.start) (c.fault k)) :=
      ⟨Token.isMissing_missing hend _, rfl, _, rfl⟩
    exact ⟨_, .madeUp h .nil, rfl, rfl, List.forall_mem_singleton.mpr hlawful⟩
  | comma h => exact ⟨_, .separator .nil, .advance hc (h ▸ nofun) rfl rfl h⟩
  | noComma => exact ⟨[], .noSeparator .nil, .nil c⟩
  | skipped h hend => exact ⟨_, .skipped .nil, .advance hc hend rfl rfl ⟨_, h⟩⟩
  | noSkip => exact ⟨[], .noSkip .nil, .nil c⟩
  | bare => exact ⟨[], .bare .nil, .nil c⟩
  | operand => exact ⟨[], .operand .nil, .nil c⟩

theorem Fills.exists_events (h : Fills ps c c') (hc : c.Ends) (hwhole : Whole c.tokens) :
    ∃ es, Laid ps es ∧ Moves es c c' := by
  induction h with
  | nil c => exact ⟨[], .nil, .nil c⟩
  | cons h _ ih =>
    obtain ⟨es, hlaid, hmoves⟩ := h.exists_events hc hwhole
    rw [hmoves.scanned, Whole.append_iff] at hwhole
    obtain ⟨fs, hlaid', hmoves'⟩ := ih (h.ends hc) hwhole.2
    exact ⟨es ++ fs, hlaid.append hlaid', hmoves.append hmoves'⟩

end Fills

/-- The tokens of a text that its tree is read from. -/
def goodTokens (text : String) : List Token := ((scan text).map (·.token)).filter (·.kind != .bad)

theorem endsOnce_goodTokens (text : String) : EndsOnce (goodTokens text) :=
  (ScanPoint.endsOnce_scan (p := ⟨0, text.toList⟩) (Nat.le_refl _)).filter

/-- What becomes of the tokens of a text: each event is about one of them or gives the tree a token that it
lacks, and tokens and events are in the same order. -/
structure Accounted (text : String) (es : List Event) : Prop where
  scanned : goodTokens text = es.filterMap Event.scanned?
  bad : ∀ s ∈ scan text, s.token.kind = .bad →
    ∃ r ∈ (ofText text).reports, s.report = some r ∧ r.span = s.token.span
  tree : (ofText text).source.tokens = es.filterMap Event.inTree?
  laid : Laid (ofText text).source.places es
  reports : (ofText text).reports = (scan text).filterMap (·.report) ++ es.filterMap Event.report?
  lawful : ∀ e ∈ es, e.Lawful (ofText text).reports
  inOrder : ((ofText text).source.tokens.filter fun t ↦ !t.isMissing).Sublist ((scan text).map (·.token))
  whole : (ofText text).reports = [] →
    ((scan text).map (·.token)).Perm ((ofText text).source.tokens ++ es.filterMap Event.separator?)

section Events

variable {es : List Event} {rs : List Report}

theorem sublist_of_lawful (h : ∀ e ∈ es, e.Lawful rs) :
    ((es.filterMap Event.inTree?).filter fun t ↦ !t.isMissing).Sublist (es.filterMap Event.scanned?) := by
  induction es with
  | nil => exact List.nil_sublist _
  | cons e es ih =>
    obtain ⟨he, hes⟩ := List.forall_mem_cons.mp h
    have ih := ih hes
    cases e with
    | kept t =>
      have hthere : t.isMissing = false := he
      rw [List.filterMap_cons_some (f := Event.inTree?) rfl, List.filterMap_cons_some (f := Event.scanned?) rfl,
        List.filter_cons_of_pos (by rw [hthere]; rfl)]
      exact ih.cons_cons t
    | madeUp t r =>
      have hmissing : t.isMissing := he.1
      rw [List.filterMap_cons_some (f := Event.inTree?) rfl, List.filterMap_cons_none (f := Event.scanned?) rfl,
        List.filter_cons_of_neg (by rw [hmissing]; decide)]
      exact ih
    | separator t | skipped t => exact ih.cons t

theorem perm_of_lawful (h : ∀ e ∈ es, e.Lawful []) (hreports : es.filterMap Event.report? = []) :
    (es.filterMap Event.scanned?).Perm (es.filterMap Event.inTree? ++ es.filterMap Event.separator?) := by
  induction es with
  | nil => exact .nil
  | cons e es ih =>
    obtain ⟨he, hes⟩ := List.forall_mem_cons.mp h
    cases e with
    | kept t => exact (ih hes hreports).cons t
    | madeUp => nomatch hreports
    | separator t => exact ((ih hes hreports).cons t).trans List.perm_middle.symm
    | skipped t =>
      obtain ⟨_, hr⟩ := he
      nomatch hr

end Events

theorem Cursor.tokens_ofTokens {ts : List Token} (h : ts ≠ []) : (Cursor.ofTokens ts).tokens = ts := by
  obtain ⟨t, ts, rfl⟩ := List.exists_cons_of_ne_nil h
  rfl

theorem Cursor.reports_ofTokens (ts : List Token) : (Cursor.ofTokens ts).reports = [] := by
  cases ts <;> rfl

theorem EndsOnce.ne_nil {ts : List Token} (h : EndsOnce ts) : ts ≠ [] := by
  cases h <;> exact List.cons_ne_nil _ _

theorem EndsOnce.eq_singleton {t : Token} {ts : List Token} (h : EndsOnce (t :: ts)) (ht : t.kind = .endOfFile) :
    ts = [] := by
  cases h with
  | last => rfl
  | cons h _ => exact absurd ht h

theorem source_goodTokens (text : String) :
    (ofText text).source = (Reader.source (.ofTokens (goodTokens text))).1 := by
  rw [source_ofText, Source.ofTokens_eq, ← goodTokens]

theorem reports_goodTokens (text : String) : (ofText text).reports =
    (scan text).filterMap (·.report) ++ (Reader.source (.ofTokens (goodTokens text))).2.reports.reverse := by
  rw [reports_ofText, Source.ofTokens_eq, ← goodTokens]

theorem goodTokens_of_scan {text : String} (h : (scan text).filterMap (·.report) = []) :
    goodTokens text = (scan text).map (·.token) := by
  refine List.filter_eq_self.mpr fun t ht ↦ bne_iff_ne.mpr fun hbad ↦ ?_
  obtain ⟨s, hs, rfl⟩ := List.mem_map.mp ht
  obtain ⟨c, hreport⟩ := ScanPoint.exists_report_of_bad _ _ s hs hbad
  have hmem := List.mem_filterMap.mpr ⟨s, hs, hreport⟩
  rw [h] at hmem
  nomatch hmem

theorem goodTokens_of_reports {text : String} (h : (ofText text).reports = []) :
    goodTokens text = (scan text).map (·.token) := by
  rw [reports_goodTokens] at h
  exact goodTokens_of_scan (List.append_eq_nil_iff.mp h).1

theorem tokens_goodTokens (text : String) : (Cursor.ofTokens (goodTokens text)).tokens = goodTokens text :=
  Cursor.tokens_ofTokens (endsOnce_goodTokens text).ne_nil

theorem ends_goodTokens (text : String) : (Cursor.ofTokens (goodTokens text)).Ends := by
  rw [Cursor.Ends, tokens_goodTokens]
  exact endsOnce_goodTokens text

theorem exists_fills (text : String) :
    ∃ d, Fills (memberPlaces (ofText text).source.members) (.ofTokens (goodTokens text)) d ∧
      d.tokens = [(ofText text).source.finish] ∧ (ofText text).source.finish.kind = .endOfFile ∧
      (ofText text).reports = (scan text).filterMap (·.report) ++ d.reports.reverse := by
  obtain ⟨d, hfills, hend, hfinish, hreports⟩ := Reader.source_fills (ends_goodTokens text)
  have hlast : d.rest = [] := (hfills.ends (ends_goodTokens text)).eq_singleton hend
  rw [source_goodTokens, reports_goodTokens]
  refine ⟨d, hfills, ?_, hfinish.symm ▸ hend, by rw [hreports]⟩
  rw [Cursor.tokens, hlast, hfinish]

theorem exists_moves (text : String) : ∃ es, Laid (ofText text).source.places es ∧
    goodTokens text = es.filterMap Event.scanned? ∧
    (ofText text).reports = (scan text).filterMap (·.report) ++ es.filterMap Event.report? ∧
    ∀ e ∈ es, e.Lawful (ofText text).reports := by
  have hwhole : Whole (Cursor.ofTokens (goodTokens text)).tokens := by
    rw [tokens_goodTokens]
    exact fun t ht ↦ whole_scan _ _ t (List.mem_filter.mp ht).1
  obtain ⟨d, hfills, hlast, hkind, hreports⟩ := exists_fills text
  -- The end of the text is taken without being left behind, so its event is added last.
  obtain ⟨es, hlaid, hmoves⟩ := hfills.exists_events (ends_goodTokens text) hwhole
  refine ⟨es ++ [.kept (ofText text).source.finish], hlaid.append (.kept (by simp [hkind]) .nil), ?_, ?_,
    List.forall_mem_append.mpr ⟨fun e he ↦ (hmoves.lawful e he).mono ?_, List.forall_mem_singleton.mpr ?_⟩⟩
  · rw [← tokens_goodTokens, hmoves.scanned, hlast, List.filterMap_append]
    rfl
  · rw [hreports, hmoves.reports, Cursor.reports_ofTokens, List.append_nil, List.reverse_reverse,
      List.filterMap_append]
    exact congrArg _ (List.append_nil _).symm
  · rw [hreports]
    exact fun r hr ↦ List.mem_append_right _ (List.mem_reverse.mpr hr)
  · change Token.isMissing _ = false
    simp [Token.isMissing, hkind]

/-- Nothing is dropped silently. -/
theorem accounted (text : String) : ∃ es, Accounted text es := by
  obtain ⟨es, hlaid, hscanned, hreports, hlawful⟩ := exists_moves text
  have htree : (ofText text).source.tokens = es.filterMap Event.inTree? := by
    rw [hlaid.inTree, Source.tokens_places]
  refine ⟨es, hscanned, fun s hs hbad ↦ ?_, htree, hlaid, hreports, hlawful, ?_, fun hnone ↦ ?_⟩
  · obtain ⟨c, hreport⟩ := ScanPoint.exists_report_of_bad _ _ s hs hbad
    exact ⟨_, List.mem_append_left _ (List.mem_filterMap.mpr ⟨s, hs, hreport⟩), hreport, rfl⟩
  · rw [htree]
    refine (sublist_of_lawful hlawful).trans ?_
    rw [← hscanned]
    exact List.filter_sublist
  · rw [hnone] at hlawful hreports
    rw [← goodTokens_of_reports hnone, hscanned, htree]
    exact perm_of_lawful hlawful (List.append_eq_nil_iff.mp hreports.symm).2

end Tree

end SmallScript
