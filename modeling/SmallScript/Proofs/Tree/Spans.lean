import SmallScript.Proofs.Tree.Accounted
import SmallScript.Proofs.Tree.Nodes

namespace SmallScript

namespace Span

/-- The first of two spans lies in the second one. -/
def IsIn (s s' : Span) : Prop := s'.start ≤ s.start ∧ s.stop ≤ s'.stop

/-- The first of two spans ends before the second one starts. -/
def Before (s s' : Span) : Prop := s.stop ≤ s'.start

theorem start_le_stop (s : Span) : s.start ≤ s.stop := Nat.le_add_right _ _

variable {s s' : Span}

theorem start_union_of_before (h : s.Before s') : (s.union s').start = s.start := by
  have hle := s.start_le_stop
  rw [start_union, Nat.min_eq_left]
  exact Nat.le_trans hle h

theorem stop_union_of_before (h : s.Before s') : (s.union s').stop = s'.stop := by
  have hle := s'.start_le_stop
  rw [stop_union, Nat.max_eq_right]
  exact Nat.le_trans h hle

end Span

namespace Tree

def InOrder (ts : List Token) : Prop := ts.Pairwise fun t u ↦ t.span.Before u.span

structure Reaches (s : Span) (ts : List Token) : Prop where
  first : ∃ t ∈ ts, s.start = t.span.start
  last : ∃ t ∈ ts, s.stop = t.span.stop
  all : ∀ t ∈ ts, t.span.IsIn s

namespace Reaches

variable {s s' : Span} {ts us mid : List Token}

theorem single (t : Token) : Reaches t.span [t] :=
  ⟨⟨t, List.mem_singleton_self t, rfl⟩, ⟨t, List.mem_singleton_self t, rfl⟩,
    List.forall_mem_singleton.mpr ⟨Nat.le_refl _, Nat.le_refl _⟩⟩

theorem before (hs : Reaches s ts) (hs' : Reaches s' us) (h : ∀ t ∈ ts, ∀ u ∈ us, t.span.Before u.span) :
    s.Before s' := by
  obtain ⟨t, ht, hstop⟩ := hs.last
  obtain ⟨u, hu, hstart⟩ := hs'.first
  have hle := h t ht u hu
  rwa [Span.Before, hstop, hstart]

theorem union (hs : Reaches s ts) (hs' : Reaches s' us) (h : InOrder (ts ++ (mid ++ us))) :
    Reaches (s.union s') (ts ++ (mid ++ us)) := by
  obtain ⟨-, hrest, hcross⟩ := List.pairwise_append.mp h
  obtain ⟨-, -, hcross'⟩ := List.pairwise_append.mp hrest
  have hbefore := hs.before hs' fun t ht u hu ↦ hcross t ht u (List.mem_append_right mid hu)
  obtain ⟨t, ht, hstart⟩ := hs.first
  obtain ⟨u, hu, hstop⟩ := hs'.last
  have hall : ∀ v ∈ ts ++ (mid ++ us), s.start ≤ v.span.start ∧ v.span.stop ≤ s'.stop := by
    have ht' := t.span.start_le_stop
    have hu' := u.span.start_le_stop
    refine List.forall_mem_append.mpr ⟨fun v hv ↦ ⟨(hs.all v hv).1, ?_⟩,
      List.forall_mem_append.mpr ⟨fun v hv ↦ ⟨?_, ?_⟩, fun v hv ↦ ⟨?_, (hs'.all v hv).2⟩⟩⟩
    · have hle : v.span.stop ≤ u.span.start := hcross v hv u (List.mem_append_right mid hu)
      omega
    · have hle : t.span.stop ≤ v.span.start := hcross t ht v (List.mem_append_left us hv)
      omega
    · have hle : v.span.stop ≤ u.span.start := hcross' v hv u hu
      omega
    · have hle : t.span.stop ≤ v.span.start := hcross t ht v (List.mem_append_right mid hv)
      omega
  refine ⟨⟨t, List.mem_append_left _ ht, ?_⟩, ⟨u, List.mem_append_right ts (List.mem_append_right mid hu), ?_⟩,
    fun v hv ↦ ?_⟩
  · rw [Span.start_union_of_before hbefore, hstart]
  · rw [Span.stop_union_of_before hbefore, hstop]
  · rw [Span.IsIn, Span.start_union_of_before hbefore, Span.stop_union_of_before hbefore]
    exact hall v hv

end Reaches

namespace Node

variable {n p : Node} {ns : List Node}

theorem inOrder_of_mem (h : InOrder (ns.flatMap tokens)) (hn : n ∈ ns) : InOrder n.tokens :=
  (List.pairwise_flatMap.mp h).1 n hn

theorem reaches (n : Node) (h : InOrder n.tokens) : Reaches n.span n.tokens := by
  induction n using induction_on_parts with
  | h n ih =>
    cases hparts : n.parts with
    | nil =>
      obtain ⟨t, rfl⟩ := exists_token hparts
      exact .single t
    | cons p rest =>
      rw [tokens_parts (hparts ▸ List.cons_ne_nil p rest)] at h ⊢
      have ih : ∀ p ∈ n.parts, Reaches p.span p.tokens := fun p hp ↦ ih p hp (inOrder_of_mem h hp)
      rw [hparts] at h ih ⊢
      rcases List.eq_nil_or_concat rest with rfl | ⟨mid, q, rfl⟩
      · have hspan : n.span = p.span := (span_parts (hparts ▸ rfl) (hparts ▸ rfl)).trans (union_self _)
        rw [hspan, List.flatMap_singleton]
        exact ih p (List.mem_singleton_self p)
      · rw [List.concat_eq_append] at hparts h ih ⊢
        have hlast : n.parts.getLast? = some q :=
          (congrArg List.getLast? hparts).trans (List.getLast?_concat (l := p :: mid))
        have hq : q ∈ p :: (mid ++ [q]) := List.mem_cons_of_mem p List.mem_concat_self
        rw [List.flatMap_cons, List.flatMap_append, List.flatMap_singleton] at h ⊢
        rw [span_parts (congrArg List.head? hparts) hlast]
        exact (ih p List.mem_cons_self).union (ih q hq) h

theorem pairwise_before (h : InOrder (ns.flatMap tokens)) : ns.Pairwise fun p q ↦ p.span.Before q.span := by
  refine (List.pairwise_flatMap.mp h).2.imp_of_mem ?_
  intro p q hp hq hbefore
  exact (p.reaches (inOrder_of_mem h hp)).before (q.reaches (inOrder_of_mem h hq)) hbefore

theorem spans_nest (h : InOrder n.tokens) :
    (∀ p ∈ n.parts, p.span.IsIn n.span) ∧ n.parts.Pairwise fun p q ↦ p.span.Before q.span := by
  by_cases hparts : n.parts = []
  · rw [hparts]
    exact ⟨fun p hp ↦ absurd hp List.not_mem_nil, .nil⟩
  have hreaches := n.reaches h
  rw [tokens_parts hparts] at h hreaches
  refine ⟨fun p hp ↦ ?_, pairwise_before h⟩
  have hpart := p.reaches (inOrder_of_mem h hp)
  obtain ⟨t, ht, hstart⟩ := hpart.first
  obtain ⟨u, hu, hstop⟩ := hpart.last
  have hin (v : Token) (hv : v ∈ p.tokens) : v.span.IsIn n.span := hreaches.all v (List.mem_flatMap_of_mem hp hv)
  exact ⟨hstart ▸ (hin t ht).1, hstop ▸ (hin u hu).2⟩

end Node

structure Between (first last : Nat) (ts : List Token) : Prop where
  order : InOrder ts
  start : ∀ t ∈ ts, first ≤ t.span.start
  stop : ∀ t ∈ ts, t.span.stop ≤ last

namespace Between

variable {first first' last : Nat} {t : Token} {ts : List Token} {c c' : Cursor} {p : Place} {ps : List Place}

theorem cons (h : Between first' last ts) (hstart : first ≤ t.span.start) (hle : t.span.stop ≤ first')
    (hstop : t.span.stop ≤ last) : Between first last (t :: ts) where
  order := List.pairwise_cons.mpr ⟨fun u hu ↦ Nat.le_trans hle (h.start u hu), h.order⟩
  start := List.forall_mem_cons.mpr ⟨hstart, fun u hu ↦ Nat.le_trans (Nat.le_trans hstart t.span.start_le_stop)
    (Nat.le_trans hle (h.start u hu))⟩
  stop := List.forall_mem_cons.mpr ⟨hstop, h.stop⟩

theorem mono (h : Between first' last ts) (hle : first ≤ first') : Between first last ts :=
  ⟨h.order, fun t ht ↦ Nat.le_trans hle (h.start t ht), h.stop⟩

theorem sublist {us : List Token} (h : Between first last ts) (hsub : us.Sublist ts) : Between first last us :=
  ⟨h.order.sublist hsub, fun t ht ↦ h.start t (hsub.subset ht), fun t ht ↦ h.stop t (hsub.subset ht)⟩

theorem of_tokens (h : Between first last c.tokens) : Between c.current.start last c.tokens := by
  refine ⟨h.order, List.forall_mem_cons.mpr ⟨Nat.le_refl _, fun t ht ↦ ?_⟩, h.stop⟩
  have hle : _ ≤ t.span.start := (List.pairwise_cons.mp h.order).1 t ht
  exact Nat.le_trans c.current.span.start_le_stop hle

theorem advance (h : Between c.current.start last c.tokens) (hc : c.Ends) (hend : c.current.kind ≠ .endOfFile) :
    c.current.span.stop ≤ c.advance.2.current.start ∧
      Between c.advance.2.current.start last c.advance.2.tokens := by
  have hnext : c.tokens = c.current :: c.advance.2.tokens := (hc.advance hend).2.2
  rw [hnext] at h
  obtain ⟨hbefore, horder⟩ := List.pairwise_cons.mp h.order
  exact ⟨hbefore _ List.mem_cons_self, (h.sublist (List.sublist_cons_self _ _)).of_tokens⟩

/-- The tokens at some places, those that are made up among them, come in order before those that are left. -/
theorem fills (h : Fills ps c c') (hc : c.Ends) (hbetween : Between c.current.start last c.tokens) :
    Between c.current.start last (ps.filterMap Place.token? ++ c'.tokens) := by
  induction h with
  | nil => exact hbetween
  | @cons p ps c c' c'' h _ ih =>
    have hends := h.ends hc
    have hstart : c.current.start ≤ c.current.span.stop := c.current.span.start_le_stop
    have hstop : c.current.span.stop ≤ last := hbetween.stop _ List.mem_cons_self
    cases h with
    | kept _ hend =>
      obtain ⟨hle, hnext⟩ := hbetween.advance hc hend
      exact (ih hends hnext).cons (Nat.le_refl _) hle hstop
    | madeUp => exact (ih hends hbetween).cons (Nat.le_refl _) (Nat.le_refl _) (Nat.le_trans hstart hstop)
    | comma h =>
      obtain ⟨hle, hnext⟩ := hbetween.advance hc (h ▸ nofun)
      exact (ih hends hnext).mono (Nat.le_trans hstart hle)
    | skipped _ hend =>
      obtain ⟨hle, hnext⟩ := hbetween.advance hc hend
      exact (ih hends hnext).mono (Nat.le_trans hstart hle)
    | noComma | noSkip | bare | operand => exact ih hends hbetween

end Between

theorem Fills.span_of_report {ps : List Place} {c c' : Cursor} (h : Fills ps c c') (hc : c.Ends) :
    ∀ r ∈ c'.reports, r ∈ c.reports ∨ ∃ t ∈ c.tokens, r.span = t.span := by
  induction h with
  | nil => exact fun r hr ↦ .inl hr
  | @cons p ps c c' c'' h _ ih =>
    intro r hr
    have hadvance (hend : c.current.kind ≠ .endOfFile) (hr : r ∈ c.advance.2.reports ∨
        ∃ t ∈ c.advance.2.tokens, r.span = t.span) : r ∈ c.reports ∨ ∃ t ∈ c.tokens, r.span = t.span := by
      rw [c.reports_advance] at hr
      rw [(hc.advance hend).2.2]
      exact hr.imp_right fun ⟨t, ht, hspan⟩ ↦ ⟨t, List.mem_cons_of_mem _ ht, hspan⟩
    have hr := ih (h.ends hc) r hr
    cases h with
    | kept _ hend | skipped _ hend => exact hadvance hend hr
    | comma h => exact hadvance (h ▸ nofun) hr
    | madeUp =>
      rcases hr with hr | hr
      · rcases List.mem_cons.mp hr with rfl | hr
        · exact .inr ⟨c.current, List.mem_cons_self, rfl⟩
        · exact .inl hr
      · exact .inr hr
    | noComma | noSkip | bare | operand => exact hr

end Tree

namespace ScanPoint

theorem isIn_of_report_next (p : ScanPoint) : ∀ r ∈ p.next.1.report, r.span.IsIn p.next.1.token.span := by
  unfold next
  dsimp only
  split
  · exact fun _ h ↦ nomatch h
  · next c rest _ =>
    have hpos : 0 < (String.ofList (Lexeme.read c rest).chars).utf8ByteSize := by
      rw [Nat.pos_iff_ne_zero, ne_eq, String.utf8ByteSize_eq_zero_iff, String.ofList_eq_empty_iff]
      exact Lexeme.read_ne_nil c rest
    intro r hr
    obtain ⟨cause, -, rfl⟩ := Option.map_eq_some_iff.mp hr
    -- An unclosed string is reported at its quote alone.
    unfold report
    split
    · exact ⟨Nat.le_refl _, Nat.add_le_add_left hpos _⟩
    · exact ⟨Nat.le_refl _, Nat.le_refl _⟩

theorem isIn_of_report (n : Nat) (p : ScanPoint) : ∀ s ∈ scan n p, ∀ r ∈ s.report, r.span.IsIn s.token.span := by
  induction n generalizing p with
  | zero => exact List.forall_mem_singleton.mpr p.isIn_of_report_next
  | succ n ih =>
    simp only [scan]
    split
    · exact List.forall_mem_singleton.mpr p.isIn_of_report_next
    · exact List.forall_mem_cons.mpr ⟨p.isIn_of_report_next, ih p.next.2⟩

end ScanPoint

theorem between_scan (text : String) : Tree.Between 0 text.utf8ByteSize ((scan text).map (·.token)) := by
  obtain ⟨n, -, htiles⟩ := scan_tiles text
  have hstep (k : Nat) : (tokenAt text k).span.stop ≤ (tokenAt text (k + 1)).start := (htiles.gap (k + 1)).le
  have hbefore {i j : Nat} (hij : i < j) : (tokenAt text i).span.Before (tokenAt text j).span := by
    induction hij with
    | refl => exact hstep i
    | @step j _ ih => exact Nat.le_trans ih (Nat.le_trans (tokenAt text j).span.start_le_stop (hstep j))
  rw [htiles.scan]
  refine ⟨?_, fun t _ ↦ Nat.zero_le _, ?_⟩
  · exact List.pairwise_map.mpr (List.pairwise_lt_range.imp hbefore)
  · intro t ht
    obtain ⟨k, -, rfl⟩ := List.mem_map.mp ht
    exact (htiles.token k).stop_valid.le_utf8ByteSize

namespace Tree

theorem between_tokens (text : String) : Between 0 text.utf8ByteSize (ofText text).source.tokens := by
  obtain ⟨d, hfills, hlast, -, -⟩ := exists_fills text
  have hgood : Between 0 text.utf8ByteSize (Cursor.ofTokens (goodTokens text)).tokens := by
    rw [tokens_goodTokens]
    exact (between_scan text).sublist List.filter_sublist
  have hfilled := hgood.of_tokens.fills hfills (ends_goodTokens text)
  rw [hlast] at hfilled
  have htokens : (ofText text).source.tokens = (memberPlaces (ofText text).source.members).filterMap Place.token?
      ++ [(ofText text).source.finish] := by
    rw [← Source.tokens_places, Source.places, List.filterMap_append]
    rfl
  exact htokens ▸ hfilled.mono (Nat.zero_le _)

theorem exists_token_of_report (text : String) :
    ∀ r ∈ (ofText text).reports, ∃ t ∈ (scan text).map (·.token), r.span.IsIn t.span := by
  obtain ⟨d, hfills, -, -, hreports⟩ := exists_fills text
  rw [hreports]
  refine List.forall_mem_append.mpr ⟨fun r hr ↦ ?_, fun r hr ↦ ?_⟩
  · obtain ⟨s, hs, hsr⟩ := List.mem_filterMap.mp hr
    exact ⟨s.token, List.mem_map_of_mem hs, ScanPoint.isIn_of_report _ _ s hs r hsr⟩
  · have hspan := hfills.span_of_report (ends_goodTokens text) r (List.mem_reverse.mp hr)
    rw [Cursor.reports_ofTokens, tokens_goodTokens] at hspan
    obtain ⟨t, ht, hspan⟩ := hspan.resolve_left List.not_mem_nil
    exact ⟨t, (List.mem_filter.mp ht).1, by rw [hspan]; exact ⟨Nat.le_refl _, Nat.le_refl _⟩⟩

end Tree

end SmallScript
