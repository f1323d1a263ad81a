import SmallScript.Program
import SmallScript.Proofs.Honest
import SmallScript.Proofs.Resolve.Fresh
import SmallScript.Proofs.Tree.Accounted

namespace SmallScript

open Token (Kind)

def Braceless (text : String) : Prop := '{' ∉ text.toList

instance (text : String) : Decidable (Braceless text) := inferInstanceAs (Decidable ('{' ∉ text.toList))

def Cause.Clear (c : Cause) : Prop := ∀ a ∈ c.arguments, Braceless a

section Names

theorem braceless_toString (n : Nat) : Braceless (toString n) := fun h ↦
  absurd (Decimal.isDigit_of_mem_toString h) (by decide)

theorem braceless_ofList {cs : List Char} (h : '{' ∉ cs) : Braceless (String.ofList cs) := by
  rwa [Braceless, String.toList_ofList]

theorem Ty.braceless_name (t : Ty) : Braceless t.name := by
  cases t <;> dsimp only [name] <;> exact braceless_ofList (by decide)

theorem Token.Kind.braceless_name (k : Kind) : Braceless k.name := by
  cases k with
  | mark p => cases p <;> dsimp only [name, Punctuation.name] <;> exact braceless_ofList (by decide)
  | word k => cases k <;> dsimp only [name, Keyword.name] <;> exact braceless_ofList (by decide)
  | _ => dsimp only [name]; exact braceless_ofList (by decide)

end Names

section Scan

theorem Punctuation.take_of_ofChars? {c : Char} {rest : List Char} {p : Punctuation}
    (h : ofChars? c rest.head? = some p) : (c :: rest).take p.text.length = p.text.toList := by
  have hnext {d : Char} (hd : rest.head? = some d) : ∃ tail, rest = d :: tail := by
    cases rest with
    | nil => nomatch hd
    | cons d' tail => exact ⟨tail, congrArg (· :: tail) (Option.some.inj hd)⟩
  unfold ofChars? at h
  split at h <;> try split at h
  all_goals first
    | exact (Option.some_ne_none p h.symm).elim
    | next hd =>
      obtain ⟨tail, rfl⟩ := hnext hd
      cases h
      rfl
    | cases h
      rfl

theorem Punctuation.braceless_text {p : Punctuation} (h : p ≠ .openBrace) : Braceless p.text := by
  cases p <;> first | decide | exact absurd rfl h

/-- Only strings and opening braces are lexemes with an opening brace in them, and no fault cites one. -/
structure Lexeme.Cited (l : Lexeme) : Prop where
  chars : l.kind ≠ .string → l.kind ≠ .mark .openBrace → '{' ∉ l.chars
  fault : ∀ f ∈ l.fault, f.Clear

theorem not_mem_takeWhile {p : Char → Bool} (hp : p '{' = false) (cs : List Char) : '{' ∉ cs.takeWhile p := fun h ↦ by
  have hall := List.all_eq_true.mp (List.all_takeWhile (p := p) (l := cs)) '{' h
  rw [hp] at hall
  nomatch hall

theorem Lexeme.cited_read (c : Char) (rest : List Char) : (read c rest).Cited := by
  unfold read
  split
  · next p hp =>
    refine ⟨fun _ hbrace ↦ ?_, fun _ h ↦ absurd h (Option.not_mem_none _)⟩
    change '{' ∉ (c :: rest).take p.text.length
    rw [Punctuation.take_of_ofChars? hp]
    exact Punctuation.braceless_text fun heq ↦ hbrace (congrArg Kind.mark heq)
  · next hp =>
    split
    · refine ⟨fun hstring ↦ absurd rfl hstring, fun f hf ↦ ?_⟩
      unfold ofQuoted at hf
      dsimp only at hf
      split at hf
      · nomatch hf
      · obtain rfl := Option.some.inj hf
        exact List.forall_mem_nil _
    · split
      · have hdigits : '{' ∉ (c :: rest).takeWhile Char.isDigit := not_mem_takeWhile (by decide) _
        refine ⟨fun _ _ ↦ hdigits, fun f hf ↦ ?_⟩
        unfold ofDigits at hf
        dsimp only at hf
        split at hf
        · nomatch hf
        · obtain rfl := Option.some.inj hf
          exact List.forall_mem_cons.mpr
            ⟨braceless_ofList hdigits, List.forall_mem_singleton.mpr Ty.int.braceless_name⟩
      · split
        · exact ⟨fun _ _ ↦ not_mem_takeWhile (by decide +kernel) _, fun _ h ↦ absurd h (Option.not_mem_none _)⟩
        · have hc : '{' ∉ [c] := fun h ↦ by
            obtain rfl := List.mem_singleton.mp h
            nomatch hp
          refine ⟨fun _ _ ↦ hc, fun f hf ↦ ?_⟩
          obtain rfl := Option.some.inj hf
          exact List.forall_mem_singleton.mpr (by rwa [Braceless, String.toList_singleton])

def Token.Citable (t : Token) : Prop := t.kind ≠ .string → t.kind ≠ .mark .openBrace → Braceless t.text

theorem Token.citable_of_text {t : Token} (h : t.text = "") : t.Citable := fun _ _ ↦ by
  rw [h]
  exact List.not_mem_nil

structure Scanned.Cited (s : Scanned) : Prop where
  token : s.token.Citable
  report : ∀ r ∈ s.report, r.cause.Clear

theorem ScanPoint.cited_next (p : ScanPoint) : p.next.1.Cited := by
  simp only [next]
  split
  · exact ⟨Token.citable_of_text rfl, fun _ h ↦ absurd h (Option.not_mem_none _)⟩
  · next c rest _ =>
    have hread := Lexeme.cited_read c rest
    refine ⟨fun hstring hbrace ↦ ?_, fun r hr ↦ ?_⟩
    · exact braceless_ofList (hread.chars hstring hbrace)
    · obtain ⟨f, hf, rfl⟩ := Option.map_eq_some_iff.mp hr
      have hclear := hread.fault f hf
      unfold ScanPoint.report
      split <;> exact hclear

theorem ScanPoint.cited_scan (n : Nat) (p : ScanPoint) : ∀ s ∈ scan n p, s.Cited := by
  induction n generalizing p with
  | zero => exact List.forall_mem_singleton.mpr p.cited_next
  | succ n ih =>
    simp only [scan]
    split
    · exact List.forall_mem_singleton.mpr p.cited_next
    · exact List.forall_mem_cons.mpr ⟨p.cited_next, ih _⟩

end Scan

namespace Tree

def Place.Cited : Place → Prop
  | .token kinds t => t.kind ∈ kinds ∧ t.Citable
  | _ => True

theorem Laid.cited {ps : List Place} {es : List Event} (h : Laid ps es) (hes : ∀ e ∈ es, ∀ t ∈ e.inTree?, t.Citable) :
    ∀ p ∈ ps, p.Cited := by
  induction h with
  | nil => exact List.forall_mem_nil _
  | kept hk _ ih | madeUp hk _ ih =>
    obtain ⟨he, hes⟩ := List.forall_mem_cons.mp hes
    exact List.forall_mem_cons.mpr ⟨⟨hk, he _ rfl⟩, ih hes⟩
  | separator _ ih | skipped _ ih => exact List.forall_mem_cons.mpr ⟨trivial, ih (List.forall_mem_cons.mp hes).2⟩
  | noSeparator _ ih | noSkip _ ih | bare _ ih | operand _ ih => exact List.forall_mem_cons.mpr ⟨trivial, ih hes⟩

theorem cited_ofText (text : String) :
    (∀ p ∈ (ofText text).source.places, p.Cited) ∧ ∀ r ∈ (ofText text).reports, r.cause.Clear := by
  obtain ⟨es, hlaid, hscanned, hreports, hlawful⟩ := exists_moves text
  have hscan := ScanPoint.cited_scan text.toList.length ⟨0, text.toList⟩
  constructor
  · refine hlaid.cited fun e he t ht ↦ ?_
    cases e with
    | kept u =>
      obtain rfl := Option.some.inj ht
      have hmem : u ∈ goodTokens text := hscanned ▸ List.mem_filterMap.mpr ⟨_, he, rfl⟩
      obtain ⟨s, hs, rfl⟩ := List.mem_map.mp (List.mem_filter.mp hmem).1
      exact (hscan s hs).token
    | madeUp u r =>
      obtain rfl := Option.some.inj ht
      have hempty := (Bool.and_eq_true_iff.mp (hlawful _ he).1).1
      exact Token.citable_of_text (String.isEmpty_iff.mp hempty)
    | separator | skipped => nomatch ht
  · rw [hreports]
    refine List.forall_mem_append.mpr ⟨fun r hr ↦ ?_, fun r hr ↦ ?_⟩
    · obtain ⟨s, hs, hr⟩ := List.mem_filterMap.mp hr
      exact (hscan s hs).report r hr
    · obtain ⟨e, he, hr⟩ := List.mem_filterMap.mp hr
      cases e with
      | madeUp u r' =>
        obtain rfl := Option.some.inj hr
        obtain ⟨-, -, found, hcause⟩ := hlawful _ he
        rw [hcause]
        exact List.forall_mem_cons.mpr ⟨found.braceless_name, List.forall_mem_singleton.mpr u.kind.braceless_name⟩
      | kept | separator | skipped => nomatch hr

end Tree

end SmallScript
