import SmallScript.Proofs.Code.Legible
import SmallScript.Proofs.Flow.Closed
import SmallScript.Proofs.Token.Written

namespace SmallScript

open Code (Piece Line)

/-- Whether some characters scan as pieces, behind whatever blanks they stand, and nothing is reported. -/
structure Scans (cs : List Char) (ps : List Piece) : Prop where
  length_le : ps.length ≤ cs.length
  tokens (blanks : List Char) (h : ∀ b ∈ blanks, isBlank b) (o : Nat) {n : Nat} (hn : ps.length ≤ n) :
    ∃ ts finish, (ScanPoint.scan n ⟨o, blanks ++ cs⟩).map (·.token) = ts ++ [finish] ∧
      finish.kind = .endOfFile ∧ List.Forall₂ Piece.IsToken ps ts ∧
      ∀ s ∈ ScanPoint.scan n ⟨o, blanks ++ cs⟩, s.report = none

namespace Scans

variable {cs : List Char} {ps : List Piece}

theorem nil : Scans [] [] where
  length_le := Nat.le_refl 0
  tokens blanks h o {n} _ := by
    rw [List.append_nil]
    obtain ⟨t, hscan, ht⟩ := ScanPoint.scan_of_only_blanks (o := o) h n
    rw [hscan]
    exact ⟨[], t, rfl, congrArg Prod.fst ht, .nil, List.forall_mem_singleton.mpr rfl⟩

theorem blanks (h : Scans cs ps) (bs : List Char) (hbs : ∀ b ∈ bs, isBlank b) : Scans (bs ++ cs) ps where
  length_le := by
    have hle := h.length_le
    rw [List.length_append]
    omega
  tokens blanks hblanks o {n} hn := by
    rw [← List.append_assoc]
    exact h.tokens (blanks ++ bs) (List.forall_mem_append.mpr ⟨hblanks, hbs⟩) o hn

theorem piece {p : Piece} (h : Scans cs ps) (hp : p.Plain) (hends : p.EndsBefore cs) (hblank : p ≠ .blank)
    (hknown : p ≠ .unknown) : Scans (p.text.toList ++ cs) (p :: ps) := by
  obtain ⟨c, rest, hchars, hc, hread⟩ := p.read_piece hp hends hblank
  have hfault : p.fault = none := by
    cases p <;> first | rfl | exact absurd rfl hknown
  refine ⟨?_, fun blanks hblanks o {n} hn ↦ ?_⟩
  · have hne : p.text.toList ≠ [] := by
      have hchars := Lexeme.read_ne_nil c rest
      rwa [hread] at hchars
    have hpos := List.length_pos_iff.mpr hne
    have hle := h.length_le
    rw [List.length_append, List.length_cons]
    omega
  · obtain ⟨n, rfl⟩ := Nat.exists_eq_succ_of_ne_zero (Nat.ne_zero_of_lt hn)
    obtain ⟨o', t, hscan, ht⟩ :=
      ScanPoint.scan_of_blanks (o := o) hblanks hc hread hfault p.kind_ne_endOfFile n
    obtain ⟨ts, finish, hts, hfinish, htokens, hreports⟩ :=
      h.tokens [] (List.forall_mem_nil _) o' (Nat.le_of_succ_le_succ hn)
    simp only [Token.content, String.ofList_toList, Prod.mk.injEq] at ht
    rw [hchars, hscan]
    exact ⟨t :: ts, finish, congrArg _ hts, hfinish, .cons ht htokens, List.forall_mem_cons.mpr ⟨rfl, hreports⟩⟩

end Scans

theorem Code.Piece.EndsBefore.lineBreak {p : Piece} {cs : List Char} (h : p.EndsBefore cs) (rest : List Char) :
    p.EndsBefore (cs ++ '\n' :: rest) := by
  have hword (hcs : ∀ c, cs.head? = some c → isIdentifierPart c = false) :
      ∀ c, (cs ++ '\n' :: rest).head? = some c → isIdentifierPart c = false := by
    intro c hc
    cases cs with
    | nil =>
      obtain rfl := Option.some.inj hc
      decide
    | cons d cs => exact hcs c hc
  have hsign (c : Char) : Punctuation.ofChars? c (some '\n') = Punctuation.ofChars? c none := by
    unfold Punctuation.ofChars?
    rfl
  cases p with
  | name | word => exact hword h
  | sign p =>
    obtain ⟨c, ds, hs, hc⟩ := h
    refine ⟨c, ds, hs, ?_⟩
    cases ds with
    | cons d ds => exact hc
    | nil =>
      cases cs with
      | cons d cs => exact hc
      | nil => exact (hsign c).trans hc
  | literal v =>
    cases v with
    | int | bool => exact hword h
    | string => trivial
  | blank | unknown => trivial

theorem Scans.line {cs : List Char} {ps qs : List Piece} (h : Scans ('\n' :: cs) qs) (hps : Readable ps)
    (hknown : .unknown ∉ ps) : Scans (charsOf ps ++ '\n' :: cs) (ps.filter (· ≠ .blank) ++ qs) := by
  induction ps with
  | nil => exact h
  | cons p ps ih =>
    obtain ⟨hp, hends, hps⟩ := hps
    rw [List.mem_cons, not_or] at hknown
    have hrest := ih hps hknown.2
    have hchars : charsOf (p :: ps) ++ '\n' :: cs = p.text.toList ++ (charsOf ps ++ '\n' :: cs) :=
      List.append_assoc ..
    rw [hchars]
    by_cases hblank : p = .blank
    · obtain rfl := hblank
      exact hrest.blanks [' '] (List.forall_mem_singleton.mpr rfl)
    · rw [List.filter_cons_of_pos (by simpa using hblank)]
      exact hrest.piece hp (hends.lineBreak cs) hblank (Ne.symm hknown.1)

namespace Code

def Line.Legible (l : Line) : Prop := Readable l.pieces ∧ .unknown ∉ l.pieces

theorem toList_pushn (s : String) (c : Char) (n : Nat) : (s.pushn c n).toList = s.toList ++ List.replicate n c := by
  unfold String.pushn
  induction n with
  | zero => simp [Nat.repeat]
  | succ n ih => simp [Nat.repeat, ih, List.replicate_succ']

theorem Line.toList_text (l : Line) :
    l.text.toList = List.replicate (4 * l.depth) ' ' ++ (charsOf l.pieces ++ ['\n']) := by
  rw [text, String.toList_append, String.toList_append, toList_pushn, toList_join, List.append_assoc]
  rfl

end Code

theorem Scans.lines {ls : List Line} (h : ∀ l ∈ ls, l.Legible) :
    Scans (Code.linesText ls).toList ((ls.flatMap Line.pieces).filter (· ≠ .blank)) := by
  induction ls with
  | nil => exact .nil
  | cons l ls ih =>
    obtain ⟨⟨hreadable, hknown⟩, hls⟩ := List.forall_mem_cons.mp h
    have hend : Scans ('\n' :: (Code.linesText ls).toList) _ := (ih hls).blanks ['\n'] (List.forall_mem_singleton.mpr rfl)
    have hline := (hend.line hreadable hknown).blanks (List.replicate (4 * l.depth) ' ')
      fun b hb ↦ (List.eq_of_mem_replicate hb) ▸ rfl
    have hchars : (Code.linesText (l :: ls)).toList =
        List.replicate (4 * l.depth) ' ' ++ (charsOf l.pieces ++ '\n' :: (Code.linesText ls).toList) := by
      simp [Code.linesText, l.toList_text]
    rw [hchars, List.flatMap_cons, List.filter_append]
    exact hline

theorem Label.isName_of_isNumbered {l : Label} (h : l.IsNumbered) : IsName l.name := by
  have hdigits (n : Nat) : ∀ c ∈ Nat.toDigits 10 n, c.isDigit :=
    fun c hc ↦ Nat.isDigit_of_mem_toDigits (by decide) (by decide) hc
  obtain ⟨c, cs, n, hname, hstart, hparts⟩ : ∃ c cs n, l.name.toList = c :: cs ++ Nat.toDigits 10 n ∧
      isIdentifierStart c ∧ (c :: cs).all isIdentifierPart = true := by
    have hlist := l.toList_name
    cases l with
    | given => exact h.elim
    | breakOf n | continueOf n | made n => exact ⟨_, _, n, hlist, by decide, rfl⟩
  refine ⟨⟨⟨c, _, hname, hstart⟩, ?_⟩, ?_⟩
  · rw [hname]
    exact List.forall_mem_append.mpr ⟨List.all_eq_true.mp hparts, fun d hd ↦ isIdentifierPart_of_isDigit (hdigits n d hd)⟩
  · -- No keyword has a digit.
    have hall : Keyword.all.all fun k ↦ k.text.toList.all fun c ↦ !c.isDigit := by decide +kernel
    refine List.find?_eq_none.mpr fun k hk hkey ↦ ?_
    obtain ⟨d, hd⟩ := List.exists_mem_of_ne_nil _ (Nat.toDigits_ne_nil (b := 10) (n := n))
    have hnot := List.all_eq_true.mp (List.all_eq_true.mp hall k hk) d
      (by rw [eq_of_beq hkey, hname]; exact List.mem_append_right _ hd)
    rw [hdigits n d hd] at hnot
    nomatch hnot

namespace Code

section Lines

variable {rest : List Piece}

theorem readable_word_blank {s : String} (hs : IsWord s) (h : Readable rest) : Readable (.word s :: .blank :: rest) :=
  ⟨hs, stops_blank _, readable_blank h⟩

theorem readable_name_blank {s : String} (hs : IsName s) (h : Readable rest) : Readable (.name s :: .blank :: rest) :=
  ⟨hs, stops_blank _, readable_blank h⟩

/-- What can be read before anything else can be read at the end of a line. -/
theorem ReadableBefore.readable {ps : List Piece} (h : ReadableBefore ps) : Readable ps :=
  List.append_nil ps ▸ h [] trivial nofun

theorem isWord_declare (v : Variable) : IsWord (if v.readOnly then "let" else "var") := by
  split
  · exact .of_all rfl (by decide) rfl
  · exact .of_all rfl (by decide) rfl

theorem isWord_test (negated : Bool) : IsWord (if negated then "unless" else "if") := by
  split
  · exact .of_all rfl (by decide) rfl
  · exact .of_all rfl (by decide) rfl

theorem Statement.legible_lines {s : Statement} (hflat : s.isFlat) (h : s.Of (IsName ·.name) Expression.Legible)
    (hmeant : ∀ e ∈ s.operand?, e.Meant) (hlabel : ∀ l ∈ s.label?, IsName l.name) (hjump : ∀ l ∈ s.jump?, IsName l.name)
    (depth : Nat) : ∀ l ∈ s.lines depth, l.Legible := by
  have hreadable {e : Expression} (he : e.Legible) : Readable e.pieces := (e.readable_pieces he).readable
  have hknown {e : Expression} (he : e ∈ s.operand?) : .unknown ∉ e.pieces :=
    e.unknown_not_mem_iff.mpr (hmeant e he)
  cases s with
  | declare v e =>
    refine List.forall_mem_singleton.mpr ⟨?_, by simpa using hknown rfl⟩
    exact readable_word_blank (isWord_declare v) (readable_name_blank h.1 (readable_sign_blank _ (hreadable h.2)))
  | label l =>
    exact List.forall_mem_singleton.mpr
      ⟨⟨hlabel l rfl, stops_sign _ _, trivial, ⟨_, _, rfl, rfl⟩, trivial⟩, by simp⟩
  | goto l =>
    refine List.forall_mem_singleton.mpr ⟨?_, by simp⟩
    exact readable_word_blank (.of_all rfl (by decide) rfl) ⟨hjump l rfl, nofun, trivial⟩
  | gotoIf l e negated =>
    refine List.forall_mem_singleton.mpr ⟨?_, by simpa using hknown rfl⟩
    exact readable_word_blank (.of_all rfl (by decide) rfl)
      (readable_name_blank (hjump l rfl) (readable_word_blank (isWord_test negated) (hreadable h)))
  | leave value =>
    have hreturn : IsWord "return" := .of_all rfl (by decide) rfl
    cases value with
    | none => exact List.forall_mem_singleton.mpr ⟨⟨hreturn, nofun, trivial⟩, by simp⟩
    | some e =>
      exact List.forall_mem_singleton.mpr
        ⟨readable_word_blank hreturn (hreadable (h e rfl)), by simpa using hknown rfl⟩
  | expression e => exact List.forall_mem_singleton.mpr ⟨hreadable h, hknown rfl⟩
  | _ => nomatch hflat

theorem legible_statementLines {ss : List Statement} {depth : Nat} (h : ∀ s ∈ ss, ∀ l ∈ s.lines depth, l.Legible) :
    ∀ l ∈ statementLines depth ss, l.Legible := by
  induction ss with
  | nil => exact List.forall_mem_nil _
  | cons s rest ih =>
    obtain ⟨hs, hrest⟩ := List.forall_mem_cons.mp h
    exact List.forall_mem_append.mpr ⟨hs, ih hrest⟩

theorem Body.legible_lines {b : Body} (h : ∀ s ∈ b, ∀ l ∈ s.lines 1, l.Legible) :
    ∀ l ∈ (Statement.block b).lines 0, l.Legible := by
  have hopen : (Line.openBrace 0).Legible := ⟨⟨trivial, ⟨_, _, rfl, rfl⟩, trivial⟩, by simp [Line.openBrace]⟩
  have hclose : (Line.closeBrace 0).Legible := ⟨⟨trivial, ⟨_, _, rfl, rfl⟩, trivial⟩, by simp [Line.closeBrace]⟩
  rw [Statement.lines]
  exact List.forall_mem_append.mpr
    ⟨List.forall_mem_cons.mpr ⟨hopen, legible_statementLines h⟩, List.forall_mem_singleton.mpr hclose⟩

theorem readable_typedName {v : Variable} (hv : IsName v.name) (ht : v.ty.IsValue) : ReadableBefore (typedName v) :=
  fun _ hrest hstop ↦ ⟨hv, stops_sign _ _, readable_sign_blank _ ⟨isName_of_isValue ht, hstop, hrest⟩⟩

theorem readable_parameterPieces : (vs : List Variable) → (∀ v ∈ vs, IsName v.name) → (∀ v ∈ vs, v.ty.IsValue) →
    ReadableBefore (parameterPieces vs)
  | [], _, _ => fun _ hrest _ ↦ hrest
  | [v], hnames, htypes => readable_typedName (hnames v (List.mem_singleton_self v)) (htypes v (List.mem_singleton_self v))
  | v :: v' :: vs, hnames, htypes => by
    intro rest hrest hstop
    obtain ⟨hv, hnames⟩ := List.forall_mem_cons.mp hnames
    obtain ⟨ht, htypes⟩ := List.forall_mem_cons.mp htypes
    have htail := readable_parameterPieces (v' :: vs) hnames htypes rest hrest hstop
    have hcomma : Readable (.sign .comma :: .blank :: (parameterPieces (v' :: vs) ++ rest)) :=
      readable_sign_blank _ htail
    have hhead := readable_typedName hv ht _ hcomma (stops_sign _ _)
    simpa [parameterPieces] using hhead

theorem unknown_not_mem_parameterPieces : (vs : List Variable) → .unknown ∉ parameterPieces vs
  | [] => List.not_mem_nil
  | [v] => by simp [parameterPieces, typedName]
  | v :: v' :: vs => by simpa [parameterPieces, typedName] using unknown_not_mem_parameterPieces (v' :: vs)

def returnPieces (t : Ty) : List Piece := if t = .void then [] else [.sign .colon, .blank, .name t.name]

theorem legible_returnPieces {t : Ty} (h : t ≠ .unknown) :
    Readable (returnPieces t) ∧ .unknown ∉ returnPieces t ∧ Stops (returnPieces t) := by
  unfold returnPieces
  split
  · exact ⟨trivial, List.not_mem_nil, nofun⟩
  · next hvoid =>
    have htype := isName_of_isValue ⟨h, hvoid⟩
    exact ⟨readable_sign_blank _ ⟨htype, nofun, trivial⟩, by simp, stops_sign _ _⟩

theorem legible_headLine {f : Function} (hname : IsName f.name) (hparameters : ∀ v ∈ f.parameters, IsName v.name)
    (hf : f.Proper) : (headLine f).Legible := by
  obtain ⟨htypes, hreturns⟩ := hf
  obtain ⟨hreadable, hknown, hstop⟩ := legible_returnPieces hreturns
  have hlist := (readable_parameterPieces f.parameters hparameters htypes).grouped true _ hreadable hstop
  have hpieces : (headLine f).pieces = .word "function" :: .blank :: .name f.name ::
      (grouped true (parameterPieces f.parameters) ++ returnPieces f.returns) := rfl
  rw [Line.Legible, hpieces]
  refine ⟨readable_word_blank (.of_all rfl (by decide) rfl) ⟨hname, stops_sign _ _, hlist⟩, ?_⟩
  simpa [unknown_mem_grouped, unknown_not_mem_parameterPieces] using hknown

end Lines

end Code

end SmallScript
