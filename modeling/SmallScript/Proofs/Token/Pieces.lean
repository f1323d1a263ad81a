import SmallScript.Code.Printer
import SmallScript.Token.Scan

namespace SmallScript

open Code (Piece)

/-- A word: an identifier or a keyword. -/
structure IsWord (word : String) : Prop where
  start : ∃ c cs, word.toList = c :: cs ∧ isIdentifierStart c
  parts : ∀ c ∈ word.toList, isIdentifierPart c

structure IsName (word : String) : Prop extends IsWord word where
  free : Keyword.find? word = none

theorem IsWord.of_all {word : String} {c : Char} {cs : List Char} (h : word.toList = c :: cs)
    (hc : isIdentifierStart c) (hparts : word.toList.all isIdentifierPart) : IsWord word :=
  ⟨⟨c, cs, h, hc⟩, List.all_eq_true.mp hparts⟩

/-- The kind of the token that a word is scanned as. -/
def Token.Kind.ofWord (word : String) : Token.Kind :=
  match Keyword.find? word with
  | some k => .word k
  | none => .identifier

theorem Keyword.find?_of_ofWord {word : String} (h : Token.Kind.ofWord word = .identifier) : find? word = none := by
  unfold Token.Kind.ofWord at h
  split at h
  · cases h
  · assumption

theorem IsWord.isMissing {t : Token} {word : String} (h : IsWord word) (ht : t.text = word) :
    t.isMissing = false := by
  obtain ⟨c, cs, hword, -⟩ := h.start
  have hne : t.text ≠ "" := by
    rintro hempty
    rw [← ht, hempty] at hword
    nomatch hword
  rw [Token.isMissing, Bool.and_eq_false_iff]
  exact .inl (Bool.eq_false_iff.mpr fun hempty ↦ hne (String.isEmpty_iff.mp hempty))

/-- A value that a literal can be written for: not a negative number, nor a text of more lines than one. -/
def Value.Plain : Value → Prop
  | .int n => 0 ≤ n.toInt
  | .bool _ => True
  | .string s => ∀ c ∈ s.toList, isLineBreak c = false

section Characters

variable {c : Char}

theorem isDigit_of_isIdentifierStart (h : isIdentifierStart c) : c.isDigit = false := by
  have hall : (List.range' 48 10).all fun n ↦ !isIdentifierStart (Char.ofNat n) := by decide +kernel
  rw [Bool.eq_false_iff]
  intro hd
  have hmem : c.toNat ∈ List.range' 48 10 := by
    simp only [Char.isDigit, Bool.and_eq_true, decide_eq_true_eq, ge_iff_le, UInt32.le_iff_toNat_le] at hd
    rw [List.mem_range'_1]
    exact ⟨hd.1, Nat.lt_succ_of_le hd.2⟩
  have hnot := List.all_eq_true.mp hall _ hmem
  rw [Char.ofNat_toNat, h] at hnot
  nomatch hnot

theorem ofChars?_of_isIdentifierPart (h : isIdentifierPart c) (next : Option Char) :
    Punctuation.ofChars? c next = none := by
  unfold Punctuation.ofChars?
  split <;> first | rfl | exact absurd h (by decide)

theorem ne_quote_of_isIdentifierPart (h : isIdentifierPart c) : c ≠ '"' := by
  rintro rfl
  exact absurd h (by decide)

theorem isIdentifierPart_of_isDigit (h : c.isDigit) : isIdentifierPart c := by
  simp [isIdentifierPart, h]

def blanks : List Nat :=
  List.range' 9 5 ++ List.range' 0x2000 11 ++ [0x20, 0x85, 0xA0, 0x1680, 0x2028, 0x2029, 0x202F, 0x205F, 0x3000]

theorem toNat_mem_blanks (h : isBlank c) : c.toNat ∈ blanks := by
  simp only [isBlank, Bool.or_eq_true, Bool.and_eq_true, decide_eq_true_eq, beq_iff_eq] at h
  simp only [blanks, List.mem_append, List.mem_range'_1, List.mem_cons]
  grind

theorem isBlank_of_isIdentifierPart (h : isIdentifierPart c) : isBlank c = false := by
  have hall : blanks.all fun n ↦ !isIdentifierPart (Char.ofNat n) := by decide +kernel
  rw [Bool.eq_false_iff]
  intro hb
  have hnot := List.all_eq_true.mp hall _ (toNat_mem_blanks hb)
  rw [Char.ofNat_toNat, h] at hnot
  nomatch hnot

end Characters

theorem takeWhile_of_stops {p : Char → Bool} {cs rest : List Char} (h : ∀ c ∈ cs, p c)
    (hrest : ∀ c, rest.head? = some c → p c = false) :
    (cs ++ rest).takeWhile p = cs ∧ (cs ++ rest).dropWhile p = rest := by
  rw [List.takeWhile_append_of_pos h, List.dropWhile_append_of_pos h]
  cases rest with
  | nil => exact ⟨by simp, rfl⟩
  | cons c rest =>
    have hc := hrest c rfl
    simp [hc]

theorem Decimal.integer?_toDigits (k : Nat) : integer? (Nat.toDigits 10 k) = some (k : Int) := by
  have hdigit : ∀ c ∈ Nat.toDigits 10 k, c.isDigit :=
    fun c h ↦ Nat.isDigit_of_mem_toDigits (by decide) (by decide) h
  unfold integer?
  split
  · next ds h => exact absurd (hdigit _ (h ▸ List.mem_cons_self)) (by decide)
  · next ds h => exact absurd (hdigit _ (h ▸ List.mem_cons_self)) (by decide)
  · rw [natural?_toDigits]
    rfl

theorem Decimal.int32?_toDigits {n : Int32} (hn : 0 ≤ n.toInt) :
    int32? (Nat.toDigits 10 n.toInt.toNat) = some n := by
  have hlt := n.toInt_lt
  rw [int32?, integer?_toDigits, Option.bind_some, Int.toNat_of_nonneg hn, if_pos (by omega),
    Int32.ofInt_toInt]

namespace Lexeme

variable {cs rest : List Char}

theorem read_word {c : Char} (hc : isIdentifierStart c) (hcs : ∀ d ∈ c :: cs, isIdentifierPart d)
    (hrest : ∀ d, rest.head? = some d → isIdentifierPart d = false) :
    read c (cs ++ rest) =
      ⟨.ofWord (String.ofList (c :: cs)), c :: cs, none, none, rest⟩ := by
  obtain ⟨htake, hdrop⟩ := takeWhile_of_stops hcs hrest
  have hpart := isIdentifierPart_of_start hc
  rw [read, ofChars?_of_isIdentifierPart hpart]
  simp only [ne_quote_of_isIdentifierPart hpart, if_false, isDigit_of_isIdentifierStart hc, hc, if_true,
    Bool.false_eq_true]
  rw [ofWord, ← List.cons_append, htake, hdrop]
  rfl

theorem read_digits {c : Char} {n : Int32} (hcs : ∀ d ∈ c :: cs, d.isDigit)
    (hn : Decimal.int32? (c :: cs) = some n)
    (hrest : ∀ d, rest.head? = some d → isIdentifierPart d = false) :
    read c (cs ++ rest) = ⟨.number, c :: cs, some (.int n), none, rest⟩ := by
  have hstop : ∀ d, rest.head? = some d → d.isDigit = false := by
    intro d hd
    have hnot := hrest d hd
    rw [Bool.eq_false_iff] at hnot ⊢
    exact fun h ↦ hnot (isIdentifierPart_of_isDigit h)
  obtain ⟨htake, hdrop⟩ := takeWhile_of_stops hcs hstop
  have hdigit := hcs c List.mem_cons_self
  have hpart := isIdentifierPart_of_isDigit hdigit
  rw [read, ofChars?_of_isIdentifierPart hpart]
  simp only [ne_quote_of_isIdentifierPart hpart, if_false, hdigit, if_true]
  rw [ofDigits, ← List.cons_append, htake, hdrop, hn]
  rfl

theorem read_quoted {s : List Char} (hs : ∀ c ∈ s, isLineBreak c = false) :
    Quoted.read (Quoted.escape s ++ '"' :: rest) = ⟨Quoted.escape s ++ ['"'], s, true, rest⟩ := by
  induction s with
  | nil => rfl
  | cons c s ih =>
    obtain ⟨hc, hs⟩ := List.forall_mem_cons.mp hs
    have ih := ih hs
    rw [Quoted.escape]
    split
    · next hspecial =>
      rcases hspecial with rfl | rfl
      · simp only [List.cons_append, Quoted.read, ih]
      · simp only [List.cons_append, Quoted.read, ih]
    · next hplain =>
      rw [not_or] at hplain
      simp only [List.cons_append]
      rw [Quoted.read]
      · simp only [hc, Bool.false_eq_true, if_false, ih]
      · exact hplain.1
      · exact fun _ h ↦ absurd h hplain.2
      · exact fun _ h ↦ absurd h hplain.2

end Lexeme

namespace Code.Piece

open Token (Kind)

def Plain : Piece → Prop
  | name s => IsName s
  | word s => IsWord s
  | literal v => v.Plain
  | sign _ | blank | unknown => True

def EndsBefore (rest : List Char) : Piece → Prop
  | name _ | word _ | literal (.int _) | literal (.bool _) =>
    ∀ c, rest.head? = some c → isIdentifierPart c = false
  | sign p => ∃ c cs, p.text.toList = c :: cs ∧ Punctuation.ofChars? c (cs ++ rest).head? = some p
  | literal (.string _) | blank | unknown => True

def kind : Piece → Kind
  | name s | word s => .ofWord s
  | sign p => .mark p
  | literal (.int _) => .number
  | literal (.bool b) => .word (if b then .trueValue else .falseValue)
  | literal (.string _) => .string
  | blank | unknown => .bad

def value : Piece → Option Value
  | literal (.int n) => some (.int n)
  | literal (.string s) => some (.string s)
  | _ => none

def fault : Piece → Option Cause
  | unknown => some (.badCharacter '?')
  | _ => none

theorem toList_text_int {n : Int32} (hn : 0 ≤ n.toInt) :
    (text (literal (.int n))).toList = Nat.toDigits 10 n.toInt.toNat := by
  obtain ⟨k, hk⟩ := Int.eq_ofNat_of_zero_le hn
  change (toString n.toInt).toList = _
  rw [hk, Int.toNat_natCast]
  change (toString k).toList = _
  rw [Nat.toString_eq_repr, Nat.repr_eq_ofList_toDigits, String.toList_ofList]

theorem read_isWord {s : String} (h : IsWord s) {rest : List Char}
    (hrest : ∀ c, rest.head? = some c → isIdentifierPart c = false) :
    ∃ c cs, s.toList ++ rest = c :: cs ∧ isBlank c = false ∧
      Lexeme.read c cs = ⟨(name s).kind, s.toList, none, none, rest⟩ := by
  obtain ⟨c, cs, hs, hc⟩ := h.start
  have hparts := h.parts
  rw [hs] at hparts ⊢
  refine ⟨c, cs ++ rest, rfl, isBlank_of_isIdentifierPart (isIdentifierPart_of_start hc), ?_⟩
  rw [Lexeme.read_word hc hparts hrest, ← hs, String.ofList_toList]
  rfl

theorem read_piece {p : Piece} {rest : List Char} (hp : p.Plain) (hrest : p.EndsBefore rest)
    (hblank : p ≠ blank) : ∃ c cs, p.text.toList ++ rest = c :: cs ∧ isBlank c = false ∧
      Lexeme.read c cs = ⟨p.kind, p.text.toList, p.value, p.fault, rest⟩ := by
  cases p with
  | name s => exact read_isWord hp.toIsWord hrest
  | word s => exact read_isWord hp hrest
  | sign p =>
    obtain ⟨c, cs, hs, hsign⟩ := hrest
    have hblank : isBlank c = false := by
      have hall : Punctuation.all.all fun p ↦ p.text.toList.all fun c ↦ !isBlank c := by decide +kernel
      have hsigns := List.all_eq_true.mp (List.all_eq_true.mp hall p p.mem_all)
      exact (Bool.not_eq_true' _).mp (hsigns c (hs ▸ List.mem_cons_self))
    refine ⟨c, cs ++ rest, by rw [text, hs]; rfl, hblank, ?_⟩
    have hlength : p.text.length = (c :: cs).length := by rw [← hs, String.length_toList]
    rw [Lexeme.read, hsign]
    simp only [Lexeme.ofPunctuation, hlength, ← List.cons_append, List.take_left, List.drop_left, text, hs]
    rfl
  | literal v =>
    cases v with
    | int n =>
      rw [toList_text_int hp]
      have hdigits : ∀ c ∈ Nat.toDigits 10 n.toInt.toNat, c.isDigit :=
        fun c h ↦ Nat.isDigit_of_mem_toDigits (by decide) (by decide) h
      have hvalue : Decimal.int32? (Nat.toDigits 10 n.toInt.toNat) = some n := Decimal.int32?_toDigits hp
      cases hs : Nat.toDigits 10 n.toInt.toNat with
      | nil => exact absurd hs Nat.toDigits_ne_nil
      | cons c cs =>
        rw [hs] at hdigits hvalue
        have hc := isIdentifierPart_of_isDigit (hdigits c List.mem_cons_self)
        exact ⟨c, cs ++ rest, rfl, isBlank_of_isIdentifierPart hc, Lexeme.read_digits hdigits hvalue hrest⟩
    | bool b =>
      have hword : IsWord (text (literal (.bool b))) := by
        cases b
        · exact .of_all rfl (by decide) rfl
        · exact .of_all rfl (by decide) rfl
      obtain ⟨c, cs, hs, hc, hread⟩ := read_isWord hword hrest
      refine ⟨c, cs, hs, hc, hread.trans ?_⟩
      cases b <;> rfl
    | string s =>
      refine ⟨'"', Quoted.escape s.toList ++ '"' :: rest, ?_, by decide, ?_⟩
      · simp [text, Quoted.encode]
      · change Lexeme.ofQuoted _ = _
        rw [Lexeme.ofQuoted, Lexeme.read_quoted hp]
        simp [text, Quoted.encode, kind, value, fault]
  | blank => exact absurd rfl hblank
  | unknown => exact ⟨'?', rest, rfl, by decide, rfl⟩

/-- Whether a token is what a scan makes of a piece. -/
def IsToken (p : Piece) (t : Token) : Prop := t.kind = p.kind ∧ t.text = p.text ∧ t.value = p.value

theorem kind_name {s : String} (h : IsName s) : (name s).kind = .identifier := by
  rw [kind, Kind.ofWord, h.free]

theorem kind_ne_endOfFile (p : Piece) : p.kind ≠ .endOfFile := by
  cases p with
  | name s | word s =>
    rw [kind, Kind.ofWord]
    split <;> exact Kind.noConfusion
  | literal v => cases v <;> exact Kind.noConfusion
  | sign | blank | unknown => exact Kind.noConfusion

theorem kind_ne_bad {p : Piece} (h : p ≠ blank) (h' : p ≠ unknown) : p.kind ≠ .bad := by
  cases p with
  | name s | word s =>
    rw [kind, Kind.ofWord]
    split <;> exact Kind.noConfusion
  | literal v => cases v <;> exact Kind.noConfusion
  | sign => exact Kind.noConfusion
  | blank => exact absurd rfl h
  | unknown => exact absurd rfl h'

end Code.Piece

def charsOf (ps : List Piece) : List Char := ps.flatMap fun p ↦ p.text.toList

def Readable : List Piece → Prop
  | [] => True
  | p :: rest => p.Plain ∧ p.EndsBefore (charsOf rest) ∧ Readable rest

theorem toList_join (ps : List Piece) : (String.join (ps.map Piece.text)).toList = charsOf ps := by
  rw [String.toList_join, charsOf, List.flatMap_map]

theorem Readable.plain {ps : List Piece} (h : Readable ps) : ∀ p ∈ ps, p.Plain := by
  induction ps with
  | nil => exact List.forall_mem_nil _
  | cons p ps ih => exact List.forall_mem_cons.mpr ⟨h.1, ih h.2.2⟩

theorem Readable.length_le {ps : List Piece} (h : Readable ps) : ps.length ≤ (charsOf ps).length := by
  induction ps with
  | nil => exact Nat.le_refl _
  | cons p ps ih =>
    obtain ⟨hp, hends, hps⟩ := h
    have hne : p.text.toList ≠ [] := by
      by_cases hblank : p = .blank
      · obtain rfl := hblank
        exact List.cons_ne_nil _ _
      · obtain ⟨c, cs, -, -, hread⟩ := p.read_piece hp hends hblank
        have hchars := Lexeme.read_ne_nil c cs
        rwa [hread] at hchars
    have hlength := List.length_pos_iff.mpr hne
    have hrest := ih hps
    change ps.length + 1 ≤ (p.text.toList ++ charsOf ps).length
    rw [List.length_append]
    omega

/-- Tokens that begin with those of some pieces, and go on with others. -/
inductive Along : List Piece → List Token → List Token → Prop
  | nil (ts : List Token) : Along [] ts ts
  | blank {ps : List Piece} {ts us : List Token} (h : Along ps ts us) : Along (.blank :: ps) ts us
  | token {p : Piece} {t : Token} {ps : List Piece} {ts us : List Token} (hp : p ≠ .blank)
      (ht : p.IsToken t) (h : Along ps ts us) : Along (p :: ps) (t :: ts) us

namespace Along

variable {p : Piece} {ps qs : List Piece} {ts us : List Token}

theorem of_append (h : Along (ps ++ qs) ts us) : ∃ vs, Along ps ts vs ∧ Along qs vs us := by
  induction ps generalizing ts with
  | nil => exact ⟨ts, .nil ts, h⟩
  | cons p ps ih =>
    cases h with
    | blank h =>
      obtain ⟨vs, hps, hqs⟩ := ih h
      exact ⟨vs, .blank hps, hqs⟩
    | token hp ht h =>
      obtain ⟨vs, hps, hqs⟩ := ih h
      exact ⟨vs, .token hp ht hps, hqs⟩

theorem of_cons (h : Along (p :: ps) ts us) (hp : p ≠ .blank) :
    ∃ t vs, ts = t :: vs ∧ p.IsToken t ∧ Along ps vs us := by
  cases h with
  | blank => exact absurd rfl hp
  | token _ ht h => exact ⟨_, _, rfl, ht, h⟩

theorem of_blank (h : Along (.blank :: ps) ts us) : Along ps ts us := by
  cases h with
  | blank h => exact h
  | token hp => exact absurd rfl hp

theorem of_nil (h : Along [] ts us) : ts = us := by
  cases h
  rfl

theorem length_le (h : Along ps ts us) : us.length ≤ ts.length := by
  induction h with
  | nil => exact Nat.le_refl _
  | blank _ ih => exact ih
  | token _ _ _ ih => exact Nat.le_succ_of_le ih

theorem kind_ne_bad (h : Along ps ts us) (hps : .unknown ∉ ps) (hus : ∀ t ∈ us, t.kind ≠ .bad) :
    ∀ t ∈ ts, t.kind ≠ .bad := by
  induction h with
  | nil => exact hus
  | blank _ ih => exact ih (fun h ↦ hps (List.mem_cons_of_mem _ h)) hus
  | token hp ht _ ih =>
    rw [List.mem_cons, not_or] at hps
    rw [List.forall_mem_cons, ht.1]
    exact ⟨Piece.kind_ne_bad hp (Ne.symm hps.1), ih hps.2 hus⟩

end Along

namespace ScanPoint

theorem next_blank (o : Nat) (cs : List Char) : next ⟨o, ' ' :: cs⟩ = next ⟨o + 1, cs⟩ := by
  have hskip : skipBlanks ⟨o, ' ' :: cs⟩ = skipBlanks ⟨o + 1, cs⟩ := by
    have hblank : isBlank ' ' = true := rfl
    simp only [skipBlanks, List.takeWhile_cons, List.dropWhile_cons, hblank, if_true, byteLength_cons]
    rw [← Nat.add_assoc]
    rfl
  have hbreaks : breaksLine ⟨o, ' ' :: cs⟩ = breaksLine ⟨o + 1, cs⟩ := rfl
  simp only [next, hskip, hbreaks]

theorem scan_blank (n o : Nat) (cs : List Char) : scan n ⟨o, ' ' :: cs⟩ = scan n ⟨o + 1, cs⟩ := by
  cases n with
  | zero => rw [scan, scan, next_blank]
  | succ n => simp only [scan, next_blank]

theorem next_of_not_blank {o : Nat} {c : Char} {cs : List Char} (hc : isBlank c = false) :
    next ⟨o, c :: cs⟩ =
      (⟨⟨(Lexeme.read c cs).kind, o, String.ofList (Lexeme.read c cs).chars, (Lexeme.read c cs).value, false⟩,
          (Lexeme.read c cs).fault.map (report ⟨(Lexeme.read c cs).kind, o,
            String.ofList (Lexeme.read c cs).chars, (Lexeme.read c cs).value, false⟩)⟩,
        ⟨o + byteLength (Lexeme.read c cs).chars, (Lexeme.read c cs).rest⟩) := by
  simp only [next, skipBlanks, breaksLine, List.takeWhile_cons, List.dropWhile_cons, hc,
    Bool.false_eq_true, if_false, byteLength_nil, Nat.add_zero, List.any_nil]

/-- A scan of readable pieces gives a token for each, and the end. It reports nothing exactly if no piece is
without meaning. -/
theorem scan_pieces {ps : List Piece} (h : Readable ps) {n : Nat} (hn : ps.length ≤ n) (o : Nat) :
    ∃ ts finish, (scan n ⟨o, charsOf ps⟩).map (·.token) = ts ++ [finish] ∧
      finish.kind = .endOfFile ∧ Along ps (ts ++ [finish]) [finish] ∧
      ((scan n ⟨o, charsOf ps⟩).filterMap (·.report) = [] ↔ .unknown ∉ ps) := by
  induction ps generalizing n o with
  | nil =>
    refine ⟨[], ⟨.endOfFile, o, "", none, false⟩, ?_, rfl, .nil _, ?_⟩
    · cases n <;> rfl
    · cases n <;> simp [charsOf, scan, next, skipBlanks]
  | cons p ps ih =>
    obtain ⟨hp, hends, hps⟩ := h
    by_cases hblank : p = .blank
    · obtain rfl := hblank
      obtain ⟨ts, finish, hts, hfinish, halong, hreports⟩ :=
        ih hps (Nat.le_of_succ_le hn) (o + 1)
      have hchars : charsOf (.blank :: ps) = ' ' :: charsOf ps := rfl
      rw [hchars, scan_blank]
      exact ⟨ts, finish, hts, hfinish, .blank halong, by simpa using hreports⟩
    · obtain ⟨n, rfl⟩ := Nat.exists_eq_succ_of_ne_zero (Nat.ne_zero_of_lt hn)
      obtain ⟨c, cs, hchars, hc, hread⟩ := p.read_piece hp hends hblank
      obtain ⟨ts, finish, hts, hfinish, halong, hreports⟩ :=
        ih hps (Nat.le_of_succ_le_succ hn) (o + byteLength p.text.toList)
      have hcons : charsOf (p :: ps) = c :: cs := hchars
      have hnext : next ⟨o, c :: cs⟩ = _ := next_of_not_blank hc
      rw [hread] at hnext
      have hscan : scan (n + 1) ⟨o, charsOf (p :: ps)⟩ =
          (next ⟨o, c :: cs⟩).1 :: scan n ⟨o + byteLength p.text.toList, charsOf ps⟩ := by
        rw [hcons, scan, hnext]
        split
        · next hkind => exact absurd hkind p.kind_ne_endOfFile
        · rfl
      rw [hscan, hnext]
      refine ⟨_ :: ts, finish, congrArg _ hts, hfinish,
        .token hblank ⟨rfl, String.ofList_toList, rfl⟩ halong, ?_⟩
      have hfault : p.fault = none ↔ .unknown ≠ p := by cases p <;> simp [Piece.fault]
      rw [List.mem_cons, not_or, ← ne_eq, ← hfault, ← hreports]
      cases p.fault <;> simp

end ScanPoint

end SmallScript
