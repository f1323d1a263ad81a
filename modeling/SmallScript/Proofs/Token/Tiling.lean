import SmallScript.Token.Scan

namespace SmallScript

/-- A text has a part from the byte `start` on up to the byte `stop`. No character lies across an end. -/
structure IsPart (text : String) (start stop : Nat) (part : String) : Prop where
  le : start ≤ stop
  start_valid : (⟨start⟩ : String.Pos.Raw).IsValid text
  stop_valid : (⟨stop⟩ : String.Pos.Raw).IsValid text
  bytes : text.toByteArray.extract start stop = part.toByteArray

theorem IsPart.of_append {text : String} {before part after : List Char}
    (h : text.toList = before ++ (part ++ after)) :
    IsPart text (byteLength before) (byteLength before + byteLength part) (String.ofList part) := by
  have htext : text = String.ofList before ++ (String.ofList part ++ String.ofList after) := by
    rw [← String.toList_inj]
    simp [h]
  rw [← utf8ByteSize_ofList before, ← utf8ByteSize_ofList part]
  generalize String.ofList before = a, String.ofList part = b, String.ofList after = c at htext
  subst htext
  constructor
  · exact Nat.le_add_right _ _
  · exact String.Pos.Raw.isValid_iff_exists_append.mpr ⟨a, b ++ c, rfl, rfl⟩
  · refine String.Pos.Raw.isValid_iff_exists_append.mpr ⟨a ++ b, c, (String.append_assoc ..).symm, ?_⟩
    rw [String.Pos.Raw.ext_iff]
    exact (String.utf8ByteSize_append ..).symm
  · simp only [← String.size_toByteArray, String.toByteArray_append]
    have hskip := ByteArray.extract_append_size_add (a := a.toByteArray)
      (b := b.toByteArray ++ c.toByteArray) (i := 0) (j := b.toByteArray.size)
    rw [Nat.add_zero] at hskip
    rw [hskip, ByteArray.extract_append_eq_left rfl]

theorem Lexeme.kind_ne_endOfFile (c : Char) (rest : List Char) : (read c rest).kind ≠ .endOfFile := by
  unfold read
  split
  · nofun
  · split
    · nofun
    · split
      · nofun
      · split
        · unfold ofWord
          dsimp only
          split <;> nofun
        · nofun

namespace ScanPoint

/-- Where a scan is after `k` more calls. -/
def later (p : ScanPoint) : (k : Nat) → ScanPoint
  | 0 => p
  | k + 1 => p.next.2.later k

/-- The token that the next call gives. -/
def token (p : ScanPoint) : Token := p.next.1.token

/-- The blanks before the token that the next call gives. -/
def gap (p : ScanPoint) : List Char := p.unread.takeWhile isBlank

def Within (text : String) (p : ScanPoint) : Prop :=
  ∃ before, text.toList = before ++ p.unread ∧ byteLength before = p.offset

variable {p : ScanPoint}

theorem later_succ (p : ScanPoint) (k : Nat) : p.later (k + 1) = (p.later k).next.2 := by
  induction k generalizing p with
  | zero => rfl
  | succ k ih => exact ih p.next.2

theorem isBlank_of_mem_gap {c : Char} (h : c ∈ p.gap) : isBlank c := by
  have hall := List.all_takeWhile (p := isBlank) (l := p.unread)
  exact List.all_eq_true.mp hall c h

theorem breaks_iff (p : ScanPoint) : p.token.afterBreak ↔ ∃ c ∈ p.gap, c = '\n' ∨ c = '\r' := by
  have hbreak : p.token.afterBreak = p.gap.any isLineBreak := by
    unfold token next
    dsimp only
    split <;> rfl
  rw [hbreak, List.any_eq_true]
  simp [isLineBreak]

theorem start_token (p : ScanPoint) : p.token.start = p.offset + byteLength p.gap := by
  unfold token next
  dsimp only
  split <;> rfl

theorem offset_next (p : ScanPoint) :
    p.next.2.offset = p.token.start + byteLength p.token.text.toList := by
  unfold token next
  dsimp only
  split
  · rfl
  · simp

theorem unread_eq (p : ScanPoint) :
    p.unread = p.gap ++ (p.token.text.toList ++ p.next.2.unread) := by
  have hsplit : p.unread = p.gap ++ p.skipBlanks.unread := List.takeWhile_append_dropWhile.symm
  rw [hsplit]
  congr 1
  unfold token next
  dsimp only
  split
  · simp
  · next c rest h => simpa [h] using (Lexeme.read_append c rest).symm

theorem text_token_eq_empty_iff (p : ScanPoint) : p.token.text = "" ↔ p.token.kind = .endOfFile := by
  unfold token next
  dsimp only
  split
  · exact iff_of_true rfl rfl
  · next c rest _ =>
    refine iff_of_false (fun h ↦ Lexeme.read_ne_nil c rest ?_) (Lexeme.kind_ne_endOfFile c rest)
    simpa using congrArg String.toList h

theorem unread_next_of_endOfFile (h : p.token.kind = .endOfFile) : p.next.2.unread = [] := by
  unfold token next at h
  unfold next
  dsimp only at h ⊢
  split
  · next hq => exact hq
  · next c rest hq =>
    rw [hq] at h
    exact absurd h (Lexeme.kind_ne_endOfFile c rest)

theorem kind_token_of_unread (h : p.unread = []) : p.token.kind = .endOfFile := by
  rw [← text_token_eq_empty_iff, ← String.toList_eq_nil_iff]
  have hparts := p.unread_eq
  rw [h] at hparts
  exact (List.append_eq_nil_iff.mp (List.append_eq_nil_iff.mp hparts.symm).2).1

theorem length_unread_next (h : p.token.kind ≠ .endOfFile) :
    p.next.2.unread.length < p.unread.length := by
  have hparts := congrArg List.length p.unread_eq
  have hpos : 0 < p.token.text.toList.length := by
    rw [List.length_pos_iff]
    exact fun hnil ↦ h (p.text_token_eq_empty_iff.mp (String.toList_eq_nil_iff.mp hnil))
  simp only [List.length_append] at hparts
  omega

theorem Within.next {text : String} (h : p.Within text) : p.next.2.Within text := by
  obtain ⟨before, htext, hoffset⟩ := h
  refine ⟨before ++ (p.gap ++ p.token.text.toList), ?_, ?_⟩
  · have hparts := p.unread_eq
    simp only [htext, List.append_assoc, ← hparts]
  · rw [byteLength_append, byteLength_append, hoffset, p.offset_next, p.start_token]
    omega

theorem Within.later {text : String} (h : p.Within text) (k : Nat) : (p.later k).Within text := by
  induction k generalizing p with
  | zero => exact h
  | succ k ih => exact ih h.next

theorem exists_end (p : ScanPoint) :
    ∃ n ≤ p.unread.length, ∀ k, (p.later k).token.kind = .endOfFile ↔ n ≤ k := by
  induction hl : p.unread.length using Nat.strongRecOn generalizing p with
  | ind l ih =>
    by_cases hend : p.token.kind = .endOfFile
    · refine ⟨0, Nat.zero_le l, fun k ↦ iff_of_true ?_ (Nat.zero_le k)⟩
      cases k with
      | zero => exact hend
      | succ k =>
        have hnil : ∀ q : ScanPoint, q.unread = [] → (q.later k).unread = [] := by
          intro q hq
          induction k generalizing q with
          | zero => exact hq
          | succ k ih => exact ih q.next.2 (unread_next_of_endOfFile (kind_token_of_unread hq))
        exact kind_token_of_unread (hnil _ (unread_next_of_endOfFile hend))
    · have hlt := length_unread_next hend
      obtain ⟨n, hn, hiff⟩ := ih _ (hl ▸ hlt) p.next.2 rfl
      refine ⟨n + 1, by omega, fun k ↦ ?_⟩
      cases k with
      | zero => exact iff_of_false hend (by omega)
      | succ k => exact (hiff k).trans (by omega)

theorem scan_eq {n m : Nat} (hnm : n ≤ m)
    (h : ∀ k, (p.later k).token.kind = .endOfFile ↔ n ≤ k) :
    (scan m p).map (·.token) = (List.range (n + 1)).map fun k ↦ (p.later k).token := by
  induction m generalizing n p with
  | zero =>
    obtain rfl := Nat.le_zero.mp hnm
    rfl
  | succ m ih =>
    have hkind : p.next.1.token.kind = .endOfFile ↔ n ≤ 0 := h 0
    cases n with
    | zero =>
      have hend := hkind.mpr (Nat.le_refl 0)
      simp only [scan, hend]
      rfl
    | succ n =>
      have hgo : p.next.1.token.kind ≠ .endOfFile := fun hend ↦ by have := hkind.mp hend; omega
      have hrest := ih (p := p.next.2) (Nat.le_of_succ_le_succ hnm) fun k ↦
        (h (k + 1)).trans Nat.succ_le_succ_iff
      rw [List.range_succ_eq_map, List.map_cons, List.map_map]
      unfold scan
      dsimp only
      split
      · next hend => exact absurd hend hgo
      · rw [List.map_cons, hrest]
        rfl

theorem flatten_later (p : ScanPoint) (k : Nat) :
    ((List.range k).map fun i ↦ (p.later i).gap ++ (p.later i).token.text.toList).flatten
      ++ (p.later k).unread = p.unread := by
  induction k with
  | zero => rfl
  | succ k ih =>
    have hparts := (p.later k).unread_eq
    rw [hparts] at ih
    rw [List.range_succ, List.map_append, List.flatten_append, later_succ]
    simpa using ih

end ScanPoint

/-- Where the scan of a text is after `k` calls. -/
def scanPoint (text : String) (k : Nat) : ScanPoint := ScanPoint.later ⟨0, text.toList⟩ k

/-- The token that the scan of a text gives after `k` others. -/
def tokenAt (text : String) (k : Nat) : Token := (scanPoint text k).token

/-- The blanks before the token that the scan of a text gives after `k` others. -/
def gapAt (text : String) (k : Nat) : String := String.ofList (scanPoint text k).gap

/-- Where the token before ends. -/
def gapStart (text : String) : (k : Nat) → Nat
  | 0 => 0
  | k + 1 => (tokenAt text k).span.stop

/-- The gaps and tokens of a text that ends after `n` tokens lie end to end. -/
structure Tiles (text : String) (n : Nat) : Prop where
  ends : ∀ k, (tokenAt text k).kind = .endOfFile ↔ n ≤ k
  empty : ∀ k, (tokenAt text k).text = "" ↔ n ≤ k
  gap : ∀ k, IsPart text (gapStart text k) (tokenAt text k).start (gapAt text k)
  token : ∀ k, IsPart text (tokenAt text k).start (tokenAt text k).span.stop (tokenAt text k).text
  blank : ∀ k, ∀ c ∈ (gapAt text k).toList, isBlank c
  breaks : ∀ k, (tokenAt text k).afterBreak ↔ ∃ c ∈ (gapAt text k).toList, c = '\n' ∨ c = '\r'
  whole : String.join ((List.range (n + 1)).map fun k ↦ gapAt text k ++ (tokenAt text k).text) = text
  scan : (scan text).map (·.token) = (List.range (n + 1)).map (tokenAt text)

theorem gapStart_eq (text : String) (k : Nat) : gapStart text k = (scanPoint text k).offset := by
  cases k with
  | zero => rfl
  | succ k =>
    have hnext := (scanPoint text k).offset_next
    rw [← utf8ByteSize_ofList, String.ofList_toList] at hnext
    rw [scanPoint, ScanPoint.later_succ]
    exact hnext.symm

theorem stop_tokenAt (text : String) (k : Nat) : (tokenAt text k).span.stop =
    (tokenAt text k).start + byteLength (tokenAt text k).text.toList := by
  rw [← utf8ByteSize_ofList, String.ofList_toList]
  rfl

/-- Scanning loses nothing: after at most as many tokens as the text has characters comes the end and only
the end, and gaps of blanks and tokens make up the text. -/
theorem scan_tiles (text : String) : ∃ n ≤ text.toList.length, Tiles text n := by
  obtain ⟨n, hn, hend⟩ := ScanPoint.exists_end ⟨0, text.toList⟩
  have hwithin (k : Nat) : (scanPoint text k).Within text :=
    ScanPoint.Within.later ⟨[], rfl, rfl⟩ k
  refine ⟨n, hn, hend, fun k ↦ (ScanPoint.text_token_eq_empty_iff _).trans (hend k), fun k ↦ ?_,
    fun k ↦ ?_, fun k c hc ↦ ?_, fun k ↦ ?_, ?_, ScanPoint.scan_eq hn hend⟩
  · obtain ⟨before, htext, hoffset⟩ := hwithin k
    rw [(scanPoint text k).unread_eq] at htext
    have hpart := IsPart.of_append htext
    rw [hoffset] at hpart
    rw [gapStart_eq, tokenAt, ScanPoint.start_token]
    exact hpart
  · obtain ⟨before, htext, hoffset⟩ := hwithin k
    rw [(scanPoint text k).unread_eq, ← List.append_assoc] at htext
    have hpart := IsPart.of_append htext
    rw [byteLength_append, hoffset, ← ScanPoint.start_token, String.ofList_toList] at hpart
    rw [stop_tokenAt]
    exact hpart
  · exact ScanPoint.isBlank_of_mem_gap (by simpa [gapAt] using hc)
  · simpa [gapAt, tokenAt] using (scanPoint text k).breaks_iff
  · have hflatten := ScanPoint.flatten_later ⟨0, text.toList⟩ (n + 1)
    rw [ScanPoint.later_succ, ScanPoint.unread_next_of_endOfFile ((hend n).mpr (Nat.le_refl n)),
      List.append_nil] at hflatten
    rw [← String.toList_inj, String.toList_join, List.flatMap_map, List.flatMap_def]
    simpa [gapAt, tokenAt, scanPoint] using hflatten

end SmallScript
