import Mathlib.Data.List.TakeWhile
import SmallScript.Flow.Graph
import SmallScript.Text.Lines
import SmallScript.Text.Literal

namespace SmallScript

theorem exists_trimEnd (cs : List Char) : ∃ blanks, cs = trimEnd cs ++ blanks ∧ (∀ c ∈ blanks, isBlank c) ∧
    ∀ c ∈ (trimEnd cs).getLast?, isBlank c = false := by
  refine ⟨(cs.reverse.takeWhile isBlank).reverse, ?_, fun c hc ↦ ?_, fun c hc ↦ ?_⟩
  · rw [trimEnd, ← List.reverse_append, List.takeWhile_append_dropWhile, List.reverse_reverse]
  · exact List.mem_takeWhile_imp (List.mem_reverse.mp hc)
  · rw [trimEnd, List.getLast?_reverse] at hc
    have hhead := List.head?_dropWhile_not isBlank cs.reverse
    rw [hc] at hhead
    simpa using hhead

def EndedLine (line : List Char) : Prop := ∃ body, line = body ++ ['\n'] ∧ '\n' ∉ body

theorem rawLines_append {line : List Char} (h : EndedLine line) (rest : List Char) :
    rawLines (line ++ rest) = line :: rawLines rest := by
  obtain ⟨body, rfl, hbody⟩ := h
  induction body with
  | nil => rfl
  | cons c body ih =>
    obtain ⟨hc, hbody⟩ := not_or.mp (List.mem_cons.not.mp hbody)
    rw [List.cons_append, List.cons_append, rawLines, if_neg (Ne.symm hc), ih hbody]

theorem rawLines_flatten_of_ended {lines : List (List Char)} (h : ∀ line ∈ lines, EndedLine line) :
    rawLines lines.flatten = lines := by
  induction lines with
  | nil => rfl
  | cons line lines ih =>
    obtain ⟨hline, hlines⟩ := List.forall_mem_cons.mp h
    rw [List.flatten_cons, rawLines_append hline, ih hlines]

namespace Flow

namespace DotLabel

def written (c : Char) : List Char :=
  if c = '\\' then ['\\', '\\'] else if c = '"' then ['\\', '"'] else if c = '\n' then ['\\', 'l'] else [c]

/-- One replacement after the other is as good as one pass: none finds what another one wrote. -/
theorem escape_eq (cs : List Char) : escape cs = cs.flatMap written := by
  unfold escape
  rw [replaceAll_singleton, replaceAll_singleton, replaceAll_singleton, List.flatMap_assoc, List.flatMap_assoc]
  congr 1
  funext c
  unfold written
  split
  · next h =>
    subst h
    rfl
  · split
    · next h =>
      subst h
      rfl
    · next hquote => simp [hquote]

/-- The character that a letter stands for after a backslash. -/
def escaped? (c : Char) : Option Char :=
  if c = '\\' ∨ c = '"' then some c else if c = 'l' then some '\n' else none

/-- The text of a label up to its closing quote, and what comes after that. There is none if a line feed or the end
comes first, or a backslash without one of the three letters that may follow it. -/
def readBody : List Char → Option (List Char × List Char)
  | [] => none
  | '\\' :: c :: rest => do
    let d ← escaped? c
    let (ds, rest) ← readBody rest
    some (d :: ds, rest)
  | c :: rest =>
    if c = '"' then some ([], rest)
    else if c = '\n' ∨ c = '\\' then none
    else (readBody rest).map fun (ds, rest) ↦ (c :: ds, rest)

/-- The text of the label at the front of some characters, and what comes after it. -/
def read : List Char → Option (List Char × List Char)
  | '"' :: rest => readBody rest
  | _ => none

theorem readBody_written (c : Char) (cs : List Char) :
    readBody (written c ++ cs) = (readBody cs).map fun (ds, rest) ↦ (c :: ds, rest) := by
  unfold written
  split
  · next h =>
    subst h
    cases h : readBody cs <;> simp [readBody, escaped?, h]
  · split
    · next h =>
      subst h
      cases h : readBody cs <;> simp [readBody, escaped?, h]
    · split
      · next h =>
        subst h
        cases h : readBody cs <;> simp [readBody, escaped?, h]
      · next hslash hquote hfeed =>
        simp [readBody, hslash, hquote, hfeed]

theorem readBody_flatMap (cs rest : List Char) :
    readBody (cs.flatMap written ++ '"' :: rest) = some (cs, rest) := by
  induction cs with
  | nil => simp [readBody]
  | cons c cs ih => rw [List.flatMap_cons, List.append_assoc, readBody_written, ih, Option.map_some]

theorem toList_quote (text : String) :
    (quote text).toList = '"' :: ((trimEnd text.toList).flatMap written ++ ['"']) := by
  rw [quote, escape_eq, String.toList_ofList]

theorem read_quote (text : String) (rest : List Char) :
    read ((quote text).toList ++ rest) = some (trimEnd text.toList, rest) := by
  rw [toList_quote, List.cons_append, List.append_assoc, List.singleton_append, read, readBody_flatMap]

theorem mem_written {c d : Char} (h : d ∈ written c) :
    d = '"' ∨ d = '\\' ∨ d = 'l' ∨ d = c ∧ d ≠ '\n' := by
  unfold written at h
  split at h
  · grind
  · split at h
    · grind
    · split at h <;> grind

/-- A label has the characters of its text but line feeds, and those that its quotes and escapes are made of. -/
theorem mem_quote {text : String} {d : Char} (h : d ∈ (quote text).toList) :
    d = '"' ∨ d = '\\' ∨ d = 'l' ∨ d ∈ text.toList ∧ d ≠ '\n' := by
  rw [toList_quote, List.mem_cons, List.mem_append, List.mem_singleton, List.mem_flatMap] at h
  obtain h | ⟨c, hc, hd⟩ | h := h
  · exact .inl h
  · obtain ⟨blanks, hblanks, -⟩ := exists_trimEnd text.toList
    have hmem : c ∈ text.toList := hblanks ▸ List.mem_append_left blanks hc
    exact (mem_written hd).imp_right (.imp_right (.imp_right fun ⟨heq, hne⟩ ↦ ⟨heq ▸ hmem, hne⟩))
  · exact .inl h

theorem feed_not_mem_quote (text : String) : '\n' ∉ (quote text).toList := fun h ↦ by
  simpa using mem_quote h

theorem return_not_mem_quote {text : String} (h : '\r' ∉ text.toList) : '\r' ∉ (quote text).toList := fun hmem ↦
  h (by simpa using mem_quote hmem)

end DotLabel

namespace Graph

section Unbroken

variable {c : Char} (hc : isLineBreak c)
include hc

theorem not_mem_of_unbroken {cs : List Char} (h : cs.all fun d ↦ !isLineBreak d) : c ∉ cs := fun hmem ↦ by
  simpa [hc] using List.all_eq_true.mp h c hmem

theorem lineBreak_not_mem_toString (n : Nat) : c ∉ (toString n).toList := fun h ↦ by
  have hdigit := Decimal.isDigit_of_mem_toString h
  simp only [isLineBreak, Bool.or_eq_true, beq_iff_eq] at hc
  obtain rfl | rfl := hc <;> exact absurd hdigit (by decide)

end Unbroken

def blockChars (g : Graph) (i : Nat) : List Char :=
  "    N".toList ++ (toString i).toList ++ " [label = ".toList ++ (DotLabel.quote (g.blockText i)).toList
    ++ " shape = box]".toList

theorem toList_blockLine (g : Graph) (i : Nat) : (g.blockLine i).toList = g.blockChars i ++ ['\n'] := by
  unfold blockLine blockChars
  simp only [String.toList_append, List.append_assoc]
  rfl

theorem not_mem_blockChars {g : Graph} {i : Nat} {c : Char} (hc : isLineBreak c)
    (hlabel : c ∉ (DotLabel.quote (g.blockText i)).toList) : c ∉ g.blockChars i := by
  unfold blockChars
  simp only [List.mem_append, not_or]
  exact ⟨⟨⟨⟨not_mem_of_unbroken hc (by decide), lineBreak_not_mem_toString hc i⟩,
    not_mem_of_unbroken hc (by decide)⟩, hlabel⟩, not_mem_of_unbroken hc (by decide)⟩

def branchChars (b : Branch) : List Char :=
  "    N".toList ++ (toString b.source).toList ++ " -> N".toList ++ (toString b.target).toList ++ " [label = ".toList
    ++ (DotLabel.quote (b.guard.elim "" Code.Expression.text)).toList ++ "]".toList

theorem toList_branchLine (b : Branch) : (branchLine b).toList = branchChars b ++ ['\n'] := by
  unfold branchLine branchChars
  simp only [String.toList_append, List.append_assoc]
  rfl

theorem not_mem_branchChars {b : Branch} {c : Char} (hc : isLineBreak c)
    (hlabel : c ∉ (DotLabel.quote (b.guard.elim "" Code.Expression.text)).toList) : c ∉ branchChars b := by
  unfold branchChars
  simp only [List.mem_append, not_or]
  exact ⟨⟨⟨⟨⟨⟨not_mem_of_unbroken hc (by decide), lineBreak_not_mem_toString hc b.source⟩,
    not_mem_of_unbroken hc (by decide)⟩, lineBreak_not_mem_toString hc b.target⟩,
    not_mem_of_unbroken hc (by decide)⟩, hlabel⟩, not_mem_of_unbroken hc (by decide)⟩

/-- The line that opens a graph, one for each block, one for each branch, and the line that closes it. -/
def dotLines (g : Graph) : List String :=
  "digraph G \x7b\n" :: ((List.range (g.finish + 1)).map g.blockLine ++ g.branches.map branchLine ++ ["\x7d\n"])

theorem exists_of_mem_dotLines {g : Graph} {c : Char} (hc : isLineBreak c)
    (hblocks : ∀ i, c ∉ (DotLabel.quote (g.blockText i)).toList)
    (hbranches : ∀ b ∈ g.branches, c ∉ (DotLabel.quote (b.guard.elim "" Code.Expression.text)).toList)
    {line : String} (h : line ∈ g.dotLines) : ∃ body, line.toList = body ++ ['\n'] ∧ c ∉ body := by
  rw [dotLines, List.mem_cons, List.mem_append, List.mem_append, List.mem_singleton] at h
  obtain rfl | (h | h) | rfl := h
  · exact ⟨"digraph G \x7b".toList, rfl, not_mem_of_unbroken hc (by decide)⟩
  · obtain ⟨i, -, rfl⟩ := List.mem_map.mp h
    exact ⟨g.blockChars i, g.toList_blockLine i, not_mem_blockChars hc (hblocks i)⟩
  · obtain ⟨b, hb, rfl⟩ := List.mem_map.mp h
    exact ⟨branchChars b, toList_branchLine b, not_mem_branchChars hc (hbranches b hb)⟩
  · exact ⟨"\x7d".toList, rfl, not_mem_of_unbroken hc (by decide)⟩

theorem toList_dot (g : Graph) : g.dot.toList = (g.dotLines.map String.toList).flatten := by
  simp only [dot, dotLines, String.toList_append, String.toList_join, List.map_cons, List.map_append, List.flatten_cons,
    List.flatten_append, List.map_nil, List.flatten_nil, List.append_nil, List.append_assoc, List.flatMap_def]

theorem rawLines_dot (g : Graph) : rawLines g.dot.toList = g.dotLines.map String.toList := by
  rw [toList_dot]
  refine rawLines_flatten_of_ended fun line hline ↦ ?_
  obtain ⟨l, hl, rfl⟩ := List.mem_map.mp hline
  exact exists_of_mem_dotLines rfl (fun _ ↦ DotLabel.feed_not_mem_quote _) (fun _ _ ↦ DotLabel.feed_not_mem_quote _) hl

theorem return_not_mem_dot {g : Graph} (hblocks : ∀ i, '\r' ∉ (g.blockText i).toList)
    (hguards : ∀ b ∈ g.branches, ∀ e ∈ b.guard, '\r' ∉ e.text.toList) : '\r' ∉ g.dot.toList := fun h ↦ by
  have hbranches : ∀ b ∈ g.branches, '\r' ∉ (DotLabel.quote (b.guard.elim "" Code.Expression.text)).toList := by
    intro b hb
    refine DotLabel.return_not_mem_quote ?_
    cases hguard : b.guard with
    | none => exact List.not_mem_nil
    | some e => exact hguards b hb e hguard
  rw [toList_dot, List.mem_flatten] at h
  obtain ⟨cs, hcs, hreturn⟩ := h
  obtain ⟨line, hline, rfl⟩ := List.mem_map.mp hcs
  obtain ⟨body, hbody, hfree⟩ :=
    exists_of_mem_dotLines rfl (fun i ↦ DotLabel.return_not_mem_quote (hblocks i)) hbranches hline
  rw [hbody, List.mem_append, List.mem_singleton] at hreturn
  exact hreturn.elim hfree (by decide)

/-- For every text: a label of it is one quoted token, whatever comes after, which reads as the text without the blanks
at its end; it has no line feed, and no carriage return unless the text has one. So every graph takes one line for each
of its blocks and branches, and has no carriage return unless one of its texts has. -/
theorem dot_faithful :
    (∀ text : String,
      (∃ blanks, text.toList = trimEnd text.toList ++ blanks ∧ (∀ c ∈ blanks, isBlank c) ∧
        ∀ c ∈ (trimEnd text.toList).getLast?, isBlank c = false) ∧
      (∀ rest, DotLabel.read ((DotLabel.quote text).toList ++ rest) = some (trimEnd text.toList, rest)) ∧
      '\n' ∉ (DotLabel.quote text).toList ∧ ('\r' ∉ text.toList → '\r' ∉ (DotLabel.quote text).toList)) ∧
    ∀ g : Graph, rawLines g.dot.toList = g.dotLines.map String.toList ∧
      ((∀ i, '\r' ∉ (g.blockText i).toList) → (∀ b ∈ g.branches, ∀ e ∈ b.guard, '\r' ∉ e.text.toList) →
        '\r' ∉ g.dot.toList) :=
  ⟨fun text ↦ ⟨exists_trimEnd text.toList, DotLabel.read_quote text, DotLabel.feed_not_mem_quote text,
    DotLabel.return_not_mem_quote⟩, fun g ↦ ⟨g.rawLines_dot, return_not_mem_dot⟩⟩

/-- A text with a backslash before a quote, one before a letter and a line feed before that letter, and a graph with one
block between start and finish. -/
theorem dot_faithful_mixed :
    let text := "a\\\"\nl\\l \n"
    let g : Graph := ⟨[[.expression (.literal (.string "a\"b"))]], [⟨0, 1, none⟩, ⟨1, 2, none⟩]⟩
    DotLabel.quote text = "\"a\\\\\\\"\\ll\\\\l\"" ∧ '\r' ∉ (DotLabel.quote text).toList ∧
      DotLabel.read ((DotLabel.quote text).toList ++ [']']) = some ("a\\\"\nl\\l".toList, [']']) ∧
      (rawLines g.dot.toList).length = 7 := by
  obtain ⟨-, hread, -, hreturn⟩ := dot_faithful.1 "a\\\"\nl\\l \n"
  refine ⟨by decide, hreturn (by decide), hread [']'], ?_⟩
  rw [(dot_faithful.2 _).1]
  rfl

end Graph

end Flow

end SmallScript
