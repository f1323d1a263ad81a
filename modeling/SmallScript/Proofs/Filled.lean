import Mathlib.Data.List.Induction
import SmallScript.Proofs.Resolve.Braceless
import SmallScript.Proofs.Typing.Soundness

namespace SmallScript

namespace Template

/-- The argument in whose place some characters begin, and its number. -/
def opened? (arguments : List String) (cs : List Char) : Option (String × Nat) :=
  arguments.zipIdx.find? fun (_, i) ↦ (place i).isPrefixOf cs

/-- Fills all places in one pass over a template, after dropping `skip` characters. What is filled in is not looked
at. -/
def fillAtOnce (arguments : List String) : (skip : Nat) → List Char → List Char
  | _, [] => []
  | skip + 1, _ :: rest => fillAtOnce arguments skip rest
  | 0, c :: rest =>
    match opened? arguments (c :: rest) with
    | some (argument, i) => argument.toList ++ fillAtOnce arguments ((place i).length - 1) rest
    | none => c :: fillAtOnce arguments 0 rest

/-- A part of a template. -/
inductive Part
  | char (c : Char)
  | slot (i : Nat)

namespace Part

def text : Part → List Char
  | char c => [c]
  | slot i => place i

def filled (arguments : List String) : Part → List Char
  | char c => [c]
  | slot i => arguments[i]?.elim (place i) String.toList

def isPlain : Part → Bool
  | char c => c != '{'
  | slot _ => true

def slot? : Part → Option Nat
  | char _ => none
  | slot i => some i

end Part

section Place

variable {i j : Nat}

theorem opening_not_mem_tail (i : Nat) : '{' ∉ Nat.toDigits 10 i ++ ['}'] := by
  intro h
  rcases List.mem_append.mp h with h | h
  · exact absurd (Nat.isDigit_of_mem_toDigits (by decide) (by decide) h) (by decide)
  · exact absurd h (by decide)

theorem takeWhile_tail (i : Nat) (cs : List Char) :
    ((Nat.toDigits 10 i ++ ['}']) ++ cs).takeWhile (· ≠ '}') = Nat.toDigits 10 i := by
  have hdigits : ∀ c ∈ Nat.toDigits 10 i, decide (c ≠ '}') := fun c hc ↦ by
    have hdigit := Nat.isDigit_of_mem_toDigits (by decide) (by decide) hc
    exact decide_eq_true fun heq ↦ by
      rw [heq] at hdigit
      exact absurd hdigit (by decide)
  rw [List.append_assoc, List.takeWhile_append_of_pos hdigits]
  exact List.append_nil _

theorem place_isPrefixOf {cs : List Char} : (place j).isPrefixOf (place i ++ cs) ↔ j = i := by
  rw [List.isPrefixOf_iff_prefix]
  constructor
  · rintro ⟨rest, h⟩
    have htails := congrArg (List.takeWhile (· ≠ '}')) (List.cons.inj h).2
    change List.takeWhile (· ≠ '}') ((Nat.toDigits 10 j ++ ['}']) ++ rest) =
      List.takeWhile (· ≠ '}') ((Nat.toDigits 10 i ++ ['}']) ++ cs) at htails
    rw [takeWhile_tail, takeWhile_tail] at htails
    rw [← Nat.ofDigitChars_ten_toDigits (n := j), htails, Nat.ofDigitChars_ten_toDigits]
  · rintro rfl
    exact List.prefix_append _ _

theorem replaceAll_place (h : i ≠ j) (r cs : List Char) :
    replaceAll (place j) r (place i ++ cs) = place i ++ replaceAll (place j) r cs := by
  have hprefix : ¬ (place j).isPrefixOf ('{' :: ((Nat.toDigits 10 i ++ ['}']) ++ cs)) :=
    fun hp ↦ h (place_isPrefixOf.mp hp).symm
  change substitute (place j) r 0 ('{' :: ((Nat.toDigits 10 i ++ ['}']) ++ cs)) = _
  rw [substitute, if_neg hprefix]
  exact congrArg ('{' :: ·) (replaceAll_append_of_not_mem (opening_not_mem_tail i) cs)

end Place

section Fill

variable {arguments : List String} {parts : List Part}

theorem fillOne_filled (hparts : ∀ p ∈ parts, p.isPlain) (harguments : ∀ a ∈ arguments, '{' ∉ a.toList)
    (argument : String) :
    fillOne (parts.flatMap (Part.filled arguments)) argument arguments.length =
      parts.flatMap (Part.filled (arguments ++ [argument])) := by
  unfold fillOne
  induction parts with
  | nil => rfl
  | cons p parts ih =>
    obtain ⟨hp, hparts⟩ := List.forall_mem_cons.mp hparts
    rw [List.flatMap_cons, List.flatMap_cons, ← ih hparts]
    cases p with
    | char c =>
      have hc : '{' ∉ [c] := by simpa using Ne.symm (bne_iff_ne.mp hp)
      exact replaceAll_append_of_not_mem hc _
    | slot i =>
      rcases Nat.lt_trichotomy i arguments.length with hlt | rfl | hgt
      · have hfilled : '{' ∉ Part.filled arguments (.slot i) := by
          simpa [Part.filled, hlt] using harguments _ (List.getElem_mem hlt)
        have heq : Part.filled (arguments ++ [argument]) (.slot i) = Part.filled arguments (.slot i) := by
          simp only [Part.filled, List.getElem?_append_left hlt]
        rw [heq]
        exact replaceAll_append_of_not_mem hfilled _
      · have hnone : Part.filled arguments (.slot arguments.length) = place arguments.length := by
          simp [Part.filled]
        have hsome : Part.filled (arguments ++ [argument]) (.slot arguments.length) = argument.toList := by
          simp [Part.filled]
        rw [hnone, hsome]
        exact replaceAll_append_of_pattern _ _
      · have hnone (as : List String) (h : as.length ≤ i) : Part.filled as (.slot i) = place i := by
          simp [Part.filled, h]
        rw [hnone _ (Nat.le_of_lt hgt), hnone _ (by simpa using Nat.succ_le_of_lt hgt)]
        exact replaceAll_place (Nat.ne_of_gt hgt) _ _

theorem foldl_fillOne (hparts : ∀ p ∈ parts, p.isPlain) (harguments : ∀ a ∈ arguments, '{' ∉ a.toList) :
    arguments.zipIdx.foldl (fun t a ↦ fillOne t a.1 a.2) (parts.flatMap Part.text) =
      parts.flatMap (Part.filled arguments) := by
  induction arguments using List.reverseRecOn with
  | nil =>
    have htext : Part.filled [] = Part.text := by
      funext p
      cases p <;> rfl
    rw [htext]
    rfl
  | append_singleton arguments argument ih =>
    obtain ⟨harguments, -⟩ := List.forall_mem_append.mp harguments
    rw [← fillOne_filled hparts harguments, ← ih harguments, List.zipIdx_append, List.foldl_append, Nat.zero_add]
    rfl

theorem find?_zipIdx (l : List String) (k i : Nat) :
    (l.zipIdx k).find? (fun a ↦ a.2 == k + i) = l[i]?.map fun a ↦ (a, k + i) := by
  induction l generalizing k i with
  | nil => rfl
  | cons a l ih =>
    cases i with
    | zero => simp
    | succ i =>
      have hne : (k == k + (i + 1)) = false := beq_eq_false_iff_ne.mpr (by omega)
      have hstep : k + (i + 1) = k + 1 + i := by omega
      rw [List.zipIdx_cons, List.find?_cons, hne, hstep]
      exact ih (k + 1) i

theorem opened?_place (i : Nat) (cs : List Char) :
    opened? arguments (place i ++ cs) = arguments[i]?.map fun a ↦ (a, i) := by
  have hpredicate : (fun a : String × Nat ↦ (place a.2).isPrefixOf (place i ++ cs)) = fun a ↦ a.2 == 0 + i := by
    funext a
    rw [Bool.eq_iff_iff, place_isPrefixOf, beq_iff_eq, Nat.zero_add]
  change arguments.zipIdx.find? _ = _
  rw [hpredicate, find?_zipIdx, Nat.zero_add]

theorem opened?_of_ne {c : Char} (hc : c ≠ '{') (cs : List Char) : opened? arguments (c :: cs) = none := by
  refine List.find?_eq_none.mpr fun a _ ↦ ?_
  simp [place, Ne.symm hc]

theorem fillAtOnce_drop (skipped cs : List Char) :
    fillAtOnce arguments skipped.length (skipped ++ cs) = fillAtOnce arguments 0 cs := by
  induction skipped with
  | nil => rfl
  | cons c skipped ih => exact ih

theorem fillAtOnce_text (hparts : ∀ p ∈ parts, p.isPlain) (hslots : ∀ i, .slot i ∈ parts → i < arguments.length) :
    fillAtOnce arguments 0 (parts.flatMap Part.text) = parts.flatMap (Part.filled arguments) := by
  induction parts with
  | nil => rfl
  | cons p parts ih =>
    obtain ⟨hp, hparts⟩ := List.forall_mem_cons.mp hparts
    rw [List.flatMap_cons, List.flatMap_cons, ← ih hparts fun i hi ↦ hslots i (List.mem_cons_of_mem p hi)]
    cases p with
    | char c =>
      change fillAtOnce arguments 0 (c :: _) = _
      rw [fillAtOnce, opened?_of_ne (bne_iff_ne.mp hp)]
      rfl
    | slot i =>
      obtain ⟨a, ha⟩ : ∃ a, arguments[i]? = some a := ⟨_, List.getElem?_eq_getElem (hslots i List.mem_cons_self)⟩
      have hopened : opened? arguments ('{' :: ((Nat.toDigits 10 i ++ ['}']) ++ parts.flatMap Part.text)) =
          some (a, i) := (opened?_place i _).trans (by rw [ha, Option.map_some])
      have hfilled : Part.filled arguments (.slot i) = a.toList := by simp [Part.filled, ha]
      change fillAtOnce arguments 0 ('{' :: ((Nat.toDigits 10 i ++ ['}']) ++ parts.flatMap Part.text)) = _
      rw [fillAtOnce, hopened, hfilled]
      exact congrArg (a.toList ++ ·) (fillAtOnce_drop _ _)

theorem exists_slot_of_suffix (hparts : ∀ p ∈ parts, p.isPlain) {cs : List Char}
    (h : '{' :: cs <:+ parts.flatMap Part.text) : ∃ i, .slot i ∈ parts ∧ ∃ rest, '{' :: cs = place i ++ rest := by
  induction parts with
  | nil => exact absurd (List.suffix_nil.mp h) (List.cons_ne_nil _ _)
  | cons p parts ih =>
    obtain ⟨hp, hparts⟩ := List.forall_mem_cons.mp hparts
    have hlater (h : '{' :: cs <:+ parts.flatMap Part.text) :
        ∃ i, .slot i ∈ p :: parts ∧ ∃ rest, '{' :: cs = place i ++ rest := by
      obtain ⟨i, hi, hrest⟩ := ih hparts h
      exact ⟨i, List.mem_cons_of_mem p hi, hrest⟩
    obtain ⟨before, h⟩ := h
    rcases List.append_eq_append_iff.mp h with ⟨begun, htext, hbegun⟩ | ⟨after, -, hafter⟩
    · -- The brace is one of the part, unless nothing is left of this.
      cases begun with
      | nil => exact hlater (hbegun ▸ List.suffix_rfl)
      | cons d begun =>
        obtain rfl := (List.cons.inj hbegun).1
        cases p with
        | char c =>
          have htext : [c] = before ++ '{' :: begun := htext
          have hmem : '{' ∈ [c] := htext ▸ List.mem_append_right before List.mem_cons_self
          exact absurd (List.mem_singleton.mp hmem).symm (bne_iff_ne.mp hp)
        | slot i =>
          cases before with
          | nil => exact ⟨i, List.mem_cons_self, _, hbegun.trans (congrArg (· ++ _) htext.symm)⟩
          | cons d' before =>
            have hmem : '{' ∈ Nat.toDigits 10 i ++ ['}'] :=
              (List.cons.inj htext).2 ▸ List.mem_append_right before List.mem_cons_self
            exact absurd hmem (opening_not_mem_tail i)
    · exact hlater ⟨after, hafter.symm⟩

theorem place_infix_iff (hparts : ∀ p ∈ parts, p.isPlain) {i : Nat} :
    place i <:+: parts.flatMap Part.text ↔ .slot i ∈ parts := by
  constructor
  · intro h
    obtain ⟨cs, hcs, hsuffix⟩ := List.infix_iff_prefix_suffix.mp h
    obtain ⟨rest, rfl⟩ := hcs
    obtain ⟨j, hj, rest', heq⟩ := exists_slot_of_suffix hparts hsuffix
    have hij : (place i).isPrefixOf (place j ++ rest') :=
      List.isPrefixOf_iff_prefix.mpr ⟨rest, heq⟩
    exact place_isPrefixOf.mp hij ▸ hj
  · intro h
    obtain ⟨before, after, rfl⟩ := List.append_of_mem h
    rw [List.flatMap_append, List.flatMap_cons]
    exact ⟨_, _, List.append_assoc _ _ _⟩

end Fill

def parts : List Char → List Part
  | '{' :: digit :: '}' :: rest => .slot (digit.toNat - '0'.toNat) :: parts rest
  | c :: rest => .char c :: parts rest
  | [] => []

end Template

namespace Cause

open Template

theorem parts_template (c : Cause) :
    (parts c.template.toList).flatMap Part.text = c.template.toList ∧
      (parts c.template.toList).all Part.isPlain ∧
      (parts c.template.toList).filterMap Part.slot? = List.range c.arguments.length := by
  -- The kernel is to take the characters of a literal as they stand there, without encoding and decoding them.
  cases c <;> dsimp only [template] <;> rw [String.toList_ofList] <;> exact ⟨rfl, rfl, rfl⟩

theorem slot_mem_parts (c : Cause) {i : Nat} : .slot i ∈ parts c.template.toList ↔ i < c.arguments.length := by
  rw [← List.mem_range, ← (parts_template c).2.2, List.mem_filterMap]
  constructor
  · exact fun h ↦ ⟨_, h, rfl⟩
  · rintro ⟨p, hp, hi⟩
    cases p with
    | char => nomatch hi
    | slot j => exact Option.some.inj hi ▸ hp

theorem isPlain_of_mem_parts (c : Cause) : ∀ p ∈ parts c.template.toList, p.isPlain :=
  List.all_eq_true.mp (parts_template c).2.1

theorem place_infix_template (c : Cause) (i : Nat) :
    place i <:+: c.template.toList ↔ i < c.arguments.length := by
  rw [← (parts_template c).1, place_infix_iff c.isPlain_of_mem_parts, slot_mem_parts]

variable {c : Cause} (h : c.Clear)
include h

theorem Clear.toList_message :
    c.message.toList = (parts c.template.toList).flatMap (Part.filled c.arguments) := by
  rw [message, fill, String.toList_ofList, ← (parts_template c).1, foldl_fillOne c.isPlain_of_mem_parts h,
    (parts_template c).1]

theorem Clear.message_eq : c.message.toList = fillAtOnce c.arguments 0 c.template.toList := by
  have hslots : ∀ i, .slot i ∈ parts c.template.toList → i < c.arguments.length := fun i ↦ c.slot_mem_parts.mp
  rw [h.toList_message, ← fillAtOnce_text c.isPlain_of_mem_parts hslots, (parts_template c).1]

theorem Clear.braceless_message : Braceless c.message := by
  intro hmem
  rw [h.toList_message, List.mem_flatMap] at hmem
  obtain ⟨p, hp, hmem⟩ := hmem
  cases p with
  | char d => exact bne_iff_ne.mp (c.isPlain_of_mem_parts _ hp) (List.mem_singleton.mp hmem).symm
  | slot i =>
    have hi := c.slot_mem_parts.mp hp
    have hfilled : Part.filled c.arguments (.slot i) = c.arguments[i].toList := by simp [Part.filled, hi]
    rw [hfilled] at hmem
    exact h _ (List.getElem_mem hi) hmem

end Cause

theorem Program.clear_functionBodies {layers : Layers} (h : layers.Clear) {ts : List FunctionText}
    (hts : ∀ t ∈ ts, t.Clear) (n : Nat) : ∀ r ∈ (functionBodies layers n ts).2.1, r.cause.Clear := by
  induction ts generalizing n with
  | nil => exact List.forall_mem_nil _
  | cons t ts ih =>
    obtain ⟨ht, hts⟩ := List.forall_mem_cons.mp hts
    exact List.forall_mem_append.mpr ⟨h.body ht n, ih hts _⟩

namespace Compilation

attribute [local irreducible] ofText

variable {c : Compilation} {earlier : List Compilation}

theorem Chain.clear_layers (h : Chain c earlier) : c.layers.Clear := by
  induction h with
  | first text hn =>
    rw [layers_ofText]
    exact Layers.Clear.ofSource ⟨List.forall_mem_nil _, List.forall_mem_nil _⟩ (Tree.cited_ofText text).1 _
  | next h text hn ih =>
    rw [layers_ofText]
    exact ih.ofSource (Tree.cited_ofText text).1 _

theorem Chain.clear_reports (h : Chain c earlier) : ∀ r ∈ c.reports ++ c.program.reports, r.cause.Clear := by
  have hlayers := h.clear_layers
  refine List.forall_mem_append.mpr ⟨List.forall_mem_append.mpr ⟨?_, fun r hr ↦ ?_⟩, ?_⟩
  · obtain ⟨text, layers, n, rfl⟩ := h.exists_ofText
    rw [tree_ofText]
    exact (Tree.cited_ofText text).2
  · obtain ⟨l, hl, hr⟩ := List.mem_flatMap.mp hr
    exact hlayers.reports l (List.mem_reverse.mp hl) r hr
  · obtain ⟨n, hn⟩ := h.program_eq
    rw [hn]
    refine Program.clear_functionBodies hlayers (fun t ht ↦ ?_) n
    obtain ⟨l, hl, ht⟩ := List.mem_flatMap.mp ht
    exact hlayers.functions l hl t ht

/-- The text of each report on a chain of texts, on bodies of functions too, is the template of its cause with all places
filled at once, each by the argument of its number. The template has a place for each argument and none for others, so
no place is left in the text, and none comes into it with an argument. -/
theorem Chain.messages_filled (h : Chain c earlier) :
    ∀ d ∈ c :: earlier, ∀ r ∈ d.reports ++ d.program.reports,
      r.cause.message.toList = Template.fillAtOnce r.cause.arguments 0 r.cause.template.toList ∧
      (∀ i, Template.place i <:+: r.cause.template.toList ↔ i < r.cause.arguments.length) ∧
      ∀ i, ¬ Template.place i <:+: r.cause.message.toList := by
  intro d hd r hr
  obtain ⟨before, hchain, -⟩ := h.of_mem hd
  have hclear := hchain.clear_reports r hr
  exact ⟨hclear.message_eq, r.cause.place_infix_template,
    fun i hi ↦ hclear.braceless_message (hi.subset List.mem_cons_self)⟩

/-- The second text has a place in a string and an opening brace, which nothing cites. -/
theorem Chain.messages_filled_two_texts :
    let first := ofText "function f(a: int, b: int): int \x7b\x7d" [] 3
    let c := ofText "f(1) \"\x7b0\x7d\" + 1 \x7b x # 99999999999" first.layers 6
    let r : Report := ⟨⟨0, 4⟩, .argumentCount "f" 2 1⟩
    Chain c [first] ∧ r ∈ c.reports ++ c.program.reports ∧
      (c.reports ++ c.program.reports).map (·.cause.message) =
        ["bad character input: '#'.", "The number 99999999999 isn't a valid int.",
          "Unexpected token <EndOfFileToken>, expected <CloseBraceToken>.",
          "Function 'f' requires 2 arguments but was given 1.",
          "Binary operator '+' is not defined for types 'string' and 'int'.", "Variable 'x' does not exist.",
          "Not all path return a value."] ∧
      r.cause.message.toList = Template.fillAtOnce ["f", "2", "1"] 0 r.cause.template.toList ∧
      ¬ Template.place 2 <:+: r.cause.message.toList := by
  intro first c r
  have hfirst : first = ofTree (.ofChars _) [] 3 := ofText_ofList ..
  have hc : c = ofTree (.ofChars _) first.layers 6 := ofText_ofList ..
  have hn : first.nextSymbol ≤ 6 := by
    rw [hfirst]
    decide +kernel
  have h : Chain c [first] := .next (.first _ (by decide)) _ hn
  clear_value c first
  have hr : r ∈ c.reports := by
    rw [hc, hfirst]
    decide +kernel
  have hcauses : (c.reports ++ c.program.reports).map (·.cause) =
      [.badCharacter '#', .numeralTooLarge "99999999999", .unexpectedToken .endOfFile (.mark .closeBrace),
        .argumentCount "f" 2 1, .binaryUndefined "+" .string .int, .variableMissing "x", .pathWithoutReturn] := by
    rw [hc, hfirst]
    decide +kernel
  have hmessages (rs : List Report) : rs.map (·.cause.message) = (rs.map (·.cause)).map Cause.message := by
    rw [List.map_map]
    rfl
  obtain ⟨hmessage, -, hnone⟩ := h.messages_filled _ List.mem_cons_self _ (List.mem_append_left _ hr)
  refine ⟨h, List.mem_append_left _ hr, ?_, hmessage, hnone 2⟩
  rw [hmessages, hcauses]
  simp only [List.map_cons, List.map_nil, Cause.message, Cause.template, Template.fill]
  repeat rw [String.toList_ofList]
  decide +kernel

end Compilation

end SmallScript
