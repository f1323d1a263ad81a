import Mathlib.Data.List.Induction
import SmallScript.Prompt.Basic

namespace SmallScript.Prompt

/-- Lines as one text, each of them ended. -/
def joined (lines : List String) : String := String.join (lines.map (· ++ "\n"))

theorem joined_append (a b : List String) : joined (a ++ b) = joined a ++ joined b := by
  simp [joined]

theorem joined_concat (block : List String) (line : String) :
    joined (block ++ [line]) = joined block ++ line ++ "\n" := by
  simp [joined, String.append_assoc]

/-- Lines that are taken together, while none waits before them. -/
inductive Piece
  | blank (line : String)
  | command (line : String)
  | text (lines : List String)

namespace Piece

def lines : Piece → List String
  | blank line | command line => [line]
  | text lines => lines

def entry? : Piece → Option Entry
  | blank _ => none
  | command line => some (.command (.ofLine line))
  | text lines => some (.submission (joined lines))

/-- The lines of a text. -/
def textLines : Piece → List String
  | text lines => lines
  | _ => []

end Piece

/-- Whether a line begins a text where none waits. -/
def Opens (line : String) : Prop := isCommand line = false ∧ isBlankText line = false

/-- Whether a text is handed over: it ends with a blank line, or is complete. -/
def ready (complete : String → Bool) (block : List String) : Bool :=
  block.getLast?.any isBlankText || complete (joined block)

variable {complete : String → Bool}

structure Waits (complete : String → Bool) (block : List String) : Prop where
  opens : ∀ line ∈ block.head?, Opens line
  unready : ∀ b, b <+: block → b ≠ [] → ready complete b = false

/-- The lines of a piece belong together: a text begins with a line of text, and is not handed over before
its last line. -/
def Piece.Proper (complete : String → Bool) : Piece → Prop
  | blank line => isBlankText line ∧ isCommand line = false
  | command line => isCommand line ∧ Command.ofLine line ≠ .quit
  | text lines => lines ≠ [] ∧ (∀ line ∈ lines.head?, Opens line) ∧
    ∀ b, b <+: lines → b ≠ [] → b ≠ lines → ready complete b = false

/-- Whether a piece is done with its last line. -/
def Piece.Done (complete : String → Bool) : Piece → Prop
  | text lines => ready complete lines
  | _ => True

/-- Lines cut into pieces, up to the first command that quits. Only the last text may be handed over
because the lines end. -/
structure Splits (complete : String → Bool) (lines : List String) (pieces : List Piece)
    (rest : List String) : Prop where
  lines_eq : pieces.flatMap Piece.lines ++ rest = lines
  stop : ∀ line ∈ rest.head?, isCommand line ∧ Command.ofLine line = .quit
  proper : ∀ piece ∈ pieces, piece.Proper complete
  done : ∀ before piece after, pieces = before ++ piece :: after →
    piece.Done complete ∨ after = [] ∧ rest = []

theorem Splits.cons {lines : List String} {pieces : List Piece} {rest : List String} {piece : Piece}
    (h : Splits complete lines pieces rest) (hproper : piece.Proper complete) (hdone : piece.Done complete) :
    Splits complete (piece.lines ++ lines) (piece :: pieces) rest where
  lines_eq := by rw [List.flatMap_cons, List.append_assoc, h.lines_eq]
  stop := h.stop
  proper := List.forall_mem_cons.mpr ⟨hproper, h.proper⟩
  done := by
    rintro (_ | ⟨first, before⟩) piece' after heq
    · cases heq
      exact .inl hdone
    · obtain ⟨-, heq⟩ := List.cons.inj heq
      exact h.done before piece' after heq

theorem Splits.nil : Splits complete [] [] [] := ⟨rfl, nofun, nofun, fun _ _ _ h ↦ by simp at h⟩

theorem Splits.quit {line : String} (later : List String) (h : isCommand line)
    (hquit : Command.ofLine line = .quit) : Splits complete (line :: later) [] (line :: later) where
  lines_eq := rfl
  stop := by
    rintro _ ⟨⟩
    exact ⟨h, hquit⟩
  proper := nofun
  done _ _ _ h := by simp at h

/-- The lines of text before the one that quits: all but commands and blank lines where none waits. -/
def kept (complete : String → Bool) : (waiting : String) → List String → List String
  | _, [] => []
  | waiting, line :: later =>
    if waiting = "" ∧ isCommand line then
      if Command.ofLine line = .quit then [] else kept complete "" later
    else if waiting = "" ∧ isBlankText line then kept complete "" later
    else line :: kept complete (Entry.accept complete waiting line).2 later

theorem joined_eq_empty_iff {block : List String} : joined block = "" ↔ block = [] := by
  cases block with
  | nil => simp [joined]
  | cons line block =>
    refine iff_of_false (fun h ↦ ?_) (List.cons_ne_nil line block)
    have h := congrArg String.toList h
    simp [joined] at h

theorem Waits.not_blank {block : List String} (h : Waits complete block) (hne : block ≠ []) :
    isBlankText (joined block) = false := by
  cases block with
  | nil => exact absurd rfl hne
  | cons line block =>
    have hline := (h.opens line rfl).2
    unfold isBlankText at hline ⊢
    simp [joined, hline]

theorem Waits.nil : Waits complete [] := ⟨nofun, fun _ hb hne ↦ absurd (List.prefix_nil.mp hb) hne⟩

theorem not_special {block : List String} {line : String} (h : block = [] → Opens line) :
    ¬ (joined block = "" ∧ isCommand line) ∧ ¬ (joined block = "" ∧ isBlankText line) := by
  constructor
  · rintro ⟨hempty, hcommand⟩
    rw [(h (joined_eq_empty_iff.mp hempty)).1] at hcommand
    nomatch hcommand
  · rintro ⟨hempty, hblank⟩
    rw [(h (joined_eq_empty_iff.mp hempty)).2] at hblank
    nomatch hblank

/-- A line of text goes behind those that wait, and they are handed over or wait on. -/
theorem accept_text {block : List String} {line : String} (h : block = [] → Opens line) :
    Entry.accept complete (joined block) line =
      if ready complete (block ++ [line]) then (some (.submission (joined (block ++ [line]))), "")
      else (none, joined (block ++ [line])) := by
  obtain ⟨hcommand, hblank⟩ := not_special h
  unfold Entry.accept
  rw [if_neg hcommand, if_neg hblank, joined_concat]
  simp [ready, joined_concat]

theorem kept_text {block : List String} {line : String} (h : block = [] → Opens line) (later : List String) :
    kept complete (joined block) (line :: later) =
      line :: kept complete (Entry.accept complete (joined block) line).2 later := by
  obtain ⟨hcommand, hblank⟩ := not_special h
  rw [kept, if_neg hcommand, if_neg hblank]

theorem head?_concat {block : List String} {line : String} (h : Waits complete block)
    (hline : block = [] → Opens line) : ∀ first ∈ (block ++ [line]).head?, Opens first := by
  intro first hfirst
  cases block with
  | nil =>
    cases hfirst
    exact hline rfl
  | cons other block => exact h.opens first hfirst

theorem Waits.concat {block : List String} {line : String} (h : Waits complete block)
    (hline : block = [] → Opens line) (hready : ready complete (block ++ [line]) = false) :
    Waits complete (block ++ [line]) := by
  refine ⟨head?_concat h hline, fun b hb hne ↦ ?_⟩
  rcases List.prefix_concat_iff.mp hb with rfl | hb
  · exact hready
  · exact h.unready b hb hne

theorem Waits.proper {block : List String} (h : Waits complete block) (hne : block ≠ []) :
    (Piece.text block).Proper complete := ⟨hne, h.opens, fun b hb hb' _ ↦ h.unready b hb hb'⟩

theorem Waits.proper_concat {block : List String} {line : String} (h : Waits complete block)
    (hline : block = [] → Opens line) : (Piece.text (block ++ [line])).Proper complete := by
  refine ⟨by simp, head?_concat h hline, fun b hb hne hlt ↦ ?_⟩
  exact h.unready b ((List.prefix_concat_iff.mp hb).resolve_left hlt) hne

theorem Splits.leftover {block : List String} (h : Waits complete block) (hne : block ≠ []) :
    Splits complete block [.text block] [] where
  lines_eq := by simp [Piece.lines]
  stop := nofun
  proper := List.forall_mem_singleton.mpr (h.proper hne)
  done := by
    intro before piece after heq
    cases before with
    | nil =>
      cases heq
      exact .inr ⟨rfl, rfl⟩
    | cons first before => simp at heq

def Divides (complete : String → Bool) (block lines : List String) : Prop :=
  ∃ pieces rest, Splits complete (block ++ lines) pieces rest ∧
    Entry.ofLines complete (joined block) lines = pieces.filterMap Piece.entry? ∧
    block ++ kept complete (joined block) lines = pieces.flatMap Piece.textLines

theorem Divides.cons {block lines later : List String} (piece : Piece) (h : Divides complete [] later)
    (hproper : piece.Proper complete) (hdone : piece.Done complete) (hlines : block ++ lines = piece.lines ++ later)
    (hentry : Entry.ofLines complete (joined block) lines =
      piece.entry?.toList ++ Entry.ofLines complete "" later)
    (hkept : block ++ kept complete (joined block) lines = piece.textLines ++ kept complete "" later) :
    Divides complete block lines := by
  obtain ⟨pieces, rest, hsplits, hentries, htexts⟩ := h
  refine ⟨piece :: pieces, rest, hlines ▸ hsplits.cons hproper hdone, ?_, ?_⟩
  · rw [hentry]
    change _ ++ Entry.ofLines complete (joined []) later = _
    rw [hentries]
    cases piece <;> rfl
  · rw [hkept, List.flatMap_cons, ← htexts]
    rfl

theorem Divides.text {block : List String} {line : String} {later : List String} (h : Waits complete block)
    (hline : block = [] → Opens line)
    (ih : ∀ {block : List String}, Waits complete block → Divides complete block later) :
    Divides complete block (line :: later) := by
  have haccept : Entry.accept complete (joined block) line = _ := accept_text hline
  have hkept : kept complete (joined block) (line :: later) = _ := kept_text hline later
  have hlines : block ++ line :: later = block ++ [line] ++ later := by simp
  by_cases hready : ready complete (block ++ [line])
  · rw [if_pos hready] at haccept
    refine (ih .nil).cons (.text (block ++ [line])) (h.proper_concat hline) hready hlines ?_ ?_
    · rw [Entry.ofLines, haccept]
      rfl
    · rw [hkept, haccept]
      exact List.append_cons block line _
  · rw [if_neg hready] at haccept
    obtain ⟨pieces, rest, hsplits, hentries, htexts⟩ := ih (h.concat hline (Bool.not_eq_true _ ▸ hready))
    refine ⟨pieces, rest, hlines ▸ hsplits, ?_, ?_⟩
    · rw [Entry.ofLines, haccept, ← hentries]
      rfl
    · rw [hkept, haccept, ← htexts]
      exact List.append_cons block line _

theorem Divides.quit {line : String} (hcommand : isCommand line = true) (hquit : Command.ofLine line = .quit)
    (later : List String) : Divides complete [] (line :: later) := by
  refine ⟨[], _, .quit later hcommand hquit, ?_, ?_⟩
  · change Entry.ofLines complete "" (line :: later) = []
    simp [Entry.ofLines, Entry.accept, hcommand, hquit]
  · change kept complete "" (line :: later) = []
    simp [kept, hcommand, hquit]

theorem Divides.command {line : String} {later : List String} (h : Divides complete [] later)
    (hcommand : isCommand line = true) (hquit : Command.ofLine line ≠ .quit) :
    Divides complete [] (line :: later) := by
  refine h.cons (.command line) ⟨hcommand, hquit⟩ trivial rfl ?_ ?_
  · have haccept : Entry.accept complete "" line = (some (.command (.ofLine line)), "") := by
      simp [Entry.accept, hcommand]
    change Entry.ofLines complete "" (line :: later) = _
    rw [Entry.ofLines, haccept]
    split
    · next heq => simp_all
    · next heq =>
      cases heq
      rfl
  · change kept complete "" (line :: later) = kept complete "" later
    simp [kept, hcommand, hquit]

theorem Divides.blank {line : String} {later : List String} (h : Divides complete [] later)
    (hblank : isBlankText line = true) (hcommand : isCommand line = false) :
    Divides complete [] (line :: later) := by
  refine h.cons (.blank line) ⟨hblank, hcommand⟩ trivial rfl ?_ ?_
  · have haccept : Entry.accept complete "" line = (none, "") := by
      simp [Entry.accept, hcommand, hblank]
    change Entry.ofLines complete "" (line :: later) = _
    rw [Entry.ofLines, haccept]
    rfl
  · change kept complete "" (line :: later) = kept complete "" later
    simp [kept, hcommand, hblank]

theorem divides {block : List String} (h : Waits complete block) (lines : List String) :
    Divides complete block lines := by
  induction lines generalizing block with
  | nil =>
    by_cases hne : block = []
    · subst hne
      exact ⟨[], [], .nil, rfl, rfl⟩
    · refine ⟨[.text block], [], ?_, ?_, by simp [kept, Piece.textLines]⟩
      · rw [List.append_nil]
        exact .leftover h hne
      · simp [Entry.ofLines, Entry.leftover, h.not_blank hne, Piece.entry?]
  | cons line later ih =>
    by_cases hopens : block = [] → Opens line
    · exact .text h hopens ih
    · -- Only where none waits can a line be anything else than text.
      obtain ⟨rfl, hspecial⟩ := Classical.not_imp.mp hopens
      by_cases hcommand : isCommand line
      · by_cases hquit : Command.ofLine line = .quit
        · exact .quit hcommand hquit later
        · exact (ih .nil).command hcommand hquit
      · have hplain : isCommand line = false := Bool.not_eq_true _ ▸ hcommand
        cases hblank : isBlankText line with
        | true => exact (ih .nil).blank hblank hplain
        | false => exact absurd ⟨hplain, hblank⟩ hspecial

/-- What waits after some lines, none of which quits. -/
def waitingAfter (complete : String → Bool) (lines : List String) : String :=
  lines.foldl (fun waiting line ↦ (Entry.accept complete waiting line).2) ""

theorem waitingAfter_concat (lines : List String) (line : String) :
    waitingAfter complete (lines ++ [line]) =
      (Entry.accept complete (waitingAfter complete lines) line).2 := by
  simp [waitingAfter]

theorem Waits.of_concat {block : List String} {line : String} (h : Waits complete (block ++ [line])) :
    Waits complete block ∧ (block = [] → Opens line) := by
  refine ⟨⟨fun first hfirst ↦ h.opens first ?_, fun b hb ↦ h.unready b (hb.trans (List.prefix_append _ _))⟩,
    ?_⟩
  · rw [List.head?_append, Option.mem_def.mp hfirst]
    rfl
  · rintro rfl
    exact h.opens line rfl

theorem waitingAfter_of_waits {lines block : List String} (hlines : waitingAfter complete lines = "")
    (h : Waits complete block) : waitingAfter complete (lines ++ block) = joined block := by
  induction block using List.reverseRecOn with
  | nil =>
    rw [List.append_nil, hlines]
    rfl
  | append_singleton block line ih =>
    obtain ⟨hblock, hline⟩ := h.of_concat
    have hready := h.unready _ List.prefix_rfl (by simp)
    rw [← List.append_assoc, waitingAfter_concat, ih hblock, accept_text hline, hready]
    rfl

theorem Piece.Proper.waits {block b : List String} (h : (Piece.text block).Proper complete)
    (hb : b <+: block) (hlt : b ≠ block) : Waits complete b := by
  obtain ⟨-, hopens, hunready⟩ := h
  refine ⟨fun line hline ↦ hopens line ?_, fun b' hb' hne ↦ hunready b' (hb'.trans hb) hne ?_⟩
  · obtain ⟨t, rfl⟩ := hb
    rw [List.head?_append, Option.mem_def.mp hline]
    rfl
  · rintro rfl
    exact hlt (hb.eq_of_length (Nat.le_antisymm hb.length_le hb'.length_le))

theorem waitingAfter_of_done {lines : List String} (hlines : waitingAfter complete lines = "") {piece : Piece}
    (hproper : piece.Proper complete) (hdone : piece.Done complete) :
    waitingAfter complete (lines ++ piece.lines) = "" := by
  cases piece with
  | blank line =>
    obtain ⟨hblank, hcommand⟩ := hproper
    rw [Piece.lines, waitingAfter_concat, hlines, Entry.accept, if_neg (by simp [hcommand]),
      if_pos ⟨rfl, hblank⟩]
  | command line =>
    rw [Piece.lines, waitingAfter_concat, hlines, Entry.accept, if_pos ⟨rfl, hproper.1⟩]
  | text block =>
    obtain ⟨before, line, rfl⟩ := (List.eq_nil_or_concat block).resolve_left hproper.1
    rw [List.concat_eq_append] at *
    have hbefore := hproper.waits (List.prefix_append before [line]) (by simp)
    have hline : before = [] → Opens line := by
      rintro rfl
      exact hproper.2.1 line rfl
    have hready : ready complete (before ++ [line]) := hdone
    rw [Piece.lines, ← List.append_assoc, waitingAfter_concat, waitingAfter_of_waits hlines hbefore,
      accept_text hline, if_pos hready]

theorem waitingAfter_flatMap {pieces : List Piece} (hproper : ∀ piece ∈ pieces, piece.Proper complete)
    (hdone : ∀ piece ∈ pieces, piece.Done complete) :
    waitingAfter complete (pieces.flatMap Piece.lines) = "" := by
  induction pieces using List.reverseRecOn with
  | nil => rfl
  | append_singleton pieces piece ih =>
    rw [List.forall_mem_append, List.forall_mem_singleton] at hproper hdone
    rw [List.flatMap_append, List.flatMap_singleton]
    exact waitingAfter_of_done (ih hproper.1 hdone.1) hproper.2 hdone.2

/-- What waits before a line is just what stands in front of it in its piece. -/
def WaitsInFront (complete : String → Bool) (pieces : List Piece) : Prop :=
  ∀ before piece after b, pieces = before ++ piece :: after → b <+: piece.lines → b ≠ piece.lines →
    waitingAfter complete (before.flatMap Piece.lines ++ b) = joined b

theorem Splits.waitsInFront {lines : List String} {pieces : List Piece} {rest : List String}
    (h : Splits complete lines pieces rest) : WaitsInFront complete pieces := by
  rintro before piece after b heq hb hlt
  have hproper := h.proper
  rw [heq, List.forall_mem_append, List.forall_mem_cons] at hproper
  have hdone : ∀ other ∈ before, other.Done complete := by
    intro other hother
    obtain ⟨s, t, rfl⟩ := List.append_of_mem hother
    refine (h.done s other (t ++ piece :: after) ?_).resolve_right fun h ↦ ?_
    · rw [heq, List.append_assoc, List.cons_append]
    · simp at h
  have hempty := waitingAfter_flatMap hproper.1 hdone
  have hnil (line : String) (hb : b <+: [line]) (hlt : b ≠ [line]) :
      waitingAfter complete (before.flatMap Piece.lines ++ b) = joined b := by
    have hlines : b <+: [] ++ [line] := hb
    obtain rfl := List.prefix_nil.mp ((List.prefix_concat_iff.mp hlines).resolve_left hlt)
    rw [List.append_nil, hempty]
    rfl
  cases piece with
  | blank line | command line => exact hnil line hb hlt
  | text block => exact waitingAfter_of_waits hempty (hproper.2.1.waits hb hlt)

end SmallScript.Prompt
