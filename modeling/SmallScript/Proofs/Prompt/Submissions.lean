import SmallScript.Proofs.Prompt.Lines
import SmallScript.Proofs.Shadowing
import SmallScript.Prompt.Basic

namespace SmallScript

/-- A text handed over at the prompt, what it was compiled to, how its run went, and whether the run asked
for a line. -/
structure Submission where
  text : String
  compilation : Compilation
  outcome : Outcome
  asked : Bool

namespace Submission

/-- Whether nothing was reported and the run came to its end without a fault. -/
def finished (s : Submission) : Bool :=
  match s.outcome with
  | .finished _ => true
  | _ => false

/-- Whether the prompt reads on after the text. -/
def returned (s : Submission) : Bool :=
  !s.asked && match s.outcome with
    | .unfinished => false
    | _ => true

end Submission

namespace Prompt

variable (n : Nat)

def submission (p : Prompt) (text : String) : Submission :=
  let (c, session) := p.session.compile p.session.current text
  let (outcome, session) := session.evaluate (p.options.limits p.chance) n c
  ⟨text, c, if c.reports.isEmpty then outcome else .refused c.reports,
    c.reports.isEmpty && session.console.input.isEmpty⟩

/-- The entries that the prompt comes to: those up to the first text that it does not read on after. -/
def reached : (p : Prompt) → List Entry → List Entry
  | _, [] => []
  | p, entry :: later =>
    match p.enter n entry with
    | some (q, _) => entry :: reached q later
    | none => [entry]

/-- The texts submitted since the last reset, the latest one first, after one more entry. -/
def record (p : Prompt) (log : List Submission) : Entry → List Submission
  | .command .reset => []
  | .command _ => log
  | .submission text => p.submission n text :: log

/-- The texts submitted since the last reset, the latest one first. -/
def recorded : (p : Prompt) → (log : List Submission) → List Entry → List Submission
  | _, log, [] => log
  | p, log, entry :: later =>
    match p.enter n entry with
    | some (q, _) => recorded q (p.record n log entry) later
    | none => p.record n log entry

/-- What the texts that finished were compiled to, the latest one first. -/
def members (log : List Submission) : List Compilation := (log.filter (·.finished)).map (·.compilation)

/-- The next text goes on from those that finished, each of which went on from those before it, and takes numbers
that none of them has. The line that its run can ask for is there. -/
structure GoesOnFrom (p : Prompt) (log : List Submission) : Prop where
  current : p.session.current = (members log).head?
  chain : ∀ c earlier, members log = c :: earlier → Compilation.Chain c earlier
  texts : ∀ s ∈ log, ∃ earlier m, s.compilation = Compilation.ofText s.text earlier m
  symbols : Builtin.firstFree ≤ p.session.nextSymbol
  later : ∀ c ∈ p.session.current, c.nextSymbol ≤ p.session.nextSymbol
  line : p.session.console.input ≠ []

variable {n} {p q : Prompt} {shown : Transcript} {log : List Submission}

theorem submission_compilation (p : Prompt) (n : Nat) (text : String) :
    (p.submission n text).compilation =
      Compilation.ofText text (p.session.current.elim [] (·.layers)) p.session.nextSymbol := rfl

/-- The prompt reads on after a text, with the session that its run left, unless the run did not return. -/
theorem submit_cases (p : Prompt) (n : Nat) (text : String) :
    (p.submission n text).returned = false ∧ p.submit n text = none ∨
      ∃ q shown, (p.submission n text).returned ∧ p.submit n text = some (q, shown) ∧
        q.session.nextSymbol = (p.submission n text).compilation.nextSymbol ∧
        q.session.current = (bif (p.submission n text).finished then some (p.submission n text).compilation
          else p.session.current) ∧
        (p.session.console.input ≠ [] → q.session.console.input ≠ []) := by
  unfold submit submission Session.compile Submission.returned Submission.finished
  dsimp only
  generalize Compilation.ofText text _ _ = c
  cases c.reports.isEmpty with
  | true =>
    unfold Session.evaluate Session.takeOutput
    dsimp only
    generalize Compilation.evaluate c _ n _ _ = e
    cases e.console.input with
    | nil => cases e.outcome <;> exact .inl ⟨rfl, rfl⟩
    | cons line later =>
      cases e.outcome with
      | unfinished => exact .inl ⟨rfl, rfl⟩
      | refused | finished | failed | stuck =>
        exact .inr ⟨_, _, rfl, rfl, rfl, rfl, fun _ ↦ List.cons_ne_nil line later⟩
  | false => exact .inr ⟨_, _, rfl, rfl, rfl, rfl, id⟩

theorem submit_eq_none_iff {text : String} :
    p.submit n text = none ↔ (p.submission n text).returned = false := by
  rcases p.submit_cases n text with ⟨hreturned, hsubmit⟩ | ⟨q, shown, hreturned, hsubmit, -⟩
  · simp [hreturned, hsubmit]
  · simp [hreturned, hsubmit]

theorem session_submit {text : String} (h : p.submit n text = some (q, shown)) :
    q.session.nextSymbol = (p.submission n text).compilation.nextSymbol ∧
      q.session.current = (bif (p.submission n text).finished then some (p.submission n text).compilation
        else p.session.current) ∧
      (p.session.console.input ≠ [] → q.session.console.input ≠ []) := by
  rcases p.submit_cases n text with ⟨-, hsubmit⟩ | ⟨_, _, -, hsubmit, hsession⟩
  · rw [h] at hsubmit
    nomatch hsubmit
  · cases h.symm.trans hsubmit
    exact hsession

attribute [local irreducible] Compilation.ofText

namespace GoesOnFrom

theorem of_current_eq_none (h : p.session.current = none) (hsymbols : Builtin.firstFree ≤ p.session.nextSymbol)
    (hline : p.session.console.input ≠ []) : p.GoesOnFrom [] where
  current := h
  chain c earlier hc := absurd hc.symm (List.cons_ne_nil c earlier)
  texts := List.forall_mem_nil _
  symbols := hsymbols
  later := by
    rw [h]
    exact fun c hc ↦ absurd hc (Option.not_mem_none c)
  line := hline

theorem start (options : Options) (chance : Nat) : (Prompt.start options chance).GoesOnFrom [] :=
  of_current_eq_none rfl (Nat.le_refl 3) (List.cons_ne_nil "" [])

theorem numbered (h : p.GoesOnFrom log) :
    ∃ m ≤ p.session.nextSymbol, Layers.Numbered m (p.session.current.elim [] (·.layers)) := by
  have hcurrent := h.current
  cases hmembers : members log with
  | nil =>
    rw [hmembers] at hcurrent
    exact ⟨_, Nat.le_refl _, by rw [hcurrent]; exact ⟨List.forall_mem_nil _, .nil⟩⟩
  | cons c earlier =>
    rw [hmembers] at hcurrent
    exact ⟨c.nextSymbol, h.later c hcurrent, by rw [hcurrent]; exact (h.chain c earlier hmembers).numbered⟩

theorem chain_submission (h : p.GoesOnFrom log) (n : Nat) (text : String) :
    Compilation.Chain (p.submission n text).compilation (members log) := by
  rw [submission_compilation]
  have hcurrent := h.current
  cases hmembers : members log with
  | nil =>
    rw [hmembers] at hcurrent
    rw [hcurrent]
    exact .first text h.symbols
  | cons c earlier =>
    rw [hmembers] at hcurrent
    rw [hcurrent]
    exact .next (h.chain c earlier hmembers) text (h.later c hcurrent)

theorem submit (h : p.GoesOnFrom log) {text : String} (hsubmit : p.submit n text = some (q, shown)) :
    q.GoesOnFrom (p.submission n text :: log) := by
  have hchain := h.chain_submission n text
  have hmore : p.session.nextSymbol ≤ (p.submission n text).compilation.nextSymbol := by
    obtain ⟨m, hm, hlayers⟩ := h.numbered
    exact Compilation.le_ofText text _ _ hlayers hm
  have hmembers : members (p.submission n text :: log) =
      bif (p.submission n text).finished then (p.submission n text).compilation :: members log
      else members log := by
    unfold members
    rw [List.filter_cons]
    cases (p.submission n text).finished <;> rfl
  have htexts : ∀ s ∈ p.submission n text :: log, ∃ earlier m,
      s.compilation = Compilation.ofText s.text earlier m :=
    List.forall_mem_cons.mpr ⟨⟨_, _, submission_compilation p n text⟩, h.texts⟩
  obtain ⟨hnext, hcurrent, hline⟩ := session_submit hsubmit
  cases hfinished : (p.submission n text).finished
  case true =>
    rw [hfinished, cond_true] at hmembers hcurrent
    refine ⟨by rw [hcurrent, hmembers]; rfl, fun c earlier hc ↦ ?_, htexts, ?_, ?_, hline h.line⟩
    · rw [hmembers] at hc
      cases hc
      exact hchain
    · exact hnext ▸ Nat.le_trans h.symbols hmore
    · rintro c hc
      rw [hcurrent] at hc
      cases hc
      exact Nat.le_of_eq hnext.symm
  case false =>
    rw [hfinished, cond_false] at hmembers hcurrent
    refine ⟨by rw [hcurrent, hmembers, h.current], fun c earlier hc ↦ h.chain c earlier (hmembers ▸ hc),
      htexts, hnext ▸ Nat.le_trans h.symbols hmore, fun c hc ↦ ?_, hline h.line⟩
    rw [hcurrent] at hc
    exact hnext ▸ Nat.le_trans (h.later c hc) hmore

theorem command (h : p.GoesOnFrom log) (n : Nat) (c : Command) :
    (p.obey c).1.GoesOnFrom (p.record n log (.command c)) := by
  cases c with
  | reset => exact of_current_eq_none rfl h.symbols h.line
  | graph function =>
    have hsame : (p.obey (.graph function)).1 = p := by
      unfold obey
      dsimp only
      split
      · rfl
      · split <;> rfl
    rw [hsame]
    exact h
  | quit | toggleTree | unknown word => exact ⟨h.current, h.chain, h.texts, h.symbols, h.later, h.line⟩

theorem enter (h : p.GoesOnFrom log) {entry : Entry} (henter : p.enter n entry = some (q, shown)) :
    q.GoesOnFrom (p.record n log entry) := by
  cases entry with
  | command c =>
    have hq : (p.obey c).1 = q := congrArg Prod.fst (Option.some.inj henter)
    exact hq ▸ h.command n c
  | submission text => exact h.submit henter

theorem enterAll (h : p.GoesOnFrom log) {entries : List Entry} (hall : p.enterAll n entries = some (q, shown)) :
    q.GoesOnFrom (p.recorded n log entries) := by
  induction entries generalizing p log shown with
  | nil =>
    cases hall
    exact h
  | cons entry later ih =>
    obtain ⟨⟨first, _⟩, hfirst, hall⟩ := Option.bind_eq_some_iff.mp hall
    obtain ⟨⟨last, _⟩, hlast, hall⟩ := Option.bind_eq_some_iff.mp hall
    cases hall
    rw [recorded, hfirst]
    exact ih (h.enter hfirst) hlast

end GoesOnFrom

/-- The text of an entry that is one. -/
def Entry.text? : Entry → Option String
  | .command _ => none
  | .submission text => some text

/-- All entries before the last text are ones that the prompt reads on after. -/
def ReadsOn (n : Nat) (p : Prompt) (entries : List Entry) : Prop :=
  ∀ before text after q shown, entries = before ++ .submission text :: after →
    p.enterAll n before = some (q, shown) → after.filterMap Entry.text? ≠ [] → (q.submission n text).returned

theorem join_texts (pieces : List Piece) :
    String.join ((pieces.filterMap Piece.entry?).filterMap Entry.text?) =
      joined (pieces.flatMap Piece.textLines) := by
  induction pieces with
  | nil => rfl
  | cons piece pieces ih =>
    rw [List.flatMap_cons, joined_append, ← ih]
    cases piece with
    | blank line | command line => exact (String.empty_append).symm
    | text block => exact String.join_cons

theorem reached_append {before : List Entry} (h : p.enterAll n before = some (q, shown)) (after : List Entry) :
    p.reached n (before ++ after) = before ++ q.reached n after := by
  induction before generalizing p shown with
  | nil =>
    cases h
    rfl
  | cons entry before ih =>
    obtain ⟨⟨first, _⟩, hfirst, h⟩ := Option.bind_eq_some_iff.mp h
    obtain ⟨⟨last, _⟩, hlast, h⟩ := Option.bind_eq_some_iff.mp h
    cases h
    rw [List.cons_append, reached, hfirst]
    exact congrArg (entry :: ·) (ih hlast)

theorem reached_of_not_returned {before after : List Entry} {text : String}
    (h : p.enterAll n before = some (q, shown)) (htext : (q.submission n text).returned = false) :
    p.reached n (before ++ .submission text :: after) = before ++ [.submission text] := by
  have hnone : q.enter n (.submission text) = none := submit_eq_none_iff.mpr htext
  rw [reached_append h, reached, hnone]

theorem join_of_not_returned {before after : List Entry} {text : String}
    (h : p.enterAll n before = some (q, shown)) (htext : (q.submission n text).returned = false) :
    String.join ((before ++ .submission text :: after).filterMap Entry.text?) =
      String.join ((p.reached n (before ++ .submission text :: after)).filterMap Entry.text?) ++
        String.join (after.filterMap Entry.text?) := by
  rw [reached_of_not_returned h htext, ← String.join_append, ← List.filterMap_append, ← List.append_cons]

/-- The prompt comes to all entries, or stops at the first text that it does not read on after. -/
theorem reached_cases (p : Prompt) (n : Nat) (entries : List Entry) :
    p.reached n entries = entries ∨
      ∃ before text after q shown, entries = before ++ .submission text :: after ∧
        p.enterAll n before = some (q, shown) ∧ (q.submission n text).returned = false := by
  induction entries generalizing p with
  | nil => exact .inl rfl
  | cons entry later ih =>
    cases henter : p.enter n entry with
    | none =>
      cases entry with
      | command c => nomatch henter
      | submission text => exact .inr ⟨[], text, later, p, .silent, rfl, rfl, submit_eq_none_iff.mp henter⟩
    | some r =>
      obtain ⟨q, shown⟩ := r
      rcases ih q with hall | ⟨before, text, after, q', shown', rfl, hbefore, htext⟩
      · refine .inl ?_
        rw [reached, henter]
        exact congrArg (entry :: ·) hall
      · refine .inr ⟨entry :: before, text, after, q', shown ++ shown', rfl, ?_, htext⟩
        rw [enterAll, henter, Option.bind_eq_bind, Option.bind_some]
        change (q.enterAll n before).bind _ = _
        rw [hbefore]
        rfl

theorem reached_isPrefix (p : Prompt) (n : Nat) (entries : List Entry) : p.reached n entries <+: entries := by
  rcases p.reached_cases n entries with hall | ⟨before, text, after, q, shown, rfl, hbefore, htext⟩
  · exact ⟨[], by rw [hall, List.append_nil]⟩
  · rw [reached_of_not_returned hbefore htext]
    exact ⟨after, List.append_assoc before _ after⟩

theorem text_ne_empty {complete : String → Bool} {lines rest : List String} {pieces : List Piece} {text : String}
    (h : Splits complete lines pieces rest) (htext : .submission text ∈ pieces.filterMap Piece.entry?) :
    text ≠ "" := by
  obtain ⟨piece, hpiece, hentry⟩ := List.mem_filterMap.mp htext
  cases piece with
  | blank line => nomatch hentry
  | command line => nomatch hentry
  | text block =>
    cases hentry
    exact mt joined_eq_empty_iff.mp (h.proper _ hpiece).1

/-- Where no text is empty, the texts that the prompt comes to make up all of them only if none is left out. -/
theorem join_reached_eq_iff {entries : List Entry} (h : ∀ text, .submission text ∈ entries → text ≠ "") :
    String.join ((p.reached n entries).filterMap Entry.text?) = String.join (entries.filterMap Entry.text?) ↔
      p.ReadsOn n entries := by
  constructor
  · rintro hjoin before text after q shown rfl hbefore hafter
    by_contra htext
    rw [join_of_not_returned hbefore (Bool.not_eq_true _ ▸ htext)] at hjoin
    have hempty : String.join (after.filterMap Entry.text?) = "" :=
      String.append_eq_left_iff.mp hjoin.symm
    obtain ⟨first, texts, htexts⟩ := List.exists_cons_of_ne_nil hafter
    rw [htexts, String.join_cons, String.append_eq_empty_iff] at hempty
    obtain ⟨entry, hentry, hfirst⟩ := List.mem_filterMap.mp (htexts ▸ List.mem_cons_self)
    cases entry with
    | command c => nomatch hfirst
    | submission first =>
      cases hfirst
      exact h first (List.mem_append_right before (.tail _ hentry)) hempty.1
  · intro hreads
    rcases p.reached_cases n entries with hall | ⟨before, text, after, q, shown, rfl, hbefore, htext⟩
    · rw [hall]
    · have hafter : after.filterMap Entry.text? = [] := by
        by_contra hafter
        exact Bool.false_ne_true (htext.symm.trans (hreads before text after q shown rfl hbefore hafter))
      rw [join_of_not_returned hbefore htext, hafter]
      exact String.append_empty.symm

/-- The piped prompt, whatever counts as complete. Its lines are cut into blank lines, commands and texts up
to the command that quits; before each line there waits just what its piece has in front of it, so that
blank lines are dropped and commands obeyed only where nothing waits; and a text is handed over with its
first line that is blank or makes it complete, or because the lines end. The prompt comes to the entries of
the first pieces, and the texts that it hands over are their lines, in order. These are all lines kept just
if it reads on after every text but the last. After each entry the next text goes on from exactly those
that finished since the last reset. -/
theorem enters_lines (complete : String → Bool) (lines : List String) (options : Options) (chance n : Nat) :
    (∃ pieces rest, Splits complete lines pieces rest ∧ WaitsInFront complete pieces ∧
      Entry.ofLines complete "" lines = pieces.filterMap Piece.entry? ∧
      ∃ read, read <+: pieces ∧
        (start options chance).reached n (Entry.ofLines complete "" lines) = read.filterMap Piece.entry? ∧
        String.join (((start options chance).reached n (Entry.ofLines complete "" lines)).filterMap Entry.text?) =
          joined (read.flatMap Piece.textLines)) ∧
    (String.join (((start options chance).reached n (Entry.ofLines complete "" lines)).filterMap Entry.text?) =
        joined (kept complete "" lines) ↔
      (start options chance).ReadsOn n (Entry.ofLines complete "" lines)) ∧
    ∀ k p shown,
      (start options chance).enterAll n ((Entry.ofLines complete "" lines).take k) = some (p, shown) →
      p.GoesOnFrom ((start options chance).recorded n [] ((Entry.ofLines complete "" lines).take k)) := by
  obtain ⟨pieces, rest, hsplits, hentries, hkept⟩ : Divides complete [] lines := divides .nil lines
  change Entry.ofLines complete "" lines = pieces.filterMap Piece.entry? at hentries
  have hall : joined (kept complete "" lines) = joined (pieces.flatMap Piece.textLines) := congrArg joined hkept
  rw [hentries, hall]
  refine ⟨⟨pieces, rest, hsplits, hsplits.waitsInFront, rfl, ?_⟩, ?_,
    fun k p shown ↦ (GoesOnFrom.start options chance).enterAll⟩
  · obtain ⟨unreached, happend⟩ := reached_isPrefix (start options chance) n (pieces.filterMap Piece.entry?)
    obtain ⟨read, unread, rfl, hread, -⟩ := List.filterMap_eq_append_iff.mp happend.symm
    exact ⟨read, List.prefix_append read unread, hread.symm, hread ▸ join_texts read⟩
  · rw [← join_texts]
    exact join_reached_eq_iff fun text ↦ text_ne_empty hsplits

/-- A run that asks for a line keeps the prompt from all lines behind its text. -/
theorem leaves_lines :
    Entry.ofLines isComplete "" ["var a = input()", "var b = 7", "b"] =
        [.submission "var a = input()\n", .submission "var b = 7\n", .submission "b\n"] ∧
      kept isComplete "" ["var a = input()", "var b = 7", "b"] = ["var a = input()", "var b = 7", "b"] ∧
      ((start .standard 0).submission 100 "var a = input()\n").asked ∧
      (start .standard 0).reached 100 (Entry.ofLines isComplete "" ["var a = input()", "var b = 7", "b"]) =
        [.submission "var a = input()\n"] ∧
      String.join (((start .standard 0).reached 100
          (Entry.ofLines isComplete "" ["var a = input()", "var b = 7", "b"])).filterMap Entry.text?) ≠
        joined (kept isComplete "" ["var a = input()", "var b = 7", "b"]) := by
  have hentries : Entry.ofLines isComplete "" ["var a = input()", "var b = 7", "b"] =
      [.submission "var a = input()\n", .submission "var b = 7\n", .submission "b\n"] := by decide +kernel
  have hkept : kept isComplete "" ["var a = input()", "var b = 7", "b"] =
      ["var a = input()", "var b = 7", "b"] := by decide +kernel
  have hreached : (start .standard 0).reached 100
      [.submission "var a = input()\n", .submission "var b = 7\n", .submission "b\n"] =
        [.submission "var a = input()\n"] := by decide +kernel
  refine ⟨hentries, hkept, by decide +kernel, hentries ▸ hreached, ?_⟩
  rw [hentries, hkept, hreached]
  decide +kernel

/-- A run that prints and one that fails keep no line from the prompt. -/
example : (start .standard 0).reached 100 [.submission "print(\"a\")\n", .submission "1 / 0\n", .submission "b\n"] =
    [.submission "print(\"a\")\n", .submission "1 / 0\n", .submission "b\n"] := by decide +kernel

/-- Within a text, a line that looks like a command is not obeyed. -/
example : Entry.ofLines isComplete "" ["#reset", "", "\x7b", "#quit", "", "1"] =
    [.command .reset, .submission "\x7b\n#quit\n\n", .submission "1\n"] := by decide +kernel

end Prompt

end SmallScript
