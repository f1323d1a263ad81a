import SmallScript.Proofs.Tree.Fills

namespace SmallScript.Tree

open Token (Kind)

/-- What may be called while a text is read. -/
inductive Job
  | expression
  | operators (level : Nat)
  | joined (level : Nat) (left : Expression)
  | primary
  | arguments
  | statement
  | statements
  | parameters
  | members

/-- What a job gives. -/
@[reducible]
def Job.Result : Job → Type
  | expression | operators _ | joined _ _ | primary => Expression
  | arguments => List Expression
  | statement => Statement
  | statements => List Statement
  | parameters => List Parameter
  | members => List Member

/-- What to do at a cursor to give an `α`, one thing after the other. -/
inductive Plan (α : Type)
  | done (a : α)
  | see (next : Cursor → Plan α)
  | step (next : Token → Plan α)
  | want (kind : Kind) (next : Token → Plan α)
  | ask (j : Job) (next : j.Result → Plan α)

namespace Plan

variable {α β : Type}

protected def bind : Plan α → (α → Plan β) → Plan β
  | done a, f => f a
  | see next, f => see fun c ↦ (next c).bind f
  | step next, f => step fun t ↦ (next t).bind f
  | want k next, f => want k fun t ↦ (next t).bind f
  | ask j next, f => ask j fun b ↦ (next b).bind f

instance : Monad Plan where
  pure := done
  bind := Plan.bind

def cursor : Plan Cursor := see done

def kind : Plan Kind := see fun c ↦ done c.current.kind

def advance : Plan Token := step done

def take (kind : Kind) : Plan Token := want kind done

def call (j : Job) : Plan j.Result := ask j done

/-- Skips a token unless one was taken since `before` were left. -/
def progress (before : Nat) : Plan Unit := do
  if (← cursor).left = before then
    let _ ← advance

def name : Plan Expression := return .name (← take .identifier)

def typeClause : Plan TypeClause := do
  let colon ← take (.mark .colon)
  let identifier ← take .identifier
  return ⟨colon, identifier⟩

def typeClause? : Plan (Option TypeClause) := do
  if (← kind) = .mark .colon then return some (← typeClause) else return none

def declaration : Plan Statement := do
  let keyword ← advance
  let identifier ← take .identifier
  let clause ← typeClause?
  let equals ← take (.mark .equals)
  let initializer ← call .expression
  return .declare keyword identifier clause equals initializer

def leaving : Plan Statement := do
  let keyword ← advance
  let next := (← cursor).current
  if next.afterBreak || next.kind == .mark .closeBrace || next.kind == .endOfFile then
    return .leave keyword none
  else return .leave keyword (some (← call .expression))

def block : Plan Block := do
  let opening ← take (.mark .openBrace)
  let inner ← call .statements
  let closing ← take (.mark .closeBrace)
  return ⟨opening, inner, closing⟩

def function : Plan Function := do
  let keyword ← advance
  let identifier ← take .identifier
  let opening ← take (.mark .openParenthesis)
  let params ← call .parameters
  let closing ← take (.mark .closeParenthesis)
  let clause ← typeClause?
  let body ← block
  return ⟨keyword, identifier, opening, params, closing, clause, body⟩

def member : Plan Member := do
  if (← kind) = .word .functionHead then return .function (← function)
  else return .statement (← call .statement)

def source : Plan Source := do
  let all ← call .members
  let finish ← take .endOfFile
  return ⟨all, finish⟩

end Plan

open Plan in
/-- The plan of a job: what readers do for it, but for their bounds. -/
def Job.plan : (j : Job) → Plan j.Result
  | expression => do
    if (← kind) = .identifier ∧ (← cursor).nextKind = .mark .equals then
      let identifier ← advance
      let equals ← advance
      return .assign identifier equals (← call .expression)
    else call (.operators 0)
  | operators level => do
    match (← kind).unaryLevel? with
    | some own =>
      if level ≤ own then
        let sign ← advance
        let operand ← call (.operators own)
        call (.joined level (.unary sign operand))
      else call (.joined level (← call .primary))
    | none => call (.joined level (← call .primary))
  | joined level left => do
    match (← kind).binaryLevel? with
    | some own =>
      if level < own then
        let sign ← advance
        let right ← call (.operators own)
        call (.joined level (.binary left sign right))
      else return left
    | none => return left
  | primary => do
    match ← kind with
    | .mark .openParenthesis =>
      let opening ← advance
      let inner ← call .expression
      let closing ← take (.mark .closeParenthesis)
      return .group opening inner closing
    | .word .trueValue => return .literal (← advance) (.bool true)
    | .word .falseValue => return .literal (← advance) (.bool false)
    | .number =>
      let token ← advance
      return .literal token (token.value.getD (.int 0))
    | .string =>
      let token ← advance
      return .literal token (token.value.getD (.string ""))
    | .identifier =>
      if (← cursor).nextKind = .mark .openParenthesis then
        let identifier ← advance
        let opening ← advance
        let args ← call .arguments
        let closing ← take (.mark .closeParenthesis)
        return .call identifier opening args closing
      else name
    | _ => name
  | arguments => do
    let next ← kind
    if next = .mark .closeParenthesis ∨ next = .endOfFile then return []
    else
      let argument ← call .expression
      if (← kind) = .mark .comma then
        let _ ← advance
        return argument :: (← call .arguments)
      else return [argument]
  | statement => do
    match ← kind with
    | .mark .openBrace =>
      let opening ← advance
      let inner ← call .statements
      let closing ← take (.mark .closeBrace)
      return .block opening inner closing
    | .word .letName | .word .varName => declaration
    | .word .ifTest =>
      let keyword ← advance
      let condition ← call .expression
      let branch ← call .statement
      if (← kind) = .word .elseBranch then
        let elseKeyword ← advance
        let otherwise ← call .statement
        return .ifElse keyword condition branch elseKeyword otherwise
      else return .ifThen keyword condition branch
    | .word .whileLoop =>
      let keyword ← advance
      let condition ← call .expression
      let body ← call .statement
      return .whileLoop keyword condition body
    | .word .doLoop =>
      let keyword ← advance
      let body ← call .statement
      let whileKeyword ← take (.word .whileLoop)
      let condition ← call .expression
      return .doLoop keyword body whileKeyword condition
    | .word .forLoop =>
      let keyword ← advance
      let identifier ← take .identifier
      let equals ← take (.mark .equals)
      let lower ← call .expression
      let toKeyword ← take (.word .toBound)
      let upper ← call .expression
      let body ← call .statement
      return .forLoop keyword identifier equals lower toKeyword upper body
    | .word .breakLoop => return .breakLoop (← advance)
    | .word .continueLoop => return .continueLoop (← advance)
    | .word .returnValue => leaving
    | _ => return .expression (← call .expression)
  | statements => do
    let next ← kind
    if next = .mark .closeBrace ∨ next = .endOfFile then return []
    else
      let before := (← cursor).left
      let first ← call .statement
      progress before
      return first :: (← call .statements)
  | parameters => do
    let next ← kind
    if next = .mark .closeParenthesis ∨ next = .endOfFile then return []
    else
      let identifier ← take .identifier
      let clause ← typeClause
      if (← kind) = .mark .comma then
        let _ ← advance
        return ⟨identifier, clause⟩ :: (← call .parameters)
      else return [⟨identifier, clause⟩]
  | members => do
    if (← kind) = .endOfFile then return []
    else
      let before := (← cursor).left
      let first ← member
      progress before
      return first :: (← call .members)

namespace Plan

/-- A plan is carried out from one cursor to another, and so are those of the jobs it calls. -/
inductive Runs : {α : Type} → Plan α → Cursor → α → Cursor → Prop
  | done {α : Type} (a : α) (c : Cursor) : Runs (.done a) c a c
  | see {α : Type} {next : Cursor → Plan α} {c d : Cursor} {a : α} (h : Runs (next c) c a d) :
    Runs (.see next) c a d
  | step {α : Type} {next : Token → Plan α} {c d : Cursor} {a : α}
    (h : Runs (next c.advance.1) c.advance.2 a d) : Runs (.step next) c a d
  | want {α : Type} {k : Kind} {next : Token → Plan α} {c d : Cursor} {a : α}
    (h : Runs (next (c.take k).1) (c.take k).2 a d) : Runs (.want k next) c a d
  | ask {α : Type} {j : Job} {next : j.Result → Plan α} {c c' d : Cursor} {b : j.Result} {a : α}
    (hj : Runs j.plan c b c') (h : Runs (next b) c' a d) : Runs (.ask j next) c a d

/-- Carrying out a plan calls a job at a cursor, after those that it calls before. -/
inductive Calls {α : Type} : Plan α → Cursor → Job → Cursor → Prop
  | see {next : Cursor → Plan α} {c d : Cursor} {j : Job} (h : Calls (next c) c j d) : Calls (.see next) c j d
  | step {next : Token → Plan α} {c d : Cursor} {j : Job} (h : Calls (next c.advance.1) c.advance.2 j d) :
    Calls (.step next) c j d
  | want {k : Kind} {next : Token → Plan α} {c d : Cursor} {j : Job}
    (h : Calls (next (c.take k).1) (c.take k).2 j d) : Calls (.want k next) c j d
  | first (j : Job) (next : j.Result → Plan α) (c : Cursor) : Calls (.ask j next) c j c
  | later {j j' : Job} {next : j.Result → Plan α} {c c' d : Cursor} {b : j.Result} (hj : Runs j.plan c b c')
    (h : Calls (next b) c' j' d) : Calls (.ask j next) c j' d

variable {α β : Type} {p : Plan α} {f : α → Plan β} {a a' : α} {b : β} {c d d' : Cursor} {j : Job}

theorem Runs.bind (h : p.Runs c a d) (hf : (f a).Runs d b d') : (p >>= f).Runs c b d' := by
  induction h with
  | done => exact hf
  | see _ ih => exact .see (ih hf)
  | step _ ih => exact .step (ih hf)
  | want _ ih => exact .want (ih hf)
  | ask hj _ _ ih => exact .ask hj (ih hf)

theorem Runs.unique (h : p.Runs c a d) (h' : p.Runs c a' d') : a = a' ∧ d = d' := by
  induction h generalizing d' with
  | done => cases h' with | done => exact ⟨rfl, rfl⟩
  | see _ ih => cases h' with | see h' => exact ih h'
  | step _ ih => cases h' with | step h' => exact ih h'
  | want _ ih => cases h' with | want h' => exact ih h'
  | ask _ _ ihj ih =>
    cases h' with
    | ask hj' h' =>
      obtain ⟨rfl, rfl⟩ := ihj hj'
      exact ih h'

theorem Calls.kind {f : Kind → Plan β} (h : (f c.current.kind).Calls c j d) : (Plan.kind >>= f).Calls c j d :=
  .see h

theorem Runs.calls (h : p.Runs c a d') (hf : (f a).Calls d' j d) : (p >>= f).Calls c j d := by
  induction h with
  | done => exact hf
  | see _ ih => exact .see (ih hf)
  | step _ ih => exact .step (ih hf)
  | want _ ih => exact .want (ih hf)
  | ask hj _ _ ih => exact .later hj (ih hf)

/-- What a plan calls is called by its first part, or by the second one once the first one is done. -/
theorem calls_bind (h : (p >>= f).Calls c j d) :
    p.Calls c j d ∨ ∃ a c', p.Runs c a c' ∧ (f a).Calls c' j d := by
  induction p generalizing c with
  | done a => exact .inr ⟨a, c, .done a c, h⟩
  | see next ih =>
    cases h with
    | see h => exact (ih c h).imp .see fun ⟨a, c', hruns, h⟩ ↦ ⟨a, c', .see hruns, h⟩
  | step next ih =>
    cases h with
    | step h => exact (ih _ h).imp .step fun ⟨a, c', hruns, h⟩ ↦ ⟨a, c', .step hruns, h⟩
  | want k next ih =>
    cases h with
    | want h => exact (ih _ h).imp .want fun ⟨a, c', hruns, h⟩ ↦ ⟨a, c', .want hruns, h⟩
  | ask j' next ih =>
    cases h with
    | first => exact .inl (.first _ _ _)
    | later hj h => exact (ih _ h).imp (.later hj) fun ⟨a, c', hruns, h⟩ ↦ ⟨a, c', .ask hj hruns, h⟩

end Plan

theorem Cursor.tokens_advance (c : Cursor) : c.advance.2.tokens <:+ c.tokens := by
  unfold advance
  split
  · exact List.suffix_refl _
  · next t rest h => exact ⟨[c.current], congrArg (c.current :: ·) h.symm⟩

theorem Cursor.tokens_take (k : Kind) (c : Cursor) : (c.take k).2.tokens <:+ c.tokens := by
  unfold take
  split
  · exact c.tokens_advance
  · exact List.suffix_refl _

theorem EndsOnce.suffix {ts us : List Token} (h : EndsOnce ts) (hsuffix : us <:+ ts) (hne : us ≠ []) :
    EndsOnce us := by
  induction h with
  | last h =>
    rcases List.suffix_cons_iff.mp hsuffix with rfl | hsuffix
    · exact .last h
    · exact absurd (List.suffix_nil.mp hsuffix) hne
  | cons h hts ih =>
    rcases List.suffix_cons_iff.mp hsuffix with rfl | hsuffix
    · exact .cons h hts
    · exact ih hsuffix

namespace Plan

variable {α : Type} {p : Plan α} {a : α} {c d : Cursor}

theorem Runs.tokens_suffix (h : p.Runs c a d) : d.tokens <:+ c.tokens := by
  induction h with
  | done => exact List.suffix_refl _
  | see _ ih => exact ih
  | step _ ih => exact ih.trans (Cursor.tokens_advance _)
  | want _ ih => exact ih.trans (Cursor.tokens_take _ _)
  | ask _ _ ihj ih => exact ih.trans ihj

theorem Runs.ends (h : p.Runs c a d) (hc : c.Ends) : d.Ends :=
  hc.suffix h.tokens_suffix (List.cons_ne_nil _ _)

theorem Runs.left_le (h : p.Runs c a d) : d.left ≤ c.left :=
  Nat.le_of_succ_le_succ h.tokens_suffix.length_le

end Plan

end SmallScript.Tree
