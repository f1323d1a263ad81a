import SmallScript.Run.Evaluate
import SmallScript.Run.Machine

namespace SmallScript

namespace Run

variable {U V : Prop} {R R' S : Machine → Machine → Prop} {α β : Type}

/-- Results of two runs that end alike, in machines that `S` relates. The first one may be cut short if
`U`, the second one if `V`. -/
inductive Accord (U V : Prop) (S : Machine → Machine → Prop) :
    EStateM.Result Halt Machine α → EStateM.Result Halt Machine α → Prop
  | ok (x : α) {m m' : Machine} (h : S m m') : Accord U V S (.ok x m) (.ok x m')
  | error (e : Halt) {m m' : Machine} (h : S m m') : Accord U V S (.error e m) (.error e m')
  | left (hU : U) (m : Machine) (r : EStateM.Result Halt Machine α) :
      Accord U V S (.error .unfinished m) r
  | right (hV : V) (r : EStateM.Result Halt Machine α) (m : Machine) :
      Accord U V S r (.error .unfinished m)

def Accords (U V : Prop) (R S : Machine → Machine → Prop) (a b : Run α) : Prop :=
  ∀ m m', R m m' → Accord U V S (a m) (b m')

namespace Accords

variable {a b : Run α} {f g : α → Run β}

theorem pure (h : ∀ m m', R m m' → S m m') (x : α) :
    Accords U V R S (pure x) (pure x) := fun m m' hm ↦ .ok x (h m m' hm)

theorem throw (h : ∀ m m', R m m' → S m m') (e : Halt) :
    Accords U V R S (throw e : Run α) (throw e) := fun m m' hm ↦ .error e (h m m' hm)

theorem left (hU : U) (b : Run α) : Accords U V R S (MonadExcept.throw Halt.unfinished) b :=
  fun m m' _ ↦ .left hU m (b m')

theorem right (hV : V) (a : Run α) : Accords U V R S a (MonadExcept.throw Halt.unfinished) :=
  fun m m' _ ↦ .right hV (a m) m'

theorem of_left (h : ∀ m m', R m m' → R' m m') (hab : Accords U V R' S a b) : Accords U V R S a b :=
  fun m m' hm ↦ hab m m' (h m m' hm)

theorem bind (hab : Accords U V R R' a b) (hS : ∀ m m', R' m m' → S m m')
    (hfg : ∀ x, Accords U V R' S (f x) (g x)) : Accords U V R S (a >>= f) (b >>= g) := by
  intro m m' hm
  have h := hab m m' hm
  change Accord U V S (EStateM.bind a f m) (EStateM.bind b g m')
  unfold EStateM.bind
  cases ha : a m with
  | ok x s =>
    cases hb : b m' with
    | ok y s' =>
      rw [ha, hb] at h
      cases h with
      | ok _ hs => exact hfg x s s' hs
    | error e s' =>
      rw [ha, hb] at h
      cases h with
      | right hV => exact .right hV _ s'
  | error e s =>
    rw [ha] at h
    cases hb : b m' with
    | ok y s' =>
      rw [hb] at h
      cases h with
      | left hU => exact .left hU s _
    | error e' s' =>
      rw [hb] at h
      cases h with
      | error _ hs => exact .error e (hS s s' hs)
      | left hU => exact .left hU s _
      | right hV => exact .right hV _ s'

theorem modify_left {h : Machine → Machine} {f : PUnit → Run α} (hR : ∀ m m', R m m' → R' (h m) m')
    (hf : Accords U V R' S (f ⟨⟩) b) : Accords U V R S (modify h >>= f) b :=
  fun m m' hm ↦ hf (h m) m' (hR m m' hm)

theorem modify {h h' : Machine → Machine} (hR : ∀ m m', R m m' → S (h m) (h' m')) :
    Accords U V R S (modify h) (modify h') := fun m m' hm ↦ .ok PUnit.unit (hR m m' hm)

theorem get_bind {f g : Machine → Run α}
    (hfg : ∀ m m', R m m' → Accord U V S (f m m) (g m' m')) :
    Accords U V R S (get >>= f) (get >>= g) := fun m m' hm ↦ hfg m m' hm

theorem ofExcept (h : ∀ m m', R m m' → S m m') (x : Except Fault α) :
    Accords U V R S (ofExcept x) (ofExcept x) := by
  cases x with
  | ok a => exact pure h a
  | error f => exact throw h (.fault f)

theorem congr_left {a' : Run α} (h : ∀ m m', R m m' → a m = a' m) (hab : Accords U V R S a' b) :
    Accords U V R S a b := by
  intro m m' hm
  rw [h m m' hm]
  exact hab m m' hm

end Accords

end Run

open Code (Statement Body Expression)

namespace Nested

open Run (evaluate need needBool ofExcept read write Invoke)

/-- How a statement ends: control goes on behind it, or goes to a label, or leaves the body. -/
inductive Ending
  | on (last : Option Value)
  | jump (l : Label) (last : Option Value)
  | done (result : Option Value)

/-- What follows a statement in a block. -/
def onward (next : Option Value → Run Ending) : Ending → Run Ending
  | .on last => next last
  | ending => return ending

/-- What a loop makes of the end of its body. -/
def follow (x : Exits) (again : Option Value → Run Ending) : Ending → Run Ending
  | .on last => again last
  | .jump l last =>
    if l = x.again then again last
    else if l = x.leave then return .on last
    else return .jump l last
  | .done result => return .done result

/-- At most `n` tests, with a round after each that holds. A round is told how to go on. -/
def turns (test : Run Bool) (round : (Option Value → Run Ending) → Option Value → Run Ending) :
    (n : Nat) → (last : Option Value) → Run Ending
  | 0, _ => throw .unfinished
  | n + 1, last => do if ← test then round (turns test round n) last else return .on last

def atMost (v : Variable) (bound : Value) : Run Bool := do
  needBool (some (← ofExcept (BinaryAction.lessOrEquals.apply (← read v) bound)))

def increment (v : Variable) : Run (Option Value) := do
  let x ← ofExcept (BinaryAction.addition.apply (← read v) (.int 1))
  write v x
  return some x

section Statements

variable (limits : Limits) (invoke : Invoke) (n : Nat)

def test (e : Expression) : Run Bool := do needBool (← evaluate limits invoke e)

def assign (v : Variable) (e : Expression) : Run Value := do
  let x ← need (← evaluate limits invoke e)
  write v x
  return x

mutual

/-- Carries out a statement. No loop makes more than `n` tests. The upper bound of a loop over a range
is a value, kept nowhere else. -/
def statement : Statement → Option Value → Run Ending
  | .block ss, last => statements ss last
  | .declare v e, _ => do return .on (some (← assign limits invoke v e))
  | .ifThen e s, last => do
    if ← test limits invoke e then statement s last else return .on last
  | .ifElse e s s', last => do
    if ← test limits invoke e then statement s last else statement s' last
  | .whileLoop e s x, last =>
    turns (test limits invoke e) (fun go last ↦ statement s last >>= follow x go) n last
  | .doLoop s e x, last => do
    statement s last >>=
      follow x (turns (test limits invoke e) (fun go last ↦ statement s last >>= follow x go) n)
  | .forLoop v lower upper s x, _ => do
    let _ ← assign limits invoke v lower
    let bound ← need (← evaluate limits invoke upper)
    turns (atMost v bound)
      (fun go last ↦ statement s last >>= follow x fun _ ↦ increment v >>= go) n (some bound)
  | .label _, last => return .on last
  | .goto l, last => return .jump l last
  | .gotoIf l e negated, last => do
    if (← test limits invoke e) = negated then return .on last else return .jump l last
  | .leave none, _ => return .done none
  | .leave (some e), _ => do return .done (← evaluate limits invoke e)
  | .expression e, _ => do return .on (← evaluate limits invoke e)

def statements : List Statement → Option Value → Run Ending
  | [], last => return .on last
  | s :: rest, last => statement s last >>= onward (statements rest)

end

/-- What a body makes of the end of its statements. -/
def finish : Ending → Run (Option Value)
  | .on last => return last
  | .jump l _ => Run.fail (.undefinedLabel l.name)
  | .done result => return result

def body (ss : List Statement) : Run (Option Value) := statements limits invoke n ss none >>= finish

end Statements

/-- Calls a declared function of a program. At most `n` calls are active, and no loop makes more than
`n` tests. -/
def call (p : Program) (limits : Limits) : (n : Nat) → Invoke
  | 0, _, _ => throw .unfinished
  | n + 1, f, frame =>
    match p.body? f with
    | none => Run.fail (.missingBody f.name)
    | some ss => do
      let result ← Run.withFrame frame (body limits (call p limits n) n ss)
      return if f.returns = .void then none else result

end Nested

/-- Runs the statements outside functions as they stand. -/
def Program.runNested (p : Program) (limits : Limits) (n : Nat) : Run (Option Value) :=
  Nested.body limits (Nested.call p limits n) n p.main

end SmallScript
