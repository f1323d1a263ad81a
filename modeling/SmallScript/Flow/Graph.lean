import SmallScript.Code.Printer
import SmallScript.Flow.Blocks
import SmallScript.Text.Lines
import SmallScript.Text.Literal

namespace SmallScript.Flow

open Code (Expression Statement Body)

/-- A way from one block to another. It is taken if the guard is true, always where there is none. -/
structure Branch where
  source : Nat
  target : Nat
  guard : Option Expression

/-- Block zero is the start; the blocks of `inner` follow; the last block is the finish. -/
structure Graph where
  inner : List Body
  branches : List Branch

namespace Branch

/-- The branch without a guard that is true; none if its guard is false. -/
def simplify? (b : Branch) : Option Branch :=
  match b.guard with
  | some (.literal (.bool true)) => some { b with guard := none }
  | some (.literal (.bool false)) => none
  | _ => some b

end Branch

def opposite : Expression → Expression
  | .literal (.bool b) => .literal (.bool !b)
  | e => .unary ⟨.bang, .logicalNegation, .bool⟩ e

/-- The number of the last of some blocks that has a label. The first block is numbered one. -/
def blockOf? (blocks : List Body) (l : Label) : Option Nat :=
  (blocks.zipIdx 1).reverse.findSome? fun (block, i) ↦
    if block.any fun s ↦ match s with | .label m => m == l | _ => false then some i else none

/-- The branches out of the block numbered `i`, among blocks that are `blocks`. There are none to give
if it jumps to a label that no block has. -/
def branchesOf? (blocks : List Body) (i : Nat) (block : Body) : Option (List Branch) :=
  match block.getLast? with
  | none => some []
  | some (.goto l) => (blockOf? blocks l).map fun t ↦ [⟨i, t, none⟩]
  | some (.gotoIf l e negated) =>
    (blockOf? blocks l).map fun t ↦
      let (taken, missed) := if negated then (opposite e, e) else (e, opposite e)
      [⟨i, t, some taken⟩, ⟨i, i + 1, some missed⟩]
  | some (.leave _) => some [⟨i, blocks.length + 1, none⟩]
  | some _ => some [⟨i, i + 1, none⟩]

namespace Graph

def start (_ : Graph) : Nat := 0

def finish (g : Graph) : Nat := g.inner.length + 1

/-- All blocks of a body, reached or not, and the branches whose guard is not false. -/
def full? (body : Body) : Option Graph :=
  let blocks := split body
  let branches? := (blocks.zipIdx 1).mapM fun (block, i) ↦ branchesOf? blocks i block
  branches?.map fun branches ↦
    ⟨blocks, ((⟨0, 1, none⟩ : Branch) :: branches.flatten).filterMap Branch.simplify?⟩

/-- The first inner block outside `gone` that no branch leads to, but from blocks in `gone`. -/
def unreached? (g : Graph) (gone : List Nat) : Option Nat :=
  (List.range' 1 g.inner.length).find? fun i ↦
    !gone.contains i && g.branches.all fun b ↦ b.target != i || gone.contains b.source

/-- Takes away unreached blocks one after the other, at most `n`. -/
def unreached (g : Graph) : (n : Nat) → (gone : List Nat) → List Nat
  | 0, gone => gone
  | n + 1, gone =>
    match g.unreached? gone with
    | none => gone
    | some i => unreached g n (i :: gone)

/-- The graph without some inner blocks and their branches, the other blocks numbered anew. -/
def without (g : Graph) (gone : List Nat) : Graph :=
  let kept := (List.range (g.finish + 1)).filter fun i ↦ !gone.contains i
  let inner := (g.inner.zipIdx 1).filterMap fun (block, i) ↦
    if gone.contains i then none else some block
  let branches := g.branches.filterMap fun b ↦
    if gone.contains b.source || gone.contains b.target then none
    else some ⟨kept.idxOf b.source, kept.idxOf b.target, b.guard⟩
  ⟨inner, branches⟩

def prune (g : Graph) : Graph := g.without (g.unreached g.inner.length [])

/-- The graph of a flat body. There is none if a jump goes to a label that is nowhere. -/
def ofBody? (body : Body) : Option Graph :=
  if body.isFlat then (full? body).map prune else none

/-- The block of a number; start and finish are empty. -/
def block (g : Graph) (i : Nat) : Body :=
  if i = 0 then [] else (g.inner[i - 1]?).getD []

def incoming (g : Graph) (i : Nat) : List Nat :=
  g.branches.zipIdx.filterMap fun (b, n) ↦ if b.target = i then some n else none

def outgoing (g : Graph) (i : Nat) : List Nat :=
  g.branches.zipIdx.filterMap fun (b, n) ↦ if b.source = i then some n else none

def alwaysReturns (g : Graph) : Bool :=
  g.branches.all fun b ↦
    b.target != g.finish ||
      match (g.block b.source).getLast? with
      | some (.leave _) => true
      | _ => false

end Graph

/-- Whether no way through a body passes its last statement. -/
def alwaysReturns (body : Body) : Bool := (Graph.ofBody? body).any Graph.alwaysReturns

open Code (linesText)

namespace DotLabel

/-- The text inside a quoted label. A line feed is written as the escape for a line set to the left. The
backslashes of the text are escaped first, for each escape begins with one. -/
def escape (cs : List Char) : List Char :=
  replaceAll ['\n'] ['\\', 'l'] (replaceAll ['"'] ['\\', '"'] (replaceAll ['\\'] ['\\', '\\'] cs))

/-- A quoted label. Blanks at the end of the text are left out. -/
def quote (text : String) : String :=
  String.ofList ('"' :: (escape (trimEnd text.toList) ++ ['"']))

end DotLabel

namespace Graph

def blockText (g : Graph) (i : Nat) : String :=
  if i = g.start then "<Start>"
  else if i = g.finish then "<End>"
  else String.join ((g.block i).map Code.Statement.text)

def blockLine (g : Graph) (i : Nat) : String :=
  s!"    N{i} [label = {DotLabel.quote (g.blockText i)} shape = box]\n"

def branchLine (b : Branch) : String :=
  let guard := b.guard.elim "" Code.Expression.text
  s!"    N{b.source} -> N{b.target} [label = {DotLabel.quote guard}]\n"

def dot (g : Graph) : String :=
  "digraph G \x7b\n" ++ String.join ((List.range (g.finish + 1)).map g.blockLine)
    ++ String.join (g.branches.map branchLine) ++ "\x7d\n"

end Graph

end SmallScript.Flow
