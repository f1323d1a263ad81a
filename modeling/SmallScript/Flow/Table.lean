import SmallScript.Flow.Graph

namespace SmallScript.Flow

open Code (Body)

/-- A block, with the numbers of the branches into it and out of it. -/
structure Node where
  statements : Body
  incoming : List Nat
  outgoing : List Nat

/-- The first node is the start, the last one the finish. -/
structure Table where
  nodes : List Node
  branches : List Branch

/-- Numbers the places that are kept from `n` on. The others have no number. -/
def numbered (n : Nat) : (keep : List Bool) → List (Option Nat)
  | [] => []
  | true :: rest => some n :: numbered (n + 1) rest
  | false :: rest => none :: numbered n rest

namespace Table

/-- Some blocks between a start and a finish, without branches. -/
def ofBlocks (blocks : List Body) : Table :=
  ⟨⟨[], [], []⟩ :: (blocks.map fun block ↦ ⟨block, [], []⟩) ++ [⟨[], [], []⟩], []⟩

/-- Adds a branch, also to the lists of its two ends, unless its guard is false. -/
def connect (t : Table) (b : Branch) : Table :=
  match b.simplify? with
  | none => t
  | some b =>
    let n := t.branches.length
    let nodes := t.nodes.modify b.source fun v ↦ { v with outgoing := v.outgoing ++ [n] }
    let nodes := nodes.modify b.target fun v ↦ { v with incoming := v.incoming ++ [n] }
    ⟨nodes, t.branches ++ [b]⟩

def build (blocks : List Body) (branches : List Branch) : Table :=
  branches.foldl connect (ofBlocks blocks)

def full? (body : Body) : Option Table :=
  let blocks := split body
  let branches? := (blocks.zipIdx 1).mapM fun (block, i) ↦ branchesOf? blocks i block
  branches?.map fun branches ↦ build blocks (⟨0, 1, none⟩ :: branches.flatten)

def finish (t : Table) : Nat := t.nodes.length - 1

/-- The numbers of the inner blocks that are not taken away. -/
def left (t : Table) (gone : List Nat) : List Nat :=
  (List.range' 1 (t.finish - 1)).filter fun i ↦ !gone.contains i

def incoming (t : Table) (i : Nat) : List Nat := (t.nodes[i]?).elim [] (·.incoming)

def outgoing (t : Table) (i : Nat) : List Nat := (t.nodes[i]?).elim [] (·.outgoing)

/-- The first inner block outside `gone` that no branch leads to. -/
def free? (t : Table) (gone : List Nat) : Option Nat :=
  (t.left gone).find? fun i ↦ (t.incoming i).isEmpty

/-- Takes a branch from the list of the block it leads to. -/
def unlink (t : Table) (n : Nat) : Table :=
  match t.branches[n]? with
  | none => t
  | some b =>
    { t with nodes := t.nodes.modify b.target fun v ↦ { v with incoming := v.incoming.filter (· != n) } }

def cut (t : Table) (i : Nat) : Table :=
  let nodes := t.nodes.modify i fun v ↦ { v with outgoing := [] }
  (t.outgoing i).foldl unlink { t with nodes }

theorem finish_unlink (t : Table) (n : Nat) : (t.unlink n).finish = t.finish := by
  unfold unlink
  split
  · rfl
  · simp [finish]

theorem finish_cut (t : Table) (i : Nat) : (t.cut i).finish = t.finish := by
  have h (ids : List Nat) (t : Table) : (ids.foldl unlink t).finish = t.finish := by
    induction ids generalizing t with
    | nil => rfl
    | cons n ids ih => exact (ih _).trans (finish_unlink t n)
  rw [cut, h]
  simp [finish]

theorem length_left_cons {t : Table} {gone : List Nat} {i : Nat} (h : i ∈ t.left gone) :
    (t.left (i :: gone)).length < (t.left gone).length := by
  have hfilter : t.left (i :: gone) = (t.left gone).filter (· != i) := by
    rw [left, left, List.filter_filter]
    congr 1
    funext j
    rw [List.contains_cons, Bool.not_or]
    rfl
  rw [hfilter]
  exact List.length_filter_lt_length_iff_exists.mpr ⟨i, h, by simp⟩

/-- Takes blocks away that no branch leads to, always the first one, until there is none. Also gives the
numbers of these blocks. -/
def prune (t : Table) (gone : List Nat) : Table × List Nat :=
  match _h : t.free? gone with
  | none => (t, gone)
  | some i => (t.cut i).prune (i :: gone)
termination_by (t.left gone).length
decreasing_by
  have := length_left_cons (List.mem_of_find?_eq_some _h)
  rwa [left, finish_cut]

/-- For each block, whether it stays when those of `gone` are left out. -/
def stays (t : Table) (gone : List Nat) : List Bool :=
  (List.range t.nodes.length).map fun i ↦ !gone.contains i

def place? (t : Table) (gone : List Nat) (i : Nat) : Option Nat := (numbered 0 (t.stays gone))[i]?.join

/-- A branch between the new numbers of its ends, if both stay. -/
def moved? (t : Table) (gone : List Nat) (b : Branch) : Option Branch :=
  match t.place? gone b.source, t.place? gone b.target with
  | some i, some j => some ⟨i, j, b.guard⟩
  | _, _ => none

/-- The new number of a branch whose ends stay. -/
def number? (t : Table) (gone : List Nat) (n : Nat) : Option Nat :=
  (numbered 0 (t.branches.map fun b ↦ (t.moved? gone b).isSome))[n]?.join

/-- Leaves out the blocks of `gone`, and the branches that begin or end there. -/
def compact (t : Table) (gone : List Nat) : Table :=
  let nodes := (t.nodes.zip (t.stays gone)).filterMap fun (v, stays) ↦
    if stays then
      some ⟨v.statements, v.incoming.filterMap (t.number? gone), v.outgoing.filterMap (t.number? gone)⟩
    else none
  ⟨nodes, t.branches.filterMap (t.moved? gone)⟩

/-- The graph of a flat body. There is none if a jump goes to a label that is nowhere. -/
def ofBody? (body : Body) : Option Table :=
  if body.isFlat then
    (full? body).map fun t ↦
      let (t, gone) := t.prune []
      t.compact gone
  else none

/-- Whether each block that leads to the finish ends in a return. -/
def alwaysReturns (t : Table) : Bool :=
  (t.incoming t.finish).all fun n ↦
    match (t.branches[n]?).bind fun b ↦ (t.nodes[b.source]?).bind (·.statements.getLast?) with
    | some (.leave _) => true
    | _ => false

end Table

end SmallScript.Flow
