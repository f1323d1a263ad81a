import SmallScript.Code.Flat

namespace SmallScript.Flow

open Code (Statement Body)

def endsBlock : Statement → Bool
  | .goto _ | .gotoIf _ _ _ | .leave _ => true
  | _ => false

def beginsBlock : Statement → Bool
  | .label _ => true
  | _ => false

/-- A block in front of others, if it has statements. -/
def consBlock (block : Body) (blocks : List Body) : List Body :=
  if block.isEmpty then blocks else block :: blocks

/-- The blocks of a body, the first of which has the statements `pending` already. -/
def splitFrom (pending : Body) : Body → List Body
  | [] => consBlock pending []
  | s :: rest =>
    if beginsBlock s then consBlock pending (splitFrom [s] rest)
    else if endsBlock s then (pending ++ [s]) :: splitFrom [] rest
    else splitFrom (pending ++ [s]) rest

def split (body : Body) : List Body := splitFrom [] body

theorem flatten_consBlock (block : Body) (blocks : List Body) :
    (consBlock block blocks).flatten = block ++ blocks.flatten := by
  cases block <;> rfl

theorem flatten_splitFrom (pending body : Body) :
    (splitFrom pending body).flatten = pending ++ body := by
  induction body generalizing pending with
  | nil => simp [splitFrom, flatten_consBlock]
  | cons s rest ih =>
    simp only [splitFrom]
    split
    · simp [flatten_consBlock, ih]
    · split <;> simp [ih]

theorem flatten_split (body : Body) : (split body).flatten = body := flatten_splitFrom [] body

theorem ne_nil_of_mem_splitFrom {pending body block : Body} (h : block ∈ splitFrom pending body) :
    block ≠ [] := by
  induction body generalizing pending with
  | nil =>
    cases pending <;> simp_all [splitFrom, consBlock]
  | cons s rest ih =>
    simp only [splitFrom] at h
    split at h
    · cases pending with
      | nil => exact ih h
      | cons t ts =>
        rcases List.mem_cons.mp h with rfl | h
        · simp
        · exact ih h
    · split at h
      · rcases List.mem_cons.mp h with rfl | h
        · simp
        · exact ih h
      · exact ih h

end SmallScript.Flow
