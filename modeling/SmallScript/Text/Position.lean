namespace SmallScript

/-- The `length` bytes of a text that begin at `start`. -/
structure Span where
  start : Nat
  length : Nat
  deriving DecidableEq, Repr

namespace Span

def stop (s : Span) : Nat := s.start + s.length

def between (start stop : Nat) : Span := ⟨start, stop - start⟩

def isEmpty (s : Span) : Bool := s.length == 0

/-- The least span around two spans and the gap between them. -/
def union (s t : Span) : Span := between (min s.start t.start) (max s.stop t.stop)

def interval (s : Span) : String := s!"[{s.start}, {s.stop})"

/-- The bounds joined by two dots, as shown in dumps. -/
def bounds (s : Span) : String := s!"{s.start}..{s.stop}"

theorem stop_between {a b : Nat} (h : a ≤ b) : (between a b).stop = b := by
  simp only [stop, between]; omega

theorem start_union (s t : Span) : (s.union t).start = min s.start t.start := rfl

theorem stop_union (s t : Span) : (s.union t).stop = max s.stop t.stop :=
  stop_between (by simp only [stop]; omega)

end Span

def byteLength (cs : List Char) : Nat := cs.foldr (fun c n ↦ c.utf8Size + n) 0

theorem byteLength_nil : byteLength [] = 0 := rfl

theorem byteLength_cons (c : Char) (cs : List Char) :
    byteLength (c :: cs) = c.utf8Size + byteLength cs := rfl

theorem byteLength_append (cs ds : List Char) :
    byteLength (cs ++ ds) = byteLength cs + byteLength ds := by
  induction cs with
  | nil => rw [List.nil_append, byteLength_nil, Nat.zero_add]
  | cons c cs ih => rw [List.cons_append, byteLength_cons, byteLength_cons, ih, Nat.add_assoc]

theorem length_le_byteLength (cs : List Char) : cs.length ≤ byteLength cs := by
  induction cs with
  | nil => exact Nat.le_refl 0
  | cons c cs ih =>
    have := c.utf8Size_pos
    simp only [List.length_cons, byteLength_cons]
    omega

theorem utf8ByteSize_ofList (cs : List Char) : (String.ofList cs).utf8ByteSize = byteLength cs := by
  induction cs with
  | nil => rfl
  | cons c cs ih =>
    have h : String.ofList (c :: cs) = String.singleton c ++ String.ofList cs := by
      rw [← String.toList_inj]; simp
    rw [h, String.utf8ByteSize_append, String.utf8ByteSize_singleton, ih, byteLength_cons]

/-- A line and a byte column, both counted from zero. -/
structure Position where
  line : Nat
  column : Nat
  deriving DecidableEq, Repr

def Position.display (p : Position) : String := s!"({p.line + 1}, {p.column + 1})"

/-- The number from which on `p` fails, between two numbers, if it holds of all numbers below that one. The
stretch where it may lie is halved until nothing is left of it. -/
def partitionPoint (p : Nat → Bool) (low high : Nat) : Nat :=
  if low < high then
    let middle := (low + high) / 2
    if p middle then partitionPoint p (middle + 1) high else partitionPoint p low middle
  else low
termination_by high - low

theorem partitionPoint_eq {p : Nat → Bool} {low high k : Nat} (hlow : low ≤ k) (hhigh : k ≤ high)
    (hbelow : ∀ i, low ≤ i → i < k → p i) (habove : ∀ i, k ≤ i → i < high → p i = false) :
    partitionPoint p low high = k := by
  fun_induction partitionPoint p low high with
  | case1 low high hlt middle hp ih =>
    have hk : middle < k := Nat.lt_of_not_le fun hle ↦ by simp [habove middle hle (by omega)] at hp
    exact ih hk hhigh (fun i hi ↦ hbelow i (by omega)) habove
  | case2 low high hlt middle hp ih =>
    have hk : k ≤ middle := Nat.le_of_not_lt fun hgt ↦ hp (hbelow middle (by omega) hgt)
    exact ih hlow hk hbelow fun i hi hi' ↦ habove i hi (by omega)
  | case3 low high hge => omega

/-- Where the lines of a text begin, in order. The first begins at zero. -/
structure LineMap where
  starts : Array Nat
  deriving DecidableEq, Repr

namespace LineMap

/-- The positions after the line feeds of a text that begins at `offset`. -/
def startsAfter (offset : Nat) : List Char → List Nat
  | [] => []
  | c :: rest =>
    let next := offset + c.utf8Size
    if c = '\n' then next :: startsAfter next rest else startsAfter next rest

def ofText (text : String) : LineMap := ⟨(0 :: startsAfter 0 text.toList).toArray⟩

def lineCount (m : LineMap) : Nat := m.starts.size

def start (m : LineMap) (line : Nat) : Nat := m.starts[line]?.getD 0

/-- The line is the last one that begins at or before the offset. -/
def position (m : LineMap) (offset : Nat) : Position :=
  let line := partitionPoint (fun i ↦ m.start i ≤ offset) 0 m.lineCount - 1
  ⟨line, offset - m.start line⟩

end LineMap

end SmallScript
