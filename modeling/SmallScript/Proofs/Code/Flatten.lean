import Mathlib.Tactic.Tauto
import SmallScript.Code.Flat

namespace SmallScript.Code

def Supply.skip (u : Supply) (k : Nat) : Supply := { u with labels := u.labels + k }

def Supply.label (u : Supply) (k : Nat) : Label := .made (u.labels + k + 1)

section Equations

variable (u : Supply) (condition : Expression) (s s' : Statement) (x : Exits)

theorem flatten_block (l : List Statement) : (Statement.block l).flatten u = flattenAll l u := rfl

theorem flatten_ifThen :
    (Statement.ifThen condition s).flatten u =
      (.gotoIf (u.label 0) condition true :: (s.flatten (u.skip 1)).1 ++ [.label (u.label 0)],
        (s.flatten (u.skip 1)).2) := rfl

theorem flatten_ifElse :
    (Statement.ifElse condition s s').flatten u =
      (.gotoIf (u.label 0) condition true :: (s.flatten (u.skip 2)).1
          ++ [.goto (u.label 1), .label (u.label 0)]
          ++ (s'.flatten (s.flatten (u.skip 2)).2).1 ++ [.label (u.label 1)],
        (s'.flatten (s.flatten (u.skip 2)).2).2) := rfl

theorem flatten_whileLoop :
    (Statement.whileLoop condition s x).flatten u =
      (flatWhile (u.label 0) condition (s.flatten (u.skip 1)).1 x, (s.flatten (u.skip 1)).2) := rfl

theorem flatten_doLoop :
    (Statement.doLoop s condition x).flatten u =
      (flatDo (u.label 0) (s.flatten (u.skip 1)).1 condition x, (s.flatten (u.skip 1)).2) := rfl

theorem flatten_forLoop (v : Variable) (lower upper : Expression) :
    (Statement.forLoop v lower upper s x).flatten u =
      ([.declare v lower, .declare (makeUpperBound v u).1 upper]
          ++ flatWhile (u.label 1) (atMost v (makeUpperBound v u).1)
            ((s.flatten ((makeUpperBound v u).2.skip 2)).1 ++ [.label x.again, increment v])
            ⟨x.leave, u.label 0⟩,
        (s.flatten ((makeUpperBound v u).2.skip 2)).2) := rfl

theorem flatten_of_isFlat {s : Statement} (h : s.isFlat) : s.flatten u = ([s], u) := by
  cases s <;> first | rfl | nomatch h

theorem flattenAll_nil : flattenAll [] u = ([], u) := rfl

theorem flattenAll_cons (rest : List Statement) :
    flattenAll (s :: rest) u =
      ((s.flatten u).1 ++ (flattenAll rest (s.flatten u).2).1, (flattenAll rest (s.flatten u).2).2) :=
  rfl

end Equations

mutual

theorem Statement.nextSymbol_le : (s : Statement) → (u : Supply) →
    u.nextSymbol ≤ (s.flatten u).2.nextSymbol
  | .block ss, u => nextSymbol_le_all ss u
  | .ifThen _ s, u | .whileLoop _ s _, u | .doLoop s _ _, u => s.nextSymbol_le (u.skip 1)
  | .ifElse _ s s', u =>
    Nat.le_trans (s.nextSymbol_le (u.skip 2)) (s'.nextSymbol_le (s.flatten (u.skip 2)).2)
  | .forLoop v _ _ s _, u =>
    Nat.le_trans (Nat.le_succ _) (s.nextSymbol_le ((makeUpperBound v u).2.skip 2))
  | .declare _ _, _ | .label _, _ | .goto _, _ | .gotoIf _ _ _, _ | .leave _, _
  | .expression _, _ => Nat.le_refl _

theorem nextSymbol_le_all : (ss : List Statement) → (u : Supply) →
    u.nextSymbol ≤ (flattenAll ss u).2.nextSymbol
  | [], _ => Nat.le_refl _
  | s :: rest, u => Nat.le_trans (s.nextSymbol_le u) (nextSymbol_le_all rest (s.flatten u).2)

end

theorem nextSymbol_le_flattenBody (ss : List Statement) (n : Nat) : n ≤ (flattenBody ss n).2 :=
  nextSymbol_le_all ss ⟨0, n⟩

def Statement.jump? : Statement → Option Label
  | .goto l | .gotoIf l _ _ => some l
  | _ => none

def Statement.label? : Statement → Option Label
  | .label l => some l
  | _ => none

namespace Body

def jumps (b : Body) : List Label := b.filterMap Statement.jump?

def labels (b : Body) : List Label := b.filterMap Statement.label?

variable {b c : Body} {s : Statement}

@[simp]
theorem jumps_nil : jumps [] = [] := rfl

@[simp]
theorem labels_nil : labels [] = [] := rfl

@[simp]
theorem jumps_cons : jumps (s :: b) = s.jump?.toList ++ b.jumps := by
  cases h : s.jump? <;> simp [jumps, h]

@[simp]
theorem labels_cons : labels (s :: b) = s.label?.toList ++ b.labels := by
  cases h : s.label? <;> simp [labels, h]

@[simp]
theorem jumps_append : jumps (b ++ c) = b.jumps ++ c.jumps := List.filterMap_append

@[simp]
theorem labels_append : labels (b ++ c) = b.labels ++ c.labels := List.filterMap_append

theorem mem_labels {l : Label} : l ∈ b.labels ↔ .label l ∈ b := by
  refine ⟨?_, fun h ↦ List.mem_filterMap.mpr ⟨_, h, rfl⟩⟩
  intro h
  obtain ⟨s, hs, hl⟩ := List.mem_filterMap.mp h
  cases s <;> simp_all [Statement.label?]

theorem mem_jumps {l : Label} : l ∈ b.jumps ↔ ∃ s ∈ b, s.jump? = some l := List.mem_filterMap

@[simp]
theorem jumps_flatWhile (start : Label) (e : Expression) (x : Exits) :
    jumps (flatWhile start e b x) = x.again :: b.jumps ++ [start] := by
  simp [flatWhile, Statement.jump?]

@[simp]
theorem labels_flatWhile (start : Label) (e : Expression) (x : Exits) :
    labels (flatWhile start e b x) = start :: b.labels ++ [x.again, x.leave] := by
  simp [flatWhile, Statement.label?]

@[simp]
theorem jumps_flatDo (start : Label) (e : Expression) (x : Exits) :
    jumps (flatDo start b e x) = b.jumps ++ [start] := by
  simp [flatDo, Statement.jump?]

@[simp]
theorem labels_flatDo (start : Label) (e : Expression) (x : Exits) :
    labels (flatDo start b e x) = start :: b.labels ++ [x.again, x.leave] := by
  simp [flatDo, Statement.label?]

end Body

def IsExit (loops : List Exits) (l : Label) : Prop := ∃ x ∈ loops, l = x.leave ∨ l = x.again

theorem isExit_cons {x : Exits} {loops : List Exits} {l : Label} :
    IsExit (x :: loops) l ↔ (l = x.leave ∨ l = x.again) ∨ IsExit loops l := by
  simp [IsExit]

mutual

/-- The jumps of a statement go to exits of loops around them, of which `loops` are around the
statement. -/
def Statement.JumpsInside (loops : List Exits) : Statement → Prop
  | .block statements => AllJumpInside loops statements
  | .ifThen _ branch => branch.JumpsInside loops
  | .ifElse _ branch otherwise => branch.JumpsInside loops ∧ otherwise.JumpsInside loops
  | .whileLoop _ body x | .doLoop body _ x | .forLoop _ _ _ body x => body.JumpsInside (x :: loops)
  | .goto l | .gotoIf l _ _ => IsExit loops l
  | .declare _ _ | .label _ | .leave _ | .expression _ => True

def AllJumpInside (loops : List Exits) : List Statement → Prop
  | [] => True
  | s :: rest => s.JumpsInside loops ∧ AllJumpInside loops rest

end

mutual

theorem Statement.jumps_flatten {loops : List Exits} : (s : Statement) → (u : Supply) →
    s.JumpsInside loops → ∀ l ∈ (s.flatten u).1.jumps, l ∈ (s.flatten u).1.labels ∨ IsExit loops l
  | .block statements, u, h, l, hl => jumps_flattenAll statements u h l hl
  | .ifThen c s, u, h, l, hl => by
    have ih := s.jumps_flatten (u.skip 1) h l
    simp [flatten_ifThen, Statement.jump?, Statement.label?] at hl ⊢
    tauto
  | .ifElse c s s', u, h, l, hl => by
    have ih := s.jumps_flatten (u.skip 2) h.1 l
    have ih' := s'.jumps_flatten (s.flatten (u.skip 2)).2 h.2 l
    simp [flatten_ifElse, Statement.jump?, Statement.label?] at hl ⊢
    tauto
  | .whileLoop c s x, u, h, l, hl => by
    have ih := s.jumps_flatten (u.skip 1) h l
    simp [flatten_whileLoop, isExit_cons] at ih hl ⊢
    tauto
  | .doLoop s c x, u, h, l, hl => by
    have ih := s.jumps_flatten (u.skip 1) h l
    simp [flatten_doLoop, isExit_cons] at ih hl ⊢
    tauto
  | .forLoop v e e' s x, u, h, l, hl => by
    have ih := s.jumps_flatten ((makeUpperBound v u).2.skip 2) h l
    simp [flatten_forLoop, Statement.jump?, Statement.label?, isExit_cons, increment] at ih hl ⊢
    tauto
  | .goto _, _, h, l, hl | .gotoIf _ _ _, _, h, l, hl => by
    obtain rfl := List.mem_singleton.mp hl
    exact .inr h
  | .declare _ _, _, _, _, hl | .label _, _, _, _, hl | .leave _, _, _, _, hl
  | .expression _, _, _, _, hl =>
    nomatch hl

theorem jumps_flattenAll {loops : List Exits} : (ss : List Statement) → (u : Supply) →
    AllJumpInside loops ss →
      ∀ l ∈ (flattenAll ss u).1.jumps, l ∈ (flattenAll ss u).1.labels ∨ IsExit loops l
  | [], _, _, _, hl => nomatch hl
  | s :: rest, u, h, l, hl => by
    have ih := s.jumps_flatten u h.1 l
    have ih' := jumps_flattenAll rest (s.flatten u).2 h.2 l
    simp [flattenAll_cons] at hl ⊢
    tauto

end

/-- Every jump of a flat body goes to one of its labels, if no jump leaves the loops around it. -/
theorem mem_labels_flattenBody {ss : List Statement} {n : Nat} {l : Label}
    (h : AllJumpInside [] ss) (hl : l ∈ (flattenBody ss n).1.jumps) :
    l ∈ (flattenBody ss n).1.labels := by
  rcases jumps_flattenAll ss ⟨0, n⟩ h l hl with hl | ⟨x, hx, -⟩
  · exact hl
  · nomatch hx

end SmallScript.Code
