import Mathlib.Data.List.Nodup
import SmallScript.Proofs.Code.Flatten
import SmallScript.Proofs.Code.Parts
import SmallScript.Proofs.Flow.Split

namespace SmallScript.Code

def madeCount (l : Label) (n : Nat) : Nat :=
  match l with
  | .made k => if k ≤ n then 1 else 0
  | _ => 0

theorem madeCount_le_one (l : Label) (n : Nat) : madeCount l n ≤ 1 := by
  unfold madeCount
  split
  · split <;> omega
  · omega

theorem madeCount_succ (l : Label) (n : Nat) :
    madeCount l (n + 1) = madeCount l n + [Label.made (n + 1)].count l := by
  cases l with
  | made k =>
    have hk : (Label.made (n + 1) == Label.made k) = decide (n + 1 = k) := by
      rw [Bool.eq_iff_iff]
      simp
    simp only [madeCount, List.count_singleton, hk, decide_eq_true_eq]
    split <;> split <;> split <;> omega
  | _ => simp [madeCount]

def exitsOf (ss : List Statement) : List Label := ss.flatMap Statement.exits

section Count

variable (l : Label)

@[simp]
theorem exitsOf_nil : exitsOf [] = [] := rfl

@[simp]
theorem exitsOf_cons (s : Statement) (ss : List Statement) :
    exitsOf (s :: ss) = s.exits ++ exitsOf ss := List.flatMap_cons

@[simp]
theorem exitsOf_append (ss ss' : List Statement) :
    exitsOf (ss ++ ss') = exitsOf ss ++ exitsOf ss' := List.flatMap_append

mutual

/-- Each label of flat code is an exit or a label of the statement, or was made for it. -/
theorem Statement.count_flatten : (s : Statement) → (u : Supply) →
    (s.flatten u).1.labels.count l + madeCount l u.labels =
      (exitsOf s.nodes).count l + (Body.labels s.nodes).count l
        + madeCount l (s.flatten u).2.labels
  | .block ss, u => by
    have ih := count_flattenAll ss u
    simpa [flatten_block, Statement.nodes, Statement.exits, Statement.label?] using ih
  | .ifThen e s, u => by
    have ih := s.count_flatten (u.skip 1)
    have hmade := madeCount_succ l u.labels
    simp [flatten_ifThen, Statement.nodes, Statement.exits, Statement.label?, Supply.skip,
      Supply.label] at ih hmade ⊢
    omega
  | .ifElse e s s', u => by
    have ih := s.count_flatten (u.skip 2)
    have ih' := s'.count_flatten (s.flatten (u.skip 2)).2
    have hmade := madeCount_succ l u.labels
    have hmade' : madeCount l (u.labels + 2) = _ := madeCount_succ l (u.labels + 1)
    simp [flatten_ifElse, Statement.nodes, Statement.exits, Statement.label?, Supply.skip,
      Supply.label, List.count_cons] at ih ih' hmade hmade' ⊢
    omega
  | .whileLoop e s x, u => by
    have ih := s.count_flatten (u.skip 1)
    have hmade := madeCount_succ l u.labels
    simp [flatten_whileLoop, Statement.nodes, Statement.exits, Statement.label?, Supply.skip,
      Supply.label, List.count_cons] at ih hmade ⊢
    omega
  | .doLoop s e x, u => by
    have ih := s.count_flatten (u.skip 1)
    have hmade := madeCount_succ l u.labels
    simp [flatten_doLoop, Statement.nodes, Statement.exits, Statement.label?, Supply.skip,
      Supply.label, List.count_cons] at ih hmade ⊢
    omega
  | .forLoop v e e' s x, u => by
    have ih := s.count_flatten ((makeUpperBound v u).2.skip 2)
    have hsupply : (makeUpperBound v u).2.labels = u.labels := rfl
    have hmade := madeCount_succ l u.labels
    have hmade' : madeCount l (u.labels + 2) = _ := madeCount_succ l (u.labels + 1)
    simp [flatten_forLoop, Statement.nodes, Statement.exits, Statement.label?, Supply.skip,
      Supply.label, List.count_cons, increment, hsupply] at ih hmade hmade' ⊢
    omega
  | .declare _ _, _ | .label _, _ | .goto _, _ | .gotoIf _ _ _, _ | .leave _, _
  | .expression _, _ => by
    rw [flatten_of_isFlat _ rfl]
    simp [Statement.nodes, Statement.exits, Statement.label?]

theorem count_flattenAll : (ss : List Statement) → (u : Supply) →
    (flattenAll ss u).1.labels.count l + madeCount l u.labels =
      (exitsOf (nodesAll ss)).count l + (Body.labels (nodesAll ss)).count l
        + madeCount l (flattenAll ss u).2.labels
  | [], _ => by simp [flattenAll_nil, nodesAll]
  | s :: rest, u => by
    have ih := s.count_flatten u
    have ih' := count_flattenAll rest (s.flatten u).2
    simp [flattenAll_cons, nodesAll] at ih ih' ⊢
    omega

end

end Count

/-- A body whose loops have exits of their own, all told from other labels and from those that
flattening makes. -/
structure Body.Distinct (b : Body) : Prop where
  exits : (exitsOf (nodesAll b)).Nodup
  apart : ∀ l ∈ exitsOf (nodesAll b), .label l ∉ nodesAll b
  made : ∀ n, .made n ∉ exitsOf (nodesAll b) ∧ .label (.made n) ∉ nodesAll b

def IsTarget (b : Body) (l : Label) : Prop := l ∈ exitsOf (nodesAll b) ∨ ∃ n, l = .made n

theorem Body.Distinct.count_le_one {b : Body} (h : b.Distinct) {l : Label} (hl : IsTarget b l)
    (n : Nat) : (flattenBody b n).1.labels.count l ≤ 1 := by
  have hcount := count_flattenAll l b ⟨0, n⟩
  change (flattenAll b ⟨0, n⟩).1.labels.count l ≤ 1
  rcases hl with hl | ⟨k, rfl⟩
  · have hexits := List.nodup_iff_count_le_one.mp h.exits l
    have hlabels : (Body.labels (nodesAll b)).count l = 0 :=
      List.count_eq_zero.mpr fun hm ↦ h.apart l hl (mem_labels.mp hm)
    have hmade (n : Nat) : madeCount l n = 0 := by
      cases l with
      | made k => exact absurd hl (h.made k).1
      | _ => rfl
    rw [hmade, hmade] at hcount
    omega
  · have hexits := List.count_eq_zero.mpr (h.made k).1
    have hlabels : (Body.labels (nodesAll b)).count (.made k) = 0 :=
      List.count_eq_zero.mpr fun hm ↦ (h.made k).2 (mem_labels.mp hm)
    have hle := madeCount_le_one (.made k) (flattenAll b ⟨0, n⟩).2.labels
    omega

theorem Run.place?_of_count {b : Body} {l : Label} (hcount : b.labels.count l ≤ 1) {i : Nat}
    (hi : b[i]? = some (.label l)) : Run.place? b l = some (i + 1) := by
  refine Run.place?_eq_some hi fun j hij hj ↦ ?_
  have hsplit : b.labels = Body.labels (b.take j) ++ Body.labels (b.drop j) := by
    rw [← Body.labels_append, List.take_append_drop]
  have hbefore : 0 < (Body.labels (b.take j)).count l := by
    rw [List.count_pos_iff, Body.mem_labels]
    apply List.mem_of_getElem? (i := i)
    rw [List.getElem?_take, if_pos hij, hi]
  have hafter : 0 < (Body.labels (b.drop j)).count l := by
    rw [List.count_pos_iff, Body.mem_labels]
    apply List.mem_of_getElem? (i := 0)
    rw [List.getElem?_drop, Nat.add_zero, hj]
  rw [hsplit, List.count_append] at hcount
  omega

theorem Body.Distinct.place?_flattenBody {b : Body} (h : b.Distinct) {l : Label}
    (hl : IsTarget b l) {n i : Nat} (hi : (flattenBody b n).1[i]? = some (.label l)) :
    Run.place? (flattenBody b n).1 l = some (i + 1) :=
  Run.place?_of_count (h.count_le_one hl n) hi

end SmallScript.Code
