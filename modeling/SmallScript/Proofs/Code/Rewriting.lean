import SmallScript.Proofs.Code.Flatten
import SmallScript.Proofs.Code.Parts

namespace SmallScript.Code

/-- A branch or a loop in terms of a block, with its parts as they were. A loop over a range becomes a loop with
a condition. -/
def Statement.desugar : Statement → Flattening Statement
  | .ifThen condition branch => do
    let done ← makeLabel
    return .block [.gotoIf done condition true, branch, .label done]
  | .ifElse condition branch otherwise => do
    let other ← makeLabel
    let done ← makeLabel
    return .block [.gotoIf other condition true, branch, .goto done, .label other, otherwise, .label done]
  | .whileLoop condition body exits => do
    let start ← makeLabel
    return .block [.goto exits.again, .label start, body, .label exits.again, .gotoIf start condition false,
      .label exits.leave]
  | .doLoop body condition exits => do
    let start ← makeLabel
    return .block [.label start, body, .label exits.again, .gotoIf start condition false, .label exits.leave]
  | .forLoop v lower upper body exits => do
    let bound ← makeUpperBound v
    let again ← makeLabel
    return .block [.declare v lower, .declare bound upper,
      .whileLoop (atMost v bound) (.block [body, .label exits.again, increment v]) ⟨exits.leave, again⟩]
  | s => return s

/-- Whether a statement is a branch or a loop. -/
def Statement.isStructured : Statement → Bool
  | .ifThen _ _ | .ifElse _ _ _ | .whileLoop _ _ _ | .doLoop _ _ _ | .forLoop _ _ _ _ _ => true
  | _ => false

mutual

/-- A bound on how often parts of a statement are rewritten. What a branch or a loop is put in terms of weighs
less than it, though it is larger. -/
def Statement.weight : Statement → Nat
  | .block ss => weightAll ss + 1
  | .ifThen _ s => s.weight + 4
  | .ifElse _ s s' => s.weight + s'.weight + 6
  | .whileLoop _ s _ => s.weight + 7
  | .doLoop s _ _ => s.weight + 6
  | .forLoop _ _ _ s _ => s.weight + 14
  | .declare _ _ | .label _ | .goto _ | .gotoIf _ _ _ | .leave _ | .expression _ => 1

def weightAll : List Statement → Nat
  | [] => 0
  | s :: rest => s.weight + weightAll rest

end

theorem weight_desugar {s : Statement} (h : s.isStructured) (u : Supply) : (s.desugar u).1.weight < s.weight := by
  cases s with
  | ifThen c s =>
    change (Statement.block [.gotoIf _ c true, s, .label _]).weight < _
    simp only [Statement.weight, weightAll]
    omega
  | ifElse c s s' =>
    change (Statement.block [.gotoIf _ c true, s, .goto _, .label _, s', .label _]).weight < _
    simp only [Statement.weight, weightAll]
    omega
  | whileLoop c s x =>
    change (Statement.block [.goto _, .label _, s, .label _, .gotoIf _ c false, .label _]).weight < _
    simp only [Statement.weight, weightAll]
    omega
  | doLoop s c x =>
    change (Statement.block [.label _, s, .label _, .gotoIf _ c false, .label _]).weight < _
    simp only [Statement.weight, weightAll]
    omega
  | forLoop v lower upper s x =>
    change (Statement.block [.declare v lower, .declare _ upper,
      .whileLoop _ (.block [s, .label _, increment v]) _]).weight < _
    simp only [Statement.weight, weightAll, increment]
    omega
  | _ => nomatch h

theorem weightAll_append (ss ts : List Statement) : weightAll (ss ++ ts) = weightAll ss + weightAll ts := by
  induction ss with
  | nil => exact (Nat.zero_add _).symm
  | cons s ss ih => rw [List.cons_append, weightAll, weightAll, ih, Nat.add_assoc]

theorem weight_le_weightAll {s : Statement} {ss : List Statement} (h : s ∈ ss) : s.weight ≤ weightAll ss := by
  obtain ⟨before, after, rfl⟩ := List.append_of_mem h
  rw [weightAll_append, weightAll]
  omega

theorem Statement.weight_pos (s : Statement) : 0 < s.weight := by
  cases s <;> simp [weight]

/-- Whether the first statement is rewritten for the sake of the second one. -/
inductive RewrittenFor : Statement → Statement → Prop
  | part {s : Statement} {ss : List Statement} (h : s ∈ ss) : RewrittenFor s (.block ss)
  | again {s : Statement} (h : s.isStructured) (u : Supply) : RewrittenFor (s.desugar u).1 s

theorem wellFounded_rewrittenFor : WellFounded RewrittenFor := by
  refine Subrelation.wf (fun {s t} h ↦ ?_) (measure Statement.weight).wf
  cases h with
  | part h => exact Nat.lt_succ_of_le (weight_le_weightAll h)
  | again h u => exact weight_desugar h u

/-- What holds of flat statements, of a block if of its parts, and of a branch or a loop if of what it is put in
terms of, holds of all statements. -/
@[elab_as_elim]
theorem Statement.induction_on_rewritten {P : Statement → Prop} (flat : ∀ s, s.isFlat → P s)
    (block : ∀ ss, (∀ s ∈ ss, P s) → P (.block ss))
    (structured : ∀ s, s.isStructured → (∀ u, P (s.desugar u).1) → P s) (s : Statement) : P s := by
  induction s using wellFounded_rewrittenFor.induction with
  | h s ih =>
    by_cases h : s.isStructured
    · exact structured s h fun u ↦ ih _ (.again h u)
    · cases s with
      | block ss => exact block ss fun s hs ↦ ih s (.part hs)
      | declare | label | goto | gotoIf | leave | expression => exact flat _ rfl
      | _ => exact absurd rfl h

/-- The copy of the parts of a block seen so far, with one more. There is a copy once a part is revised. -/
def copied (seen : List Statement) (copy : Option (List Statement)) (s : Statement) :
    Option Statement → Option (List Statement)
  | some t => some (copy.getD seen ++ [t])
  | none => copy.map (· ++ [s])

theorem getD_copied (seen : List Statement) (copy : Option (List Statement)) (s : Statement) (t : Option Statement) :
    (copied seen copy s t).getD (seen ++ [s]) = copy.getD seen ++ [t.getD s] := by
  cases t <;> cases copy <;> rfl

mutual

/-- What a statement is rewritten to, or nothing if it is left alone. -/
def Statement.revise (s : Statement) (u : Supply) : Option Statement × Supply :=
  if _h : s.isStructured then
    let revised := Statement.revise (s.desugar u).1 (s.desugar u).2
    (some (revised.1.getD (s.desugar u).1), revised.2)
  else
    match s with
    | .block ss => ((reviseAll [] none ss u).1.map .block, (reviseAll [] none ss u).2)
    | _ => (none, u)
termination_by 2 * s.weight
decreasing_by
  · have hlt := weight_desugar _h u
    omega
  · simp only [Statement.weight]
    omega

def reviseAll (seen : List Statement) (copy : Option (List Statement)) (ss : List Statement) (u : Supply) :
    Option (List Statement) × Supply :=
  match ss with
  | [] => (copy, u)
  | s :: rest => reviseAll (seen ++ [s]) (copied seen copy s (s.revise u).1) rest (s.revise u).2
termination_by 2 * weightAll ss + 1
decreasing_by
  all_goals
    have hpos := s.weight_pos
    simp only [weightAll]
    omega

end

/-- A statement with no branch and no loop left in it. -/
def Statement.rewrite (s : Statement) (u : Supply) : Statement × Supply :=
  ((s.revise u).1.getD s, (s.revise u).2)

def rewriteAll : List Statement → Supply → List Statement × Supply
  | [], u => ([], u)
  | s :: rest, u => ((s.rewrite u).1 :: (rewriteAll rest (s.rewrite u).2).1, (rewriteAll rest (s.rewrite u).2).2)

section Rewrite

variable {s : Statement} {b : Body} (u : Supply)

theorem revise_isFlat (h : s.isFlat) : s.revise u = (none, u) := by
  rw [Statement.revise]
  cases s <;> first | rfl | nomatch h

theorem rewrite_isFlat (h : s.isFlat) : s.rewrite u = (s, u) := by
  rw [Statement.rewrite, revise_isFlat u h]
  rfl

theorem rewrite_structured (h : s.isStructured) : s.rewrite u = (s.desugar u).1.rewrite (s.desugar u).2 := by
  rw [Statement.rewrite, Statement.revise, dif_pos h]
  rfl

theorem reviseAll_eq (ss seen : List Statement) (copy : Option (List Statement)) :
    ((reviseAll seen copy ss u).1.getD (seen ++ ss), (reviseAll seen copy ss u).2) =
      (copy.getD seen ++ (rewriteAll ss u).1, (rewriteAll ss u).2) := by
  induction ss generalizing seen copy u with
  | nil =>
    rw [reviseAll, List.append_nil]
    exact Prod.ext (List.append_nil _).symm rfl
  | cons s rest ih =>
    have hrest := ih (s.revise u).2 (seen ++ [s]) (copied seen copy s (s.revise u).1)
    rw [getD_copied, List.append_assoc, List.append_assoc] at hrest
    rw [reviseAll]
    exact hrest

theorem rewrite_block (ss : List Statement) :
    (Statement.block ss).rewrite u = (.block (rewriteAll ss u).1, (rewriteAll ss u).2) := by
  obtain ⟨hparts, hu⟩ := Prod.mk.inj (reviseAll_eq u ss [] none)
  rw [Statement.rewrite, Statement.revise, ← hu]
  exact Prod.ext ((Option.getD_map _ _ _).trans (congrArg _ hparts)) rfl

theorem reviseAll_isFlat (h : b.isFlat) (seen : List Statement) : reviseAll seen none b u = (none, u) := by
  induction b generalizing seen with
  | nil => rw [reviseAll]
  | cons s b ih =>
    obtain ⟨hs, hb⟩ := Bool.and_eq_true_iff.mp h
    rw [reviseAll, revise_isFlat u hs]
    exact ih hb _

theorem revise_block_isFlat (h : b.isFlat) : (Statement.block b).revise u = (none, u) := by
  have hparts := reviseAll_isFlat u h []
  rw [Statement.revise]
  exact congrArg (fun r ↦ (r.1.map Statement.block, r.2)) hparts

end Rewrite

mutual

/-- The statements in a tree of blocks that are no blocks, from left to right. -/
def Statement.leaves : Statement → List Statement
  | .block ss => leavesAll ss
  | s => [s]

def leavesAll : List Statement → List Statement
  | [] => []
  | s :: rest => s.leaves ++ leavesAll rest

end

/-- The stack that is left when the top statement is taken off it. The parts of a block are put back on it, the
first one on top. -/
inductive TakenFrom : List Statement → List Statement → Prop
  | block (ss rest : List Statement) : TakenFrom (ss ++ rest) (.block ss :: rest)
  | other (s : Statement) (rest : List Statement) : TakenFrom rest (s :: rest)

theorem TakenFrom.weight_lt {stack stack' : List Statement} (h : TakenFrom stack' stack) :
    weightAll stack' < weightAll stack := by
  cases h with
  | block ss rest =>
    rw [weightAll_append, weightAll, Statement.weight]
    omega
  | other s rest =>
    have hpos := s.weight_pos
    rw [weightAll]
    omega

theorem wellFounded_takenFrom : WellFounded TakenFrom :=
  Subrelation.wf TakenFrom.weight_lt (measure weightAll).wf

/-- The statements that are taken off a stack until none is left. -/
def spread : List Statement → List Statement
  | [] => []
  | .block ss :: rest => spread (ss ++ rest)
  | s :: rest => s :: spread rest
termination_by stack => weightAll stack
decreasing_by
  · exact (TakenFrom.block ss rest).weight_lt
  · exact (TakenFrom.other s rest).weight_lt

theorem leavesAll_append (ss ts : List Statement) : leavesAll (ss ++ ts) = leavesAll ss ++ leavesAll ts := by
  induction ss with
  | nil => rfl
  | cons s ss ih => rw [List.cons_append, leavesAll, leavesAll, ih, List.append_assoc]

/-- Each statement on the stack that is no block, or stands in one, is taken once, the first ones first. -/
theorem spread_eq (stack : List Statement) : spread stack = leavesAll stack := by
  fun_induction spread stack with
  | case1 => rfl
  | case2 ss rest ih => rw [ih, leavesAll_append, leavesAll, Statement.leaves]
  | case3 s rest h ih =>
    have hleaves : s.leaves = [s] := by
      cases s with
      | block ss => exact absurd rfl (h ss)
      | _ => rfl
    rw [ih, leavesAll, hleaves, List.singleton_append]

theorem flattenAll_of_isFlat {s : Statement} (h : s.isFlat) (rest : List Statement) (u : Supply) :
    flattenAll (s :: rest) u = (s :: (flattenAll rest u).1, (flattenAll rest u).2) := by
  rw [flattenAll_cons, flatten_of_isFlat u h]
  rfl

theorem flatten_desugar (s : Statement) (u : Supply) : (s.desugar u).1.flatten (s.desugar u).2 = s.flatten u := by
  cases s with
  | ifThen c s => rfl
  | ifElse c s s' =>
    refine Prod.ext ?_ rfl
    change .gotoIf _ c true :: ((s.flatten (u.skip 2)).1 ++ .goto _ :: .label _ ::
      ((s'.flatten _).1 ++ [.label _])) = _
    rw [flatten_ifElse]
    simp only [List.cons_append, List.append_assoc, List.nil_append]
    rfl
  | whileLoop c s x =>
    refine Prod.ext ?_ rfl
    change .goto _ :: .label _ :: ((s.flatten (u.skip 1)).1 ++ [.label _, .gotoIf _ c false, .label _]) = _
    rw [flatten_whileLoop]
    simp only [flatWhile, List.cons_append, List.nil_append]
    rfl
  | doLoop s c x => rfl
  | forLoop v lower upper s x =>
    refine Prod.ext ?_ rfl
    change (flattenAll [.declare v lower, .declare _ upper, .whileLoop _ (.block [s, _, increment v]) _]
      ((makeUpperBound v u).2.skip 1)).1 = _
    rw [flattenAll_of_isFlat rfl, flattenAll_of_isFlat rfl, flattenAll_cons, flatten_whileLoop, flatten_block,
      flattenAll_cons, flatten_forLoop, flattenAll_nil, List.append_nil]
    rfl
  | _ => rfl

theorem flatten_eq_leaves (s : Statement) (u : Supply) :
    s.flatten u = ((s.rewrite u).1.leaves, (s.rewrite u).2) := by
  induction s using Statement.induction_on_rewritten generalizing u with
  | flat s h =>
    rw [flatten_of_isFlat u h, rewrite_isFlat u h]
    cases s <;> first | rfl | nomatch h
  | block ss ih =>
    rw [flatten_block, rewrite_block]
    change _ = (leavesAll _, _)
    induction ss generalizing u with
    | nil => rfl
    | cons s rest ihrest =>
      have hs := ih s List.mem_cons_self u
      have hrest := ihrest (fun t ht ↦ ih t (List.mem_cons_of_mem s ht)) (s.rewrite u).2
      rw [flattenAll_cons, hs, hrest]
      rfl
  | structured s h ih => rw [← flatten_desugar, ih, rewrite_structured u h]

theorem not_isStructured_rewrite (s : Statement) (u : Supply) :
    ∀ t ∈ (s.rewrite u).1.nodes, ¬t.isStructured := by
  induction s using Statement.induction_on_rewritten generalizing u with
  | flat s h =>
    rw [rewrite_isFlat u h]
    cases s <;> first | exact List.forall_mem_singleton.mpr Bool.false_ne_true | nomatch h
  | block ss ih =>
    rw [rewrite_block]
    refine List.forall_mem_cons.mpr ⟨Bool.false_ne_true, ?_⟩
    induction ss generalizing u with
    | nil => exact fun _ h ↦ nomatch h
    | cons s rest ihrest =>
      have hs := ih s List.mem_cons_self u
      have hrest := ihrest (fun t ht ↦ ih t (List.mem_cons_of_mem s ht)) (s.rewrite u).2
      exact List.forall_mem_append.mpr ⟨hs, hrest⟩
  | structured s h ih =>
    rw [rewrite_structured u h]
    exact ih u _

theorem nodesAll_of_isFlat {b : Body} (h : b.isFlat) : nodesAll b = b := by
  induction b with
  | nil => rfl
  | cons s b ih =>
    obtain ⟨hs, hb⟩ := Bool.and_eq_true_iff.mp h
    rw [nodesAll, ih hb]
    cases s <;> first | rfl | nomatch hs

theorem leavesAll_of_isFlat {b : Body} (h : b.isFlat) : leavesAll b = b := by
  induction b with
  | nil => rfl
  | cons s b ih =>
    obtain ⟨hs, hb⟩ := Bool.and_eq_true_iff.mp h
    rw [leavesAll, ih hb]
    cases s <;> first | rfl | nomatch hs

/-- A statement lowered in both passes. -/
def Statement.lower (s : Statement) (u : Supply) : Body × Supply :=
  (spread [(s.rewrite u).1], (s.rewrite u).2)

theorem spread_singleton (s : Statement) : spread [s] = s.leaves := by
  rw [spread_eq, leavesAll, leavesAll, List.append_nil]

theorem lower_eq_flatten (s : Statement) (u : Supply) : s.lower u = s.flatten u := by
  rw [Statement.lower, spread_singleton, flatten_eq_leaves]

/-- Neither pass goes on without end. They flatten a statement: no branch and no loop is left by the first one,
the second one takes what stands in its blocks from left to right, and no statement is left within another.
Flat code is left alone by the first pass, and given back by both. -/
theorem lowers_to_normal_form :
    WellFounded RewrittenFor ∧ WellFounded TakenFrom ∧ ∀ (s : Statement) (u : Supply),
      s.lower u = s.flatten u ∧
        (∀ t ∈ (s.rewrite u).1.nodes, ¬t.isStructured) ∧
        (s.lower u).1 = (s.rewrite u).1.leaves ∧
        (∀ t ∈ nodesAll (s.lower u).1, t.isFlat) ∧
        ∀ u', (Statement.block (s.lower u).1).revise u' = (none, u') ∧
          (Statement.block (s.lower u).1).lower u' = ((s.lower u).1, u') := by
  refine ⟨wellFounded_rewrittenFor, wellFounded_takenFrom, fun s u ↦ ?_⟩
  have hflat : (s.lower u).1.isFlat := lower_eq_flatten s u ▸ s.flatten_isFlat u
  refine ⟨lower_eq_flatten s u, not_isStructured_rewrite s u, spread_singleton _, ?_, fun u' ↦ ?_⟩
  · rw [nodesAll_of_isFlat hflat]
    exact List.all_eq_true.mp hflat
  · have hrevise := revise_block_isFlat u' hflat
    refine ⟨hrevise, ?_⟩
    rw [Statement.lower, Statement.rewrite, hrevise, spread_singleton]
    exact Prod.ext (leavesAll_of_isFlat hflat) rfl

end SmallScript.Code
