import SmallScript.Proofs.Code.Translate
import SmallScript.Proofs.Flow.Split

namespace SmallScript.Flow

open Code (Expression Statement Body Translation translateAll translateAll_eq_map)

variable {T : Translation}

theorem consBlock_translate (block : Body) (blocks : List Body) :
    consBlock (translateAll T block) (blocks.map (translateAll T)) =
      (consBlock block blocks).map (translateAll T) := by
  cases block <;> rfl

theorem splitFrom_translate (pending body : Body) :
    splitFrom (translateAll T pending) (translateAll T body) =
      (splitFrom pending body).map (translateAll T) := by
  induction body generalizing pending with
  | nil => exact consBlock_translate pending []
  | cons s rest ih =>
    have hbegins : beginsBlock (s.translate T) = beginsBlock s := by cases s <;> rfl
    have hends : endsBlock (s.translate T) = endsBlock s := by cases s <;> rfl
    simp only [translateAll, splitFrom, hbegins, hends]
    split
    · rw [show [s.translate T] = translateAll T [s] from rfl, ih, consBlock_translate]
    · split
      · rw [List.map_cons, Code.translateAll_append, ← ih]
        rfl
      · rw [← ih, Code.translateAll_append]
        rfl

theorem split_translate (body : Body) : split (translateAll T body) = (split body).map (translateAll T) :=
  splitFrom_translate [] body

theorem opposite_translate (e : Expression) : opposite (e.translate T) = (opposite e).translate T := by
  cases e with
  | literal x => cases x <;> rfl
  | _ => rfl

def Branch.translate (T : Translation) (b : Branch) : Branch :=
  { b with guard := b.guard.map (Expression.translate T) }

theorem simplify?_translate (b : Branch) :
    (b.translate T).simplify? = b.simplify?.map (Branch.translate T) := by
  obtain ⟨source, target, guard⟩ := b
  cases guard with
  | none => rfl
  | some e =>
    cases e with
    | literal x =>
      cases x with
      | bool b => cases b <;> rfl
      | _ => rfl
    | _ => rfl

section Labels

variable (hT : ∀ l, T.label l = l)
include hT

theorem hasLabel_translate (l : Label) (block : Body) :
    hasLabel l (translateAll T block) = hasLabel l block := by
  unfold hasLabel
  rw [translateAll_eq_map, List.any_map]
  congr 1
  funext s
  cases s <;> simp [Statement.translate, hT]

theorem blockOf?_translate (blocks : List Body) (l : Label) :
    blockOf? (blocks.map (translateAll T)) l = blockOf? blocks l := by
  rw [blockOf?_eq, blockOf?_eq, List.zipIdx_map, ← List.map_reverse, List.findSome?_map]
  congr 1
  funext p
  simp only [Function.comp, Prod.map, hasLabel_translate hT, id]

theorem branchesOf?_translate (blocks : List Body) (i : Nat) (block : Body) :
    branchesOf? (blocks.map (translateAll T)) i (translateAll T block) =
      (branchesOf? blocks i block).map (List.map (Branch.translate T)) := by
  unfold branchesOf?
  rw [translateAll_eq_map, List.getLast?_map]
  cases block.getLast? with
  | none => rfl
  | some s =>
    cases s with
    | goto l =>
      simp [Statement.translate, hT, blockOf?_translate hT, Branch.translate, Function.comp_def]
    | gotoIf l e negated =>
      cases negated <;>
        simp [Statement.translate, hT, blockOf?_translate hT, Branch.translate, Function.comp_def,
          opposite_translate]
    | _ => simp [Statement.translate, Branch.translate]

def Graph.translate (T : Translation) (g : Graph) : Graph :=
  ⟨g.inner.map (translateAll T), g.branches.map (Branch.translate T)⟩

theorem full?_translate (body : Body) :
    Graph.full? (translateAll T body) = (Graph.full? body).map (Graph.translate T) := by
  have hbranches (l : List (Body × Nat)) (blocks : List Body) :
      ((l.map (Prod.map (translateAll T) id)).mapM fun p ↦
        branchesOf? (blocks.map (translateAll T)) p.2 p.1) =
      (l.mapM fun p ↦ branchesOf? blocks p.2 p.1).map (List.map (List.map (Branch.translate T))) := by
    induction l with
    | nil => rfl
    | cons p l ih =>
      simp only [List.map_cons, List.mapM_cons, ih, Prod.map, id, branchesOf?_translate hT]
      cases branchesOf? blocks p.2 p.1 with
      | none => rfl
      | some bs => cases l.mapM fun p ↦ branchesOf? blocks p.2 p.1 <;> rfl
  simp only [Graph.full?, split_translate, List.zipIdx_map, hbranches, Option.map_map]
  congr 1
  funext branches
  simp only [Function.comp, Graph.translate, ← List.map_flatten, Graph.mk.injEq, true_and]
  have hstart : (⟨0, 1, none⟩ : Branch) = Branch.translate T ⟨0, 1, none⟩ := rfl
  conv_lhs => rw [hstart, ← List.map_cons]
  rw [List.filterMap_map, List.map_filterMap]
  congr 1
  funext b
  exact simplify?_translate b

end Labels

section Graph

variable (g : Graph)

theorem unreached_translate (n : Nat) (gone : List Nat) :
    (g.translate T).unreached n gone = g.unreached n gone := by
  have hone (gone : List Nat) : (g.translate T).unreached? gone = g.unreached? gone := by
    simp only [Graph.unreached?, Graph.translate, List.length_map, List.all_map]
    rfl
  induction n generalizing gone with
  | zero => rfl
  | succ n ih =>
    simp only [Graph.unreached, hone]
    split
    · rfl
    · exact ih _

theorem without_translate (gone : List Nat) : (g.translate T).without gone = (g.without gone).translate T := by
  have hfinish : (g.translate T).finish = g.finish := by simp [Graph.finish, Graph.translate]
  unfold Graph.without
  rw [hfinish]
  simp only [Graph.translate, Graph.mk.injEq, List.zipIdx_map, List.filterMap_map, List.map_filterMap]
  constructor
  · congr 1
    funext p
    simp only [Function.comp, Prod.map, id]
    split <;> rfl
  · congr 1
    funext b
    change (if (gone.contains b.source || gone.contains b.target) = true then none
      else some (⟨_, _, (b.translate T).guard⟩ : Branch)) = _
    split <;> rfl

theorem alwaysReturns_graph_translate : (g.translate T).alwaysReturns = g.alwaysReturns := by
  have hfinish : (g.translate T).finish = g.finish := by simp [Graph.finish, Graph.translate]
  have hblock (i : Nat) : (g.translate T).block i = translateAll T (g.block i) := by
    unfold Graph.block
    split
    · rfl
    · simp only [Graph.translate, List.getElem?_map]
      cases g.inner[i - 1]? <;> rfl
  unfold Graph.alwaysReturns
  rw [hfinish]
  simp only [hblock, translateAll_eq_map, List.getLast?_map]
  rw [show (g.translate T).branches = g.branches.map (Branch.translate T) from rfl, List.all_map]
  congr 1
  funext b
  simp only [Function.comp, Branch.translate]
  congr 1
  cases (g.block b.source).getLast? with
  | none => rfl
  | some s => cases s <;> rfl

end Graph

theorem alwaysReturns_translate (hT : ∀ l, T.label l = l) (body : Body) :
    alwaysReturns (translateAll T body) = alwaysReturns body := by
  have hflat : Code.Body.isFlat (translateAll T body) = body.isFlat := by
    unfold Code.Body.isFlat
    rw [translateAll_eq_map, List.all_map]
    congr 1
    funext s
    cases s <;> rfl
  have hprune (g : Graph) : (g.translate T).prune = g.prune.translate T := by
    unfold Graph.prune
    rw [unreached_translate, without_translate]
    simp [Graph.translate]
  unfold alwaysReturns Graph.ofBody?
  rw [hflat, full?_translate hT]
  split
  · cases Graph.full? body with
    | none => rfl
    | some g =>
      simp only [Option.map_some, Option.any_some, hprune]
      exact alwaysReturns_graph_translate _
  · rfl

theorem alwaysReturns_rename {φ : Code.Renaming} (hφ : ∀ l, φ.label l = l) (body : Body) :
    alwaysReturns (Code.renameAll φ body) = alwaysReturns body := by
  rw [Code.renameAll_eq_translateAll]
  exact alwaysReturns_translate (T := φ.translation) hφ body

end SmallScript.Flow
