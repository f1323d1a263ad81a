import SmallScript.Proofs.Flow.Split
import SmallScript.Proofs.Related

namespace SmallScript

namespace Code

def Expression.constant? : Expression → Option Bool
  | .literal (.bool b) => some b
  | _ => none

theorem Expression.constant?_eq_some {e : Expression} {b : Bool} (h : e.constant? = some b) :
    e = .literal (.bool b) := by
  unfold constant? at h
  split at h <;> simp_all

/-- Statements with the same labels and jumps, whose conditions are the same if they are constant. -/
inductive Statement.SameFlow : Statement → Statement → Prop
  | block {ss ss' : List Statement} (h : List.Forall₂ SameFlow ss ss') : SameFlow (.block ss) (.block ss')
  | declare (v v' : Variable) (e e' : Expression) : SameFlow (.declare v e) (.declare v' e')
  | ifThen {e e' : Expression} {s s' : Statement} (he : e'.constant? = e.constant?) (hs : SameFlow s s') :
    SameFlow (.ifThen e s) (.ifThen e' s')
  | ifElse {e e' : Expression} {s s' t t' : Statement} (he : e'.constant? = e.constant?) (hs : SameFlow s s')
    (ht : SameFlow t t') : SameFlow (.ifElse e s t) (.ifElse e' s' t')
  | whileLoop {e e' : Expression} {s s' : Statement} (x : Exits) (he : e'.constant? = e.constant?)
    (hs : SameFlow s s') : SameFlow (.whileLoop e s x) (.whileLoop e' s' x)
  | doLoop {e e' : Expression} {s s' : Statement} (x : Exits) (hs : SameFlow s s')
    (he : e'.constant? = e.constant?) : SameFlow (.doLoop s e x) (.doLoop s' e' x)
  | forLoop (v v' : Variable) (lower lower' upper upper' : Expression) {s s' : Statement} (x : Exits)
    (hs : SameFlow s s') : SameFlow (.forLoop v lower upper s x) (.forLoop v' lower' upper' s' x)
  | label (l : Label) : SameFlow (.label l) (.label l)
  | goto (l : Label) : SameFlow (.goto l) (.goto l)
  | gotoIf {e e' : Expression} (l : Label) (negated : Bool) (he : e'.constant? = e.constant?) :
    SameFlow (.gotoIf l e negated) (.gotoIf l e' negated)
  | leave (e e' : Option Expression) : SameFlow (.leave e) (.leave e')
  | expression (e e' : Expression) : SameFlow (.expression e) (.expression e')

abbrev Body.SameFlow (b b' : Body) : Prop := List.Forall₂ Statement.SameFlow b b'

theorem Body.SameFlow.append {b b' c c' : Body} (h : Body.SameFlow b b') (h' : Body.SameFlow c c') :
    Body.SameFlow (b ++ c) (b' ++ c') := List.rel_append h h'

section Flatten

theorem sameFlow_flatWhile (l : Label) {e e' : Expression} (he : e'.constant? = e.constant?) {b b' : Body}
    (h : Body.SameFlow b b') (x : Exits) : Body.SameFlow (flatWhile l e b x) (flatWhile l e' b' x) := by
  have hend : Body.SameFlow [.label x.again, .gotoIf l e false, .label x.leave]
      [.label x.again, .gotoIf l e' false, .label x.leave] :=
    .cons (.label _) (.cons (.gotoIf l false he) (.cons (.label _) .nil))
  exact (Body.SameFlow.append (.cons (.goto _) (.cons (.label _) .nil)) h).append hend

theorem sameFlow_flatDo (l : Label) {e e' : Expression} (he : e'.constant? = e.constant?) {b b' : Body}
    (h : Body.SameFlow b b') (x : Exits) : Body.SameFlow (flatDo l b e x) (flatDo l b' e' x) :=
  Body.SameFlow.append (.cons (.label _) h) (.cons (.label _) (.cons (.gotoIf l false he) (.cons (.label _) .nil)))

def Flattening.Same {α β : Type} (Q : α → β → Prop) (m : Flattening α) (m' : Flattening β) : Prop :=
  ∀ u u', u'.labels = u.labels → Q (m u).1 (m' u').1 ∧ (m' u').2.labels = (m u).2.labels

namespace Flattening.Same

variable {α β γ δ : Type} {Q : α → β → Prop} {Q' : γ → δ → Prop} {m : Flattening α} {m' : Flattening β}

theorem pure {a : α} {b : β} (h : Q a b) : Same Q (pure a) (pure b) := fun _ _ hu ↦ ⟨h, hu⟩

theorem bind {f : α → Flattening γ} {f' : β → Flattening δ} (hm : Same Q m m')
    (hf : ∀ a b, Q a b → Same Q' (f a) (f' b)) : Same Q' (m >>= f) (m' >>= f') := by
  intro u u' hu
  obtain ⟨hQ, hlabels⟩ := hm u u' hu
  exact hf _ _ hQ _ _ hlabels

theorem makeLabel_bind {f : Label → Flattening γ} {f' : Label → Flattening δ} (hf : ∀ l, Same Q' (f l) (f' l)) :
    Same Q' (makeLabel >>= f) (makeLabel >>= f') := by
  have hlabel : Same Eq makeLabel makeLabel :=
    fun _ _ hu ↦ ⟨congrArg (fun n ↦ Label.made (n + 1)) hu.symm, congrArg (· + 1) hu⟩
  exact hlabel.bind fun l _ hl ↦ hl ▸ hf l

end Flattening.Same

open Flattening.Same (makeLabel_bind)

mutual

theorem Statement.sameFlow_flatten : (s s' : Statement) → s.SameFlow s' →
    Flattening.Same Body.SameFlow s.flatten s'.flatten
  | .block ss, _, .block h => sameFlow_flattenAll ss _ h
  | .declare .., _, .declare v v' e e' => .pure (.cons (.declare v v' e e') .nil)
  | .ifThen _ s, _, .ifThen he hs => makeLabel_bind fun l ↦
    .bind (s.sameFlow_flatten _ hs) fun _ _ hb ↦
      .pure (.cons (.gotoIf l true he) (hb.append (.cons (.label l) .nil)))
  | .ifElse _ s t, _, .ifElse he hs ht => makeLabel_bind fun l ↦ makeLabel_bind fun l' ↦
    .bind (s.sameFlow_flatten _ hs) fun _ _ hb ↦ .bind (t.sameFlow_flatten _ ht) fun _ _ hc ↦ .pure (by
      have hfirst := Body.SameFlow.append (.cons (.gotoIf l true he) hb) (.cons (.goto l') (.cons (.label l) .nil))
      exact (hfirst.append hc).append (.cons (.label l') .nil))
  | .whileLoop _ s _, _, .whileLoop x he hs => makeLabel_bind fun l ↦
    .bind (s.sameFlow_flatten _ hs) fun _ _ hb ↦ .pure (sameFlow_flatWhile l he hb x)
  | .doLoop s _ _, _, .doLoop x hs he => makeLabel_bind fun l ↦
    .bind (s.sameFlow_flatten _ hs) fun _ _ hb ↦ .pure (sameFlow_flatDo l he hb x)
  | .forLoop _ _ _ s _, _, .forLoop v v' lower lower' upper upper' x hs => by
    have hbound : Flattening.Same (fun _ _ ↦ True) (makeUpperBound v) (makeUpperBound v') :=
      fun _ _ hu ↦ ⟨trivial, hu⟩
    refine hbound.bind fun w w' _ ↦ makeLabel_bind fun l ↦ makeLabel_bind fun l' ↦
      .bind (s.sameFlow_flatten _ hs) fun b b' hb ↦ .pure ?_
    have hturn : Body.SameFlow (b ++ [.label x.again, increment v]) (b' ++ [.label x.again, increment v']) :=
      hb.append (.cons (.label _) (.cons (.expression _ _) .nil))
    have hcondition : (atMost v' w').constant? = (atMost v w).constant? := rfl
    exact Body.SameFlow.append (.cons (.declare ..) (.cons (.declare ..) .nil))
      (sameFlow_flatWhile l' hcondition hturn ⟨x.leave, l⟩)
  | .label _, _, .label l => .pure (.cons (.label l) .nil)
  | .goto _, _, .goto l => .pure (.cons (.goto l) .nil)
  | .gotoIf .., _, .gotoIf l negated he => .pure (.cons (.gotoIf l negated he) .nil)
  | .leave _, _, .leave e e' => .pure (.cons (.leave e e') .nil)
  | .expression _, _, .expression e e' => .pure (.cons (.expression e e') .nil)

theorem sameFlow_flattenAll : (ss ss' : List Statement) → List.Forall₂ Statement.SameFlow ss ss' →
    Flattening.Same Body.SameFlow (flattenAll ss) (flattenAll ss')
  | [], _, .nil => .pure .nil
  | s :: rest, _, .cons hs hrest =>
    .bind (s.sameFlow_flatten _ hs) fun _ _ hb ↦ .bind (sameFlow_flattenAll rest _ hrest) fun _ _ hc ↦
      .pure (hb.append hc)

end

theorem sameFlow_flattenBody {ss ss' : List Statement} (h : List.Forall₂ Statement.SameFlow ss ss') (n n' : Nat) :
    Body.SameFlow (flattenBody ss n).1 (flattenBody ss' n').1 :=
  (sameFlow_flattenAll ss ss' h ⟨0, n⟩ ⟨0, n'⟩ rfl).1

end Flatten

end Code

namespace Flow

open Code (Expression Statement Body)

abbrev SameBlocks : List Body → List Body → Prop := List.Forall₂ Body.SameFlow

structure Branch.Same (b b' : Branch) : Prop where
  source : b'.source = b.source
  target : b'.target = b.target
  guard : Option.Rel (fun e e' ↦ Expression.constant? e' = e.constant?) b.guard b'.guard

structure Graph.Same (g g' : Graph) : Prop where
  inner : SameBlocks g.inner g'.inner
  branches : List.Forall₂ Branch.Same g.branches g'.branches

section Split

theorem beginsBlock_same {s s' : Statement} (h : s.SameFlow s') : beginsBlock s' = beginsBlock s := by cases h <;> rfl

theorem endsBlock_same {s s' : Statement} (h : s.SameFlow s') : endsBlock s' = endsBlock s := by cases h <;> rfl

theorem consBlock_same {b b' : Body} (h : b.SameFlow b') {bs bs' : List Body} (hbs : SameBlocks bs bs') :
    SameBlocks (consBlock b bs) (consBlock b' bs') := by
  cases h with
  | nil => exact hbs
  | cons hs hrest => exact .cons (.cons hs hrest) hbs

theorem splitFrom_same {pending pending' body body' : Body} (hp : pending.SameFlow pending')
    (h : body.SameFlow body') : SameBlocks (splitFrom pending body) (splitFrom pending' body') := by
  induction h generalizing pending pending' with
  | nil => exact consBlock_same hp .nil
  | cons hs _ ih =>
    simp only [splitFrom, beginsBlock_same hs, endsBlock_same hs]
    split
    · exact consBlock_same hp (ih (.cons hs .nil))
    · split
      · exact .cons (hp.append (.cons hs .nil)) (ih .nil)
      · exact ih (hp.append (.cons hs .nil))

theorem hasLabel_same (l : Label) {b b' : Body} (h : b.SameFlow b') : hasLabel l b' = hasLabel l b := by
  unfold hasLabel
  rw [List.any_eq_not_all_not, List.any_eq_not_all_not]
  exact congrArg _ (all_eq_of_forall₂ h fun _ _ hs ↦ by cases hs <;> rfl)

theorem blockOf?_same {bs bs' : List Body} (h : SameBlocks bs bs') (l : Label) :
    blockOf? bs' l = blockOf? bs l := by
  have hmap := map_eq_of_forall₂ h fun _ _ hb ↦ hasLabel_same l hb
  have hblock (bs : List Body) : blockOf? bs l =
      ((bs.map (hasLabel l)).zipIdx 1).reverse.findSome? fun p ↦ if p.1 then some p.2 else none := by
    rw [blockOf?_eq, List.zipIdx_map, ← List.map_reverse, List.findSome?_map]
    rfl
  rw [hblock, hblock, hmap]

end Split

section Branches

theorem constant?_opposite (e : Expression) : (opposite e).constant? = e.constant?.map (!·) := by
  cases e with
  | literal x => cases x <;> rfl
  | _ => rfl

theorem simplify?_of_constant?_eq_none {source target : Nat} {e : Expression} (h : e.constant? = none) :
    (⟨source, target, some e⟩ : Branch).simplify? = some ⟨source, target, some e⟩ := by
  unfold Branch.simplify?
  split <;> simp_all [Expression.constant?]

theorem simplify?_same {b b' : Branch} (h : b.Same b') : Option.Rel Branch.Same b.simplify? b'.simplify? := by
  obtain ⟨source, target, guard⟩ := b
  obtain ⟨source', target', guard'⟩ := b'
  obtain ⟨rfl, rfl, hguard⟩ := h
  cases hguard with
  | none => exact .some ⟨rfl, rfl, .none⟩
  | @some e e' he =>
    cases hc : e.constant? with
    | none =>
      rw [simplify?_of_constant?_eq_none hc, simplify?_of_constant?_eq_none (he.trans hc)]
      exact .some ⟨rfl, rfl, .some he⟩
    | some b =>
      obtain rfl := Expression.constant?_eq_some hc
      obtain rfl := Expression.constant?_eq_some (he.trans hc)
      cases b with
      | true => exact .some ⟨rfl, rfl, .none⟩
      | false => exact .none

theorem branchesOf?_same {bs bs' : List Body} (h : SameBlocks bs bs') (i : Nat) {b b' : Body}
    (hb : b.SameFlow b') :
    Option.Rel (List.Forall₂ Branch.Same) (branchesOf? bs i b) (branchesOf? bs' i b') := by
  have hone (target : Nat) : List.Forall₂ Branch.Same [⟨i, target, none⟩] [⟨i, target, none⟩] :=
    .cons ⟨rfl, rfl, .none⟩ .nil
  have hlast := getLast?_rel hb
  unfold branchesOf?
  rw [← h.length_eq]
  generalize b.getLast? = o, b'.getLast? = o' at hlast
  cases hlast with
  | none => exact .some .nil
  | some hs =>
    cases hs with
    | goto l =>
      simp only [blockOf?_same h]
      cases blockOf? bs l with
      | none => exact .none
      | some target => exact .some (hone target)
    | @gotoIf e e' l negated he =>
      have hopposite : (opposite e').constant? = (opposite e).constant? := by
        rw [constant?_opposite, constant?_opposite, he]
      simp only [blockOf?_same h]
      cases blockOf? bs l with
      | none => exact .none
      | some target =>
        cases negated with
        | false => exact .some (.cons ⟨rfl, rfl, .some he⟩ (.cons ⟨rfl, rfl, .some hopposite⟩ .nil))
        | true => exact .some (.cons ⟨rfl, rfl, .some hopposite⟩ (.cons ⟨rfl, rfl, .some he⟩ .nil))
    | _ => exact .some (hone _)

theorem full?_same {body body' : Body} (h : body.SameFlow body') :
    Option.Rel Graph.Same (Graph.full? body) (Graph.full? body') := by
  have hblocks : SameBlocks (split body) (split body') := splitFrom_same .nil h
  have hgraph {o o' : Option (List (List Branch))}
      (ho : Option.Rel (List.Forall₂ (List.Forall₂ Branch.Same)) o o') : Option.Rel Graph.Same
        (o.map fun bs ↦ ⟨split body, ((⟨0, 1, none⟩ : Branch) :: bs.flatten).filterMap Branch.simplify?⟩)
        (o'.map fun bs ↦ ⟨split body', ((⟨0, 1, none⟩ : Branch) :: bs.flatten).filterMap Branch.simplify?⟩) := by
    cases ho with
    | none => exact .none
    | some hbs =>
      have hstart : Branch.Same ⟨0, 1, none⟩ ⟨0, 1, none⟩ := ⟨rfl, rfl, .none⟩
      have hsimplify : Relator.LiftFun Branch.Same (Option.Rel Branch.Same) Branch.simplify? Branch.simplify? :=
        fun _ _ ↦ simplify?_same
      exact .some ⟨hblocks, List.rel_filterMap hsimplify (.cons hstart (List.rel_flatten hbs))⟩
  refine hgraph (mapM_rel (zipIdx_rel hblocks 1) ?_)
  rintro ⟨b, i⟩ ⟨b', j⟩ ⟨hb, rfl⟩
  exact branchesOf?_same hblocks j hb

end Branches

namespace Graph.Same

variable {g g' : Graph} (h : g.Same g')
include h

theorem finish : g'.finish = g.finish := congrArg (· + 1) h.inner.length_eq.symm

theorem unreached? (gone : List Nat) : g'.unreached? gone = g.unreached? gone := by
  unfold Graph.unreached?
  rw [h.inner.length_eq]
  congr 1
  funext i
  rw [all_eq_of_forall₂ h.branches fun b b' hb ↦ by rw [hb.source, hb.target]]

theorem unreached (n : Nat) (gone : List Nat) : g'.unreached n gone = g.unreached n gone := by
  induction n generalizing gone with
  | zero => rfl
  | succ n ih =>
    simp only [Graph.unreached, h.unreached?]
    split
    · rfl
    · exact ih _

theorem without (gone : List Nat) : (g.without gone).Same (g'.without gone) := by
  unfold Graph.without
  rw [h.finish]
  refine ⟨List.rel_filterMap ?_ (zipIdx_rel h.inner 1), List.rel_filterMap (fun b b' hb ↦ ?_) h.branches⟩
  · rintro ⟨b, i⟩ ⟨b', j⟩ ⟨hb, rfl⟩
    dsimp only
    split
    · exact .none
    · exact .some hb
  · rw [hb.source, hb.target]
    split
    · exact .none
    · exact .some ⟨rfl, rfl, hb.guard⟩

theorem prune : g.prune.Same g'.prune := by
  unfold Graph.prune
  rw [h.unreached, h.inner.length_eq]
  exact h.without _

theorem block (i : Nat) : (g.block i).SameFlow (g'.block i) := by
  unfold Graph.block
  split
  · exact .nil
  · have hblock := getElem?_rel h.inner (i - 1)
    generalize g.inner[i - 1]? = o, g'.inner[i - 1]? = o' at hblock
    cases hblock with
    | none => exact .nil
    | some hb => exact hb

theorem alwaysReturns : g'.alwaysReturns = g.alwaysReturns := by
  unfold Graph.alwaysReturns
  refine all_eq_of_forall₂ h.branches fun b b' hb ↦ ?_
  have hlast := getLast?_rel (h.block b.source)
  rw [h.finish, hb.source, hb.target]
  congr 1
  generalize (g.block b.source).getLast? = o, (g'.block b.source).getLast? = o' at hlast
  cases hlast with
  | none => rfl
  | some hs => cases hs <;> rfl

end Graph.Same

/-- Whether a body returns on every path depends on the ways that its control goes. -/
theorem alwaysReturns_same {body body' : Body} (h : body.SameFlow body') :
    alwaysReturns body' = alwaysReturns body := by
  have hflat : body'.isFlat = body.isFlat := all_eq_of_forall₂ h fun _ _ hs ↦ by cases hs <;> rfl
  have hfull := full?_same h
  unfold alwaysReturns Graph.ofBody?
  rw [hflat]
  split
  · generalize Graph.full? body = o, Graph.full? body' = o' at hfull
    cases hfull with
    | none => rfl
    | some hg => exact hg.prune.alwaysReturns
  · rfl

end Flow

end SmallScript
