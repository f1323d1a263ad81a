import SmallScript.Proofs.Code.Parts
import SmallScript.Proofs.Lowering.Places

namespace SmallScript.Code

def Statement.settles : Statement → List Variable
  | .declare v _ => [v]
  | .doLoop s _ _ => s.settles
  | _ => []

def Expression.Clear (E : Variable → Prop) (A : List Variable) (e : Expression) : Prop :=
  ∀ v ∈ e.vars, v ∈ A ∨ E v

mutual

def Statement.Settled (E : Variable → Prop) (A : List Variable) : Statement → Prop
  | .block ss => AllSettled E A ss
  | .declare _ e | .gotoIf _ e _ | .expression e => e.Clear E A
  | .ifThen e s | .whileLoop e s _ => e.Clear E A ∧ s.Settled E A
  | .ifElse e s s' => e.Clear E A ∧ s.Settled E A ∧ s'.Settled E A
  | .doLoop s e _ => s.Settled E A ∧ e.Clear E (s.settles ++ A)
  | .forLoop v lower upper s _ => lower.Clear E A ∧ upper.Clear E A ∧ s.Settled E (v :: A)
  | .leave e => ∀ c ∈ e, c.Clear E A
  | .label _ | .goto _ => True

def AllSettled (E : Variable → Prop) (A : List Variable) : List Statement → Prop
  | [] => True
  | s :: rest => s.Settled E A ∧ AllSettled E (s.settles ++ A) rest

end

section Guarded

variable (E : Variable → Prop) (known : Label → List Variable)

/-- What is known to be assigned behind a statement of flat code, given what is known behind each label. -/
def Statement.knownAfter (A : List Variable) : Statement → List Variable
  | .declare v _ => v :: A
  | .label l => known l
  | _ => A

/-- Whether what a statement of flat code needs is in `A`: what it uses, and what is known behind the label
that it is or jumps to. -/
structure Statement.Guarded (A : List Variable) (s : Statement) : Prop where
  operand : ∀ e ∈ s.operand?, e.Clear E A
  jump : ∀ l ∈ s.jump?, known l ⊆ A
  label : ∀ l ∈ s.label?, known l ⊆ A

def Body.knownEnd (A : List Variable) (b : Body) : List Variable :=
  b.foldl (Statement.knownAfter known) A

def Body.Guarded (A : List Variable) : Body → Prop
  | [] => True
  | s :: b => s.Guarded E known A ∧ Body.Guarded (s.knownAfter known A) b

end Guarded

section

variable {E : Variable → Prop} {known : Label → List Variable} {A A' : List Variable} {b c : Body}
  {s : Statement} {e : Expression}

theorem Expression.Clear.mono (h : e.Clear E A) (hA : A ⊆ A') : e.Clear E A' :=
  fun v hv ↦ (h v hv).imp_left fun hv ↦ hA hv

theorem subset_of_eq (h : A = A') : A ⊆ A' := h ▸ List.Subset.refl A

theorem append_subset_append {α : Type} {A A' : List α} (l : List α) (hA : A ⊆ A') : l ++ A ⊆ l ++ A' := by
  intro v hv
  rcases List.mem_append.mp hv with hv | hv
  · exact List.mem_append_left A' hv
  · exact List.mem_append_right l (hA hv)

mutual

theorem Statement.Settled.mono {A A' : List Variable} (hA : A ⊆ A') : (s : Statement) →
    s.Settled E A → s.Settled E A'
  | .block ss, h => AllSettled.mono hA ss h
  | .declare _ _, h | .gotoIf _ _ _, h | .expression _, h => Expression.Clear.mono h hA
  | .ifThen _ s, h | .whileLoop _ s _, h => ⟨h.1.mono hA, Statement.Settled.mono hA s h.2⟩
  | .ifElse _ s s', h =>
    ⟨h.1.mono hA, Statement.Settled.mono hA s h.2.1, Statement.Settled.mono hA s' h.2.2⟩
  | .doLoop s _ _, h =>
    ⟨Statement.Settled.mono hA s h.1, h.2.mono (append_subset_append s.settles hA)⟩
  | .forLoop v _ _ s _, h =>
    ⟨h.1.mono hA, h.2.1.mono hA, Statement.Settled.mono (append_subset_append [v] hA) s h.2.2⟩
  | .leave _, h => fun c hc ↦ (h c hc).mono hA
  | .label _, _ | .goto _, _ => trivial

theorem AllSettled.mono {A A' : List Variable} (hA : A ⊆ A') : (ss : List Statement) →
    AllSettled E A ss → AllSettled E A' ss
  | [], _ => trivial
  | s :: rest, h =>
    ⟨Statement.Settled.mono hA s h.1, AllSettled.mono (append_subset_append s.settles hA) rest h.2⟩

end

theorem Statement.knownAfter_mono (hA : A ⊆ A') (s : Statement) :
    s.knownAfter known A ⊆ s.knownAfter known A' := by
  cases s with
  | declare v e => exact append_subset_append [v] hA
  | label l => exact List.Subset.refl _
  | _ => exact hA

theorem Statement.Guarded.mono (h : s.Guarded E known A) (hA : A ⊆ A') : s.Guarded E known A' where
  operand e he := (h.operand e he).mono hA
  jump l hl := List.Subset.trans (h.jump l hl) hA
  label l hl := List.Subset.trans (h.label l hl) hA

namespace Body

theorem Guarded.mono (h : Guarded E known A b) (hA : A ⊆ A') : Guarded E known A' b := by
  induction b generalizing A A' with
  | nil => trivial
  | cons s b ih => exact ⟨h.1.mono hA, ih h.2 (s.knownAfter_mono hA)⟩

theorem knownEnd_mono (hA : A ⊆ A') (b : Body) : knownEnd known A b ⊆ knownEnd known A' b := by
  induction b generalizing A A' with
  | nil => exact hA
  | cons s b ih => exact ih (s.knownAfter_mono hA)

theorem guarded_cons :
    Guarded E known A (s :: b) ↔ s.Guarded E known A ∧ Guarded E known (s.knownAfter known A) b := Iff.rfl

theorem knownEnd_append (A : List Variable) (b c : Body) :
    knownEnd known A (b ++ c) = knownEnd known (knownEnd known A b) c := List.foldl_append

theorem guarded_append :
    Guarded E known A (b ++ c) ↔ Guarded E known A b ∧ Guarded E known (knownEnd known A b) c := by
  induction b generalizing A with
  | nil => exact iff_of_eq (true_and _).symm
  | cons s b ih => rw [List.cons_append, guarded_cons, guarded_cons, ih, and_assoc]; rfl

theorem Guarded.at (h : Guarded E known A b) {i : Nat} (hs : b[i]? = some s) :
    s.Guarded E known (knownEnd known A (b.take i)) := by
  obtain ⟨hi, rfl⟩ := List.getElem?_eq_some_iff.mp hs
  rw [← List.take_append_drop i b, guarded_append, List.drop_eq_getElem_cons hi] at h
  exact h.2.1

theorem knownEnd_take_succ {i : Nat} (hs : b[i]? = some s) (A : List Variable) :
    knownEnd known A (b.take (i + 1)) = s.knownAfter known (knownEnd known A (b.take i)) := by
  rw [List.take_add_one, hs, knownEnd_append]
  rfl

/-- A piece of flat code that goes from what is known before it to what is known behind it. -/
structure Passes (E : Variable → Prop) (known : Label → List Variable) (A A' : List Variable) (b : Body) :
    Prop where
  guarded : Guarded E known A b
  reaches : A' ⊆ knownEnd known A b

namespace Passes

variable {A'' : List Variable}

theorem nil (hA : A' ⊆ A) : Passes E known A A' [] := ⟨trivial, hA⟩

theorem append (h : Passes E known A A' b) (h' : Passes E known A' A'' c) :
    Passes E known A A'' (b ++ c) where
  guarded := guarded_append.mpr ⟨h.guarded, h'.guarded.mono h.reaches⟩
  reaches := by
    rw [knownEnd_append]
    exact List.Subset.trans h'.reaches (knownEnd_mono h.reaches c)

theorem cons (hs : s.Guarded E known A) (h : Passes E known (s.knownAfter known A) A' b) :
    Passes E known A A' (s :: b) := ⟨⟨hs, h.guarded⟩, h.reaches⟩

theorem weaken (h : Passes E known A A' b) (hA : A'' ⊆ A') : Passes E known A A'' b :=
  ⟨h.guarded, List.Subset.trans hA h.reaches⟩

theorem label {l : Label} (hl : known l = A') (hA : A' ⊆ A) (h : Passes E known A' A'' b) :
    Passes E known A A'' (.label l :: b) :=
  .cons ⟨nofun, nofun, by rintro _ ⟨⟩; exact hl ▸ hA⟩ (by rw [← hl] at h; exact h)

theorem goto {l : Label} (hl : known l ⊆ A) (h : Passes E known A A' b) :
    Passes E known A A' (.goto l :: b) :=
  .cons ⟨nofun, by rintro _ ⟨⟩; exact hl, nofun⟩ h

theorem gotoIf {l : Label} {negated : Bool} (he : e.Clear E A) (hl : known l ⊆ A)
    (h : Passes E known A A' b) : Passes E known A A' (.gotoIf l e negated :: b) :=
  .cons ⟨by rintro _ ⟨⟩; exact he, by rintro _ ⟨⟩; exact hl, nofun⟩ h

theorem declare {v : Variable} (he : e.Clear E A) (h : Passes E known (v :: A) A' b) :
    Passes E known A A' (.declare v e :: b) :=
  .cons ⟨by rintro _ ⟨⟩; exact he, nofun, nofun⟩ h

theorem expression (he : e.Clear E A) (h : Passes E known A A' b) :
    Passes E known A A' (.expression e :: b) :=
  .cons ⟨by rintro _ ⟨⟩; exact he, nofun, nofun⟩ h

end Passes

end Body

end

mutual

def Statement.marks (A : List Variable) : Statement → Supply → List (Label × List Variable)
  | .block ss, u => marksAll A ss u
  | .ifThen _ s, u => s.marks A (u.skip 1) ++ [(u.label 0, A)]
  | .ifElse _ s s', u =>
    s.marks A (u.skip 2) ++ (u.label 0, A) :: s'.marks A (s.flatten (u.skip 2)).2 ++ [(u.label 1, A)]
  | .whileLoop _ s x, u => (u.label 0, A) :: s.marks A (u.skip 1) ++ [(x.again, A), (x.leave, A)]
  | .doLoop s _ x, u =>
    (u.label 0, A) :: s.marks A (u.skip 1) ++ [(x.again, s.settles ++ A), (x.leave, s.settles ++ A)]
  | .forLoop v _ _ s x, u =>
    let inner := (makeUpperBound v u).1 :: v :: A
    (u.label 1, inner) :: s.marks inner ((makeUpperBound v u).2.skip 2) ++
      [(x.again, inner), (u.label 0, inner), (x.leave, A)]
  | .label l, _ => [(l, A)]
  | .declare _ _, _ | .goto _, _ | .gotoIf _ _ _, _ | .leave _, _ | .expression _, _ => []

def marksAll (A : List Variable) : List Statement → Supply → List (Label × List Variable)
  | [], _ => []
  | s :: rest, u => s.marks A u ++ marksAll (s.settles ++ A) rest (s.flatten u).2

end

mutual

theorem Statement.map_fst_marks : (s : Statement) → (A : List Variable) → (u : Supply) →
    (s.marks A u).map Prod.fst = (s.flatten u).1.labels
  | .block ss, A, u => map_fst_marksAll ss A u
  | .ifThen _ s, A, u => by
    simp [Statement.marks, flatten_ifThen, Statement.label?, s.map_fst_marks]
  | .ifElse _ s s', A, u => by
    simp [Statement.marks, flatten_ifElse, Statement.label?, s.map_fst_marks, s'.map_fst_marks]
  | .whileLoop _ s x, A, u => by simp [Statement.marks, flatten_whileLoop, s.map_fst_marks]
  | .doLoop s _ x, A, u => by simp [Statement.marks, flatten_doLoop, s.map_fst_marks]
  | .forLoop v _ _ s x, A, u => by
    simp [Statement.marks, flatten_forLoop, Statement.label?, increment, s.map_fst_marks]
  | .label _, _, _ | .declare _ _, _, _ | .goto _, _, _ | .gotoIf _ _ _, _, _ | .leave _, _, _
  | .expression _, _, _ => rfl

theorem map_fst_marksAll : (ss : List Statement) → (A : List Variable) → (u : Supply) →
    (marksAll A ss u).map Prod.fst = (flattenAll ss u).1.labels
  | [], _, _ => rfl
  | s :: rest, A, u => by
    simp [marksAll, flattenAll_cons, s.map_fst_marks, map_fst_marksAll rest]

end

theorem Statement.jumpsInside_of_settles {loops loops' : List Exits} : (s : Statement) →
    s.settles ≠ [] → s.JumpsInside loops → s.JumpsInside loops'
  | .declare _ _, _, _ => trivial
  | .doLoop s _ x, hs, h => s.jumpsInside_of_settles hs (show s.JumpsInside (x :: loops) from h)
  | .block _, hs, _ | .ifThen _ _, hs, _ | .ifElse _ _ _, hs, _ | .whileLoop _ _ _, hs, _
  | .forLoop _ _ _ _ _, hs, _ | .label _, hs, _ | .goto _, hs, _ | .gotoIf _ _ _, hs, _ | .leave _, hs, _
  | .expression _, hs, _ => absurd rfl hs

section Passes

open Body

variable {E : Variable → Prop} {known : Label → List Variable}

theorem known_of_isExit_cons {A : List Variable} {loops : List Exits} {x : Exits}
    (h : ∀ l, IsExit loops l → known l ⊆ A) (hagain : known x.again ⊆ A) (hleave : known x.leave ⊆ A)
    (l : Label) (hl : IsExit (x :: loops) l) : known l ⊆ A := by
  rcases isExit_cons.mp hl with (rfl | rfl) | hl
  · exact hleave
  · exact hagain
  · exact h l hl

mutual

/-- The flat code of a statement that reads only what is assigned passes on what is known, if each label made
for it is known as marked, and the exits of the loops around it are known not to need more. -/
theorem Statement.passes_flatten : (s : Statement) → (u : Supply) → (A : List Variable) →
    (loops : List Exits) → (∀ l, IsExit loops l → known l ⊆ A) → s.Settled E A → s.JumpsInside loops →
    (∀ p ∈ s.marks A u, known p.1 = p.2) → Passes E known A (s.settles ++ A) (s.flatten u).1
  | .block ss, u, A, loops, hloops, hs, hj, hm => passes_flattenAll ss u A loops hloops hs hj hm
  | .ifThen e s, u, A, loops, hloops, hs, hj, hm => by
    simp only [Statement.marks, List.forall_mem_append, List.forall_mem_singleton] at hm
    have ih := s.passes_flatten (u.skip 1) A loops hloops hs.2 hj hm.1
    simp only [flatten_ifThen, List.cons_append]
    refine .gotoIf hs.1 (subset_of_eq hm.2) ((ih.weaken (List.subset_append_right _ A)).append ?_)
    exact .label hm.2 (List.Subset.refl A) (.nil (List.Subset.refl A))
  | .ifElse e s s', u, A, loops, hloops, hs, hj, hm => by
    simp only [Statement.marks, List.forall_mem_append, List.forall_mem_cons] at hm
    obtain ⟨⟨hm₁, hother, hm₂⟩, hdone, -⟩ := hm
    have ih := s.passes_flatten (u.skip 2) A loops hloops hs.2.1 hj.1 hm₁
    have ih' := s'.passes_flatten (s.flatten (u.skip 2)).2 A loops hloops hs.2.2 hj.2 hm₂
    have hend : Passes E known A A [.label (u.label 1)] :=
      .label hdone (List.Subset.refl A) (.nil (List.Subset.refl A))
    simp only [flatten_ifElse, List.cons_append, List.append_assoc]
    refine .gotoIf hs.1 (subset_of_eq hother) ((ih.weaken (List.subset_append_right _ A)).append ?_)
    refine .goto (subset_of_eq hdone) (.label hother (List.Subset.refl A) ?_)
    exact (ih'.weaken (List.subset_append_right _ A)).append hend
  | .whileLoop e s x, u, A, loops, hloops, hs, hj, hm => by
    simp only [Statement.marks, List.cons_append, List.forall_mem_append, List.forall_mem_cons] at hm
    obtain ⟨hstart, hm, hagain, hleave, -⟩ := hm
    have ih := s.passes_flatten (u.skip 1) A (x :: loops)
      (known_of_isExit_cons hloops (subset_of_eq hagain) (subset_of_eq hleave)) hs.2 hj hm
    simp only [flatten_whileLoop, flatWhile, List.cons_append, List.nil_append]
    refine .goto (subset_of_eq hagain) (.label hstart (List.Subset.refl A)
      ((ih.weaken (List.subset_append_right _ A)).append ?_))
    exact .label hagain (List.Subset.refl A) (.gotoIf hs.1 (subset_of_eq hstart)
      (.label hleave (List.Subset.refl A) (.nil (List.Subset.refl A))))
  | .doLoop s e x, u, A, loops, hloops, hs, hj, hm => by
    simp only [Statement.marks, List.cons_append, List.forall_mem_append, List.forall_mem_cons] at hm
    obtain ⟨hstart, hm, hagain, hleave, -⟩ := hm
    have ih : Passes E known A (s.settles ++ A) (s.flatten (u.skip 1)).1 := by
      -- A body that settles something does not jump to the exits, where that is known already.
      by_cases hnil : s.settles = []
      · rw [hnil] at hagain hleave
        exact s.passes_flatten (u.skip 1) A (x :: loops)
          (known_of_isExit_cons hloops (subset_of_eq hagain) (subset_of_eq hleave)) hs.1 hj hm
      · exact s.passes_flatten (u.skip 1) A loops hloops hs.1 (s.jumpsInside_of_settles hnil hj) hm
    have hsub := List.subset_append_right s.settles A
    simp only [flatten_doLoop, flatDo, List.cons_append]
    refine .label hstart (List.Subset.refl A) (ih.append ?_)
    exact .label hagain (List.Subset.refl _) (.gotoIf hs.2 (hstart ▸ hsub)
      (.label hleave (List.Subset.refl _) (.nil (List.Subset.refl _))))
  | .forLoop v lower upper s x, u, A, loops, hloops, hs, hj, hm => by
    simp only [Statement.marks, List.cons_append, List.forall_mem_append, List.forall_mem_cons] at hm
    generalize hbound : (makeUpperBound v u).1 = bound at hm
    obtain ⟨hstart, hm, hagain, htest, hleave, -⟩ := hm
    have hsub : A ⊆ bound :: v :: A := List.subset_append_right [bound, v] A
    have hinner : v :: A ⊆ bound :: v :: A := List.subset_append_right [bound] (v :: A)
    have ih := s.passes_flatten ((makeUpperBound v u).2.skip 2) (bound :: v :: A) (x :: loops)
      (known_of_isExit_cons (fun l hl ↦ List.Subset.trans (hloops l hl) hsub) (subset_of_eq hagain)
        (hleave ▸ hsub)) (hs.2.2.mono hinner s) hj hm
    have htests : (atMost v bound).Clear E (bound :: v :: A) := by
      intro w hw
      have hw : w = v ∨ w = bound := by simpa [atMost, Expression.vars] using hw
      rcases hw with rfl | rfl <;> simp
    have hcount : (Expression.assign v (.binary (.var v) ⟨.plus, .addition, .int, .int⟩
        (.literal (.int 1)))).Clear E (bound :: v :: A) := by
      intro w hw
      have hw : w = v := by simpa [Expression.vars] using hw
      simp [hw]
    simp only [flatten_forLoop, flatWhile, hbound, List.cons_append, List.append_assoc, List.nil_append]
    refine .declare hs.1 (.declare (hs.2.1.mono (List.subset_cons_self v A)) ?_)
    refine .goto (subset_of_eq htest) (.label hstart (List.Subset.refl _)
      ((ih.weaken (List.subset_append_right _ _)).append ?_))
    refine .label hagain (List.Subset.refl _) (.expression hcount (.label htest (List.Subset.refl _) ?_))
    exact .gotoIf htests (subset_of_eq hstart) (.label hleave hsub (.nil (List.Subset.refl A)))
  | .declare v e, _, A, _, _, hs, _, _ => .declare hs (.nil (List.Subset.refl _))
  | .label l, _, A, _, _, _, _, hm =>
    .label (hm _ List.mem_cons_self) (List.Subset.refl A) (.nil (List.Subset.refl A))
  | .goto l, _, A, _, hloops, _, hj, _ => .goto (hloops l hj) (.nil (List.Subset.refl A))
  | .gotoIf l e _, _, A, _, hloops, hs, hj, _ => .gotoIf hs (hloops l hj) (.nil (List.Subset.refl A))
  | .leave _, _, A, _, _, hs, _, _ => .cons ⟨hs, nofun, nofun⟩ (.nil (List.Subset.refl A))
  | .expression _, _, A, _, _, hs, _, _ => .expression hs (.nil (List.Subset.refl A))

theorem passes_flattenAll : (ss : List Statement) → (u : Supply) → (A : List Variable) →
    (loops : List Exits) → (∀ l, IsExit loops l → known l ⊆ A) → AllSettled E A ss →
    AllJumpInside loops ss → (∀ p ∈ marksAll A ss u, known p.1 = p.2) →
    Passes E known A A (flattenAll ss u).1
  | [], _, A, _, _, _, _, _ => .nil (List.Subset.refl A)
  | s :: rest, u, A, loops, hloops, hs, hj, hm => by
    obtain ⟨hm, hm'⟩ := List.forall_mem_append.mp hm
    have hsub := List.subset_append_right s.settles A
    have ih := s.passes_flatten u A loops hloops hs.1 hj.1 hm
    have ih' := passes_flattenAll rest (s.flatten u).2 (s.settles ++ A) loops
      (fun l hl ↦ List.Subset.trans (hloops l hl) hsub) hs.2 hj.2 hm'
    exact ih.append (ih'.weaken hsub)

end

theorem lookup_of_nodup {α β : Type} [BEq α] [LawfulBEq α] {l : List (α × β)} (h : (l.map Prod.fst).Nodup)
    {a : α} {b : β} (hab : (a, b) ∈ l) : l.lookup a = some b := by
  obtain ⟨before, after, rfl⟩ := List.append_of_mem hab
  refine List.lookup_eq_some_iff.mpr ⟨before, after, rfl, fun p hp ↦ ?_⟩
  rw [List.map_append, List.nodup_append] at h
  have hne := h.2.2 p.1 (List.mem_map_of_mem hp) a (List.mem_map_of_mem List.mem_cons_self)
  simpa using hne.symm

/-- Of flat code made from statements that read only what is assigned, it is known at each label what is. -/
theorem exists_guarded_flattenBody {ss : List Statement} {A : List Variable} {n : Nat}
    (hs : AllSettled E A ss) (hj : AllJumpInside [] ss) (hlabels : (flattenBody ss n).1.labels.Nodup) :
    ∃ known : Label → List Variable, Body.Guarded E known A (flattenBody ss n).1 := by
  have hkeys : ((marksAll A ss ⟨0, n⟩).map Prod.fst).Nodup := by
    rw [map_fst_marksAll]
    exact hlabels
  refine ⟨fun l ↦ ((marksAll A ss ⟨0, n⟩).lookup l).getD [], ?_⟩
  refine (passes_flattenAll ss ⟨0, n⟩ A [] (fun l hl ↦ ?_) hs hj fun p hp ↦ ?_).guarded
  · obtain ⟨x, hx, -⟩ := hl
    nomatch hx
  · rw [lookup_of_nodup hkeys hp]
    rfl

end Passes

end SmallScript.Code
