import SmallScript.Proofs.Code.Rename
import SmallScript.Proofs.Flow.Split
import SmallScript.Proofs.Resolve.Declared
import SmallScript.Proofs.Typing.Basic

namespace SmallScript.Code

section Nodes

def Statement.parts : Statement → List Statement
  | .block ss => ss
  | .ifThen _ s | .whileLoop _ s _ | .doLoop s _ _ | .forLoop _ _ _ s _ => [s]
  | .ifElse _ s s' => [s, s']
  | _ => []

variable {M : Statement → Prop}

mutual

theorem Statement.forall_nodes (hM : ∀ s, M s → ∀ t ∈ s.parts, M t) : (s : Statement) → M s →
    ∀ t ∈ s.nodes, M t
  | .block ss, h => List.forall_mem_cons.mpr ⟨h, forall_nodesAll hM ss (hM _ h)⟩
  | .ifThen _ s, h | .whileLoop _ s _, h | .doLoop s _ _, h | .forLoop _ _ _ s _, h =>
    List.forall_mem_cons.mpr ⟨h, s.forall_nodes hM (hM _ h s (List.mem_singleton_self s))⟩
  | .ifElse _ s s', h =>
    List.forall_mem_cons.mpr ⟨h, List.forall_mem_append.mpr ⟨s.forall_nodes hM (hM _ h s List.mem_cons_self),
      s'.forall_nodes hM (hM _ h s' (List.mem_cons_of_mem s (List.mem_singleton_self s')))⟩⟩
  | .declare _ _, h | .label _, h | .goto _, h | .gotoIf _ _ _, h | .leave _, h | .expression _, h =>
    List.forall_mem_singleton.mpr h

theorem forall_nodesAll (hM : ∀ s, M s → ∀ t ∈ s.parts, M t) : (ss : List Statement) → (∀ s ∈ ss, M s) →
    ∀ t ∈ nodesAll ss, M t
  | [], _ => nofun
  | s :: rest, h =>
    have ⟨hs, hrest⟩ := List.forall_mem_cons.mp h
    List.forall_mem_append.mpr ⟨s.forall_nodes hM hs, forall_nodesAll hM rest hrest⟩

end

end Nodes

section Parts

variable {s t : Statement}

theorem Statement.Of.parts {D : Variable → Prop} {P : Expression → Prop} (h : s.Of D P) (ht : t ∈ s.parts) :
    t.Of D P := by
  cases s with
  | block ss => exact allOf_iff.mp h t ht
  | ifThen e s | whileLoop e s x | doLoop s e x =>
    obtain rfl := List.mem_singleton.mp ht
    exact h.2
  | ifElse e s s' =>
    rcases List.mem_cons.mp ht with rfl | ht
    · exact h.2.1
    · obtain rfl := List.mem_singleton.mp ht
      exact h.2.2
  | forLoop v lower upper s x =>
    obtain rfl := List.mem_singleton.mp ht
    exact h.2.2
  | _ => nomatch ht

theorem nodes_infix_nodesAll {ss : List Statement} (ht : t ∈ ss) : t.nodes <:+: nodesAll ss := by
  induction ss with
  | nil => nomatch ht
  | cons s rest ih =>
    rcases List.mem_cons.mp ht with rfl | ht
    · exact (List.prefix_append _ _).isInfix
    · exact (ih ht).trans (List.suffix_append _ _).isInfix

theorem Statement.nodes_infix (ht : t ∈ s.parts) : t.nodes <:+: s.nodes := by
  cases s with
  | block ss => exact (nodes_infix_nodesAll ht).trans (List.suffix_cons _ _).isInfix
  | ifThen e s | whileLoop e s x | doLoop s e x | forLoop v lower upper s x =>
    obtain rfl := List.mem_singleton.mp ht
    exact (List.suffix_cons _ _).isInfix
  | ifElse e s s' =>
    refine List.IsInfix.trans ?_ (List.suffix_cons _ _).isInfix
    rcases List.mem_cons.mp ht with rfl | ht
    · exact (List.prefix_append _ _).isInfix
    · obtain rfl := List.mem_singleton.mp ht
      exact (List.suffix_append _ _).isInfix
  | _ => nomatch ht

theorem flatten_infix_flattenAll {ss : List Statement} (ht : t ∈ ss) (u : Supply) :
    ∃ u', u.nextSymbol ≤ u'.nextSymbol ∧ (t.flatten u').1 <:+: (flattenAll ss u).1 := by
  induction ss generalizing u with
  | nil => nomatch ht
  | cons s rest ih =>
    rcases List.mem_cons.mp ht with rfl | ht
    · exact ⟨u, Nat.le_refl _, (List.prefix_append _ _).isInfix⟩
    · obtain ⟨u', hle, hin⟩ := ih ht (s.flatten u).2
      exact ⟨u', Nat.le_trans (s.nextSymbol_le u) hle, hin.trans (List.suffix_append _ _).isInfix⟩

theorem Statement.flatten_infix (ht : t ∈ s.parts) (u : Supply) :
    ∃ u', u.nextSymbol ≤ u'.nextSymbol ∧ (t.flatten u').1 <:+: (s.flatten u).1 := by
  cases s with
  | block ss => exact flatten_infix_flattenAll ht u
  | ifThen e s =>
    obtain rfl := List.mem_singleton.mp ht
    exact ⟨u.skip 1, Nat.le_refl _, List.infix_append [_] _ _⟩
  | ifElse e s s' =>
    rcases List.mem_cons.mp ht with rfl | ht
    · refine ⟨u.skip 2, Nat.le_refl _, ?_⟩
      rw [flatten_ifElse, List.append_assoc, List.append_assoc]
      exact List.infix_append [_] _ _
    · obtain rfl := List.mem_singleton.mp ht
      exact ⟨(s.flatten (u.skip 2)).2, s.nextSymbol_le (u.skip 2), List.infix_append _ _ _⟩
  | whileLoop e s x =>
    obtain rfl := List.mem_singleton.mp ht
    exact ⟨u.skip 1, Nat.le_refl _, List.infix_append _ _ _⟩
  | doLoop s e x =>
    obtain rfl := List.mem_singleton.mp ht
    exact ⟨u.skip 1, Nat.le_refl _, List.infix_append [_] _ _⟩
  | forLoop v lower upper s x =>
    obtain rfl := List.mem_singleton.mp ht
    refine ⟨(makeUpperBound v u).2.skip 2, Nat.le_succ _, ?_⟩
    rw [flatten_forLoop]
    refine List.IsInfix.trans ?_ (List.suffix_append _ _).isInfix
    exact (List.prefix_append _ _).isInfix.trans (List.infix_append _ _ _)
  | _ => nomatch ht

end Parts

def Expression.Assigns (A : Variable → Prop) (e : Expression) : Prop := ∀ v ∈ e.assigned, A v

theorem Expression.Assigns.ne_of_readOnly {e : Expression} {v : Variable} (h : e.Assigns (·.readOnly = false))
    (hfixed : v.readOnly = true) : e.Assigns (· ≠ v) := by
  intro w hw heq
  have hfree := h w hw
  rw [heq, hfixed] at hfree
  nomatch hfree

section Assigns

variable {A D : Variable → Prop} {P : Expression → Prop} {R : Rules} {owner : Option Function}

mutual

theorem Expression.WellTyped.assigns : (e : Expression) → e.WellTyped R → e.Assigns R.assignable
  | .error, _ | .literal _, _ | .var _, _ => nofun
  | .assign _ e, ⟨hv, _, he, _⟩ => List.forall_mem_cons.mpr ⟨hv, Expression.WellTyped.assigns e he⟩
  | .unary _ e, ⟨_, he, _⟩ | .convert _ e, ⟨he, _⟩ => Expression.WellTyped.assigns e he
  | .binary e _ e', ⟨_, ⟨he, _⟩, he', _⟩ =>
    List.forall_mem_append.mpr ⟨Expression.WellTyped.assigns e he, Expression.WellTyped.assigns e' he'⟩
  | .call f es, ⟨_, hes⟩ => argumentsTyped_assigns f.parameters es hes

theorem argumentsTyped_assigns : (vs : List Variable) → (es : List Expression) → ArgumentsTyped R vs es →
    ∀ v ∈ assignedAll es, R.assignable v
  | [], [], _ => nofun
  | _ :: vs, e :: es, ⟨⟨he, _⟩, hes⟩ =>
    List.forall_mem_append.mpr ⟨Expression.WellTyped.assigns e he, argumentsTyped_assigns vs es hes⟩

end

mutual

theorem Statement.WellTyped.assigns : (s : Statement) → s.WellTyped R owner →
    s.Of (fun _ ↦ True) (·.Assigns R.assignable)
  | .block ss, h => AllTyped.assigns ss h
  | .declare _ e, ⟨_, he, _⟩ => ⟨trivial, Expression.WellTyped.assigns e he⟩
  | .ifThen e s, ⟨he, h⟩ | .whileLoop e s _, ⟨he, h⟩ | .doLoop s e _, ⟨he, h⟩ =>
    ⟨Expression.WellTyped.assigns e he.1, Statement.WellTyped.assigns s h⟩
  | .ifElse e s s', ⟨he, h, h'⟩ =>
    ⟨Expression.WellTyped.assigns e he.1, Statement.WellTyped.assigns s h, Statement.WellTyped.assigns s' h'⟩
  | .forLoop _ lower upper s _, ⟨_, hl, hu, h⟩ =>
    ⟨trivial, ⟨Expression.WellTyped.assigns lower hl.1, Expression.WellTyped.assigns upper hu.1⟩,
      Statement.WellTyped.assigns s h⟩
  | .gotoIf _ e _, h => Expression.WellTyped.assigns e h.1
  | .expression e, h => Expression.WellTyped.assigns e h
  | .leave none, _ => nofun
  | .leave (some e), h => by
    rintro _ ⟨⟩
    cases owner with
    | none => exact h.elim
    | some f => exact Expression.WellTyped.assigns e h.2.1
  | .label _, _ | .goto _, _ => trivial

theorem AllTyped.assigns : (ss : List Statement) → AllTyped R owner ss →
    AllOf (fun _ ↦ True) (·.Assigns R.assignable) ss
  | [], _ => trivial
  | s :: rest, ⟨hs, hrest⟩ => ⟨Statement.WellTyped.assigns s hs, AllTyped.assigns rest hrest⟩

end

theorem forall_declaredBy_append {a b : List Statement} :
    (∀ v ∈ declaredBy (a ++ b), D v) ↔ (∀ v ∈ declaredBy a, D v) ∧ ∀ v ∈ declaredBy b, D v := by
  rw [declaredBy, List.filterMap_append]
  exact List.forall_mem_append

mutual

theorem Statement.Of.declared : (s : Statement) → s.Of (fun _ ↦ True) P → (∀ v ∈ declaredBy s.nodes, D v) →
    s.Of D P
  | .block ss, h, hD => AllOf.declared ss h hD
  | .declare _ _, ⟨_, he⟩, hD => ⟨hD _ List.mem_cons_self, he⟩
  | .ifThen _ s, ⟨he, h⟩, hD | .whileLoop _ s _, ⟨he, h⟩, hD | .doLoop s _ _, ⟨he, h⟩, hD =>
    ⟨he, Statement.Of.declared s h hD⟩
  | .ifElse _ s s', ⟨he, h, h'⟩, hD =>
    have ⟨hD, hD'⟩ := forall_declaredBy_append.mp hD
    ⟨he, Statement.Of.declared s h hD, Statement.Of.declared s' h' hD'⟩
  | .forLoop _ _ _ s _, ⟨_, he, h⟩, hD =>
    have ⟨hv, hD⟩ := List.forall_mem_cons.mp hD
    ⟨hv, he, Statement.Of.declared s h hD⟩
  | .gotoIf _ _ _, h, _ | .expression _, h, _ | .leave _, h, _ => h
  | .label _, _, _ | .goto _, _, _ => trivial

theorem AllOf.declared : (ss : List Statement) → AllOf (fun _ ↦ True) P ss →
    (∀ v ∈ declaredBy (nodesAll ss), D v) → AllOf D P ss
  | [], _, _ => trivial
  | s :: rest, ⟨hs, hrest⟩, hD =>
    have ⟨hD, hD'⟩ := forall_declaredBy_append.mp hD
    ⟨Statement.Of.declared s hs hD, AllOf.declared rest hrest hD'⟩

end

theorem countsWithin_assigns {n m : Nat} (hA : ∀ v, D v → A v)
    (hbound : ∀ v u, n ≤ u.nextSymbol → u.nextSymbol < m → D v → D (makeUpperBound v u).1) :
    CountsWithin n m D (·.Assigns A) :=
  fun v u hn hm hv ↦ ⟨hbound v u hn hm hv, nofun, List.forall_mem_singleton.mpr (hA v hv)⟩

def CountsWith (D : Variable → Prop) (P : Expression → Prop) : Prop :=
  ∀ v bound, D v → P (atMost v bound) ∧ (increment v).Of (fun _ ↦ True) P

mutual

/-- The expressions of flat code are those of the statements, and those with which loops count. -/
theorem Statement.operands_flatten (hP : CountsWith D P) : (s : Statement) → (u : Supply) → s.Of D P →
    AllOf (fun _ ↦ True) P (s.flatten u).1
  | .block ss, u, h => operands_flattenAll hP ss u h
  | .ifThen e s, u, ⟨he, h⟩ => by
    have ih := s.operands_flatten hP (u.skip 1) h
    exact ⟨he, allOf_append.mpr ⟨ih, trivial, trivial⟩⟩
  | .ifElse e s s', u, ⟨he, h, h'⟩ => by
    have ih := s.operands_flatten hP (u.skip 2) h
    have ih' := s'.operands_flatten hP (s.flatten (u.skip 2)).2 h'
    simp [flatten_ifElse, AllOf, Statement.Of, allOf_append, he, ih, ih']
  | .whileLoop e s x, u, ⟨he, h⟩ | .doLoop s e x, u, ⟨he, h⟩ => by
    have ih := s.operands_flatten hP (u.skip 1) h
    simp [flatten_whileLoop, flatten_doLoop, flatWhile, flatDo, AllOf, Statement.Of, allOf_append, he, ih]
  | .forLoop v lower upper s x, u, ⟨hv, ⟨hl, hu⟩, h⟩ => by
    have ih := s.operands_flatten hP ((makeUpperBound v u).2.skip 2) h
    obtain ⟨hbound, hstep⟩ := hP v (makeUpperBound v u).1 hv
    simp [flatten_forLoop, flatWhile, AllOf, Statement.Of, allOf_append, hl, hu, hbound, hstep, ih]
  | .declare _ _, _, h => ⟨⟨trivial, h.2⟩, trivial⟩
  | .label _, _, h | .goto _, _, h | .gotoIf _ _ _, _, h | .leave _, _, h | .expression _, _, h => ⟨h, trivial⟩

theorem operands_flattenAll (hP : CountsWith D P) : (ss : List Statement) → (u : Supply) → AllOf D P ss →
    AllOf (fun _ ↦ True) P (flattenAll ss u).1
  | [], _, _ => trivial
  | s :: rest, u, ⟨h, hrest⟩ =>
    allOf_append.mpr ⟨s.operands_flatten hP u h, operands_flattenAll hP rest (s.flatten u).2 hrest⟩

end

theorem Statement.Of.operand {s : Statement} (h : s.Of D P) {e : Expression} (he : e ∈ s.operand?) : P e := by
  cases s with
  | declare v e' =>
    obtain rfl := Option.some.inj he
    exact h.2
  | expression | gotoIf =>
    obtain rfl := Option.some.inj he
    exact h
  | leave value => exact h e he
  | _ => nomatch he

theorem Statement.Of.assigned {s : Statement} (h : s.Of A (·.Assigns A)) : ∀ v ∈ s.assigned, A v := by
  cases s with
  | declare v e => exact List.forall_mem_cons.mpr h
  | ifThen e | ifElse e | whileLoop e | doLoop s e => exact h.1
  | gotoIf | expression => exact h
  | forLoop v lower upper => exact List.forall_mem_cons.mpr ⟨h.1, List.forall_mem_append.mpr h.2.1⟩
  | leave e =>
    cases e with
    | none => nofun
    | some e => exact h e rfl
  | block | label | goto => nofun

end Assigns

end SmallScript.Code
