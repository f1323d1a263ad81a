import SmallScript.Proofs.Lowering.Places
import SmallScript.Proofs.Resolve.Jumps

namespace SmallScript

open Code (Statement nodesAll exitsOf)

def Scopes.Ordered (s : Scopes) : Prop :=
  ∀ (i : Nat) (f : Frame) (p : Nat), s.frames[i]? = some f → f.parent = some p → p < i

namespace Scopes.Ordered

variable {s : Scopes} (h : s.Ordered)
include h

theorem push {parent : Nat} (hparent : parent < s.frames.size) : (s.push parent).2.Ordered := by
  intro i f p hf hp
  simp only [Scopes.push, Array.getElem?_push] at hf
  split at hf
  · obtain rfl := Option.some.inj hf
    obtain rfl := Option.some.inj hp
    omega
  · exact h i f p hf hp

theorem set! {i : Nat} {f g : Frame} (hf : s.frames[i]? = some f) (hparent : g.parent = f.parent) :
    (⟨s.frames.set! i g⟩ : Scopes).Ordered := by
  intro j f' p hj hp
  simp only [Array.set!_eq_setIfInBounds, Array.getElem?_setIfInBounds] at hj
  split at hj
  · next heq =>
    split at hj
    · obtain rfl := Option.some.inj hj
      exact heq ▸ h i f p hf (hparent ▸ hp)
    · nomatch hj
  · exact h j f' p hj hp

theorem declareVariable (scope : Nat) (v : Variable) :
    ((s.declareVariable? scope v).getD s).Ordered :=
  declareVariable_keeps h fun _ hf ↦ h.set! hf rfl

theorem declareFunction (scope : Nat) (g : Function) :
    ((s.declareFunction? scope g).getD s).Ordered :=
  declareFunction_keeps h fun _ hf ↦ h.set! hf rfl

end Scopes.Ordered

theorem Scopes.size_declareVariable (s : Scopes) (scope : Nat) (v : Variable) :
    ((s.declareVariable? scope v).getD s).frames.size = s.frames.size :=
  declareVariable_keeps (P := (·.frames.size = s.frames.size)) rfl fun _ _ ↦ by simp

theorem Scopes.size_declareFunction (s : Scopes) (scope : Nat) (g : Function) :
    ((s.declareFunction? scope g).getD s).frames.size = s.frames.size :=
  declareFunction_keeps (P := (·.frames.size = s.frames.size)) rfl fun _ _ ↦ by simp

structure Resolution.Stands (r : Resolution) : Prop where
  scope : r.scope < r.scopes.frames.size
  ordered : r.scopes.Ordered

structure Resolution.Extends (r r' : Resolution) : Prop where
  scope : r'.scope = r.scope
  frames : r.scopes.frames.size ≤ r'.scopes.frames.size
  loopCount : r.loopCount ≤ r'.loopCount
  stands : r.Stands → r'.Stands

theorem Resolution.Extends.refl (r : Resolution) : r.Extends r :=
  ⟨rfl, Nat.le_refl _, Nat.le_refl _, id⟩

theorem Resolution.Extends.trans {r r' r'' : Resolution} (h : r.Extends r') (h' : r'.Extends r'') :
    r.Extends r'' where
  scope := h'.scope.trans h.scope
  frames := Nat.le_trans h.frames h'.frames
  loopCount := Nat.le_trans h.loopCount h'.loopCount
  stands hr := h'.stands (h.stands hr)

theorem Resolution.Extends.leave {r r' : Resolution}
    (h : { r with scopes := (r.scopes.push r.scope).2, scope := (r.scopes.push r.scope).1 }.Extends r') :
    r.Extends { r' with scope := r.scope } := by
  have hsize : (r.scopes.push r.scope).2.frames.size = r.scopes.frames.size + 1 := by simp [Scopes.push]
  have hframes : r.scopes.frames.size + 1 ≤ r'.scopes.frames.size := hsize ▸ h.frames
  refine ⟨rfl, Nat.le_of_lt hframes, h.loopCount, fun hr ↦ ?_⟩
  have hstands := h.stands ⟨by rw [hsize]; exact Nat.lt_succ_self _, hr.ordered.push hr.scope⟩
  exact ⟨Nat.lt_trans hr.scope hframes, hstands.ordered⟩

theorem Resolution.Extends.leaveLoop {r r' : Resolution} {loops loops' : List Exits}
    (h : { r with loopCount := r.loopCount + 1, loops := loops }.Extends r') :
    r.Extends { r' with loops := loops' } := by
  refine ⟨h.scope, h.frames, Nat.le_trans (Nat.le_succ _) h.loopCount, fun hr ↦ ?_⟩
  have hstands := h.stands ⟨hr.scope, hr.ordered⟩
  exact ⟨hstands.scope, hstands.ordered⟩

/-- The nodes of statements whose loops are numbered from `n` on up to `k`, each with exits of its own,
and that have no label otherwise. -/
structure Looped (n k : Nat) (nodes : List Statement) : Prop where
  nodup : (exitsOf nodes).Nodup
  numbered : ∀ l ∈ exitsOf nodes, ∃ i, n < i ∧ i ≤ k ∧ (l = .breakOf i ∨ l = .continueOf i)
  labels : Code.Body.labels nodes = []

namespace Looped

variable {n m k : Nat} {a b : List Statement} {s : Statement}

theorem nil (n k : Nat) : Looped n k [] := ⟨.nil, fun _ hl ↦ (nomatch hl), rfl⟩

theorem of_isFlat (hs : s.isFlat) (hlabel : s.label? = none) : Looped n k s.nodes := by
  cases s with
  | label => nomatch hlabel
  | declare | goto | gotoIf | leave | expression => exact ⟨.nil, fun _ hl ↦ (nomatch hl), rfl⟩
  | _ => nomatch hs

theorem append (h : Looped n m a) (h' : Looped m k b) (hnm : n ≤ m) (hmk : m ≤ k) :
    Looped n k (a ++ b) := by
  refine ⟨?_, fun l hl ↦ ?_, by rw [Code.Body.labels_append, h.labels, h'.labels, List.append_nil]⟩
  · rw [Code.exitsOf_append]
    refine h.nodup.append h'.nodup fun l hl hl' ↦ ?_
    obtain ⟨i, -, hi, hcase⟩ := h.numbered l hl
    obtain ⟨j, hj, -, hcase'⟩ := h'.numbered l hl'
    have hij : i = j := by
      rcases hcase with rfl | rfl
      · rcases hcase' with h | h
        · exact Label.breakOf.inj h
        · nomatch h
      · rcases hcase' with h | h
        · nomatch h
        · exact Label.continueOf.inj h
    omega
  · rw [Code.exitsOf_append] at hl
    rcases List.mem_append.mp hl with hl | hl
    · obtain ⟨i, hlo, hhi, hcase⟩ := h.numbered l hl
      exact ⟨i, hlo, by omega, hcase⟩
    · obtain ⟨i, hlo, hhi, hcase⟩ := h'.numbered l hl
      exact ⟨i, by omega, hhi, hcase⟩

theorem cons (h : Looped n k a) (hexits : s.exits = []) (hlabel : s.label? = none) :
    Looped n k (s :: a) := by
  refine ⟨?_, ?_, ?_⟩
  · rw [Code.exitsOf_cons, hexits]
    exact h.nodup
  · rw [Code.exitsOf_cons, hexits]
    exact h.numbered
  · rw [Code.Body.labels_cons, hlabel]
    exact h.labels

theorem loop (h : Looped (n + 1) k a) (hk : n + 1 ≤ k) {x : Exits}
    (hx : x = ⟨.breakOf (n + 1), .continueOf (n + 1)⟩) (hexits : s.exits = [x.leave, x.again])
    (hlabel : s.label? = none) : Looped n k (s :: a) := by
  rw [hx] at hexits
  have hnot : ∀ l ∈ s.exits, l ∉ exitsOf a := by
    intro l hl hl'
    obtain ⟨i, hi, -, hcase⟩ := h.numbered l hl'
    rw [hexits] at hl
    rcases hcase with rfl | rfl <;> simp at hl <;> omega
  refine ⟨?_, fun l hl ↦ ?_, ?_⟩
  · rw [Code.exitsOf_cons]
    exact List.Nodup.append (by rw [hexits]; simp) h.nodup hnot
  · rw [Code.exitsOf_cons, hexits] at hl
    rcases List.mem_append.mp hl with hl | hl
    · exact ⟨n + 1, by omega, hk, by simpa using hl⟩
    · obtain ⟨i, hlo, hhi, hcase⟩ := h.numbered l hl
      exact ⟨i, by omega, hhi, hcase⟩
  · rw [Code.Body.labels_cons, hlabel]
    exact h.labels

end Looped

namespace Resolver

variable {α β : Type} {m : Resolver α} {f : α → Resolver β} {P : Nat → Nat → α → Prop}
  {Q : Nat → Nat → β → Prop}

/-- An action opens scopes and loops, and its result has `Q` with the number of loops before the action
and that after it. -/
def Opens (m : Resolver α) (Q : Nat → Nat → α → Prop) : Prop :=
  ∀ r, r.Extends (m r).2 ∧ Q r.loopCount (m r).2.loopCount (m r).1

theorem Opens.pure {a : α} (h : ∀ n, P n n a) : Opens (pure a) P :=
  fun r ↦ ⟨.refl r, h r.loopCount⟩

theorem Opens.bind (hm : Opens m P)
    (hf : ∀ a, Opens (f a) fun k l b ↦ ∀ n, n ≤ k → P n k a → k ≤ l → Q n l b) :
    Opens (m >>= f) Q := by
  intro r
  obtain ⟨hext, hP⟩ := hm r
  obtain ⟨hext', hQ⟩ := hf (m r).1 (m r).2
  exact ⟨hext.trans hext', hQ _ hext.loopCount hP hext'.loopCount⟩

theorem Opens.ite {c : Prop} [Decidable c] {m' : Resolver α} (h : Opens m P) (h' : Opens m' P) :
    Opens (if c then m else m') P := by
  split
  · exact h
  · exact h'

theorem Opens.mono {P' : Nat → Nat → α → Prop} (h : Opens m P) (hP : ∀ n k a, P n k a → P' n k a) :
    Opens m P' :=
  fun r ↦ ⟨(h r).1, hP _ _ _ (h r).2⟩

abbrev Loopless (m : Resolver α) : Prop := Opens m fun n k _ ↦ k = n

theorem Loopless.bind (hm : Loopless m) (hf : ∀ a, Opens (f a) Q) : Opens (m >>= f) Q := by
  refine Opens.bind hm fun a ↦ (hf a).mono ?_
  rintro k l b hQ n - rfl -
  exact hQ

theorem Reporting.loopless (h : Reporting m) : Loopless m := by
  intro r
  obtain ⟨new, hnew⟩ := h r
  rw [hnew]
  exact ⟨⟨rfl, Nat.le_refl _, Nat.le_refl _, fun hr ↦ ⟨hr.scope, hr.ordered⟩⟩, rfl⟩

theorem loopless_freshSymbol : Loopless freshSymbol :=
  fun _ ↦ ⟨⟨rfl, Nat.le_refl _, Nat.le_refl _, fun hr ↦ ⟨hr.scope, hr.ordered⟩⟩, rfl⟩

theorem loopless_declareVariable (v : Variable) : Loopless (declareVariable v) := by
  intro r
  rw [declareVariable_snd]
  have hsize := r.scopes.size_declareVariable r.scope v
  refine ⟨⟨rfl, Nat.le_of_eq hsize.symm, Nat.le_refl _, fun hr ↦ ⟨?_, ?_⟩⟩, rfl⟩
  · exact Nat.lt_of_lt_of_eq hr.scope hsize.symm
  · exact hr.ordered.declareVariable r.scope v

theorem loopless_declareFunction (g : Function) : Loopless (declareFunction g) := by
  intro r
  rw [declareFunction_snd]
  have hsize := r.scopes.size_declareFunction r.scope g
  refine ⟨⟨rfl, Nat.le_of_eq hsize.symm, Nat.le_refl _, fun hr ↦ ⟨?_, ?_⟩⟩, rfl⟩
  · exact Nat.lt_of_lt_of_eq hr.scope hsize.symm
  · exact hr.ordered.declareFunction r.scope g

theorem opens_inside (h : Opens m P) : Opens (inside m) P := by
  intro r
  obtain ⟨hext, hP⟩ := h { r with scopes := (r.scopes.push r.scope).2, scope := (r.scopes.push r.scope).1 }
  exact ⟨hext.leave, hP⟩

theorem opens_insideLoop (h : Opens m P) :
    Opens (insideLoop m) fun n k p ↦
      P (n + 1) k p.1 ∧ n + 1 ≤ k ∧ p.2 = ⟨.breakOf (n + 1), .continueOf (n + 1)⟩ := by
  intro r
  obtain ⟨hext, hP⟩ := h { r with
    loopCount := r.loopCount + 1
    loops := ⟨.breakOf (r.loopCount + 1), .continueOf (r.loopCount + 1)⟩ :: r.loops }
  exact ⟨hext.leaveLoop, hP, hext.loopCount, rfl⟩

theorem loopless_declared (owner : Option Function) (identifier : Token) (readOnly : Bool) (ty : Ty) :
    Loopless (declared owner identifier readOnly ty) := by
  refine loopless_freshSymbol.bind fun n ↦ .ite ?_ (.pure fun _ ↦ rfl)
  refine (loopless_declareVariable _).bind fun b ↦ .ite ?_ (.pure fun _ ↦ rfl)
  exact (Reporting.report _ _).loopless.bind fun _ ↦ .pure fun _ ↦ rfl

abbrev Loops (m : Resolver Statement) : Prop := Opens m fun n k s ↦ Looped n k s.nodes

theorem loops_declaration (owner : Option Function) (keyword identifier : Token)
    (clause : Option Tree.TypeClause) (initializer : Tree.Expression) :
    Loops (declaration owner keyword identifier clause initializer) :=
  (reporting_clauseType? _).loopless.bind fun _ ↦ (reporting_value _).loopless.bind fun _ ↦
    (loopless_declared _ _ _ _).bind fun _ ↦ (reporting_convert _ _ _ _).loopless.bind fun _ ↦
      .pure fun _ ↦ .of_isFlat rfl rfl

theorem loops_jump (keyword : Token) (target : Exits → Label) : Loops (jump keyword target) := by
  refine Loopless.bind (fun r ↦ ⟨.refl r, rfl⟩) ?_
  intro r
  split
  · exact .pure fun _ ↦ .of_isFlat rfl rfl
  · exact (Reporting.report _ _).loopless.bind fun _ ↦ .pure fun _ ↦ .of_isFlat rfl rfl

theorem loops_leaving (owner : Option Function) (keyword : Token) (e : Option Tree.Expression) :
    Loops (leaving owner keyword e) := by
  have hreport (span : Span) (cause : Cause) (o : Option Code.Expression) :
      Loops (report span cause >>= fun _ ↦ Pure.pure (.leave o)) :=
    (Reporting.report span cause).loopless.bind fun _ ↦ .pure fun _ ↦ .of_isFlat rfl rfl
  refine (reporting_returned e).loopless.bind ?_
  intro o
  cases owner with
  | none => exact hreport _ _ _
  | some f =>
    dsimp only
    split
    · refine .ite (hreport _ _ _) ?_
      exact (reporting_convert _ _ _ _).loopless.bind fun _ ↦ .pure fun _ ↦ .of_isFlat rfl rfl
    · exact .ite (hreport _ _ _) (.pure fun _ ↦ .of_isFlat rfl rfl)

mutual

theorem loops_statement (owner : Option Function) : (s : Tree.Statement) → Loops (statement owner s)
  | .block _ inner _ =>
    .bind (opens_inside (loops_statements owner inner)) fun _ ↦
      .pure fun _ _ _ h _ ↦ h.cons rfl rfl
  | .declare .. => loops_declaration _ _ _ _ _
  | .ifThen _ _ branch =>
    (reporting_valueOf _ _).loopless.bind fun _ ↦ .bind (loops_statement owner branch) fun _ ↦
      .pure fun _ _ _ h _ ↦ h.cons rfl rfl
  | .ifElse _ _ branch _ otherwise =>
    (reporting_valueOf _ _).loopless.bind fun _ ↦ .bind (loops_statement owner branch) fun _ ↦
      .bind (loops_statement owner otherwise) fun _ ↦
        .pure fun _ _ hle h' _ _ hle' h _ ↦ (h.append h' hle' hle).cons rfl rfl
  | .whileLoop _ _ body =>
    (reporting_valueOf _ _).loopless.bind fun _ ↦
      .bind (opens_insideLoop (loops_statement owner body)) fun _ ↦
        .pure fun _ _ _ ⟨h, hk, hx⟩ _ ↦ h.loop hk hx rfl rfl
  | .doLoop _ body _ _ =>
    .bind (opens_insideLoop (loops_statement owner body)) fun _ ↦
      (reporting_valueOf _ _).loopless.bind fun _ ↦
        .pure fun _ _ _ ⟨h, hk, hx⟩ _ ↦ h.loop hk hx rfl rfl
  | .forLoop _ _ _ _ _ _ body =>
    (reporting_valueOf _ _).loopless.bind fun _ ↦ (reporting_valueOf _ _).loopless.bind fun _ ↦
      opens_inside ((loopless_declared _ _ _ _).bind fun _ ↦
        .bind (opens_insideLoop (loops_statement owner body)) fun _ ↦
          .pure fun _ _ _ ⟨h, hk, hx⟩ _ ↦ h.loop hk hx rfl rfl)
  | .breakLoop keyword => loops_jump keyword _
  | .continueLoop keyword => loops_jump keyword _
  | .leave keyword e => loops_leaving owner keyword e
  | .expression e => (reporting_expression e).loopless.bind fun _ ↦ .pure fun _ ↦ .of_isFlat rfl rfl

theorem loops_statements (owner : Option Function) : (l : List Tree.Statement) →
    Opens (statements owner l) fun n k ss ↦ Looped n k (nodesAll ss)
  | [] => .pure fun n ↦ .nil n n
  | s :: rest =>
    .bind (loops_statement owner s) fun _ ↦ .bind (loops_statements owner rest) fun _ ↦
      .pure fun _ _ hle h' _ _ hle' h _ ↦ h.append h' hle' hle

end

theorem loopless_parameters (seen : List String) (ps : List Tree.Parameter) :
    Loopless (parameters seen ps) := by
  induction ps generalizing seen with
  | nil => exact .pure fun _ ↦ rfl
  | cons p rest ih =>
    refine (reporting_clauseType? _).loopless.bind fun o ↦ .ite ?_ ?_
    · exact (Reporting.report _ _).loopless.bind fun _ ↦ ih seen
    · exact loopless_freshSymbol.bind fun _ ↦ (ih _).bind fun _ ↦ .pure fun _ ↦ rfl

theorem loopless_functionHead (text : Tree.Function) : Loopless (functionHead text) := by
  refine (loopless_parameters _ _).bind fun _ ↦ (reporting_clauseType? _).loopless.bind fun _ ↦
    loopless_freshSymbol.bind fun _ ↦ .ite (.pure fun _ ↦ rfl) ?_
  refine (loopless_declareFunction _).bind fun _ ↦ .ite (.pure fun _ ↦ rfl) ?_
  exact (Reporting.report _ _).loopless.bind fun _ ↦ .pure fun _ ↦ rfl

theorem loopless_functionHeads (ms : List Tree.Member) : Loopless (functionHeads ms) := by
  induction ms with
  | nil => exact .pure fun _ ↦ rfl
  | cons m rest ih =>
    cases m with
    | statement s => exact ih
    | function text =>
      refine (loopless_functionHead text).bind ?_
      intro o
      cases o with
      | none => exact ih
      | some t => exact ih.bind fun _ ↦ .pure fun _ ↦ rfl

end Resolver

end SmallScript
