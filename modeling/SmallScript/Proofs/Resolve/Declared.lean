import Mathlib.Data.List.Nodup
import SmallScript.Proofs.Resolve.Fresh

namespace SmallScript

open Code (Statement nodesAll)

def Code.declaredBy (nodes : List Statement) : List Variable := nodes.filterMap Statement.declared?

def Variable.Kind.within (owner : Option Function) : Variable.Kind :=
  if owner.isSome then .local else .global

/-- Nodes that declare variables of one kind, each with a number of its own from `n` on and below `k`, those of
loops read-only. -/
structure Introduced (kind : Variable.Kind) (n k : Nat) (nodes : List Statement) : Prop where
  nodup : (Code.declaredBy nodes).Nodup
  numbered : ∀ v ∈ Code.declaredBy nodes, v.kind = kind ∧ n ≤ v.id ∧ v.id < k
  counters : ∀ s ∈ nodes, ∀ v ∈ s.counter?, v.readOnly = true

namespace Introduced

variable {kind : Variable.Kind} {n m k : Nat} {a b : List Statement} {s : Statement} {v : Variable}

theorem nil (kind : Variable.Kind) (n k : Nat) : Introduced kind n k [] := ⟨.nil, nofun, nofun⟩

theorem mono (h : Introduced kind n m a) (hmk : m ≤ k) : Introduced kind n k a where
  nodup := h.nodup
  numbered v hv :=
    have ⟨hkind, hlo, hhi⟩ := h.numbered v hv
    ⟨hkind, hlo, Nat.lt_of_lt_of_le hhi hmk⟩
  counters := h.counters

theorem append (h : Introduced kind n m a) (h' : Introduced kind m k b) (hnm : n ≤ m) (hmk : m ≤ k) :
    Introduced kind n k (a ++ b) := by
  have hdeclared : Code.declaredBy (a ++ b) = Code.declaredBy a ++ Code.declaredBy b := List.filterMap_append
  refine ⟨?_, ?_, List.forall_mem_append.mpr ⟨h.counters, h'.counters⟩⟩
  · rw [hdeclared]
    refine h.nodup.append h'.nodup fun v hv hv' ↦ ?_
    have hhi := (h.numbered v hv).2.2
    have hlo := (h'.numbered v hv').2.1
    omega
  · rw [hdeclared]
    refine List.forall_mem_append.mpr ⟨(h.mono hmk).numbered, fun v hv ↦ ?_⟩
    obtain ⟨hkind, hlo, hhi⟩ := h'.numbered v hv
    exact ⟨hkind, Nat.le_trans hnm hlo, hhi⟩

theorem cons (h : Introduced kind n k a) (hdeclared : s.declared? = none) (hcounter : s.counter? = none) :
    Introduced kind n k (s :: a) := by
  have hsame : Code.declaredBy (s :: a) = Code.declaredBy a := List.filterMap_cons_none hdeclared
  refine ⟨hsame ▸ h.nodup, hsame ▸ h.numbered, List.forall_mem_cons.mpr ⟨fun v hv ↦ ?_, h.counters⟩⟩
  rw [hcounter] at hv
  nomatch hv

theorem declare (h : Introduced kind (n + 1) k a) (hk : n + 1 ≤ k) (hdeclared : s.declared? = some v)
    (hkind : v.kind = kind) (hid : v.id = n) (hcounter : ∀ w ∈ s.counter?, w.readOnly = true) :
    Introduced kind n k (s :: a) := by
  have hsame : Code.declaredBy (s :: a) = v :: Code.declaredBy a := List.filterMap_cons_some hdeclared
  refine ⟨?_, ?_, List.forall_mem_cons.mpr ⟨hcounter, h.counters⟩⟩
  · rw [hsame]
    refine List.nodup_cons.mpr ⟨fun hv ↦ ?_, h.nodup⟩
    have hlo := (h.numbered v hv).2.1
    omega
  · rw [hsame]
    refine List.forall_mem_cons.mpr ⟨⟨hkind, by omega, by omega⟩, fun w hw ↦ ?_⟩
    obtain ⟨hkind, hlo, hhi⟩ := h.numbered w hw
    exact ⟨hkind, Nat.le_of_succ_le hlo, hhi⟩

theorem of_isFlat (hs : s.isFlat) (hdeclared : s.declared? = none) : Introduced kind n k s.nodes := by
  cases s with
  | declare => nomatch hdeclared
  | label | goto | gotoIf | leave | expression => exact (nil kind n k).cons rfl rfl
  | _ => nomatch hs

end Introduced

namespace Resolver

variable {α β : Type} {m : Resolver α} {f : α → Resolver β} {P : Nat → Nat → α → Prop}
  {Q : Nat → Nat → β → Prop}

theorem Numbers.mono {P' : Nat → Nat → α → Prop} (h : Numbers m P)
    (hP : ∀ n k a, n ≤ k → P n k a → P' n k a) : Numbers m P' := fun r ↦ ⟨(h r).1, hP _ _ _ (h r).1 (h r).2⟩

abbrev Numberless (m : Resolver α) : Prop := Numbers m fun n k _ ↦ k = n

theorem Numberless.bind (hm : Numberless m) (hf : ∀ a, Numbers (f a) Q) : Numbers (m >>= f) Q := by
  refine Numbers.bind hm fun a ↦ (hf a).mono ?_
  rintro k l b - hQ n - rfl
  exact hQ

theorem numberless_declareVariable (v : Variable) : Numberless (declareVariable v) :=
  .of_eq fun r ↦ by rw [declareVariable_snd]

theorem numbers_inside (h : Numbers m P) : Numbers (inside m) P :=
  fun r ↦ h { r with scopes := (r.scopes.push r.scope).2, scope := (r.scopes.push r.scope).1 }

theorem numbers_insideLoop (h : Numbers m P) : Numbers (insideLoop m) fun n k p ↦ P n k p.1 :=
  fun r ↦ h { r with
    loopCount := r.loopCount + 1
    loops := ⟨.breakOf (r.loopCount + 1), .continueOf (r.loopCount + 1)⟩ :: r.loops }

theorem numbers_declared (owner : Option Function) (identifier : Token) (readOnly : Bool) (ty : Ty) :
    Numbers (declared owner identifier readOnly ty) fun n k v ↦
      k = n + 1 ∧ v.kind = .within owner ∧ v.id = n ∧ v.readOnly = readOnly := by
  refine .bind numbers_freshSymbol fun i ↦ .ite ?_ (.pure ?_)
  · refine (numberless_declareVariable _).bind fun b ↦ .ite ?_ (.pure ?_)
    · exact (Reporting.report _ _).numbers.bind fun _ ↦ .pure fun _ _ _ hk n _ ⟨hi, hi'⟩ ↦
        ⟨hk.trans hi', rfl, hi, rfl⟩
    · exact fun _ n _ ⟨hi, hk⟩ ↦ ⟨hk, rfl, hi, rfl⟩
  · exact fun _ n _ ⟨hi, hk⟩ ↦ ⟨hk, rfl, hi, rfl⟩

abbrev Introduces (owner : Option Function) (m : Resolver Statement) : Prop :=
  Numbers m fun n k s ↦ Introduced (.within owner) n k s.nodes

theorem introduces_declaration (owner : Option Function) (keyword identifier : Token)
    (clause : Option Tree.TypeClause) (initializer : Tree.Expression) :
    Introduces owner (declaration owner keyword identifier clause initializer) := by
  refine Numberless.bind (reporting_clauseType? _).numbers fun _ ↦
    Numberless.bind (reporting_value _).numbers fun _ ↦ .bind (numbers_declared _ _ _ _) fun v ↦
      Numberless.bind (reporting_convert _ _ _ _).numbers fun e ↦ .pure ?_
  rintro _ n - ⟨rfl, hkind, hid, -⟩
  exact (Introduced.nil _ _ _).declare (Nat.le_refl _) rfl hkind hid nofun

theorem Finding.any : Finding (fun _ ↦ True) (fun _ ↦ True) fun _ ↦ True :=
  ⟨id, fun _ _ ↦ trivial, fun _ _ ↦ trivial⟩

theorem Reporting.introduces {owner : Option Function} {m : Resolver Statement} (hm : Reporting m)
    (hs : Finds (fun _ ↦ True) m (Finding.Simple (fun _ ↦ True) fun _ ↦ True)) : Introduces owner m := by
  intro r
  obtain ⟨hflat, hof⟩ := (hs.sound r trivial rfl).2
  refine ⟨(hm.numbers r).1, .of_isFlat hflat ?_⟩
  generalize (m r).1 = s at hflat hof
  cases s with
  | declare => exact hof.1.elim
  | label | goto | gotoIf | leave | expression => rfl
  | _ => nomatch hflat

mutual

theorem introduces_statement (owner : Option Function) : (s : Tree.Statement) →
    Introduces owner (statement owner s)
  | .block _ inner _ =>
    .bind (numbers_inside (introduces_statements owner inner)) fun _ ↦ .pure fun _ _ _ h ↦ h.cons rfl rfl
  | .declare .. => introduces_declaration _ _ _ _ _
  | .ifThen _ _ branch =>
    Numberless.bind (reporting_valueOf _ _).numbers fun _ ↦ .bind (introduces_statement owner branch) fun _ ↦
      .pure fun _ _ _ h ↦ h.cons rfl rfl
  | .ifElse _ _ branch _ otherwise =>
    Numberless.bind (reporting_valueOf _ _).numbers fun _ ↦ .bind (introduces_statement owner branch) fun _ ↦
      .bind (introduces_statement owner otherwise) fun _ ↦
        .pure fun _ _ hle' h' _ hle h ↦ (h.append h' hle hle').cons rfl rfl
  | .whileLoop _ _ body =>
    Numberless.bind (reporting_valueOf _ _).numbers fun _ ↦
      .bind (numbers_insideLoop (introduces_statement owner body)) fun _ ↦ .pure fun _ _ _ h ↦ h.cons rfl rfl
  | .doLoop _ body _ _ =>
    .bind (numbers_insideLoop (introduces_statement owner body)) fun _ ↦
      Numberless.bind (reporting_valueOf _ _).numbers fun _ ↦ .pure fun _ _ _ h ↦ h.cons rfl rfl
  | .forLoop _ _ _ _ _ _ body =>
    Numberless.bind (reporting_valueOf _ _).numbers fun _ ↦
      Numberless.bind (reporting_valueOf _ _).numbers fun _ ↦
        numbers_inside (.bind (numbers_declared _ _ _ _) fun _ ↦
          .bind (numbers_insideLoop (introduces_statement owner body)) fun _ ↦
            .pure fun _ _ hle h n _ ⟨hk, hkind, hid, hfixed⟩ ↦ by
              subst hk
              refine h.declare hle rfl hkind hid fun w hw ↦ ?_
              obtain rfl := Option.some.inj hw
              exact hfixed)
  | .breakLoop keyword | .continueLoop keyword =>
    (reporting_jump keyword _).introduces (Finding.any.jump keyword _)
  | .leave keyword e => (reporting_leaving owner keyword e).introduces (Finding.any.leaving owner keyword e)
  | .expression e =>
    Numberless.bind (reporting_expression e).numbers fun _ ↦ .pure fun _ ↦ .of_isFlat rfl rfl

theorem introduces_statements (owner : Option Function) : (l : List Tree.Statement) →
    Numbers (statements owner l) fun n k ss ↦ Introduced (.within owner) n k (nodesAll ss)
  | [] => .pure fun n ↦ .nil _ n n
  | s :: rest =>
    .bind (introduces_statement owner s) fun _ ↦ .bind (introduces_statements owner rest) fun _ ↦
      .pure fun _ _ hle' h' _ hle h ↦ h.append h' hle hle'

end

end Resolver

/-- The statements of a text declare globals, with numbers behind those of its functions. -/
theorem Layer.introduced (earlier : Layers) (source : Tree.Source) (n : Nat) :
    Introduced .global n (ofSource earlier source n).2 (nodesAll (ofSource earlier source n).1.statements) := by
  have h := (Resolver.introduces_statements none source.outside (headed earlier source n).2).2
  have hle := le_headed earlier source n
  refine ⟨h.nodup, fun v hv ↦ ?_, h.counters⟩
  obtain ⟨hkind, hlo, hhi⟩ := h.numbered v hv
  exact ⟨hkind, Nat.le_trans hle hlo, hhi⟩

theorem FunctionText.introduced (t : FunctionText) (layers : Layers) (n : Nat) :
    Introduced .local n (t.resolved layers n).2.nextSymbol (nodesAll (t.resolved layers n).1) := by
  have h := (Resolver.numbers_inside (Resolver.introduces_statements (some t.function) t.text.body.statements)
    (t.start layers n)).2
  have hstart : (t.start layers n).nextSymbol = n := by rw [start_eq]
  rw [hstart] at h
  exact h

end SmallScript
