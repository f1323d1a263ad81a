import Mathlib.Data.List.Forall2
import SmallScript.Proofs.Code.Flatten
import SmallScript.Proofs.Resolve.Fading
import SmallScript.Proofs.Run.Given
import SmallScript.Proofs.Typing.Elaborates

namespace SmallScript

open Code (Statement Expression)

/-- What a statement of flat code comes from: a statement of the source that holds no other, the way that control
takes through a branch or a loop, or a loop over a range, which gives values to its variable and its bound. -/
inductive Origin
  | source (s : Tree.Statement)
  | control
  | counter
  | bound
  | increment

namespace Origin

/-- Whether a statement comes from an expression or a declaration of the source. -/
def isOwn : Origin → Bool
  | source (.declare ..) | source (.expression _) => true
  | _ => false

/-- Whether a statement comes from a loop over a range and gives a value. -/
def isRange : Origin → Bool
  | counter | bound | increment => true
  | _ => false

/-- Outside functions, a statement is what its origin makes of it without a report. -/
inductive Yields : Origin → Statement → Prop
  | source {s : Tree.Statement} {c : Statement} {r : Resolution}
    (hquiet : (Resolver.statement none s r).2.reports = r.reports) (h : c = (Resolver.statement none s r).1) :
    Yields (.source s) c
  | label (l : Label) : Yields .control (.label l)
  | goto (l : Label) : Yields .control (.goto l)
  | gotoIf (l : Label) (e : Expression) (negated : Bool) : Yields .control (.gotoIf l e negated)
  | counter {v : Variable} (hv : v.readOnly = true) (e : Expression) : Yields .counter (.declare v e)
  | bound {v : Variable} (hv : v.name = "upperBound") (e : Expression) : Yields .bound (.declare v e)
  | increment {v : Variable} (hv : v.readOnly = true) : Yields .increment (Code.increment v)

end Origin

namespace Tree

mutual

def Statement.origins : Statement → List Origin
  | .block _ inner _ => originsAll inner
  | .ifThen _ _ branch => .control :: branch.origins ++ [.control]
  | .ifElse _ _ branch _ otherwise =>
    .control :: branch.origins ++ [.control, .control] ++ otherwise.origins ++ [.control]
  | .whileLoop _ _ body => [.control, .control] ++ body.origins ++ [.control, .control, .control]
  | .doLoop _ body _ _ => .control :: body.origins ++ [.control, .control, .control]
  | .forLoop _ _ _ _ _ _ body =>
    [.counter, .bound] ++ ([.control, .control] ++ (body.origins ++ [.control, .increment]) ++
      [.control, .control, .control])
  | .declare keyword identifier clause equals initializer =>
    [.source (.declare keyword identifier clause equals initializer)]
  | .breakLoop keyword => [.source (.breakLoop keyword)]
  | .continueLoop keyword => [.source (.continueLoop keyword)]
  | .leave keyword value => [.source (.leave keyword value)]
  | .expression e => [.source (.expression e)]

def originsAll : List Statement → List Origin
  | [] => []
  | s :: rest => s.origins ++ originsAll rest

end

def Paired (l : List Origin) : Prop := ∀ i : Nat, l[i]? = some .counter → l[i + 1]? = some .bound

theorem Paired.append {l l' : List Origin} (h : Paired l) (h' : Paired l') : Paired (l ++ l') := by
  intro i hi
  by_cases hlt : i < l.length
  · rw [List.getElem?_append_left hlt] at hi
    have hnext := h i hi
    rwa [List.getElem?_append_left (List.getElem?_eq_some_iff.mp hnext).1]
  · rw [List.getElem?_append_right (Nat.le_of_not_lt hlt)] at hi
    rw [List.getElem?_append_right (by omega), show i + 1 - l.length = i - l.length + 1 by omega]
    exact h' _ hi

theorem paired_of_not_mem {l : List Origin} (h : .counter ∉ l) : Paired l :=
  fun _ hi ↦ absurd (List.mem_of_getElem? hi) h

theorem paired_control (n : Nat) : Paired (List.replicate n .control) :=
  paired_of_not_mem fun h ↦ nomatch List.eq_of_mem_replicate h

theorem paired_source (s : Statement) : Paired [.source s] :=
  paired_of_not_mem fun h ↦ nomatch List.mem_singleton.mp h

theorem paired_range : Paired [.counter, .bound]
  | 0, _ => rfl
  | 1, h => nomatch h
  | _ + 2, h => nomatch h

theorem paired_turn : Paired [.control, .increment]
  | 0, h => nomatch h
  | 1, h => nomatch h
  | _ + 2, h => nomatch h

mutual

theorem Statement.paired_origins : (s : Statement) → Paired s.origins
  | .block _ inner _ => paired_originsAll inner
  | .ifThen _ _ branch => ((paired_control 1).append branch.paired_origins).append (paired_control 1)
  | .ifElse _ _ branch _ otherwise =>
    ((((paired_control 1).append branch.paired_origins).append (paired_control 2)).append
      otherwise.paired_origins).append (paired_control 1)
  | .whileLoop _ _ body => ((paired_control 2).append body.paired_origins).append (paired_control 3)
  | .doLoop _ body _ _ => ((paired_control 1).append body.paired_origins).append (paired_control 3)
  | .forLoop _ _ _ _ _ _ body =>
    paired_range.append
      (((paired_control 2).append (body.paired_origins.append paired_turn)).append (paired_control 3))
  | .declare .. | .breakLoop _ | .continueLoop _ | .leave _ _ | .expression _ => paired_source _

theorem paired_originsAll : (ss : List Statement) → Paired (originsAll ss)
  | [] => paired_control 0
  | s :: rest => s.paired_origins.append (paired_originsAll rest)

end

end Tree

namespace Resolver

abbrev Quietly {α : Type} (m : Resolver α) (Q : α → Prop) : Prop :=
  Honest Resolution.reports (fun _ ↦ True) m Q

section

variable {α : Type} {m : Resolver α} {Q : α → Prop}

theorem quietly_of_grows (h : Grows Resolution.reports m) : Quietly m fun _ ↦ True :=
  ⟨h, fun _ _ _ ↦ ⟨trivial, trivial⟩⟩

theorem Reporting.quietly (h : Reporting m) : Quietly m fun _ ↦ True := quietly_of_grows h.grows

theorem quietly_inside (h : Quietly m Q) : Quietly (inside m) Q :=
  .bind (quietly_of_grows (.of_log_eq fun _ ↦ rfl)) fun _ ↦ .bind h fun _ ↦
    .bind (quietly_of_grows (.of_log_eq fun _ ↦ rfl)) fun _ ↦ .pure fun _ h _ ↦ h

theorem quietly_insideLoop (h : Quietly m Q) : Quietly (insideLoop m) fun p ↦ Q p.1 :=
  .bind (quietly_of_grows (.of_log_eq fun _ ↦ rfl)) fun _ ↦ .bind h fun _ ↦
    .bind (quietly_of_grows (.of_log_eq fun _ ↦ rfl)) fun _ ↦ .pure fun _ h _ ↦ h

end

abbrev Stand (origins : List Origin) (c : Statement) : Prop :=
  ∀ u, List.Forall₂ Origin.Yields origins (c.flatten u).1

theorem stand_source {s : Tree.Statement} (h : Grows Resolution.reports (statement none s))
    (hflat : ∀ r, (statement none s r).1.isFlat) : Quietly (statement none s) (Stand [.source s]) where
  grows := h
  sound r _ hr := ⟨trivial, fun u ↦ by
    rw [Code.flatten_of_isFlat u (hflat r)]
    exact .cons (.source hr rfl) .nil⟩

theorem grows_declaration (keyword identifier : Token) (clause : Option Tree.TypeClause)
    (initializer : Tree.Expression) :
    Grows Resolution.reports (declaration none keyword identifier clause initializer) :=
  .bind (reporting_clauseType? clause).grows fun _ ↦ .bind (reporting_value initializer).grows fun _ ↦
    grows_declare _ _ _ _ _ _

theorem readOnly_declared (identifier : Token) (ty : Ty) :
    Quietly (declared none identifier true ty) fun v ↦ v.readOnly = true := by
  refine .bind (quietly_of_grows grows_freshSymbol) fun n ↦ .ite (fun _ ↦ ?_) fun _ ↦ .pure fun _ ↦ rfl
  refine .bind (quietly_of_grows (grows_declareVariable _)) fun b ↦ .ite (fun _ ↦ ?_) fun _ ↦ .pure fun _ _ ↦ rfl
  exact .bind (honest_report _ _) fun _ ↦ .pure fun h ↦ h.elim

theorem isFlat_jump (keyword : Token) (target : Exits → Label) (r : Resolution) :
    (jump keyword target r).1.isFlat := by
  obtain ⟨scopes, scope, loops, loopCount, nextSymbol, reports⟩ := r
  cases loops <;> rfl

theorem quietly_leaving (keyword : Token) (e : Option Tree.Expression) :
    Quietly (leaving none keyword e) fun _ ↦ False :=
  .bind (reporting_returned e).quietly fun _ ↦ .bind (honest_report _ _) fun _ ↦ .pure fun h ↦ h.elim

theorem flatWhile_origins {origins : List Origin} {b : Code.Body} (h : List.Forall₂ Origin.Yields origins b)
    (start : Label) (e : Expression) (x : Exits) :
    List.Forall₂ Origin.Yields ([.control, .control] ++ origins ++ [.control, .control, .control])
      (Code.flatWhile start e b x) :=
  List.rel_append (List.rel_append (.cons (.goto _) (.cons (.label _) .nil)) h)
    (.cons (.label _) (.cons (.gotoIf _ _ _) (.cons (.label _) .nil)))

mutual

theorem stand_statement : (s : Tree.Statement) → Quietly (statement none s) (Stand s.origins)
  | .block _ inner _ => .bind (quietly_inside (stand_statements inner)) fun _ ↦ .pure fun h ↦ h
  | .ifThen _ condition branch =>
    .bind (reporting_valueOf _ condition).quietly fun _ ↦ .bind (stand_statement branch) fun _ ↦ .pure fun h _ _ ↦
      List.rel_append (.cons (.gotoIf _ _ _) (h _)) (.cons (.label _) .nil)
  | .ifElse _ condition branch _ otherwise =>
    .bind (reporting_valueOf _ condition).quietly fun _ ↦ .bind (stand_statement branch) fun _ ↦
      .bind (stand_statement otherwise) fun _ ↦ .pure fun h' h _ _ ↦
        List.rel_append (List.rel_append (List.rel_append (.cons (.gotoIf _ _ _) (h _))
          (.cons (.goto _) (.cons (.label _) .nil))) (h' _)) (.cons (.label _) .nil)
  | .whileLoop _ condition body =>
    .bind (reporting_valueOf _ condition).quietly fun _ ↦ .bind (quietly_insideLoop (stand_statement body)) fun _ ↦
      .pure fun h _ _ ↦ flatWhile_origins (h _) _ _ _
  | .doLoop _ body _ condition =>
    .bind (quietly_insideLoop (stand_statement body)) fun _ ↦ .bind (reporting_valueOf _ condition).quietly fun _ ↦
      .pure fun _ h _ ↦ List.rel_append (.cons (.label _) (h _))
        (.cons (.label _) (.cons (.gotoIf _ _ _) (.cons (.label _) .nil)))
  | .forLoop _ identifier _ lower _ upper body =>
    .bind (reporting_valueOf _ lower).quietly fun _ ↦ .bind (reporting_valueOf _ upper).quietly fun _ ↦
      quietly_inside (.bind (readOnly_declared identifier _) fun _ ↦
        .bind (quietly_insideLoop (stand_statement body)) fun _ ↦ .pure fun h hv _ _ _ ↦
          List.rel_append (.cons (.counter hv _) (.cons (.bound rfl _) .nil))
            (flatWhile_origins (List.rel_append (h _) (.cons (.label _) (.cons (.increment hv) .nil))) _ _ _))
  | .declare .. => stand_source (grows_declaration _ _ _ _) fun _ ↦ rfl
  | .breakLoop keyword => stand_source (reporting_jump keyword _).grows (isFlat_jump keyword _)
  | .continueLoop keyword => stand_source (reporting_jump keyword _).grows (isFlat_jump keyword _)
  | .leave keyword e => stand_source (reporting_leaving none keyword e).grows fun _ ↦ rfl
  | .expression e => stand_source (.bind (reporting_expression e).grows fun _ ↦ .pure _) fun _ ↦ rfl

/-- Where the flat code of statements comes from on which nothing is reported. -/
theorem stand_statements : (ss : List Tree.Statement) → Quietly (statements none ss) fun cs ↦
    ∀ u, List.Forall₂ Origin.Yields (Tree.originsAll ss) (Code.flattenAll cs u).1
  | [] => .pure fun _ ↦ .nil
  | s :: rest =>
    .bind (stand_statement s) fun _ ↦ .bind (stand_statements rest) fun _ ↦ .pure fun h' h _ ↦
      List.rel_append (h _) (h' _)

end

end Resolver

namespace Origin.Yields

open Resolver

variable {o : Origin} {c : Statement}

theorem givesValue_of_bound (h : Yields .bound c) : c.givesValue := by
  cases h with
  | bound hv e => rfl

theorem exists_declare (h : Yields .counter c) : ∃ v e, c = .declare v e := by
  cases h with
  | counter hv e => exact ⟨_, e, rfl⟩

theorem isOwn_or_isRange (h : o.Yields c) (hc : c.givesValue) : o.isOwn ∨ o.isRange := by
  cases h with
  | @source s c r hquiet h =>
    subst h
    cases s with
    | declare | expression => exact .inl rfl
    | breakLoop keyword | continueLoop keyword =>
      obtain ⟨l, hl⟩ := ((elaborates_jump (I := fun _ ↦ True) keyword _).sound r trivial hquiet).2
      exact nomatch (congrArg Statement.givesValue hl).symm.trans hc
    | _ => nomatch hc
  | label | goto | gotoIf => nomatch hc
  | counter | bound | increment => exact .inr rfl

theorem ne_leave (h : o.Yields c) (e : Option Expression) : c ≠ .leave e := by
  rintro rfl
  cases h with
  | @source s c r hquiet h =>
    cases s with
    | breakLoop keyword | continueLoop keyword =>
      obtain ⟨l, hl⟩ := ((elaborates_jump (I := fun _ ↦ True) keyword _).sound r trivial hquiet).2
      nomatch h.trans hl
    | leave keyword value => exact ((quietly_leaving keyword value).sound r trivial hquiet).2
    | _ => nomatch h

end Origin.Yields

end SmallScript
