import SmallScript.Proofs.Tree.Tokens
import SmallScript.Tree.Basic

namespace SmallScript.Tree

/-- A node of a tree, or a token. -/
inductive Node
  | token (t : Token)
  | expression (e : Expression)
  | clause (c : TypeClause)
  | statement (s : Statement)
  | parameter (p : Parameter)
  | member (m : Member)

namespace Node

def span : Node → Span
  | token t => t.span
  | expression e => e.span
  | clause c => c.span
  | statement s => s.span
  | parameter p => p.span
  | member m => m.span

def tokens : Node → List Token
  | token t => [t]
  | expression e => e.tokens
  | clause c => c.tokens
  | statement s => s.tokens
  | parameter p => p.tokens
  | member m => m.tokens

/-- The nodes and tokens that a node is made of. -/
def parts : Node → List Node
  | token _ => []
  | expression (.literal t _) | expression (.name t) => [.token t]
  | expression (.unary sign e) => [.token sign, .expression e]
  | expression (.binary e sign e') => [.expression e, .token sign, .expression e']
  | expression (.group opening e closing) => [.token opening, .expression e, .token closing]
  | expression (.assign identifier equals e) => [.token identifier, .token equals, .expression e]
  | expression (.call identifier opening es closing) =>
    .token identifier :: .token opening :: es.map .expression ++ [.token closing]
  | clause c => [.token c.colon, .token c.identifier]
  | statement (.block opening ss closing) => .token opening :: ss.map .statement ++ [.token closing]
  | statement (.declare keyword identifier c equals e) =>
    .token keyword :: .token identifier :: c.toList.map .clause ++ [.token equals, .expression e]
  | statement (.ifThen keyword e s) | statement (.whileLoop keyword e s) =>
    [.token keyword, .expression e, .statement s]
  | statement (.ifElse keyword e s elseKeyword s') =>
    [.token keyword, .expression e, .statement s, .token elseKeyword, .statement s']
  | statement (.doLoop keyword s whileKeyword e) =>
    [.token keyword, .statement s, .token whileKeyword, .expression e]
  | statement (.forLoop keyword identifier equals e toKeyword e' s) =>
    [.token keyword, .token identifier, .token equals, .expression e, .token toKeyword, .expression e', .statement s]
  | statement (.breakLoop keyword) | statement (.continueLoop keyword) => [.token keyword]
  | statement (.leave keyword value) => .token keyword :: value.toList.map .expression
  | statement (.expression e) => [.expression e]
  | parameter p => [.token p.identifier, .clause p.clause]
  | member (.function f) =>
    .token f.keyword :: .token f.identifier :: .token f.opening :: f.parameters.map .parameter
      ++ .token f.closing :: f.clause.toList.map .clause
      ++ [.statement (.block f.body.opening f.body.statements f.body.closing)]
  | member (.statement s) => [.statement s]

theorem exists_token {n : Node} (h : n.parts = []) : ∃ t, n = .token t := by
  fun_cases parts n
  case case1 t => exact ⟨t, rfl⟩
  all_goals simp [parts] at h

theorem sizeOf_parts_lt (n : Node) : ∀ p ∈ n.parts, sizeOf p < sizeOf n := by
  have hmem {α : Type} [SizeOf α] {a : α} {as : List α} (h : a ∈ as) : sizeOf a < sizeOf as :=
    List.sizeOf_lt_of_mem h
  have hsome {α : Type} [SizeOf α] {a : α} {o : Option α} (h : o = some a) : sizeOf a < sizeOf o := by
    subst h
    simp
  fun_cases parts n
  case case9 c | case21 c =>
    cases c
    simp
    omega
  case case22 f =>
    obtain ⟨_, _, _, _, _, _, ⟨_, _, _⟩⟩ := f
    simp [or_imp, forall_and]
    grind
  all_goals simp [or_imp, forall_and] <;> grind

@[elab_as_elim]
theorem induction_on_parts {P : Node → Prop} (h : ∀ n, (∀ p ∈ n.parts, P p) → P n) (n : Node) : P n :=
  h n fun p _ ↦ induction_on_parts h p
termination_by sizeOf n
decreasing_by
  exact sizeOf_parts_lt _ _ ‹_›

theorem flatMap_tokens_expression (es : List Expression) :
    (es.map .expression).flatMap tokens = expressionTokens es := by
  induction es with
  | nil => rfl
  | cons e es ih => exact congrArg (e.tokens ++ ·) ih

theorem flatMap_tokens_statement (ss : List Statement) :
    (ss.map .statement).flatMap tokens = statementTokens ss := by
  induction ss with
  | nil => rfl
  | cons s ss ih => exact congrArg (s.tokens ++ ·) ih

theorem flatMap_tokens_clause (c : Option TypeClause) :
    (c.toList.map .clause).flatMap tokens = clauseTokens c := by
  cases c with
  | none => rfl
  | some c => exact List.append_nil _

theorem tokens_parts {n : Node} (h : n.parts ≠ []) : n.tokens = n.parts.flatMap tokens := by
  fun_cases parts n
  case case1 => exact absurd rfl h
  case case19 keyword value => cases value <;> simp [tokens, Statement.tokens]
  case case22 f =>
    have hparameters : (f.parameters.map .parameter).flatMap tokens = f.parameters.flatMap Parameter.tokens :=
      List.flatMap_map _ _ _
    simp [tokens, Member.tokens, Function.tokens, Block.tokens, Statement.tokens, hparameters,
      flatMap_tokens_clause]
  all_goals
    simp [tokens, Expression.tokens, TypeClause.tokens, Statement.tokens, Parameter.tokens, Member.tokens,
      flatMap_tokens_expression, flatMap_tokens_clause, flatMap_tokens_statement]

theorem union_self (s : Span) : s.union s = s := by
  obtain ⟨start, length⟩ := s
  simp [Span.union, Span.between, Span.stop]

/-- A node's span is the union of those of its first part and its last one. -/
theorem span_parts {n p q : Node} (hp : n.parts.head? = some p) (hq : n.parts.getLast? = some q) :
    n.span = p.span.union q.span := by
  fun_cases parts n
  case case1 => nomatch hp
  case case19 keyword value =>
    obtain rfl := Option.some.inj hp
    cases value with
    | none =>
      obtain rfl := Option.some.inj hq
      exact (union_self _).symm
    | some e =>
      obtain rfl := Option.some.inj hq
      rfl
  all_goals
    simp only [parts, List.head?_cons, List.head?_append, List.getLast?_cons, List.getLast?_append, List.getLast?_nil,
      Option.getD_none, Option.getD_some, Option.some_or, Option.some.injEq] at hp hq
    subst hp hq
    simp [span, union_self, Expression.span, Statement.span, TypeClause.span, Parameter.span, Member.span,
      Function.span, Block.span]

/-- Whether a node is another one or stands somewhere in it. -/
inductive Within : Node → Node → Prop
  | self (n : Node) : Within n n
  | part {n p m : Node} (h : Within n p) (hp : p ∈ m.parts) : Within n m

theorem Within.sublist {n m : Node} (h : n.Within m) : n.tokens.Sublist m.tokens := by
  induction h with
  | self => exact List.Sublist.refl _
  | part _ hp ih =>
    rw [tokens_parts (List.ne_nil_of_mem hp), List.flatMap_def]
    exact ih.trans (List.sublist_flatten_of_mem (List.mem_map_of_mem hp))

end Node

namespace Source

/-- The members of a text, and its end. -/
def parts (s : Source) : List Node := s.members.map .member ++ [.token s.finish]

/-- Whether a node stands somewhere in a text. -/
def Holds (s : Source) (n : Node) : Prop := ∃ p ∈ s.parts, n.Within p

/-- Whether a node of a text has a span. -/
def Spans (s : Source) (span : Span) : Prop := ∃ n, s.Holds n ∧ span = n.span

theorem tokens_parts (s : Source) : s.tokens = s.parts.flatMap Node.tokens := by
  have hmembers : (s.members.map .member).flatMap Node.tokens = s.members.flatMap Member.tokens :=
    List.flatMap_map _ _ _
  rw [parts, List.flatMap_append, hmembers, List.flatMap_singleton]
  rfl

theorem Holds.sublist {s : Source} {n : Node} (h : s.Holds n) : n.tokens.Sublist s.tokens := by
  obtain ⟨p, hp, hn⟩ := h
  rw [tokens_parts, List.flatMap_def]
  exact hn.sublist.trans (List.sublist_flatten_of_mem (List.mem_map_of_mem hp))

end Source

end SmallScript.Tree
