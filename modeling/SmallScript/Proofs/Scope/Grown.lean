import Mathlib.Logic.Relation
import SmallScript.Proofs.Scope.Seen

namespace SmallScript

namespace Scopes

/-- A change of scopes: a new scope inside one, or a declaration in one. -/
inductive Change
  | push (parent : Nat)
  | declareVariable (scope : Nat) (v : Variable)
  | declareFunction (scope : Nat) (g : Function)

/-- What a change answers: the new scope, or whether the name was free. -/
inductive Answer
  | opened (scope : Nat)
  | declared (isFree : Bool)

def Change.scope : Change → Nat
  | push parent => parent
  | declareVariable scope _ | declareFunction scope _ => scope

def apply (s : Scopes) : Change → Answer × Scopes
  | .push parent => (.opened (s.push parent).1, (s.push parent).2)
  | .declareVariable scope v => (.declared (s.declareVariable? scope v).isSome, (s.declareVariable? scope v).getD s)
  | .declareFunction scope g => (.declared (s.declareFunction? scope g).isSome, (s.declareFunction? scope g).getD s)

/-- The changes made so far, each with its answer, the oldest first. -/
abbrev History := List (Change × Answer)

namespace History

/-- The scopes that are known: the root and those that were opened. -/
def Knows (past : History) (scope : Nat) : Prop :=
  scope = 0 ∨ ∃ parent, (.push parent, .opened scope) ∈ past

/-- The scope that an entry says a scope was opened in. -/
def opens? (scope : Nat) : Change × Answer → Option Nat
  | (.push parent, .opened n) => if n = scope then some parent else none
  | _ => none

/-- The variable that an entry says a scope declares from then on. -/
def declaresVariable? (scope : Nat) : Change × Answer → Option Variable
  | (.declareVariable n v, .declared true) => if n = scope then some v else none
  | _ => none

def declaresFunction? (scope : Nat) : Change × Answer → Option Function
  | (.declareFunction n g, .declared true) => if n = scope then some g else none
  | _ => none

def parent? (past : History) (scope : Nat) : Option Nat := past.findSome? (opens? scope)

/-- The variables declared in a scope whose names were free there, in order. -/
def variablesOf (past : History) (scope : Nat) : List Variable := past.filterMap (declaresVariable? scope)

/-- The functions declared in a scope whose names were free there, in order. The root starts with the builtins. -/
def functionsOf (past : History) (scope : Nat) : List Function :=
  (if scope = 0 then Builtin.all.map Builtin.function else []) ++ past.filterMap (declaresFunction? scope)

end History

/-- The scopes after changes to new ones, where each change is about a scope known by then. -/
inductive Grown : History → Scopes → Prop
  | root : Grown [] root
  | change {past : History} {s : Scopes} (h : Grown past s) (c : Change) (hc : past.Knows c.scope) :
    Grown (past ++ [(c, (s.apply c).1)]) (s.apply c).2

namespace History

def frame (past : History) (scope : Nat) : Frame :=
  ⟨past.parent? scope, past.variablesOf scope, past.functionsOf scope⟩

variable {past : History} {scope n : Nat}

theorem knows_concat {c : Change} {a : Answer} :
    Knows (past ++ [(c, a)]) n ↔ past.Knows n ∨ ∃ parent, c = .push parent ∧ a = .opened n := by
  simp [Knows, or_assoc, exists_or, eq_comm]

theorem Knows.concat (hn : past.Knows n) (e : Change × Answer) : Knows (past ++ [e]) n :=
  knows_concat.mpr (.inl hn)

theorem knows_push (past : History) (parent n : Nat) : Knows (past ++ [(.push parent, .opened n)]) n :=
  knows_concat.mpr (.inr ⟨parent, rfl, rfl⟩)

theorem frame_push (past : History) (parent scope n : Nat) :
    frame (past ++ [(.push parent, .opened scope)]) n =
      { past.frame n with parent := (past.parent? n).or (if n = scope then some parent else none) } := by
  simp only [frame, parent?, variablesOf, functionsOf, List.findSome?_append, List.filterMap_append]
  by_cases hn : n = scope
  · simp [opens?, declaresVariable?, declaresFunction?, hn]
  · simp [opens?, declaresVariable?, declaresFunction?, hn, Ne.symm hn]

theorem frame_declareVariable (past : History) (scope n : Nat) (v : Variable) :
    frame (past ++ [(.declareVariable scope v, .declared true)]) n =
      { past.frame n with vars := past.variablesOf n ++ if n = scope then [v] else [] } := by
  simp only [frame, parent?, variablesOf, functionsOf, List.findSome?_append, List.filterMap_append]
  by_cases hn : n = scope
  · simp [opens?, declaresVariable?, declaresFunction?, hn]
  · simp [opens?, declaresVariable?, declaresFunction?, hn, Ne.symm hn]

theorem frame_declareFunction (past : History) (scope n : Nat) (g : Function) :
    frame (past ++ [(.declareFunction scope g, .declared true)]) n =
      { past.frame n with functions := past.functionsOf n ++ if n = scope then [g] else [] } := by
  simp only [frame, parent?, variablesOf, functionsOf, List.findSome?_append, List.filterMap_append]
  by_cases hn : n = scope
  · simp [opens?, declaresVariable?, declaresFunction?, hn]
  · simp [opens?, declaresVariable?, declaresFunction?, hn, Ne.symm hn]

theorem frame_refused (past : History) (c : Change) (n : Nat) :
    frame (past ++ [(c, .declared false)]) n = past.frame n := by
  cases c <;> simp [frame, parent?, variablesOf, functionsOf, opens?, declaresVariable?, declaresFunction?]

theorem frame_variable (past : History) (scope n : Nat) (v : Variable) :
    frame (past ++ [(.declareVariable scope v,
        .declared ((past.variablesOf scope).find? (·.name == v.name)).isNone)]) n =
      if n = scope then (past.frame scope).withVariable v else past.frame n := by
  have hlook : (past.frame scope).lookupVariable v.name = (past.variablesOf scope).find? (·.name == v.name) := rfl
  rw [← hlook, Frame.withVariable]
  cases (past.frame scope).lookupVariable v.name with
  | some w =>
    rw [Option.isNone_some, frame_refused]
    by_cases hn : n = scope <;> simp [hn]
  | none =>
    rw [Option.isNone_none, frame_declareVariable]
    by_cases hn : n = scope
    · subst hn
      simp [frame]
    · simp [frame, hn]

theorem frame_function (past : History) (scope n : Nat) (g : Function) :
    frame (past ++ [(.declareFunction scope g,
        .declared ((past.functionsOf scope).find? (·.name == g.name)).isNone)]) n =
      if n = scope then (past.frame scope).withFunction g else past.frame n := by
  have hlook : (past.frame scope).lookupFunction g.name = (past.functionsOf scope).find? (·.name == g.name) := rfl
  rw [← hlook, Frame.withFunction]
  cases (past.frame scope).lookupFunction g.name with
  | some g' =>
    rw [Option.isNone_some, frame_refused]
    by_cases hn : n = scope <;> simp [hn]
  | none =>
    rw [Option.isNone_none, frame_declareFunction]
    by_cases hn : n = scope
    · subst hn
      simp [frame]
    · simp [frame, hn]

end History

structure Follows (past : History) (s : Scopes) : Prop where
  knows : ∀ n, past.Knows n ↔ n < s.frames.size
  frame : ∀ n < s.frames.size, s.frames[n]? = some (past.frame n)
  fresh : ∀ n, s.frames.size ≤ n → past.frame n = ⟨none, [], []⟩
  root : past.parent? 0 = none
  ordered : s.Ordered

theorem follows_root : Follows [] root := by
  have hframe : History.frame [] 0 = ⟨none, [], Builtin.all.map Builtin.function⟩ := rfl
  refine ⟨fun n ↦ ?_, fun n hn ↦ ?_, fun n hn ↦ ?_, rfl, ?_⟩
  · simp [History.Knows, root]
  · obtain rfl : n = 0 := Nat.lt_one_iff.mp hn
    rfl
  · have hne : n ≠ 0 := Nat.ne_of_gt hn
    simp [History.frame, History.parent?, History.variablesOf, History.functionsOf, hne]
  · intro i f p hf hp
    obtain ⟨hi, hf⟩ := Array.getElem?_eq_some_iff.mp hf
    obtain rfl : i = 0 := Nat.lt_one_iff.mp hi
    subst hf
    nomatch hp

namespace Follows

variable {past : History} {s : Scopes} {scope n : Nat} (h : Follows past s)
include h

theorem frame_of_knows (hn : past.Knows n) : s.frames[n]? = some (past.frame n) :=
  h.frame n ((h.knows n).mp hn)

/-- What stays true when a change makes something of the frame of one scope. -/
theorem declared {c : Change} {isFree : Bool} {s' : Scopes} {φ : Frame → Frame} (hscope : past.Knows scope)
    (hsize : s'.frames.size = s.frames.size) (hordered : s'.Ordered) (hφ : ∀ f, (φ f).parent = f.parent)
    (hframes : ∀ i, s'.frames[i]? = if i = scope then some (φ (past.frame scope)) else s.frames[i]?)
    (hpast : ∀ n, History.frame (past ++ [(c, .declared isFree)]) n =
      if n = scope then φ (past.frame scope) else past.frame n) : Follows (past ++ [(c, .declared isFree)]) s' := by
  have hlt := (h.knows scope).mp hscope
  refine ⟨fun n ↦ ?_, fun n hn ↦ ?_, fun n hn ↦ ?_, ?_, hordered⟩
  · rw [History.knows_concat, hsize, ← h.knows]
    simp
  · rw [hframes, hpast, h.frame n (hsize ▸ hn)]
    split <;> rfl
  · rw [hpast, if_neg (by omega), h.fresh n (hsize ▸ hn)]
  · have hroot := congrArg Frame.parent (hpast 0)
    by_cases hzero : 0 = scope
    · subst hzero
      rw [if_pos rfl, hφ] at hroot
      exact hroot.trans h.root
    · rw [if_neg hzero] at hroot
      exact hroot.trans h.root

theorem declareVariable_isSome (hscope : past.Knows scope) (v : Variable) :
    (s.declareVariable? scope v).isSome = ((past.variablesOf scope).find? (·.name == v.name)).isNone := by
  have hf := h.frame_of_knows hscope
  change _ = ((past.frame scope).lookupVariable v.name).isNone
  rw [declareVariable?, hf]
  cases hfree : (past.frame scope).lookupVariable v.name <;> simp [hfree]

theorem declareFunction_isSome (hscope : past.Knows scope) (g : Function) :
    (s.declareFunction? scope g).isSome = ((past.functionsOf scope).find? (·.name == g.name)).isNone := by
  have hf := h.frame_of_knows hscope
  change _ = ((past.frame scope).lookupFunction g.name).isNone
  rw [declareFunction?, hf]
  cases hfree : (past.frame scope).lookupFunction g.name <;> simp [hfree]

theorem push (hscope : past.Knows scope) :
    Follows (past ++ [(.push scope, .opened (s.push scope).1)]) (s.push scope).2 := by
  have hlt := (h.knows scope).mp hscope
  have hpos : 0 < s.frames.size := (h.knows 0).mp (.inl rfl)
  have hsize : (s.push scope).2.frames.size = s.frames.size + 1 := Array.size_push ..
  have hfst : (s.push scope).1 = s.frames.size := rfl
  have hold (n : Nat) (hn : n ≠ s.frames.size) :
      History.frame (past ++ [(.push scope, .opened s.frames.size)]) n = past.frame n := by
    rw [History.frame_push, if_neg hn, Option.or_none]
    rfl
  refine ⟨fun n ↦ ?_, fun n hn ↦ ?_, fun n hn ↦ ?_, ?_, h.ordered.push hlt⟩
  · rw [History.knows_concat, h.knows, hsize, hfst]
    simp
    omega
  · rw [hfst, Scopes.push, Array.getElem?_push]
    split
    · next heq =>
      subst heq
      have hparent : past.parent? s.frames.size = none := congrArg Frame.parent (h.fresh _ (Nat.le_refl _))
      rw [History.frame_push, h.fresh _ (Nat.le_refl _), hparent, if_pos rfl]
      rfl
    · next hne => rw [hold n hne, h.frame n (by omega)]
  · rw [hfst, hold n (by omega), h.fresh n (by omega)]
  · exact (congrArg Frame.parent (hold 0 (by omega))).trans h.root

theorem apply {c : Change} (hc : past.Knows c.scope) : Follows (past ++ [(c, (s.apply c).1)]) (s.apply c).2 := by
  cases c with
  | push parent => exact h.push hc
  | declareVariable scope v =>
    have hscope : past.Knows scope := hc
    refine h.declared hscope (size_declareVariable s scope v) (h.ordered.declareVariable scope v)
      (fun _ ↦ Frame.parent_withVariable v) (frames_declareVariable (h.frame_of_knows hscope) v) fun n ↦ ?_
    rw [h.declareVariable_isSome hscope, History.frame_variable]
  | declareFunction scope g =>
    have hscope : past.Knows scope := hc
    refine h.declared hscope (size_declareFunction s scope g) (h.ordered.declareFunction scope g)
      (fun _ ↦ Frame.parent_withFunction g) (frames_declareFunction (h.frame_of_knows hscope) g) fun n ↦ ?_
    rw [h.declareFunction_isSome hscope, History.frame_function]

end Follows

theorem Grown.follows {past : History} {s : Scopes} (h : Grown past s) : Follows past s := by
  induction h with
  | root => exact follows_root
  | change _ c hc ih => exact ih.apply hc

/-- One kind of names: how they are declared, listed and looked up, and which of them the changes so far say a scope
has. -/
structure Space (α : Type) where
  label : α → String
  declare : Nat → α → Change
  /-- Whether a change opens a scope or declares a name of this kind. -/
  concerns : Change → Bool
  listed : Scopes → Nat → List α
  lookup : Scopes → Nat → String → Option α
  own : History → Nat → List α

def variableSpace : Space Variable where
  label := Variable.name
  declare := .declareVariable
  concerns
    | .declareFunction _ _ => false
    | _ => true
  listed := variablesOf
  lookup := lookupVariable
  own := History.variablesOf

def functionSpace : Space Function where
  label := Function.name
  declare := .declareFunction
  concerns
    | .declareVariable _ _ => false
    | _ => true
  listed := functionsOf
  lookup := lookupFunction
  own := History.functionsOf

namespace Space

variable {α : Type} (S : Space α)

/-- The changes without the declarations of the other kind. -/
def only (past : History) : History := past.filter fun e ↦ S.concerns e.1

/-- Whether one gets from a scope outward to another, where no scope before that has the name. -/
inductive Reaches (past : History) (name : String) : Nat → Nat → Prop
  | here (n : Nat) : Reaches past name n n
  | outward {n p m : Nat} (hnone : ∀ a ∈ S.own past n, S.label a ≠ name) (hp : past.parent? n = some p)
    (h : Reaches past name p m) : Reaches past name n m

/-- Whether the names of a kind are as in nested dictionaries after some changes. -/
structure Nested (past : History) (s : Scopes) : Prop where
  /-- What a scope lists is what was declared in it, in order. -/
  listed : ∀ n, past.Knows n → S.listed s n = S.own past n
  /-- A declaration is refused exactly if the scope itself has the name. -/
  refused : ∀ n a, past.Knows n →
    ((s.apply (S.declare n a)).1 = .declared false ↔ ∃ b ∈ S.own past n, S.label b = S.label a)
  /-- A declaration that is refused changes nothing. -/
  unchanged : ∀ n a, (s.apply (S.declare n a)).1 = .declared false → (s.apply (S.declare n a)).2 = s
  /-- A name stands for what the nearest scope outward that has it declared first under it. -/
  lookup : ∀ n name a, past.Knows n →
    (S.lookup s n name = some a ↔
      ∃ m, S.Reaches past name n m ∧ (S.own past m).find? (S.label · == name) = some a)
  /-- A new declaration is seen from where no nearer scope has the name. -/
  seen : ∀ n m a, past.Knows n → past.Knows m → (s.apply (S.declare n a)).1 = .declared true →
    S.Reaches past (S.label a) m n → S.lookup (s.apply (S.declare n a)).2 m (S.label a) = some a
  /-- From elsewhere, and under other names, all is as before. -/
  unseen : ∀ n m a name, past.Knows n → past.Knows m → ¬ (name = S.label a ∧ S.Reaches past name m n) →
    S.lookup (s.apply (S.declare n a)).2 m name = S.lookup s m name
  /-- Without the declarations of the other kind, the answers are the same, and so is what is listed and found. -/
  alone : ∃ s', Grown (S.only past) s' ∧ ∀ n, past.Knows n →
    S.listed s' n = S.listed s n ∧ ∀ name, S.lookup s' n name = S.lookup s n name

structure Lawful : Prop where
  scope : ∀ n a, (S.declare n a).scope = n
  concerns_push : ∀ n, S.concerns (.push n) = true
  concerns_iff : ∀ c, S.concerns c = true ↔ (∃ n, c = .push n) ∨ ∃ n a, c = S.declare n a
  listed : ∀ past s n, Follows past s → past.Knows n → S.listed s n = S.own past n
  lookup : ∀ past s n name, Follows past s → past.Knows n → S.lookup s n name =
    ((S.own past n).find? (S.label · == name)).or ((past.parent? n).bind (S.lookup s · name))
  answer : ∀ past s n a, Follows past s → past.Knows n →
    (s.apply (S.declare n a)).1 = .declared ((S.own past n).find? (S.label · == S.label a)).isNone
  unchanged : ∀ (s : Scopes) n a, (s.apply (S.declare n a)).1 = .declared false → (s.apply (S.declare n a)).2 = s
  parent? : ∀ (past : History) n a b m, History.parent? (past ++ [(S.declare n a, .declared b)]) m = past.parent? m
  own : ∀ past n a m, S.own (past ++ [(S.declare n a, .declared true)]) m = S.own past m ++ if m = n then [a] else []
  own_only : ∀ past n, S.own (S.only past) n = S.own past n

end Space

theorem Follows.lookup_frame {past : History} {s : Scopes} {n : Nat} (h : Follows past s) (hn : past.Knows n)
    {β : Type} (look : Frame → Option β) : (s.chain n).findSome? look =
      (look (past.frame n)).or ((past.parent? n).bind fun p ↦ (s.chain p).findSome? look) := by
  rw [chain_eq h.ordered (h.frame_of_knows hn), List.findSome?_cons]
  have hparent : (past.frame n).parent = past.parent? n := rfl
  rw [hparent]
  cases look (past.frame n) <;> cases past.parent? n <;> rfl

theorem lawful_variableSpace : variableSpace.Lawful where
  scope _ _ := rfl
  concerns_push _ := rfl
  concerns_iff c := by cases c <;> simp [variableSpace]
  listed past s n h hn := by simp [variableSpace, variablesOf, h.frame_of_knows hn, History.frame]
  lookup past s n name h hn := h.lookup_frame hn (·.lookupVariable name)
  answer past s n v h hn := congrArg Answer.declared (h.declareVariable_isSome hn v)
  unchanged s n v h := by
    have hnone : s.declareVariable? n v = none := by simpa [variableSpace, apply] using h
    simp [variableSpace, apply, hnone]
  parent? past n v b m := by simp [variableSpace, History.parent?, History.opens?]
  own past n v m := congrArg Frame.vars (History.frame_declareVariable past n m v)
  own_only past n := by
    simp only [Space.only, variableSpace, History.variablesOf, List.filterMap_filter]
    refine List.filterMap_congr fun ⟨c, a⟩ _ ↦ ?_
    cases c <;> simp [History.declaresVariable?]

theorem lawful_functionSpace : functionSpace.Lawful where
  scope _ _ := rfl
  concerns_push _ := rfl
  concerns_iff c := by cases c <;> simp [functionSpace]
  listed past s n h hn := by simp [functionSpace, functionsOf, h.frame_of_knows hn, History.frame]
  lookup past s n name h hn := h.lookup_frame hn (·.lookupFunction name)
  answer past s n g h hn := congrArg Answer.declared (h.declareFunction_isSome hn g)
  unchanged s n g h := by
    have hnone : s.declareFunction? n g = none := by simpa [functionSpace, apply] using h
    simp [functionSpace, apply, hnone]
  parent? past n g b m := by simp [functionSpace, History.parent?, History.opens?]
  own past n g m := congrArg Frame.functions (History.frame_declareFunction past n m g)
  own_only past n := by
    simp only [Space.only, functionSpace, History.functionsOf, List.filterMap_filter]
    refine congrArg _ (List.filterMap_congr fun ⟨c, a⟩ _ ↦ ?_)
    cases c <;> simp [History.declaresFunction?]

theorem Follows.parent?_eq {past : History} {s : Scopes} {n : Nat} (h : Follows past s) (hn : past.Knows n) :
    s.parent? n = past.parent? n := by
  rw [parent?, h.frame_of_knows hn, Option.bind_some]
  rfl

theorem Follows.parent_lt {past : History} {s : Scopes} {n p : Nat} (h : Follows past s) (hn : past.Knows n)
    (hp : past.parent? n = some p) : p < n ∧ past.Knows p := by
  have hlt := h.ordered n _ p (h.frame_of_knows hn) hp
  have hsize := (h.knows n).mp hn
  exact ⟨hlt, (h.knows p).mpr (by omega)⟩

namespace Space.Lawful

variable {α : Type} {S : Space α} (hS : S.Lawful)
include hS

theorem knows_only (past : History) (n : Nat) : (S.only past).Knows n ↔ past.Knows n := by
  simp [History.Knows, only, hS.concerns_push]

theorem parent?_only (past : History) (n : Nat) : (S.only past).parent? n = past.parent? n := by
  rw [History.parent?, History.parent?, ← List.head?_filterMap, ← List.head?_filterMap, only, List.filterMap_filter]
  refine congrArg _ (List.filterMap_congr fun ⟨c, a⟩ _ ↦ ?_)
  cases c <;> simp [History.opens?, hS.concerns_push]

end Space.Lawful

end Scopes

end SmallScript
