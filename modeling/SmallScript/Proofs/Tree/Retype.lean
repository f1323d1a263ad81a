import SmallScript.Proofs.Resolve.Fresh
import SmallScript.Proofs.Tree.Alike

namespace SmallScript.Tree

/-- The type name of a clause, if it stands for no type. -/
def TypeClause.unknown? (c : TypeClause) : Option Token :=
  if c.identifier.isMissing ∨ (Ty.written? c.identifier.text).isSome then none else some c.identifier

section Retype

variable (ρ : TypeClause → TypeClause)

mutual

def Statement.retype : Statement → Statement
  | .block opening ss closing => .block opening (retypeAll ss) closing
  | .declare k t c equals e => .declare k t (c.map ρ) equals e
  | .ifThen k e s => .ifThen k e s.retype
  | .ifElse k e s l s' => .ifElse k e s.retype l s'.retype
  | .whileLoop k e s => .whileLoop k e s.retype
  | .doLoop k s l e => .doLoop k s.retype l e
  | .forLoop k t equals lower l upper s => .forLoop k t equals lower l upper s.retype
  | .breakLoop k => .breakLoop k
  | .continueLoop k => .continueLoop k
  | .leave k e => .leave k e
  | .expression e => .expression e

def retypeAll : List Statement → List Statement
  | [] => []
  | s :: rest => s.retype :: retypeAll rest

end

def Parameter.retype (p : Parameter) : Parameter := { p with clause := ρ p.clause }

def Function.retype (f : Function) : Function :=
  { f with
    parameters := f.parameters.map (Parameter.retype ρ)
    clause := f.clause.map ρ
    body := { f.body with statements := retypeAll ρ f.body.statements } }

def Member.retype : Member → Member
  | .function f => .function (f.retype ρ)
  | .statement s => .statement (s.retype ρ)

end Retype

/-- A text is written like another one, but for type clauses that name no type in the new text. -/
def Source.Retyped (source source' : Source) : Prop :=
  ∃ ρ : TypeClause → TypeClause, (∀ c, ρ c = c ∨ (ρ c).unknown?.isSome) ∧
    List.Forall₂ Member.Alike (source.members.map (Member.retype ρ)) source'.members

section Rename

def TypeClause.renameAt (place : Nat) (name : String) (c : TypeClause) : TypeClause :=
  if c.identifier.start = place then { c with identifier := { c.identifier with text := name } } else c

theorem TypeClause.renameAt_eq_or_unknown {name : String} (hname : name ≠ "") (h : Ty.written? name = none)
    (place : Nat) (c : TypeClause) : c.renameAt place name = c ∨ (c.renameAt place name).unknown?.isSome := by
  unfold renameAt
  split
  · simp [unknown?, Token.isMissing, hname, h]
  · exact .inl rfl

/-- Whether one clause of a text has been given the name of no type can be decided. -/
theorem Source.retyped_of_same {source source' : Source} (place : Nat) (name : String) (hname : name ≠ "")
    (hunknown : Ty.written? name = none)
    (h : sameList Member.same (source.members.map (Member.retype (TypeClause.renameAt place name))) source'.members) :
    source.Retyped source' :=
  ⟨TypeClause.renameAt place name, TypeClause.renameAt_eq_or_unknown hname hunknown place, members_alike_of_same h⟩

end Rename

section Refl

theorem clause_alike_retype_id (c : Option TypeClause) : ClauseAlike (c.map id) c :=
  (Option.map_id_fun' ▸ clause_alike_refl c : ClauseAlike (c.map fun c ↦ c) c)

mutual

theorem Statement.alike_retype_id : (s : Statement) → (s.retype id).Alike s
  | .block _ ss _ => .block _ _ _ _ (alike_retypeAll_id ss)
  | .declare _ t c _ e =>
    .declare _ _ (Token.alike_refl _) t.alike_refl (clause_alike_retype_id c) e.alike_refl
  | .ifThen _ e s => .ifThen _ _ e.alike_refl s.alike_retype_id
  | .ifElse _ e s _ s' => .ifElse _ _ _ _ e.alike_refl s.alike_retype_id s'.alike_retype_id
  | .whileLoop _ e s => .whileLoop _ _ e.alike_refl s.alike_retype_id
  | .doLoop _ s _ e => .doLoop _ _ _ _ s.alike_retype_id e.alike_refl
  | .forLoop _ t _ lower _ upper s =>
    .forLoop _ _ _ _ _ _ t.alike_refl lower.alike_refl upper.alike_refl s.alike_retype_id
  | .breakLoop _ => .breakLoop _ _
  | .continueLoop _ => .continueLoop _ _
  | .leave _ none => .leave _ _
  | .leave _ (some e) => .leaveWith _ _ e.alike_refl
  | .expression e => .expression e.alike_refl

theorem alike_retypeAll_id : (ss : List Statement) → List.Forall₂ Statement.Alike (retypeAll id ss) ss
  | [] => .nil
  | s :: rest => .cons s.alike_retype_id (alike_retypeAll_id rest)

end

theorem Parameter.alike_retype_id (p : Parameter) : (p.retype id).Alike p :=
  ⟨p.identifier.alike_refl, p.clause.identifier.alike_refl⟩

theorem Member.alike_retype_id : (m : Member) → (m.retype id).Alike m
  | .function f => .function {
      identifier := f.identifier.alike_refl
      parameters := List.forall₂_map_left_iff.mpr (List.forall₂_same.mpr fun p _ ↦ p.alike_retype_id)
      clause := clause_alike_retype_id f.clause
      body := alike_retypeAll_id f.body.statements }
  | .statement s => .statement s.alike_retype_id

theorem Source.Retyped.refl (source : Source) : source.Retyped source :=
  ⟨id, fun _ ↦ .inl rfl, List.forall₂_map_left_iff.mpr (List.forall₂_same.mpr fun m _ ↦ m.alike_retype_id)⟩

end Refl

section Unknown

def unknownOf (c : Option TypeClause) : List Token := (c.bind TypeClause.unknown?).toList

mutual

def Statement.unknownTypes : Statement → List Token
  | .block _ ss _ => unknownTypesAll ss
  | .declare _ _ c _ _ => unknownOf c
  | .ifThen _ _ s | .whileLoop _ _ s | .doLoop _ s _ _ | .forLoop _ _ _ _ _ _ s => s.unknownTypes
  | .ifElse _ _ s _ s' => s.unknownTypes ++ s'.unknownTypes
  | .breakLoop _ | .continueLoop _ | .leave _ _ | .expression _ => []

def unknownTypesAll : List Statement → List Token
  | [] => []
  | s :: rest => s.unknownTypes ++ unknownTypesAll rest

end

/-- The type names in the head of a function that stand for no type. -/
def Function.unknownTypes (f : Function) : List Token :=
  f.parameters.flatMap (fun p ↦ unknownOf (some p.clause)) ++ unknownOf f.clause

namespace Source

/-- The type names in the heads of functions that stand for no type. -/
def unknownInHeads (source : Source) : List Token := source.functions.flatMap Function.unknownTypes

def unknownOutside (source : Source) : List Token := unknownTypesAll source.outside

def unknownInBodies (source : Source) : List Token :=
  source.functions.flatMap fun f ↦ unknownTypesAll f.body.statements

end Source

end Unknown

section Calls

mutual

def Expression.calls : Expression → List String
  | .literal _ _ | .name _ => []
  | .unary _ e | .group _ e _ | .assign _ _ e => e.calls
  | .binary e _ e' => e.calls ++ e'.calls
  | .call t _ es _ => t.text :: callsOf es

def callsOf : List Expression → List String
  | [] => []
  | e :: rest => e.calls ++ callsOf rest

end

mutual

def Statement.calls : Statement → List String
  | .block _ ss _ => callsOfAll ss
  | .declare _ _ _ _ e | .leave _ (some e) | .expression e => e.calls
  | .ifThen _ e s | .whileLoop _ e s | .doLoop _ s _ e => e.calls ++ s.calls
  | .ifElse _ e s _ s' => e.calls ++ (s.calls ++ s'.calls)
  | .forLoop _ _ _ lower _ upper s => lower.calls ++ (upper.calls ++ s.calls)
  | .breakLoop _ | .continueLoop _ | .leave _ none => []

def callsOfAll : List Statement → List String
  | [] => []
  | s :: rest => s.calls ++ callsOfAll rest

end

def Source.calls (source : Source) : List String :=
  callsOfAll source.outside ++ source.functions.flatMap fun f ↦ callsOfAll f.body.statements

end Calls

mutual

def Statement.ReturnsValue : Statement → Prop
  | .block _ ss _ => ReturnsValueAny ss
  | .ifThen _ _ s | .whileLoop _ _ s | .doLoop _ s _ _ | .forLoop _ _ _ _ _ _ s => s.ReturnsValue
  | .ifElse _ _ s _ s' => s.ReturnsValue ∨ s'.ReturnsValue
  | .leave _ (some _) => True
  | .declare .. | .breakLoop _ | .continueLoop _ | .leave _ none | .expression _ => False

def ReturnsValueAny : List Statement → Prop
  | [] => False
  | s :: rest => s.ReturnsValue ∨ ReturnsValueAny rest

end

end SmallScript.Tree
