import SmallScript.Proofs.Code.Renumber

namespace SmallScript

/-- Up to where two texts take numbers, the second one behind the first one: for the heads of functions, for
statements, for the bodies of functions, and for the flat code of statements. Behind the second text the bodies
of its own functions come first, up to `own`, and then those of the first text again. -/
structure Marks where
  heads : Nat
  statements : Nat
  bodies : Nat
  finish : Nat
  heads' : Nat
  statements' : Nat
  own : Nat
  bodies' : Nat
  finish' : Nat
  builtin_le : Builtin.firstFree ≤ heads
  heads_le : heads ≤ statements
  statements_le : statements ≤ bodies
  bodies_le : bodies ≤ finish
  finish_le : finish ≤ heads'
  heads'_le : heads' ≤ statements'
  statements'_le : statements' ≤ own
  own_le : own ≤ bodies'
  bodies'_le : bodies' ≤ finish'

namespace Marks

variable (M : Marks)

def jointHeads : Nat := M.heads + (M.heads' - M.finish)

def jointStatements : Nat := M.jointHeads + (M.statements - M.heads)

def jointBodies : Nat := M.jointStatements + (M.statements' - M.heads')

def jointOwn : Nat := M.jointBodies + (M.bodies' - M.own)

def jointFlat : Nat := M.jointOwn + (M.own - M.statements')

def jointFlat' : Nat := M.jointFlat + (M.finish - M.bodies)

/-- The numbers of two texts are changed into those of one text with the members of both. The globals are changed
alike in both. Functions that the first text does not know are put behind all others. -/
structure Joins (φ φ' : Renumbering) : Prop where
  global : φ'.number .global = φ.number .global
  parameter : φ'.number .parameter = φ.number .parameter
  parameters : Slides (φ.number .parameter) 0 0 M.heads
  parameters' : Slides (φ.number .parameter) M.finish M.heads M.heads'
  functions : Slides φ.function 0 0 M.heads
  others : ∀ n, n < M.heads ∨ M.jointHeads ≤ φ.function n
  earlier : Slides φ'.function 0 0 M.heads
  functions' : Slides φ'.function M.finish M.heads M.heads'
  statements : Slides (φ.number .global) M.heads M.jointHeads M.statements
  statements' : Slides (φ.number .global) M.heads' M.jointStatements M.statements'
  flat : Slides (φ.number .global) M.bodies M.jointFlat M.finish
  flat' : Slides (φ.number .global) M.bodies' M.jointFlat' M.finish'
  bodies : Slides (φ.number .local) M.statements M.jointBodies M.bodies
  own : Slides (φ'.number .local) M.statements' M.jointOwn M.own
  again : Slides (φ'.number .local) M.own M.jointBodies M.bodies'

end Marks

def Variable.Kind.pick {α : Type} (forGlobal forParameter forLocal : α) : Variable.Kind → α
  | .global => forGlobal
  | .parameter => forParameter
  | .local => forLocal

theorem Slides.mono {g : Nat → Nat} {n n' limit limit' : Nat} (h : Slides g n n' limit) (hle : limit' ≤ limit) :
    Slides g n n' limit' := fun k hk hlt ↦ h k hk (Nat.lt_of_lt_of_le hlt hle)

namespace Marks

variable (M : Marks)

theorem ordered : Builtin.firstFree ≤ M.heads ∧ M.heads ≤ M.statements ∧ M.statements ≤ M.bodies ∧
    M.bodies ≤ M.finish ∧ M.finish ≤ M.heads' ∧ M.heads' ≤ M.statements' ∧ M.statements' ≤ M.own ∧
    M.own ≤ M.bodies' ∧ M.bodies' ≤ M.finish' :=
  ⟨M.builtin_le, M.heads_le, M.statements_le, M.bodies_le, M.finish_le, M.heads'_le, M.statements'_le, M.own_le,
    M.bodies'_le⟩

def globals : List Stretch :=
  [⟨M.heads, M.jointHeads, M.statements - M.heads⟩, ⟨M.bodies, M.jointFlat, M.finish - M.bodies⟩,
    ⟨M.heads', M.jointStatements, M.statements' - M.heads'⟩, ⟨M.bodies', M.jointFlat', M.finish' - M.bodies'⟩]

theorem apart_globals : M.globals.Pairwise Stretch.Apart := by
  have hordered := M.ordered
  simp only [globals, List.pairwise_cons, List.forall_mem_cons, List.not_mem_nil,
    false_imp_iff, implies_true, List.Pairwise.nil, and_true]
  refine ⟨⟨?_, ?_, ?_⟩, ⟨?_, ?_⟩, ?_⟩ <;> constructor <;>
    simp only [jointFlat', jointFlat, jointOwn, jointBodies, jointStatements] <;> omega

def headed : List Stretch := [⟨0, 0, M.heads⟩, ⟨M.finish, M.heads, M.heads' - M.finish⟩]

theorem apart_headed : M.headed.Pairwise Stretch.Apart := by
  have hordered := M.ordered
  simp only [headed, List.pairwise_cons, List.forall_mem_cons, List.not_mem_nil,
    false_imp_iff, implies_true, List.Pairwise.nil, and_true]
  constructor <;> simp only <;> omega

def inner : List Stretch :=
  [⟨M.statements', M.jointOwn, M.own - M.statements'⟩, ⟨M.own, M.jointBodies, M.bodies' - M.own⟩]

theorem apart_inner : M.inner.Pairwise Stretch.Apart := by
  have hordered := M.ordered
  simp only [inner, List.pairwise_cons, List.forall_mem_cons, List.not_mem_nil,
    false_imp_iff, implies_true, List.Pairwise.nil, and_true]
  constructor <;> simp only [jointOwn] <;> omega

theorem exists_joins : ∃ φ φ' : Renumbering, M.Joins φ φ' := by
  have hordered := M.ordered
  obtain ⟨g, hg, hglobals, -⟩ := Stretch.exists_injective M.apart_globals 0
  obtain ⟨p, hp, hheaded, -⟩ := Stretch.exists_injective M.apart_headed 0
  obtain ⟨f, hf, hfirst, hothers⟩ :=
    Stretch.exists_injective (List.pairwise_singleton Stretch.Apart ⟨0, 0, M.heads⟩) M.jointHeads
  obtain ⟨l, hl, hbodies, -⟩ := Stretch.exists_injective (List.pairwise_singleton Stretch.Apart
    ⟨M.statements, M.jointBodies, M.bodies - M.statements⟩) 0
  obtain ⟨l', hl', hinner, -⟩ := Stretch.exists_injective M.apart_inner 0
  simp only [globals, headed, inner, List.forall_mem_cons, List.not_mem_nil, false_imp_iff, implies_true,
    and_true] at *
  have hkept : Slides p 0 0 M.heads := hheaded.1.mono (by omega)
  have hbuiltin : ∀ n < Builtin.firstFree, p n = n := fun n hn ↦ hkept n (Nat.zero_le n) (by omega)
  refine ⟨⟨Variable.Kind.pick g p l, f, fun {k} _ _ h ↦ ?_, hf, hbuiltin⟩,
    ⟨Variable.Kind.pick g p l', p, fun {k} _ _ h ↦ ?_, hp, hbuiltin⟩, ?_⟩
  · cases k
    · exact hg h
    · exact hl h
    · exact hp h
  · cases k
    · exact hg h
    · exact hl' h
    · exact hp h
  · refine ⟨rfl, rfl, hkept, hheaded.2.mono (by omega), hfirst.mono (by omega), fun n ↦ ?_, hkept,
      hheaded.2.mono (by omega), hglobals.1.mono (by omega), hglobals.2.2.1.mono (by omega),
      hglobals.2.1.mono (by omega), hglobals.2.2.2.mono (by omega), hbodies.mono (by omega),
      hinner.1.mono (by omega), hinner.2.mono (by omega)⟩
    rcases hothers n with ⟨q, hq, hn⟩ | hn
    · obtain rfl := List.mem_singleton.mp hq
      have hlt := hn.2
      simp only at hlt
      omega
    · exact .inr hn

end Marks

end SmallScript
