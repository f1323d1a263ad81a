import SmallScript.Proofs.Resolve.Known
import SmallScript.Proofs.Typing.Soundness

namespace SmallScript

open Code (Expression)

/-- In a scope, a text is one expression and stands for `e`, and nothing is reported. -/
def Denotes (r : Resolution) (text : String) (e : Expression) : Prop :=
  ∃ x, (Tree.ofText text).reports = [] ∧ (Tree.ofText text).source.members = [.statement (.expression x)] ∧
    (Resolver.expression x r).1 = e ∧ (Resolver.expression x r).2.reports = r.reports

namespace Denotes

variable {r : Resolution} {text : String} {e : Expression}

theorem sound (h : Denotes r text e) : Resolver.Sound r e := by
  obtain ⟨x, hreports, hx, rfl, hquiet⟩ := h
  have hspelt : x.Spelt := Tree.spelt_ofText hreports (.statement (.expression x)) (hx ▸ List.mem_singleton_self _)
  exact ((Resolver.keeps_expression x hspelt).sound r rfl hquiet).2

theorem iff_meant (h : Denotes r text e) : Denotes r e.text e ↔ e.Meant := by
  obtain ⟨hlegible, hknown⟩ := h.sound
  constructor
  · rintro ⟨_, hreports, -⟩
    exact Tree.meant_of_reports hlegible hreports
  · intro hm
    obtain ⟨x, hreports, hx, hspells⟩ := Tree.exists_spells hlegible hm
    have hexpression := Resolver.expression_of_spells hspells (hknown hm)
    exact ⟨x, hreports, hx, congrArg (·.1) hexpression, congrArg (·.2.reports) hexpression⟩

theorem meant (h : Denotes r text e) (hr : r.scopes.Sound Function.Proper) : e.Meant := by
  obtain ⟨x, hreports, hx, rfl, hquiet⟩ := h
  have hwhole := Tree.whole_of_reports_eq_nil hreports
  simp only [Tree.Source.tokens, hx, Tree.Whole.append_iff, List.flatMap_cons] at hwhole
  have htyped := (Resolver.resolves_expression (F := Function.Proper) (fun _ hf ↦ hf) x).sound r hr hquiet
  exact (htyped.2 hwhole.1.1).meant

/-- An expression that a text stands for can be read where it is printed, and stands for itself, exactly if no
part of it is without meaning. In scopes of values and proper functions that is always so. -/
theorem text_round_trip (h : Denotes r text e) :
    (Denotes r e.text e ↔ e.Meant) ∧ (r.scopes.Sound Function.Proper → Denotes r e.text e) :=
  ⟨h.iff_meant, fun hr ↦ h.iff_meant.mpr (h.meant hr)⟩

/-- A variable is set to the product of a sum and a number whose sign is changed twice. -/
def signs (v : Variable) : Expression :=
  .assign v (.binary
    (.binary (.var v) ⟨.plus, .addition, .int, .int⟩ (.literal (.int 2)))
    ⟨.star, .multiplication, .int, .int⟩
    (.unary ⟨.minus, .negation, .int⟩ (.unary ⟨.minus, .negation, .int⟩ (.var v))))

theorem text_round_trip_signs :
    Denotes ((Compilation.first "var x = 1").layers.start 4) "x = ((x + 2) * - (-x))"
      (signs ⟨3, "x", .global, .int, false⟩) ∧
    Denotes ((Compilation.first "var x = 1").layers.start 4) "x = (x + 2) * -(-x)"
      (signs ⟨3, "x", .global, .int, false⟩) := by
  have h : Denotes ((Compilation.first "var x = 1").layers.start 4) "x = ((x + 2) * - (-x))"
      (signs ⟨3, "x", .global, .int, false⟩) :=
    ⟨_, by decide +kernel, rfl, rfl, by decide +kernel⟩
  exact ⟨h, h.text_round_trip.1.mpr ⟨trivial, ⟨trivial, trivial⟩, trivial⟩⟩

/-- A variable whose initializer is unknown has no type, and what is made of it is printed as a sign that no
token begins with. -/
theorem not_denotes_text_of_unknown_type :
    Denotes ((Compilation.first "var x = y").layers.start 4) "x + 1" .error ∧
    ¬ Denotes ((Compilation.first "var x = y").layers.start 4) (Expression.text .error) .error := by
  refine ⟨⟨_, by decide +kernel, rfl, rfl, by decide +kernel⟩, ?_⟩
  rintro ⟨_, hreports, -⟩
  exact absurd hreports (by decide +kernel)

end Denotes

namespace Compilation

/-- After texts about which nothing is reported, each expression can be read where it is printed. -/
theorem Chain.denotes_text {c : Compilation} {earlier : List Compilation} (h : Chain c earlier)
    (hclean : ∀ d ∈ c :: earlier, d.tree.reports = []) (hreports : c.layers.reports = []) {n : Nat}
    {text : String} {e : Expression} (he : Denotes (c.layers.start n) text e) :
    Denotes (c.layers.start n) e.text e := by
  have hlayers := h.layers_sound hclean hreports
  exact he.iff_meant.mpr (he.meant ((hlayers.start n).mono fun f hf ↦ hlayers.proper f hf))

end Compilation

end SmallScript
