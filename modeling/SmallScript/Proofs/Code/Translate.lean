import SmallScript.Proofs.Code.Rename

namespace SmallScript.Code

structure Translation where
  var : Variable → Variable
  function : Function → Function
  label : Label → Label
  ty_var : ∀ v, (var v).ty = v.ty
  returns_function : ∀ f, (function f).returns = f.returns

variable (T : Translation)

mutual

def Expression.translate : Expression → Expression
  | .error => .error
  | .literal x => .literal x
  | .var v => .var (T.var v)
  | .assign v e => .assign (T.var v) e.translate
  | .unary o e => .unary o e.translate
  | .binary e o e' => .binary e.translate o e'.translate
  | .call f es => .call (T.function f) (translateArguments es)
  | .convert target e => .convert target e.translate

def translateArguments : List Expression → List Expression
  | [] => []
  | e :: es => e.translate :: translateArguments es

end

def translateExits (x : Exits) : Exits := ⟨T.label x.leave, T.label x.again⟩

mutual

def Statement.translate : Statement → Statement
  | .block ss => .block (translateAll ss)
  | .declare v e => .declare (T.var v) (e.translate T)
  | .ifThen e s => .ifThen (e.translate T) s.translate
  | .ifElse e s s' => .ifElse (e.translate T) s.translate s'.translate
  | .whileLoop e s x => .whileLoop (e.translate T) s.translate (translateExits T x)
  | .doLoop s e x => .doLoop s.translate (e.translate T) (translateExits T x)
  | .forLoop v lower upper s x =>
    .forLoop (T.var v) (lower.translate T) (upper.translate T) s.translate (translateExits T x)
  | .label l => .label (T.label l)
  | .goto l => .goto (T.label l)
  | .gotoIf l e negated => .gotoIf (T.label l) (e.translate T) negated
  | .leave e => .leave (e.map (Expression.translate T))
  | .expression e => .expression (e.translate T)

def translateAll : List Statement → List Statement
  | [] => []
  | s :: rest => s.translate :: translateAll rest

end

variable {T}

theorem translateArguments_eq_map (es : List Expression) :
    translateArguments T es = es.map (Expression.translate T) := by
  induction es with
  | nil => rfl
  | cons e es ih => rw [translateArguments, ih, List.map_cons]

theorem translateAll_eq_map (ss : List Statement) : translateAll T ss = ss.map (Statement.translate T) := by
  induction ss with
  | nil => rfl
  | cons s rest ih => rw [translateAll, ih, List.map_cons]

@[simp]
theorem translateAll_append (ss ss' : List Statement) :
    translateAll T (ss ++ ss') = translateAll T ss ++ translateAll T ss' := by
  simp [translateAll_eq_map]

@[simp]
theorem Expression.ty_translate : (e : Expression) → (e.translate T).ty = e.ty
  | .assign _ e => e.ty_translate
  | .var v => T.ty_var v
  | .call f _ => T.returns_function f
  | .error | .literal _ | .unary _ _ | .binary _ _ _ | .convert _ _ => rfl

section Rename

variable (φ : Renaming)

def Renaming.translation : Translation := ⟨φ.var, id, φ.label, φ.ty_var, fun _ ↦ rfl⟩

mutual

theorem Expression.rename_eq_translate : (e : Expression) → e.rename φ = e.translate φ.translation
  | .error | .literal _ | .var _ => rfl
  | .assign v e => congrArg (Expression.assign (φ.var v)) e.rename_eq_translate
  | .unary o e => congrArg (Expression.unary o) e.rename_eq_translate
  | .binary e o e' => by
    simp only [Expression.rename, Expression.translate, e.rename_eq_translate, e'.rename_eq_translate]
  | .call f es => congrArg (Expression.call f) (renameArguments_eq_translate es)
  | .convert target e => congrArg (Expression.convert target) e.rename_eq_translate

theorem renameArguments_eq_translate : (es : List Expression) →
    renameArguments φ es = translateArguments φ.translation es
  | [] => rfl
  | e :: es => by
    simp only [renameArguments, translateArguments, e.rename_eq_translate, renameArguments_eq_translate es]

end

mutual

theorem Statement.rename_eq_translate : (s : Statement) → s.rename φ = s.translate φ.translation
  | .block ss => congrArg Statement.block (renameAll_eq_translateAll ss)
  | .declare v e => congrArg (Statement.declare (φ.var v)) (e.rename_eq_translate φ)
  | .ifThen e s => by
    simp only [Statement.rename, Statement.translate, e.rename_eq_translate φ, s.rename_eq_translate]
  | .ifElse e s s' => by
    simp only [Statement.rename, Statement.translate, e.rename_eq_translate φ, s.rename_eq_translate,
      s'.rename_eq_translate]
  | .whileLoop e s x | .doLoop s e x => by
    simp only [Statement.rename, Statement.translate, e.rename_eq_translate φ, s.rename_eq_translate]
    rfl
  | .forLoop v lower upper s x => by
    simp only [Statement.rename, Statement.translate, lower.rename_eq_translate φ,
      upper.rename_eq_translate φ, s.rename_eq_translate]
    rfl
  | .label _ | .goto _ => rfl
  | .gotoIf l e negated => congrArg (Statement.gotoIf (φ.label l) · negated) (e.rename_eq_translate φ)
  | .leave e => by
    cases e with
    | none => rfl
    | some e => exact congrArg (fun c ↦ Statement.leave (some c)) (e.rename_eq_translate φ)
  | .expression e => congrArg Statement.expression (e.rename_eq_translate φ)

theorem renameAll_eq_translateAll : (ss : List Statement) →
    renameAll φ ss = translateAll φ.translation ss
  | [] => rfl
  | s :: rest => by
    simp only [renameAll, translateAll, s.rename_eq_translate, renameAll_eq_translateAll rest]

end

end Rename

end SmallScript.Code
