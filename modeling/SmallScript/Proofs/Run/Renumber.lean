import SmallScript.Proofs.Run.RenumberExpression

namespace SmallScript

open Code (Expression Statement Body translateAll translateArguments AllOf)

variable {φ : Renumbering} {k : Nat} {m m' : Machine}

namespace Run

variable {U V : Prop} {limits : Limits} {invoke invoke' : Invoke}

section Body

variable {x : Offsets} {p d : Nat} {b whole : Body} {L : Option Value → Option Value → Prop}

/-- A body stands in another one behind `p` statements, under other numbers, and its jumps stay in it. -/
structure Inside (φ : Renumbering) (x : Offsets) (p : Nat) (b whole : Body) : Prop where
  code : ∀ i s, b[i]? = some s → whole[p + i]? = some (s.translate (φ.translation x))
  place : ∀ l ∈ b.jumps, ∃ j, j ≤ b.length ∧ place? b l = some j ∧ place? whole (x.label l) = some (p + j)

theorem labels_translate (T : Code.Translation) (b : Body) :
    Body.labels (translateAll T b) = b.labels.map T.label := by
  unfold Code.Body.labels
  rw [Code.translateAll_eq_map, List.filterMap_map, List.map_filterMap]
  congr 1
  funext s
  cases s <;> rfl

theorem place?_translate {T : Code.Translation} (hT : ∀ {l l'}, T.label l = T.label l' → l = l') (b : Body) (l : Label) :
    place? (translateAll T b) (T.label l) = place? b l := by
  induction b using List.reverseRecOn with
  | nil => rfl
  | append_singleton b s ih =>
    have hlabel : (s.translate T).label? = some (T.label l) ↔ s.label? = some l := by
      cases s <;> simp [Statement.translate, Statement.label?]
      exact ⟨hT, congrArg T.label⟩
    rw [Code.translateAll_append, translateAll, translateAll, place?_append_singleton, place?_append_singleton, ih,
      Code.translateAll_eq_map, List.length_map]
    simp only [hlabel]

theorem Inside.of_append (h : b.Closed) (before : Body) {behind : Body} (hbehind : ∀ l ∈ b.labels, x.label l ∉ behind.labels) :
    Inside φ x before.length b (before ++ translateAll (φ.translation x) b ++ behind) := by
  constructor
  · intro i s hs
    have hlt := (List.getElem?_eq_some_iff.mp hs).1
    rw [List.append_assoc, List.getElem?_append_right (Nat.le_add_right _ _), Nat.add_sub_cancel_left,
      Code.translateAll_eq_map, List.getElem?_append_left (by rwa [List.length_map]), List.getElem?_map, hs]
    rfl
  · intro l hl
    have hmem : l ∈ b.labels := List.count_pos_iff.mp (by rw [h.target l hl]; exact Nat.one_pos)
    cases hplace : place? b l with
    | none => exact absurd hmem (place?_eq_none_iff.mp hplace)
    | some j =>
      obtain ⟨i, rfl, hi⟩ := getElem?_of_place? hplace
      refine ⟨i + 1, (List.getElem?_eq_some_iff.mp hi).1, rfl, ?_⟩
      have htranslate : place? (translateAll (φ.translation x) b) (x.label l) = some (i + 1) :=
        (place?_translate (T := φ.translation x) Offsets.label_injective b l).trans hplace
      rw [place?_append, place?_eq_none_iff.mpr (hbehind l hmem), place?_append, htranslate]
      rfl

def Onward (p : Nat) (b : Body) (s : Statement) (L : Option Value → Option Value → Prop) : Next → Next → Prop
  | .at j last, .at j' last' => j' = p + j ∧ j ≤ b.length ∧ L last last'
  | .done a, .done a' => a = a' ∧ ∃ e, s = .leave e
  | _, _ => False

theorem matches_target (hin : Inside φ x p b whole) {l : Label} (hl : l ∈ b.jumps) :
    Matches U V (Machine.Renumbered φ k) (fun j j' ↦ j' = p + j ∧ j ≤ b.length) (target b l) (target whole (x.label l)) := by
  obtain ⟨j, hj, hb, hc⟩ := hin.place l hl
  rw [target_eq, target_eq, hb, hc]
  exact .pure ⟨rfl, hj⟩

theorem step_renumber (hcalls : Recalls U V φ k invoke invoke') (hin : Inside φ x p b whole) (hL : ∀ o, L o o) {s : Statement}
    (hs : s ∈ b) (hreach : s.Of (Variable.InReach k) (Reaches k)) {i : Nat} (hi : i ≤ b.length)
    {last last' : Option Value} (hlast : L last last') :
    Matches U V (Machine.Renumbered φ k) (Onward p b s L) (step limits invoke b i last s)
      (step limits invoke' whole (p + i) last' (s.translate (φ.translation x))) := by
  have hjump {l : Label} (hl : s.jump? = some l) :
      Matches U V (Machine.Renumbered φ k) (Onward p b s L) (do return Next.at (← target b l) last)
        (do return Next.at (← target whole (x.label l)) last') :=
    (matches_target hin (Code.Body.mem_jumps.mpr ⟨s, hs, hl⟩)).bind fun _ _ hj ↦ .pure ⟨hj.1, hj.2, hlast⟩
  cases s with
  | declare v e => exact (evaluate_renumber x hcalls e hreach.2).before fun o ↦ (Matches.need o).before fun y ↦
      (matches_write hreach.1 y).before fun _ ↦ .pure ⟨rfl, hi, hL _⟩
  | expression e => exact (evaluate_renumber x hcalls e hreach).before fun o ↦ .pure ⟨rfl, hi, hL o⟩
  | label l => exact .pure ⟨rfl, hi, hlast⟩
  | goto l => exact hjump rfl
  | gotoIf l e negated =>
    refine (evaluate_renumber x hcalls e hreach).before fun o ↦ (Matches.needBool o).before fun t ↦ ?_
    split
    · exact .pure ⟨rfl, hi, hlast⟩
    · exact hjump rfl
  | leave e =>
    cases e with
    | none => exact .pure ⟨rfl, none, rfl⟩
    | some e => exact (evaluate_renumber x hcalls e (hreach e rfl)).before fun o ↦ .pure ⟨rfl, some e, rfl⟩
  | block | ifThen | ifElse | whileLoop | doLoop | forLoop => exact Tracks.throw _

/-- A body does the same as part of a longer one. What comes behind it, in either, is what `Q` is about. -/
theorem body_renumber (hcalls : Recalls U V φ k invoke invoke') (hsteps : limits.steps = none) (hin : Inside φ x p b whole)
    (hL : ∀ o, L o o) (hreach : AllOf (Variable.InReach k) (Reaches k) b) {Q : Follow (Option Value) (Option Value)}
    {n n' limit : Nat} (hend : ∀ e last last' m m', V ∨ d ≤ e → e < limit → L last last' → m.Renumbered φ k m' →
      Q last m (body limits invoke' whole (e + 1) (p + b.length) last' m'))
    (hleave : ∀ e, .leave e ∈ b → ∀ a m m', m.Renumbered φ k m' → Q a m (.ok a m'))
    (hn : V ∨ d + n ≤ n') (hn' : U ∨ n' ≤ n) (hlimit : n' ≤ limit) {i : Nat} (hi : i ≤ b.length)
    {last last' : Option Value} (hlast : L last last') :
    Tracks U V (Machine.Renumbered φ k) Q (body limits invoke b n i last) (body limits invoke' whole n' (p + i) last') := by
  induction n generalizing n' i last last' with
  | zero =>
    rcases hn' with hU | hn'
    · exact .left hU _
    · obtain rfl := Nat.le_zero.mp hn'
      exact .throw _
  | succ n ih =>
    cases n' with
    | zero =>
      rcases hn with hV | hn
      · exact .right hV _
      · exact absurd hn (Nat.not_succ_le_zero _)
    | succ n' =>
      have hn : V ∨ d + n ≤ n' := hn.imp_right Nat.le_of_succ_le_succ
      rw [body]
      cases hs : b[i]? with
      | none =>
        obtain rfl : i = b.length := Nat.le_antisymm hi (List.getElem?_eq_none_iff.mp hs)
        exact fun m m' hm ↦ .ok (hend n' last last' m m' (hn.imp_right (Nat.le_of_add_right_le ·)) hlimit hlast hm)
      | some s =>
        have hmem := List.mem_of_getElem? hs
        have hlt := (List.getElem?_eq_some_iff.mp hs).1
        rw [body, hin.code i s hs]
        refine (matches_tick hsteps).before fun _ ↦
          (step_renumber hcalls hin hL hmem (Code.allOf_iff.mp hreach s hmem) hlt hlast).bind fun next next' hnext ↦ ?_
        cases next with
        | «at» j last =>
          cases next' with
          | «at» j' last' =>
            obtain ⟨rfl, hj, hlast⟩ := hnext
            exact ih hn (hn'.imp_right Nat.le_of_succ_le_succ) (Nat.le_of_succ_le hlimit) hj hlast
          | done => exact hnext.elim
        | done a =>
          cases next' with
          | «at» => exact hnext.elim
          | done a' =>
            obtain ⟨rfl, e, rfl⟩ := hnext
            exact fun m m' hm ↦ .ok (hleave e hmem a m m' hm)

end Body

section Call

theorem Matches.frame {α : Type} {y y' : Run α} {frame frame' : Store} (hframe : frame.Renumbered φ frame')
    (h : Matches U V (Machine.Renumbered φ (k + 1)) Eq y y') :
    Matches U V (Machine.Renumbered φ k) Eq (withFrame frame y) (withFrame frame' y') := by
  intro m m' hm
  have hout {m m' : Machine} (hm : m.Renumbered φ (k + 1) m') :
      { m with frames := m.frames.tail }.Renumbered φ k { m' with frames := m'.frames.tail } := by
    obtain ⟨frame, rest, frame', rest', hframes, hframes', -, hrest⟩ := hm.frame (Nat.succ_pos k)
    have hdepth := hm.depth
    rw [hframes] at hdepth
    rw [hframes, hframes']
    exact ⟨hm.globals, hm.kinds, hrest, Nat.succ.inj hdepth, hm.draws, hm.console⟩
  have hy := h { m with frames := frame :: m.frames } { m' with frames := frame' :: m'.frames }
    ⟨hm.globals, hm.kinds, .cons hframe hm.frames, congrArg (· + 1) hm.depth, hm.draws, hm.console⟩
  unfold withFrame
  generalize y { m with frames := frame :: m.frames } = r, y' { m' with frames := frame' :: m'.frames } = r' at hy
  cases hy with
  | ok hok =>
    obtain ⟨a, m', rfl, hm, rfl⟩ := hok
    exact .ok ⟨_, _, rfl, hout hm, rfl⟩
  | error e hm => exact .error e (hout hm)
  | left hU => exact .left hU _ _
  | right hV => exact .right hV _ _

theorem allOf_reaches {b : Body} (hflat : b.isFlat) : AllOf (Variable.InReach (k + 1)) (Reaches (k + 1)) b := by
  refine Code.allOf_iff.mpr fun s hs ↦ (Code.Statement.of_iff (List.all_eq_true.mp hflat s hs)).mpr ⟨?_, ?_⟩
  · exact fun _ _ ↦ .inr (Nat.succ_pos k)
  · exact fun _ _ ↦ trivial

theorem call_renumber {p p' : Program} (hsteps : limits.steps = none)
    (hbodies : ∀ f, p'.body? (φ.func f) = (p.body? f).map (translateAll (φ.translation .zero)))
    (hclosed : ∀ f b, p.body? f = some b → Inside φ .zero 0 b (translateAll (φ.translation .zero) b) ∧ b.isFlat)
    {n n' : Nat} (hn : V ∨ n ≤ n') (hn' : U ∨ n' ≤ n) :
    Recalls U V φ k (call p limits n) (call p' limits n') := by
  induction n generalizing n' k with
  | zero =>
    intro _ _ _ _
    rcases hn' with hU | hn'
    · exact .left hU _
    · obtain rfl := Nat.le_zero.mp hn'
      exact .throw _
  | succ n ih =>
    intro f frame frame' hframe
    cases n' with
    | zero =>
      rcases hn with hV | hn
      · exact .right hV _
      · exact absurd hn (Nat.not_succ_le_zero n)
    | succ n' =>
      have hn : V ∨ n ≤ n' := hn.imp_right Nat.le_of_succ_le_succ
      have hn' : U ∨ n' ≤ n := hn'.imp_right Nat.le_of_succ_le_succ
      rw [call, call, hbodies f]
      cases hb : p.body? f with
      | none => exact Tracks.throw _
      | some b =>
        obtain ⟨hin, hflat⟩ := hclosed f b hb
        have hbody : Matches U V (Machine.Renumbered φ (k + 1)) Eq (body limits (call p limits n) b n 0 none)
            (body limits (call p' limits n') (translateAll (φ.translation .zero) b) n' (0 + 0) none) := by
          refine body_renumber (L := Eq) (d := 0) (ih hn hn') hsteps hin (fun _ ↦ rfl) (allOf_reaches hflat) ?_ ?_
            (by rwa [Nat.zero_add]) hn' (Nat.le_refl n') (Nat.zero_le _) rfl
          · rintro n last _ m m' - - rfl hm
            refine ⟨last, m', ?_, hm, rfl⟩
            rw [body, Nat.zero_add, Code.translateAll_eq_map, List.getElem?_eq_none (Nat.le_of_eq (List.length_map _))]
            rfl
          · exact fun _ _ a m m' hm ↦ ⟨a, m', rfl, hm, rfl⟩
        exact (hbody.frame hframe).before fun _ ↦ .pure rfl

end Call

end Run

end SmallScript
