import SmallScript.Proofs.Scope.Grown

namespace SmallScript

namespace Scopes

namespace Space.Lawful

variable {α : Type} {S : Space α} (hS : S.Lawful)
variable {past : History} {s : Scopes} {n m : Nat} {name : String} {a : α}
include hS

theorem lookup_of_reaches (h : Follows past s) (hreach : S.Reaches past name n m) (hn : past.Knows n)
    (hfind : (S.own past m).find? (S.label · == name) = some a) : S.lookup s n name = some a := by
  induction hreach with
  | here n => rw [hS.lookup past s n name h hn, hfind, Option.some_or]
  | @outward n p m hnone hp _ ih =>
    have hfree : (S.own past n).find? (S.label · == name) = none := List.find?_eq_none.mpr (by simpa using hnone)
    rw [hS.lookup past s n name h hn, hfree, hp, Option.none_or, Option.bind_some]
    exact ih (h.parent_lt hn hp).2 hfind

theorem exists_reaches (h : Follows past s) (hn : past.Knows n) (hlook : S.lookup s n name = some a) :
    ∃ m, S.Reaches past name n m ∧ (S.own past m).find? (S.label · == name) = some a := by
  induction n using Nat.strongRecOn with
  | ind n ih =>
    rw [hS.lookup past s n name h hn] at hlook
    cases hfind : (S.own past n).find? (S.label · == name) with
    | some b =>
      rw [hfind, Option.some_or] at hlook
      exact ⟨n, .here n, hfind.trans hlook⟩
    | none =>
      rw [hfind, Option.none_or] at hlook
      obtain ⟨p, hp, hlook⟩ := Option.bind_eq_some_iff.mp hlook
      obtain ⟨hlt, hknows⟩ := h.parent_lt hn hp
      obtain ⟨m, hreach, hfound⟩ := ih p hlt hknows hlook
      exact ⟨m, .outward (by simpa using List.find?_eq_none.mp hfind) hp hreach, hfound⟩

theorem lookup_congr {past' : History} {s' : Scopes} (h : Follows past s) (h' : Follows past' s')
    (hknows : ∀ n, past.Knows n → past'.Knows n) (hparent : ∀ n, past'.parent? n = past.parent? n)
    (hown : ∀ n, S.own past' n = S.own past n) (hn : past.Knows n) : S.lookup s' n name = S.lookup s n name := by
  induction n using Nat.strongRecOn with
  | ind n ih =>
    rw [hS.lookup past s n name h hn, hS.lookup past' s' n name h' (hknows n hn), hown, hparent]
    cases hp : past.parent? n with
    | none => rfl
    | some p =>
      obtain ⟨hlt, hp⟩ := h.parent_lt hn hp
      rw [Option.bind_some, Option.bind_some, ih p hlt hp]

theorem follows_declare (h : Follows past s) (hn : past.Knows n)
    (haccepted : (s.apply (S.declare n a)).1 = .declared true) :
    Follows (past ++ [(S.declare n a, .declared true)]) (s.apply (S.declare n a)).2 := by
  have happly := h.apply (c := S.declare n a) ((hS.scope n a).symm ▸ hn)
  rwa [haccepted] at happly

theorem declares_iff (h : Follows past s) (hn : past.Knows n) :
    (s.apply (S.declare n a)).1 = .declared true ↔ ∀ b ∈ S.own past n, S.label b ≠ S.label a := by
  rw [hS.answer past s n a h hn, Answer.declared.injEq, Option.isNone_iff_eq_none, List.find?_eq_none]
  simp

theorem refuses_iff (h : Follows past s) (hn : past.Knows n) :
    (s.apply (S.declare n a)).1 = .declared false ↔ ∃ b ∈ S.own past n, S.label b = S.label a := by
  rw [hS.answer past s n a h hn, Answer.declared.injEq, Option.isNone_eq_false_iff, List.find?_isSome]
  simp

theorem lookup_declare (h : Follows past s) (hn : past.Knows n) (hm : past.Knows m)
    (haccepted : (s.apply (S.declare n a)).1 = .declared true) :
    S.lookup (s.apply (S.declare n a)).2 m name =
      (((S.own past m).find? (S.label · == name)).or (if m = n ∧ S.label a = name then some a else none)).or
        ((past.parent? m).bind (S.lookup (s.apply (S.declare n a)).2 · name)) := by
  rw [hS.lookup _ _ m _ (hS.follows_declare h hn haccepted) (hm.concat _), hS.parent?, hS.own, List.find?_append]
  by_cases hmn : m = n <;> by_cases hname : S.label a = name <;> simp [hmn, hname]

theorem seen (h : Follows past s) (hn : past.Knows n) (hm : past.Knows m)
    (haccepted : (s.apply (S.declare n a)).1 = .declared true) (hreach : S.Reaches past (S.label a) m n) :
    S.lookup (s.apply (S.declare n a)).2 m (S.label a) = some a := by
  have hskip {m : Nat} (hnone : ∀ b ∈ S.own past m, S.label b ≠ S.label a) :
      (S.own past m).find? (S.label · == S.label a) = none := List.find?_eq_none.mpr (by simpa using hnone)
  induction hreach with
  | here n =>
    have hfree := (hS.declares_iff h hn).mp haccepted
    rw [hS.lookup_declare h hn hm haccepted, hskip hfree, if_pos ⟨rfl, rfl⟩, Option.none_or, Option.some_or]
  | @outward m p n hnone hp _ ih =>
    rw [hS.lookup_declare h hn hm haccepted, hskip hnone, hp, Option.none_or, Option.bind_some,
      ih hn (h.parent_lt hm hp).2 haccepted]
    split <;> rfl

theorem lookup_declare_of_not_reaches (h : Follows past s) (hn : past.Knows n) (hm : past.Knows m)
    (haccepted : (s.apply (S.declare n a)).1 = .declared true)
    (hreach : ¬ (name = S.label a ∧ S.Reaches past name m n)) :
    S.lookup (s.apply (S.declare n a)).2 m name = S.lookup s m name := by
  induction m using Nat.strongRecOn with
  | ind m ih =>
    have hother : ¬ (m = n ∧ S.label a = name) := by
      rintro ⟨rfl, rfl⟩
      exact hreach ⟨rfl, .here m⟩
    rw [hS.lookup_declare h hn hm haccepted, if_neg hother, Option.or_none, hS.lookup _ _ m _ h hm]
    cases hfind : (S.own past m).find? (S.label · == name) with
    | some b => rfl
    | none =>
      cases hp : past.parent? m with
      | none => rfl
      | some p =>
        obtain ⟨hlt, hpknows⟩ := h.parent_lt hm hp
        have hnone : ∀ b ∈ S.own past m, S.label b ≠ name := by simpa using List.find?_eq_none.mp hfind
        exact ih p hlt hpknows fun ⟨hname, hr⟩ ↦ hreach ⟨hname, .outward hnone hp hr⟩

theorem unseen (h : Follows past s) (hn : past.Knows n) (hm : past.Knows m)
    (hreach : ¬ (name = S.label a ∧ S.Reaches past name m n)) :
    S.lookup (s.apply (S.declare n a)).2 m name = S.lookup s m name := by
  have hanswer := hS.answer past s n a h hn
  cases hfree : ((S.own past n).find? (S.label · == S.label a)).isNone with
  | false => rw [hS.unchanged s n a (hfree ▸ hanswer)]
  | true => exact hS.lookup_declare_of_not_reaches h hn hm (hfree ▸ hanswer) hreach

theorem answer_congr {past' : History} {s' : Scopes} {c : Change} (h : Follows past s) (h' : Follows past' s')
    (hc : past.Knows c.scope) (hconcerns : S.concerns c) (hknows : ∀ n, past'.Knows n ↔ past.Knows n)
    (hown : ∀ n, S.own past' n = S.own past n) : (s'.apply c).1 = (s.apply c).1 := by
  obtain ⟨n, rfl⟩ | ⟨n, a, rfl⟩ := (hS.concerns_iff c).mp hconcerns
  · have hsize (k : Nat) : k < s'.frames.size ↔ k < s.frames.size := by rw [← h.knows, ← h'.knows, hknows]
    have hle := mt (hsize s.frames.size).mp (Nat.lt_irrefl _)
    have hge := mt (hsize s'.frames.size).mpr (Nat.lt_irrefl _)
    exact congrArg Answer.opened (Nat.le_antisymm (Nat.not_lt.mp hle) (Nat.not_lt.mp hge))
  · rw [hS.scope] at hc
    rw [hS.answer _ _ n a h hc, hS.answer _ _ n a h' ((hknows n).mpr hc), hown]

/-- Without the declarations of the other kind the same changes can be made, with the same answers. -/
theorem exists_only (h : Grown past s) : ∃ s', Grown (S.only past) s' := by
  induction h with
  | root => exact ⟨_, .root⟩
  | @change past s h c hc ih =>
    obtain ⟨s', h'⟩ := ih
    by_cases hcon : S.concerns c
    · have honly : S.only (past ++ [(c, (s.apply c).1)]) = S.only past ++ [(c, (s.apply c).1)] := by
        simp [only, hcon]
      have hanswer := hS.answer_congr h.follows h'.follows hc hcon (hS.knows_only past) (hS.own_only past)
      refine ⟨(s'.apply c).2, ?_⟩
      rw [honly, ← hanswer]
      exact .change h' c ((hS.knows_only past _).mpr hc)
    · have honly : S.only (past ++ [(c, (s.apply c).1)]) = S.only past := by simp [only, hcon]
      exact ⟨s', honly ▸ h'⟩

theorem nested (h : Grown past s) : S.Nested past s where
  listed n hn := hS.listed past s n h.follows hn
  refused n a hn := hS.refuses_iff h.follows hn
  unchanged := hS.unchanged s
  lookup n name a hn :=
    ⟨hS.exists_reaches h.follows hn, fun ⟨_, hreach, hfind⟩ ↦ hS.lookup_of_reaches h.follows hreach hn hfind⟩
  seen n m a hn hm := hS.seen h.follows hn hm
  unseen n m a name hn hm := hS.unseen h.follows hn hm
  alone := by
    obtain ⟨s', h'⟩ := hS.exists_only h
    refine ⟨s', h', fun n hn ↦ ?_⟩
    have hn' := (hS.knows_only past n).mpr hn
    rw [hS.listed past s n h.follows hn, hS.listed _ s' n h'.follows hn', hS.own_only]
    exact ⟨rfl, fun name ↦ hS.lookup_congr h.follows h'.follows (fun n ↦ (hS.knows_only past n).mpr)
      (hS.parent?_only past) (hS.own_only past) hn⟩

end Space.Lawful

theorem Follows.reaches_root {past : History} {s : Scopes} {n : Nat} (h : Follows past s) (hn : past.Knows n) :
    Relation.ReflTransGen (fun m p ↦ s.parent? m = some p) n 0 := by
  induction n using Nat.strongRecOn with
  | ind n ih =>
    obtain rfl | ⟨parent, hmem⟩ := id hn
    · exact .refl
    · have hopen : (past.parent? n).isSome := by
        rw [History.parent?, List.findSome?_isSome_iff]
        exact ⟨_, hmem, by simp [History.opens?]⟩
      obtain ⟨p, hp⟩ := Option.isSome_iff_exists.mp hopen
      obtain ⟨hlt, hknows⟩ := h.parent_lt hn hp
      exact .head ((h.parent?_eq hn).trans hp) (ih p hlt hknows)

/-- Whether scopes are nested dictionaries, as some changes have made them. -/
structure NestedDictionaries (past : History) (s : Scopes) : Prop where
  /-- The root is inside no scope, and every other scope inside the one it was opened in. -/
  root : s.parent? 0 = none
  parent : ∀ n, past.Knows n → s.parent? n = past.parent? n
  /-- Outward from any scope one comes to the root. -/
  outward : ∀ n, past.Knows n → Relation.ReflTransGen (fun m p ↦ s.parent? m = some p) n 0
  /-- A scope that is opened is a new one. -/
  fresh : ∀ n, ¬ past.Knows (s.push n).1
  ofVariables : variableSpace.Nested past s
  ofFunctions : functionSpace.Nested past s

/-- Whatever changes are made, the scopes are nested dictionaries. -/
theorem Grown.nested_dictionaries {past : History} {s : Scopes} (h : Grown past s) : NestedDictionaries past s where
  root := (h.follows.parent?_eq (.inl rfl)).trans h.follows.root
  parent _ hn := h.follows.parent?_eq hn
  outward _ hn := h.follows.reaches_root hn
  fresh _ hn := Nat.lt_irrefl _ ((h.follows.knows _).mp hn)
  ofVariables := lawful_variableSpace.nested h
  ofFunctions := lawful_functionSpace.nested h

/-- Of two scopes in one another both declare a name, and the outer one declares it twice. -/
theorem Grown.nested_dictionaries_hidden :
    ∃ past s, Grown past s ∧
      past.map Prod.snd = [.opened 1, .opened 2, .declared true, .declared false, .declared true] ∧
      NestedDictionaries past s := by
  have houter := Grown.root.change (.push 0) (.inl rfl)
  have hone := History.knows_push [] 0 1
  have hinner := houter.change (.push 1) hone
  have htwo := History.knows_push [(.push 0, .opened 1)] 1 2
  have hfirst := hinner.change (.declareVariable 1 ⟨3, "x", .local, .int, false⟩) (hone.concat _)
  have hagain := hfirst.change (.declareVariable 1 ⟨4, "x", .local, .string, false⟩) ((hone.concat _).concat _)
  have hhidden := hagain.change (.declareVariable 2 ⟨5, "x", .local, .bool, true⟩) ((htwo.concat _).concat _)
  exact ⟨_, _, hhidden, by rfl, hhidden.nested_dictionaries⟩

end Scopes

end SmallScript
