import SmallScript.Proofs.Flow.Returns
import SmallScript.Proofs.Run.Visits

namespace SmallScript

open Code (Expression Statement Body)

open Run (Visits Finds carryOut Point Invoke)

theorem Run.Finds.eq_of_literal {limits : Limits} {invoke : Invoke} {p : Point} {b t : Bool}
    (h : Finds limits invoke p (.literal (.bool b)) t) : t = b := by
  obtain ⟨m, h⟩ := h
  obtain ⟨_, m₁, -, h⟩ := bind_eq_ok h
  cases h
  rfl

namespace Flow

/-- The number of the block with the place `i` of the body that the blocks make up. Past the last place
comes the finish. -/
def blockAt : (blocks : List Body) → (i : Nat) → Nat
  | [], _ => 1
  | block :: rest, i => if i < block.length then 1 else blockAt rest (i - block.length) + 1

/-- The number that the block with a place of a body has in the graph, unless it is left out there. -/
def numberAt? (body : Body) (i : Nat) : Option Nat :=
  (Graph.full? body).bind fun g ↦
    let gone := g.unreached g.inner.length []
    let k := blockAt g.inner i
    if k ∈ gone then none else some (g.renumber gone k)

section BlockAt

variable {blocks : List Body} {k i : Nat} {block : Body}

theorem blockAt_offset (hk : blocks[k]? = some block) (hi : i < block.length) :
    blockAt blocks (offset blocks k + i) = k + 1 := by
  induction blocks generalizing k with
  | nil => nomatch hk
  | cons first rest ih =>
    cases k with
    | zero =>
      obtain rfl : first = block := by simpa using hk
      simp [blockAt, offset, hi]
    | succ k =>
      have hoffset : offset (first :: rest) (k + 1) = first.length + offset rest k := by
        simp [offset]
      rw [blockAt, if_neg (by omega), hoffset, Nat.add_assoc, Nat.add_sub_cancel_left, ih hk]

theorem blockAt_of_length_le (h : blocks.flatten.length ≤ i) :
    blockAt blocks i = blocks.length + 1 := by
  induction blocks generalizing i with
  | nil => rfl
  | cons first rest ih =>
    rw [List.flatten_cons, List.length_append] at h
    rw [blockAt, if_neg (by omega), ih (by omega), List.length_cons]

theorem blockAt_begin (hne : ∀ b ∈ blocks, b ≠ []) (hk : k ≤ blocks.length) :
    blockAt blocks (offset blocks k) = k + 1 := by
  rcases Nat.eq_or_lt_of_le hk with rfl | hlt
  · rw [offset, List.take_length]
    exact blockAt_of_length_le (Nat.le_refl _)
  · have hb := List.getElem?_eq_getElem hlt
    exact blockAt_offset hb (List.length_pos_iff.mpr (hne _ (List.mem_of_getElem? hb)))

end BlockAt

/-- What a run finds at a conditional jump: its condition, and what it gives. -/
abbrev Tested := Option (Expression × Bool)

namespace Graph

/-- Whether a branch leads from a block to another without a guard, or under a guard that holds: the
condition tested if that is true, or else its negation. -/
def Allows (g : Graph) (tested : Tested) (i t : Nat) : Prop :=
  ∃ guard, ⟨i, t, guard⟩ ∈ g.branches ∧
    (guard = none ∨ ∃ e b, tested = some (e, b) ∧ guard = some (if b then e else opposite e))

/-- Whether a branch leads to the block of a label, and control gets from the label to the block `t`:
that is the block itself, or, if it has no statement but the label, the one that it leads to. -/
def Jumps (g : Graph) (l : Label) (tested : Tested) (i t : Nat) : Prop :=
  ∃ d, g.Allows tested i d ∧ (g.block d)[0]? = some (.label l) ∧
    (t = d ∨ g.block d = [.label l] ∧ g.Allows none d t)

/-- Whether control gets from a block to another by the statement that a run is at: within the block by
one that does not end it, and else along branches. -/
def Follows (limits : Limits) (invoke : Invoke) (g : Graph) (p : Point) (s : Statement) (i t : Nat) : Prop :=
  match s with
  | .goto l => g.Jumps l none i t
  | .gotoIf l e negated => ∃ b, Finds limits invoke p e b ∧
      if b = negated then g.Allows (some (e, b)) i t else g.Jumps l (some (e, b)) i t
  | .declare _ _ | .label _ | .expression _ => t = i ∨ g.Allows none i t
  | _ => False

end Graph

theorem Branch.exists_simplify? {i t : Nat} {e : Expression} (he : e ≠ .literal (.bool false)) :
    ∃ guard, Branch.simplify? ⟨i, t, some e⟩ = some ⟨i, t, guard⟩ ∧ (guard = none ∨ guard = some e) := by
  unfold Branch.simplify?
  split
  · exact ⟨none, rfl, .inl rfl⟩
  · next h => exact absurd (Option.some.inj h) he
  · exact ⟨some e, rfl, .inr rfl⟩

section Full

variable {body : Body} {g : Graph} (hg : Graph.full? body = some g)
include hg

theorem allows_start : g.Allows none 0 1 := by
  obtain ⟨branches, -, rfl⟩ := Option.map_eq_some_iff.mp hg
  exact ⟨none, List.mem_filterMap.mpr ⟨_, List.mem_cons_self, rfl⟩, .inl rfl⟩

theorem allows_last {k : Nat} {block : Body} {s : Statement} (hk : (split body)[k]? = some block)
    (hs : block.getLast? = some s) :
    match s with
    | .goto l => ∃ t, blockOf? (split body) l = some t ∧ g.Allows none (k + 1) t
    | .gotoIf l e negated => ∃ t, blockOf? (split body) l = some t ∧
        ∀ b, (∀ b', e = .literal (.bool b') → b = b') →
          g.Allows (some (e, b)) (k + 1) (if b = negated then k + 2 else t)
    | .leave _ => g.Allows none (k + 1) ((split body).length + 1)
    | _ => g.Allows none (k + 1) (k + 2) := by
  obtain ⟨bs, hbs, hmem⟩ := branches_full hg hk
  unfold branchesOf? at hbs
  rw [hs] at hbs
  cases s with
  | goto l =>
    obtain ⟨t, ht, rfl⟩ := Option.map_eq_some_iff.mp hbs
    exact ⟨t, ht, none, hmem _ List.mem_cons_self _ rfl, .inl rfl⟩
  | gotoIf l e negated =>
    obtain ⟨t, ht, rfl⟩ := Option.map_eq_some_iff.mp hbs
    refine ⟨t, ht, fun b hb ↦ ?_⟩
    -- The guard that says what was found is not false, so its branch is kept.
    have hguard : (if b then e else opposite e) ≠ .literal (.bool false) := by
      cases b with
      | true => exact fun he ↦ nomatch hb _ he
      | false => exact opposite_ne_false fun he ↦ nomatch hb _ he
    have hallows {t : Nat} (h : ∀ b', Branch.simplify? ⟨k + 1, t, some (if b then e else opposite e)⟩ =
        some b' → b' ∈ g.branches) : g.Allows (some (e, b)) (k + 1) t := by
      obtain ⟨guard, hb', hcase⟩ := Branch.exists_simplify? (i := k + 1) (t := t) hguard
      exact ⟨guard, h _ hb', hcase.imp_right fun hcase ↦ ⟨e, b, rfl, hcase⟩⟩
    apply hallows
    apply hmem
    cases b <;> cases negated <;> simp
  | leave e =>
    obtain rfl := Option.some.inj hbs
    exact ⟨none, hmem _ List.mem_cons_self _ rfl, .inl rfl⟩
  | _ =>
    obtain rfl := Option.some.inj hbs
    exact ⟨none, hmem _ List.mem_cons_self _ rfl, .inl rfl⟩

theorem block_full {k : Nat} {block : Body} (hk : (split body)[k]? = some block) :
    g.block (k + 1) = block := by
  simp [Graph.block, inner_full hg, hk]

omit hg in
theorem blockAt_last {k j : Nat} {block : Body} (hk : (split body)[k]? = some block)
    (hlength : block.length = j + 1) : blockAt (split body) (offset (split body) k + j + 1) = k + 2 := by
  rw [Nat.add_assoc, ← hlength, ← offset_succ hk]
  exact blockAt_begin (fun b hb ↦ ne_nil_of_mem_splitFrom hb) (List.getElem?_eq_some_iff.mp hk).1

omit hg in
theorem blockAt_next {k j : Nat} {block : Body} {s : Statement} (hk : (split body)[k]? = some block)
    (hj : block[j]? = some s) :
    blockAt (split body) (offset (split body) k + j + 1) = k + 1 ∨ block.length = j + 1 := by
  have hlt := (List.getElem?_eq_some_iff.mp hj).1
  by_cases hlast : j + 1 < block.length
  · left
    rw [Nat.add_assoc]
    exact blockAt_offset hk hlast
  · right
    omega

omit hg in
theorem getLast?_of_length {j : Nat} {block : Body} {s : Statement} (hj : block[j]? = some s)
    (hlength : block.length = j + 1) : block.getLast? = some s := by
  rw [List.getLast?_eq_getElem?, hlength]
  exact hj

theorem jumps_full {i t j : Nat} {l : Label} {tested : Tested} (ht : blockOf? (split body) l = some t)
    (h : g.Allows tested i t) (hj : Run.place? body l = some j) :
    g.Jumps l tested i (blockAt (split body) j) := by
  obtain ⟨k, block, rfl, hk, hfirst, hplace⟩ := place?_of_blockOf? ht
  obtain rfl := Option.some.inj (hplace.symm.trans hj)
  refine ⟨k + 1, h, by rw [block_full hg hk, hfirst], ?_⟩
  rcases blockAt_next hk hfirst with hsame | hlength
  · exact .inl hsame
  · right
    have hnext := blockAt_last hk hlength
    obtain ⟨s, rfl⟩ := List.length_eq_one_iff.mp hlength
    obtain rfl : s = .label l := by simpa using hfirst
    rw [Nat.add_zero] at hnext
    rw [block_full hg hk, hnext]
    exact ⟨rfl, allows_last hg hk rfl⟩

omit hg in
theorem exists_blockAt {i : Nat} {s : Statement} (hs : body[i]? = some s) :
    ∃ k block off, (split body)[k]? = some block ∧ block[off]? = some s ∧
      i = offset (split body) k + off ∧ blockAt (split body) i = k + 1 := by
  rw [← flatten_split body] at hs
  obtain ⟨k, block, off, hk, hoff, hi⟩ := exists_block hs
  refine ⟨k, block, off, hk, hoff, hi, ?_⟩
  rw [hi]
  exact blockAt_offset hk (List.getElem?_eq_some_iff.mp hoff).1

omit hg in
theorem length_of_endsBlock {k off : Nat} {block : Body} {s : Statement}
    (hk : (split body)[k]? = some block) (hoff : block[off]? = some s) (he : endsBlock s) :
    block.length = off + 1 :=
  (((tidy_of_mem_split (List.mem_of_getElem? hk)) off s hoff).2 he).symm

theorem follows_full {limits : Limits} {invoke : Invoke} {p : Point} {s : Statement} {j : Nat}
    {last : Option Value} {m : Machine} (hs : body[p.index]? = some s)
    (hgo : carryOut limits invoke body p s = .ok (.at j last) m) :
    g.Follows limits invoke p s (blockAt (split body) p.index) (blockAt (split body) j) := by
  obtain ⟨k, block, off, hk, hoff, hp, hat⟩ := exists_blockAt hs
  have hgo := Run.carryOut_at hgo
  rw [hat]
  cases s with
  | goto l =>
    have hlength := length_of_endsBlock hk hoff rfl
    obtain ⟨t, ht, hallows⟩ := allows_last hg hk (getLast?_of_length hoff hlength)
    exact jumps_full hg ht hallows hgo
  | gotoIf l e negated =>
    have hlength := length_of_endsBlock hk hoff rfl
    obtain ⟨b, hb, hgo⟩ := hgo
    obtain ⟨t, ht, hallows⟩ := allows_last hg hk (getLast?_of_length hoff hlength)
    have hallows := hallows b fun b' he ↦ (he ▸ hb).eq_of_literal
    refine ⟨b, hb, ?_⟩
    split at hgo
    · next hn =>
      rw [if_pos hn] at hallows ⊢
      rw [hgo, hp, blockAt_last hk hlength]
      exact hallows
    · next hn =>
      rw [if_neg hn] at hallows ⊢
      exact jumps_full hg ht hallows hgo
  | declare | label | expression =>
    rw [hgo, hp]
    rcases blockAt_next hk hoff with hsame | hlength
    · exact .inl hsame
    · right
      rw [blockAt_last hk hlength]
      exact allows_last hg hk (getLast?_of_length hoff hlength)
  | _ => exact hgo.elim

end Full

section Prune

variable {g : Graph} {gone : List Nat} (hgone : g.Gone gone) {tested : Tested} {i t : Nat}
include hgone

theorem Graph.Allows.without (h : g.Allows tested i t) (hi : i ∉ gone) :
    t ∉ gone ∧ (g.without gone).Allows tested (g.renumber gone i) (g.renumber gone t) := by
  obtain ⟨guard, hb, hcase⟩ := h
  have ht : t ∉ gone := fun ht ↦ hi (hgone.closed _ hb ht)
  refine ⟨ht, guard, List.mem_filterMap.mpr ⟨_, hb, ?_⟩, hcase⟩
  simp [hi, ht, renumber]

theorem Graph.block_without_of_mem {s : Statement} (hs : s ∈ g.block i) (hi : i ∉ gone) :
    (g.without gone).block (g.renumber gone i) = g.block i := by
  have hpos : i ≠ 0 := fun h ↦ by simp [h, Graph.block] at hs
  have hle : i - 1 < g.inner.length := by
    by_contra hlt
    simp [Graph.block, hpos, List.getElem?_eq_none (Nat.le_of_not_lt hlt)] at hs
  exact block_without hgone (mem_kept.mpr ⟨⟨by omega, by omega⟩, hi⟩)

theorem Graph.Jumps.without {l : Label} (h : g.Jumps l tested i t) (hi : i ∉ gone) :
    t ∉ gone ∧ (g.without gone).Jumps l tested (g.renumber gone i) (g.renumber gone t) := by
  obtain ⟨d, hallows, hfirst, hcase⟩ := h
  obtain ⟨hd, hallows⟩ := hallows.without hgone hi
  have hblock := block_without_of_mem hgone (List.mem_of_getElem? hfirst) hd
  rcases hcase with rfl | ⟨honly, hnext⟩
  · exact ⟨hd, _, hallows, hblock ▸ hfirst, .inl rfl⟩
  · obtain ⟨ht, hnext⟩ := hnext.without hgone hd
    exact ⟨ht, _, hallows, hblock ▸ hfirst, .inr ⟨hblock.trans honly, hnext⟩⟩

theorem Graph.Follows.without {limits : Limits} {invoke : Invoke} {p : Point} {s : Statement}
    (h : g.Follows limits invoke p s i t) (hi : i ∉ gone) :
    t ∉ gone ∧ (g.without gone).Follows limits invoke p s (g.renumber gone i) (g.renumber gone t) := by
  cases s with
  | goto l => exact Jumps.without hgone h hi
  | gotoIf l e negated =>
    obtain ⟨b, hb, h⟩ := h
    by_cases hn : b = negated
    · rw [if_pos hn] at h
      obtain ⟨ht, h⟩ := h.without hgone hi
      exact ⟨ht, b, hb, by rwa [if_pos hn]⟩
    · rw [if_neg hn] at h
      obtain ⟨ht, h⟩ := h.without hgone hi
      exact ⟨ht, b, hb, by rwa [if_neg hn]⟩
  | declare | label | expression =>
    rcases h with rfl | h
    · exact ⟨hi, .inl rfl⟩
    · exact (Allows.without hgone h hi).imp_right .inr
  | _ => exact h.elim

end Prune

/-- What a graph says of a run of a body from a machine on. The block of each statement carried out is
in the graph. Control comes from the start to the first place, and from place to place along branches,
past the last one and by a return to the finish. -/
structure Graph.Covers (limits : Limits) (invoke : Invoke) (m : Machine) (body : Body) (g : Graph) :
    Prop where
  start : ∃ t, numberAt? body 0 = some t ∧ g.Allows none g.start t
  block {k : Nat} {p : Point} {s : Statement} (h : Visits limits invoke body m k p)
    (hs : body[p.index]? = some s) : ∃ i n off, numberAt? body p.index = some i ∧
      (split body)[n]? = some (g.block i) ∧ (g.block i)[off]? = some s ∧
      p.index = offset (split body) n + off
  goes {k j : Nat} {p : Point} {s : Statement} {last : Option Value} {m' : Machine}
    (h : Visits limits invoke body m k p) (hs : body[p.index]? = some s)
    (hgo : carryOut limits invoke body p s = .ok (.at j last) m') :
    ∃ i t, numberAt? body p.index = some i ∧ numberAt? body j = some t ∧
      g.Follows limits invoke p s i t
  passes {k : Nat} {p : Point} (h : Visits limits invoke body m k p) (hs : body[p.index]? = none) :
    numberAt? body p.index = some g.finish
  leaves {k : Nat} {p : Point} {s : Statement} {result : Option Value} {m' : Machine}
    (h : Visits limits invoke body m k p) (hs : body[p.index]? = some s)
    (hdone : carryOut limits invoke body p s = .ok (.done result) m') :
    ∃ i, numberAt? body p.index = some i ∧ g.Allows none i g.finish

section Covers

variable {limits : Limits} {invoke : Invoke} {m : Machine} {body : Body} {g : Graph}
variable (hg : Graph.full? body = some g)
include hg

theorem numberAt?_eq (i : Nat) :
    numberAt? body i =
      if blockAt (split body) i ∈ g.unreached g.inner.length [] then none
      else some (g.renumber (g.unreached g.inner.length []) (blockAt (split body) i)) := by
  unfold numberAt?
  rw [hg, Option.bind_some, inner_full hg]

theorem kept_start : blockAt (split body) 0 = 1 ∧ 1 ∉ g.unreached g.inner.length [] := by
  have hgone := g.gone_unreached g.inner.length g.gone_nil
  have hzero : 0 ∉ g.unreached g.inner.length [] := fun h ↦ absurd (hgone.inner 0 h).1 (by decide)
  refine ⟨?_, ((allows_start hg).without hgone hzero).1⟩
  exact blockAt_begin (k := 0) (fun b hb ↦ ne_nil_of_mem_splitFrom hb) (Nat.zero_le _)

theorem kept_of_visits {k : Nat} {p : Point} (h : Visits limits invoke body m k p) :
    blockAt (split body) p.index ∉ g.unreached g.inner.length [] := by
  induction h with
  | start =>
    obtain ⟨hat, hkept⟩ := kept_start hg
    exact hat ▸ hkept
  | go h hs hgo ih =>
    exact ((follows_full hg hs hgo).without (g.gone_unreached g.inner.length g.gone_nil) ih).1

theorem numberAt?_of_visits {k : Nat} {p : Point} (h : Visits limits invoke body m k p) :
    numberAt? body p.index =
      some (g.renumber (g.unreached g.inner.length []) (blockAt (split body) p.index)) := by
  rw [numberAt?_eq hg, if_neg (kept_of_visits hg h)]

theorem covers_prune : g.prune.Covers limits invoke m body := by
  have hgone := g.gone_unreached g.inner.length g.gone_nil
  constructor
  case start =>
    obtain ⟨hat, hkept⟩ := kept_start hg
    have hzero : 0 ∉ g.unreached g.inner.length [] := fun h ↦ absurd (hgone.inner 0 h).1 (by decide)
    have hallows := ((allows_start hg).without hgone hzero).2
    rw [Graph.renumber_start hgone] at hallows
    exact ⟨_, by rw [numberAt?_eq hg, hat, if_neg hkept], hallows⟩
  case block =>
    intro k p s h hs
    obtain ⟨n, block, off, hn, hoff, hp, hat⟩ := exists_blockAt hs
    have hblock : g.block (n + 1) = block := block_full hg hn
    have hkept := kept_of_visits hg h
    rw [hat] at hkept
    have hprune := Graph.block_without_of_mem hgone (hblock ▸ List.mem_of_getElem? hoff) hkept
    refine ⟨_, n, off, numberAt?_of_visits hg h, ?_, ?_, hp⟩
    · rw [hat, Graph.prune, hprune, hblock, hn]
    · rw [hat, Graph.prune, hprune, hblock, hoff]
  case goes =>
    intro k j p s last m' h hs hgo
    have hfollows := ((follows_full hg hs hgo).without hgone (kept_of_visits hg h)).2
    exact ⟨_, _, numberAt?_of_visits hg h, numberAt?_of_visits hg (.go h hs hgo), hfollows⟩
  case passes =>
    intro k p h hs
    have hlength : (split body).flatten.length ≤ p.index := by
      rw [flatten_split]
      exact List.getElem?_eq_none_iff.mp hs
    have hfinish : (split body).length + 1 = g.finish := by rw [Graph.finish, inner_full hg]
    rw [numberAt?_of_visits hg h, blockAt_of_length_le hlength, hfinish, Graph.renumber_finish hgone]
    rfl
  case leaves =>
    intro k p s result m' h hs hdone
    obtain ⟨e, rfl⟩ := Run.carryOut_done hdone
    obtain ⟨n, block, off, hn, hoff, hp, hat⟩ := exists_blockAt hs
    have hlast := getLast?_of_length hoff (length_of_endsBlock hn hoff rfl)
    have hallows : g.Allows none (n + 1) g.finish := by
      rw [Graph.finish, inner_full hg]
      exact allows_last hg hn hlast
    have hkept := kept_of_visits hg h
    rw [hat] at hkept
    have hprune := (hallows.without hgone hkept).2
    rw [Graph.renumber_finish hgone] at hprune
    exact ⟨_, numberAt?_of_visits hg h, by rw [hat]; exact hprune⟩

end Covers

theorem covers_ofBody? {body : Body} {g : Graph} (hg : Graph.ofBody? body = some g) (limits : Limits)
    (invoke : Invoke) (m : Machine) : g.Covers limits invoke m body := by
  unfold Graph.ofBody? at hg
  split at hg
  · obtain ⟨full, hfull, rfl⟩ := Option.map_eq_some_iff.mp hg
    exact covers_prune hfull
  · nomatch hg

section Returns

variable {limits : Limits} {invoke : Invoke} {m : Machine} {body : Body}

theorem reaches_of_visits {k : Nat} {p : Point} (h : Visits limits invoke body m k p) :
    Reaches body p.index := by
  induction h with
  | start => exact .start
  | @go k j p s last m' h hs hgo ih =>
    refine ih.goes ?_
    have hgo := Run.carryOut_at hgo
    unfold Goes
    rw [hs]
    cases s with
    | gotoIf l e negated =>
      obtain ⟨b, hb, hgo⟩ := hgo
      exact ⟨b, fun b' he ↦ (he ▸ hb).eq_of_literal, hgo⟩
    | declare | expression | label | goto => exact hgo
    | _ => exact hgo.elim

/-- A run of a body that always returns, whatever it begins with and whatever its calls do, never passes
the last statement; if it has a result, a return gives it. -/
theorem ends_in_return (hr : alwaysReturns body) (limits : Limits) (invoke : Invoke) (m : Machine) :
    (∀ k p, Visits limits invoke body m k p → p.index < body.length) ∧
    ∀ n result m', Run.body limits invoke body n 0 none m = .ok result m' →
      ∃ k < n, ∃ p e, Visits limits invoke body m k p ∧ body[p.index]? = some (.leave e) ∧
        carryOut limits invoke body p (.leave e) = .ok (.done result) m' := by
  have hlt (k : Nat) (p : Point) (h : Visits limits invoke body m k p) : p.index < body.length :=
    (reaches_of_visits h).lt_length hr
  refine ⟨hlt, fun n result m' hrun ↦ ?_⟩
  obtain ⟨k, hk, p, hp, hnone | ⟨e, he, hdone⟩⟩ := Run.exists_end_of_body hrun
  · exact absurd (hlt k p hp) (Nat.not_lt_of_le (List.getElem?_eq_none_iff.mp hnone))
  · exact ⟨k, hk, p, e, hp, he, hdone⟩

/-- An endless loop that returns a number, which one depends on a parameter. -/
def endlessChoice : Body :=
  (Code.flattenBody [.whileLoop (.literal (.bool true))
    (.ifElse (.var ⟨3, "p", .parameter, .bool, true⟩) (.leave (some (.literal (.int 1))))
      (.leave (some (.literal (.int 2))))) ⟨.breakOf 1, .continueOf 1⟩] 4).1

theorem endlessChoice_ends_in_return :
    alwaysReturns endlessChoice ∧
    ∃ k < 9, ∃ p e, Visits ⟨none, none, id⟩ (fun _ _ ↦ throw .stuck) endlessChoice
        ⟨.empty, [⟨[(⟨3, "p", .parameter, .bool, true⟩, .bool false)]⟩], 0, 0, ⟨[], #[]⟩⟩ k p ∧
      endlessChoice[p.index]? = some (.leave e) ∧
      carryOut ⟨none, none, id⟩ (fun _ _ ↦ throw .stuck) endlessChoice p (.leave e) =
        .ok (.done (some (.int 2)))
          ⟨.empty, [⟨[(⟨3, "p", .parameter, .bool, true⟩, .bool false)]⟩], 4, 0, ⟨[], #[]⟩⟩ := by
  have hr : alwaysReturns endlessChoice := by decide +kernel
  exact ⟨hr, (ends_in_return hr _ _ _).2 9 _ _ rfl⟩

end Returns

end Flow

end SmallScript
