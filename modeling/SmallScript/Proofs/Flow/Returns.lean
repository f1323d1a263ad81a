import SmallScript.Proofs.Flow.Prune
import SmallScript.Proofs.Flow.Split

namespace SmallScript.Flow

open Code (Expression Statement Body)

def Goes (body : Body) (i j : Nat) : Prop :=
  match body[i]? with
  | some (.goto l) => Run.place? body l = some j
  | some (.gotoIf l e negated) =>
    ∃ b, (∀ b', e = .literal (.bool b') → b = b') ∧
      if b = negated then j = i + 1 else Run.place? body l = some j
  | some (.leave _) | none => False
  | some _ => j = i + 1

def Graph.Leads (g : Graph) (i t : Nat) : Prop := ∃ guard, ⟨i, t, guard⟩ ∈ g.branches

theorem exists_of_mapM_eq_some {α β : Type} {f : α → Option β} {l : List α} {bs : List β}
    (h : l.mapM f = some bs) {a : α} (ha : a ∈ l) : ∃ b ∈ bs, f a = some b := by
  induction l generalizing bs with
  | nil => nomatch ha
  | cons a' rest ih =>
    simp only [List.mapM_cons, Option.bind_eq_bind, Option.bind_eq_some_iff] at h
    obtain ⟨b, hb, bs', hbs', heq⟩ := h
    obtain rfl := Option.some.inj heq
    rcases List.mem_cons.mp ha with rfl | ha
    · exact ⟨b, List.mem_cons_self, hb⟩
    · obtain ⟨c, hc, hfc⟩ := ih hbs' ha
      exact ⟨c, List.mem_cons_of_mem b hc, hfc⟩

theorem Branch.simplify?_some {i t : Nat} {e : Expression} (he : e ≠ .literal (.bool false)) :
    ∃ guard, Branch.simplify? ⟨i, t, some e⟩ = some ⟨i, t, guard⟩ := by
  unfold Branch.simplify?
  split
  · exact ⟨_, rfl⟩
  · next h => exact absurd (Option.some.inj h) he
  · exact ⟨_, rfl⟩

theorem opposite_ne_false {e : Expression} (he : e ≠ .literal (.bool true)) :
    opposite e ≠ .literal (.bool false) := by
  unfold opposite
  split
  · next b =>
    cases b
    · nofun
    · exact absurd rfl he
  · nofun

section Full

variable {body : Body} {g : Graph} (hg : Graph.full? body = some g)
include hg

theorem inner_full : g.inner = split body := by
  obtain ⟨branches, -, rfl⟩ := Option.map_eq_some_iff.mp hg
  rfl

theorem leads_start : g.Leads 0 1 := by
  obtain ⟨branches, -, rfl⟩ := Option.map_eq_some_iff.mp hg
  exact ⟨none, List.mem_filterMap.mpr ⟨_, List.mem_cons_self, rfl⟩⟩

/-- The branches of each block are in the graph, but for those with a false guard. -/
theorem branches_full {k : Nat} {block : Body} (hk : (split body)[k]? = some block) :
    ∃ bs, branchesOf? (split body) (k + 1) block = some bs ∧
      ∀ b ∈ bs, ∀ b', b.simplify? = some b' → b' ∈ g.branches := by
  obtain ⟨branches, hb, rfl⟩ := Option.map_eq_some_iff.mp hg
  have hmem : (block, k + 1) ∈ (split body).zipIdx 1 := by
    refine List.mem_iff_getElem?.mpr ⟨k, ?_⟩
    simp [hk, Nat.add_comm]
  obtain ⟨bs, hbs, heq⟩ := exists_of_mapM_eq_some hb hmem
  refine ⟨bs, heq, fun b hb b' hb' ↦ List.mem_filterMap.mpr ⟨b, ?_, hb'⟩⟩
  exact List.mem_cons_of_mem _ (List.mem_flatten.mpr ⟨bs, hbs, hb⟩)

theorem leads_last {k : Nat} {block : Body} {s : Statement} (hk : (split body)[k]? = some block)
    (hs : block.getLast? = some s) :
    match s with
    | .goto l => ∃ t, blockOf? (split body) l = some t ∧ g.Leads (k + 1) t
    | .gotoIf l e negated => ∃ t, blockOf? (split body) l = some t ∧
        (e ≠ .literal (.bool negated) → g.Leads (k + 1) t) ∧
        (e ≠ .literal (.bool !negated) → g.Leads (k + 1) (k + 2))
    | .leave _ => True
    | _ => g.Leads (k + 1) (k + 2) := by
  obtain ⟨bs, hbs, hmem⟩ := branches_full hg hk
  unfold branchesOf? at hbs
  rw [hs] at hbs
  cases s with
  | goto l =>
    obtain ⟨t, ht, rfl⟩ := Option.map_eq_some_iff.mp hbs
    exact ⟨t, ht, none, hmem _ List.mem_cons_self _ rfl⟩
  | gotoIf l e negated =>
    obtain ⟨t, ht, rfl⟩ := Option.map_eq_some_iff.mp hbs
    have htaken {e : Expression} {t : Nat} (he : e ≠ .literal (.bool false))
        (hb : ∀ b', Branch.simplify? ⟨k + 1, t, some e⟩ = some b' → b' ∈ g.branches) :
        g.Leads (k + 1) t := by
      obtain ⟨guard, hguard⟩ := Branch.simplify?_some (i := k + 1) (t := t) he
      exact ⟨guard, hb _ hguard⟩
    have hsecond {α : Type} (a b : α) : b ∈ [a, b] := List.mem_cons_of_mem a (List.mem_singleton_self b)
    refine ⟨t, ht, fun he ↦ ?_, fun he ↦ ?_⟩ <;> cases negated
    · exact htaken he (hmem _ List.mem_cons_self)
    · exact htaken (opposite_ne_false he) (hmem _ List.mem_cons_self)
    · exact htaken (opposite_ne_false he) (hmem _ (hsecond _ _))
    · exact htaken he (hmem _ (hsecond _ _))
  | leave e => trivial
  | _ =>
    obtain rfl := Option.some.inj hbs
    exact ⟨none, hmem _ List.mem_cons_self _ rfl⟩

end Full

def Alive (body : Body) (gone : List Nat) (i : Nat) : Prop :=
  ∃ k block j, (split body)[k]? = some block ∧ k + 1 ∉ gone ∧ j < block.length ∧
    i = offset (split body) k + j

theorem Alive.lt_length {body : Body} {gone : List Nat} {i : Nat} (h : Alive body gone i) :
    i < body.length := by
  obtain ⟨k, block, j, hk, -, hj, rfl⟩ := h
  have := getElem?_flatten hk hj
  rw [flatten_split] at this
  refine (List.getElem?_eq_some_iff.mp (this.trans (List.getElem?_eq_getElem hj))).1

section Returns

variable {body : Body} {g : Graph} {gone : List Nat} (hg : Graph.full? body = some g)
  (hgone : g.Gone gone) (hr : (g.without gone).alwaysReturns)
include hg hgone hr

theorem alive_of_leads {i t : Nat} (hi : i ∉ gone) (hlen : i ≤ (split body).length)
    (hlast : ∀ e, (g.block i).getLast? ≠ some (.leave e)) (h : g.Leads i (t + 1))
    (ht : t ≤ (split body).length) : Alive body gone (offset (split body) t) := by
  obtain ⟨guard, hb⟩ := h
  have hinner := inner_full hg
  have hfinish : t + 1 ≠ g.finish := fun hf ↦ by
    obtain ⟨e, he⟩ := g.leave_of_alwaysReturns hgone hr hb hf hi (hinner ▸ hlen)
    exact hlast e he
  have hlt : t < (split body).length := by
    simp only [Graph.finish, hinner] at hfinish
    omega
  refine ⟨t, (split body)[t], 0, List.getElem?_eq_getElem hlt, ?_, ?_, rfl⟩
  · exact fun hm ↦ hi (hgone.closed _ hb hm)
  · exact List.length_pos_iff.mpr (ne_nil_of_mem_splitFrom (List.getElem_mem hlt))

theorem alive_next {k j : Nat} {block : Body} {s : Statement} (hk : (split body)[k]? = some block)
    (hgk : k + 1 ∉ gone) (hj : block[j]? = some s) (hs : ∀ e, s ≠ .leave e)
    (hleads : block.getLast? = some s → g.Leads (k + 1) (k + 2)) :
    Alive body gone (offset (split body) k + j + 1) := by
  obtain ⟨hlt, hjs⟩ := List.getElem?_eq_some_iff.mp hj
  have hklt := (List.getElem?_eq_some_iff.mp hk).1
  by_cases hlast : j + 1 < block.length
  · exact ⟨k, block, j + 1, hk, hgk, hlast, rfl⟩
  · have hlength : block.length = j + 1 := by omega
    have hs' : block.getLast? = some s := by
      rw [List.getLast?_eq_getElem?, hlength]
      exact hj
    have hblock : g.block (k + 1) = block := by
      simp [Graph.block, inner_full hg, hk]
    have := alive_of_leads hg hgone hr hgk hklt (fun e he ↦ ?_) (hleads hs') hklt
    · rwa [offset_succ hk, hlength, ← Nat.add_assoc] at this
    · rw [hblock, hs'] at he
      exact hs e (Option.some.inj he)

theorem alive_jump {i t j : Nat} {l : Label} (hi : i ∉ gone) (ht : blockOf? (split body) l = some t)
    (h : g.Leads i t) (hj : Run.place? body l = some j) : Alive body gone j := by
  obtain ⟨k, block, rfl, hk, hfirst, hplace⟩ := place?_of_blockOf? ht
  obtain rfl := Option.some.inj (hplace.symm.trans hj)
  have hklt := (List.getElem?_eq_some_iff.mp hk).1
  have hgk : k + 1 ∉ gone := by
    obtain ⟨guard, hb⟩ := h
    exact fun hm ↦ hi (hgone.closed _ hb hm)
  exact alive_next hg hgone hr hk hgk hfirst (fun e he ↦ nomatch he) fun hs ↦ leads_last hg hk hs

theorem Alive.goes {i j : Nat} (h : Alive body gone i) (hgo : Goes body i j) :
    Alive body gone j := by
  obtain ⟨k, block, off, hk, hgk, hoff, rfl⟩ := h
  obtain ⟨s, hs⟩ : ∃ s, block[off]? = some s := ⟨_, List.getElem?_eq_getElem hoff⟩
  have hbody : body[offset (split body) k + off]? = some s := by
    have := getElem?_flatten hk hoff
    rwa [flatten_split, hs] at this
  have hends : endsBlock s → block.getLast? = some s := fun he ↦ by
    have hlength := ((tidy_of_mem_split (List.mem_of_getElem? hk)) off s hs).2 he
    rw [List.getLast?_eq_getElem?, ← hlength]
    exact hs
  unfold Goes at hgo
  rw [hbody] at hgo
  cases s with
  | goto l =>
    obtain ⟨t, ht, hleads⟩ := leads_last hg hk (hends rfl)
    exact alive_jump hg hgone hr hgk ht hleads hgo
  | gotoIf l e negated =>
    obtain ⟨t, ht, htaken, hmissed⟩ := leads_last hg hk (hends rfl)
    obtain ⟨b, hb, hgo⟩ := hgo
    split at hgo
    · next hbn =>
      subst hgo
      apply alive_next hg hgone hr hk hgk hs (fun e he ↦ nomatch he)
      intro _
      apply hmissed
      intro he
      exact absurd (hbn.symm.trans (hb _ he)) (by simp)
    · next hbn =>
      exact alive_jump hg hgone hr hgk ht (htaken fun he ↦ hbn (hb _ he)) hgo
  | leave e => exact hgo.elim
  | _ =>
    subst hgo
    exact alive_next hg hgone hr hk hgk hs (fun e he ↦ nomatch he) fun hs ↦ leads_last hg hk hs

end Returns

theorem alive_start {body : Body} {g : Graph} {gone : List Nat} (hg : Graph.full? body = some g)
    (hgone : g.Gone gone) (hr : (g.without gone).alwaysReturns) : Alive body gone 0 := by
  have hzero : 0 ∉ gone := fun h ↦ absurd (hgone.inner 0 h).1 (by decide)
  exact alive_of_leads hg hgone hr hzero (Nat.zero_le _) (fun e he ↦ nomatch he) (leads_start hg)
    (Nat.zero_le _)

/-- The places that control may come to. -/
inductive Reaches (body : Body) : Nat → Prop
  | start : Reaches body 0
  | goes {i j : Nat} (h : Reaches body i) (hgo : Goes body i j) : Reaches body j

theorem Reaches.lt_length {body : Body} (hr : alwaysReturns body) {i : Nat} (h : Reaches body i) :
    i < body.length := by
  unfold alwaysReturns Graph.ofBody? at hr
  split at hr
  · cases hg : Graph.full? body with
    | none => simp [hg] at hr
    | some g =>
      have hr : g.prune.alwaysReturns := by simpa [hg] using hr
      have hgone := g.gone_unreached g.inner.length g.gone_nil
      have halive : Alive body (g.unreached g.inner.length []) i := by
        induction h with
        | start => exact alive_start hg hgone hr
        | goes _ hgo ih => exact ih.goes hg hgone hr hgo
      exact halive.lt_length
  · nomatch hr

end SmallScript.Flow
