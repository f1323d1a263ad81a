import SmallScript.Proofs.Flow.Returns
import SmallScript.Proofs.Resolve.Loops
import SmallScript.Text.Literal

namespace SmallScript

open Code (Statement Body)

def Label.IsNumbered : Label → Prop
  | .given _ _ => False
  | _ => True

theorem Label.toList_name (l : Label) : l.name.toList = match l with
    | .breakOf n => "break".toList ++ Nat.toDigits 10 n
    | .continueOf n => "continue".toList ++ Nat.toDigits 10 n
    | .made n => "label".toList ++ Nat.toDigits 10 n
    | .given _ name => name.toList := by
  have hdigits (n : Nat) : (toString n).toList = Nat.toDigits 10 n := by
    rw [Nat.toString_eq_repr, Nat.repr_eq_ofList_toDigits, String.toList_ofList]
  cases l with
  | given n name => rfl
  | breakOf n | continueOf n | made n =>
    dsimp only
    rw [← hdigits, ← String.toList_append]
    rfl

theorem Label.eq_of_name {l l' : Label} (h : l.IsNumbered) (h' : l'.IsNumbered)
    (hname : l.name = l'.name) : l = l' := by
  have hlist := congrArg String.toList hname
  rw [toList_name, toList_name] at hlist
  have hnumber {word : List Char} {n n' : Nat}
      (heq : word ++ Nat.toDigits 10 n = word ++ Nat.toDigits 10 n') : n = n' := by
    have hn := congrArg Decimal.natural? (List.append_cancel_left heq)
    rw [Decimal.natural?_toDigits, Decimal.natural?_toDigits] at hn
    exact Option.some.inj hn
  cases l with
  | given => exact h.elim
  | breakOf n =>
    cases l' with
    | given => exact h'.elim
    | breakOf n' => exact congrArg _ (hnumber hlist)
    | _ => simp at hlist
  | continueOf n =>
    cases l' with
    | given => exact h'.elim
    | continueOf n' => exact congrArg _ (hnumber hlist)
    | _ => simp at hlist
  | made n =>
    cases l' with
    | given => exact h'.elim
    | made n' => exact congrArg _ (hnumber hlist)
    | _ => simp at hlist

namespace Code

/-- A flat body where each jump goes to a label that is there once, and where no two labels share a name. -/
structure Body.Closed (b : Body) : Prop where
  flat : b.isFlat
  target : ∀ l ∈ b.jumps, b.labels.count l = 1
  names : (b.labels.map Label.name).Nodup

section Flatten

variable {n k : Nat} {ss : List Statement} (h : Looped n k (nodesAll ss))
include h

theorem distinct_of_looped : Body.Distinct ss := by
  have hlabel {l : Label} : .label l ∉ nodesAll ss := by
    rw [← Body.mem_labels, h.labels]
    exact List.not_mem_nil
  refine ⟨h.nodup, fun _ _ ↦ hlabel, fun m ↦ ⟨fun hm ↦ ?_, hlabel⟩⟩
  obtain ⟨i, -, -, hcase⟩ := h.numbered _ hm
  rcases hcase with hcase | hcase <;> nomatch hcase

theorem isTarget_of_mem_labels (m : Nat) {l : Label} (hl : l ∈ (flattenBody ss m).1.labels) :
    IsTarget ss l := by
  have hcount := count_flattenAll l ss ⟨0, m⟩
  have hpos := List.count_pos_iff.mpr hl
  change 0 < (flattenAll ss ⟨0, m⟩).1.labels.count l at hpos
  rw [h.labels, List.count_nil] at hcount
  by_cases hexit : l ∈ exitsOf (nodesAll ss)
  · exact .inl hexit
  · rw [List.count_eq_zero.mpr hexit] at hcount
    have hmade : 0 < madeCount l (flattenAll ss ⟨0, m⟩).2.labels := by omega
    cases l with
    | made i => exact .inr ⟨i, rfl⟩
    | _ => exact absurd hmade (Nat.lt_irrefl 0)

theorem isNumbered_of_mem_labels (m : Nat) {l : Label} (hl : l ∈ (flattenBody ss m).1.labels) :
    l.IsNumbered := by
  rcases isTarget_of_mem_labels h m hl with hexit | ⟨i, rfl⟩
  · obtain ⟨i, -, -, rfl | rfl⟩ := h.numbered l hexit
    · trivial
    · trivial
  · trivial

theorem closed_flattenBody (hjumps : AllJumpInside [] ss) (m : Nat) : (flattenBody ss m).1.Closed := by
  have hle {l : Label} (hl : l ∈ (flattenBody ss m).1.labels) :
      (flattenBody ss m).1.labels.count l ≤ 1 :=
    (distinct_of_looped h).count_le_one (isTarget_of_mem_labels h m hl) m
  have hnodup : (flattenBody ss m).1.labels.Nodup := by
    refine List.nodup_iff_count_le_one.mpr fun l ↦ ?_
    by_cases hl : l ∈ (flattenBody ss m).1.labels
    · exact hle hl
    · rw [List.count_eq_zero.mpr hl]
      exact Nat.zero_le 1
  constructor
  · exact flattenAll_isFlat ss ⟨0, m⟩
  · intro l hl
    exact List.count_eq_one_of_mem hnodup (mem_labels_flattenBody hjumps hl)
  · refine hnodup.map_on fun l hl l' hl' hname ↦ ?_
    exact Label.eq_of_name (isNumbered_of_mem_labels h m hl) (isNumbered_of_mem_labels h m hl') hname

end Flatten

/-- Whether a body is the flat code of statements whose loops have exits of their own, and whose jumps stay in it. -/
def Body.Flattened (b : Body) : Prop :=
  ∃ (ss : List Statement) (k m : Nat), Looped 0 k (nodesAll ss) ∧ AllJumpInside [] ss ∧ b = (flattenBody ss m).1

namespace Body.Flattened

variable {b : Body} (h : b.Flattened)
include h

theorem closed : b.Closed := by
  obtain ⟨ss, k, m, hloops, hjumps, rfl⟩ := h
  exact closed_flattenBody hloops hjumps m

theorem isNumbered {l : Label} (hl : l ∈ b.labels ∨ l ∈ b.jumps) : l.IsNumbered := by
  obtain ⟨ss, k, m, hloops, hjumps, rfl⟩ := h
  exact isNumbered_of_mem_labels hloops m (hl.elim id (mem_labels_flattenBody hjumps))

end Body.Flattened

end Code

namespace Flow

/-- A graph whose branches lead from blocks of it to blocks of it. -/
def Graph.InRange (g : Graph) : Prop := ∀ b ∈ g.branches, b.source ≤ g.finish ∧ b.target ≤ g.finish

theorem exists_mapM_eq_some {α β : Type} {f : α → Option β} {l : List α}
    (h : ∀ a ∈ l, ∃ b, f a = some b) : ∃ bs, l.mapM f = some bs := by
  induction l with
  | nil => exact ⟨[], rfl⟩
  | cons a rest ih =>
    obtain ⟨⟨b, hb⟩, hrest⟩ := List.forall_mem_cons.mp h
    obtain ⟨bs, hbs⟩ := ih hrest
    exact ⟨b :: bs, by simp [List.mapM_cons, hb, hbs]⟩

theorem exists_of_mem_mapM {α β : Type} {f : α → Option β} {l : List α} {bs : List β}
    (h : l.mapM f = some bs) {b : β} (hb : b ∈ bs) : ∃ a ∈ l, f a = some b := by
  induction l generalizing bs with
  | nil =>
    obtain rfl := Option.some.inj h
    nomatch hb
  | cons a rest ih =>
    simp only [List.mapM_cons, Option.bind_eq_bind, Option.bind_eq_some_iff] at h
    obtain ⟨c, hc, cs, hcs, heq⟩ := h
    obtain rfl := Option.some.inj heq
    rcases List.mem_cons.mp hb with rfl | hb
    · exact ⟨a, List.mem_cons_self, hc⟩
    · obtain ⟨a', ha', hfa⟩ := ih hcs hb
      exact ⟨a', List.mem_cons_of_mem a ha', hfa⟩

theorem exists_blockOf? {blocks : List Body} {l : Label} (h : l ∈ Body.labels blocks.flatten) :
    ∃ t, blockOf? blocks l = some t := by
  induction blocks using List.reverseRecOn with
  | nil => nomatch h
  | append_singleton blocks last ih =>
    rw [blockOf?_append_singleton]
    split
    · exact ⟨_, rfl⟩
    · next hl =>
      rw [List.flatten_append, Body.labels_append] at h
      rcases List.mem_append.mp h with h | h
      · exact ih h
      · rw [List.flatten_singleton] at h
        exact absurd (hasLabel_iff.mpr (Body.mem_labels.mp h)) hl

theorem branchesOf?_ends {blocks : List Body} {i : Nat} {block : Body} {bs : List Branch}
    (hi : i ≤ blocks.length) (h : branchesOf? blocks i block = some bs) :
    ∀ b ∈ bs, b.source = i ∧ 1 ≤ b.target ∧ b.target ≤ blocks.length + 1 := by
  have htarget {l : Label} {t : Nat} (ht : blockOf? blocks l = some t) : 1 ≤ t ∧ t ≤ blocks.length + 1 := by
    obtain ⟨k, block, rfl, hk, -⟩ := blockOf?_eq_some ht
    have hlt := (List.getElem?_eq_some_iff.mp hk).1
    omega
  unfold branchesOf? at h
  split at h
  · obtain rfl := Option.some.inj h
    exact fun b hb ↦ nomatch hb
  · obtain ⟨t, ht, rfl⟩ := Option.map_eq_some_iff.mp h
    simpa using htarget ht
  · next e negated _ =>
    obtain ⟨t, ht, rfl⟩ := Option.map_eq_some_iff.mp h
    have hle := htarget ht
    cases negated <;> simp <;> omega
  · obtain rfl := Option.some.inj h
    simp
  · obtain rfl := Option.some.inj h
    simp
    omega

theorem Branch.ends_of_simplify? {b b' : Branch} (h : b.simplify? = some b') :
    b'.source = b.source ∧ b'.target = b.target := by
  unfold Branch.simplify? at h
  split at h
  · obtain rfl := Option.some.inj h
    exact ⟨rfl, rfl⟩
  · nomatch h
  · obtain rfl := Option.some.inj h
    exact ⟨rfl, rfl⟩

theorem ends_full {body : Body} {g : Graph} (hg : Graph.full? body = some g) :
    ∀ b ∈ g.branches, b.source ≤ g.inner.length ∧ 1 ≤ b.target ∧ b.target ≤ g.finish := by
  obtain ⟨branches, hbranches, rfl⟩ := Option.map_eq_some_iff.mp hg
  intro b hb
  obtain ⟨b', hb', hsimplify⟩ := List.mem_filterMap.mp hb
  obtain ⟨hsource, htarget⟩ := Branch.ends_of_simplify? hsimplify
  rw [hsource, htarget]
  simp only [Graph.finish]
  rcases List.mem_cons.mp hb' with rfl | hb'
  · exact ⟨Nat.zero_le _, Nat.le_refl 1, Nat.succ_le_succ (Nat.zero_le _)⟩
  · obtain ⟨bs, hbs, hmem⟩ := List.mem_flatten.mp hb'
    obtain ⟨⟨block, i⟩, hi, hof⟩ := exists_of_mem_mapM hbranches hbs
    have hlt := List.mem_zipIdx hi
    obtain ⟨rfl, ht⟩ := branchesOf?_ends (by omega) hof b' hmem
    exact ⟨by omega, ht⟩

theorem Graph.inRange_of_ends {g : Graph}
    (h : ∀ b ∈ g.branches, b.source ≤ g.inner.length ∧ 1 ≤ b.target ∧ b.target ≤ g.finish) : g.InRange :=
  fun b hb ↦ ⟨Nat.le_succ_of_le (h b hb).1, (h b hb).2.2⟩

theorem inRange_full {body : Body} {g : Graph} (hg : Graph.full? body = some g) : g.InRange :=
  Graph.inRange_of_ends (ends_full hg)

theorem Graph.inRange_without {g : Graph} {gone : List Nat} (hgone : g.Gone gone) (h : g.InRange) :
    (g.without gone).InRange := by
  have hlength : (g.without gone).finish + 1 =
      ((List.range (g.finish + 1)).filter fun i ↦ !gone.contains i).length := by
    rw [hgone.filter_range, finish, inner_without]
    simp
  intro b hb
  obtain ⟨b', hb', heq⟩ := List.mem_filterMap.mp hb
  obtain ⟨hs, ht⟩ := h b' hb'
  simp only [Bool.or_eq_true, List.contains_iff_mem] at heq
  split at heq
  · cases heq
  · next hkept =>
    rw [not_or] at hkept
    obtain rfl := Option.some.inj heq
    have hlt {i : Nat} (hi : i ≤ g.finish) (hnot : i ∉ gone) :
        ((List.range (g.finish + 1)).filter fun i ↦ !gone.contains i).idxOf i ≤
          (g.without gone).finish := by
      have hmem : i ∈ (List.range (g.finish + 1)).filter fun i ↦ !gone.contains i := by
        simp [hnot]
        omega
      have := List.idxOf_lt_length_of_mem hmem
      omega
    exact ⟨hlt hs hkept.1, hlt ht hkept.2⟩

section Targets

variable {body : Body} (h : ∀ l ∈ body.jumps, l ∈ body.labels)
include h

theorem exists_branchesOf? {k : Nat} {block : Body} (hk : (split body)[k]? = some block) :
    ∃ bs, branchesOf? (split body) (k + 1) block = some bs := by
  have hblock {l : Label} {s : Statement} (hs : block.getLast? = some s) (hl : s.jump? = some l) :
      ∃ t, blockOf? (split body) l = some t := by
    have hmem : s ∈ body := by
      rw [← flatten_split body]
      exact List.mem_flatten.mpr ⟨block, List.mem_of_getElem? hk, List.mem_of_getLast? hs⟩
    apply exists_blockOf?
    rw [flatten_split]
    exact h l (Body.mem_jumps.mpr ⟨s, hmem, hl⟩)
  unfold branchesOf?
  split
  · exact ⟨_, rfl⟩
  · next l hs =>
    obtain ⟨t, ht⟩ := hblock hs rfl
    exact ⟨_, by rw [ht]; rfl⟩
  · next l e negated hs =>
    obtain ⟨t, ht⟩ := hblock hs rfl
    exact ⟨_, by rw [ht]; rfl⟩
  · exact ⟨_, rfl⟩
  · exact ⟨_, rfl⟩

theorem exists_full? : ∃ g, Graph.full? body = some g := by
  have hall : ∀ p ∈ (split body).zipIdx 1, ∃ bs, branchesOf? (split body) p.2 p.1 = some bs := by
    rintro ⟨block, i⟩ hp
    obtain ⟨k, hk⟩ := List.mem_iff_getElem?.mp hp
    rw [List.getElem?_zipIdx] at hk
    obtain ⟨block', hk', heq⟩ := Option.map_eq_some_iff.mp hk
    obtain ⟨rfl, rfl⟩ := Prod.mk.inj heq
    obtain ⟨bs, hbs⟩ := exists_branchesOf? h hk'
    exact ⟨bs, by rw [Nat.add_comm]; exact hbs⟩
  obtain ⟨branches, hbranches⟩ := exists_mapM_eq_some hall
  unfold Graph.full?
  exact ⟨_, Option.map_eq_some_iff.mpr ⟨branches, hbranches, rfl⟩⟩

end Targets

end Flow

/-- A closed body has a graph, before and after blocks are taken away, and its branches lead to blocks. -/
theorem Code.Body.Closed.exists_graph {body : Body} (h : body.Closed) :
    ∃ full, Flow.Graph.full? body = some full ∧ full.InRange ∧
      Flow.Graph.ofBody? body = some full.prune ∧ full.prune.InRange := by
  have hlabels : ∀ l ∈ body.jumps, l ∈ body.labels := fun l hl ↦
    List.count_pos_iff.mp (h.target l hl ▸ Nat.one_pos)
  obtain ⟨full, hfull⟩ := Flow.exists_full? hlabels
  refine ⟨full, hfull, Flow.inRange_full hfull, ?_, ?_⟩
  · rw [Flow.Graph.ofBody?, if_pos h.flat, hfull]
    rfl
  · exact Flow.Graph.inRange_without (Flow.Graph.gone_unreached _ Flow.Graph.gone_nil)
      (Flow.inRange_full hfull)

end SmallScript
