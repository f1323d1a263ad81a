import Mathlib.Data.List.Induction
import SmallScript.Flow.Graph
import SmallScript.Proofs.Code.Flatten
import SmallScript.Run.Evaluate

namespace SmallScript

open Code (Statement Body)

def Run.place? (body : Body) (l : Label) : Option Nat :=
  (body.zipIdx.filterMap fun (s, i) ↦
    match s with
    | .label m => if m = l then some (i + 1) else none
    | _ => none).getLast?

theorem Run.target_eq (body : Body) (l : Label) :
    target body l = match place? body l with
      | some i => return i
      | none => fail (.undefinedLabel l.name) := rfl

theorem Run.place?_append_singleton (body : Body) (s : Statement) (l : Label) :
    place? (body ++ [s]) l =
      if s.label? = some l then some (body.length + 1) else place? body l := by
  simp only [place?, List.zipIdx_append, List.filterMap_append, List.getLast?_append]
  cases s <;> simp [Statement.label?]
  split <;> simp

theorem Run.place?_append (body rest : Body) (l : Label) :
    place? (body ++ rest) l = ((place? rest l).map (body.length + ·)).or (place? body l) := by
  induction rest using List.reverseRecOn with
  | nil => simp [place?]
  | append_singleton rest s ih =>
    rw [← List.append_assoc, place?_append_singleton, place?_append_singleton, ih]
    split
    · simp [Nat.add_assoc]
    · rfl

theorem Run.place?_eq_none_iff {body : Body} {l : Label} : place? body l = none ↔ l ∉ body.labels := by
  induction body using List.reverseRecOn with
  | nil => simp [place?]
  | append_singleton body s ih =>
    rw [place?_append_singleton, Code.Body.labels_append, List.mem_append, not_or, ← ih]
    split
    · next hs => simp [hs]
    · next hs => simp [Ne.symm hs, eq_comm]

theorem getElem?_append_singleton {α : Type} {l : List α} {a b : α} {i : Nat}
    (h : (l ++ [a])[i]? = some b) : l[i]? = some b ∨ i = l.length ∧ b = a := by
  rw [List.getElem?_append] at h
  split at h
  · exact .inl h
  · have hi : i - l.length = 0 := by
      have := (List.getElem?_eq_some_iff.mp h).1
      simp at this
      omega
    refine .inr ⟨by omega, ?_⟩
    simpa [hi] using h.symm

theorem Run.getElem?_of_place? {body : Body} {l : Label} {j : Nat} (h : place? body l = some j) :
    ∃ i, j = i + 1 ∧ body[i]? = some (.label l) := by
  induction body using List.reverseRecOn with
  | nil => nomatch h
  | append_singleton body s ih =>
    rw [place?_append_singleton] at h
    by_cases hs : s.label? = some l
    · rw [if_pos hs] at h
      obtain rfl : s = .label l := by
        cases s <;> simp_all [Statement.label?]
      exact ⟨body.length, (Option.some.inj h).symm, List.getElem?_concat_length⟩
    · rw [if_neg hs] at h
      obtain ⟨i, rfl, hi⟩ := ih h
      refine ⟨i, rfl, ?_⟩
      rw [List.getElem?_append_left (List.getElem?_eq_some_iff.mp hi).1, hi]

theorem Run.place?_eq_some {body : Body} {l : Label} {i : Nat} (hi : body[i]? = some (.label l))
    (hlater : ∀ j, i < j → body[j]? ≠ some (.label l)) : place? body l = some (i + 1) := by
  induction body using List.reverseRecOn with
  | nil => simp at hi
  | append_singleton body s ih =>
    rw [place?_append_singleton]
    split
    · next hs =>
      have hlast : (body ++ [s])[body.length]? = some (.label l) := by
        cases s <;> simp_all [Statement.label?]
      have hlt := (List.getElem?_eq_some_iff.mp hi).1
      have hnot : ¬ i < body.length := fun h ↦ hlater _ h hlast
      simp at hlt
      congr 1
      omega
    · next hs =>
      rcases getElem?_append_singleton hi with hi | ⟨-, rfl⟩
      · refine ih hi fun j hj hlabel ↦ hlater j hj ?_
        rw [List.getElem?_append_left (List.getElem?_eq_some_iff.mp hlabel).1]
        exact hlabel
      · exact absurd rfl hs

namespace Flow

/-- In a block, a label comes first, and a jump or a return last. -/
def Tidy (block : Body) : Prop :=
  ∀ i s, block[i]? = some s → (beginsBlock s → i = 0) ∧ (endsBlock s → i + 1 = block.length)

def Pending (block : Body) : Prop :=
  ∀ i s, block[i]? = some s → (beginsBlock s → i = 0) ∧ endsBlock s = false

theorem Pending.tidy {block : Body} (h : Pending block) : Tidy block := by
  intro i s hs
  obtain ⟨hb, he⟩ := h i s hs
  exact ⟨hb, fun h' ↦ absurd (h'.symm.trans he) (by decide)⟩

theorem pending_nil : Pending [] := fun i s hs ↦ by simp at hs

theorem Pending.append {block : Body} (h : Pending block) {s : Statement}
    (hb : beginsBlock s → block = []) (he : endsBlock s = false) : Pending (block ++ [s]) := by
  intro i t ht
  rcases getElem?_append_singleton ht with ht | ⟨rfl, rfl⟩
  · exact h i t ht
  · exact ⟨fun hs ↦ by simp [hb hs], he⟩

theorem Pending.tidy_append {block : Body} (h : Pending block) {s : Statement}
    (hb : beginsBlock s = false) : Tidy (block ++ [s]) := by
  intro i t ht
  rcases getElem?_append_singleton ht with ht | ⟨rfl, rfl⟩
  · obtain ⟨hb', he'⟩ := h i t ht
    exact ⟨hb', fun h' ↦ absurd (h'.symm.trans he') (by decide)⟩
  · exact ⟨fun hs ↦ absurd (hs.symm.trans hb) (by decide), fun _ ↦ by simp⟩

theorem endsBlock_of_beginsBlock {s : Statement} (h : beginsBlock s) : endsBlock s = false := by
  cases s <;> first | rfl | nomatch h

theorem tidy_of_mem_splitFrom {pending body block : Body} (hp : Pending pending)
    (h : block ∈ splitFrom pending body) : Tidy block := by
  have hcons {first : Body} {rest : List Body} (h : block ∈ consBlock first rest) :
      block = first ∨ block ∈ rest := by
    unfold consBlock at h
    split at h
    · exact .inr h
    · exact List.mem_cons.mp h
  induction body generalizing pending with
  | nil =>
    rcases hcons h with rfl | h
    · exact hp.tidy
    · nomatch h
  | cons s rest ih =>
    simp only [splitFrom] at h
    split at h
    · next hs =>
      rcases hcons h with rfl | h
      · exact hp.tidy
      · exact ih (pending_nil.append (fun _ ↦ rfl) (endsBlock_of_beginsBlock hs)) h
    · next hs =>
      split at h
      · rcases List.mem_cons.mp h with rfl | h
        · exact hp.tidy_append (eq_false_of_ne_true hs)
        · exact ih pending_nil h
      · next he =>
        exact ih (hp.append (fun h' ↦ absurd h' hs) (eq_false_of_ne_true he)) h

theorem tidy_of_mem_split {body block : Body} (h : block ∈ split body) : Tidy block :=
  tidy_of_mem_splitFrom pending_nil h

/-- Where a block begins in the body that the blocks make up. -/
def offset (blocks : List Body) (k : Nat) : Nat := (blocks.take k).flatten.length

theorem offset_succ {blocks : List Body} {k : Nat} {block : Body} (h : blocks[k]? = some block) :
    offset blocks (k + 1) = offset blocks k + block.length := by
  simp [offset, List.take_add_one, h]

theorem offset_mono (blocks : List Body) {k k' : Nat} (h : k ≤ k') :
    offset blocks k ≤ offset blocks k' := by
  obtain ⟨d, rfl⟩ := Nat.exists_eq_add_of_le h
  rw [offset, offset, List.take_add, List.flatten_append, List.length_append]
  omega

theorem getElem?_flatten {blocks : List Body} {k : Nat} {block : Body} (h : blocks[k]? = some block)
    {i : Nat} (hi : i < block.length) : blocks.flatten[offset blocks k + i]? = block[i]? := by
  induction blocks generalizing k with
  | nil => nomatch h
  | cons first rest ih =>
    cases k with
    | zero =>
      obtain rfl : first = block := by simpa using h
      simp [offset, List.getElem?_append_left hi]
    | succ k =>
      have := ih h
      simp only [offset, List.take_succ_cons, List.flatten_cons, List.length_append] at this ⊢
      rw [Nat.add_assoc, List.getElem?_append_right (by omega)]
      simpa using this

theorem exists_block {blocks : List Body} {i : Nat} {s : Statement}
    (h : blocks.flatten[i]? = some s) :
    ∃ k block j, blocks[k]? = some block ∧ block[j]? = some s ∧ i = offset blocks k + j := by
  induction blocks generalizing i with
  | nil => nomatch h
  | cons first rest ih =>
    rw [List.flatten_cons, List.getElem?_append] at h
    split at h
    · exact ⟨0, first, i, rfl, h, by simp [offset]⟩
    · obtain ⟨k, block, j, hk, hj, hi⟩ := ih h
      refine ⟨k + 1, block, j, hk, hj, ?_⟩
      simp only [offset, List.take_succ_cons, List.flatten_cons, List.length_append] at hi ⊢
      omega

def hasLabel (l : Label) (block : Body) : Bool :=
  block.any fun s ↦ match s with | .label m => m == l | _ => false

theorem hasLabel_iff {l : Label} {block : Body} : hasLabel l block ↔ .label l ∈ block := by
  unfold hasLabel
  rw [List.any_eq_true]
  constructor
  · rintro ⟨s, hs, h⟩
    cases s <;> simp_all
  · exact fun h ↦ ⟨_, h, by simp⟩

theorem blockOf?_eq (blocks : List Body) (l : Label) : blockOf? blocks l =
    (blocks.zipIdx 1).reverse.findSome? fun p ↦ if hasLabel l p.1 then some p.2 else none := rfl

theorem blockOf?_append_singleton (blocks : List Body) (block : Body) (l : Label) :
    blockOf? (blocks ++ [block]) l =
      if hasLabel l block then some (blocks.length + 1) else blockOf? blocks l := by
  rw [blockOf?_eq, blockOf?_eq, List.zipIdx_append, List.reverse_append, List.findSome?_append]
  cases h : hasLabel l block <;> simp [h, Nat.add_comm]

theorem blockOf?_eq_some {blocks : List Body} {l : Label} {t : Nat} (h : blockOf? blocks l = some t) :
    ∃ k block, t = k + 1 ∧ blocks[k]? = some block ∧ .label l ∈ block ∧
      ∀ k' block', k < k' → blocks[k']? = some block' → .label l ∉ block' := by
  induction blocks using List.reverseRecOn with
  | nil => nomatch h
  | append_singleton blocks last ih =>
    rw [blockOf?_append_singleton] at h
    split at h
    · next hl =>
      refine ⟨blocks.length, last, (Option.some.inj h).symm, by simp, hasLabel_iff.mp hl, ?_⟩
      intro k' block' hk hk'
      have := (List.getElem?_eq_some_iff.mp hk').1
      simp at this
      omega
    · next hl =>
      obtain ⟨k, block, ht, hk, hmem, hlater⟩ := ih h
      refine ⟨k, block, ht, ?_, hmem, ?_⟩
      · rw [List.getElem?_append_left (List.getElem?_eq_some_iff.mp hk).1]
        exact hk
      · intro k' block' hkk hk'
        rcases getElem?_append_singleton hk' with hk' | ⟨-, rfl⟩
        · exact hlater k' block' hkk hk'
        · exact fun hm ↦ hl (hasLabel_iff.mpr hm)

theorem Tidy.label_first {block : Body} (h : Tidy block) {l : Label} (hl : .label l ∈ block) :
    block[0]? = some (.label l) := by
  obtain ⟨i, hi⟩ := List.getElem?_of_mem hl
  obtain rfl := (h i _ hi).1 rfl
  exact hi

/-- A jump goes behind the first statement of the last block with its label. -/
theorem place?_of_blockOf? {body : Body} {l : Label} {t : Nat} (h : blockOf? (split body) l = some t) :
    ∃ k block, t = k + 1 ∧ (split body)[k]? = some block ∧ block[0]? = some (.label l) ∧
      Run.place? body l = some (offset (split body) k + 1) := by
  obtain ⟨k, block, ht, hk, hl, hlater⟩ := blockOf?_eq_some h
  have hfirst := (tidy_of_mem_split (List.mem_of_getElem? hk)).label_first hl
  have hlt := (List.getElem?_eq_some_iff.mp hfirst).1
  refine ⟨k, block, ht, hk, hfirst, Run.place?_eq_some ?_ fun j hj hlabel ↦ ?_⟩
  · have := getElem?_flatten hk hlt
    rwa [flatten_split, hfirst] at this
  · -- A label further on is in a later block, since it is the first statement there.
    rw [← flatten_split body] at hlabel
    obtain ⟨k', block', i, hk', hi, rfl⟩ := exists_block hlabel
    obtain rfl := ((tidy_of_mem_split (List.mem_of_getElem? hk')) i _ hi).1 rfl
    have hkk : k < k' := by
      by_contra hle
      have := offset_mono (split body) (Nat.le_of_not_lt hle)
      omega
    exact hlater k' block' hkk hk' (List.mem_of_getElem? hi)

end Flow

end SmallScript
