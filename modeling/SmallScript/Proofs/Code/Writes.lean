import SmallScript.Proofs.Code.Assigns

namespace SmallScript.Code

section Once

mutual

def Statement.once : Statement → List Variable
  | .block ss => onceAll ss
  | .declare v _ => [v]
  | .ifThen _ s => s.once
  | .ifElse _ s s' => s.once ++ s'.once
  | _ => []

def onceAll : List Statement → List Variable
  | [] => []
  | s :: rest => s.once ++ onceAll rest

end

mutual

theorem Statement.once_subset : (s : Statement) → s.once ⊆ declaredBy s.nodes
  | .block ss => onceAll_subset ss
  | .declare _ _ => List.Subset.refl _
  | .ifThen _ s => s.once_subset
  | .ifElse _ s s' => by
    change s.once ++ s'.once ⊆ declaredBy (s.nodes ++ s'.nodes)
    rw [declaredBy, List.filterMap_append]
    exact List.append_subset.mpr ⟨List.subset_append_of_subset_left _ s.once_subset,
      List.subset_append_of_subset_right _ s'.once_subset⟩
  | .whileLoop _ _ _ | .doLoop _ _ _ | .forLoop _ _ _ _ _ | .label _ | .goto _ | .gotoIf _ _ _ | .leave _
  | .expression _ => List.nil_subset _

theorem onceAll_subset : (ss : List Statement) → onceAll ss ⊆ declaredBy (nodesAll ss)
  | [] => List.nil_subset _
  | s :: rest => by
    rw [onceAll, nodesAll, declaredBy, List.filterMap_append]
    exact List.append_subset.mpr ⟨List.subset_append_of_subset_left _ s.once_subset,
      List.subset_append_of_subset_right _ (onceAll_subset rest)⟩

end

variable {v : Variable} {loops : List Exits} {a b : Body}

def Body.Spares (v : Variable) (b : Body) : Prop := AllOf (· ≠ v) (·.Assigns (· ≠ v)) b

theorem Body.Spares.not_mem_assigned (h : b.Spares v) {s : Statement} (hs : s ∈ b) : v ∉ s.assigned :=
  fun hv ↦ (allOf_iff.mp h s hs).assigned v hv rfl

/-- Flat code with one place that gives a variable its value. The jumps behind that place stay behind it, or leave
the code. -/
def Body.Parted (v : Variable) (loops : List Exits) (b : Body) : Prop :=
  ∃ (x : Body) (e : Expression) (y : Body), b = x ++ .declare v e :: y ∧ x.Spares v ∧ e.Assigns (· ≠ v) ∧
    y.Spares v ∧ ∀ l ∈ y.jumps, l ∈ y.labels ∨ IsExit loops l

namespace Body

theorem Parted.after (h : b.Parted v loops) (ha : a.Spares v) : (a ++ b).Parted v loops := by
  obtain ⟨x, e, y, rfl, hx, he, hy, hjumps⟩ := h
  exact ⟨a ++ x, e, y, (List.append_assoc ..).symm, allOf_append.mpr ⟨ha, hx⟩, he, hy, hjumps⟩

theorem Parted.before (h : b.Parted v loops) (ha : a.Spares v)
    (hjumps : ∀ l ∈ a.jumps, l ∈ a.labels ∨ IsExit loops l) : (b ++ a).Parted v loops := by
  obtain ⟨x, e, y, rfl, hx, he, hy, hin⟩ := h
  refine ⟨x, e, y ++ a, by simp, hx, he, allOf_append.mpr ⟨hy, ha⟩, fun l hl ↦ ?_⟩
  rw [jumps_append] at hl
  rw [labels_append, List.mem_append]
  rcases List.mem_append.mp hl with hl | hl
  · exact (hin l hl).imp_left .inl
  · exact (hjumps l hl).imp_left .inr

end Body

/-- A variable that is not declared in a statement, nor given a value by an expression in it, is spared, if its
number is taken. -/
theorem Statement.spares_flatten {s : Statement} {u : Supply} (h : s.Of (fun _ ↦ True) (·.Assigns (· ≠ v)))
    (hv : v ∉ declaredBy s.nodes) (hid : v.id < u.nextSymbol) : Body.Spares v (s.flatten u).1 := by
  have hcounts : CountsWithin u.nextSymbol (s.flatten u).2.nextSymbol (· ≠ v) (·.Assigns (· ≠ v)) := by
    refine countsWithin_assigns (fun _ ↦ id) fun w u' hn _ _ heq ↦ ?_
    have hsame : u'.nextSymbol = v.id := congrArg Variable.id heq
    omega
  exact (s.allOf_flatten hcounts u (Nat.le_refl _) (Nat.le_refl _)).mpr
    (h.declared s fun w hw heq ↦ hv (heq ▸ hw))

theorem spares_flattenAll {ss : List Statement} {u : Supply} (h : AllOf (fun _ ↦ True) (·.Assigns (· ≠ v)) ss)
    (hv : v ∉ declaredBy (nodesAll ss)) (hid : v.id < u.nextSymbol) : Body.Spares v (flattenAll ss u).1 :=
  Statement.spares_flatten (s := .block ss) h hv hid

mutual

theorem Statement.parted_flatten : (s : Statement) → (u : Supply) → v ∈ s.once →
    s.Of (fun _ ↦ True) (·.Assigns (· ≠ v)) → (declaredBy s.nodes).Nodup → v.id < u.nextSymbol →
    s.JumpsInside loops → Body.Parted v loops (s.flatten u).1
  | .block ss, u, hv, h, hnodup, hid, hjumps => parted_flattenAll ss u hv h hnodup hid hjumps
  | .declare w e, _, hv, h, _, _, _ => by
    obtain rfl := List.mem_singleton.mp hv
    exact ⟨[], e, [], rfl, trivial, h.2, trivial, nofun⟩
  | .ifThen e s, u, hv, ⟨he, h⟩, hnodup, hid, hjumps => by
    have ih := s.parted_flatten (u.skip 1) hv h hnodup hid hjumps
    exact (ih.after (a := [.gotoIf _ e true]) ⟨he, trivial⟩).before ⟨trivial, trivial⟩ nofun
  | .ifElse e s s', u, hv, ⟨he, h, h'⟩, hnodup, hid, ⟨hjumps, hjumps'⟩ => by
    have hle := s.nextSymbol_le (u.skip 2)
    have hid' := Nat.lt_of_lt_of_le hid hle
    rw [flatten_ifElse]
    have hdeclared : declaredBy (Statement.ifElse e s s').nodes = declaredBy s.nodes ++ declaredBy s'.nodes :=
      List.filterMap_append
    rw [hdeclared] at hnodup
    obtain ⟨hs, hs', hapart⟩ := List.nodup_append'.mp hnodup
    rcases List.mem_append.mp hv with hv | hv
    · have ih := s.parted_flatten (u.skip 2) hv h hs hid hjumps
      have hother := Statement.spares_flatten h' (fun hw ↦ hapart (s.once_subset hv) hw) hid'
      have hend : Body.Spares v ([.goto (u.label 1), .label (u.label 0)] ++
          ((s'.flatten (s.flatten (u.skip 2)).2).1 ++ [.label (u.label 1)])) :=
        allOf_append.mpr ⟨⟨trivial, trivial, trivial⟩, allOf_append.mpr ⟨hother, trivial, trivial⟩⟩
      rw [List.append_assoc, List.append_assoc]
      refine (ih.after (a := [.gotoIf _ e true]) ⟨he, trivial⟩).before hend fun l hl ↦ ?_
      have hin := s'.jumps_flatten (s.flatten (u.skip 2)).2 hjumps' l
      simp [Statement.jump?, Statement.label?] at hl ⊢
      tauto
    · have ih := s'.parted_flatten (s.flatten (u.skip 2)).2 hv h' hs' hid' hjumps'
      have hother := Statement.spares_flatten h (fun hw ↦ hapart hw (s'.once_subset hv)) (u := u.skip 2) hid
      have hfirst : Body.Spares v (.gotoIf (u.label 0) e true :: (s.flatten (u.skip 2)).1 ++
          [.goto (u.label 1), .label (u.label 0)]) :=
        allOf_append.mpr ⟨⟨he, hother⟩, trivial, trivial, trivial⟩
      exact (ih.after hfirst).before (a := [.label (u.label 1)]) ⟨trivial, trivial⟩ nofun
  | .whileLoop _ _ _, _, hv, _, _, _, _ | .doLoop _ _ _, _, hv, _, _, _, _
  | .forLoop _ _ _ _ _, _, hv, _, _, _, _ | .label _, _, hv, _, _, _, _ | .goto _, _, hv, _, _, _, _
  | .gotoIf _ _ _, _, hv, _, _, _, _ | .leave _, _, hv, _, _, _, _ | .expression _, _, hv, _, _, _, _ =>
    nomatch hv

theorem parted_flattenAll : (ss : List Statement) → (u : Supply) → v ∈ onceAll ss →
    AllOf (fun _ ↦ True) (·.Assigns (· ≠ v)) ss → (declaredBy (nodesAll ss)).Nodup → v.id < u.nextSymbol →
    AllJumpInside loops ss → Body.Parted v loops (flattenAll ss u).1
  | [], _, hv, _, _, _, _ => nomatch hv
  | s :: rest, u, hv, ⟨hs, hrest⟩, hnodup, hid, ⟨hjumps, hjumps'⟩ => by
    have hid' := Nat.lt_of_lt_of_le hid (s.nextSymbol_le u)
    have hdeclared : declaredBy (nodesAll (s :: rest)) = declaredBy s.nodes ++ declaredBy (nodesAll rest) :=
      List.filterMap_append
    rw [hdeclared] at hnodup
    obtain ⟨hfirst, hlater, hapart⟩ := List.nodup_append'.mp hnodup
    rcases List.mem_append.mp hv with hv | hv
    · refine (s.parted_flatten u hv hs hfirst hid hjumps).before (spares_flattenAll hrest ?_ hid') ?_
      · exact fun hw ↦ hapart (s.once_subset hv) hw
      · exact fun l ↦ jumps_flattenAll rest (s.flatten u).2 hjumps' l
    · refine (parted_flattenAll rest _ hv hrest hlater hid' hjumps').after (Statement.spares_flatten hs ?_ hid)
      exact fun hw ↦ hapart hw (onceAll_subset rest hv)

end

/-- A body that gives a variable its value at one place only, and does not come back to it. -/
structure Body.Cut (v : Variable) (c : Nat) (b : Body) : Prop where
  declares : ∃ e, b[c]? = some (.declare v e) ∧ v ∉ e.assigned
  only : ∀ {i s}, b[i]? = some s → i ≠ c → v ∉ s.assigned
  onward : ∀ {i s l j}, b[i]? = some s → c < i → l ∈ s.jump? → Run.place? b l = some j → c < j

theorem mem_of_getElem?_middle {x y : Body} {s t : Statement} {i : Nat} (h : (x ++ t :: y)[i]? = some s)
    (hi : i ≠ x.length) : i < x.length ∧ s ∈ x ∨ x.length < i ∧ s ∈ y := by
  rcases Nat.lt_or_gt_of_ne hi with hlt | hlt
  · rw [List.getElem?_append_left hlt] at h
    exact .inl ⟨hlt, List.mem_of_getElem? h⟩
  · obtain ⟨k, rfl⟩ := Nat.exists_eq_add_of_lt hlt
    rw [List.getElem?_append_right (by omega), Nat.add_assoc, Nat.add_sub_cancel_left, List.getElem?_cons_succ] at h
    exact .inr ⟨hlt, List.mem_of_getElem? h⟩

theorem Body.Parted.exists_cut (h : b.Parted v []) (hlabels : b.labels.Nodup) : ∃ c, b.Cut v c := by
  obtain ⟨x, e, y, rfl, hx, he, hy, hjumps⟩ := h
  refine ⟨x.length, ⟨⟨e, by simp, fun hv ↦ he v hv rfl⟩, fun hs hi ↦ ?_, fun {i s l j} hs hi hl hj ↦ ?_⟩⟩
  · rcases mem_of_getElem?_middle hs hi with ⟨-, hs⟩ | ⟨-, hs⟩
    · exact hx.not_mem_assigned hs
    · exact hy.not_mem_assigned hs
  · -- The label is behind the place as well, and no other place has it.
    have hmem : s ∈ y := by
      rcases mem_of_getElem?_middle hs (Nat.ne_of_gt hi) with ⟨hlt, -⟩ | ⟨-, hs⟩
      · omega
      · exact hs
    have hlabel : l ∈ y.labels := by
      rcases hjumps l (mem_jumps.mpr ⟨s, hmem, hl⟩) with hl | ⟨loop, hloop, -⟩
      · exact hl
      · nomatch hloop
    obtain ⟨k, rfl, hk⟩ := Run.getElem?_of_place? hj
    have hne : k ≠ x.length := by
      rintro rfl
      simp at hk
    rcases mem_of_getElem?_middle hk hne with ⟨-, hk⟩ | ⟨hlt, -⟩
    · rw [labels_append, labels_cons] at hlabels
      exact absurd (List.mem_append_right _ hlabel) ((List.nodup_append'.mp hlabels).2.2 (mem_labels.mpr hk))
    · omega

/-- A read-only variable that is declared outside loops gets its value at one place of the flat code. -/
theorem exists_cut_flattenBody {ss : List Statement} {n : Nat} (hv : v ∈ onceAll ss)
    (h : AllOf (fun _ ↦ True) (·.Assigns (·.readOnly = false)) ss) (hfixed : v.readOnly = true)
    (hnodup : (declaredBy (nodesAll ss)).Nodup) (hid : v.id < n) (hjumps : AllJumpInside [] ss)
    (hlabels : (flattenBody ss n).1.labels.Nodup) : ∃ c, (flattenBody ss n).1.Cut v c := by
  have hspared := AllOf.mono (fun _ ↦ id) (fun e he ↦ he.ne_of_readOnly hfixed) ss h
  exact (parted_flattenAll ss ⟨0, n⟩ hv hspared hnodup hid hjumps).exists_cut hlabels

end Once

end SmallScript.Code
