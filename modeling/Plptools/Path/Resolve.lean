import Plptools.Library.NormalForm
import Plptools.Path.SplitJoin

/-!
# Resolving a path against a base

The components of the path are followed one by one from those of the base. A step to the parent
directory removes the component before it whatever it is, so it stays where it was if that is a
single period. And the components of the path are taken with the drive that it names, and joined to
a path that may look as if it had one.
-/

namespace Plptools.PathUtils

open Plptools.Library NormalForm

variable {letters : Letters} {format : PathFormat}
variable {c : List UInt8} {cs l p r t v w : List (List UInt8)}

/-! ## Normal forms -/

/-- Empty components and single periods do not lead anywhere. -/
def skipped (c : List UInt8) : Bool := c == [] || c == current

/-- The normal form of components without drive and root. -/
abbrev follow (cs : List (List UInt8)) : List (List UInt8) := normalWord parent skipped cs

/-- The drive that a path names. -/
def namedDrive (letters : Letters) (format : PathFormat) : List (List UInt8) → List (List UInt8)
  | [] => []
  | c :: _ => if isDrive letters format c then [c] else []

/-- The root that components begin with. -/
def namedRoot (format : PathFormat) : List (List UInt8) → List (List UInt8)
  | [] => []
  | c :: _ => if c = [pathSeparator format] then [c] else []

/-- The components after the drive. -/
def withoutDrive (letters : Letters) (format : PathFormat) (cs : List (List UInt8)) :
    List (List UInt8) :=
  cs.drop (namedDrive letters format cs).length

/-- The components after drive and root. -/
def rootless (letters : Letters) (format : PathFormat) (cs : List (List UInt8)) :
    List (List UInt8) :=
  let rest := withoutDrive letters format cs
  rest.drop (namedRoot format rest).length

/-- The normal form of components: drive and root stay, the others are followed. -/
def normalForm (letters : Letters) (format : PathFormat) (cs : List (List UInt8)) :
    List (List UInt8) :=
  namedDrive letters format cs ++ namedRoot format (withoutDrive letters format cs) ++
    follow (rootless letters format cs)

/-! ## Trailing markers -/

/-- The components without the empty ones at the end. -/
abbrev unmarked (r : List (List UInt8)) : List (List UInt8) := r.rdropWhile List.isEmpty

/-- What is taken off is empty components at the end. -/
theorem unmarked_append (r : List (List UInt8)) :
    ∃ e, r = unmarked r ++ e ∧ ∀ x ∈ e, x = [] := by
  induction r using List.reverseRecOn with
  | nil => exact ⟨[], rfl, by simp⟩
  | append_singleton r c ih =>
    by_cases hc : c = []
    · obtain ⟨e, he, hempty⟩ := ih
      refine ⟨e ++ [[]], ?_, ?_⟩
      · rw [unmarked, List.rdropWhile_concat_pos _ _ _ (by simp [hc]), hc, ← List.append_assoc,
          ← he]
      · simpa [or_imp, forall_and] using hempty
    · refine ⟨[], ?_, by simp⟩
      rw [unmarked, List.rdropWhile_concat_neg _ _ _ (by simp [hc]), List.append_nil]

/-- No empty component is left at the end. -/
theorem ne_nil_of_unmarked (h : unmarked r = t ++ [c]) : c ≠ [] := by
  have hlast := List.rdropWhile_last_not List.isEmpty r (by
    change unmarked r ≠ []
    simp [h])
  change ¬List.isEmpty ((unmarked r).getLast _) = true at hlast
  simpa [h] using hlast

/-- A last component that is not empty stays. -/
theorem unmarked_of_ne (hc : c ≠ []) : unmarked (t ++ [c]) = t ++ [c] :=
  List.rdropWhile_concat_neg _ _ _ (by simp [hc])

/-- An empty one at the end goes. -/
theorem unmarked_marker : unmarked (t ++ [[]]) = unmarked t :=
  List.rdropWhile_concat_pos _ _ _ (by simp)

/-- The parent directory is not skipped. -/
theorem skipped_parent : skipped parent = false := by decide

/-- An empty component is skipped. -/
theorem skipped_of_nil (h : c = []) : skipped c = true := by simp [skipped, h]

/-- Empty components at the end make no difference. -/
theorem follow_unmarked : follow (unmarked r) = follow r := by
  obtain ⟨e, he, hempty⟩ := unmarked_append r
  have hfilter : (e.filter fun x => !skipped x) = [] := by
    rw [List.filter_eq_nil_iff]
    intro x hx
    simp [skipped_of_nil (hempty x hx)]
  apply normalWord_congr
  conv_rhs => rw [he, List.filter_append, hfilter, List.append_nil]

/-- Empty components have no height. -/
theorem height_eq_zero (h : ∀ x ∈ v, x = []) : height parent skipped v = 0 := by
  induction v with
  | nil => rfl
  | cons x v ih =>
    rw [List.forall_mem_cons] at h
    rw [height_cons, skipped_of_nil h.1, if_pos rfl, ih h.2]
    rfl

/-- Nor have those that are taken off. -/
theorem height_unmarked : height parent skipped (unmarked r) = height parent skipped r := by
  obtain ⟨e, he, hempty⟩ := unmarked_append r
  conv_rhs => rw [he, height_append, height_eq_zero hempty, Int.add_zero]

/-! ## One component -/

/-- A component that is not the parent directory is added. -/
theorem foldComponent_of_ne (hc : c ≠ parent) : foldComponent r c = unmarked r ++ [c] := by
  simp [foldComponent, hc]

/-- The parent of nothing stays. -/
theorem foldComponent_parent_nil (hr : unmarked r = []) : foldComponent r parent = [parent] := by
  simp only [unmarked] at hr
  simp [foldComponent, hr]

/-- The parent of a parent stays. -/
theorem foldComponent_parent_parent (hr : unmarked r = t ++ [parent]) :
    foldComponent r parent = t ++ [parent] ++ [parent] := by
  simp only [unmarked] at hr
  simp [foldComponent, hr]

/-- The parent takes a component back. -/
theorem foldComponent_parent (hr : unmarked r = t ++ [c]) (hc : c ≠ parent) :
    foldComponent r parent = t := by
  simp only [unmarked] at hr
  simp [foldComponent, hr, hc]

/-- A step to the parent directory that removes a single period. -/
def removesDot (r : List (List UInt8)) (c : List UInt8) : Prop :=
  c = parent ∧ (unmarked r).getLast? = some current

instance (r : List (List UInt8)) (c : List UInt8) : Decidable (removesDot r c) :=
  inferInstanceAs (Decidable (_ ∧ _))

/-- What one component can do. -/
theorem foldComponent_cases (r : List (List UInt8)) (c : List UInt8) :
    (c ≠ parent ∧ foldComponent r c = unmarked r ++ [c]) ∨
    (c = parent ∧ (unmarked r = [] ∨ ∃ t, unmarked r = t ++ [parent]) ∧
      foldComponent r c = unmarked r ++ [parent]) ∨
    (c = parent ∧ ∃ t, unmarked r = t ++ [current] ∧ foldComponent r c = t) ∨
    (c = parent ∧ ∃ t a, unmarked r = t ++ [a] ∧ skipped a = false ∧ a ≠ parent ∧
      foldComponent r c = t) := by
  by_cases hc : c = parent
  · subst hc
    rcases List.eq_nil_or_concat' (unmarked r) with hnil | ⟨t, a, ha⟩
    · exact .inr (.inl ⟨rfl, .inl hnil, by rw [foldComponent_parent_nil hnil, hnil]; rfl⟩)
    · by_cases hparent : a = parent
      · subst hparent
        exact .inr (.inl ⟨rfl, .inr ⟨t, ha⟩, by rw [foldComponent_parent_parent ha, ha]⟩)
      · have hremoved := foldComponent_parent ha hparent
        by_cases hcurrent : a = current
        · subst hcurrent
          exact .inr (.inr (.inl ⟨rfl, t, ha, hremoved⟩))
        · have hskipped : skipped a = false := by
            simp [skipped, ne_nil_of_unmarked ha, hcurrent]
          exact .inr (.inr (.inr ⟨rfl, t, a, ha, hskipped, hparent, hremoved⟩))
  · exact .inl ⟨hc, foldComponent_of_ne hc⟩

/-- A component is followed correctly unless it removes a single period. -/
theorem follow_foldComponent (h : ¬removesDot r c) :
    follow (foldComponent r c) = step parent skipped (follow r) c := by
  rcases foldComponent_cases r c with
    ⟨_, hfold⟩ | ⟨rfl, _, hfold⟩ | ⟨rfl, t, hr, _⟩ | ⟨rfl, t, a, hr, ha, hparent, hfold⟩
  · rw [hfold, follow, normalWord_concat]
    exact congrArg (step parent skipped · c) follow_unmarked
  · rw [hfold, follow, normalWord_concat]
    exact congrArg (step parent skipped · parent) follow_unmarked
  · exact absurd ⟨rfl, by simp [hr]⟩ h
  · have hr' : follow r = follow t ++ [a] := by
      rw [← follow_unmarked, hr, follow, normalWord_concat, step_of_ordinary ha hparent]
    rw [hfold, hr', step_up_concat skipped_parent hparent]

/-- A component adds its height, and one more if it removes a single period. -/
theorem height_foldComponent :
    height parent skipped (foldComponent r c) =
      height parent skipped r + height parent skipped [c] + if removesDot r c then 1 else 0 := by
  rw [← height_unmarked (r := r)]
  rcases foldComponent_cases r c with
    ⟨hc, hfold⟩ | ⟨rfl, hr, hfold⟩ | ⟨rfl, t, hr, hfold⟩ | ⟨rfl, t, a, hr, ha, hparent, hfold⟩
  · have hnot : ¬removesDot r c := fun h => hc h.1
    rw [hfold, height_append, if_neg hnot, Int.add_zero]
  · have hnot : ¬removesDot r parent := by
      rintro ⟨-, hlast⟩
      rcases hr with hr | ⟨t, hr⟩
      · simp [hr] at hlast
      · rw [hr, List.getLast?_concat] at hlast
        cases hlast
    rw [hfold, height_append, if_neg hnot, Int.add_zero]
  · have hremoves : removesDot r parent := ⟨rfl, by simp [hr]⟩
    rw [hfold, hr, height_append, if_pos hremoves]
    have hcurrent : height parent skipped [current] = 0 := by decide
    have hparent : height parent skipped [parent] = -1 := by decide
    omega
  · have hnot : ¬removesDot r parent := by
      rintro ⟨-, hlast⟩
      rw [hr, List.getLast?_concat] at hlast
      cases hlast
      cases ha
    have ha : height parent skipped [a] = 1 := by simp [height_singleton, ha, hparent]
    have hparent : height parent skipped [parent] = -1 := by decide
    rw [hfold, hr, height_append, if_neg hnot]
    omega

/-! ## All components -/

/-- How many steps of the path remove a single period, starting from `r`. -/
def dotsRemoved : List (List UInt8) → List (List UInt8) → ℕ
  | _, [] => 0
  | r, c :: p => (if removesDot r c then 1 else 0) + dotsRemoved (foldComponent r c) p

/-- What is taken back by one part after the other. -/
theorem dotsRemoved_append :
    dotsRemoved r (p ++ v) = dotsRemoved r p + dotsRemoved (p.foldl foldComponent r) v := by
  induction p generalizing r with
  | nil => simp [dotsRemoved]
  | cons c p ih => rw [List.cons_append, dotsRemoved, dotsRemoved, ih, Nat.add_assoc, List.foldl_cons]

/-- The height of what is resolved. -/
theorem height_foldl :
    height parent skipped (p.foldl foldComponent r) =
      height parent skipped r + height parent skipped p + dotsRemoved r p := by
  induction p generalizing r with
  | nil => simp [dotsRemoved]
  | cons c p ih =>
    have happend : height parent skipped (c :: p) =
        height parent skipped [c] + height parent skipped p := height_append (v := [c])
    rw [List.foldl_cons, ih, height_foldComponent, happend, dotsRemoved]
    split <;> push_cast <;> omega

/-- A path that removes no single period is followed correctly. -/
theorem follow_foldl (h : dotsRemoved r p = 0) :
    follow (p.foldl foldComponent r) = follow (r ++ p) := by
  induction p generalizing r with
  | nil => rw [List.foldl_nil, List.append_nil]
  | cons c p ih =>
    rw [dotsRemoved, Nat.add_eq_zero_iff] at h
    have hc : ¬removesDot r c := fun hremoves => by simp [hremoves] at h
    calc follow ((c :: p).foldl foldComponent r)
        = follow (foldComponent r c ++ p) := ih h.2
      _ = steps parent skipped (follow (foldComponent r c)) p := normalWord_append
      _ = steps parent skipped (step parent skipped (follow r) c) p := by
        rw [follow_foldComponent hc]
      _ = follow (r ++ c :: p) := (normalWord_append (v := r) (w := c :: p)).symm

/-! ## Which steps remove a period -/

/-- Components that lead back to where they start, without a single period among them. -/
structure Cancels (w : List (List UInt8)) : Prop where
  follow : follow w = []
  noDot : current ∉ w

/-- A step of the path `p` to the parent directory comes right after a single period, of the path
or of the base `l`, but for components in between that cancel each other. The base itself is not
followed, so none of its own steps to a parent directory are among those. -/
def UpMeetsDot (l p : List (List UInt8)) : Prop :=
  (∃ y w z, p = y ++ current :: w ++ parent :: z ∧ Cancels w) ∨
    ∃ x v w z, l = x ++ current :: v ∧ p = w ++ parent :: z ∧ parent ∉ v ∧ Cancels (v ++ w)

/-- Nothing has nothing to take back. -/
theorem cancels_nil : Cancels [] := ⟨rfl, List.not_mem_nil⟩

/-- One part after the other takes itself back. -/
theorem Cancels.append (hv : Cancels v) (hw : Cancels w) : Cancels (v ++ w) where
  follow := by
    change normalWord parent skipped (v ++ w) = []
    rw [normalWord_append, show normalWord parent skipped v = [] from hv.follow]
    exact hw.follow
  noDot h := (List.mem_append.mp h).elim hv.noDot hw.noDot

/-- Words that cancel do not change what stands before them. -/
theorem Cancels.steps (hw : Cancels w) (n : List (List UInt8)) : steps parent skipped n w = n := by
  have hnorm : normalWord parent skipped w = [] := hw.follow
  rw [steps_of_not_mem_normalWord skipped_parent (by simp [hnorm]), hnorm, List.append_nil]

/-- A component is taken back by the parent behind it. -/
theorem Cancels.around {a : List UInt8} (hw : Cancels w) (ha : skipped a = false)
    (hparent : a ≠ parent) : Cancels (a :: w ++ [parent]) where
  follow := by
    have hstep : step parent skipped [] a = [a] := step_of_ordinary ha hparent
    change normalWord parent skipped (a :: w ++ [parent]) = []
    rw [normalWord_concat, normalWord, steps_cons, hw.steps, hstep]
    exact step_up_concat (n := []) skipped_parent hparent
  noDot h := by
    have hcurrent : skipped current = true := by decide
    rcases List.mem_append.mp h with h | h
    · rcases List.mem_cons.mp h with h | h
      · rw [← h, hcurrent] at ha
        cases ha
      · exact hw.noDot h
    · cases List.mem_singleton.mp h

/-- After the components `p` of the path, `r` is left: of each of its components it is known where
it comes from, and what stood between it and the next one cancels. -/
inductive Standing (l : List (List UInt8)) : List (List UInt8) → List (List UInt8) → Prop
  | base {x v p : List (List UInt8)} (hl : l = x ++ v) (hparent : parent ∉ v)
      (hcancels : Cancels (v ++ p)) : Standing l p x
  | push {p w r : List (List UInt8)} (c : List UInt8) (hr : Standing l p r) (hw : Cancels w) :
      Standing l (p ++ c :: w) (r ++ [c])

/-- What takes itself back changes nothing. -/
theorem Standing.extend (h : Standing l p r) (hw : Cancels w) : Standing l (p ++ w) r := by
  cases h with
  | base hl hparent hcancels =>
    refine .base hl hparent ?_
    rw [← List.append_assoc]
    exact hcancels.append hw
  | push c hr hv =>
    rw [List.append_assoc, List.cons_append]
    exact .push c hr (hv.append hw)

/-- The last component that stands comes from the base or from the path. -/
theorem Standing.concat_cases {a : List UInt8} (h : Standing l p (r ++ [a])) :
    (∃ v, l = r ++ a :: v ∧ parent ∉ v ∧ Cancels (v ++ p)) ∨
      ∃ q w, p = q ++ a :: w ∧ Cancels w ∧ Standing l q r := by
  generalize ht : r ++ [a] = t at h
  cases h with
  | base hl hparent hcancels =>
    subst ht
    exact .inl ⟨_, by rw [hl, List.append_assoc, List.singleton_append], hparent, hcancels⟩
  | push c hr hw =>
    obtain ⟨rfl, hac⟩ := List.append_inj' ht rfl
    obtain rfl : a = c := by simpa using hac
    exact .inr ⟨_, _, rfl, hw, hr⟩

/-- One component more, whatever it is. -/
theorem Standing.concat (c : List UInt8) (h : Standing l p r) :
    Standing l (p ++ [c]) (r ++ [c]) :=
  .push c h cancels_nil

/-- A step to the parent directory, and the component that it removes. -/
theorem Standing.remove {a : List UInt8} (h : Standing l p (r ++ [a])) (ha : skipped a = false)
    (hparent : a ≠ parent) : Standing l (p ++ [parent]) r := by
  rcases h.concat_cases with ⟨v, hl, hv, hcancels⟩ | ⟨q, w, rfl, hw, hr⟩
  · refine .base hl (by simp [hv, Ne.symm hparent]) ?_
    simpa using hcancels.around ha hparent
  · have hbetween := hw.around ha hparent
    rw [List.append_assoc]
    exact hr.extend hbetween

/-- An empty component takes itself back. -/
theorem cancels_marker : Cancels [[]] := ⟨by decide, by decide⟩

/-- An empty component at the end can be left off. -/
theorem Standing.dropMarker (h : Standing l p (r ++ [[]])) : Standing l p r := by
  rcases h.concat_cases with ⟨v, hl, hv, hcancels⟩ | ⟨q, w, rfl, hw, hr⟩
  · exact .base hl (by simpa [parent] using hv) (cancels_marker.append hcancels)
  · exact hr.extend (cancels_marker.append hw)

/-- Empty components at the end can be left out. -/
theorem Standing.unmark (h : Standing l p r) : Standing l p (unmarked r) := by
  obtain ⟨e, he, hempty⟩ := unmarked_append r
  generalize unmarked r = t at he ⊢
  subst he
  induction e using List.reverseRecOn with
  | nil => rwa [List.append_nil] at h
  | append_singleton e c ih =>
    obtain rfl : c = [] := hempty c (by simp)
    rw [← List.append_assoc] at h
    exact ih (fun x hx => hempty x (by simp [hx])) h.dropMarker

/-- As long as no single period was removed, it is known where the components come from. -/
theorem standing_foldl (h : dotsRemoved l p = 0) : Standing l p (p.foldl foldComponent l) := by
  induction p using List.reverseRecOn with
  | nil => exact .base (List.append_nil l).symm List.not_mem_nil cancels_nil
  | append_singleton p c ih =>
    rw [dotsRemoved_append, Nat.add_eq_zero_iff] at h
    have hstanding := (ih h.1).unmark
    rw [List.foldl_append, List.foldl_cons, List.foldl_nil]
    rcases foldComponent_cases (p.foldl foldComponent l) c with
      ⟨_, hfold⟩ | ⟨rfl, _, hfold⟩ | ⟨rfl, t, hr, _⟩ | ⟨rfl, t, a, hr, ha, hparent, hfold⟩
    · rw [hfold]
      exact hstanding.concat c
    · rw [hfold]
      exact hstanding.concat parent
    · have hremoves : removesDot (p.foldl foldComponent l) parent := ⟨rfl, by simp [hr]⟩
      simp [dotsRemoved, hremoves] at h
    · rw [hr] at hstanding
      rw [hfold]
      exact hstanding.remove ha hparent

/-- Nothing is taken off where nothing is empty. -/
theorem unmarked_append_of_ne (ht : unmarked t = t) (hv : ∀ x ∈ v, x ≠ []) :
    unmarked (t ++ v) = t ++ v := by
  rcases List.eq_nil_or_concat' v with rfl | ⟨m, a, rfl⟩
  · rwa [List.append_nil]
  · rw [← List.append_assoc, unmarked_of_ne (hv a (by simp))]

/-- No empty component is left on the way. -/
theorem ne_nil_of_mem_follow {a : List UInt8} (ha : a ∈ follow w) : a ≠ [] := by
  rintro rfl
  have hskipped := skip_of_mem_normalWord ha
  cases hskipped

/-- What is left after components that take nothing away: `t` and what they lead to from there. -/
theorem unmarked_foldl (hr : unmarked r = t ++ follow v) (ht : unmarked t = t) (hw : current ∉ w)
    (hup : parent ∉ follow (v ++ w)) :
    unmarked (w.foldl foldComponent r) = t ++ follow (v ++ w) := by
  induction w using List.reverseRecOn with
  | nil => rwa [List.append_nil]
  | append_singleton w c ih =>
    have hconcat : follow (v ++ (w ++ [c])) = step parent skipped (follow (v ++ w)) c := by
      rw [← List.append_assoc, follow, normalWord_concat]
    have hnot : parent ∉ follow (v ++ w) := by
      intro h
      rw [← List.append_assoc, follow, normalWord_append] at hup
      exact hup (up_mem_steps h)
    have ih := ih (fun h => hw (List.mem_append_left _ h)) hnot
    rw [List.foldl_append, List.foldl_cons, List.foldl_nil, hconcat]
    rw [hconcat] at hup
    have hne : ∀ x ∈ follow (v ++ w), x ≠ [] := fun x hx => ne_nil_of_mem_follow hx
    by_cases hc : c = parent
    · subst hc
      rcases List.eq_nil_or_concat' (follow (v ++ w)) with hnil | ⟨m, a, hm⟩
      · rw [hnil, step_up_nil skipped_parent] at hup
        exact absurd (List.mem_singleton_self parent) hup
      · rw [hm] at hnot hne ih
        have ha : a ≠ parent := fun h => hnot (by simp [h])
        rw [hm, step_up_concat skipped_parent ha]
        rw [← List.append_assoc] at ih
        rw [foldComponent_parent ih ha]
        exact unmarked_append_of_ne ht fun x hx => hne x (List.mem_append_left _ hx)
    · rw [foldComponent_of_ne hc, ih]
      by_cases hnil : c = []
      · rw [hnil, unmarked_marker, step_of_skip (skipped_of_nil rfl)]
        exact unmarked_append_of_ne ht hne
      · have hcurrent : c ≠ current := fun h => hw (by simp [h])
        rw [unmarked_of_ne hnil, step_of_ordinary (by simp [skipped, hnil, hcurrent]) hc,
          List.append_assoc]

/-- A parent that meets the current directory takes it back. -/
theorem dotsRemoved_of_unmarked (h : unmarked (p.foldl foldComponent l) = t ++ [current]) :
    dotsRemoved l (p ++ parent :: v) ≠ 0 := by
  have hremoves : removesDot (p.foldl foldComponent l) parent := ⟨rfl, by simp [h]⟩
  rw [dotsRemoved_append, dotsRemoved, if_pos hremoves]
  omega

/-- Of base components that neither step up nor stay, only the marker can be left out. -/
theorem unmarked_base (hl : ∀ c ∈ (t ++ v).dropLast, c ≠ []) (ht : unmarked t = t)
    (hparent : parent ∉ v) (hdot : current ∉ v) : unmarked (t ++ v) = t ++ follow v := by
  rw [follow, normalWord_of_not_mem hparent]
  rcases List.eq_nil_or_concat' v with rfl | ⟨m, a, rfl⟩
  · rw [List.append_nil, ht, List.filter_nil, List.append_nil]
  · have hm : ∀ x ∈ m, x ≠ [] := fun x hx =>
      hl x (by rw [← List.append_assoc, List.dropLast_concat]; exact List.mem_append_right _ hx)
    have hfilter : (m.filter fun x => !skipped x) = m := by
      rw [List.filter_eq_self]
      intro x hx
      have hcurrent : x ≠ current := fun h => hdot (by simp [← h, hx])
      simp [skipped, hm x hx, hcurrent]
    rw [List.filter_append, hfilter, ← List.append_assoc]
    by_cases ha : a = []
    · rw [ha, unmarked_marker, unmarked_append_of_ne ht hm]
      simp [skipped]
    · have hcurrent : a ≠ current := fun h => hdot (by simp [h])
      rw [unmarked_of_ne ha, List.append_assoc]
      simp [skipped, ha, hcurrent]

/-- A single period is removed exactly where a step up meets one. -/
theorem dotsRemoved_ne_zero_iff (hl : ∀ c ∈ l.dropLast, c ≠ []) :
    dotsRemoved l p ≠ 0 ↔ UpMeetsDot l p := by
  constructor
  · intro h
    induction p using List.reverseRecOn with
    | nil => exact absurd rfl h
    | append_singleton p c ih =>
      by_cases hp : dotsRemoved l p = 0
      · have hremoves : removesDot (p.foldl foldComponent l) c := by
          by_contra hnot
          rw [dotsRemoved_append, hp] at h
          simp [dotsRemoved, hnot] at h
        obtain ⟨rfl, hlast⟩ := hremoves
        obtain ⟨t, ht⟩ := List.getLast?_eq_some_iff.mp hlast
        have hstanding := (standing_foldl hp).unmark
        rw [ht] at hstanding
        rcases hstanding.concat_cases with ⟨v, hl, hv, hcancels⟩ | ⟨q, w, rfl, hw, _⟩
        · exact .inr ⟨t, v, p, [], hl, rfl, hv, hcancels⟩
        · exact .inl ⟨q, w, [], by simp, hw⟩
      · rcases ih hp with ⟨y, w, z, rfl, hw⟩ | ⟨x, v, w, z, hx, rfl, hv, hcancels⟩
        · exact .inl ⟨y, w, z ++ [c], by simp, hw⟩
        · exact .inr ⟨x, v, w, z ++ [c], hx, by simp, hv, hcancels⟩
  · have hcurrent : current ≠ [] := by decide
    have hstays (t : List (List UInt8)) : unmarked (t ++ [current]) = t ++ [current] :=
      unmarked_of_ne hcurrent
    rintro (⟨y, w, z, rfl, hw⟩ | ⟨x, v, w, z, rfl, rfl, hv, hcancels⟩)
    · -- the period is on top after `y`, and again after `w`
      have hfold : foldComponent (y.foldl foldComponent l) current =
          unmarked (y.foldl foldComponent l) ++ [current] := foldComponent_of_ne (by decide)
      have hleft := unmarked_foldl (v := []) (w := w) (r := foldComponent (y.foldl foldComponent l) current)
        (by rw [hfold, hstays]; exact (List.append_nil _).symm) (hstays _) hw.noDot
        (by simp [hw.follow])
      have hfollow : follow ([] ++ w) = [] := hw.follow
      rw [hfollow, List.append_nil] at hleft
      have hp : y ++ current :: w ++ parent :: z = (y ++ current :: w) ++ parent :: z := rfl
      apply dotsRemoved_of_unmarked
      rw [List.foldl_append, List.foldl_cons]
      exact hleft
    · have hbase : unmarked (x ++ current :: v) = x ++ [current] ++ follow v := by
        rw [List.append_cons]
        exact unmarked_base (by simpa using hl) (hstays x) hv fun h =>
          hcancels.noDot (List.mem_append_left _ h)
      have hleft := unmarked_foldl hbase (hstays x)
        (fun h => hcancels.noDot (List.mem_append_right _ h)) (by simp [hcancels.follow])
      rw [hcancels.follow, List.append_nil] at hleft
      exact dotsRemoved_of_unmarked hleft

end Plptools.PathUtils
