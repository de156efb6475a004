import Plptools.Path.Resolve

/-!
# Where a resolved path leads

Joining the resolved components and splitting the path again changes nothing that matters, unless
the first component, without a drive or a root before it, begins like a drive. So the resolved path
leads where the path leads from the base exactly if the path names no drive, no step up of it meets
a single period (one of the base only if the base does not step up behind it), and no component
becomes the drive of the resolved path; or if the path starts at the root.
-/

namespace Plptools.PathUtils

open Plptools.Library NormalForm

variable {letters : Letters} {format : PathFormat}
variable {c path base : List UInt8} {cs ds rs l p r t v : List (List UInt8)}

/-! ## Drive, root and the rest -/

/-- Components in three parts: the drive, the root, and what can be followed. -/
structure Parts (letters : Letters) (format : PathFormat) (ds rs l : List (List UInt8)) : Prop where
  drive : ds = [] ∨ ∃ d, isDrive letters format d = true ∧ ds = [d]
  root : rs = [] ∨ rs = [[pathSeparator format]]
  noSeparator : ∀ c ∈ l, pathSeparator format ∉ c
  head : ds = [] → rs = [] → ∀ c ∈ l.head?, isDrive letters format c = false

/-- The root is no drive. -/
theorem isDrive_root : isDrive letters format [pathSeparator format] = false := by
  simp [isDrive, isDriveComponent]

/-- The drive that is named is that of the parts. -/
theorem Parts.namedDrive_eq (h : Parts letters format ds rs l) :
    namedDrive letters format (ds ++ rs ++ l) = ds := by
  rcases h.drive with rfl | ⟨d, hd, rfl⟩
  · rcases h.root with rfl | rfl
    · cases l with
      | nil => rfl
      | cons c l => simp [namedDrive, h.head rfl rfl c rfl]
    · simp [namedDrive, isDrive_root]
  · simp [namedDrive, hd]

/-- What is behind the drive. -/
theorem Parts.withoutDrive_eq (h : Parts letters format ds rs l) :
    withoutDrive letters format (ds ++ rs ++ l) = rs ++ l := by
  rw [withoutDrive, h.namedDrive_eq, List.append_assoc, List.drop_left]

/-- The root that is named is that of the parts. -/
theorem Parts.namedRoot_eq (h : Parts letters format ds rs l) : namedRoot format (rs ++ l) = rs := by
  rcases h.root with rfl | rfl
  · cases l with
    | nil => rfl
    | cons c l =>
      have hc : c ≠ [pathSeparator format] := by
        rintro rfl
        exact h.noSeparator _ List.mem_cons_self (List.mem_singleton_self _)
      simp [namedRoot, hc]
  · simp [namedRoot]

/-- What is behind drive and root. -/
theorem Parts.rootless_eq (h : Parts letters format ds rs l) :
    rootless letters format (ds ++ rs ++ l) = l := by
  rw [rootless, h.withoutDrive_eq, h.namedRoot_eq, List.drop_left]

/-- Drive and root are kept, and the rest is followed. -/
theorem Parts.normalForm_eq (h : Parts letters format ds rs l) :
    normalForm letters format (ds ++ rs ++ l) = ds ++ rs ++ follow l := by
  rw [normalForm, h.namedDrive_eq, h.withoutDrive_eq, h.namedRoot_eq, h.rootless_eq]

/-- The rootless components begin behind drive and root. -/
theorem Parts.begin_eq (h : Parts letters format ds rs l) :
    pathFindRootlessComponentsBegin letters (ds ++ rs ++ l) format = ds.length + rs.length := by
  have hsep : ∀ c ∈ l.head?, isSeparator c format = false := by
    intro c hc
    have hnot := h.noSeparator c (List.mem_of_mem_head? hc)
    simp only [isSeparator, beq_eq_false_iff_ne]
    rintro rfl
    exact hnot (List.mem_singleton_self _)
  rcases h.drive with rfl | ⟨d, hd, rfl⟩ <;> rcases h.root with rfl | rfl <;> cases l with
  | nil => simp_all [pathFindRootlessComponentsBegin, isDrive_root, isSeparator]
  | cons c l =>
    have hhead := h.head
    simp_all [pathFindRootlessComponentsBegin, isDrive_root, isSeparator]

/-- The parts of a split path. -/
theorem split_parts (letters : Letters) (format : PathFormat) (path : List UInt8) :
    ∃ ds rs l, split letters path format = ds ++ rs ++ l ∧ Parts letters format ds rs l ∧
      Components (pathSeparator format) l ∧
      (ds = [] → rs = [] → ∀ c ∈ l.head?, isDrive letters format (c.take 2) = false) := by
  have hrest (s : List UInt8) : ∃ rs l, splitRest format s = rs ++ l ∧
      (rs = [] ∨ rs = [[pathSeparator format]]) ∧ Components (pathSeparator format) l := by
    rcases splitRest_cases format s with hnil | ⟨l, hl, hcomponents⟩ | ⟨c, l, hl, hc, hsep, hcomponents⟩
    · exact ⟨[], [], hnil, .inl rfl, by simp, by simp⟩
    · exact ⟨[[pathSeparator format]], l, hl, .inr rfl, hcomponents⟩
    · refine ⟨[], c :: l, hl, .inl rfl, List.forall_mem_cons.mpr ⟨hsep, hcomponents.noSeparator⟩, ?_⟩
      cases l with
      | nil => simp
      | cons d l => exact List.forall_mem_cons.mpr ⟨hc, hcomponents.nonempty⟩
  rcases split_cases letters format path with ⟨d, s, hd, rfl, hsplit⟩ | ⟨hd, hsplit⟩
  · obtain ⟨rs, l, hl, hroot, hcomponents⟩ := hrest s
    refine ⟨[d], rs, l, by rw [hsplit, hl]; rfl, ?_, hcomponents, by simp⟩
    exact ⟨.inr ⟨d, hd, rfl⟩, hroot, hcomponents.noSeparator, by simp⟩
  · obtain ⟨rs, l, hl, hroot, hcomponents⟩ := hrest path
    have hhead := isDrive_head_splitRest hd
    rw [hl] at hhead
    have htake : rs = [] → ∀ c ∈ l.head?, isDrive letters format (c.take 2) = false := by
      rintro rfl
      exact hhead
    refine ⟨[], rs, l, by rw [hsplit, hl]; rfl, ?_, hcomponents, fun _ => htake⟩
    exact ⟨.inl rfl, hroot, hcomponents.noSeparator, fun _ hrs c hc =>
      isDrive_of_take (htake hrs c hc)⟩

/-! ## Joining and splitting again -/

/-- Tidying takes out what is skipped anyway. -/
theorem filter_tidy : (tidy cs).filter (fun x => !skipped x) = cs.filter fun x => !skipped x := by
  induction cs with
  | nil => rfl
  | cons c cs ih =>
    rw [tidy]
    split
    next hc => rw [ih, hc]; rfl
    · split
      next hnil => rw [hnil]
      · rw [List.filter_cons, List.filter_cons, ih]

/-- A tidy path leads to the same place. -/
theorem follow_tidy : follow (tidy cs) = follow cs := normalWord_congr filter_tidy

/-- Tidying adds nothing but an empty component. -/
theorem mem_tidy (h : c ∈ tidy cs) : c = [] ∨ c ∈ cs := by
  induction cs with
  | nil => exact .inl (List.mem_singleton.mp h)
  | cons d cs ih =>
    rw [tidy] at h
    split at h
    · exact (ih h).imp_right (List.mem_cons_of_mem _)
    · rcases List.mem_cons.mp h with rfl | h
      · exact .inr List.mem_cons_self
      · split at h
        · cases h
        · exact (ih h).imp_right (List.mem_cons_of_mem _)

/-- What the components after the drive become when they are joined and split again. -/
theorem splitRest_joinLoop (hroot : rs = [] ∨ rs = [[pathSeparator format]])
    (hsep : ∀ c ∈ l, pathSeparator format ∉ c) :
    ∃ m, splitRest format (joinLoop (pathSeparator format) true [] (rs ++ l)) = rs ++ m ∧
      follow m = follow l ∧ (∀ c ∈ m, pathSeparator format ∉ c) ∧
      (rs = [] → ∀ c ∈ m.head?, c = current ∨ c ∈ l.head?) := by
  have htidy {cs : List (List UInt8)} (h : ∀ c ∈ cs, pathSeparator format ∉ c) :
      ∀ c ∈ tidy cs, pathSeparator format ∉ c := by
    intro c hc
    rcases mem_tidy hc with rfl | hc
    · exact List.not_mem_nil
    · exact h c hc
  rcases hroot with rfl | rfl
  · cases l with
    | nil => exact ⟨[], rfl, rfl, by simp, by simp⟩
    | cons c l =>
      have hsepl := (List.forall_mem_cons.mp hsep).2
      by_cases hc : c = []
      · subst hc
        refine ⟨current :: tidy l, splitRest_joinLoop_nil_cons hsepl, ?_, ?_, fun _ => by simp⟩
        · apply normalWord_congr
          rw [List.filter_cons, List.filter_cons, filter_tidy]
          rfl
        · exact List.forall_mem_cons.mpr ⟨by cases format <;> decide, htidy hsepl⟩
      · refine ⟨c :: if l = [] then [] else tidy l, splitRest_joinLoop_cons hc hsep, ?_, ?_,
          fun _ => by simp⟩
        · split
          next hnil => rw [hnil]
          · apply normalWord_congr
            rw [List.filter_cons, List.filter_cons, filter_tidy]
        · refine List.forall_mem_cons.mpr ⟨hsep c List.mem_cons_self, ?_⟩
          split
          · simp
          · exact htidy hsepl
  · refine ⟨if ∀ x ∈ l, x = [] then [] else tidy l, splitRest_joinLoop_root hsep, ?_, ?_, by simp⟩
    · split
      next hempty =>
        apply normalWord_congr
        rw [List.filter_nil, eq_comm, List.filter_eq_nil_iff]
        intro x hx
        simp [skipped_of_nil (hempty x hx)]
      · exact follow_tidy
    · split
      · simp
      · exact htidy hsep

/-- The end of `resolve_path`: an empty path becomes a period. -/
def finish (letters : Letters) (format : PathFormat) (components : List (List UInt8)) : List UInt8 :=
  if join letters components format = [] then current else join letters components format

/-- The empty path has no components. -/
theorem split_nil : split letters [] format = [] := by
  cases format <;> rfl

/-- The current directory is one component. -/
theorem split_current : split letters current format = [current] := by
  cases format <;> rfl

/-- The current directory has no drive and no root. -/
theorem parts_current : Parts letters format [] [] [current] where
  drive := .inl rfl
  root := .inl rfl
  noSeparator := by cases format <;> decide
  head _ _ c hc := by
    obtain rfl : current = c := by simpa using hc
    simp [isDrive, isDriveComponent, current]

/-- The resolved path has the normal form of the resolved components, where the first of them does
not begin with a drive. -/
theorem normalForm_finish (h : Parts letters format ds rs l)
    (hhead : ds = [] → rs = [] → ∀ c ∈ l.head?, isDrive letters format (c.take 2) = false) :
    normalForm letters format (split letters (finish letters format (ds ++ rs ++ l)) format) =
      normalForm letters format (ds ++ rs ++ l) := by
  obtain ⟨m, hm, hfollow, hsep, hmhead⟩ := splitRest_joinLoop h.root h.noSeparator
  have hparts : Parts letters format ds rs m := by
    refine ⟨h.drive, h.root, hsep, fun hds hrs c hc => ?_⟩
    rcases hmhead hrs c hc with rfl | hc
    · simp [isDrive, isDriveComponent, current]
    · exact h.head hds hrs c hc
  -- an empty path has no components, and neither does a period
  suffices hsplit : split letters (join letters (ds ++ rs ++ l) format) format = ds ++ rs ++ m by
    rw [finish, h.normalForm_eq]
    split
    next hempty =>
      rw [hempty, split_nil] at hsplit
      have hnil : ds ++ rs ++ m = [] := hsplit.symm
      simp only [List.append_eq_nil_iff] at hnil
      obtain ⟨⟨rfl, rfl⟩, rfl⟩ := hnil
      rw [split_current, ← hfollow]
      exact parts_current.normalForm_eq
    · rw [hsplit, hparts.normalForm_eq, hfollow]
  rcases h.drive with rfl | ⟨d, hd, rfl⟩
  · rw [List.nil_append, ← hm]
    rcases hlist : rs ++ l with _ | ⟨c, t⟩
    · exact split_nil
    · have hc : isDrive letters format (c.take 2) = false ∧
          (c = [pathSeparator format] ∨ pathSeparator format ∉ c) := by
        rcases h.root with rfl | rfl
        · obtain rfl : l = c :: t := hlist
          exact ⟨hhead rfl rfl c rfl, .inr (h.noSeparator c List.mem_cons_self)⟩
        · obtain ⟨rfl, rfl⟩ := List.cons.inj hlist
          exact ⟨by simp [isDrive, isDriveComponent], .inl rfl⟩
      exact split_join_cons hc.1 hc.2
  · rw [List.append_assoc, List.singleton_append, split_join_drive hd, hm]
    rfl

/-! ## A component that looks like a drive -/

/-- A component that begins with a drive but is longer. -/
def longDrive (letters : Letters) (format : PathFormat) (c : List UInt8) : Prop :=
  isDrive letters format (c.take 2) = true ∧ 2 < c.length

/-- Everything before a component of the path that begins like a drive, the base included, cancels,
and no step after it leads back behind it. -/
def BecomesDrive (letters : Letters) (format : PathFormat) (l p : List (List UInt8)) : Prop :=
  ∃ y c z, p = y ++ c :: z ∧ parent ∉ l ∧ Cancels (l ++ y) ∧ longDrive letters format c ∧
    parent ∉ follow z

/-- Where the first component begins like a drive there are no steps up. -/
def Plain (letters : Letters) (format : PathFormat) (r : List (List UInt8)) : Prop :=
  ∀ c ∈ r.head?, isDrive letters format (c.take 2) = true → parent ∉ r

/-- The parent directory does not begin with a drive. -/
theorem isDrive_take_parent : isDrive letters format (parent.take 2) = false := by
  simp [isDrive, isDriveComponent, parent]

/-- The beginning of a plain path is plain. -/
theorem Plain.left (h : Plain letters format (t ++ v)) : Plain letters format t := by
  cases t with
  | nil => simp [Plain]
  | cons c t => exact fun d hd hdrive hmem => h d hd hdrive (List.mem_append_left _ hmem)

/-- A component more. -/
theorem Plain.concat (h : Plain letters format t) (hc : c ≠ parent) :
    Plain letters format (t ++ [c]) := by
  cases t with
  | nil => exact fun d _ _ hmem => hc (List.mem_singleton.mp hmem).symm
  | cons d t =>
    intro x hx hdrive hmem
    rcases List.mem_append.mp hmem with hmem | hmem
    · exact h x hx hdrive hmem
    · exact hc (List.mem_singleton.mp hmem).symm

/-- A component that is resolved leaves a plain path plain. -/
theorem plain_foldComponent (h : Plain letters format r) :
    Plain letters format (foldComponent r c) := by
  obtain ⟨e, he, -⟩ := unmarked_append r
  have hunmarked : Plain letters format (unmarked r) := by
    rw [he] at h
    exact h.left
  rcases foldComponent_cases r c with
    ⟨hc, hfold⟩ | ⟨rfl, hr, hfold⟩ | ⟨rfl, t, hr, hfold⟩ | ⟨rfl, t, a, hr, -, -, hfold⟩
  · rw [hfold]
    exact hunmarked.concat hc
  · rw [hfold]
    rcases hr with hr | ⟨t, hr⟩
    · rw [hr]
      intro x hx hdrive
      obtain rfl : parent = x := by simpa using hx
      rw [isDrive_take_parent] at hdrive
      cases hdrive
    · rw [hr] at hunmarked ⊢
      intro x hx hdrive
      have hhead : x ∈ (t ++ [parent]).head? := by
        cases t with
        | nil => exact hx
        | cons d t => exact hx
      exact absurd (by simp) (hunmarked x hhead hdrive)
  · rw [hfold]
    rw [hr] at hunmarked
    exact hunmarked.left
  · rw [hfold]
    rw [hr] at hunmarked
    exact hunmarked.left

/-- All components. -/
theorem plain_foldl (h : Plain letters format r) :
    Plain letters format (p.foldl foldComponent r) := by
  induction p generalizing r with
  | nil => exact h
  | cons c p ih => exact ih (plain_foldComponent h)

/-- The first of the components that are left comes from the base, or everything before it
cancels. -/
theorem Standing.head_cases {a : List UInt8} (h : Standing l p (a :: r)) :
    (∃ v, l = a :: v) ∨
      ∃ y z, p = y ++ a :: z ∧ Standing l y [] ∧ follow z = follow r := by
  induction r using List.reverseRecOn generalizing p with
  | nil =>
    rcases Standing.concat_cases (r := []) h with ⟨v, hl, -⟩ | ⟨q, w, hp, hw, hq⟩
    · exact .inl ⟨v, hl⟩
    · exact .inr ⟨q, w, hp, hq, hw.follow⟩
  | append_singleton r d ih =>
    rw [← List.cons_append] at h
    rcases h.concat_cases with ⟨v, hl, -⟩ | ⟨q, w, rfl, hw, hq⟩
    · exact .inl ⟨r ++ d :: v, hl⟩
    · refine (ih hq).imp_right ?_
      rintro ⟨y, z, rfl, hy, hz⟩
      refine ⟨y, z ++ d :: w, by simp, hy, ?_⟩
      calc follow (z ++ d :: w)
          = steps parent skipped (step parent skipped (follow z) d) w := normalWord_append
        _ = step parent skipped (follow z) d := hw.steps _
        _ = step parent skipped (follow r) d := by rw [hz]
        _ = follow (r ++ [d]) := normalWord_concat.symm

/-- Where nothing stands, all has been taken back. -/
theorem Standing.cancels (h : Standing l p []) : parent ∉ l ∧ Cancels (l ++ p) := by
  generalize hr : ([] : List (List UInt8)) = r at h
  cases h with
  | base hl hparent hcancels =>
    subst hr
    rw [hl, List.nil_append]
    exact ⟨hparent, hcancels⟩
  | push c hs hw => simp at hr

/-- Components that do not lead back stay above what was there, as long as no single period is
removed. -/
theorem unmarked_foldl_above (ht : unmarked t = t) (h : dotsRemoved t p = 0)
    (hup : parent ∉ follow p) :
    ∃ v, unmarked (p.foldl foldComponent t) = t ++ v ∧ parent ∉ v ∧ (∀ x ∈ v, x ≠ []) ∧
      follow v = follow p := by
  induction p using List.reverseRecOn with
  | nil => exact ⟨[], by simpa using ht, by simp, by simp, rfl⟩
  | append_singleton p c ih =>
    rw [dotsRemoved_append, Nat.add_eq_zero_iff] at h
    have hconcat : follow (p ++ [c]) = step parent skipped (follow p) c := normalWord_concat
    have hnot : parent ∉ follow p := fun hmem => hup (by
      rw [follow, normalWord_append]
      exact up_mem_steps hmem)
    obtain ⟨v, hv, hparent, hne, hfollow⟩ := ih h.1 hnot
    rw [List.foldl_append, List.foldl_cons, List.foldl_nil, hconcat]
    rw [hconcat] at hup
    -- a step up has something to remove that came after `t`
    have hlast : c = parent → ∃ u b, v = u ++ [b] := by
      rintro rfl
      refine (List.eq_nil_or_concat' v).resolve_left ?_
      rintro rfl
      rw [← hfollow, follow, normalWord_nil, step_up_nil skipped_parent] at hup
      exact hup (List.mem_singleton_self parent)
    rcases foldComponent_cases (p.foldl foldComponent t) c with
      ⟨hc, hfold⟩ | ⟨rfl, hr, hfold⟩ | ⟨rfl, m, hr, _⟩ | ⟨rfl, m, a, hr, ha, hap, hfold⟩
    · rw [hfold, hv]
      by_cases hnil : c = []
      · refine ⟨v, ?_, hparent, hne, ?_⟩
        · rw [hnil, unmarked_marker, unmarked_append_of_ne ht hne]
        · rw [hfollow, step_of_skip (skipped_of_nil hnil)]
      · refine ⟨v ++ [c], ?_, ?_, ?_, ?_⟩
        · rw [unmarked_of_ne hnil, List.append_assoc]
        · simp [hparent, Ne.symm hc]
        · simpa [or_imp, forall_and] using ⟨hne, hnil⟩
        · rw [← hfollow]
          exact normalWord_concat
    · obtain ⟨u, b, rfl⟩ := hlast rfl
      rw [hv, ← List.append_assoc] at hr
      rcases hr with hr | ⟨m, hm⟩
      · simp at hr
      · obtain ⟨-, hb⟩ := List.append_inj' hm rfl
        exact absurd (by simpa using Or.inr (List.cons.inj hb).1.symm) hparent
    · have hremoves : removesDot (p.foldl foldComponent t) parent := ⟨rfl, by simp [hr]⟩
      simp [dotsRemoved, hremoves] at h
    · obtain ⟨u, b, rfl⟩ := hlast rfl
      rw [hv, ← List.append_assoc] at hr
      obtain ⟨rfl, hb⟩ := List.append_inj' hr rfl
      obtain rfl : b = a := (List.cons.inj hb).1
      have hu : ∀ x ∈ u, x ≠ [] := fun x hx => hne x (List.mem_append_left _ hx)
      refine ⟨u, ?_, fun h => hparent (List.mem_append_left _ h), hu, ?_⟩
      · rw [hfold, unmarked_append_of_ne ht hu]
      · have hstep : follow (u ++ [b]) = follow u ++ [b] :=
          normalWord_concat.trans (step_of_ordinary ha hap)
        rw [← hfollow, hstep, step_up_concat skipped_parent hap]

/-- A component becomes the drive exactly if it is the first one left. -/
theorem becomesDrive_iff (hl : ∀ c ∈ l.dropLast, c ≠ []) (h : dotsRemoved l p = 0)
    (hhead : ∀ c ∈ l.head?, isDrive letters format (c.take 2) = false) :
    BecomesDrive letters format l p ↔
      ∃ c ∈ (p.foldl foldComponent l).head?, longDrive letters format c := by
  constructor
  · rintro ⟨y, c, z, rfl, hl', hy, hc, hz⟩
    have hparent : c ≠ parent := by
      rintro rfl
      have hdrive := hc.1
      rw [isDrive_take_parent] at hdrive
      cases hdrive
    have hcnil : c ≠ [] := by
      rintro rfl
      have hlength := hc.2
      simp at hlength
    have hbase : unmarked l = [] ++ follow l :=
      unmarked_base (t := []) hl rfl hl' fun hmem => hy.noDot (List.mem_append_left _ hmem)
    have hleft := unmarked_foldl hbase rfl (fun hmem => hy.noDot (List.mem_append_right _ hmem))
      (by simp [hy.follow])
    rw [hy.follow, List.append_nil] at hleft
    have hone : foldComponent (y.foldl foldComponent l) c = [c] := by
      rw [foldComponent_of_ne hparent, hleft, List.nil_append]
    rw [dotsRemoved_append, dotsRemoved, hone] at h
    obtain ⟨v, hv, -⟩ := unmarked_foldl_above (t := [c]) (unmarked_of_ne (t := []) hcnil)
      (by omega) hz
    obtain ⟨e, he, -⟩ := unmarked_append (z.foldl foldComponent [c])
    refine ⟨c, ?_, hc⟩
    rw [List.foldl_append, List.foldl_cons, hone, he, hv]
    rfl
  · rintro ⟨c, hmem, hc⟩
    have hstanding := standing_foldl h
    have hplain : Plain letters format (p.foldl foldComponent l) :=
      plain_foldl fun d hd hdrive => by
        rw [hhead d hd] at hdrive
        cases hdrive
    obtain ⟨r, hr⟩ := List.head?_eq_some_iff.mp hmem
    rw [hr] at hstanding hplain
    rcases hstanding.head_cases with ⟨v, rfl⟩ | ⟨y, z, rfl, hy, hz⟩
    · have hdrive := hc.1
      rw [hhead c rfl] at hdrive
      cases hdrive
    · refine ⟨y, c, z, rfl, hy.cancels.1, hy.cancels.2, hc, ?_⟩
      have hnot : parent ∉ r := fun hmem => hplain c rfl hc.1 (List.mem_cons_of_mem _ hmem)
      rw [hz, follow, normalWord_of_not_mem hnot]
      exact fun hmem => hnot (List.mem_of_mem_filter hmem)

/-! ## Resolving -/

/-- No other component comes in. -/
theorem mem_foldComponent {x : List UInt8} (hx : x ∈ foldComponent r c) : x ∈ r ∨ x = c := by
  obtain ⟨e, he, -⟩ := unmarked_append r
  have hunmarked : x ∈ unmarked r → x ∈ r := fun h => by
    rw [he]
    exact List.mem_append_left _ h
  rcases foldComponent_cases r c with
    ⟨_, hfold⟩ | ⟨rfl, _, hfold⟩ | ⟨rfl, t, hr, hfold⟩ | ⟨rfl, t, a, hr, -, -, hfold⟩
  · rw [hfold] at hx
    exact (List.mem_append.mp hx).imp hunmarked List.mem_singleton.mp
  · rw [hfold] at hx
    exact (List.mem_append.mp hx).imp hunmarked List.mem_singleton.mp
  · rw [hfold] at hx
    exact .inl (hunmarked (by simp [hr, hx]))
  · rw [hfold] at hx
    exact .inl (hunmarked (by simp [hr, hx]))

/-- No other components come in. -/
theorem mem_foldl {x : List UInt8} (hx : x ∈ p.foldl foldComponent r) : x ∈ r ∨ x ∈ p := by
  induction p generalizing r with
  | nil => exact .inl hx
  | cons c p ih =>
    rcases ih hx with hx | hx
    · exact (mem_foldComponent hx).imp_right fun h => by simp [h]
    · exact .inr (List.mem_cons_of_mem _ hx)

/-- A drive is not skipped. -/
theorem skipped_of_isDrive (hc : isDrive letters format c = true) : skipped c = false := by
  obtain ⟨_, a, rfl, _⟩ := isDrive_iff.mp hc
  simp [skipped, current]

/-- A component stays in front as long as there are no steps up behind it. -/
theorem follow_cons (hc : skipped c = false) (hl : parent ∉ c :: l) :
    follow (c :: l) = c :: follow l := by
  have hl' : parent ∉ l := fun h => hl (List.mem_cons_of_mem _ h)
  have hrest : follow l = l.filter fun x => !skipped x := normalWord_of_not_mem hl'
  rw [hrest, follow, normalWord_of_not_mem hl]
  simp [hc]

/-- Where the first resolved component does not become a drive, the resolved path leads where the
resolved components lead. -/
theorem normalForm_resolved (hdrive : ds = [] ∨ ∃ d, isDrive letters format d = true ∧ ds = [d])
    (hroot : rs = [] ∨ rs = [[pathSeparator format]]) (hsep : ∀ c ∈ l, pathSeparator format ∉ c)
    (hplain : ds = [] → rs = [] → Plain letters format l)
    (hlong : ds = [] → rs = [] → ∀ c ∈ l.head?, ¬longDrive letters format c) :
    normalForm letters format (split letters (finish letters format (ds ++ rs ++ l)) format) =
      ds ++ rs ++ follow l := by
  by_cases hhead : ds = [] → rs = [] → ∀ c ∈ l.head?, isDrive letters format (c.take 2) = false
  · have hparts : Parts letters format ds rs l :=
      ⟨hdrive, hroot, hsep, fun hds hrs c hc => isDrive_of_take (hhead hds hrs c hc)⟩
    rw [normalForm_finish hparts hhead, hparts.normalForm_eq]
  · push Not at hhead
    obtain ⟨rfl, rfl, c, hc, hcdrive⟩ := hhead
    rw [ne_eq, Bool.not_eq_false] at hcdrive
    obtain ⟨t, rfl⟩ := List.head?_eq_some_iff.mp hc
    have hlength : c.length ≤ 2 := by
      by_contra hlength
      exact hlong rfl rfl c rfl ⟨hcdrive, by omega⟩
    rw [List.take_of_length_le hlength] at hcdrive
    have hparts : Parts letters format [c] [] t :=
      ⟨.inr ⟨c, hcdrive, rfl⟩, .inl rfl, fun d hd => hsep d (List.mem_cons_of_mem _ hd), by simp⟩
    have hnot : parent ∉ c :: t :=
      hplain rfl rfl c rfl (by rwa [List.take_of_length_le hlength])
    have hfinish := (normalForm_finish hparts (by simp)).trans hparts.normalForm_eq
    rw [List.nil_append, List.nil_append, follow_cons (skipped_of_isDrive hcdrive) hnot]
    exact hfinish

/-- Where it does become one, the resolved path has the drive and what is left of the component. -/
theorem normalForm_long (hsep : ∀ x ∈ c :: l, pathSeparator format ∉ x)
    (hlong : longDrive letters format c) :
    normalForm letters format (split letters (finish letters format (c :: l)) format) =
      c.take 2 :: follow (c.drop 2 :: l) := by
  rw [List.forall_mem_cons] at hsep
  have hdrop : c.drop 2 ≠ [] := by
    intro h
    have hlength := congrArg List.length h
    rw [List.length_drop, List.length_nil] at hlength
    have := hlong.2
    omega
  have hdropsep : pathSeparator format ∉ c.drop 2 := fun h => hsep.1 (List.mem_of_mem_drop h)
  have hc : c ≠ [] := by
    rintro rfl
    exact hdrop rfl
  have hnot : isDrive letters format c = false := by
    rw [Bool.eq_false_iff]
    intro h
    have hlength := congrArg List.length (take_of_isDrive h)
    rw [List.length_take] at hlength
    have := hlong.2
    omega
  have hjoin : join letters (c :: l) format = join letters (c.take 2 :: c.drop 2 :: l) format := by
    have hhead : ∀ d ∈ (c :: l).head?, isDrive letters format d = false := by
      intro d hd
      rwa [← Option.some.inj hd]
    rw [join_of_not_isDrive hhead, join_of_isDrive hlong.1, joinLoop_cons hc, joinLoop_cons hdrop,
      joined_cons hc hsep.1, joined_cons hdrop hdropsep, ← List.append_assoc, List.take_append_drop]
  have hparts : Parts letters format [c.take 2] [] (c.drop 2 :: l) :=
    ⟨.inr ⟨_, hlong.1, rfl⟩, .inl rfl, List.forall_mem_cons.mpr ⟨hdropsep, hsep.2⟩, by simp⟩
  have hfinish : finish letters format (c :: l) =
      finish letters format ([c.take 2] ++ [] ++ (c.drop 2 :: l)) := by
    rw [finish, finish, hjoin]
    rfl
  rw [hfinish, normalForm_finish hparts (by simp), hparts.normalForm_eq]
  rfl

/-- The resolved path leads where the path leads from the base: from its components if the path
does not start at a root, otherwise from its drive. -/
def Leads (letters : Letters) (format : PathFormat) (path base : List UInt8) : Prop :=
  let p := split letters path format
  let b := split letters base format
  let resolved := split letters (resolvePath letters path base format) format
  (isRooted letters p format = false →
    normalForm letters format resolved =
      normalForm letters format (b ++ withoutDrive letters format p)) ∧
  (isRooted letters p format = true → namedDrive letters format p = [] →
    normalForm letters format resolved =
      normalForm letters format (namedDrive letters format b ++ p))

/-- What it takes: the path starts at a root, or it names no drive, no step up of it meets a single
period, and, where the base has neither drive nor root, none of its components becomes the drive. A
period of the base is met only if no step up of the base itself is in between (`UpMeetsDot`). -/
def KeepsTrack (letters : Letters) (format : PathFormat) (path base : List UInt8) : Prop :=
  let p := split letters path format
  let b := split letters base format
  isRooted letters p format = true ∨
    (namedDrive letters format p = [] ∧ ¬UpMeetsDot (rootless letters format b) p ∧
      (rootless letters format b = b → ¬BecomesDrive letters format b p))

/-- A component that can be followed is not the root. -/
theorem Parts.ne_root (h : Parts letters format ds rs l) (hc : c ∈ l) :
    c ≠ [pathSeparator format] := by
  rintro rfl
  exact h.noSeparator _ hc (List.mem_singleton_self _)

/-- A path is rooted just when its parts have a root. -/
theorem Parts.isRooted_iff (h : Parts letters format ds rs l) :
    isRooted letters (ds ++ rs ++ l) format = true ↔ rs ≠ [] := by
  have hne {c : List UInt8} (hc : c ∈ l) := h.ne_root hc
  rcases h.drive with rfl | ⟨d, hd, rfl⟩
  · rcases h.root with rfl | rfl
    · have hhead := h.head rfl rfl
      cases format with
      | kPOSIX =>
        cases l with
        | nil => simp [isRooted]
        | cons c l => simpa [isRooted, pathSeparator] using hne List.mem_cons_self
      | kWindows =>
        cases l with
        | nil => simp [isRooted]
        | cons c l =>
          have hc : isDriveComponent letters c = false := hhead c rfl
          cases l with
          | nil => simpa [isRooted, pathSeparator] using hne List.mem_cons_self
          | cons e l => simpa [isRooted, hc, pathSeparator] using hne List.mem_cons_self
    · cases format with
      | kPOSIX => simp [isRooted, pathSeparator]
      | kWindows => cases l <;> simp [isRooted, pathSeparator]
  · obtain ⟨rfl, a, rfl, ha⟩ := isDrive_iff.mp hd
    rcases h.root with rfl | rfl
    · cases l with
      | nil => simp [isRooted]
      | cons c l => simpa [isRooted, isDriveComponent, ha, pathSeparator] using hne List.mem_cons_self
    · simp [isRooted, isDriveComponent, ha, pathSeparator]

/-- A rooted path that is not absolute has a root and no drive. -/
theorem Parts.drive_eq_nil (h : Parts letters format ds rs l)
    (habsolute : isAbsolute letters (ds ++ rs ++ l) format = false) (hroot : rs ≠ []) : ds = [] := by
  obtain rfl := h.root.resolve_left hroot
  rcases h.drive with rfl | ⟨d, hd, rfl⟩
  · rfl
  · obtain ⟨rfl, a, rfl, ha⟩ := isDrive_iff.mp hd
    simp [isAbsolute, isDriveComponent, ha, pathSeparator] at habsolute

/-- Without a drive there is no drive component. -/
theorem driveComponent_eq_nil (hc : isDrive letters format c = false) :
    driveComponent letters (c :: t) format = [] := by
  cases format with
  | kPOSIX => rfl
  | kWindows =>
    match c with
    | [] => rfl
    | [_] => rfl
    | _ :: _ :: _ :: _ => simp [driveComponent]
    | [a, b] =>
      by_cases hb : b = 0x3a
      · subst hb
        have ha : letters.isalpha a = false := hc
        simp [driveComponent, ha]
      · simp [driveComponent, hb]

/-- There is no drive component just when the parts have no drive. -/
theorem Parts.driveComponent_iff (h : Parts letters format ds rs l) :
    driveComponent letters (ds ++ rs ++ l) format = [] ↔ ds = [] := by
  rcases h.drive with rfl | ⟨d, hd, rfl⟩
  · refine iff_of_true ?_ rfl
    have hhead : ∀ c ∈ ([] ++ rs ++ l).head?, isDrive letters format c = false := by
      rcases h.root with rfl | rfl
      · exact h.head rfl rfl
      · intro c hc
        rw [← Option.some.inj hc]
        exact isDrive_root
    cases hlist : [] ++ rs ++ l with
    | nil => cases format <;> rfl
    | cons c t =>
      rw [hlist] at hhead
      exact driveComponent_eq_nil (hhead c rfl)
  · obtain ⟨rfl, a, rfl, ha⟩ := isDrive_iff.mp hd
    simp [driveComponent, ha]

/-- Without an absolute path or another drive, the components are resolved. -/
theorem resolvePath_eq (habsolute : isAbsolute letters (split letters path format) format = false)
    (hdrive : driveComponent letters (split letters path format) format = [] ∨
      driveComponent letters (split letters path format) format =
        driveComponent letters (split letters base format) format) :
    resolvePath letters path base format = finish letters format
      (resolvedComponents letters (split letters path format) (split letters base format) format) := by
  simp only [resolvePath, habsolute, finish]
  rw [if_neg (by simp), if_neg]
  rintro ⟨hnamed, hother, -⟩
  exact hdrive.elim hnamed hother

/-- A path that starts at a root leads there from the drive of the base. -/
theorem leads_of_rooted (habsolute : isAbsolute letters (split letters path format) format = false)
    (hdrive : driveComponent letters (split letters path format) format = [] ∨
      driveComponent letters (split letters path format) format =
        driveComponent letters (split letters base format) format)
    (hrooted : isRooted letters (split letters path format) format = true) :
    Leads letters format path base := by
  refine ⟨fun h => by simp [h] at hrooted, fun _ _ => ?_⟩
  rw [resolvePath_eq habsolute hdrive, resolvedComponents, if_pos hrooted]
  obtain ⟨ds, rs, l, hb, hbparts, -, -⟩ := split_parts letters format base
  obtain ⟨ds', rs', l', hp, hpparts, -, -⟩ := split_parts letters format path
  rw [hp] at hrooted habsolute ⊢
  have hroot := hpparts.isRooted_iff.mp hrooted
  obtain rfl := hpparts.drive_eq_nil habsolute hroot
  obtain rfl := hpparts.root.resolve_left hroot
  rw [hb, hbparts.begin_eq, hbparts.namedDrive_eq, ← List.length_append, List.take_left]
  have hparts : Parts letters format ds [[pathSeparator format]] l' :=
    ⟨hbparts.drive, .inr rfl, hpparts.noSeparator, by simp⟩
  have hcomponents : (if ds ++ rs = [] ∨ (ds ++ rs).getLast? ≠ some [pathSeparator format]
        then ds ++ rs ++ [[pathSeparator format]] else ds ++ rs) = ds ++ [[pathSeparator format]] := by
    rcases hbparts.root with rfl | rfl
    · rcases hbparts.drive with rfl | ⟨d, hd, rfl⟩
      · rfl
      · have hne : d ≠ [pathSeparator format] := by
          rintro rfl
          rw [isDrive_root] at hd
          cases hd
        simp [hne]
    · simp
  have hassoc : ds ++ ([] ++ [[pathSeparator format]] ++ l') = ds ++ [[pathSeparator format]] ++ l' :=
    (List.append_assoc _ _ _).symm
  rw [hcomponents, hassoc]
  exact normalForm_finish hparts (by simp)

/-- A drive counts for one. -/
theorem height_drive {ds : List (List UInt8)}
    (h : ds = [] ∨ ∃ d, isDrive letters format d = true ∧ ds = [d]) :
    height parent skipped ds = if ds = [] then 0 else 1 := by
  rcases h with rfl | ⟨d, hd, rfl⟩
  · rfl
  · obtain ⟨_, a, rfl, _⟩ := isDrive_iff.mp hd
    simp [height_singleton, skipped, current, parent]

/-- Following the components as they are listed, the single periods that were removed and a drive
of the path show in the height of the result. -/
theorem eq_nil_of_follow_eq {ds : List (List UInt8)}
    (hdrive : ds = [] ∨ ∃ d, isDrive letters format d = true ∧ ds = [d])
    (h : follow ((ds ++ p).foldl foldComponent l) = follow (l ++ p)) :
    ds = [] ∧ dotsRemoved l (ds ++ p) = 0 := by
  have hheight := congrArg (height parent skipped) h
  rw [follow, height_normalWord, follow, height_normalWord, height_foldl, height_append, height_append,
    height_drive hdrive] at hheight
  by_cases hds : ds = []
  · rw [if_pos hds] at hheight
    exact ⟨hds, by omega⟩
  · rw [if_neg hds] at hheight
    omega

/-- A component that only begins with a drive is not skipped. -/
theorem longDrive.skipped_eq (h : longDrive letters format c) : skipped c = false := by
  have hlength := h.2
  have hnil : c ≠ [] := by
    rintro rfl
    simp at hlength
  have hcurrent : c ≠ current := by
    rintro rfl
    simp [current] at hlength
  simp [skipped, hnil, hcurrent]

/-- A component that becomes the drive always shows in the result: in its height, unless the rest
of the component is a period, and then in the drive itself; or, where the rest is a step up, behind
the drive. -/
theorem follow_ne_of_long (hlong : longDrive letters format c)
    (hfold : p.foldl foldComponent l = c :: t) (hplain : parent ∉ c :: t) :
    c.take 2 :: follow (c.drop 2 :: t) ≠ follow (l ++ p) := by
  intro h
  rw [List.mem_cons, not_or] at hplain
  have hc : height parent skipped [c] = 1 := by
    rw [height_singleton, hlong.skipped_eq, if_neg (by simp), if_neg (Ne.symm hplain.1)]
  have htake : height parent skipped [c.take 2] = 1 :=
    (height_drive (.inr ⟨_, hlong.1, rfl⟩)).trans (if_neg (by simp))
  have hcons (x : List UInt8) (w : List (List UInt8)) :
      height parent skipped (x :: w) = height parent skipped [x] + height parent skipped w :=
    height_append (v := [x])
  have hheight := congrArg (height parent skipped) h
  have hstack := height_foldl (r := l) (p := p)
  rw [hfold, hcons] at hstack
  rw [hcons (c.take 2), follow, height_normalWord, follow, height_normalWord, hcons (c.drop 2),
    height_append] at hheight
  by_cases hparent : c.drop 2 = parent
  · have hbehind : follow (parent :: t) = [parent] ++ t.filter fun x => !skipped x :=
      steps_of_not_mem (n := [parent]) hplain.2
    have hpairwise : (follow (l ++ p)).Pairwise fun a b => b = parent → a = parent := normalWord_pairwise
    rw [← h, hparent, hbehind, List.pairwise_cons] at hpairwise
    have hdrive := hpairwise.1 parent (by simp) rfl
    have hnot := hlong.1
    rw [hdrive] at hnot
    exact absurd hnot (by simp [isDrive, isDriveComponent, parent])
  · by_cases hcurrent : c.drop 2 = current
    · rw [hcurrent, show height parent skipped [current] = 0 by decide] at hheight
      have hleads : follow (c :: t) = follow (l ++ p) := by
        rw [← hfold]
        exact follow_foldl (by omega)
      rw [follow_cons hlong.skipped_eq (List.not_mem_cons_of_ne_of_not_mem hplain.1 hplain.2),
        ← h] at hleads
      have hlength := congrArg List.length (List.cons.inj hleads).1
      rw [List.length_take] at hlength
      have := hlong.2
      omega
    · have hdrop : c.drop 2 ≠ [] := by
        intro hnil
        have hlength := congrArg List.length hnil
        rw [List.length_drop, List.length_nil] at hlength
        have := hlong.2
        omega
      have hone : height parent skipped [c.drop 2] = 1 := by
        simp [height_singleton, skipped, hdrop, hcurrent, hparent]
      omega

/-- Where the path does not start at a root, it is the components that decide. -/
theorem resolved_eq_iff {ds' l' : List (List UInt8)} (hparts : Parts letters format ds rs l)
    (hhead : ds = [] → rs = [] → ∀ c ∈ l.head?, isDrive letters format (c.take 2) = false)
    (hdrive : ds' = [] ∨ ∃ d, isDrive letters format d = true ∧ ds' = [d])
    (hnamed : ds = [] → ds' = []) (hsep : ∀ c ∈ l', pathSeparator format ∉ c) :
    normalForm letters format (split letters
        (finish letters format (ds ++ rs ++ (ds' ++ l').foldl foldComponent l)) format) =
        ds ++ rs ++ follow (l ++ l') ↔
      ds' = [] ∧ dotsRemoved l (ds' ++ l') = 0 ∧
        (ds = [] → rs = [] →
          ∀ c ∈ ((ds' ++ l').foldl foldComponent l).head?, ¬longDrive letters format c) := by
  have hsepstack : ∀ c ∈ (ds' ++ l').foldl foldComponent l, pathSeparator format ∉ c := by
    intro c hc
    rcases mem_foldl hc with hc | hc
    · exact hparts.noSeparator c hc
    · rcases List.mem_append.mp hc with hc | hc
      · rcases hdrive with rfl | ⟨d, hd, rfl⟩
        · cases hc
        · rw [List.mem_singleton.mp hc]
          exact not_mem_of_isDrive hd
      · exact hsep c hc
  have hplain : ds = [] → rs = [] → Plain letters format ((ds' ++ l').foldl foldComponent l) :=
    fun hds hrs => plain_foldl fun c hc hcdrive => by
      rw [hhead hds hrs c hc] at hcdrive
      cases hcdrive
  by_cases hlong : ds = [] → rs = [] →
      ∀ c ∈ ((ds' ++ l').foldl foldComponent l).head?, ¬longDrive letters format c
  · rw [normalForm_resolved hparts.drive hparts.root hsepstack hplain hlong,
      List.append_cancel_left_eq]
    constructor
    · intro h
      exact ⟨(eq_nil_of_follow_eq hdrive h).1, (eq_nil_of_follow_eq hdrive h).2, hlong⟩
    · rintro ⟨rfl, hdots, -⟩
      exact follow_foldl hdots
  · refine iff_of_false (fun h => ?_) fun h => hlong h.2.2
    push Not at hlong
    obtain ⟨rfl, rfl, c, hc, hclong⟩ := hlong
    obtain rfl := hnamed rfl
    obtain ⟨t, ht⟩ := List.head?_eq_some_iff.mp hc
    have hnot := hplain rfl rfl c hc hclong.1
    rw [ht] at hnot hsepstack h
    rw [List.nil_append, List.nil_append, normalForm_long hsepstack hclong] at h
    exact follow_ne_of_long hclong ht hnot h

/-- A path that is not absolute and names no other drive leads, once it is resolved, where it leads
from the base if and only if it starts at a root or keeps track: it names no drive, no step up of
it meets a single period (of the base, none behind which the base itself steps up), and none of its
components becomes the drive. -/
theorem resolvePath_leads_iff (letters : Letters) (format : PathFormat) (path base : List UInt8)
    (habsolute : isAbsolute letters (split letters path format) format = false)
    (hdrive : driveComponent letters (split letters path format) format = [] ∨
      driveComponent letters (split letters path format) format =
        driveComponent letters (split letters base format) format) :
    Leads letters format path base ↔ KeepsTrack letters format path base := by
  cases hrooted : isRooted letters (split letters path format) format with
  | true => exact iff_of_true (leads_of_rooted habsolute hdrive hrooted) (.inl hrooted)
  | false =>
    obtain ⟨ds, rs, l, hb, hbparts, hbcomponents, hbhead⟩ := split_parts letters format base
    obtain ⟨ds', rs', l', hp, hpparts, -, hphead⟩ := split_parts letters format path
    obtain rfl : rs' = [] := by
      by_contra hroot
      rw [hp, hpparts.isRooted_iff.mpr hroot] at hrooted
      cases hrooted
    have hnamed : ds = [] → ds' = [] := by
      intro hds
      rw [hp, hb, hpparts.driveComponent_iff] at hdrive
      refine hdrive.elim id fun hsame => ?_
      rw [hbparts.driveComponent_iff.mpr hds] at hsame
      exact hpparts.driveComponent_iff.mp hsame
    have hfollowed : Parts letters format ds rs (l ++ l') := by
      refine ⟨hbparts.drive, hbparts.root, ?_, fun hds hrs c hc => ?_⟩
      · intro c hc
        exact (List.mem_append.mp hc).elim (hbparts.noSeparator c) (hpparts.noSeparator c)
      · cases l with
        | nil => exact hpparts.head (hnamed hds) rfl c hc
        | cons d l => exact hbparts.head hds hrs c hc
    have hleads := resolved_eq_iff hbparts hbhead hpparts.drive hnamed hpparts.noSeparator
    rw [Leads, KeepsTrack]
    simp only [hrooted, Bool.false_eq_true, false_or, false_implies, and_true, forall_const]
    rw [resolvePath_eq habsolute hdrive, resolvedComponents, if_neg (by simp [hrooted])]
    rw [hp, hb, hbparts.begin_eq, hpparts.withoutDrive_eq, hbparts.rootless_eq,
      hpparts.namedDrive_eq, ← List.length_append, List.take_left, List.drop_left]
    have hassoc : ds ++ rs ++ l ++ ([] ++ l') = ds ++ rs ++ (l ++ l') := List.append_assoc _ _ _
    have hbare : l = ds ++ rs ++ l ↔ ds = [] ∧ rs = [] := by
      rw [List.self_eq_append_left, List.append_eq_nil_iff]
    rw [hassoc, hfollowed.normalForm_eq, List.append_nil, hleads, hbare]
    refine and_congr_right fun hds => ?_
    rw [← dotsRemoved_ne_zero_iff hbcomponents.nonempty, not_not]
    refine and_congr_right fun hdots => ?_
    constructor
    · rintro hlong ⟨rfl, rfl⟩ hbecomes
      obtain ⟨c, hc, hclong⟩ :=
        (becomesDrive_iff hbcomponents.nonempty hdots (hbhead rfl rfl)).mp hbecomes
      exact hlong rfl rfl c hc hclong
    · rintro hbecomes rfl rfl c hc hclong
      exact hbecomes ⟨rfl, rfl⟩
        ((becomesDrive_iff hbcomponents.nonempty hdots (hbhead rfl rfl)).mpr ⟨c, hc, hclong⟩)

/-- The path `../b`, resolved against `/a`. -/
theorem resolvePath_leads_up :
    Leads cLetters .kPOSIX [0x2e, 0x2e, 0x2f, 0x62] [0x2f, 0x61] ↔
      KeepsTrack cLetters .kPOSIX [0x2e, 0x2e, 0x2f, 0x62] [0x2f, 0x61] :=
  resolvePath_leads_iff cLetters .kPOSIX [0x2e, 0x2e, 0x2f, 0x62] [0x2f, 0x61] (by decide)
    (.inl (by decide))

/-- The parent of the directory `.` is resolved to `.` itself. -/
theorem resolvePath_parent_of_dot :
    isAbsolute cLetters (split cLetters parent .kPOSIX) .kPOSIX = false ∧
      driveComponent cLetters (split cLetters parent .kPOSIX) .kPOSIX = [] ∧
      ¬Leads cLetters .kPOSIX parent current :=
  ⟨by decide, by decide, fun h => absurd (h.1 (by decide)) (by decide)⟩

end Plptools.PathUtils
