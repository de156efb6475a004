import Plptools.Path.PathUtils

/-!
# Splitting and joining

A joined path has one separator between its components, whatever empty components stand among
them. So joining what a path was split into collapses its runs of separators, and splitting what
components were joined to gives them back without the empty ones, apart from one at the end.
-/

namespace Plptools.PathUtils

variable {letters : Letters} {format : PathFormat} {separator : UInt8}
variable {atStart found : Bool} {piece path s c : List UInt8} {cs l : List (List UInt8)}

/-- A path with every run of separators collapsed to one. -/
def collapse (separator : UInt8) : List UInt8 → List UInt8
  | [] => []
  | c :: path =>
    if c = separator ∧ path.head? = some separator then collapse separator path
    else c :: collapse separator path

/-- The components of a path without an empty one at the end. -/
def withoutMarker (components : List (List UInt8)) : List (List UInt8) :=
  if components.getLast? = some [] then components.dropLast else components

/-- Components as they follow a path: each brings a separator, unless one is there already. -/
def joined (separator : UInt8) : (ended : Bool) → List (List UInt8) → List UInt8
  | _, [] => []
  | ended, c :: cs =>
    (if ended then [] else [separator]) ++ c ++
      joined separator (if c = [] then true else c.getLast? == some separator) cs

/-- Components as they are found after a separator: empty ones go, but the end of the path leaves
one if it follows a separator. -/
def tidy : List (List UInt8) → List (List UInt8)
  | [] => [[]]
  | c :: cs => if c = [] then tidy cs else c :: if cs = [] then [] else tidy cs

/-! ## Joining -/

/-- A component behind the first gets a separator, unless there is one. -/
theorem joinStep_false (hpath : path ≠ []) :
    joinStep separator false path c =
      path ++ ((if path.getLast? == some separator then [] else [separator]) ++ c) := by
  by_cases hlast : path.getLast? = some separator <;> simp [joinStep, hpath, hlast]

/-- The components behind the first. -/
theorem joinLoop_false (hpath : path ≠ []) :
    joinLoop separator false path cs =
      path ++ joined separator (path.getLast? == some separator) cs := by
  induction cs generalizing path with
  | nil => simp [joinLoop, joined]
  | cons c cs ih =>
    rw [joinLoop, joinStep_false hpath, ih (by simp [hpath]), joined, List.append_assoc]
    congr 3
    rcases List.eq_nil_or_concat' c with rfl | ⟨e, a, rfl⟩
    · by_cases hlast : path.getLast? = some separator <;> simp [hlast]
    · have hc : e ++ [a] ≠ [] := by simp
      rw [if_neg hc, ← List.append_assoc, ← List.append_assoc, List.getLast?_concat,
        List.getLast?_concat]

/-- The first component stands as it is. -/
theorem joinLoop_cons (hc : c ≠ []) :
    joinLoop separator true [] (c :: cs) = joined separator true (c :: cs) := by
  rw [joinLoop, show joinStep separator true [] c = c by simp [joinStep, hc], joinLoop_false hc,
    joined, if_neg hc]
  simp

/-- A path that would begin with a separator because its first component is empty begins with a
period. -/
theorem joinLoop_nil_cons :
    joinLoop separator true [] ([] :: cs) = 0x2e :: separator :: joined separator true cs := by
  rw [joinLoop, show joinStep separator true [] [] = [0x2e, separator] by simp [joinStep],
    joinLoop_false (by simp)]
  simp

/-- Without a separator before it, one is put there. -/
theorem joined_false (h : cs ≠ []) :
    joined separator false cs = separator :: joined separator true cs := by
  cases cs with
  | nil => exact absurd rfl h
  | cons c cs => simp [joined]

/-- An empty component adds nothing. -/
theorem joined_nil_cons : joined separator true ([] :: cs) = joined separator true cs := by
  simp [joined]

/-- A component that is a name. -/
theorem joined_cons (hc : c ≠ []) (hsep : separator ∉ c) :
    joined separator true (c :: cs) = c ++ joined separator false cs := by
  have hlast : (c.getLast? == some separator) = false := by
    rw [beq_eq_false_iff_ne]
    exact fun h => hsep (List.mem_of_getLast? h)
  simp [joined, hc, hlast]

/-- The root is the separator itself. -/
theorem joined_root :
    joined separator true ([separator] :: cs) = separator :: joined separator true cs := by
  simp [joined]

/-! ## Splitting -/

/-- What holds no separator is added to the piece. -/
theorem splitLoop_append (hc : separator ∉ c) :
    splitLoop separator atStart found piece (c ++ s) =
      splitLoop separator atStart found (piece ++ c) s := by
  induction c generalizing piece with
  | nil => simp
  | cons a c ih =>
    rw [List.mem_cons, not_or] at hc
    rw [List.cons_append, splitLoop, if_neg (Ne.symm hc.1), ih hc.2, List.append_assoc]
    rfl

/-- The last piece. -/
theorem splitLoop_piece_nil (h : piece ≠ []) :
    splitLoop separator atStart found piece [] = [piece] := by
  simp [splitLoop, h]

/-- A piece ends at a separator. -/
theorem splitLoop_piece_separator (h : piece ≠ []) :
    splitLoop separator atStart found piece (separator :: s) =
      piece :: splitLoop separator false true [] s := by
  simp [splitLoop, h]

/-- A separator at the start is the root. -/
theorem splitLoop_root :
    splitLoop separator true found [] (separator :: s) =
      [separator] :: splitLoop separator false found [] s := by
  simp [splitLoop]

/-- A separator that follows another one. -/
theorem splitLoop_separator :
    splitLoop separator false found [] (separator :: s) = splitLoop separator false true [] s := by
  simp [splitLoop]

/-- Within a component it does not matter what came before it. -/
theorem splitLoop_piece (h : piece ≠ []) :
    splitLoop separator atStart found piece s = splitLoop separator false true piece s := by
  induction s generalizing piece with
  | nil => rw [splitLoop_piece_nil h, splitLoop_piece_nil h]
  | cons a s ih =>
    by_cases ha : a = separator
    · rw [ha, splitLoop_piece_separator h, splitLoop_piece_separator h]
    · rw [splitLoop, splitLoop, if_neg ha, if_neg ha, ih (by simp)]

/-- The first component that begins with `piece`. -/
theorem splitLoop_piece_cons (h : piece ≠ []) :
    ∃ c cs, splitLoop separator false true piece s = c :: cs ∧ c ≠ [] := by
  induction s generalizing piece with
  | nil => exact ⟨piece, [], splitLoop_piece_nil h, h⟩
  | cons a s ih =>
    by_cases ha : a = separator
    · rw [ha, splitLoop_piece_separator h]
      exact ⟨piece, _, rfl, h⟩
    · rw [splitLoop, if_neg ha]
      exact ih (by simp)

/-- Behind a separator there is another piece. -/
theorem splitLoop_true_ne_nil : splitLoop separator false true piece s ≠ [] := by
  induction s generalizing piece with
  | nil => simp [splitLoop]
  | cons a s ih =>
    rw [splitLoop]
    split
    · split
      · simp
      · split
        · exact ih
        · simp
    · exact ih

/-! ## Joining what was split -/

/-- Other characters stay. -/
theorem collapse_cons {a : UInt8} (ha : a ≠ separator) :
    collapse separator (a :: s) = a :: collapse separator s := by
  simp [collapse, ha]

/-- What holds no separator stays. -/
theorem collapse_append (hc : separator ∉ c) :
    collapse separator (c ++ s) = c ++ collapse separator s := by
  induction c with
  | nil => rfl
  | cons a c ih =>
    rw [List.mem_cons, not_or] at hc
    rw [List.cons_append, collapse_cons (Ne.symm hc.1), ih hc.2, List.cons_append]

/-- Of separators in a row one stays. -/
theorem collapse_separator :
    collapse separator (separator :: s) =
      separator :: collapse separator (s.dropWhile (· == separator)) := by
  induction s with
  | nil => simp [collapse]
  | cons a s ih =>
    by_cases ha : a = separator
    · subst ha
      rw [collapse, if_pos ⟨rfl, rfl⟩, ih]
      simp
    · rw [collapse, if_neg (by simp [ha])]
      simp [ha]

/-- What was split is joined to the path with single separators. -/
theorem joined_splitLoop :
    (∀ piece, piece ≠ [] → separator ∉ piece →
      joined separator true (splitLoop separator false true piece s) =
        piece ++ collapse separator s) ∧
    ∀ found, joined separator true (splitLoop separator false found [] s) =
      collapse separator (s.dropWhile (· == separator)) := by
  induction s with
  | nil =>
    constructor
    · intro piece hpiece hsep
      rw [splitLoop_piece_nil hpiece, joined_cons hpiece hsep]
      simp [joined, collapse]
    · intro found
      cases found <;> simp [splitLoop, joined, collapse]
  | cons a s ih =>
    obtain ⟨hpieces, hafter⟩ := ih
    by_cases ha : a = separator
    · subst ha
      constructor
      · intro piece hpiece hsep
        rw [splitLoop_piece_separator hpiece, joined_cons hpiece hsep,
          joined_false splitLoop_true_ne_nil, hafter, collapse_separator]
      · intro found
        rw [splitLoop_separator, hafter]
        simp
    · have hnext (piece : List UInt8) (hsep : separator ∉ piece) :=
        hpieces (piece ++ [a]) (by simp) (by simp [hsep, Ne.symm ha])
      constructor
      · intro piece _ hsep
        rw [splitLoop, if_neg ha, hnext piece hsep, collapse_cons ha]
        simp
      · intro found
        rw [splitLoop, if_neg ha, splitLoop_piece (by simp), hnext [] (by simp)]
        simp [ha, collapse_cons]

/-- Joining what a path after the drive was split into collapses it. -/
theorem joinLoop_splitRest :
    joinLoop (pathSeparator format) true [] (splitRest format s) =
      collapse (pathSeparator format) s := by
  cases s with
  | nil => rfl
  | cons a s =>
    rw [splitRest]
    by_cases ha : a = pathSeparator format
    · subst ha
      rw [splitLoop_root, joinLoop_cons (by simp), joined_root, joined_splitLoop.2,
        collapse_separator]
    · rw [splitLoop, if_neg ha, splitLoop_piece (by simp), List.nil_append]
      obtain ⟨c, cs, hcs, hc⟩ :
          ∃ c cs, splitLoop (pathSeparator format) false true [a] s = c :: cs ∧ c ≠ [] :=
        splitLoop_piece_cons (by simp)
      rw [hcs, joinLoop_cons hc, ← hcs, joined_splitLoop.1 _ (by simp) (by simp [Ne.symm ha]),
        collapse_cons ha]
      rfl

/-! ## Drives -/

/-- The drive that a path begins with. -/
def drivePrefix (letters : Letters) (format : PathFormat) (path : List UInt8) : List UInt8 :=
  if isDrive letters format (path.take 2) then path.take 2 else []

/-- The path after the drive. -/
def afterDrive (letters : Letters) (format : PathFormat) (path : List UInt8) : List UInt8 :=
  if isDrive letters format (path.take 2) then path.drop 2 else path

/-- A drive is a letter and a colon, on Windows. -/
theorem isDrive_iff {d : List UInt8} :
    isDrive letters format d = true ↔
      format = .kWindows ∧ ∃ a, d = [a, 0x3a] ∧ letters.isalpha a = true := by
  rw [isDrive, Bool.and_eq_true, beq_iff_eq]
  refine and_congr_right fun _ => ?_
  match d with
  | [] => simp [isDriveComponent]
  | [_] => simp [isDriveComponent]
  | _ :: _ :: _ :: _ => simp [isDriveComponent]
  | [a, b] =>
    by_cases hb : b = 0x3a
    · subst hb
      simp [isDriveComponent]
    · simp [isDriveComponent, hb]

/-- A drive has no separator. -/
theorem not_mem_of_isDrive {d : List UInt8} (hd : isDrive letters format d = true) :
    pathSeparator format ∉ d := by
  obtain ⟨rfl, a, rfl, ha⟩ := isDrive_iff.mp hd
  have hne : (0x5c : UInt8) ≠ a := by
    rintro rfl
    rw [letters.isalpha_backslash] at ha
    cases ha
  simp [pathSeparator, hne]

/-- The drive is split off first. -/
theorem split_eq :
    split letters path format =
      if isDrive letters format (path.take 2) then path.take 2 :: splitRest format (path.drop 2)
      else splitRest format path := by
  rw [split]
  refine if_congr ?_ rfl rfl
  rw [isDrive, Bool.and_eq_true, beq_iff_eq]
  refine and_congr_right fun _ => and_iff_right_of_imp fun hd => ?_
  match path with
  | [] => simp [isDriveComponent] at hd
  | [_] => simp [isDriveComponent] at hd
  | _ :: _ :: _ => simp

/-- A path with a drive. -/
theorem split_of_isDrive {d : List UInt8} (hd : isDrive letters format d = true) :
    split letters (d ++ s) format = d :: splitRest format s := by
  obtain ⟨_, a, rfl, _⟩ := isDrive_iff.mp hd
  rw [split_eq]
  simp [hd]

/-- A path without a drive. -/
theorem split_of_not_isDrive (hd : isDrive letters format (path.take 2) = false) :
    split letters path format = splitRest format path := by
  rw [split_eq, hd]
  rfl

/-- A path begins with a drive or it does not. -/
theorem split_cases (letters : Letters) (format : PathFormat) (path : List UInt8) :
    (∃ d s, isDrive letters format d = true ∧ path = d ++ s ∧
      split letters path format = d :: splitRest format s) ∨
    (isDrive letters format (path.take 2) = false ∧
      split letters path format = splitRest format path) := by
  cases hd : isDrive letters format (path.take 2) with
  | true =>
    refine .inl ⟨path.take 2, path.drop 2, hd, (List.take_append_drop 2 path).symm, ?_⟩
    rw [split_eq, if_pos hd]
  | false => exact .inr ⟨rfl, split_of_not_isDrive hd⟩

/-- Components that begin with a drive. -/
theorem join_of_isDrive {d : List UInt8} (hd : isDrive letters format d = true) :
    join letters (d :: cs) format = d ++ joinLoop (pathSeparator format) true [] cs := by
  rw [join, if_pos hd]

/-- Components that do not. -/
theorem join_of_not_isDrive (hd : ∀ d ∈ cs.head?, isDrive letters format d = false) :
    join letters cs format = joinLoop (pathSeparator format) true [] cs := by
  cases cs with
  | nil => rfl
  | cons c cs => rw [join, if_neg (by simp [hd c rfl])]

/-- The first component within a piece is the piece or continues it. -/
theorem head_splitLoop_piece (h : piece ≠ []) :
    ∀ c ∈ (splitLoop separator atStart found piece s).head?, c <+: piece ++ s := by
  induction s generalizing piece with
  | nil =>
    rw [splitLoop_piece_nil h]
    simp
  | cons a s ih =>
    by_cases ha : a = separator
    · rw [ha, splitLoop_piece_separator h]
      simp
    · have hnext : piece ++ [a] ≠ [] := by simp
      rw [splitLoop, if_neg ha]
      simpa using ih hnext

/-- A path without a drive does not get one by being split. -/
theorem isDrive_head_splitRest (hd : isDrive letters format (path.take 2) = false) :
    ∀ c ∈ (splitRest format path).head?, isDrive letters format (c.take 2) = false := by
  intro c hc
  cases path with
  | nil => cases hc
  | cons a path =>
    rw [splitRest] at hc
    by_cases ha : a = pathSeparator format
    · rw [ha, splitLoop_root] at hc
      obtain rfl : [pathSeparator format] = c := by simpa using hc
      simp [isDrive, isDriveComponent]
    · rw [splitLoop, if_neg ha] at hc
      obtain ⟨t, ht⟩ := head_splitLoop_piece (by simp) _ hc
      rw [Bool.eq_false_iff] at hd ⊢
      intro hdrive
      obtain ⟨_, b, hb, _⟩ := isDrive_iff.mp hdrive
      have hlength : 2 ≤ c.length := by
        have htake := congrArg List.length hb
        simp only [List.length_take, List.length_cons, List.length_nil] at htake
        omega
      rw [show a :: path = c ++ t from ht.symm, List.take_append_of_le_length hlength] at hd
      exact hd hdrive

/-- A drive is not empty. -/
theorem ne_nil_of_isDrive {d : List UInt8} (hd : isDrive letters format d = true) : d ≠ [] := by
  obtain ⟨_, a, rfl, _⟩ := isDrive_iff.mp hd
  simp

/-- A drive is no longer than its prefix. -/
theorem take_of_isDrive {d : List UInt8} (hd : isDrive letters format d = true) : d.take 2 = d := by
  obtain ⟨_, a, rfl, _⟩ := isDrive_iff.mp hd
  rfl

/-- Where no drive begins there is none. -/
theorem isDrive_of_take (h : isDrive letters format (c.take 2) = false) :
    isDrive letters format c = false := by
  rw [Bool.eq_false_iff] at h ⊢
  exact fun hdrive => h (by rwa [take_of_isDrive hdrive])

/-- Joining what a path was split into collapses the path. -/
theorem join_split_eq_collapse :
    join letters (split letters path format) format = collapse (pathSeparator format) path := by
  rcases split_cases letters format path with ⟨d, s, hd, rfl, hsplit⟩ | ⟨hd, hsplit⟩
  · rw [hsplit, join_of_isDrive hd, joinLoop_splitRest, collapse_append (not_mem_of_isDrive hd)]
  · have hhead : ∀ d ∈ (splitRest format path).head?, isDrive letters format d = false :=
      fun d hmem => isDrive_of_take (isDrive_head_splitRest hd d hmem)
    rw [hsplit, join_of_not_isDrive hhead, joinLoop_splitRest]

/-! ## Splitting what was joined -/

/-- What was joined is split into the components that are not empty. -/
theorem splitLoop_joined (h : ∀ c ∈ cs, separator ∉ c) :
    splitLoop separator false true [] (joined separator true cs) = tidy cs ∧
    ∀ piece, piece ≠ [] → splitLoop separator false true piece (joined separator false cs) =
      piece :: if cs = [] then [] else tidy cs := by
  have hpiece {cs : List (List UInt8)}
      (hafter : splitLoop separator false true [] (joined separator true cs) = tidy cs)
      (piece : List UInt8) (hne : piece ≠ []) :
      splitLoop separator false true piece (joined separator false cs) =
        piece :: if cs = [] then [] else tidy cs := by
    by_cases hcs : cs = []
    · rw [hcs, if_pos rfl, joined, splitLoop_piece_nil hne]
    · rw [if_neg hcs, joined_false hcs, splitLoop_piece_separator hne, hafter]
  induction cs with
  | nil => exact ⟨rfl, hpiece rfl⟩
  | cons c cs ih =>
    rw [List.forall_mem_cons] at h
    have hafter : splitLoop separator false true [] (joined separator true (c :: cs)) =
        tidy (c :: cs) := by
      by_cases hc : c = []
      · rw [hc, joined_nil_cons, (ih h.2).1, tidy, if_pos rfl]
      · rw [joined_cons hc h.1, splitLoop_append h.1, List.nil_append, (ih h.2).2 c hc, tidy,
          if_neg hc]
    exact ⟨hafter, hpiece hafter⟩

/-- Components that begin with one that is not empty. -/
theorem splitRest_joinLoop_cons (hc : c ≠ []) (h : ∀ x ∈ c :: cs, pathSeparator format ∉ x) :
    splitRest format (joinLoop (pathSeparator format) true [] (c :: cs)) =
      c :: if cs = [] then [] else tidy cs := by
  rw [List.forall_mem_cons] at h
  rw [splitRest, joinLoop_cons hc, joined_cons hc h.1, splitLoop_append h.1, List.nil_append,
    splitLoop_piece hc, (splitLoop_joined h.2).2 c hc]

/-- Components that begin with an empty one. -/
theorem splitRest_joinLoop_nil_cons (h : ∀ x ∈ cs, pathSeparator format ∉ x) :
    splitRest format (joinLoop (pathSeparator format) true [] ([] :: cs)) = [0x2e] :: tidy cs := by
  have hperiod : (0x2e : UInt8) ≠ pathSeparator format := by cases format <;> decide
  rw [splitRest, joinLoop_nil_cons, splitLoop, if_neg hperiod, splitLoop_piece_separator (by simp),
    (splitLoop_joined h).1, List.nil_append]

/-- Components that begin with the root. -/
theorem splitRest_joinLoop_root (h : ∀ x ∈ cs, pathSeparator format ∉ x) :
    splitRest format
        (joinLoop (pathSeparator format) true [] ([pathSeparator format] :: cs)) =
      [pathSeparator format] :: if ∀ x ∈ cs, x = [] then [] else tidy cs := by
  rw [splitRest, joinLoop_cons (by simp), joined_root, splitLoop_root, List.cons_inj_right]
  induction cs with
  | nil => simp [joined, splitLoop]
  | cons c cs ih =>
    rw [List.forall_mem_cons] at h
    by_cases hc : c = []
    · rw [hc, joined_nil_cons, ih h.2, tidy, if_pos rfl]
      simp
    · rw [if_neg (by simp [hc]), joined_cons hc h.1, splitLoop_append h.1, List.nil_append,
        splitLoop_piece hc, (splitLoop_joined h.2).2 c hc, tidy, if_neg hc]

/-- A joined path has the drive that its first component begins with. -/
theorem isDrive_take_append {t : List UInt8}
    (ht : ∀ a ∈ t.head?, a ≠ 0x3a) (hc : isDrive letters format (c.take 2) = false) (hne : c ≠ []) :
    isDrive letters format ((c ++ t).take 2) = false := by
  rw [Bool.eq_false_iff] at hc ⊢
  intro hdrive
  obtain ⟨_, a, ha, _⟩ := isDrive_iff.mp hdrive
  match c with
  | [] => exact hne rfl
  | [b] =>
    cases t with
    | nil => cases ha
    | cons d t => exact ht d rfl (by simpa using congrArg (fun l => l.getLast?) ha)
  | b :: d :: c => exact hc (by simpa using hdrive)

/-- It begins with a separator. -/
theorem head_joined_false {a : UInt8} (ha : a ∈ (joined separator false cs).head?) :
    a = separator := by
  cases cs with
  | nil => cases ha
  | cons c cs => simpa [joined, eq_comm] using ha

/-- Components whose first one does not begin with a drive are joined to a path without one. -/
theorem split_join_cons (hc : isDrive letters format (c.take 2) = false)
    (hroot : c = [pathSeparator format] ∨ pathSeparator format ∉ c) :
    split letters (join letters (c :: cs) format) format =
      splitRest format (joinLoop (pathSeparator format) true [] (c :: cs)) := by
  have hdrive : ∀ d ∈ (c :: cs).head?, isDrive letters format d = false := by
    intro d hd
    obtain rfl : c = d := by simpa using hd
    exact isDrive_of_take hc
  have hcolon : pathSeparator format ≠ 0x3a := by cases format <;> decide
  rw [join_of_not_isDrive hdrive]
  apply split_of_not_isDrive
  rcases hroot with rfl | hsep
  · rw [joinLoop_cons (by simp), joined_root, Bool.eq_false_iff]
    exact fun hdrive => not_mem_of_isDrive hdrive (by simp)
  · by_cases hne : c = []
    · subst hne
      rw [joinLoop_nil_cons, Bool.eq_false_iff]
      intro hdrive
      exact not_mem_of_isDrive hdrive (by simp)
    · rw [joinLoop_cons hne, joined_cons hne hsep]
      refine isDrive_take_append ?_ hc hne
      intro a ha
      rw [head_joined_false ha]
      exact hcolon

/-- A drive before the components stays one. -/
theorem split_join_drive {d : List UInt8} (hd : isDrive letters format d = true) :
    split letters (join letters (d :: cs) format) format =
      d :: splitRest format (joinLoop (pathSeparator format) true [] cs) := by
  rw [join_of_isDrive hd, split_of_isDrive hd]

/-! ## Which components a path has -/

/-- Only the last component of a split path can be empty, and none has a separator. -/
structure Components (separator : UInt8) (l : List (List UInt8)) : Prop where
  noSeparator : ∀ c ∈ l, separator ∉ c
  nonempty : ∀ c ∈ l.dropLast, c ≠ []

/-- Pieces hold no separators. -/
theorem components_splitLoop (h : separator ∉ piece) :
    Components separator (splitLoop separator false found piece s) := by
  induction s generalizing found piece with
  | nil =>
    rw [splitLoop]
    split
    · exact ⟨by simpa using h, by simp⟩
    · exact ⟨by simp, by simp⟩
  | cons a s ih =>
    rw [splitLoop]
    split
    · rw [if_neg (by simp)]
      obtain ⟨hsep, hne⟩ := @ih true [] (by simp)
      split
      · exact ⟨hsep, hne⟩
      next hpiece =>
        refine ⟨List.forall_mem_cons.mpr ⟨h, hsep⟩, ?_⟩
        rw [List.dropLast_cons_of_ne_nil splitLoop_true_ne_nil]
        exact List.forall_mem_cons.mpr ⟨hpiece, hne⟩
    next ha => exact ih (by simp [h, Ne.symm ha])

/-- A path after the drive is split into nothing, into the root and components, or into components
of which the first is not empty. -/
theorem splitRest_cases (format : PathFormat) (s : List UInt8) :
    splitRest format s = [] ∨
      (∃ l, splitRest format s = [pathSeparator format] :: l ∧
        Components (pathSeparator format) l) ∨
      ∃ c l, splitRest format s = c :: l ∧ c ≠ [] ∧ pathSeparator format ∉ c ∧
        Components (pathSeparator format) l := by
  rw [splitRest]
  cases s with
  | nil => exact .inl rfl
  | cons a s =>
    by_cases ha : a = pathSeparator format
    · rw [ha, splitLoop_root]
      exact .inr (.inl ⟨_, rfl, components_splitLoop (by simp)⟩)
    · rw [splitLoop, if_neg ha, splitLoop_piece (by simp), List.nil_append]
      obtain ⟨c, l, hcl, hc⟩ :
          ∃ c l, splitLoop (pathSeparator format) false true [a] s = c :: l ∧ c ≠ [] :=
        splitLoop_piece_cons (by simp)
      have hcomponents : Components (pathSeparator format) (c :: l) :=
        hcl ▸ components_splitLoop (by simp [Ne.symm ha])
      refine .inr (.inr ⟨c, l, hcl, hc, hcomponents.noSeparator c List.mem_cons_self, ?_, ?_⟩)
      · exact fun d hd => hcomponents.noSeparator d (List.mem_cons_of_mem _ hd)
      · cases l with
        | nil => simp
        | cons d l => exact fun x hx => hcomponents.nonempty x (List.mem_cons_of_mem _ hx)

/-- The first character stays. -/
theorem head_collapse : (collapse separator s).head? = s.head? := by
  induction s with
  | nil => rfl
  | cons a s ih =>
    rw [collapse]
    split
    next h =>
      rw [ih, h.2, h.1]
      rfl
    · rfl

/-- Nothing is left to collapse. -/
theorem collapse_collapse : collapse separator (collapse separator s) = collapse separator s := by
  induction s with
  | nil => rfl
  | cons a s ih =>
    rw [collapse]
    split
    · exact ih
    next h => rw [collapse, head_collapse, if_neg h, ih]

/-- Separators in a row make no difference behind the first. -/
theorem splitLoop_collapse :
    splitLoop separator false true piece (collapse separator s) =
      splitLoop separator false true piece s := by
  induction s generalizing piece with
  | nil => rfl
  | cons a s ih =>
    rw [collapse]
    split
    next h =>
      obtain ⟨rfl, hhead⟩ := h
      obtain ⟨t, rfl⟩ : ∃ t, s = a :: t := by
        cases s with
        | nil => cases hhead
        | cons b t =>
          simp only [List.head?_cons, Option.some.injEq] at hhead
          exact ⟨t, by rw [hhead]⟩
      rw [ih]
      by_cases hpiece : piece = []
      · rw [hpiece, splitLoop_separator, splitLoop_separator, splitLoop_separator]
      · rw [splitLoop_piece_separator hpiece, splitLoop_piece_separator hpiece,
          splitLoop_separator]
    · by_cases ha : a = separator
      · simp only [splitLoop, if_pos ha, ih]
      · rw [splitLoop, splitLoop, if_neg ha, if_neg ha, ih]

/-- Separators before a component are passed over. -/
theorem splitLoop_of_dropWhile {a : UInt8} {t : List UInt8}
    (h : s.dropWhile (· == separator) = a :: t) :
    splitLoop separator false found [] s = splitLoop separator false true [a] t := by
  induction s generalizing found with
  | nil => cases h
  | cons b s ih =>
    by_cases hb : b = separator
    · subst hb
      rw [splitLoop_separator]
      exact ih (by simpa using h)
    · obtain ⟨rfl, rfl⟩ : b = a ∧ s = t := by simpa [hb] using h
      rw [splitLoop, if_neg hb, splitLoop_piece (by simp)]
      rfl

/-- Separators at the end leave an empty component. -/
theorem splitLoop_replicate {n : ℕ} :
    splitLoop separator false true [] (List.replicate n separator) = [[]] := by
  induction n with
  | zero => simp [splitLoop]
  | succ n ih => rw [List.replicate_succ, splitLoop_separator, ih]

/-- After the drive, splitting the collapsed path differs only where there is nothing but
separators, the second of which is one too many. -/
theorem splitRest_collapse :
    splitRest format (collapse (pathSeparator format) s) = splitRest format s ↔
      ∀ n, 2 ≤ n → s ≠ List.replicate n (pathSeparator format) := by
  rw [splitRest, splitRest]
  generalize pathSeparator format = separator
  cases s with
  | nil =>
    refine iff_of_true rfl fun n hn h => ?_
    have hlength := congrArg List.length h
    simp only [List.length_nil, List.length_replicate] at hlength
    omega
  | cons a s =>
    by_cases ha : a = separator
    · subst ha
      rw [collapse_separator, splitLoop_root, splitLoop_root, List.cons_inj_right]
      cases ht : s.dropWhile (· == a) with
      | nil =>
        have hs : s = List.replicate s.length a := by
          rw [List.eq_replicate_iff]
          exact ⟨rfl, fun b hb => by simpa using List.dropWhile_eq_nil_iff.mp ht b hb⟩
        cases s with
        | nil =>
          refine iff_of_true rfl fun n hn h => ?_
          have hlength := congrArg List.length h
          simp only [List.length_cons, List.length_nil, List.length_replicate] at hlength
          omega
        | cons b s =>
          rw [hs, List.length_cons, List.replicate_succ, splitLoop_separator, splitLoop_replicate]
          refine iff_of_false (by simp [collapse, splitLoop]) fun h => ?_
          exact h (s.length + 2) (by omega) rfl
      | cons b t =>
        have hb : b ≠ a := by
          have hhead := List.head?_dropWhile_not (· == a) s
          simpa [ht] using hhead
        refine iff_of_true ?_ fun n _ h => hb ?_
        · rw [splitLoop_of_dropWhile ht, collapse_cons hb, splitLoop, if_neg hb,
            splitLoop_piece (by simp), List.nil_append, splitLoop_collapse]
        · have hmem : b ∈ a :: s := List.mem_cons_of_mem _
            ((List.dropWhile_sublist _).subset (ht ▸ List.mem_cons_self))
          exact List.eq_of_mem_replicate (h ▸ hmem)
    · rw [collapse_cons ha, splitLoop, splitLoop, if_neg ha, if_neg ha, List.nil_append,
        splitLoop_piece (s := s) (by simp), splitLoop_piece (s := collapse separator s) (by simp),
        splitLoop_collapse]
      refine iff_of_true rfl fun n _ h => ha ?_
      exact List.eq_of_mem_replicate (h ▸ List.mem_cons_self)

/-- A drive before the collapsed path stands before the path too. -/
theorem take_of_take_collapse
    (h : isDrive letters format ((collapse (pathSeparator format) path).take 2) = true) :
    (collapse (pathSeparator format) path).take 2 = path.take 2 := by
  obtain ⟨_, a, ha, _⟩ := isDrive_iff.mp h
  have hnot := not_mem_of_isDrive h
  rw [ha] at hnot ⊢
  cases path with
  | nil => cases ha
  | cons b path =>
    have hb : b = a := by
      have hhead := congrArg List.head? ha
      rw [List.head?_take, if_neg (by omega), head_collapse] at hhead
      simpa using hhead
    subst hb
    have hne : b ≠ pathSeparator format := fun h => hnot (by simp [h])
    rw [collapse_cons hne] at ha
    cases path with
    | nil => cases ha
    | cons c path =>
      have hhead := congrArg (fun l => l.tail.head?) ha
      simp only [List.take_succ_cons, List.tail_cons, List.head?_take, head_collapse] at hhead
      simpa using hhead.symm

/-- Collapsing leaves the drive. -/
theorem split_collapse :
    split letters (collapse (pathSeparator format) path) format =
      if isDrive letters format (path.take 2) then
        path.take 2 :: splitRest format (collapse (pathSeparator format) (path.drop 2))
      else splitRest format (collapse (pathSeparator format) path) := by
  cases hd : isDrive letters format (path.take 2) with
  | true =>
    have hcollapse : collapse (pathSeparator format) path =
        path.take 2 ++ collapse (pathSeparator format) (path.drop 2) := by
      rw [← collapse_append (not_mem_of_isDrive hd), List.take_append_drop]
    rw [hcollapse, split_of_isDrive hd, if_pos rfl]
  | false =>
    rw [if_neg (by simp), split_of_not_isDrive]
    rw [Bool.eq_false_iff] at hd ⊢
    exact fun hcollapse => hd (by rwa [take_of_take_collapse hcollapse] at hcollapse)

/-- Joining what a path was split into gives the path with every run of separators collapsed to
one, and doing so again changes nothing. The components come back as they were, unless the path
has nothing but two or more separators after its drive: one of those is the root, the others leave
an empty component that the joined path does not show. -/
theorem join_split (letters : Letters) (format : PathFormat) (path : List UInt8) :
    join letters (split letters path format) format = collapse (pathSeparator format) path ∧
      join letters (split letters (join letters (split letters path format) format) format) format =
        join letters (split letters path format) format ∧
      (split letters (join letters (split letters path format) format) format =
          split letters path format ↔
        ∀ n, 2 ≤ n →
          afterDrive letters format path ≠ List.replicate n (pathSeparator format)) := by
  refine ⟨join_split_eq_collapse, ?_, ?_⟩
  · rw [join_split_eq_collapse, join_split_eq_collapse, collapse_collapse]
  · rw [join_split_eq_collapse, split_collapse, split_eq, afterDrive]
    split
    · rw [List.cons_inj_right, splitRest_collapse]
    · rw [splitRest_collapse]

/-- Two slashes are split into the root and an empty component, but joined to one slash. -/
theorem split_two_separators :
    split cLetters (join cLetters (split cLetters [0x2f, 0x2f] .kPOSIX) .kPOSIX) .kPOSIX ≠
      split cLetters [0x2f, 0x2f] .kPOSIX := by
  decide

end Plptools.PathUtils
