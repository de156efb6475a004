import Plptools.Path.SplitJoin
import Plptools.Rfsv.RFSV

/-!
# Appending components

The components appended to a path follow its own ones, whatever separators it ends with. So the
path of a directory entry, which is that of its directory with the name appended, consists of the
components of the start path and the names on the way down.
-/

namespace Plptools

namespace PathUtils

variable {letters : Letters} {format : PathFormat} {separator : UInt8} {ended : Bool}
variable {path s c : List UInt8} {cs ds l v : List (List UInt8)}

/-- Components that can be appended: not empty and without separators. -/
def Names (separator : UInt8) (cs : List (List UInt8)) : Prop := ∀ c ∈ cs, c ≠ [] ∧ separator ∉ c

instance : Decidable (Names separator cs) := inferInstanceAs (Decidable (∀ _ ∈ _, _))

/-! ## The marker goes -/

/-- Only the end is tidied. -/
theorem tidy_append (h : ∀ c ∈ l, c ≠ []) (hv : v ≠ []) : tidy (l ++ v) = l ++ tidy v := by
  induction l with
  | nil => rfl
  | cons c l ih =>
    rw [List.forall_mem_cons] at h
    rw [List.cons_append, tidy, if_neg h.1, if_neg (by simp [hv]), ih h.2, List.cons_append]

/-- Nothing is to be tidied. -/
theorem tidy_of_nonempty (h : ∀ c ∈ cs, c ≠ []) (hcs : cs ≠ []) : tidy cs = cs := by
  induction cs with
  | nil => exact absurd rfl hcs
  | cons c cs ih =>
    rw [List.forall_mem_cons] at h
    rw [tidy, if_neg h.1]
    split
    next hnil => rw [hnil]
    next hne => rw [ih h.2 hne]

/-- An empty component at the end goes. -/
theorem withoutMarker_concat : withoutMarker (l ++ [[]]) = l := by simp [withoutMarker]

/-- Another one stays. -/
theorem withoutMarker_of_ne (h : l.getLast? ≠ some []) : withoutMarker l = l := if_neg h

/-- Either there is no marker or it is the last component. -/
theorem marker_cases (l : List (List UInt8)) :
    (l.getLast? ≠ some [] ∧ withoutMarker l = l) ∨ l = withoutMarker l ++ [[]] := by
  by_cases h : l.getLast? = some []
  · obtain ⟨m, rfl⟩ := List.getLast?_eq_some_iff.mp h
    rw [withoutMarker_concat]
    exact .inr rfl
  · exact .inl ⟨h, withoutMarker_of_ne h⟩

/-- The first component stays. -/
theorem withoutMarker_cons (hc : c ≠ []) : withoutMarker (c :: l) = c :: withoutMarker l := by
  rcases marker_cases l with ⟨hne, hl⟩ | hl
  · rw [hl, withoutMarker_of_ne]
    cases l with
    | nil => simpa using hc
    | cons d l => simpa using hne
  · rw [hl, ← List.cons_append, withoutMarker_concat, withoutMarker_concat]

/-- Components that stay as they are after a separator: the first one is not empty, and only the
last one may be. -/
structure Appendable (separator : UInt8) (v : List (List UInt8)) : Prop where
  ne_nil : v ≠ []
  head : ∀ c ∈ v.head?, c ≠ []
  noSeparator : ∀ c ∈ v, separator ∉ c
  tidy : tidy v = v

/-- The first of names is not empty. -/
theorem Names.head (h : Names separator cs) (hcs : cs ≠ []) :
    ∀ c ∈ (cs ++ ds).head?, c ≠ [] := by
  intro c hc
  cases cs with
  | nil => exact absurd rfl hcs
  | cons d cs =>
    obtain rfl : d = c := by simpa using hc
    exact (h d List.mem_cons_self).1

/-- Names can be appended, with a marker at their end too. -/
theorem Names.appendable (h : Names separator cs) (hcs : cs ≠ []) : Appendable separator cs where
  ne_nil := hcs
  head c hc := h.head hcs c (by rwa [List.append_nil])
  noSeparator c hc := (h c hc).2
  tidy := tidy_of_nonempty (fun c hc => (h c hc).1) hcs

/-- Names can be appended with an empty component behind them. -/
theorem Names.appendable_marker (h : Names separator cs) (hcs : cs ≠ []) :
    Appendable separator (cs ++ [[]]) where
  ne_nil := by simp
  head := h.head hcs
  noSeparator c hc := by
    rcases List.mem_append.mp hc with hc | hc
    · exact (h c hc).2
    · rw [List.mem_singleton.mp hc]
      exact List.not_mem_nil
  tidy := tidy_append (fun c hc => (h c hc).1) (by simp)

/-- After other components, a marker makes no difference to those that follow. -/
theorem tidy_components (hl : Components separator l) (hv : Appendable separator v) :
    tidy (l ++ v) = withoutMarker l ++ v := by
  rcases marker_cases l with ⟨hne, hmarker⟩ | hmarker
  · have hall : ∀ c ∈ l, c ≠ [] := by
      rcases List.eq_nil_or_concat' l with rfl | ⟨m, d, rfl⟩
      · simp
      · intro c hc
        rcases List.mem_append.mp hc with hc | hc
        · exact hl.nonempty c (by simpa using hc)
        · rw [List.mem_singleton.mp hc]
          simpa using hne
    rw [hmarker, tidy_append hall hv.ne_nil, hv.tidy]
  · have hall : ∀ c ∈ withoutMarker l, c ≠ [] := fun c hc =>
      hl.nonempty c (by rw [hmarker]; simpa using hc)
    rw [hmarker, withoutMarker_concat, List.append_assoc, tidy_append hall (by simp),
      List.singleton_append, tidy, if_pos rfl, hv.tidy]

/-- An empty component in between adds nothing. -/
theorem joined_marker (hv : ∀ c ∈ v.head?, c ≠ []) (hne : v ≠ []) :
    joined separator ended (l ++ [] :: v) = joined separator ended (l ++ v) := by
  induction l generalizing ended with
  | nil =>
    cases v with
    | nil => exact absurd rfl hne
    | cons c v =>
      have hc : c ≠ [] := hv c rfl
      simp [joined, hc]
  | cons d l ih => rw [List.cons_append, List.cons_append, joined, joined, ih]

/-! ## Appending to a path after the drive -/

/-- What is appended to a path is split off again. -/
theorem splitRest_append (hv : Appendable (pathSeparator format) v) :
    splitRest format (joinLoop (pathSeparator format) true [] (splitRest format s ++ v)) =
      withoutMarker (splitRest format s) ++ v := by
  rcases splitRest_cases format s with hnil | ⟨l, hl, hcomponents⟩ | ⟨c, l, hl, hc, hcsep, hcomponents⟩
  · rw [hnil, List.nil_append]
    cases v with
    | nil => exact absurd rfl hv.ne_nil
    | cons c v =>
      have hc : c ≠ [] := hv.head c rfl
      have htidy := hv.tidy
      rw [tidy, if_neg hc] at htidy
      rw [splitRest_joinLoop_cons hc hv.noSeparator, htidy]
      rfl
  · rw [hl, List.cons_append, splitRest_joinLoop_root, if_neg, tidy_components hcomponents hv,
      withoutMarker_cons (by simp), List.cons_append]
    · intro hall
      obtain ⟨c, t, rfl⟩ := List.exists_cons_of_ne_nil hv.ne_nil
      exact hv.head c rfl (hall c (by simp))
    · intro c hc
      exact (List.mem_append.mp hc).elim (hcomponents.noSeparator c) (hv.noSeparator c)
  · rw [hl, List.cons_append, splitRest_joinLoop_cons hc, if_neg (by simp [hv.ne_nil]),
      tidy_components hcomponents hv, withoutMarker_cons hc, List.cons_append]
    rintro x (_ | ⟨_, hx⟩)
    · exact hcsep
    · exact (List.mem_append.mp hx).elim (hcomponents.noSeparator x) (hv.noSeparator x)

/-- The path can be taken without its empty component. -/
theorem joinLoop_append_marker (hv : v ≠ []) (hhead : ∀ c ∈ v.head?, c ≠ []) :
    joinLoop (pathSeparator format) true [] (withoutMarker (splitRest format s) ++ v) =
      joinLoop (pathSeparator format) true [] (splitRest format s ++ v) := by
  rcases marker_cases (splitRest format s) with ⟨_, hmarker⟩ | hmarker
  · rw [hmarker]
  · have hfirst : ∃ c l, withoutMarker (splitRest format s) = c :: l ∧ c ≠ [] := by
      rcases splitRest_cases format s with hnil | ⟨l, hl, _⟩ | ⟨c, l, hl, hc, _⟩
      · rw [hnil] at hmarker
        cases hmarker
      · exact ⟨_, withoutMarker l, by rw [hl, withoutMarker_cons (by simp)], by simp⟩
      · exact ⟨c, withoutMarker l, by rw [hl, withoutMarker_cons hc], hc⟩
    obtain ⟨c, l, hl, hc⟩ := hfirst
    rw [hl] at hmarker ⊢
    rw [hmarker, List.append_assoc, List.singleton_append, List.cons_append, List.cons_append,
      joinLoop_cons hc, joinLoop_cons hc, ← List.cons_append, ← List.cons_append,
      joined_marker hhead hv]

/-! ## Appending to a path -/

/-- The first component of a path without a drive. -/
theorem splitRest_append_head (hd : isDrive letters format (path.take 2) = false)
    (hne : splitRest format path ≠ []) :
    ∃ c l, splitRest format path = c :: l ∧ c ≠ [] ∧ isDrive letters format (c.take 2) = false ∧
      (c = [pathSeparator format] ∨ pathSeparator format ∉ c) := by
  have hhead := isDrive_head_splitRest hd
  rcases splitRest_cases format path with hnil | ⟨l, hl, _⟩ | ⟨c, l, hl, hc, hsep, _⟩
  · exact absurd hnil hne
  · rw [hl] at hhead
    exact ⟨_, l, hl, by simp, hhead _ rfl, .inl rfl⟩
  · rw [hl] at hhead
    exact ⟨c, l, hl, hc, hhead _ rfl, .inr hsep⟩

/-- Where there is nothing to append to, the first component must not look like a drive. -/
def Based (letters : Letters) (format : PathFormat) (path : List UInt8) (v : List (List UInt8)) : Prop :=
  split letters path format ≠ [] ∨ ∀ c ∈ v.head?, isDrive letters format (c.take 2) = false

/-- What is appended to a path follows its components. -/
theorem split_join_append (hpath : Based letters format path v)
    (hv : Appendable (pathSeparator format) v) :
    split letters (join letters (split letters path format ++ v) format) format =
      withoutMarker (split letters path format) ++ v := by
  rcases split_cases letters format path with ⟨d, s, hd, rfl, hsplit⟩ | ⟨hd, hsplit⟩
  · rw [hsplit, List.cons_append, split_join_drive hd, splitRest_append hv,
      withoutMarker_cons (ne_nil_of_isDrive hd), List.cons_append]
  · rw [hsplit, ← splitRest_append hv]
    by_cases hnil : splitRest format path = []
    · obtain ⟨c, t, rfl⟩ := List.exists_cons_of_ne_nil hv.ne_nil
      have hcd : isDrive letters format (c.take 2) = false :=
        hpath.elim (fun h => absurd (hsplit.trans hnil) h) fun h => h c rfl
      rw [hnil, List.nil_append]
      exact split_join_cons hcd (.inr (hv.noSeparator c List.mem_cons_self))
    · obtain ⟨c, l, hl, _, hcd, hroot⟩ := splitRest_append_head hd hnil
      rw [hl, List.cons_append, split_join_cons hcd hroot]

/-- Before names, the empty component at the end of a split path can be left out. -/
theorem join_withoutMarker (hv : v ≠ []) (hhead : ∀ c ∈ v.head?, c ≠ []) :
    join letters (withoutMarker (split letters path format) ++ v) format =
      join letters (split letters path format ++ v) format := by
  rcases split_cases letters format path with ⟨d, s, hd, rfl, hsplit⟩ | ⟨hd, hsplit⟩
  · rw [hsplit, withoutMarker_cons (ne_nil_of_isDrive hd), List.cons_append, List.cons_append,
      join_of_isDrive hd, join_of_isDrive hd, joinLoop_append_marker hv hhead]
  · rw [hsplit]
    by_cases hnil : splitRest format path = []
    · rw [hnil]
      rfl
    · obtain ⟨c, l, hl, hc, hcd, _⟩ := splitRest_append_head hd hnil
      have hdrive (rest : List (List UInt8)) :
          ∀ d ∈ (c :: rest).head?, isDrive letters format d = false := by
        intro d hmem
        obtain rfl : c = d := by simpa using hmem
        exact isDrive_of_take hcd
      rw [join_of_not_isDrive, join_of_not_isDrive, joinLoop_append_marker hv hhead]
      · rw [hl]
        exact hdrive _
      · rw [hl, withoutMarker_cons hc]
        exact hdrive _

/-- Appending names and then more components is appending them all. -/
theorem appendingComponents_append (hpath : Based letters format path cs) (hcs : cs ≠ [])
    (h : Names (pathSeparator format) cs) :
    appendingComponents letters (appendingComponents letters path cs format) ds format =
      appendingComponents letters path (cs ++ ds) format := by
  have hhead : ∀ c ∈ (cs ++ ds).head?, c ≠ [] := h.head hcs
  have hsplit := split_join_append hpath (h.appendable hcs)
  rw [appendingComponents, appendingComponents, hsplit, List.append_assoc,
    join_withoutMarker (by simp [hcs]) hhead, appendingComponents]

/-! ## The characters of a path -/

/-- Joining adds separators only. -/
theorem mem_joined {a : UInt8} (ha : a ∈ joined separator ended cs) :
    a = separator ∨ ∃ c ∈ cs, a ∈ c := by
  induction cs generalizing ended with
  | nil => cases ha
  | cons c cs ih =>
    rw [joined, List.mem_append, List.mem_append] at ha
    rcases ha with (ha | ha) | ha
    · cases ended with
      | true => cases ha
      | false => exact .inl (by simpa using ha)
    · exact .inr ⟨c, List.mem_cons_self, ha⟩
    · refine (ih ha).imp_right fun h => ?_
      obtain ⟨d, hd, hmem⟩ := h
      exact ⟨d, List.mem_cons_of_mem _ hd, hmem⟩

/-- A joined path has the characters of its components, separators, and a period perhaps. -/
theorem mem_joinLoop {a : UInt8} (ha : a ∈ joinLoop separator true [] cs) :
    a = separator ∨ a = 0x2e ∨ ∃ c ∈ cs, a ∈ c := by
  cases cs with
  | nil => cases ha
  | cons c cs =>
    by_cases hc : c = []
    · rw [hc, joinLoop_nil_cons] at ha
      rcases ha with _ | ⟨_, _ | ⟨_, ha⟩⟩
      · exact .inr (.inl rfl)
      · exact .inl rfl
      · refine (mem_joined ha).imp_right fun h => .inr ?_
        obtain ⟨d, hd, hmem⟩ := h
        exact ⟨d, List.mem_cons_of_mem _ hd, hmem⟩
    · rw [joinLoop_cons hc] at ha
      exact (mem_joined ha).imp_right .inr

/-- Joining adds separators and dots only. -/
theorem mem_join {a : UInt8} (ha : a ∈ join letters cs format) :
    a = pathSeparator format ∨ a = 0x2e ∨ ∃ c ∈ cs, a ∈ c := by
  cases cs with
  | nil => cases ha
  | cons d cs =>
    rw [join] at ha
    split at ha
    · rcases List.mem_append.mp ha with ha | ha
      · exact .inr (.inr ⟨d, List.mem_cons_self, ha⟩)
      · refine (mem_joinLoop ha).imp_right fun h => h.imp_right fun h => ?_
        obtain ⟨c, hc, hmem⟩ := h
        exact ⟨c, List.mem_cons_of_mem _ hc, hmem⟩
    · exact mem_joinLoop ha

/-- Splitting adds nothing. -/
theorem mem_splitLoop {a : UInt8} {atStart found : Bool} {piece : List UInt8}
    (hc : c ∈ splitLoop separator atStart found piece s) (ha : a ∈ c) : a ∈ piece ∨ a ∈ s := by
  induction s generalizing atStart found piece with
  | nil =>
    rw [splitLoop] at hc
    split at hc
    · rw [List.mem_singleton.mp hc] at ha
      exact .inl ha
    · cases hc
  | cons b s ih =>
    have hnext {atStart found : Bool} (h : c ∈ splitLoop separator atStart found [] s) :
        a ∈ piece ∨ a ∈ b :: s :=
      (ih h).elim (fun h => absurd h List.not_mem_nil) fun h => .inr (List.mem_cons_of_mem _ h)
    rw [splitLoop] at hc
    split at hc
    · split at hc
      · rcases List.mem_cons.mp hc with rfl | hc
        · exact .inr (by simpa using .inl (List.mem_singleton.mp ha))
        · exact hnext hc
      · split at hc
        · exact hnext hc
        · rcases List.mem_cons.mp hc with rfl | hc
          · exact .inl ha
          · exact hnext hc
    · rcases ih hc with h | h
      · exact (List.mem_append.mp h).imp_right fun h => by simpa using .inl (List.mem_singleton.mp h)
      · exact .inr (List.mem_cons_of_mem _ h)

/-- The components of a path have no other characters than the path. -/
theorem mem_split {a : UInt8} (hc : c ∈ split letters path format) (ha : a ∈ c) : a ∈ path := by
  have hrest {s : List UInt8} (hs : c ∈ splitRest format s) : a ∈ s :=
    (mem_splitLoop hs ha).resolve_left List.not_mem_nil
  rw [split_eq] at hc
  split at hc
  · rcases List.mem_cons.mp hc with rfl | hc
    · exact List.mem_of_mem_take ha
    · exact List.mem_of_mem_drop (hrest hc)
  · exact hrest hc

end PathUtils

/-! ## The paths of directory entries -/

namespace RFSV

open PathUtils

variable {letters : Letters} {start : List UInt8} {e : PlpDirent} {es : List PlpDirent}

/-- Whether the entry is a directory. -/
def PlpDirent.isDirectory (e : PlpDirent) : Bool := 0 < e.attr &&& PSI_A_DIR

/-- The path of the entry. -/
def PlpDirent.getPath (letters : Letters) (e : PlpDirent) : List UInt8 :=
  join letters
    (split letters e.dirname kEPOC ++ [e.name] ++ if e.isDirectory then [[]] else []) kEPOC

/-- Entries on the way down from a directory: each is one of the directory before it. -/
def Descends (letters : Letters) : (dirname : List UInt8) → List PlpDirent → Prop
  | _, [] => True
  | dirname, e :: es =>
    e.dirname = dirname ∧ (es ≠ [] → e.isDirectory = true) ∧ Descends letters (e.getPath letters) es

/-- The component at the end of a directory's path. -/
def PlpDirent.marker (e : PlpDirent) : List (List UInt8) := if e.isDirectory then [[]] else []

/-- The path of an entry has the components of its directory and its name. -/
theorem split_getPath (hstart : Based letters kEPOC e.dirname [e.name])
    (hname : Names (pathSeparator kEPOC) [e.name]) :
    split letters (e.getPath letters) kEPOC =
      withoutMarker (split letters e.dirname kEPOC) ++ [e.name] ++ e.marker := by
  rw [PlpDirent.getPath, PlpDirent.marker]
  split
  · have hmarker : Based letters kEPOC e.dirname ([e.name] ++ [[]]) := hstart
    rw [List.append_assoc, split_join_append hmarker (hname.appendable_marker (by simp)),
      List.append_assoc]
  · rw [List.append_nil, List.append_nil, split_join_append hstart (hname.appendable (by simp))]

/-- Down a directory tree, the components of a path are those of the start and the names. -/
theorem split_getPath_descends
    (hstart : Based letters kEPOC start ((es ++ [e]).map PlpDirent.name))
    (hnames : Names (pathSeparator kEPOC) ((es ++ [e]).map PlpDirent.name))
    (h : Descends letters start (es ++ [e])) :
    split letters (e.getPath letters) kEPOC =
      withoutMarker (split letters start kEPOC) ++ (es ++ [e]).map PlpDirent.name ++ e.marker := by
  induction es generalizing start with
  | nil =>
    obtain ⟨rfl, -, -⟩ := h
    exact split_getPath hstart hnames
  | cons d es ih =>
    obtain ⟨rfl, hdir, hrest⟩ := h
    simp only [List.cons_append, List.map_cons] at hnames
    have hname : Names (pathSeparator kEPOC) [d.name] := fun c hc => by
      rw [List.mem_singleton.mp hc]
      exact hnames _ List.mem_cons_self
    have hsplit := split_getPath hstart hname
    rw [PlpDirent.marker, if_pos (hdir (by simp))] at hsplit
    have hnext : Based letters kEPOC (d.getPath letters) ((es ++ [e]).map PlpDirent.name) :=
      .inl (by simp [hsplit])
    rw [ih hnext (fun c hc => hnames c (List.mem_cons_of_mem _ hc)) hrest, hsplit,
      withoutMarker_concat]
    simp

/-- Appending to a path that has components: the names follow its components, appending in two
steps is appending at once, and so the path of an entry has the components of the path where the
way down to it started and the names on that way. -/
theorem components_of_appended (letters : Letters) :
    (∀ (format : PathFormat) (path : List UInt8) (cs ds : List (List UInt8)),
      split letters path format ≠ [] → cs ≠ [] → Names (pathSeparator format) cs →
        split letters (appendingComponents letters path cs format) format =
            withoutMarker (split letters path format) ++ cs ∧
          appendingComponents letters (appendingComponents letters path cs format) ds format =
            appendingComponents letters path (cs ++ ds) format) ∧
      ∀ (start : List UInt8) (es : List PlpDirent) (e : PlpDirent),
        split letters start kEPOC ≠ [] →
        Names (pathSeparator kEPOC) ((es ++ [e]).map PlpDirent.name) →
        Descends letters start (es ++ [e]) →
          split letters (e.getPath letters) kEPOC =
            withoutMarker (split letters start kEPOC) ++ (es ++ [e]).map PlpDirent.name ++
              e.marker := by
  constructor
  · intro format path cs ds hpath hcs h
    exact ⟨split_join_append (.inl hpath) (h.appendable hcs),
      appendingComponents_append (.inl hpath) hcs h⟩
  · intro start es e hstart hnames h
    exact split_getPath_descends (.inl hstart) hnames h

/-- A directory `A` of `C:` with a file `B` in it. -/
theorem components_of_appended_file :
    let a : PlpDirent :=
      { PlpDirent.new with attr := PSI_A_DIR, dirname := [0x43, 0x3a, 0x5c], name := [0x41] }
    let b : PlpDirent :=
      { PlpDirent.new with dirname := [0x43, 0x3a, 0x5c, 0x41, 0x5c], name := [0x42] }
    a.getPath cLetters = b.dirname ∧
      split cLetters (appendingComponents cLetters a.dirname [a.name] kEPOC) kEPOC =
        [[0x43, 0x3a], [0x5c], [0x41]] ∧
      split cLetters (b.getPath cLetters) kEPOC = [[0x43, 0x3a], [0x5c], [0x41], [0x42]] := by
  intro a b
  have h := components_of_appended cLetters
  have happended := h.1 kEPOC a.dirname [a.name] [] (by decide) (by decide) (by decide)
  have hpath := h.2 a.dirname [a] b (by decide) (by decide)
    ⟨rfl, fun _ => by decide, by decide, fun h => absurd rfl h, trivial⟩
  exact ⟨by decide, happended.1, hpath.trans (by decide)⟩

end RFSV

end Plptools
