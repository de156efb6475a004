import Plptools.Path.Appending

/-!
# Listing a directory with everything below it

The recursive listing asks for one directory after the other, each under the path of the entry it
was listed with. What the device answers is a tree: a directory either has entries, each of which
may be a directory again, or listing it fails. The listing is the tree in pre-order, and the first
failure ends it without touching the list of the caller.
-/

namespace Plptools.RFSV

open Plptools.Library PathUtils

variable {σ C : Type}

section Program

variable (letters : Letters) (dir : List UInt8 → Client σ C (Option (Errs × List PlpDirent)))

/-- The loop over the entries: each is listed, and behind it what `inner` lists for a directory. -/
def dirEntries (inner : List UInt8 → Client σ C (Option (Errs × List PlpDirent))) (recursive : Bool) :
    List PlpDirent → List PlpDirent → Client σ C (Option (Errs × List PlpDirent))
  | [], files => return some (E_PSI_GEN_NONE, files)
  | entry :: entries, files => do
    if recursive && entry.isDirectory then
      let some (result, directoryFiles) ← inner (entry.getPath letters)
        | return none
      if result ≠ E_PSI_GEN_NONE then return some (result, files)
      else dirEntries inner recursive entries (files ++ [entry] ++ directoryFiles)
    else dirEntries inner recursive entries (files ++ [entry])

/-- List a directory, and if `recursive` is set everything below it. The list `_files` of the
caller is replaced in the end. -/
def dirRecursive (recursive : Bool) :
    ℕ → List UInt8 → List PlpDirent → Client σ C (Option (Errs × List PlpDirent))
  | 0, _, _ => return none
  | fuel + 1, path, _files => do
    let some (result, entries) ← dir (cString path)
      | return none
    if result ≠ E_PSI_GEN_NONE then return some (result, _files)
    else
      let some (result, files) ←
          dirEntries letters (fun path => dirRecursive recursive fuel path []) recursive entries []
        | return none
      if result ≠ E_PSI_GEN_NONE then return some (result, _files)
      else return some (E_PSI_GEN_NONE, files)

end Program

/-! ## One step -/

section Step

variable {letters : Letters} {dir inner : List UInt8 → Client σ C (Option (Errs × List PlpDirent))}
variable {entry : PlpDirent} {entries files below directoryFiles : List PlpDirent} {result : Errs}
variable {fuel : ℕ} {path : List UInt8} {recursive : Bool}
variable {s s' s'' : Session σ (Request C) (Option Response)}

/-- A file is listed. -/
theorem dirEntries_of_file (hdir : ¬entry.isDirectory = true) :
    dirEntries letters inner true (entry :: entries) files s =
      dirEntries letters inner true entries (files ++ [entry]) s := by
  rw [dirEntries, if_neg (by simpa using hdir)]

/-- What is listed below a directory follows it. -/
theorem dirEntries_of_listed (hdir : entry.isDirectory = true)
    (hinner : inner (entry.getPath letters) s = (some (E_PSI_GEN_NONE, directoryFiles), s')) :
    dirEntries letters inner true (entry :: entries) files s =
      dirEntries letters inner true entries (files ++ [entry] ++ directoryFiles) s' := by
  rw [dirEntries, if_pos (by simpa using hdir), Dialogue.bind_apply, hinner]
  rfl

/-- A directory that cannot be listed ends the listing. -/
theorem dirEntries_of_failed (directoryFiles : List PlpDirent) (hdir : entry.isDirectory = true)
    (hinner : inner (entry.getPath letters) s = (some (result, directoryFiles), s'))
    (hresult : result ≠ E_PSI_GEN_NONE) :
    dirEntries letters inner true (entry :: entries) files s = (some (result, files), s') := by
  rw [dirEntries, if_pos (by simpa using hdir), Dialogue.bind_apply, hinner]
  change (if result ≠ E_PSI_GEN_NONE then pure (some (result, files)) else _ : Client σ C _) s' = _
  rw [if_pos hresult]
  rfl

/-- A directory that cannot be listed leaves the list of the caller. -/
theorem dirRecursive_of_failed (hdir : dir (cString path) s = (some (result, entries), s'))
    (hresult : result ≠ E_PSI_GEN_NONE) :
    dirRecursive letters dir recursive (fuel + 1) path files s = (some (result, files), s') := by
  rw [dirRecursive, Dialogue.bind_apply, hdir]
  change (if result ≠ E_PSI_GEN_NONE then pure (some (result, files)) else _ : Client σ C _) s' = _
  rw [if_pos hresult]
  rfl

/-- So does a failure below it. -/
theorem dirRecursive_of_listed
    (hdir : dir (cString path) s = (some (E_PSI_GEN_NONE, entries), s'))
    (hentries : dirEntries letters (fun path => dirRecursive letters dir recursive fuel path [])
      recursive entries [] s' = (some (result, below), s'')) :
    dirRecursive letters dir recursive (fuel + 1) path files s =
      (some (result, if result = E_PSI_GEN_NONE then below else files), s'') := by
  rw [dirRecursive, Dialogue.bind_apply, hdir]
  simp only [ne_eq, not_true_eq_false, if_false, Dialogue.bind_apply, hentries]
  by_cases hresult : result = E_PSI_GEN_NONE <;> simp [hresult]

/-- Whatever the device answers, a failure leaves the list of the caller as it was. -/
theorem dirRecursive_unchanged {after : List PlpDirent}
    (h : dirRecursive letters dir recursive fuel path files s = (some (result, after), s'))
    (hresult : result ≠ E_PSI_GEN_NONE) : after = files := by
  cases fuel with
  | zero => cases h
  | succ fuel =>
    rcases hdir : dir (cString path) s with ⟨_ | ⟨result', entries⟩, t⟩
    · simp [dirRecursive, hdir] at h
    · by_cases hlisted : result' = E_PSI_GEN_NONE
      · subst hlisted
        rcases hentries : dirEntries letters
            (fun path => dirRecursive letters dir recursive fuel path []) recursive entries [] t with
          ⟨_ | ⟨result', below⟩, t'⟩
        · simp [dirRecursive, hdir, hentries] at h
        · rw [dirRecursive_of_listed hdir hentries] at h
          simp only [Prod.mk.injEq, Option.some.injEq] at h
          obtain ⟨⟨rfl, rfl⟩, rfl⟩ := h
          exact if_neg hresult
      · rw [dirRecursive_of_failed hdir hlisted] at h
        simp only [Prod.mk.injEq, Option.some.injEq] at h
        exact h.1.2.symm

end Step

/-! ## Trees -/

mutual

/-- What listing a directory answers. -/
inductive Tree where
  | fails (e : Errs)
  | lists (entries : Forest)

/-- The entries of a directory, each with what listing it would answer if it is one. -/
inductive Forest where
  | nil
  | cons (entry : PlpDirent) (inner : Tree) (rest : Forest)

end

/-- The path of a directory that is reached from `start` by the names `trail`. -/
def dirPath (letters : Letters) (start : List UInt8) (trail : List (List UInt8)) : List UInt8 :=
  if trail = [] then start else appendingComponents letters start (trail ++ [[]]) kEPOC

/-- The entries of one directory, as listed under its path. -/
def Forest.entries (dirname : List UInt8) : Forest → List PlpDirent
  | .nil => []
  | .cons entry _ rest => { entry with dirname := dirname } :: rest.entries dirname

section Order

variable (letters : Letters) (start : List UInt8)

mutual

/-- The entries in pre-order. -/
def Tree.preorder (trail : List (List UInt8)) : Tree → List PlpDirent
  | .fails _ => []
  | .lists entries => entries.preorder trail

def Forest.preorder (trail : List (List UInt8)) : Forest → List PlpDirent
  | .nil => []
  | .cons entry inner rest =>
    { entry with dirname := dirPath letters start trail } ::
      (if entry.isDirectory then inner.preorder (trail ++ [entry.name]) else []) ++
        rest.preorder trail

end

mutual

/-- The full paths of the entries in pre-order. -/
def Tree.paths (trail : List (List UInt8)) : Tree → List (List UInt8)
  | .fails _ => []
  | .lists entries => entries.paths trail

def Forest.paths (trail : List (List UInt8)) : Forest → List (List UInt8)
  | .nil => []
  | .cons entry inner rest =>
    appendingComponents letters start (trail ++ [entry.name] ++ entry.marker) kEPOC ::
      (if entry.isDirectory then inner.paths (trail ++ [entry.name]) else []) ++ rest.paths trail

end

end Order

mutual

/-- The failures in pre-order. -/
def Tree.failures : Tree → List Errs
  | .fails e => [e]
  | .lists entries => entries.failures

def Forest.failures : Forest → List Errs
  | .nil => []
  | .cons entry inner rest =>
    (if entry.isDirectory then inner.failures else []) ++ rest.failures

end

mutual

/-- How deep the directories are nested. -/
def Tree.depth : Tree → ℕ
  | .fails _ => 1
  | .lists entries => entries.depth + 1

def Forest.depth : Forest → ℕ
  | .nil => 0
  | .cons entry inner rest => max (if entry.isDirectory then inner.depth else 0) rest.depth

end

/-! ## The paths of the entries -/

/-- A name that an entry can have. Where the listing starts at the empty path, it does not look
like a drive. -/
structure Named (letters : Letters) (start name : List UInt8) : Prop where
  names : Names (pathSeparator kEPOC) [name]
  terminated : 0 ∉ name
  based : Based letters kEPOC start [name]

variable {letters : Letters} {start name : List UInt8} {trail : List (List UInt8)} {e : PlpDirent}

/-- One directory further down. -/
theorem Named.forall_append (htrail : ∀ n ∈ trail, Named letters start n)
    (hname : Named letters start name) : ∀ n ∈ trail ++ [name], Named letters start n := by
  intro n hn
  rcases List.mem_append.mp hn with hn | hn
  · exact htrail n hn
  · rwa [List.mem_singleton.mp hn]

/-- The names on the way are names of components. -/
theorem Named.names_append (htrail : ∀ n ∈ trail, Named letters start n)
    (hname : Named letters start name) : Names (pathSeparator kEPOC) (trail ++ [name]) := by
  intro c hc
  rcases List.mem_append.mp hc with hc | hc
  · exact (htrail c hc).names c (List.mem_singleton_self c)
  · exact hname.names c hc

/-- What is appended goes on from the start. -/
theorem Named.based_append (htrail : ∀ n ∈ trail, Named letters start n)
    (hname : Named letters start name) (v : List (List UInt8)) :
    Based letters kEPOC start (trail ++ [name] ++ v) := by
  cases trail with
  | nil => exact hname.based
  | cons n trail => exact (htrail n List.mem_cons_self).based

/-- The path of an entry is the start path with the names appended that lead to it. -/
theorem getPath_eq (htrail : ∀ n ∈ trail, Named letters start n)
    (hname : Named letters start e.name) :
    PlpDirent.getPath letters { e with dirname := dirPath letters start trail } =
      appendingComponents letters start (trail ++ [e.name] ++ e.marker) kEPOC := by
  have hhead : ∀ c ∈ ([e.name] ++ e.marker).head?, c ≠ [] := hname.names.head (by simp)
  change join letters (split letters (dirPath letters start trail) kEPOC ++ [e.name] ++ e.marker)
    kEPOC = _
  rcases List.eq_nil_or_concat' trail with rfl | ⟨trail, n, rfl⟩
  · rw [dirPath, if_pos rfl, appendingComponents]
    simp
  · have hn : Named letters start n := htrail n (by simp)
    have hlast : ∀ x ∈ trail, Named letters start x := fun x hx => htrail x (by simp [hx])
    have hnames := hn.names_append hlast
    have hsplit := (split_join_append (hn.based_append hlast [[]])
      (hnames.appendable_marker (by simp))).trans (List.append_assoc _ _ _).symm
    rw [dirPath, if_neg (by simp), appendingComponents, List.append_assoc,
      ← join_withoutMarker (by simp) hhead, hsplit, withoutMarker_concat, List.append_assoc,
      join_withoutMarker (by simp) (hnames.head (by simp)), appendingComponents,
      List.append_assoc (trail ++ [n])]

/-- The path of a directory in a directory. -/
theorem dirPath_append (hdir : e.isDirectory = true) (htrail : ∀ n ∈ trail, Named letters start n)
    (hname : Named letters start e.name) :
    PlpDirent.getPath letters { e with dirname := dirPath letters start trail } =
      dirPath letters start (trail ++ [e.name]) := by
  rw [getPath_eq htrail hname, PlpDirent.marker, if_pos hdir, dirPath, if_neg (by simp)]

/-- The path of a directory is a C string. -/
theorem cString_dirPath (hstart : 0 ∉ start) (htrail : ∀ n ∈ trail, Named letters start n) :
    cString (dirPath letters start trail) = dirPath letters start trail := by
  rw [cString, List.takeWhile_eq_self_iff]
  intro a ha
  rw [bne_iff_ne]
  rintro rfl
  rw [dirPath] at ha
  split at ha
  · exact hstart ha
  · rcases mem_join ha with h | h | ⟨c, hc, hmem⟩
    · cases h
    · cases h
    · rcases List.mem_append.mp hc with hc | hc
      · exact hstart (mem_split hc hmem)
      · rcases List.mem_append.mp hc with hc | hc
        · exact (htrail c hc).terminated hmem
        · rw [List.mem_singleton.mp hc] at hmem
          cases hmem

/-! ## The listing -/

section Answers

variable (letters : Letters) (dir : List UInt8 → Client σ C (Option (Errs × List PlpDirent)))
variable (inv : Session σ (Request C) (Option Response) → Prop) (start : List UInt8)

mutual

/-- The device answers as the tree says, in every session that satisfies `inv`, and keeps it. -/
def Tree.Answered (trail : List (List UInt8)) : Tree → Prop
  | .fails e => e ≠ E_PSI_GEN_NONE ∧
      ∀ s, inv s → ∃ files s', dir (dirPath letters start trail) s = (some (e, files), s') ∧ inv s'
  | .lists entries =>
    (∀ s, inv s → ∃ s', dir (dirPath letters start trail) s =
        (some (E_PSI_GEN_NONE, entries.entries (dirPath letters start trail)), s') ∧ inv s') ∧
      entries.Answered trail

def Forest.Answered (trail : List (List UInt8)) : Forest → Prop
  | .nil => True
  | .cons entry inner rest =>
    (entry.isDirectory = true → inner.Answered (trail ++ [entry.name])) ∧ rest.Answered trail

end

mutual

/-- The names of all entries are ones that entries can have. -/
def Tree.Named : Tree → Prop
  | .fails _ => True
  | .lists entries => entries.Named

def Forest.Named : Forest → Prop
  | .nil => True
  | .cons entry inner rest => RFSV.Named letters start entry.name ∧ inner.Named ∧ rest.Named

end

/-- The result of a listing: the entries, unless there was a failure. -/
def outcome (failures : List Errs) (entries files : List PlpDirent) : Errs × List PlpDirent :=
  match failures with
  | [] => (E_PSI_GEN_NONE, entries)
  | e :: _ => (e, files)

end Answers

variable {dir : List UInt8 → Client σ C (Option (Errs × List PlpDirent))}
variable {inv : Session σ (Request C) (Option Response) → Prop}

mutual

/-- Failures are errors. -/
theorem Tree.failures_ne (t : Tree) {trail : List (List UInt8)}
    (h : t.Answered letters dir inv start trail) : ∀ e ∈ t.failures, e ≠ E_PSI_GEN_NONE := by
  cases t with
  | fails e =>
    intro x hx
    rw [List.mem_singleton.mp hx]
    exact h.1
  | lists entries => exact entries.failures_ne h.2

/-- Failures are errors. -/
theorem Forest.failures_ne (f : Forest) {trail : List (List UInt8)}
    (h : f.Answered letters dir inv start trail) : ∀ e ∈ f.failures, e ≠ E_PSI_GEN_NONE := by
  cases f with
  | nil => exact fun e he => absurd he List.not_mem_nil
  | cons entry inner rest =>
    intro e he
    rcases List.mem_append.mp he with he | he
    · split at he
      next hdir => exact inner.failures_ne (h.1 hdir) e he
      · cases he
    · exact rest.failures_ne h.2 e he

end

mutual

/-- A directory is listed in pre-order, or the first failure is the result. -/
theorem Tree.dirRecursive_eq (t : Tree) {trail : List (List UInt8)} {fuel : ℕ}
    {s : Session σ (Request C) (Option Response)} (hstart : 0 ∉ start)
    (htrail : ∀ n ∈ trail, RFSV.Named letters start n) (hnamed : t.Named letters start)
    (hanswered : t.Answered letters dir inv start trail) (hfuel : t.depth ≤ fuel)
    (files : List PlpDirent) (hs : inv s) :
    ∃ s', inv s' ∧ dirRecursive letters dir true fuel (dirPath letters start trail) files s =
      (some (outcome t.failures (t.preorder letters start trail) files), s') := by
  have hpath := cString_dirPath hstart htrail
  cases fuel with
  | zero => cases t <;> simp [Tree.depth] at hfuel
  | succ fuel =>
    cases t with
    | fails e =>
      obtain ⟨he, hdir⟩ := hanswered
      obtain ⟨entries, s', hdir, hs'⟩ := hdir s hs
      rw [← hpath] at hdir
      exact ⟨s', hs', dirRecursive_of_failed hdir he⟩
    | lists entries =>
      obtain ⟨hdir, hanswered⟩ := hanswered
      obtain ⟨s', hdir, hs'⟩ := hdir s hs
      rw [Tree.depth, Nat.succ_le_succ_iff] at hfuel
      obtain ⟨s'', before, hs'', hentries⟩ :=
        entries.dirEntries_eq hstart htrail hnamed hanswered hfuel [] hs'
      refine ⟨s'', hs'', (dirRecursive_of_listed ?_ hentries).trans ?_⟩
      · rw [hpath]
        exact hdir
      · rw [Tree.failures, Tree.preorder]
        cases hfailures : entries.failures with
        | nil => rfl
        | cons e failures =>
          have he : e ≠ E_PSI_GEN_NONE := entries.failures_ne hanswered e (by simp [hfailures])
          simp only [outcome, if_neg he]

/-- The entries of a directory are listed behind those before them. -/
theorem Forest.dirEntries_eq (f : Forest) {trail : List (List UInt8)} {fuel : ℕ}
    {s : Session σ (Request C) (Option Response)} (hstart : 0 ∉ start)
    (htrail : ∀ n ∈ trail, RFSV.Named letters start n) (hnamed : f.Named letters start)
    (hanswered : f.Answered letters dir inv start trail) (hfuel : f.depth ≤ fuel)
    (files : List PlpDirent) (hs : inv s) :
    ∃ s' before, inv s' ∧
      dirEntries letters (fun path => dirRecursive letters dir true fuel path []) true
          (f.entries (dirPath letters start trail)) files s =
        (some (outcome f.failures (files ++ f.preorder letters start trail) before), s') := by
  cases f with
  | nil =>
    refine ⟨s, [], hs, ?_⟩
    rw [Forest.preorder, List.append_nil]
    rfl
  | cons entry inner rest =>
    obtain ⟨hname, hinner, hrest⟩ := hnamed
    obtain ⟨hbelow, hanswered⟩ := hanswered
    rw [Forest.depth, Nat.max_le] at hfuel
    rw [Forest.entries, Forest.failures, Forest.preorder]
    by_cases hdir : entry.isDirectory = true
    · rw [if_pos hdir] at hfuel
      obtain ⟨s', hs', hlisted⟩ := inner.dirRecursive_eq hstart (hname.forall_append htrail) hinner
        (hbelow hdir) hfuel.1 [] hs
      rw [← dirPath_append hdir htrail hname] at hlisted
      rw [if_pos hdir, if_pos hdir]
      cases hfailures : inner.failures with
      | nil =>
        rw [hfailures, outcome] at hlisted
        obtain ⟨s'', before, hs'', hothers⟩ := rest.dirEntries_eq hstart htrail hrest hanswered
          hfuel.2 (files ++ [{ entry with dirname := dirPath letters start trail }] ++
            inner.preorder letters start (trail ++ [entry.name])) hs'
        refine ⟨s'', before, hs'', (dirEntries_of_listed ?_ ?_).trans (hothers.trans ?_)⟩
        · exact hdir
        · exact hlisted
        · simp
      | cons e failures =>
        rw [hfailures, outcome] at hlisted
        have he : e ≠ E_PSI_GEN_NONE := inner.failures_ne (hbelow hdir) e (by simp [hfailures])
        refine ⟨s', files, hs', dirEntries_of_failed [] ?_ ?_ he⟩
        · exact hdir
        · exact hlisted
    · obtain ⟨s', before, hs', hothers⟩ := rest.dirEntries_eq hstart htrail hrest hanswered
        hfuel.2 (files ++ [{ entry with dirname := dirPath letters start trail }]) hs
      refine ⟨s', before, hs', (dirEntries_of_file ?_).trans (hothers.trans ?_)⟩
      · exact hdir
      · simp [hdir]

end

mutual

/-- The entries have the right full paths. -/
theorem Tree.map_getPath (t : Tree) {trail : List (List UInt8)}
    (htrail : ∀ n ∈ trail, RFSV.Named letters start n) (hnamed : t.Named letters start) :
    (t.preorder letters start trail).map (PlpDirent.getPath letters) =
      t.paths letters start trail := by
  cases t with
  | fails e => rfl
  | lists entries => exact entries.map_getPath htrail hnamed

/-- The paths of the entries are those on the way to them. -/
theorem Forest.map_getPath (f : Forest) {trail : List (List UInt8)}
    (htrail : ∀ n ∈ trail, RFSV.Named letters start n) (hnamed : f.Named letters start) :
    (f.preorder letters start trail).map (PlpDirent.getPath letters) =
      f.paths letters start trail := by
  cases f with
  | nil => rfl
  | cons entry inner rest =>
    obtain ⟨hname, hinner, hrest⟩ := hnamed
    have hbelow := inner.map_getPath (hname.forall_append htrail) hinner
    rw [Forest.preorder, Forest.paths, List.map_append, List.map_cons, getPath_eq htrail hname,
      rest.map_getPath htrail hrest, apply_ite (List.map _), hbelow, List.map_nil]

end

/-- Listing a directory with everything below it gives the tree in pre-order, each entry with its
full path; where listing a directory of the tree fails, the first failure is the result. Whatever
the device answers, a failure leaves the list of the caller as it was. -/
theorem dirRecursive_preorder (letters : Letters)
    (dir : List UInt8 → Client σ C (Option (Errs × List PlpDirent)))
    (inv : Session σ (Request C) (Option Response) → Prop) (t : Tree) (path : List UInt8)
    (fuel : ℕ) (files : List PlpDirent) (s : Session σ (Request C) (Option Response)) :
    (t.Named letters (cString path) → t.Answered letters dir inv (cString path) [] → inv s →
      t.depth ≤ fuel →
        (dirRecursive letters dir true fuel path files s).1 =
            some (outcome t.failures (t.preorder letters (cString path) []) files) ∧
          (t.preorder letters (cString path) []).map (PlpDirent.getPath letters) =
            t.paths letters (cString path) []) ∧
      ∀ recursive result after,
        (dirRecursive letters dir recursive fuel path files s).1 = some (result, after) →
          result ≠ E_PSI_GEN_NONE → after = files := by
  have hterminated : 0 ∉ cString path := fun h => by
    simpa using List.mem_takeWhile_imp h
  have hcut : dirRecursive letters dir true fuel path files =
      dirRecursive letters dir true fuel (cString path) files := by
    cases fuel with
    | zero => rfl
    | succ fuel =>
      have hidem : cString (cString path) = cString path := List.takeWhile_idem
      rw [dirRecursive, dirRecursive, hidem]
  constructor
  · intro hnamed hanswered hs hfuel
    obtain ⟨s', hs', hlisted⟩ :=
      t.dirRecursive_eq hterminated (fun n hn => absurd hn List.not_mem_nil) hnamed hanswered hfuel
        files hs
    refine ⟨?_, t.map_getPath (fun n hn => absurd hn List.not_mem_nil) hnamed⟩
    rw [hcut]
    exact congrArg Prod.fst hlisted
  · intro recursive result after h hresult
    exact dirRecursive_unchanged (Prod.ext h rfl) hresult

/-- A directory `A` of `C:` with a file `B` in it. -/
theorem dirRecursive_nested :
    let a : PlpDirent :=
      { PlpDirent.new with attr := PSI_A_DIR, dirname := [0x43, 0x3a, 0x5c], name := [0x41] }
    let b : PlpDirent :=
      { PlpDirent.new with dirname := [0x43, 0x3a, 0x5c, 0x41, 0x5c], name := [0x42] }
    let dir : List UInt8 → Client Unit Unit (Option (Errs × List PlpDirent)) := fun path =>
      return some (if path = a.dirname then (E_PSI_GEN_NONE, [a])
        else if path = b.dirname then (E_PSI_GEN_NONE, [b])
        else (E_PSI_FILE_NXIST, []))
    (dirRecursive cLetters dir true 2 a.dirname [] ⟨(), []⟩).1 = some (E_PSI_GEN_NONE, [a, b]) ∧
      [a, b].map (PlpDirent.getPath cLetters) =
        [[0x43, 0x3a, 0x5c, 0x41, 0x5c], [0x43, 0x3a, 0x5c, 0x41, 0x5c, 0x42]] := by
  intro a b dir
  have hname (n : List UInt8) (hn : Names (pathSeparator kEPOC) [n]) (h0 : 0 ∉ n) :
      Named cLetters (cString a.dirname) n := ⟨hn, h0, .inl (by decide)⟩
  let t : Tree := .lists (.cons a (.lists (.cons b (.fails E_PSI_FILE_NXIST) .nil)) .nil)
  have hlisted := (dirRecursive_preorder cLetters dir (fun _ => True) t a.dirname 2 [] ⟨(), []⟩).1
    ⟨hname a.name (by decide) (by decide), ⟨hname b.name (by decide) (by decide), trivial, trivial⟩,
      trivial⟩
    ⟨fun s _ => ⟨s, rfl, trivial⟩,
      fun _ => ⟨fun s _ => ⟨s, rfl, trivial⟩, fun h => absurd h (by decide), trivial⟩, trivial⟩
    trivial (by decide)
  have hpreorder : t.preorder cLetters (cString a.dirname) [] = [a, b] := by decide
  have hpaths : t.paths cLetters (cString a.dirname) [] =
      [[0x43, 0x3a, 0x5c, 0x41, 0x5c], [0x43, 0x3a, 0x5c, 0x41, 0x5c, 0x42]] := by decide
  have hfailures : t.failures = [] := by decide
  rw [hpreorder, hpaths, hfailures] at hlisted
  exact hlisted

end Plptools.RFSV
