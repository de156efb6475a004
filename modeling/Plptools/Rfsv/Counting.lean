import Plptools.Rfsv.RFSV16
import Plptools.Rfsv.RFSV32
import Plptools.Library.Records
import Mathlib.Algebra.Order.BigOperators.Group.List
import Mathlib.Algebra.Order.Group.Nat

/-!
# Counting the entries of a directory

Both protocols list a directory by reading one entry after the other, and ask the device for more when what is
left is too short for one. A SIBO directory is counted by listing it, on top of what the variable of the caller
holds; an EPOC directory is counted by a loop of its own, which passes over an answer without an entry where the
listing makes an empty one of it.
-/

namespace Plptools

open Plptools.Library

open BufferStore (wordBytes dwordBytes)

namespace RFSV

variable {C : Type}

/-- What a device answers to the requests for entries: some data each time, and then the end. -/
def directory : List (List UInt8) → List (Option Response)
  | [] => [some ⟨E_PSI_FILE_EOF, []⟩]
  | body :: bodies => some ⟨E_PSI_GEN_NONE, body⟩ :: directory bodies

/-- The answers to a count or a listing: the directory is opened, and read to its end. -/
def answers (opened : List UInt8) (bodies : List (List UInt8)) : List (Option Response) :=
  some ⟨E_PSI_GEN_NONE, opened⟩ :: directory bodies

/-- Enough rounds for a listing. -/
def listingFuel (bodies : List (List UInt8)) : ℕ := (bodies.map List.length).sum + bodies.length + 1

/-- The count returns, and with success it is the number of entries that the listing appends. -/
def CountsAsListed (counted : Option (Errs × ℕ)) (listed : Option (Errs × List PlpDirent)) : Prop :=
  ∃ res count, counted = some (res, count) ∧
    (res = E_PSI_GEN_NONE → ∃ files, listed = some (E_PSI_GEN_NONE, files) ∧ count = files.length)

/-- Of what is left of a response, no more is discarded than there is. -/
def DiscardsInside (discards : List (ℤ × ℕ)) : Prop := ∀ d ∈ discards, 0 ≤ d.1 ∧ d.1 ≤ d.2

section Loop

variable {σ : Type} (readdir : RFSVDirHandle → PlpDirent → Client σ C (Errs × RFSVDirHandle × PlpDirent))

/-- After an error a listing is over. -/
theorem dirLoop_failed {fuel : ℕ} {res : Errs} {dH : RFSVDirHandle} {files : List PlpDirent}
    {s : Session σ (Request C) (Option Response)} (h : res ≠ E_PSI_GEN_NONE) :
    dirLoop readdir fuel res dH files s = (some (res, dH, files), s) := by
  cases fuel <;> rw [dirLoop, if_neg h] <;> rfl

/-- One round of a listing. -/
theorem dirLoop_succ {fuel : ℕ} {dH : RFSVDirHandle} {files : List PlpDirent}
    {s s' : Session σ (Request C) (Option Response)} {res : Errs} {dH' : RFSVDirHandle} {e : PlpDirent}
    (h : readdir dH PlpDirent.new s = ((res, dH', e), s')) :
    dirLoop readdir (fuel + 1) E_PSI_GEN_NONE dH files s =
      dirLoop readdir fuel res dH' (if res = E_PSI_GEN_NONE then files ++ [e] else files) s' := by
  rw [dirLoop, if_pos rfl, Dialogue.bind_apply, h]

/-- A listing goes on from what the next entry leaves. -/
theorem dirLoop_congr {fuel : ℕ} {dH dH' : RFSVDirHandle} {files : List PlpDirent}
    {s s' : Session σ (Request C) (Option Response)} (h : readdir dH PlpDirent.new s = readdir dH' PlpDirent.new s') :
    dirLoop readdir (fuel + 1) E_PSI_GEN_NONE dH files s =
      dirLoop readdir (fuel + 1) E_PSI_GEN_NONE dH' files s' := by
  rcases hread : readdir dH' PlpDirent.new s' with ⟨⟨res, dH₁, e⟩, s₁⟩
  rw [dirLoop_succ readdir (h.trans hread), dirLoop_succ readdir hread]

/-- More rounds than a listing needs make no difference. -/
theorem dirLoop_add {fuel : ℕ} {res : Errs} {dH : RFSVDirHandle} {files : List PlpDirent}
    {s : Session σ (Request C) (Option Response)} {out : Errs × RFSVDirHandle × List PlpDirent}
    (h : (dirLoop readdir fuel res dH files s).1 = some out) (k : ℕ) :
    dirLoop readdir (fuel + k) res dH files s = dirLoop readdir fuel res dH files s := by
  induction fuel generalizing res dH files s with
  | zero =>
    by_cases hres : res = E_PSI_GEN_NONE
    · rw [dirLoop, if_pos hres] at h
      cases h
    · rw [dirLoop_failed readdir hres, dirLoop_failed readdir hres]
  | succ fuel ih =>
    by_cases hres : res = E_PSI_GEN_NONE
    · subst hres
      rcases hread : readdir dH PlpDirent.new s with ⟨⟨res', dH', e⟩, s'⟩
      rw [dirLoop_succ readdir hread] at h ⊢
      rw [Nat.add_right_comm, dirLoop_succ readdir hread, ih h]
    · rw [dirLoop_failed readdir hres, dirLoop_failed readdir hres]

end Loop

/-- A way to read the entries of a directory: a record begins where `more` says so, `size` is how long it is, and
`fetch` is what is kept of an answer of the device. -/
structure EntryReader (readdir : RFSVDirHandle → PlpDirent →
      Client (List (Option Response)) C (Errs × RFSVDirHandle × PlpDirent))
    (more : List UInt8 → Prop) [DecidablePred more] (size : List UInt8 → ℕ)
    (fetch : List UInt8 → Option (List UInt8)) : Prop where
  more_length : ∀ b, more b → 16 < b.length
  fetch_length : ∀ body, ∀ b ∈ fetch body, b.length ≤ body.length
  reads : ∀ b, more b → ∀ h name e s, ∃ e',
    readdir ⟨h, b, name⟩ e s = ((E_PSI_GEN_NONE, ⟨h, b.drop (size b), name⟩, e'), s)
  stops : ∀ b, 16 < b.length → ¬more b → ∀ h name e s, ∃ dH' e',
    readdir ⟨h, b, name⟩ e s = ((E_PSI_GEN_FAIL, dH', e'), s)
  rejects : ∀ b, b.length ≤ 16 → ∀ body, fetch body = none → ∀ h name e rest log, ∃ dH' e' log',
    readdir ⟨h, b, name⟩ e ⟨some ⟨E_PSI_GEN_NONE, body⟩ :: rest, log⟩ = ((E_PSI_GEN_FAIL, dH', e'), ⟨rest, log'⟩)
  fetches : ∀ b, b.length ≤ 16 → ∀ body, ∀ b' ∈ fetch body, ∀ h name e rest log, ∃ log',
    readdir ⟨h, b, name⟩ e ⟨some ⟨E_PSI_GEN_NONE, body⟩ :: rest, log⟩ =
      if b'.length ≤ 16 then ((E_PSI_GEN_NONE, ⟨h, b', name⟩, e), ⟨rest, log'⟩)
      else readdir ⟨h, b', name⟩ e ⟨rest, log'⟩
  ends : ∀ b, b.length ≤ 16 → ∀ h name e rest log, ∃ dH' e' log',
    readdir ⟨h, b, name⟩ e ⟨some ⟨E_PSI_FILE_EOF, []⟩ :: rest, log⟩ = ((E_PSI_FILE_EOF, dH', e'), ⟨rest, log'⟩)

section Listed

variable (more : List UInt8 → Prop) [DecidablePred more] (size : List UInt8 → ℕ)
    (fetch : List UInt8 → Option (List UInt8))

/-- How many entries the answers have, where the listing comes to the end. -/
def listed : List (List UInt8) → Option ℕ
  | [] => some 0
  | body :: bodies => (fetch body).bind fun b =>
    if b.length ≤ 16 then (listed bodies).map (· + 1)
    else if 16 < (leftover more size b.length b).length then none
    else (listed bodies).map (· + (records more size b.length b).length)

end Listed

namespace EntryReader

variable {readdir : RFSVDirHandle → PlpDirent → Client (List (Option Response)) C (Errs × RFSVDirHandle × PlpDirent)}
variable {more : List UInt8 → Prop} [DecidablePred more] {size : List UInt8 → ℕ}
variable {fetch : List UInt8 → Option (List UInt8)}

/-- The records of an answer are listed one after the other. -/
theorem dirLoop_records (reader : EntryReader readdir more size fetch) (k fuel h : ℕ) (b name : List UInt8)
    (files : List PlpDirent) (s : Session (List (Option Response)) (Request C) (Option Response)) : ∃ files',
      files'.length = files.length + (records more size k b).length ∧
      dirLoop readdir ((records more size k b).length + fuel) E_PSI_GEN_NONE ⟨h, b, name⟩ files s =
        dirLoop readdir fuel E_PSI_GEN_NONE ⟨h, leftover more size k b, name⟩ files' s := by
  induction k generalizing b files with
  | zero => exact ⟨files, rfl,
    congrArg (fun n => dirLoop readdir n E_PSI_GEN_NONE ⟨h, b, name⟩ files s) (Nat.zero_add fuel)⟩
  | succ k ih =>
    by_cases hmore : more b
    · obtain ⟨e, hread⟩ := reader.reads b hmore h name PlpDirent.new s
      obtain ⟨files', hlength, hrest⟩ := ih (b.drop (size b)) (files ++ [e])
      rw [records_of_more hmore, leftover_of_more hmore]
      refine ⟨files', ?_, ?_⟩
      · simp only [hlength, List.length_append, List.length_cons, List.length_nil]
        omega
      · rw [List.length_cons, Nat.add_right_comm, dirLoop_succ readdir hread, if_pos rfl, hrest]
    · rw [records_of_not_more hmore, leftover_of_not_more hmore]
      exact ⟨files, rfl, congrArg (fun n => dirLoop readdir n E_PSI_GEN_NONE ⟨h, b, name⟩ files s)
        (Nat.zero_add fuel)⟩

/-- In another version of the records the listing fails. -/
theorem dirLoop_stopped (reader : EntryReader readdir more size fetch) {b : List UInt8} (hlong : 16 < b.length)
    (hmore : ¬more b) (fuel h : ℕ) (name : List UInt8) (files : List PlpDirent)
    (s : Session (List (Option Response)) (Request C) (Option Response)) : ∃ dH',
    dirLoop readdir (fuel + 1) E_PSI_GEN_NONE ⟨h, b, name⟩ files s = (some (E_PSI_GEN_FAIL, dH', files), s) := by
  have hfail : E_PSI_GEN_FAIL ≠ E_PSI_GEN_NONE := by decide
  obtain ⟨dH', e', hread⟩ := reader.stops b hlong hmore h name PlpDirent.new s
  rw [dirLoop_succ readdir hread, if_neg hfail, dirLoop_failed readdir hfail]
  exact ⟨dH', rfl⟩

section Round

variable {b body : List UInt8} (fuel h : ℕ) (name : List UInt8) (files : List PlpDirent)
variable (rest : List (Option Response)) (log : List (Request C × Option Response))

/-- The end of the directory ends the listing. -/
theorem dirLoop_eof (reader : EntryReader readdir more size fetch) (hb : b.length ≤ 16) : ∃ dH' s',
    dirLoop readdir (fuel + 1) E_PSI_GEN_NONE ⟨h, b, name⟩ files ⟨some ⟨E_PSI_FILE_EOF, []⟩ :: rest, log⟩ =
      (some (E_PSI_FILE_EOF, dH', files), s') := by
  have heof : E_PSI_FILE_EOF ≠ E_PSI_GEN_NONE := by decide
  obtain ⟨dH', e', log', hread⟩ := reader.ends b hb h name PlpDirent.new rest log
  rw [dirLoop_succ readdir hread, if_neg heof, dirLoop_failed readdir heof]
  exact ⟨dH', _, rfl⟩

/-- An answer that is not accepted ends the listing. -/
theorem dirLoop_rejected (reader : EntryReader readdir more size fetch) (hb : b.length ≤ 16)
    (hfetch : fetch body = none) : ∃ dH' s',
    dirLoop readdir (fuel + 1) E_PSI_GEN_NONE ⟨h, b, name⟩ files ⟨some ⟨E_PSI_GEN_NONE, body⟩ :: rest, log⟩ =
      (some (E_PSI_GEN_FAIL, dH', files), s') := by
  have hfail : E_PSI_GEN_FAIL ≠ E_PSI_GEN_NONE := by decide
  obtain ⟨dH', e', log', hread⟩ := reader.rejects b hb body hfetch h name PlpDirent.new rest log
  rw [dirLoop_succ readdir hread, if_neg hfail, dirLoop_failed readdir hfail]
  exact ⟨dH', _, rfl⟩

/-- With too little for a record an answer is an entry. -/
theorem dirLoop_short (reader : EntryReader readdir more size fetch) (hb : b.length ≤ 16) {b' : List UInt8}
    (hfetch : fetch body = some b') (hshort : b'.length ≤ 16) : ∃ log',
    dirLoop readdir (fuel + 1) E_PSI_GEN_NONE ⟨h, b, name⟩ files ⟨some ⟨E_PSI_GEN_NONE, body⟩ :: rest, log⟩ =
      dirLoop readdir fuel E_PSI_GEN_NONE ⟨h, b', name⟩ (files ++ [PlpDirent.new]) ⟨rest, log'⟩ := by
  obtain ⟨log', hread⟩ := reader.fetches b hb body b' hfetch h name PlpDirent.new rest log
  rw [if_pos hshort] at hread
  rw [dirLoop_succ readdir hread, if_pos rfl]
  exact ⟨log', rfl⟩

/-- The first record of an answer is read in the round that asks for it. -/
theorem dirLoop_fetched (reader : EntryReader readdir more size fetch) (hb : b.length ≤ 16) {b' : List UInt8}
    (hfetch : fetch body = some b') (hlong : ¬b'.length ≤ 16) : ∃ log',
    dirLoop readdir (fuel + 1) E_PSI_GEN_NONE ⟨h, b, name⟩ files ⟨some ⟨E_PSI_GEN_NONE, body⟩ :: rest, log⟩ =
      dirLoop readdir (fuel + 1) E_PSI_GEN_NONE ⟨h, b', name⟩ files ⟨rest, log'⟩ := by
  obtain ⟨log', hread⟩ := reader.fetches b hb body b' hfetch h name PlpDirent.new rest log
  rw [if_neg hlong] at hread
  exact ⟨log', dirLoop_congr readdir hread⟩

end Round

/-- The listing of the answers up to the end of the directory. -/
theorem dirLoop_listed (reader : EntryReader readdir more size fetch) {bodies : List (List UInt8)}
    (hsize : ∀ body ∈ bodies, ∀ b ∈ fetch body, ∀ s ∈ records more size b.length b, 0 < size s) {fuel : ℕ}
    (hfuel : (bodies.map List.length).sum + bodies.length < fuel) (h : ℕ) {b : List UInt8} (hb : b.length ≤ 16)
    (name : List UInt8) (files : List PlpDirent) (log : List (Request C × Option Response)) : ∃ dH' files' s',
      dirLoop readdir fuel E_PSI_GEN_NONE ⟨h, b, name⟩ files ⟨directory bodies, log⟩ =
        (some ((listed more size fetch bodies).elim E_PSI_GEN_FAIL fun _ => E_PSI_FILE_EOF, dH', files'), s') ∧
      ∀ n ∈ listed more size fetch bodies, files'.length = files.length + n := by
  induction bodies generalizing fuel b files log with
  | nil =>
    obtain ⟨fuel, rfl⟩ := Nat.exists_eq_add_of_lt hfuel
    obtain ⟨dH', s', hloop⟩ := reader.dirLoop_eof _ h name files [] log hb
    refine ⟨dH', files, s', hloop, fun n hn => ?_⟩
    cases hn
    rfl
  | cons body bodies ih =>
    have hrest := fun body' hbody' => hsize body' (List.mem_cons_of_mem _ hbody')
    rw [List.map_cons, List.sum_cons, List.length_cons] at hfuel
    obtain ⟨fuel, rfl⟩ : ∃ k, fuel = k + 1 := Nat.exists_eq_add_one.mpr (Nat.zero_lt_of_lt hfuel)
    rw [listed, directory]
    cases hfetch : fetch body with
    | none =>
      obtain ⟨dH', s', hloop⟩ := reader.dirLoop_rejected fuel h name files (directory bodies) log hb hfetch
      exact ⟨dH', files, s', hloop, fun n hn => by cases hn⟩
    | some b' =>
      have hlength := reader.fetch_length body b' hfetch
      rw [Option.bind_some]
      by_cases hshort : b'.length ≤ 16
      · obtain ⟨log', hround⟩ := reader.dirLoop_short fuel h name files (directory bodies) log hb hfetch hshort
        have hless : (bodies.map List.length).sum + bodies.length < fuel := by omega
        obtain ⟨dH', files', s', hloop, hcount⟩ := ih hrest hless hshort (files ++ [PlpDirent.new]) log'
        rw [if_pos hshort, hround, hloop, Option.elim_map]
        refine ⟨dH', files', s', rfl, fun n hn => ?_⟩
        obtain ⟨n', hn', rfl⟩ := Option.map_eq_some_iff.mp hn
        rw [hcount n' hn', List.length_append, List.length_singleton]
        omega
      · obtain ⟨log', hround⟩ := reader.dirLoop_fetched fuel h name files (directory bodies) log hb hfetch hshort
        have hlengths : (records more size b'.length b').length ≤ b'.length := length_records_le
        obtain ⟨k, hk⟩ : ∃ k, fuel + 1 = (records more size b'.length b').length + (k + 1) :=
          ⟨fuel - (records more size b'.length b').length, by omega⟩
        obtain ⟨files₁, hfiles, hrecords⟩ :=
          reader.dirLoop_records b'.length (k + 1) h b' name files ⟨directory bodies, log'⟩
        rw [if_neg hshort, hround, hk, hrecords]
        by_cases hlong : 16 < (leftover more size b'.length b').length
        · have hmore : ¬more (leftover more size b'.length b') :=
            not_more_leftover (fun hnil => absurd (reader.more_length [] hnil) (by decide)) (Nat.le_refl _)
              (hsize body List.mem_cons_self b' hfetch)
          obtain ⟨dH', hloop⟩ := reader.dirLoop_stopped hlong hmore k h name files₁ ⟨directory bodies, log'⟩
          rw [if_pos hlong, hloop]
          exact ⟨dH', files₁, _, rfl, fun n hn => by cases hn⟩
        · have hless : (bodies.map List.length).sum + bodies.length < k + 1 := by omega
          obtain ⟨dH', files', s', hloop, hcount⟩ := ih hrest hless (Nat.not_lt.mp hlong) files₁ log'
          rw [if_neg hlong, hloop, Option.elim_map]
          refine ⟨dH', files', s', rfl, fun n hn => ?_⟩
          obtain ⟨n', hn', rfl⟩ := Option.map_eq_some_iff.mp hn
          rw [hcount n' hn', hfiles]
          omega

/-- A listing that comes to an end, whatever the number of its rounds. -/
theorem dirLoop_ends (reader : EntryReader readdir more size fetch) {bodies : List (List UInt8)}
    (hsize : ∀ body ∈ bodies, ∀ b ∈ fetch body, ∀ s ∈ records more size b.length b, 0 < size s) {fuel h : ℕ}
    {b : List UInt8} (hb : b.length ≤ 16) {name : List UInt8} {files : List PlpDirent}
    {log : List (Request C × Option Response)} {out : Errs × RFSVDirHandle × List PlpDirent}
    (hloop : (dirLoop readdir fuel E_PSI_GEN_NONE ⟨h, b, name⟩ files ⟨directory bodies, log⟩).1 = some out) :
    out.1 = (listed more size fetch bodies).elim E_PSI_GEN_FAIL (fun _ => E_PSI_FILE_EOF) ∧
      ∀ n ∈ listed more size fetch bodies, out.2.2.length = files.length + n := by
  have hfuel : (bodies.map List.length).sum + bodies.length < fuel + listingFuel bodies := by
    rw [listingFuel]
    omega
  obtain ⟨dH', files', s', hlisted, hcount⟩ := reader.dirLoop_listed hsize hfuel h hb name files log
  rw [← dirLoop_add readdir hloop (listingFuel bodies), hlisted] at hloop
  obtain rfl := Option.some.inj hloop
  exact ⟨rfl, hcount⟩

end EntryReader

/-- A string is shorter than the memory if it ends in there. -/
theorem length_cString_lt_iff (s : List UInt8) : (cString s).length < s.length ↔ 0 ∈ s := by
  induction s with
  | nil => exact iff_of_false (Nat.not_lt_zero _) List.not_mem_nil
  | cons c s ih =>
    by_cases hc : c = 0
    · subst hc
      exact iff_of_true (Nat.zero_lt_succ _) List.mem_cons_self
    · have hne : (c != 0) = true := bne_iff_ne.mpr hc
      rw [cString, List.takeWhile_cons_of_pos (p := (· != 0)) hne, List.length_cons, List.length_cons,
        Nat.succ_lt_succ_iff, List.mem_cons]
      rw [cString] at ih
      exact ih.trans ⟨Or.inr, fun h => h.resolve_left (Ne.symm hc)⟩

/-- What is discarded first, and what is discarded after that. -/
theorem discardsInside_cons (d : ℤ × ℕ) (discards : List (ℤ × ℕ)) :
    DiscardsInside (d :: discards) ↔ (0 ≤ d.1 ∧ d.1 ≤ d.2) ∧ DiscardsInside discards :=
  List.forall_mem_cons

/-- Discards one after the other. -/
theorem discardsInside_append (discards₁ discards₂ : List (ℤ × ℕ)) :
    DiscardsInside (discards₁ ++ discards₂) ↔ DiscardsInside discards₁ ∧ DiscardsInside discards₂ :=
  List.forall_mem_append

/-- No discards. -/
theorem discardsInside_nil : DiscardsInside [] := fun _ h => by cases h

/-- The count is a 32-bit number. -/
theorem uint32_add_eq_iff (initial : UInt32) (n : ℕ) :
    uint32 (initial.toNat + n : ℕ) = n ↔ initial = 0 ∧ n < 2 ^ 32 := by
  have hlt := initial.toNat_lt
  have hzero : initial = 0 ↔ initial.toNat = 0 := UInt32.toNat_inj.symm
  rw [uint32, hzero]
  omega

end RFSV

open RFSV

/-! ### SIBO -/

namespace RFSV16

/-- What is kept of an answer, which begins with the number of its other bytes. -/
def fetch (body : List UInt8) : Option (List UInt8) :=
  if (body.drop 2).length = getWord body 0 then some (body.drop 2) else none

/-- Another entry begins, in the version that is understood. -/
def more (b : List UInt8) : Prop := 16 < b.length ∧ getWord b 0 = 2

instance : DecidablePred more := fun b => inferInstanceAs (Decidable (16 < b.length ∧ getWord b 0 = 2))

/-- The length of an entry with its name and the byte behind that. -/
def size (b : List UInt8) : ℕ := 17 + (cString (b.drop 16)).length

/-- Each entry has a length. -/
theorem size_pos (b : List UInt8) : 0 < size b := by
  rw [size]
  omega

/-- An entry that begins is taken. -/
theorem nextEntry_of_more (dH : RFSVDirHandle) (h : more dH.b) (e : PlpDirent) : ∃ e',
    nextEntry E_PSI_GEN_NONE dH e = (E_PSI_GEN_NONE, { dH with b := dH.b.drop (size dH.b) }, e') := by
  have hmore : E_PSI_GEN_NONE = E_PSI_GEN_NONE ∧ dH.b.length > 16 := ⟨rfl, h.1⟩
  rw [nextEntry, if_pos hmore, if_neg (not_not_intro h.2)]
  exact ⟨_, rfl⟩

/-- An entry of another version is an error. -/
theorem nextEntry_of_version (dH : RFSVDirHandle) (hlong : 16 < dH.b.length) (h : getWord dH.b 0 ≠ 2)
    (e : PlpDirent) : nextEntry E_PSI_GEN_NONE dH e = (E_PSI_GEN_FAIL, dH, e) := by
  have hmore : E_PSI_GEN_NONE = E_PSI_GEN_NONE ∧ dH.b.length > 16 := ⟨rfl, hlong⟩
  rw [nextEntry, if_pos hmore, if_pos h]

/-- What is left is enough for an entry. -/
theorem readdir_of_long {σ : Type} (answer : Device σ Commands) {b : List UInt8} (h : 16 < b.length) (handle : ℕ)
    (name : List UInt8) (e : PlpDirent) (s : Session σ (Request Commands) (Option Response)) :
    readdir answer ⟨handle, b, name⟩ e s = (nextEntry E_PSI_GEN_NONE ⟨handle, b, name⟩ e, s) := by
  have hlong : ¬b.length < 17 := by omega
  rw [readdir, if_neg hlong]
  rfl

/-- An answer of the device, in the place of what is left. -/
theorem readdir_of_short {b : List UInt8} (h : b.length ≤ 16) (handle : ℕ) (name : List UInt8) (e : PlpDirent)
    (a : Response) (rest : List (Option Response)) (log : List (Request Commands × Option Response)) : ∃ log',
    readdir script ⟨handle, b, name⟩ e ⟨some a :: rest, log⟩ =
      (if a.status = E_PSI_GEN_NONE then
          (if (a.data.drop 2).length ≠ getWord a.data 0 then (E_PSI_GEN_FAIL, ⟨handle, a.data.drop 2, name⟩, e)
          else nextEntry a.status ⟨handle, a.data.drop 2, name⟩ e)
        else nextEntry a.status ⟨handle, a.data, name⟩ e, ⟨rest, log'⟩) := by
  have hshort : b.length < 17 := by omega
  rw [readdir, if_pos hshort, Dialogue.bind_apply]
  refine ⟨log ++ [(⟨.SIBO_FDIRREAD, wordBytes (handle &&& 0xffff : ℕ)⟩, some a)], ?_⟩
  dsimp only [sendCommand, Dialogue.ask_apply, script]
  split
  · split <;> rfl
  · rfl

/-- What is left is too short for an entry. -/
theorem nextEntry_of_short {b : List UInt8} (h : b.length ≤ 16) (res : Errs) (handle : ℕ) (name : List UInt8)
    (e : PlpDirent) : nextEntry res ⟨handle, b, name⟩ e = (res, ⟨handle, b, name⟩, e) :=
  if_neg fun hmore => absurd hmore.2 (Nat.not_lt.mpr h)

/-- How this protocol reads entries. -/
theorem entryReader : EntryReader (readdir script) more size fetch where
  more_length b h := h.1
  fetch_length body b h := by
    rw [fetch, Option.mem_def, Option.ite_none_right_eq_some] at h
    rw [← Option.some.inj h.2, List.length_drop]
    exact Nat.sub_le _ _
  reads b h handle name e s := by
    obtain ⟨e', hentry⟩ := nextEntry_of_more ⟨handle, b, name⟩ h e
    rw [readdir_of_long script h.1, hentry]
    exact ⟨e', rfl⟩
  stops b hlong h handle name e s := by
    have hversion : getWord b 0 ≠ 2 := fun hversion => h ⟨hlong, hversion⟩
    rw [readdir_of_long script hlong, nextEntry_of_version ⟨handle, b, name⟩ hlong hversion]
    exact ⟨_, _, rfl⟩
  rejects b hb body h handle name e rest log := by
    obtain ⟨log', hread⟩ := readdir_of_short hb handle name e ⟨E_PSI_GEN_NONE, body⟩ rest log
    rw [fetch, ite_eq_right_iff] at h
    have hlength : (body.drop 2).length ≠ getWord body 0 := fun heq => Option.some_ne_none _ (h heq)
    rw [if_pos rfl, if_pos hlength] at hread
    exact ⟨_, _, log', hread⟩
  fetches b hb body b' h handle name e rest log := by
    obtain ⟨log', hread⟩ := readdir_of_short hb handle name e ⟨E_PSI_GEN_NONE, body⟩ rest log
    rw [fetch, Option.mem_def, Option.ite_none_right_eq_some] at h
    obtain ⟨hlength, h⟩ := h
    obtain rfl := Option.some.inj h
    rw [if_pos rfl, if_neg (not_not_intro hlength)] at hread
    refine ⟨log', hread.trans ?_⟩
    split
    case isTrue hshort => rw [nextEntry_of_short hshort]
    case isFalse hlong => rw [readdir_of_long script (Nat.not_le.mp hlong)]
  ends b hb handle name e rest log := by
    obtain ⟨log', hread⟩ := readdir_of_short hb handle name e ⟨E_PSI_FILE_EOF, []⟩ rest log
    exact ⟨_, _, log', hread⟩

/-- A directory is counted by listing it. -/
theorem dircount_eq {σ : Type} (answer : Device σ Commands) (fuel : ℕ) (name : List UInt8) (uninit count : ℕ)
    (s : Session σ (Request Commands) (Option Response)) :
    (dircount answer fuel name uninit count s).1 =
      (dir answer fuel name uninit s).1.map fun out => (out.1, uint32 (count + out.2.length)) := by
  rw [dircount, dir, Dialogue.bind_apply, Dialogue.bind_apply]
  rcases opendir answer name uninit s with ⟨⟨res, dH⟩, s₁⟩
  dsimp only
  rw [Dialogue.bind_apply, Dialogue.bind_apply]
  rcases dirLoop (readdir answer) fuel res dH [] s₁ with ⟨_ | ⟨res₂, dH₂, files⟩, s₂⟩
  · rfl
  · rfl

/-- A listing is its loop, with the end of the directory for success. -/
theorem dir_eq {σ : Type} (answer : Device σ Commands) {name : List UInt8} {uninit : ℕ} {res : Errs}
    {dH : RFSVDirHandle} {s s' : Session σ (Request Commands) (Option Response)}
    (hopen : opendir answer name uninit s = ((res, dH), s')) (fuel : ℕ) :
    (dir answer fuel name uninit s).1 =
      (dirLoop (readdir answer) fuel res dH [] s').1.map fun out => (unlessEof out.1, out.2.2) := by
  rw [dir, Dialogue.bind_apply, hopen]
  dsimp only
  rw [Dialogue.bind_apply]
  rcases dirLoop (readdir answer) fuel res dH [] s' with ⟨_ | ⟨res₂, dH₂, files⟩, s₂⟩
  · rfl
  · rfl

/-- A directory that is opened. -/
theorem opendir_script (name opened : List UInt8) (uninit : ℕ) (rest : List (Option Response))
    (log : List (Request Commands × Option Response)) :
    opendir script name uninit ⟨some ⟨E_PSI_GEN_NONE, opened⟩ :: rest, log⟩ =
      ((E_PSI_GEN_NONE, ⟨getWord opened 0, [], name⟩),
        ⟨rest, log ++ [(⟨.SIBO_FOPEN, openData P_FDIR name⟩, some ⟨E_PSI_GEN_NONE, opened⟩)]⟩) := rfl

/-- How many bytes are discarded at a time, and how many there are. -/
def discards : List (List UInt8) → List (ℤ × ℕ)
  | [] => []
  | body :: bodies => (2, body.length) :: (fetch body).elim [] fun b =>
    (records more size b.length b).map (fun s => ((size s : ℤ), s.length)) ++
      if 16 < (leftover more size b.length b).length then [] else discards bodies

/-- The answers that the listing comes to have a count, and a zero byte behind each name. -/
def Terminated : List (List UInt8) → Prop
  | [] => True
  | body :: bodies => 2 ≤ body.length ∧ ∀ b ∈ fetch body,
    (∀ s ∈ records more size b.length b, 0 ∈ s.drop 16) ∧
      ((leftover more size b.length b).length ≤ 16 → Terminated bodies)

/-- Counting on top of `initial` agrees with the listing, and both stay inside what they have. -/
def CountsEntries (name opened : List UInt8) (uninit : ℕ) (initial : UInt32) (bodies : List (List UInt8)) : Prop :=
  (∃ fuel, CountsAsListed (dircount script fuel name uninit initial.toNat ⟨answers opened bodies, []⟩).1
    (dir script fuel name uninit ⟨answers opened bodies, []⟩).1) ∧ DiscardsInside (discards bodies)

/-- An entry is inside what is left when its name ends there. -/
theorem size_le_iff {s : List UInt8} (hs : more s) : size s ≤ s.length ↔ 0 ∈ s.drop 16 := by
  rw [← length_cString_lt_iff, List.length_drop, size]
  have hlength := hs.1
  omega

/-- The names of the entries end inside. -/
theorem discardsInside_records (fuel : ℕ) (b : List UInt8) :
    DiscardsInside ((records more size fuel b).map fun s => ((size s : ℤ), s.length)) ↔
      ∀ s ∈ records more size fuel b, 0 ∈ s.drop 16 := by
  rw [DiscardsInside, List.forall_mem_map]
  refine forall₂_congr fun s hs => ?_
  rw [← size_le_iff (more_of_mem_records hs), Int.ofNat_le]
  exact and_iff_right (Int.natCast_nonneg _)

/-- All discards are inside just when all names end there. -/
theorem discardsInside_iff (bodies : List (List UInt8)) : DiscardsInside (discards bodies) ↔ Terminated bodies := by
  induction bodies with
  | nil => exact iff_of_true discardsInside_nil trivial
  | cons body bodies ih =>
    have hcount : (0 ≤ (2 : ℤ) ∧ (2 : ℤ) ≤ (body.length : ℤ)) ↔ 2 ≤ body.length := by omega
    rw [discards, Terminated, discardsInside_cons, hcount]
    refine and_congr_right fun _ => ?_
    cases fetch body with
    | none => exact iff_of_true discardsInside_nil fun _ h => by cases h
    | some b =>
      rw [Option.elim_some, discardsInside_append, discardsInside_records]
      simp only [Option.mem_some_iff, forall_eq']
      refine and_congr_right fun _ => ?_
      by_cases hlong : 16 < (leftover more size b.length b).length
      · rw [if_pos hlong]
        exact iff_of_true discardsInside_nil fun hshort => absurd hlong (Nat.not_lt.mpr hshort)
      · rw [if_neg hlong, ih, imp_iff_right (Nat.not_lt.mp hlong)]

/-- The count is that of the listing, just under this condition. -/
theorem countsAsListed_iff (name opened : List UInt8) (uninit : ℕ) (initial : UInt32) (bodies : List (List UInt8)) :
    (∃ fuel, CountsAsListed (dircount script fuel name uninit initial.toNat ⟨answers opened bodies, []⟩).1
        (dir script fuel name uninit ⟨answers opened bodies, []⟩).1) ↔
      ∀ n ∈ listed more size fetch bodies, initial = 0 ∧ n < 2 ^ 32 := by
  have hopen := opendir_script name opened uninit (directory bodies) []
  have hsize : ∀ body ∈ bodies, ∀ b ∈ fetch body, ∀ s ∈ records more size b.length b, 0 < size s :=
    fun _ _ _ _ s _ => size_pos s
  have hnil : ([] : List UInt8).length ≤ 16 := Nat.zero_le 16
  constructor
  · rintro ⟨fuel, res, count, hcounted, hsuccess⟩ n hn
    rw [answers, dircount_eq, Option.map_eq_some_iff] at hcounted
    obtain ⟨⟨res', files⟩, hdir, hcounted⟩ := hcounted
    have hloop := hdir
    rw [dir_eq script hopen, Option.map_eq_some_iff] at hloop
    obtain ⟨out, hloop, hout⟩ := hloop
    obtain ⟨hres, hlength⟩ := entryReader.dirLoop_ends hsize hnil hloop
    rw [hn] at hres
    obtain ⟨rfl, rfl⟩ := Prod.mk.inj hout
    obtain ⟨rfl, rfl⟩ := Prod.mk.inj hcounted
    obtain ⟨files', hlisted, hfiles⟩ := hsuccess (by rw [hres]; rfl)
    rw [answers, hdir] at hlisted
    obtain ⟨-, rfl⟩ := Prod.mk.inj (Option.some.inj hlisted)
    rw [hlength n hn, List.length_nil, Nat.zero_add] at hfiles
    exact (uint32_add_eq_iff initial n).mp hfiles
  · intro h
    obtain ⟨dH', files, s', hloop, hlength⟩ := entryReader.dirLoop_listed hsize
      (Nat.lt_succ_self ((bodies.map List.length).sum + bodies.length)) (getWord opened 0) hnil name []
      [(⟨.SIBO_FOPEN, openData P_FDIR name⟩, some ⟨E_PSI_GEN_NONE, opened⟩)]
    refine ⟨listingFuel bodies, ?_⟩
    have hdir := dir_eq script hopen (listingFuel bodies)
    rw [listingFuel, List.nil_append, hloop, Option.map_some] at hdir
    rw [answers, dircount_eq, listingFuel, hdir, Option.map_some]
    refine ⟨_, _, rfl, fun hsuccess => ⟨files, congrArg (fun r => some (r, files)) hsuccess, ?_⟩⟩
    cases hlisted : listed more size fetch bodies with
    | none =>
      rw [hlisted] at hsuccess
      have hfail : unlessEof E_PSI_GEN_FAIL ≠ E_PSI_GEN_NONE := by decide
      exact absurd hsuccess hfail
    | some n =>
      have hn : n ∈ listed more size fetch bodies := hlisted
      have hfiles : files.length = n := (hlength n hn).trans (Nat.zero_add n)
      dsimp only
      rw [hfiles]
      exact (uint32_add_eq_iff initial n).mpr (h n hn)

/-- The entries are counted just under this condition. -/
theorem countsEntries_iff (name opened : List UInt8) (uninit : ℕ) (initial : UInt32) (bodies : List (List UInt8)) :
    CountsEntries name opened uninit initial bodies ↔
      (∀ n ∈ listed more size fetch bodies, initial = 0 ∧ n < 2 ^ 32) ∧ Terminated bodies :=
  and_congr (countsAsListed_iff name opened uninit initial bodies) (discardsInside_iff bodies)

end RFSV16

/-! ### EPOC -/

namespace RFSV32

/-- Another entry begins. -/
def more (b : List UInt8) : Prop := 16 < b.length

instance : DecidablePred more := fun b => inferInstanceAs (Decidable (16 < b.length))

/-- How much of what is left is discarded behind an entry. -/
def size (b : List UInt8) : ℕ := (recordLen b).toNat

/-- An entry that begins is taken. -/
theorem nextEntry_of_more {b : List UInt8} (h : more b) (handle : ℕ) (name : List UInt8) (e : PlpDirent) : ∃ e',
    nextEntry E_PSI_GEN_NONE ⟨handle, b, name⟩ e = (E_PSI_GEN_NONE, ⟨handle, b.drop (size b), name⟩, e') := by
  rw [nextEntry, if_pos ⟨rfl, h⟩, size]
  exact ⟨_, rfl⟩

/-- What is left is too short for an entry. -/
theorem nextEntry_of_short {b : List UInt8} (h : b.length ≤ 16) (res : Errs) (handle : ℕ) (name : List UInt8)
    (e : PlpDirent) : nextEntry res ⟨handle, b, name⟩ e = (res, ⟨handle, b, name⟩, e) :=
  if_neg fun hmore => absurd hmore.2 (Nat.not_lt.mpr h)

/-- What is left is enough for an entry. -/
theorem readdir_of_long {σ : Type} (answer : Device σ Commands) {b : List UInt8} (h : 16 < b.length) (handle : ℕ)
    (name : List UInt8) (e : PlpDirent) (s : Session σ (Request Commands) (Option Response)) :
    readdir answer ⟨handle, b, name⟩ e s = (nextEntry E_PSI_GEN_NONE ⟨handle, b, name⟩ e, s) := by
  have hlong : ¬b.length < 17 := by omega
  rw [readdir, if_neg hlong]
  rfl

/-- An answer of the device, in the place of what is left. -/
theorem readdir_of_short {b : List UInt8} (h : b.length ≤ 16) (handle : ℕ) (name : List UInt8) (e : PlpDirent)
    (a : Response) (rest : List (Option Response)) (log : List (Request Commands × Option Response)) : ∃ log',
    readdir script ⟨handle, b, name⟩ e ⟨some a :: rest, log⟩ =
      (nextEntry a.status ⟨handle, a.data, name⟩ e, ⟨rest, log'⟩) := by
  have hshort : b.length < 17 := by omega
  rw [readdir, if_pos hshort, Dialogue.bind_apply]
  exact ⟨log ++ [(⟨.READ_DIR, dwordBytes handle⟩, some a)], rfl⟩

/-- How this protocol reads entries. -/
theorem entryReader : EntryReader (readdir script) more size some where
  more_length b h := h
  fetch_length body b h := by
    obtain rfl := Option.some.inj h
    exact Nat.le_refl _
  reads b h handle name e s := by
    obtain ⟨e', hentry⟩ := nextEntry_of_more h handle name e
    rw [readdir_of_long script h, hentry]
    exact ⟨e', rfl⟩
  stops b hlong h := absurd hlong h
  rejects b hb body h := by cases h
  fetches b hb body b' h handle name e rest log := by
    obtain rfl := Option.some.inj h
    obtain ⟨log', hread⟩ := readdir_of_short hb handle name e ⟨E_PSI_GEN_NONE, body⟩ rest log
    refine ⟨log', hread.trans ?_⟩
    split
    case isTrue hshort => rw [nextEntry_of_short hshort]
    case isFalse hlong => rw [readdir_of_long script (Nat.not_le.mp hlong)]
  ends b hb handle name e rest log := by
    obtain ⟨log', hread⟩ := readdir_of_short hb handle name e ⟨E_PSI_FILE_EOF, []⟩ rest log
    have hnil : ([] : List UInt8).length ≤ 16 := Nat.zero_le 16
    rw [nextEntry_of_short hnil] at hread
    exact ⟨_, _, log', hread⟩

/-- A listing is its loop, with the end of the directory for success. -/
theorem dir_eq {σ : Type} (answer : Device σ Commands) {name : List UInt8} {uninit : ℕ} {res : Errs}
    {dH : RFSVDirHandle} {s s' : Session σ (Request Commands) (Option Response)}
    (hopen : opendir answer (PSI_A_HIDDEN ||| PSI_A_SYSTEM ||| PSI_A_DIR) name uninit s = ((res, dH), s'))
    (fuel : ℕ) :
    (dir answer fuel name uninit s).1 = (dirLoop (readdir answer) fuel res dH [] s').1.map
      fun out => (if out.1 = E_PSI_FILE_EOF then E_PSI_GEN_NONE else out.1, out.2.2) := by
  rw [dir, Dialogue.bind_apply, hopen]
  dsimp only
  rw [Dialogue.bind_apply]
  rcases dirLoop (readdir answer) fuel res dH [] s' with ⟨_ | ⟨res₂, dH₂, files⟩, s₂⟩
  · rfl
  · rfl

/-- The request that opens a directory. -/
def dirRequest (name : List UInt8) : Request Commands :=
  ⟨.OPEN_DIR, openData ((EPOC_ATTR_HIDDEN ||| EPOC_ATTR_SYSTEM ||| EPOC_ATTR_DIRECTORY) ||| EPOC_ATTR_GETUID) name⟩

/-- The handle of a directory that could be opened. -/
def openedHandle (opened : List UInt8) (uninit : ℕ) : ℕ := if opened.length = 4 then getDWord opened 0 else uninit

/-- A directory that is opened. -/
theorem fopendir_script (name opened : List UInt8) (uninit : ℕ) (rest : List (Option Response))
    (log : List (Request Commands × Option Response)) :
    fopendir script (EPOC_ATTR_HIDDEN ||| EPOC_ATTR_SYSTEM ||| EPOC_ATTR_DIRECTORY) name uninit
        ⟨some ⟨E_PSI_GEN_NONE, opened⟩ :: rest, log⟩ =
      ((E_PSI_GEN_NONE, openedHandle opened uninit),
        ⟨rest, log ++ [(dirRequest name, some ⟨E_PSI_GEN_NONE, opened⟩)]⟩) := by
  rw [fopendir, openWith, Dialogue.bind_apply, openedHandle]
  dsimp only [sendCommand, Dialogue.ask_apply, script]
  by_cases hlength : opened.length = 4
  · rw [if_pos ⟨rfl, hlength⟩, if_pos hlength]
    rfl
  · rw [if_neg fun h => hlength h.2, if_neg hlength]
    rfl

/-- A directory that is opened. -/
theorem opendir_script (name opened : List UInt8) (uninit : ℕ) (rest : List (Option Response))
    (log : List (Request Commands × Option Response)) :
    opendir script (PSI_A_HIDDEN ||| PSI_A_SYSTEM ||| PSI_A_DIR) name uninit
        ⟨some ⟨E_PSI_GEN_NONE, opened⟩ :: rest, log⟩ =
      ((E_PSI_GEN_NONE, ⟨openedHandle opened uninit, [], name⟩),
        ⟨rest, log ++ [(dirRequest name, some ⟨E_PSI_GEN_NONE, opened⟩)]⟩) := by
  have hattr : std2attr (PSI_A_HIDDEN ||| PSI_A_SYSTEM ||| PSI_A_DIR) =
      EPOC_ATTR_HIDDEN ||| EPOC_ATTR_SYSTEM ||| EPOC_ATTR_DIRECTORY := by decide
  rw [opendir, Dialogue.bind_apply, hattr, fopendir_script]
  rfl

/-- The count of a directory that could be opened. -/
theorem dircount_eq {σ : Type} (answer : Device σ Commands) {name : List UInt8} {uninit handle : ℕ}
    {s s' : Session σ (Request Commands) (Option Response)}
    (hopen : fopendir answer (EPOC_ATTR_HIDDEN ||| EPOC_ATTR_SYSTEM ||| EPOC_ATTR_DIRECTORY) name uninit s =
      ((E_PSI_GEN_NONE, handle), s')) (fuel : ℕ) :
    (dircount answer fuel name uninit s).1 = (dircountLoop answer fuel handle fuel 0 s').1.map fun out =>
      (if out.1 = false ∧ out.2.1 = E_PSI_FILE_EOF then E_PSI_GEN_NONE else out.2.1, out.2.2) := by
  rw [dircount, Dialogue.bind_apply, hopen]
  dsimp only
  rw [if_neg (not_not_intro rfl), Dialogue.bind_apply]
  rcases dircountLoop answer fuel handle fuel 0 s' with ⟨_ | ⟨unsent, res, count⟩, s₂⟩
  · rfl
  · cases unsent with
    | false => by_cases heof : res = E_PSI_FILE_EOF <;> simp [heof]
    | true => rfl

/-! #### The records of an answer -/

/-- A record is counted. -/
theorem countRecords_of_more {b : List UInt8} (h : more b) (fuel count : ℕ) :
    countRecords (fuel + 1) b count = countRecords fuel (b.drop (size b)) (uint32 (count + 1)) := by
  rw [countRecords, size]
  exact if_pos h

/-- No record is left to be counted. -/
theorem countRecords_of_not_more {b : List UInt8} (h : ¬more b) (fuel count : ℕ) :
    countRecords fuel b count = some count := by
  cases fuel <;> exact if_neg h

/-- A record without a length is counted again and again. -/
theorem countRecords_of_size {b : List UInt8} (h : more b) (hsize : size b = 0) (fuel count : ℕ) :
    countRecords fuel b count = none := by
  induction fuel generalizing count with
  | zero => exact if_pos h
  | succ fuel ih => rw [countRecords_of_more h, hsize, List.drop_zero, ih]

/-- Cutting off once more makes no difference. -/
theorem uint32_uint32_add (a : ℤ) (n : ℕ) : uint32 (uint32 a + n : ℕ) = uint32 (a + n) := by
  rw [uint32, uint32, uint32]
  omega

/-- An answer is counted when each of its records has a length. -/
theorem countRecords_iff {fuel k : ℕ} {b : List UInt8} (hk : b.length ≤ k) {count c : ℕ} (hcount : count < 2 ^ 32) :
    countRecords fuel b count = some c ↔ (records more size k b).length ≤ fuel ∧
      (∀ s ∈ records more size k b, 0 < size s) ∧ uint32 (count + (records more size k b).length : ℕ) = c := by
  induction k generalizing fuel b count with
  | zero =>
    have hmore : ¬more b := fun hmore => absurd (Nat.lt_of_lt_of_le hmore hk) (Nat.not_lt_zero 16)
    rw [countRecords_of_not_more hmore, records_of_not_more hmore, List.length_nil, Nat.add_zero, uint32_of_lt hcount,
      Option.some_inj]
    exact ⟨fun h => ⟨Nat.zero_le fuel, nofun, h⟩, fun h => h.2.2⟩
  | succ k ih =>
    by_cases hmore : more b
    · rw [records_of_more hmore, List.length_cons, List.forall_mem_cons]
      by_cases hsize : size b = 0
      · rw [countRecords_of_size hmore hsize]
        exact iff_of_false nofun fun h => absurd hsize (Nat.ne_of_gt h.2.1.1)
      · cases fuel with
        | zero =>
          have hnone : countRecords 0 b count = none := if_pos hmore
          rw [hnone]
          exact iff_of_false nofun fun h => absurd h.1 (Nat.not_succ_le_zero _)
        | succ fuel =>
          have hdrop : (b.drop (size b)).length ≤ k := by
            rw [List.length_drop]
            omega
          have hsum (n : ℕ) : uint32 (uint32 (count + 1) + n : ℕ) = uint32 (count + (n + 1) : ℕ) := by
            rw [uint32_uint32_add]
            exact congrArg uint32 (by omega)
          rw [countRecords_of_more hmore, ih hdrop (uint32_lt _), Nat.succ_le_succ_iff,
            and_iff_right (Nat.pos_of_ne_zero hsize), hsum]
    · rw [countRecords_of_not_more hmore, records_of_not_more hmore, List.length_nil, Nat.add_zero,
        uint32_of_lt hcount, Option.some_inj]
      exact ⟨fun h => ⟨Nat.zero_le fuel, nofun, h⟩, fun h => h.2.2⟩

/-- How many records the answers have. -/
def entries (bodies : List (List UInt8)) : ℕ :=
    (bodies.map fun body => (records more size body.length body).length).sum

/-- Every record of the answers has a length. -/
def Advancing (bodies : List (List UInt8)) : Prop :=
    ∀ body ∈ bodies, ∀ s ∈ records more size body.length body, 0 < size s

/-- The records of one answer more. -/
theorem entries_cons (body : List UInt8) (bodies : List (List UInt8)) :
    entries (body :: bodies) = (records more size body.length body).length + entries bodies := by
  rw [entries, List.map_cons, List.sum_cons]
  rfl

/-- One answer more. -/
theorem advancing_cons (body : List UInt8) (bodies : List (List UInt8)) :
    Advancing (body :: bodies) ↔ (∀ s ∈ records more size body.length body, 0 < size s) ∧ Advancing bodies :=
  List.forall_mem_cons

/-- The same with the answers as they are fetched. -/
theorem advancing_iff {bodies : List (List UInt8)} : Advancing bodies ↔
    ∀ body ∈ bodies, ∀ b ∈ some body, ∀ s ∈ records more size b.length b, 0 < size s :=
  ⟨fun h body hbody b hb s hs => h body hbody s (by cases hb; exact hs), fun h body hbody => h body hbody body rfl⟩

/-- The count of the answers up to the end of the directory. -/
theorem dircountLoop_iff {inner handle fuel count : ℕ} (hcount : count < 2 ^ 32) {bodies : List (List UInt8)}
    {log : List (Request Commands × Option Response)} {out : Bool × Errs × ℕ} :
    (dircountLoop script inner handle fuel count ⟨directory bodies, log⟩).1 = some out ↔
      bodies.length < fuel ∧ (∀ body ∈ bodies, (records more size body.length body).length ≤ inner) ∧
        Advancing bodies ∧ (false, E_PSI_FILE_EOF, uint32 (count + entries bodies : ℕ)) = out := by
  induction bodies generalizing fuel count log with
  | nil =>
    cases fuel with
    | zero =>
      rw [dircountLoop]
      exact iff_of_false nofun fun h => absurd h.1 (Nat.not_lt_zero _)
    | succ fuel =>
      have hentries : uint32 (count + entries [] : ℕ) = count := uint32_of_lt hcount
      have heof : (dircountLoop script inner handle (fuel + 1) count ⟨directory [], log⟩).1 =
          some (false, E_PSI_FILE_EOF, count) := rfl
      rw [heof, hentries, Option.some_inj]
      exact ⟨fun h => ⟨Nat.zero_lt_succ fuel, nofun, nofun, h⟩, fun h => h.2.2.2⟩
  | cons body bodies ih =>
    cases fuel with
    | zero =>
      rw [dircountLoop]
      exact iff_of_false nofun fun h => absurd h.1 (Nat.not_lt_zero _)
    | succ fuel =>
      have hround : (dircountLoop script inner handle (fuel + 1) count ⟨directory (body :: bodies), log⟩).1 =
          (countRecords inner body count).elim none fun count => (dircountLoop script inner handle fuel count
            ⟨directory bodies, log ++ [(⟨.READ_DIR, dwordBytes handle⟩, some ⟨E_PSI_GEN_NONE, body⟩)]⟩).1 := by
        rw [dircountLoop, Dialogue.bind_apply]
        dsimp only [sendCommand, Dialogue.ask_apply, script, directory]
        rw [if_neg (not_not_intro rfl)]
        cases countRecords inner body count <;> rfl
      have hsum (n m : ℕ) : uint32 (uint32 (count + n : ℕ) + m : ℕ) = uint32 (count + (n + m) : ℕ) := by
        rw [uint32_uint32_add]
        exact congrArg uint32 (by omega)
      rw [hround, entries_cons, advancing_cons, List.forall_mem_cons, List.length_cons, Nat.succ_lt_succ_iff]
      constructor
      · intro h
        cases hrecords : countRecords inner body count with
        | none =>
          rw [hrecords] at h
          cases h
        | some c =>
          obtain ⟨hinner, hsize, rfl⟩ := (countRecords_iff (Nat.le_refl _) hcount).mp hrecords
          rw [hrecords] at h
          obtain ⟨hfuel, hinners, hsizes, rfl⟩ := (ih (uint32_lt _)).mp h
          exact ⟨hfuel, ⟨hinner, hinners⟩, ⟨hsize, hsizes⟩, by rw [hsum]⟩
      · rintro ⟨hfuel, ⟨hinner, hinners⟩, ⟨hsize, hsizes⟩, rfl⟩
        rw [(countRecords_iff (Nat.le_refl _) hcount).mpr ⟨hinner, hsize, rfl⟩]
        exact (ih (uint32_lt _)).mpr ⟨hfuel, hinners, hsizes, by rw [hsum]⟩

/-- Where every record has a length, the listing has an entry for each, and one for each answer without a record. -/
theorem listed_of_advancing {bodies : List (List UInt8)} (h : Advancing bodies) : ∃ n,
    listed more size some bodies = some n ∧ entries bodies ≤ n ∧ (n = entries bodies ↔ ∀ body ∈ bodies, 16 < body.length) := by
  induction bodies with
  | nil => exact ⟨0, rfl, Nat.le_refl 0, iff_of_true rfl nofun⟩
  | cons body bodies ih =>
    obtain ⟨hsize, hsizes⟩ := (advancing_cons body bodies).mp h
    obtain ⟨n, hlisted, hle, hiff⟩ := ih hsizes
    rw [listed, Option.bind_some, hlisted, entries_cons, List.forall_mem_cons]
    by_cases hshort : body.length ≤ 16
    · have hmore : ¬more body := Nat.not_lt.mpr hshort
      rw [if_pos hshort, records_of_not_more hmore, List.length_nil]
      refine ⟨n + 1, rfl, by omega, iff_of_false (by omega) fun hlong => absurd hlong.1 hmore⟩
    · have hmore : ¬more (leftover more size body.length body) :=
        not_more_leftover (fun hnil => absurd hnil (Nat.not_lt_zero 16)) (Nat.le_refl _) hsize
      have hleft : ¬16 < (leftover more size body.length body).length := hmore
      rw [if_neg hshort, if_neg hleft, and_iff_right (Nat.not_le.mp hshort), ← hiff]
      exact ⟨n + (records more size body.length body).length, rfl, by omega, by omega⟩

section Opened

variable {name opened : List UInt8} {uninit : ℕ} {bodies : List (List UInt8)}

/-- The count of a directory comes to an end when every record has a length and the fuel is enough. -/
theorem dircount_iff {fuel : ℕ} {out : Errs × ℕ} :
    (dircount script fuel name uninit ⟨answers opened bodies, []⟩).1 = some out ↔
      bodies.length < fuel ∧ (∀ body ∈ bodies, (records more size body.length body).length ≤ fuel) ∧
        Advancing bodies ∧ (E_PSI_GEN_NONE, uint32 (entries bodies)) = out := by
  rw [answers, dircount_eq script (fopendir_script name opened uninit (directory bodies) []), Option.map_eq_some_iff]
  constructor
  · rintro ⟨counted, hcounted, rfl⟩
    obtain ⟨hfuel, hinner, hadvancing, rfl⟩ := (dircountLoop_iff (by decide)).mp hcounted
    refine ⟨hfuel, hinner, hadvancing, ?_⟩
    rw [Nat.zero_add]
    rfl
  · rintro ⟨hfuel, hinner, hadvancing, rfl⟩
    refine ⟨(false, E_PSI_FILE_EOF, uint32 (0 + entries bodies : ℕ)), ?_, ?_⟩
    · exact (dircountLoop_iff (by decide)).mpr ⟨hfuel, hinner, hadvancing, rfl⟩
    · rw [Nat.zero_add]
      rfl

/-- There is enough fuel for the records of each answer. -/
theorem length_records_le_listingFuel : ∀ body ∈ bodies,
    (records more size body.length body).length ≤ listingFuel bodies :=
  fun body hbody =>
    calc (records more size body.length body).length ≤ body.length := length_records_le
      _ ≤ (bodies.map List.length).sum := List.single_le_sum (fun _ _ => Nat.zero_le _) _ (List.mem_map_of_mem hbody)
      _ ≤ listingFuel bodies := by
        rw [listingFuel]
        omega

/-- Where every record has a length, the listing comes to the end of the directory. -/
theorem dir_of_advancing (h : Advancing bodies) : ∃ files,
    (dir script (listingFuel bodies) name uninit ⟨answers opened bodies, []⟩).1 = some (E_PSI_GEN_NONE, files) := by
  have hnil : ([] : List UInt8).length ≤ 16 := Nat.zero_le 16
  obtain ⟨n, hlisted, -⟩ := listed_of_advancing h
  obtain ⟨dH', files, s', hloop, -⟩ := entryReader.dirLoop_listed (advancing_iff.mp h)
    (Nat.lt_succ_self ((bodies.map List.length).sum + bodies.length)) (openedHandle opened uninit) hnil name []
    [(dirRequest name, some ⟨E_PSI_GEN_NONE, opened⟩)]
  refine ⟨files, ?_⟩
  rw [answers, dir_eq script (opendir_script name opened uninit (directory bodies) []), listingFuel,
    List.nil_append, hloop, hlisted]
  rfl

/-- The listing has an entry for each record, and more where an answer has none. -/
theorem length_of_dir (h : Advancing bodies) {fuel : ℕ} {out : Errs × List PlpDirent}
    (hdir : (dir script fuel name uninit ⟨answers opened bodies, []⟩).1 = some out) :
    entries bodies ≤ out.2.length ∧ (out.2.length = entries bodies ↔ ∀ body ∈ bodies, 16 < body.length) := by
  have hnil : ([] : List UInt8).length ≤ 16 := Nat.zero_le 16
  rw [answers, dir_eq script (opendir_script name opened uninit (directory bodies) []),
    Option.map_eq_some_iff] at hdir
  obtain ⟨listing, hloop, rfl⟩ := hdir
  obtain ⟨n, hlisted, hle, hiff⟩ := listed_of_advancing h
  obtain ⟨-, hlength⟩ := entryReader.dirLoop_ends (advancing_iff.mp h) hnil hloop
  dsimp only
  rw [hlength n hlisted, List.length_nil, Nat.zero_add]
  exact ⟨hle, hiff⟩

end Opened

/-- The count is that of the listing, just under this condition. -/
theorem countsAsListed_iff (name opened : List UInt8) (uninit : ℕ) (bodies : List (List UInt8)) :
    (∃ fuel, CountsAsListed (dircount script fuel name uninit ⟨answers opened bodies, []⟩).1
        (dir script fuel name uninit ⟨answers opened bodies, []⟩).1) ↔
      (∀ body ∈ bodies, 16 < body.length) ∧ Advancing bodies ∧ entries bodies < 2 ^ 32 := by
  constructor
  · rintro ⟨fuel, res, count, hcounted, hsuccess⟩
    obtain ⟨-, -, hadvancing, hout⟩ := dircount_iff.mp hcounted
    obtain ⟨rfl, rfl⟩ := Prod.mk.inj hout
    obtain ⟨files, hdir, hfiles⟩ := hsuccess rfl
    obtain ⟨hle, hiff⟩ := length_of_dir hadvancing hdir
    have hlt := uint32_lt (entries bodies)
    have hsame : uint32 (entries bodies) ≤ entries bodies := by
      rw [uint32]
      omega
    dsimp only at hle hiff
    exact ⟨hiff.mp (by omega), hadvancing, by omega⟩
  · rintro ⟨hlong, hadvancing, hlt⟩
    have hfuel : bodies.length < listingFuel bodies := by
      rw [listingFuel]
      omega
    have hcounted : (dircount script (listingFuel bodies) name uninit ⟨answers opened bodies, []⟩).1 =
        some (E_PSI_GEN_NONE, uint32 (entries bodies)) :=
      dircount_iff.mpr ⟨hfuel, length_records_le_listingFuel, hadvancing, rfl⟩
    obtain ⟨files, hdir⟩ := dir_of_advancing hadvancing
    refine ⟨listingFuel bodies, _, _, hcounted, fun _ => ⟨files, hdir, ?_⟩⟩
    rw [(length_of_dir hadvancing hdir).2.mpr hlong]
    exact uint32_of_lt hlt

/-- How many bytes are discarded at a time, and how many there are. -/
def discards (bodies : List (List UInt8)) : List (ℤ × ℕ) :=
  bodies.flatMap fun body => (records more size body.length body).map fun s => (recordLen s, s.length)

/-- The long name of each record is inside what there is. -/
def NamesInside (bodies : List (List UInt8)) : Prop :=
  ∀ body ∈ bodies, ∀ s ∈ records more size body.length body, 36 + getDWord s 32 ≤ s.length

/-- The records of the answers follow one another up to the end. -/
def WellFormed (bodies : List (List UInt8)) : Prop := ∀ body ∈ bodies, 16 < body.length ∧
  ∀ s ∈ records more size body.length body, 36 + getDWord s 32 ≤ s.length ∧ 0 < recordLen s ∧ recordLen s ≤ s.length

/-- Counting, which begins at zero, agrees with the listing, and both stay inside what they have. -/
def CountsEntries (name opened : List UInt8) (uninit : ℕ) (bodies : List (List UInt8)) : Prop :=
  (∃ fuel, CountsAsListed (dircount script fuel name uninit ⟨answers opened bodies, []⟩).1
    (dir script fuel name uninit ⟨answers opened bodies, []⟩).1) ∧
      DiscardsInside (discards bodies) ∧ NamesInside bodies

/-- The entries are counted just under this condition. -/
theorem countsEntries_iff (name opened : List UInt8) (uninit : ℕ) (bodies : List (List UInt8)) :
    CountsEntries name opened uninit bodies ↔ WellFormed bodies ∧ entries bodies < 2 ^ 32 := by
  have hdiscards : DiscardsInside (discards bodies) ↔
      ∀ body ∈ bodies, ∀ s ∈ records more size body.length body, 0 ≤ recordLen s ∧ recordLen s ≤ s.length := by
    rw [DiscardsInside, discards, List.forall_mem_flatMap]
    exact forall₂_congr fun body _ => List.forall_mem_map
  have hsize (s : List UInt8) : 0 < size s ↔ 0 < recordLen s := Int.lt_toNat
  rw [CountsEntries, countsAsListed_iff, hdiscards]
  constructor
  · rintro ⟨⟨hlong, hadvancing, hlt⟩, hinside, hnames⟩
    refine ⟨fun body hbody =>
      ⟨hlong body hbody, fun s hs => ⟨hnames body hbody s hs, ?_, (hinside body hbody s hs).2⟩⟩, hlt⟩
    exact (hsize s).mp (hadvancing body hbody s hs)
  · rintro ⟨hformed, hlt⟩
    refine ⟨⟨fun body hbody => (hformed body hbody).1, fun body hbody s hs => ?_, hlt⟩, fun body hbody s hs => ?_,
      fun body hbody s hs => ((hformed body hbody).2 s hs).1⟩
    · exact (hsize s).mpr ((hformed body hbody).2 s hs).2.1
    · exact ⟨Int.le_of_lt ((hformed body hbody).2 s hs).2.1, ((hformed body hbody).2 s hs).2.2⟩

end RFSV32

/-- The count of a SIBO directory is right from zero on, as long as each name ends, and that of an EPOC directory
where the records of each answer, of which there is one at least, follow one another to its end. -/
theorem dircount_agrees_iff (name opened : List UInt8) (uninit : ℕ) (initial : UInt32) (bodies : List (List UInt8)) :
    (RFSV16.CountsEntries name opened uninit initial bodies ↔
      (∀ n ∈ listed RFSV16.more RFSV16.size RFSV16.fetch bodies, initial = 0 ∧ n < 2 ^ 32) ∧
      RFSV16.Terminated bodies) ∧
    (RFSV32.CountsEntries name opened uninit bodies ↔ RFSV32.WellFormed bodies ∧ RFSV32.entries bodies < 2 ^ 32) :=
  ⟨RFSV16.countsEntries_iff name opened uninit initial bodies, RFSV32.countsEntries_iff name opened uninit bodies⟩

/-- An empty SIBO directory is counted to one from one on; an empty EPOC answer is listed, but not counted. -/
theorem not_countsEntries_empty :
    ¬RFSV16.CountsEntries [] [] 0 1 [] ∧ ¬RFSV32.CountsEntries [] [] 0 [[]] := by
  rw [RFSV16.countsEntries_iff, RFSV32.countsEntries_iff]
  constructor
  · rintro ⟨hcount, -⟩
    exact absurd (hcount 0 rfl).1 (by decide)
  · rintro ⟨hformed, -⟩
    exact absurd (hformed [] List.mem_cons_self).1 (by decide)

end Plptools
