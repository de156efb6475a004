import Mathlib.Data.Nat.Notation
import Mathlib.Data.List.Infix

/-!
# Resumable scanners

A scanner reads one symbol at a time and either goes on in a next state or ends with a result,
after which it starts afresh. Its state after some symbols does not depend on how they were cut
into pieces. What has been read since the last result is called the pending input.
-/

namespace Plptools.Library

/-- A machine that turns symbols into results. -/
structure Scanner (S A R : Type*) where
  start : S
  step : S → A → S ⊕ R

namespace Scanner

variable {S A R : Type*} (m : Scanner S A R)

/-- Read up to the first result; what follows it stays unread. -/
def scan : S → List A → S ⊕ (R × List A)
  | s, [] => .inl s
  | s, a :: rest =>
    match m.step s a with
    | .inl s' => scan s' rest
    | .inr r => .inr (r, rest)

/-- Read all symbols, starting afresh after each result. -/
def feed : S → List A → S × List R
  | s, [] => (s, [])
  | s, a :: rest =>
    match m.step s a with
    | .inl s' => feed s' rest
    | .inr r => ((feed m.start rest).1, r :: (feed m.start rest).2)

/-- What has been read since the last result, when that was `seen` so far. -/
def pendingFrom : S → List A → List A → List A
  | _, seen, [] => seen
  | s, seen, a :: rest =>
    match m.step s a with
    | .inl s' => pendingFrom s' (seen ++ [a]) rest
    | .inr _ => pendingFrom m.start [] rest

/-- The end of the input that was read since the last result. -/
def pending (input : List A) : List A := m.pendingFrom m.start [] input

/-- A symbol that ends nothing moves the scanner on. -/
theorem scan_cons_of_inl {s s' : S} {a : A} (h : m.step s a = .inl s') (rest : List A) :
    m.scan s (a :: rest) = m.scan s' rest := by
  rw [scan, h]

/-- Reading the rest continues from the state that the first part leads to. -/
theorem scan_append_of_inl {s s' : S} {first : List A} (h : m.scan s first = .inl s')
    (rest : List A) : m.scan s (first ++ rest) = m.scan s' rest := by
  induction first generalizing s with
  | nil =>
    cases h
    rfl
  | cons a first ih =>
    rw [List.cons_append, scan]
    rw [scan] at h
    cases hstep : m.step s a with
    | inl next =>
      rw [hstep] at h
      exact ih h
    | inr r =>
      rw [hstep] at h
      cases h

/-- A result is not affected by what follows it. -/
theorem scan_append_of_inr {s : S} {first : List A} {r : R} {rest : List A}
    (h : m.scan s first = .inr (r, rest)) (more : List A) :
    m.scan s (first ++ more) = .inr (r, rest ++ more) := by
  induction first generalizing s with
  | nil => cases h
  | cons a first ih =>
    rw [List.cons_append, scan]
    rw [scan] at h
    cases hstep : m.step s a with
    | inl next =>
      rw [hstep] at h
      exact ih h
    | inr r' =>
      rw [hstep] at h
      cases h
      rfl

/-- A result comes from a nonempty piece of the input and leaves the rest unread. -/
theorem scan_piece {s : S} {input : List A} {r : R} {rest : List A}
    (h : m.scan s input = .inr (r, rest)) :
    ∃ piece, piece ≠ [] ∧ input = piece ++ rest ∧ m.scan s piece = .inr (r, []) := by
  induction input generalizing s with
  | nil => cases h
  | cons a input ih =>
    rw [scan] at h
    cases hstep : m.step s a with
    | inl next =>
      rw [hstep] at h
      obtain ⟨piece, -, rfl, hpiece⟩ := ih h
      exact ⟨a :: piece, by simp, rfl, by rw [scan, hstep]; exact hpiece⟩
    | inr r' =>
      rw [hstep] at h
      cases h
      exact ⟨[a], by simp, rfl, by rw [scan, hstep]⟩

/-- Without a result, feeding is scanning. -/
theorem feed_of_scan_inl {s s' : S} {input : List A} (h : m.scan s input = .inl s') :
    m.feed s input = (s', []) := by
  induction input generalizing s with
  | nil =>
    cases h
    rfl
  | cons a input ih =>
    rw [feed]
    rw [scan] at h
    cases hstep : m.step s a with
    | inl next =>
      rw [hstep] at h
      exact ih h
    | inr r =>
      rw [hstep] at h
      cases h

/-- After a result, feeding starts afresh on the unread end. -/
theorem feed_of_scan_inr {s : S} {input : List A} {r : R} {rest : List A}
    (h : m.scan s input = .inr (r, rest)) :
    m.feed s input = ((m.feed m.start rest).1, r :: (m.feed m.start rest).2) := by
  induction input generalizing s with
  | nil => cases h
  | cons a input ih =>
    rw [feed]
    rw [scan] at h
    cases hstep : m.step s a with
    | inl next =>
      rw [hstep] at h
      exact ih h
    | inr r' =>
      rw [hstep] at h
      cases h
      rfl

/-- Without a result, all that was read is pending. -/
theorem pendingFrom_of_scan_inl {s s' : S} {input : List A} (h : m.scan s input = .inl s')
    (seen : List A) : m.pendingFrom s seen input = seen ++ input := by
  induction input generalizing s seen with
  | nil => exact (List.append_nil seen).symm
  | cons a input ih =>
    rw [pendingFrom]
    rw [scan] at h
    cases hstep : m.step s a with
    | inl next =>
      rw [hstep] at h
      exact (ih h (seen ++ [a])).trans (List.append_cons seen a input).symm
    | inr r =>
      rw [hstep] at h
      cases h

/-- What is pending after a result is pending in what follows it. -/
theorem pendingFrom_of_scan_inr {s : S} {input : List A} {r : R} {rest : List A}
    (h : m.scan s input = .inr (r, rest)) (seen : List A) :
    m.pendingFrom s seen input = m.pending rest := by
  induction input generalizing s seen with
  | nil => cases h
  | cons a input ih =>
    rw [pendingFrom]
    rw [scan] at h
    cases hstep : m.step s a with
    | inl next =>
      rw [hstep] at h
      exact ih h (seen ++ [a])
    | inr r' =>
      rw [hstep] at h
      cases h
      rfl

/-- Feeding in pieces is feeding their concatenation. -/
theorem feed_append (s : S) (first rest : List A) :
    m.feed s (first ++ rest) =
      ((m.feed (m.feed s first).1 rest).1, (m.feed s first).2 ++ (m.feed (m.feed s first).1 rest).2) := by
  induction first generalizing s with
  | nil => rfl
  | cons a first ih =>
    rw [List.cons_append, feed, feed]
    cases m.step s a with
    | inl next => exact ih next
    | inr r =>
      simp only [ih m.start]
      rfl

/-- What is pending after more input is what was pending and what came since. -/
theorem pendingFrom_append (s : S) (seen first rest : List A) :
    m.pendingFrom s seen (first ++ rest) =
      m.pendingFrom (m.feed s first).1 (m.pendingFrom s seen first) rest := by
  induction first generalizing s seen with
  | nil => rfl
  | cons a first ih =>
    rw [List.cons_append, pendingFrom, pendingFrom, feed]
    cases m.step s a with
    | inl next => exact ih next (seen ++ [a])
    | inr r => exact ih m.start []

/-- The input consists of whole pieces, with the given results. -/
structure Complete (input : List A) (results : List R) : Prop where
  feed : m.feed m.start input = (m.start, results)
  pending : m.pending input = []

/-- No tokens. -/
theorem Complete.nil : m.Complete [] [] := ⟨rfl, rfl⟩

/-- A piece is complete. -/
theorem Complete.single {input : List A} {r : R} (h : m.scan m.start input = .inr (r, [])) :
    m.Complete input [r] :=
  ⟨m.feed_of_scan_inr h, m.pendingFrom_of_scan_inr h []⟩

variable {m}

/-- After whole pieces the rest is fed as from the start. -/
theorem Complete.feed_append {input : List A} {results : List R} (h : m.Complete input results)
    (rest : List A) : m.feed m.start (input ++ rest) =
      ((m.feed m.start rest).1, results ++ (m.feed m.start rest).2) := by
  rw [m.feed_append, h.feed]

/-- After whole pieces what is pending is pending in the rest. -/
theorem Complete.pending_append {input : List A} {results : List R} (h : m.Complete input results)
    (rest : List A) : m.pending (input ++ rest) = m.pending rest := by
  have hpending : m.pendingFrom m.start [] input = [] := h.pending
  change m.pendingFrom m.start [] (input ++ rest) = m.pendingFrom m.start [] rest
  rw [m.pendingFrom_append, h.feed, hpending]

/-- Whole pieces follow whole pieces. -/
theorem Complete.append {first rest : List A} {results more : List R} (h : m.Complete first results)
    (h' : m.Complete rest more) : m.Complete (first ++ rest) (results ++ more) :=
  ⟨by rw [h.feed_append, h'.feed], by rw [h.pending_append, h'.pending]⟩

/-- There is no whole piece without a result. -/
theorem Complete.eq_nil {input : List A} (h : m.Complete input []) : input = [] := by
  cases hscan : m.scan m.start input with
  | inl s =>
    have hpending := m.pendingFrom_of_scan_inl hscan []
    exact hpending.symm.trans h.pending
  | inr result =>
    have hfeed := h.feed
    rw [m.feed_of_scan_inr hscan] at hfeed
    exact (List.cons_ne_nil _ _ (congrArg Prod.snd hfeed)).elim

variable (m)

/-- Every result of a feed comes from a contiguous piece of the input. -/
theorem mem_feed {r : R} {input : List A} (h : r ∈ (m.feed m.start input).2) :
    ∃ before piece after, input = before ++ piece ++ after ∧
      m.scan m.start piece = .inr (r, []) := by
  induction hn : input.length using Nat.strong_induction_on generalizing input with
  | _ n ih =>
    cases hscan : m.scan m.start input with
    | inl s =>
      rw [m.feed_of_scan_inl hscan] at h
      simp at h
    | inr result =>
      obtain ⟨r', rest⟩ := result
      obtain ⟨used, hused, rfl, hpiece⟩ := m.scan_piece hscan
      rw [m.feed_of_scan_inr hscan] at h
      rcases List.mem_cons.mp h with rfl | hrest
      · exact ⟨[], used, rest, rfl, hpiece⟩
      · have hlength : 0 < used.length := List.length_pos_iff.mpr hused
        obtain ⟨before, piece, after, rfl, hfound⟩ := ih rest.length
          (by rw [← hn, List.length_append]; omega) hrest rfl
        exact ⟨used ++ before, piece, after, by simp [List.append_assoc], hfound⟩

end Scanner

end Plptools.Library
