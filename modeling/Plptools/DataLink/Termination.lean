import Plptools.DataLink.Round

/-!
# When a call of `processInputData` returns

A call goes from round to round while there is nothing to send. It does not return when the search
runs over the physical end of the ring in every lap: the write index is 0, and both what lies before
the end and what the whole ring holds end in noise.
-/

namespace Plptools

open Plptools.Library

namespace DataLink

section

variable {d : DataLink} {s : ReceiverState}

/-- The call does not end in noise behind its last packet while the write index is 0, unless it
returns before. -/
def StopsThere (hasOutputData : ℕ → Bool) (i : ℕ) (d : DataLink) (s : ReceiverState) : Prop :=
  d.inWrite = 0 → (∀ j < (frameReceiver.feed s d.toParse).2.length, hasOutputData (i + j) = false) →
    (frameReceiver.feed s d.toParse).1 = .idle → frameReceiver.pendingFrom s [] d.toParse = []

/-- A search that runs over the end has ended in noise. -/
theorem StopsThere.not_runsOver {hasOutputData : ℕ → Bool} {i : ℕ}
    (h : d.StopsThere hasOutputData i s) : ¬d.RunsOver s := by
  rintro ⟨hinw, hempty, hnoise⟩
  have hfeed := frameReceiver.feed_of_scan_inl hnoise
  have hpending := h hinw (by simp [hfeed]) (by rw [hfeed])
  rw [frameReceiver.pendingFrom_of_scan_inl hnoise] at hpending
  exact hempty (by simpa using hpending)

/-- What stops a call behind its last packet stops it behind the next one. -/
theorem StopsThere.next {hasOutputData : ℕ → Bool} {i : ℕ} {d' : DataLink}
    {packet : Option (List UInt8)} {rest : List UInt8} (h : d.StopsThere hasOutputData i s)
    (hscan : frameReceiver.scan s d.toParse = .inr (packet, rest)) (htook : d.Took d' rest)
    (hout : hasOutputData i = false) : d'.StopsThere hasOutputData (i + 1) .idle := by
  intro hinw hnone hidle
  rw [StopsThere, frameReceiver.feed_of_scan_inr hscan, frameReceiver.pendingFrom_of_scan_inr hscan] at h
  rw [htook.toParse] at hnone hidle ⊢
  refine h (htook.inWrite ▸ hinw) (fun j hj => ?_) hidle
  cases j with
  | zero => exact hout
  | succ j =>
    rw [← Nat.add_assoc, Nat.add_right_comm]
    exact hnone j (Nat.lt_of_succ_lt_succ hj)

/-- A call that stops there returns. -/
theorem StopsThere.isSome {hasOutputData : ℕ → Bool} {i : ℕ} {fuel : ℕ} (hfuel : 2 * BUFLEN < fuel)
    {rounds : ℕ} (hrounds : d.toParse.length < rounds) (h : d.Parses s)
    (hstops : d.StopsThere hasOutputData i s) (receivedData : List (List UInt8)) :
    (processFrom d.inWrite fuel hasOutputData rounds i d receivedData).isSome := by
  induction rounds generalizing d s i receivedData with
  | zero => omega
  | succ rounds ih =>
    have hover := hstops.not_runsOver
    apply isSome_of_round h (fun hlost => hover hlost.1) hfuel
    intro packet rest d' hheard htook hout
    rw [heard, if_neg hover] at hheard
    obtain ⟨piece, hpiece, hparse, -⟩ := frameReceiver.scan_piece hheard
    have hshort : d'.toParse.length < rounds := by
      have hpos := List.length_pos_iff.mpr hpiece
      rw [htook.toParse]
      rw [hparse, List.length_append] at hrounds
      omega
    exact ih hshort htook.parses (hstops.next hheard htook hout)

/-- The whole ring leads to a packet that is not completed or whose end is the end of the ring. -/
def RingStops (d : DataLink) : Prop :=
  (frameReceiver.feed .idle d.wholeRing).1 = .idle → frameReceiver.pending d.wholeRing = []

/-- A search that stops is not lost. -/
theorem RingStops.not_lost (h : d.RingStops) : ¬d.Lost s := by
  rintro ⟨-, hring⟩
  have hnil := h (by rw [frameReceiver.feed_of_scan_inl hring])
  rw [Scanner.pending, show frameReceiver.start = .idle from rfl,
    frameReceiver.pendingFrom_of_scan_inl hring, List.nil_append] at hnil
  have hlength := congrArg List.length hnil
  rw [DataLink.wholeRing, ringSlice_length] at hlength
  cases hlength

/-- A call over a ring that stops it returns, if need be after it has run over the end once. -/
theorem RingStops.isSome {hasOutputData : ℕ → Bool} {i : ℕ} {fuel : ℕ} (hfuel : 2 * BUFLEN < fuel)
    {rounds : ℕ} (hrounds : d.toParse.length + BUFLEN < rounds) (h : d.Parses s)
    (hstops : d.RingStops) (receivedData : List (List UInt8)) :
    (processFrom d.inWrite fuel hasOutputData rounds i d receivedData).isSome := by
  induction rounds generalizing d s i receivedData with
  | zero => omega
  | succ rounds ih =>
    apply isSome_of_round h hstops.not_lost hfuel
    intro packet rest d' hheard htook hout
    by_cases hover : d.RunsOver s
    · rw [heard, if_pos hover] at hheard
      have hlt := d'.toParse_lt
      refine StopsThere.isSome hfuel (by omega) htook.parses fun _ _ => ?_
      rw [htook.toParse]
      rw [RingStops, frameReceiver.feed_of_scan_inr hheard, Scanner.pending,
        show frameReceiver.start = .idle from rfl, frameReceiver.pendingFrom_of_scan_inr hheard] at hstops
      exact hstops
    · rw [heard, if_neg hover] at hheard
      obtain ⟨piece, hpiece, hparse, -⟩ := frameReceiver.scan_piece hheard
      have hpos := List.length_pos_iff.mpr hpiece
      rw [hparse, List.length_append] at hrounds
      refine ih (by rw [htook.toParse]; omega) htook.parses ?_
      rwa [RingStops, htook.wholeRing]

/-- A call over a ring with a packet returns when there is something to send after some packet. -/
theorem isSome_of_output {hasOutputData : ℕ → Bool} {i j : ℕ} (hj : hasOutputData (i + j) = true)
    {fuel : ℕ} (hfuel : 2 * BUFLEN < fuel) {rounds : ℕ} (hrounds : j < rounds) (h : d.Parses s)
    (hring : (frameReceiver.feed .idle d.wholeRing).2 ≠ []) (receivedData : List (List UInt8)) :
    (processFrom d.inWrite fuel hasOutputData rounds i d receivedData).isSome := by
  induction rounds generalizing d s i j receivedData with
  | zero => omega
  | succ rounds ih =>
    have hlost : ¬d.Lost s := fun hlost => hring (by rw [frameReceiver.feed_of_scan_inl hlost.2])
    apply isSome_of_round h hlost hfuel
    intro packet rest d' hheard htook hout
    cases j with
    | zero => exact absurd hj (by rw [Nat.add_zero, hout]; exact Bool.false_ne_true)
    | succ j =>
      rw [Nat.add_comm j, ← Nat.add_assoc] at hj
      exact ih hj (Nat.lt_of_succ_lt_succ hrounds) htook.parses (by rwa [htook.wholeRing])

/-- A call goes round the ring for ever: the write index is 0, what lies before the physical end and
what the whole ring holds both end in noise, and there is never anything to send after a packet. -/
structure Endless (hasOutputData : ℕ → Bool) (i : ℕ) (d : DataLink) (s : ReceiverState) : Prop where
  inWrite : d.inWrite = 0
  outside : (frameReceiver.feed s d.toParse).1 = .idle
  noise : frameReceiver.pendingFrom s [] d.toParse ≠ []
  ringOutside : (frameReceiver.feed .idle d.wholeRing).1 = .idle
  ringNoise : frameReceiver.pending d.wholeRing ≠ []
  noOutput : ∀ j, j < (frameReceiver.feed s d.toParse).2.length ∨
    (frameReceiver.feed .idle d.wholeRing).2 ≠ [] → hasOutputData (i + j) = false

/-- The condition of an endless call holds again behind each packet. -/
theorem Endless.next {hasOutputData : ℕ → Bool} {i : ℕ} {d' : DataLink}
    {packet : Option (List UInt8)} {rest : List UInt8} (h : d.Endless hasOutputData i s)
    (hheard : d.heard s = .inr (packet, rest)) (htook : d.Took d' rest) :
    hasOutputData i = false ∧ d'.Endless hasOutputData (i + 1) .idle := by
  have hshift (j : ℕ) : i + 1 + j = i + (j + 1) := by omega
  by_cases hover : d.RunsOver s
  · rw [heard, if_pos hover] at hheard
    have hfeed := frameReceiver.feed_of_scan_inr hheard
    have hring : (frameReceiver.feed .idle d.wholeRing).2 ≠ [] := by simp [hfeed]
    refine ⟨h.noOutput 0 (Or.inr hring), ⟨htook.inWrite.trans h.inWrite, ?_, ?_, ?_, ?_, ?_⟩⟩
    · have hidle := h.ringOutside
      rw [hfeed] at hidle
      rwa [htook.toParse]
    · have hnoise := h.ringNoise
      rw [Scanner.pending, show frameReceiver.start = .idle from rfl,
        frameReceiver.pendingFrom_of_scan_inr hheard] at hnoise
      rwa [htook.toParse]
    · rw [htook.wholeRing]
      exact h.ringOutside
    · rw [htook.wholeRing]
      exact h.ringNoise
    · intro j _
      rw [hshift]
      exact h.noOutput (j + 1) (Or.inr hring)
  · rw [heard, if_neg hover] at hheard
    have hfeed := frameReceiver.feed_of_scan_inr hheard
    have hpending := frameReceiver.pendingFrom_of_scan_inr hheard []
    have houtput := h.noOutput
    have houtside := h.outside
    have hnoise := h.noise
    rw [hfeed] at houtput houtside
    rw [hpending] at hnoise
    refine ⟨houtput 0 (Or.inl (Nat.zero_lt_succ _)), ⟨htook.inWrite.trans h.inWrite, ?_, ?_, ?_, ?_, ?_⟩⟩
    · rwa [htook.toParse]
    · rwa [htook.toParse]
    · rw [htook.wholeRing]
      exact h.ringOutside
    · rw [htook.wholeRing]
      exact h.ringNoise
    · intro j hj
      rw [htook.toParse, htook.wholeRing] at hj
      rw [hshift]
      exact houtput (j + 1) (hj.imp_left Nat.succ_lt_succ)

/-- An endless call ends no round but with a packet. -/
theorem Endless.heard_ne {hasOutputData : ℕ → Bool} {i : ℕ} (h : d.Endless hasOutputData i s)
    (hlost : ¬d.Lost s) (s' : ReceiverState) : d.heard s ≠ .inl s' := by
  intro hheard
  by_cases hover : d.RunsOver s
  · rw [heard, if_pos hover] at hheard
    have hidle := h.ringOutside
    rw [frameReceiver.feed_of_scan_inl hheard] at hidle
    subst hidle
    exact hlost ⟨hover, hheard⟩
  · rw [heard, if_neg hover] at hheard
    have hidle := h.outside
    have hnoise := h.noise
    rw [frameReceiver.feed_of_scan_inl hheard] at hidle
    subst hidle
    rw [frameReceiver.pendingFrom_of_scan_inl hheard] at hnoise
    exact hover ⟨h.inWrite, hnoise, hheard⟩

/-- An endless call does not return. -/
theorem Endless.processFrom_eq_none {hasOutputData : ℕ → Bool} {i : ℕ} (fuel rounds : ℕ)
    (hendless : d.Endless hasOutputData i s) (h : d.Parses s) (receivedData : List (List UInt8)) :
    processFrom d.inWrite fuel hasOutputData rounds i d receivedData = none := by
  induction rounds generalizing d s i receivedData with
  | zero => rfl
  | succ rounds ih =>
    rw [processFrom_round]
    cases hround : round d.inWrite fuel d with
    | none => rfl
    | some exit =>
      obtain ⟨hlost, hexits⟩ := exits_of_round h hround
      cases hheard : d.heard s with
      | inl s' => exact absurd hheard (hendless.heard_ne hlost s')
      | inr result =>
        obtain ⟨packet, rest⟩ := result
        rw [hheard] at hexits
        obtain ⟨d', hexit, htook⟩ := hexits
        cases hexit
        obtain ⟨hout, hnext⟩ := hendless.next hheard htook
        simp only [hout, Bool.false_eq_true, if_false]
        rw [← htook.inWrite]
        exact ih hnext htook.parses _

/-- A call that is not endless returns. -/
theorem isSome_of_not_endless {hasOutputData : ℕ → Bool} (h : d.Parses s)
    (hendless : ¬d.Endless hasOutputData 0 s) :
    ∃ fuel, (d.processInputData fuel hasOutputData).isSome := by
  have hlt := d.toParse_lt
  by_cases hstops : d.StopsThere hasOutputData 0 s
  · exact ⟨2 * BUFLEN + 1, hstops.isSome (by omega) (by omega) h []⟩
  by_cases hring : d.RingStops
  · exact ⟨2 * BUFLEN + 1, hring.isSome (by omega) (by omega) h []⟩
  simp only [StopsThere, RingStops, not_forall, exists_prop] at hstops hring
  obtain ⟨hinw, hnone, hidle, hnoise⟩ := hstops
  obtain ⟨hringIdle, hringNoise⟩ := hring
  have houtput : ∃ j, (j < (frameReceiver.feed s d.toParse).2.length ∨
      (frameReceiver.feed .idle d.wholeRing).2 ≠ []) ∧ hasOutputData (0 + j) = true := by
    by_contra hno
    exact hendless ⟨hinw, hidle, hnoise, hringIdle, hringNoise, fun j hj =>
      Bool.eq_false_iff.mpr fun htrue => hno ⟨j, hj, htrue⟩⟩
  obtain ⟨j, hj, htrue⟩ := houtput
  have hpackets : (frameReceiver.feed .idle d.wholeRing).2 ≠ [] := by
    rcases hj with hfirst | hpackets
    · rw [hnone j hfirst] at htrue
      cases htrue
    · exact hpackets
  exact ⟨2 * BUFLEN + 1 + j, isSome_of_output htrue (by omega) (by omega) h hpackets []⟩

end

/-- With such a value the packet loop runs up to the write index. -/
theorem readPacket_of_crcState {d : DataLink} (hstate : 2 < d.inCRCstate) (n p : ℕ) (hn : n < BUFLEN)
    (hp : p < BUFLEN) (hinw : d.inWrite < BUFLEN) (hreach : (p + n) % BUFLEN = d.inWrite) (fuel : ℕ)
    (hfuel : n < fuel) : readPacket d.inWrite fuel d p = some (.inputEnd d d.inWrite) := by
  induction n generalizing p fuel with
  | zero =>
    obtain ⟨fuel, rfl⟩ := Nat.exists_eq_succ_of_ne_zero (Nat.ne_of_gt hfuel)
    rw [Nat.add_zero, Nat.mod_eq_of_lt hp] at hreach
    rw [readPacket, if_pos hreach, hreach]
  | succ n ih =>
    obtain ⟨fuel, rfl⟩ := Nat.exists_eq_succ_of_ne_zero (Nat.ne_of_gt (Nat.zero_lt_of_lt hfuel))
    obtain ⟨more, hmore⟩ := Nat.exists_eq_add_of_le' hstate
    rw [readPacket, if_neg (index_ne hn (Nat.succ_ne_zero n) hinw hreach), hmore]
    apply ih (inc1 p) (by omega) (Nat.mod_lt _ (by decide)) _ fuel (by omega)
    rw [inc1, Nat.mod_add_mod, Nat.add_assoc, Nat.add_comm 1 n, hreach]

/-- A call returns exactly when it does not go round the ring for ever. -/
theorem processInputData_returns_iff {d : DataLink} (hring : d.InRing) (hsyn : d.lastSYN < BUFLEN)
    (hasOutputData : ℕ → Bool) :
    (∃ fuel, (d.processInputData fuel hasOutputData).isSome) ↔
      ¬∃ s, d.Holds s ∧ d.Endless hasOutputData 0 s := by
  have hcursor : d.cursor < BUFLEN := by
    have hread := hring.inRead
    unfold cursor
    split
    · omega
    · exact hread
  constructor
  · rintro ⟨fuel, hsome⟩ ⟨s, hholds, hendless⟩
    rw [processInputData, hendless.processFrom_eq_none fuel fuel ⟨hring, hcursor, hholds⟩ []] at hsome
    cases hsome
  · intro hendless
    by_cases hstate : d.startPkt < 0 ∨ d.inCRCstate ≤ 2
    · obtain ⟨s, hholds⟩ := exists_holds hstate
      exact isSome_of_not_endless ⟨hring, hcursor, hholds⟩ fun h => hendless ⟨s, hholds, h⟩
    · rw [not_or, Int.not_lt, Nat.not_le] at hstate
      obtain ⟨hinside, hcrc⟩ := hstate
      refine ⟨BUFLEN, ?_⟩
      rw [processInputData]
      have hread := readPacket_of_crcState (d := { d with justStarted := false }) hcrc
        (ringUsed BUFLEN d.cursor d.inWrite) d.cursor (ringUsed_lt _ _ (by decide)) hcursor
        hring.inWrite (add_ringUsed hcursor hring.inWrite) BUFLEN (ringUsed_lt _ _ (by decide))
      rw [show BUFLEN = 4095 + 1 from rfl, processFrom_round, round, if_neg (Int.not_lt.mpr hinside),
        Option.bind_some, behindSearch, if_pos hinside]
      change readPacket d.inWrite (4095 + 1) _ _ = _ at hread
      rw [hread]
      rfl

/-- A SYN in the last cell of the ring ends the search, also when the write index is 0. -/
theorem processInputData_returns_syn :
    ∃ fuel, (DataLink.processInputData fuel (fun _ => false)
      { DataLink.atPosition 4095 (fun _ => 0x16) (fun _ => 0) false with inWrite := 0 }).isSome := by
  refine (processInputData_returns_iff ⟨by decide, by decide⟩ (by decide) _).mpr ?_
  rintro ⟨s, hholds, hendless⟩
  have hidle : s = .idle := by
    cases s with
    | idle => rfl
    | syn => exact hholds.elim
    | dle => exact hholds.elim
    | data esc crc rcv => exact absurd hholds.1 (by decide)
    | crcHigh crc rcv => exact absurd hholds.1 (by decide)
    | crcLow high crc rcv => exact absurd hholds.1 (by decide)
  subst hidle
  exact absurd hendless.outside (by decide)

/-- Over a ring without any SYN a search that runs over the end goes round for ever. -/
theorem endless_of_noise {d : DataLink} (hinw : d.inWrite = 0) (hempty : d.toParse ≠ [])
    (hnoise : ∀ k, d.inBuffer k ≠ 0x16) (hasOutputData : ℕ → Bool) (i : ℕ) :
    d.Endless hasOutputData i .idle := by
  have hscan (j n : ℕ) : frameReceiver.scan .idle (ringSlice BUFLEN d.inBuffer j n) = .inl .idle := by
    apply scan_noise
    intro c hc
    obtain ⟨k, rfl⟩ := exists_of_mem_ringSlice hc
    exact hnoise k
  have hparse : frameReceiver.scan .idle d.toParse = .inl .idle := hscan _ _
  have hring : frameReceiver.scan .idle d.wholeRing = .inl .idle := hscan _ _
  have hfeed := frameReceiver.feed_of_scan_inl hparse
  have hringFeed := frameReceiver.feed_of_scan_inl hring
  refine ⟨hinw, by rw [hfeed], ?_, by rw [hringFeed], ?_, ?_⟩
  · rwa [frameReceiver.pendingFrom_of_scan_inl hparse, List.nil_append]
  · rw [Scanner.pending, show frameReceiver.start = .idle from rfl,
      frameReceiver.pendingFrom_of_scan_inl hring, List.nil_append]
    intro hnil
    have hlength := congrArg List.length hnil
    rw [DataLink.wholeRing, ringSlice_length] at hlength
    cases hlength
  · simp [hfeed, hringFeed]

/-- One byte of noise in the last cell of a ring that holds nothing but noise: the call goes round the
ring for ever. -/
theorem processInputData_goes_round :
    ¬∀ (d : DataLink) (hasOutputData : ℕ → Bool), d.InRing → -1 ≤ d.startPkt → d.startPkt < BUFLEN →
      -1 ≤ d.lastSYN → d.lastSYN < BUFLEN → ∃ fuel, (d.processInputData fuel hasOutputData).isSome := by
  intro hall
  have hparses : DataLink.Parses { DataLink.atPosition 4095 (fun _ => 0x41) (fun _ => 0) false with
      inWrite := 0 } .idle := ⟨⟨by decide, by decide⟩, by decide, Int.negSucc_lt_zero 0⟩
  have hnoise : (0x41 : UInt8) ≠ 0x16 := by decide
  have hendless := endless_of_noise (d := { DataLink.atPosition 4095 (fun _ => 0x41) (fun _ => 0) false with
      inWrite := 0 }) rfl (by decide) (fun _ => hnoise) (fun _ => false) 0
  obtain ⟨fuel, hsome⟩ := hall _ (fun _ => false) hparses.inRing (by decide) (by decide) (by decide)
    (by decide)
  rw [processInputData, hendless.processFrom_eq_none fuel fuel hparses []] at hsome
  cases hsome

end DataLink

end Plptools
