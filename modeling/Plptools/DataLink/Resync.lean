import Plptools.DataLink.Round

/-!
# A frame behind noise

The header search is a matcher of three bytes that never looks again at a byte it has rejected. A
frame behind some noise is found exactly when the matcher stands before a first byte again at the
end of the noise; otherwise the first byte of the frame is taken for a wrong second or third one,
and the header of the frame is missed.
-/

namespace Plptools

open Plptools.Library

/-- The header of a frame. -/
def frameHeader : List UInt8 := [0x16, 0x10, 0x02]

/-- Noise that the matcher cuts into rejected beginnings of a header: a byte other than SYN, SYN
and a byte other than DLE, or SYN, DLE and a byte other than STX. -/
inductive Skipped : List UInt8 → Prop
  | nil : Skipped []
  | plain {c : UInt8} {rest : List UInt8} (hc : c ≠ 0x16) (hrest : Skipped rest) : Skipped (c :: rest)
  | syn {c : UInt8} {rest : List UInt8} (hc : c ≠ 0x10) (hrest : Skipped rest) :
      Skipped (0x16 :: c :: rest)
  | dle {c : UInt8} {rest : List UInt8} (hc : c ≠ 0x02) (hrest : Skipped rest) :
      Skipped (0x16 :: 0x10 :: c :: rest)

/-- Behind noise that it skips, the matcher stands before a first byte. -/
theorem Skipped.scan {noise : List UInt8} (h : Skipped noise) :
    frameReceiver.scan .idle noise = .inl .idle := by
  induction h with
  | nil => rfl
  | plain hc hrest ih => rw [scan_idle_cons, if_neg hc, ih]
  | syn hc hrest ih => rw [scan_idle_cons, if_pos rfl, scan_syn_cons, if_neg hc, ih]
  | dle hc hrest ih =>
    rw [scan_idle_cons, if_pos rfl, scan_syn_cons, if_pos rfl, scan_dle_cons, if_neg hc, ih]

/-- Whatever brings a matcher before a first byte completes what it has matched to such noise. -/
theorem Skipped.of_scan {noise : List UInt8} {s : ReceiverState} (hs : s.Searching)
    (h : frameReceiver.scan s noise = .inl .idle) : Skipped (s.matched ++ noise) := by
  induction noise generalizing s with
  | nil =>
    cases h
    exact .nil
  | cons c rest ih =>
    cases s with
    | idle =>
      rw [scan_idle_cons] at h
      by_cases hc : c = 0x16
      · rw [if_pos hc] at h
        subst hc
        exact ih (s := .syn) trivial h
      · rw [if_neg hc] at h
        exact .plain hc (ih (s := .idle) trivial h)
    | syn =>
      rw [scan_syn_cons] at h
      by_cases hc : c = 0x10
      · rw [if_pos hc] at h
        subst hc
        exact ih (s := .dle) trivial h
      · rw [if_neg hc] at h
        exact .syn hc (ih (s := .idle) trivial h)
    | dle =>
      rw [scan_dle_cons] at h
      by_cases hc : c = 0x02
      · rw [if_pos hc] at h
        exact absurd trivial (not_searching_of_scan id h)
      · rw [if_neg hc] at h
        exact .dle hc (ih (s := .idle) trivial h)
    | data esc crc rcv => exact hs.elim
    | crcHigh crc rcv => exact hs.elim
    | crcLow high crc rcv => exact hs.elim

/-- Where no header occurs, the matcher goes on searching. -/
theorem searching_of_no_header {input : List UInt8} {s : ReceiverState} (hs : s.Searching)
    (h : ∀ before after, s.matched ++ input ≠ before ++ frameHeader ++ after) :
    ∃ s', frameReceiver.scan s input = .inl s' ∧ s'.Searching := by
  induction input generalizing s with
  | nil => exact ⟨s, rfl, hs⟩
  | cons c rest ih =>
    -- A header in the rest, behind what has been rejected, is a header in the whole.
    have hafter (rejected : List UInt8) (hwhole : s.matched ++ c :: rest = rejected ++ rest) :
        ∃ s', frameReceiver.scan .idle rest = .inl s' ∧ s'.Searching := by
      refine ih (s := .idle) trivial fun before after heq => h (rejected ++ before) after ?_
      change rest = _ at heq
      rw [hwhole, heq]
      simp [List.append_assoc]
    cases s with
    | idle =>
      rw [scan_idle_cons]
      by_cases hc : c = 0x16
      · rw [if_pos hc]
        subst hc
        exact ih (s := .syn) trivial h
      · rw [if_neg hc]
        exact hafter [c] rfl
    | syn =>
      rw [scan_syn_cons]
      by_cases hc : c = 0x10
      · rw [if_pos hc]
        subst hc
        exact ih (s := .dle) trivial h
      · rw [if_neg hc]
        exact hafter [0x16, c] rfl
    | dle =>
      rw [scan_dle_cons]
      by_cases hc : c = 0x02
      · subst hc
        exact absurd rfl (h [] rest)
      · rw [if_neg hc]
        exact hafter [0x16, 0x10, c] rfl
    | data esc crc rcv => exact hs.elim
    | crcHigh crc rcv => exact hs.elim
    | crcLow high crc rcv => exact hs.elim

/-- Behind noise that it skips, the matcher takes the payload out of a frame. -/
theorem Skipped.scan_frame {noise frame payload : List UInt8} (h : Skipped noise)
    (hframe : IsFrame frame payload) :
    frameReceiver.scan .idle (noise ++ frame) = .inr (some payload, []) := by
  rw [frameReceiver.scan_append_of_inl h.scan, Plptools.scan_frame hframe]

/-- A frame whose first byte is rejected with the end of the noise is missed, when no header occurs
but its own. -/
theorem scan_missed {noise frame payload : List UInt8} (hframe : IsFrame frame payload)
    (hnoise : ¬Skipped noise)
    (honly : ∀ before after, noise ++ frame = before ++ frameHeader ++ after → before = noise) :
    ∃ s, frameReceiver.scan .idle (noise ++ frame) = .inl s ∧ s.Searching := by
  obtain ⟨s, hscan, hs⟩ : ∃ s, frameReceiver.scan .idle noise = .inl s ∧ s.Searching := by
    refine searching_of_no_header (s := .idle) trivial fun before after heq => ?_
    change noise = _ at heq
    have hlength := congrArg List.length heq
    have hbefore := honly before (after ++ frame) (by rw [heq]; simp [List.append_assoc])
    rw [hbefore, List.length_append, List.length_append] at hlength
    change noise.length = noise.length + 3 + after.length at hlength
    omega
  obtain ⟨tail, rfl⟩ : ∃ tail, frame = 0x16 :: tail := by
    obtain ⟨hbody, hcrc⟩ := hframe
    exact ⟨_, rfl⟩
  -- Behind its first byte the frame holds no header.
  have htail : ∃ s', frameReceiver.scan .idle tail = .inl s' ∧ s'.Searching := by
    refine searching_of_no_header (s := .idle) trivial fun before after heq => ?_
    change tail = _ at heq
    have hbefore := honly (noise ++ 0x16 :: before) after (by rw [heq]; simp [List.append_assoc])
    have hlength := congrArg List.length hbefore
    rw [List.length_append, List.length_cons] at hlength
    omega
  rw [frameReceiver.scan_append_of_inl hscan]
  cases s with
  | idle => exact absurd (Skipped.of_scan (s := .idle) trivial hscan) hnoise
  | syn =>
    rw [scan_syn_cons, if_neg (by decide)]
    exact htail
  | dle =>
    rw [scan_dle_cons, if_neg (by decide)]
    exact htail
  | data esc crc rcv => exact hs.elim
  | crcHigh crc rcv => exact hs.elim
  | crcLow high crc rcv => exact hs.elim

/-- A header occurs only where comparing at each index finds it. -/
theorem frameHeader_only (noise frame : List UInt8)
    (h : ∀ i < (noise ++ frame).length,
      ((noise ++ frame).drop i).take 3 = frameHeader → i = noise.length)
    (before after : List UInt8) (heq : noise ++ frame = before ++ frameHeader ++ after) :
    before = noise := by
  have hlength : before.length = noise.length := by
    apply h
    · rw [heq, List.length_append, List.length_append]
      exact Nat.lt_of_lt_of_le (Nat.lt_add_of_pos_right (by decide)) (Nat.le_add_right _ _)
    · rw [heq, List.append_assoc, List.drop_left]
      rfl
  rw [List.append_assoc] at heq
  exact (List.append_inj_left heq hlength.symm).symm

namespace DataLink

/-- The bytes are all there is in the ring, behind each other from the read index on, and the parser
is not inside a packet. -/
structure HoldsOnly (d : DataLink) (bytes : List UInt8) : Prop where
  inRead : d.inRead ≤ d.inWrite
  inWrite : d.inWrite < BUFLEN
  unread : d.unread = bytes
  startPkt : d.startPkt = -1
  lastSYN : d.lastSYN = -1
  justStarted : d.justStarted = false

/-- The parser waits for a frame. -/
theorem HoldsOnly.resumes {d : DataLink} {bytes : List UInt8} (h : d.HoldsOnly bytes) :
    d.Resumes 0 .idle := by
  have hread : d.inRead < BUFLEN := lt_of_le_of_lt h.inRead h.inWrite
  refine ⟨⟨hread, h.inWrite⟩, Nat.zero_le _, ?_, rfl, ?_⟩
  · rw [cursor, h.lastSYN, if_neg (by decide), Nat.add_zero, Nat.mod_eq_of_lt hread]
  · change d.startPkt < 0
    rw [h.startPkt]
    decide

/-- A call on such bytes hands over the packets that the receiver finds in them. -/
theorem HoldsOnly.processed {d : DataLink} {bytes : List UInt8} (h : d.HoldsOnly bytes)
    (hasOutputData : ℕ → Bool) : ∃ b d' packets,
      d.processInputData BUFLEN hasOutputData = some (b, d', packets.flatMap Option.toList) ∧
        d.Called b d' packets := by
  apply processInputData_spec h.resumes
  intro hinw
  have hread : d.inRead = 0 := by
    have hle := h.inRead
    omega
  have hnil : d.unread = [] := by
    rw [← List.length_eq_zero_iff, unread_length, hinw, hread]
    decide
  rw [hnil]
  intro _ _
  rfl

/-- A call that finds no header hands over nothing. -/
theorem HoldsOnly.none_of_searching {d : DataLink} {bytes : List UInt8} (h : d.HoldsOnly bytes)
    {s : ReceiverState} (hscan : frameReceiver.scan .idle bytes = .inl s)
    {hasOutputData : ℕ → Bool} {fuel : ℕ} {b : Bool} {d' : DataLink} {received : List (List UInt8)}
    (hrun : d.processInputData fuel hasOutputData = some (b, d', received)) : received = [] := by
  obtain ⟨b₁, d₁, packets, hrun₁, hcalled⟩ := h.processed hasOutputData
  obtain ⟨used, hunread, hused⟩ := hcalled.taken
  have hfeed := hused.feed_append d₁.unread
  rw [← hunread, h.unread, show frameReceiver.start = .idle from rfl,
    frameReceiver.feed_of_scan_inl hscan] at hfeed
  have hnone : [] = packets ++ _ := congrArg Prod.snd hfeed
  have hpackets := (List.append_eq_nil_iff.mp hnone.symm).1
  have hresult := processInputData_unique hrun hrun₁
  rw [hpackets] at hresult
  exact congrArg (fun r => r.2.2) hresult

/-- A call that finds one frame at the end of the bytes hands over its payload. -/
theorem HoldsOnly.delivered {d : DataLink} {bytes payload : List UInt8} (h : d.HoldsOnly bytes)
    (hscan : frameReceiver.scan .idle bytes = .inr (some payload, [])) (hasOutputData : ℕ → Bool) :
    ∃ d', d.processInputData BUFLEN hasOutputData = some (true, d', [payload]) := by
  obtain ⟨b, d', packets, hrun, hcalled⟩ := h.processed hasOutputData
  obtain ⟨used, hunread, hused⟩ := hcalled.taken
  have hb : b = true := by
    by_contra hfalse
    have hjust := (hcalled.justStarted (hcalled.unstable (by simpa using hfalse)).1).1
    rw [h.justStarted] at hjust
    cases hjust
  have hpackets : packets ≠ [] := by
    intro hnil
    obtain ⟨s, hinside⟩ := hcalled.exhausted hnil
    rw [h.unread, hscan] at hinside
    cases hinside
  have hfeed := hused.feed_append d'.unread
  rw [← hunread, h.unread, show frameReceiver.start = .idle from rfl,
    frameReceiver.feed_of_scan_inr hscan] at hfeed
  have hone : [some payload] = packets ++ _ := congrArg Prod.snd hfeed
  obtain ⟨packet, rest, rfl⟩ := List.exists_cons_of_ne_nil hpackets
  obtain ⟨rfl, hrest⟩ := List.cons.inj hone
  rw [(List.append_eq_nil_iff.mp hrest.symm).1, hb] at hrun
  exact ⟨d', hrun⟩

/-- The frame behind some noise is delivered exactly when the header search skips the noise, where no
header occurs but that of the frame. -/
theorem frame_received_iff {d : DataLink} {noise payload : List UInt8} {isEPOC : Bool}
    (h : d.HoldsOnly (noise ++ frameMessage payload isEPOC))
    (honly : ∀ before after,
      noise ++ frameMessage payload isEPOC = before ++ frameHeader ++ after → before = noise)
    (hasOutputData : ℕ → Bool) :
    (∃ fuel d', d.processInputData fuel hasOutputData = some (true, d', [payload])) ↔ Skipped noise := by
  have hframe := frameMessage_isFrame payload isEPOC
  constructor
  · rintro ⟨fuel, d', hrun⟩
    by_contra hnoise
    obtain ⟨s, hscan, -⟩ := scan_missed hframe hnoise honly
    exact absurd (h.none_of_searching hscan hrun) (List.cons_ne_nil _ _)
  · intro hnoise
    obtain ⟨d', hrun⟩ := h.delivered (hnoise.scan_frame hframe) hasOutputData
    exact ⟨BUFLEN, d', hrun⟩

/-- The frame of an ETX behind one byte of noise is delivered. -/
theorem frame_received_noise : ∃ fuel d', DataLink.processInputData fuel (fun _ => false)
    ((DataLink.atPosition 0 (fun _ => 0) (fun _ => 0) false).readInput
      ([0x41] ++ frameMessage [0x03] true)) = some (true, d', [[0x03]]) := by
  have honly := frameHeader_only [0x41] (frameMessage [0x03] true) (by decide +kernel)
  have hholds : ((DataLink.atPosition 0 (fun _ => 0) (fun _ => 0) false).readInput
      ([0x41] ++ frameMessage [0x03] true)).HoldsOnly ([0x41] ++ frameMessage [0x03] true) :=
    ⟨by decide +kernel, by decide +kernel, by decide +kernel, rfl, rfl, rfl⟩
  exact (frame_received_iff hholds honly fun _ => false).mpr (.plain (by decide) .nil)

/-- A SYN before a frame: the header of the frame is missed. -/
theorem frame_missed_after_syn :
    ¬∀ (d : DataLink) (noise payload : List UInt8) (isEPOC : Bool) (hasOutputData : ℕ → Bool),
      d.HoldsOnly (noise ++ frameMessage payload isEPOC) →
      (∀ before after,
        noise ++ frameMessage payload isEPOC = before ++ frameHeader ++ after → before = noise) →
      ∃ fuel d', d.processInputData fuel hasOutputData = some (true, d', [payload]) := by
  intro hall
  have hholds : ((DataLink.atPosition 0 (fun _ => 0) (fun _ => 0) false).readInput
      ([0x16] ++ frameMessage [0x03] true)).HoldsOnly ([0x16] ++ frameMessage [0x03] true) :=
    ⟨by decide +kernel, by decide +kernel, by decide +kernel, rfl, rfl, rfl⟩
  have honly := frameHeader_only [0x16] (frameMessage [0x03] true) (by decide +kernel)
  have hscan : frameReceiver.scan .idle ([0x16] ++ frameMessage [0x03] true) = .inl .idle := by decide +kernel
  obtain ⟨fuel, d', hrun⟩ := hall _ _ _ _ (fun _ => false) hholds honly
  exact absurd (hholds.none_of_searching hscan hrun) (List.cons_ne_nil _ _)

end DataLink

end Plptools
