import Plptools.DataLink.Model
import Plptools.Library.Scanner

/-!
# Frames on the line

What a receiver should make of a stream of bytes, without a ring: it skips bytes up to a header,
undoes the byte stuffing, and compares the checksum at the end of the packet. A frame is the
grammar that this scanner accepts, and the message that `send` assembles is a frame of its
payload whichever stuffing it uses.
-/

namespace Plptools

open Plptools.Library

/-- Where the receiver stands in the stream. -/
inductive ReceiverState where
  | idle
  | syn
  | dle
  | data (esc : Bool) (crc : UInt16) (rcv : List UInt8)
  | crcHigh (crc : UInt16) (rcv : List UInt8)
  | crcLow (high crc : UInt16) (rcv : List UInt8)
deriving DecidableEq, Repr

/-- The receiver is looking for a header. -/
def ReceiverState.Searching : ReceiverState → Prop
  | .idle | .syn | .dle => True
  | _ => False

/-- What the header search has matched of a header. -/
def ReceiverState.matched : ReceiverState → List UInt8
  | .syn => [0x16]
  | .dle => [0x16, 0x10]
  | _ => []

/-- The byte that an escaped byte stands for. -/
def unescape (c : UInt8) : UInt8 := if c = 0x04 then 0x03 else c

/-- Read one byte. A packet with a wrong checksum ends without a payload. -/
def receiverStep : ReceiverState → UInt8 → ReceiverState ⊕ Option (List UInt8)
  | .idle, c => .inl (if c = 0x16 then .syn else .idle)
  | .syn, c => .inl (if c = 0x10 then .dle else .idle)
  | .dle, c => .inl (if c = 0x02 then .data false 0 [] else .idle)
  | .data true crc rcv, c =>
    .inl (if c = 0x03 then .crcHigh crc rcv
      else .data false (addToCrc (unescape c) crc) (rcv ++ [unescape c]))
  | .data false crc rcv, c =>
    .inl (if c = 0x10 then .data true crc rcv else .data false (addToCrc c crc) (rcv ++ [c]))
  | .crcHigh crc rcv, c => .inl (.crcLow (c.toUInt16 <<< 8) crc rcv)
  | .crcLow high crc rcv, c => .inr (if high ||| c.toUInt16 ≠ crc then none else some rcv)

/-- The receiver of frames. -/
def frameReceiver : Scanner ReceiverState UInt8 (Option (List UInt8)) where
  start := .idle
  step := receiverStep

/-- The packets that a stream of bytes carries. -/
def packetsOf (stream : List UInt8) : List (List UInt8) :=
  (frameReceiver.feed .idle stream).2.flatMap Option.toList

/-- The stuffed form of a payload: an escaped byte stands for itself, or for ETX when it is EOT;
an escaped ETX would end the packet. -/
inductive Stuffed : List UInt8 → List UInt8 → Prop
  | nil : Stuffed [] []
  | plain {c : UInt8} {body payload : List UInt8} (hc : c ≠ 0x10) (rest : Stuffed body payload) :
      Stuffed (c :: body) (c :: payload)
  | escaped {c : UInt8} {body payload : List UInt8} (hc : c ≠ 0x03) (rest : Stuffed body payload) :
      Stuffed (0x10 :: c :: body) (unescape c :: payload)

/-- A frame of a payload: header, stuffed payload, end marker and the checksum of the payload. -/
inductive IsFrame : List UInt8 → List UInt8 → Prop
  | intro {body payload : List UInt8} {high low : UInt8} (hbody : Stuffed body payload)
      (hcrc : high.toUInt16 <<< 8 ||| low.toUInt16 = crcOf payload) :
      IsFrame (([0x16, 0x10, 0x02] : List UInt8) ++ body ++ [0x10, 0x03, high, low]) payload

/-- The bytes that `send` puts on the line for one payload byte are a stuffed form of it. -/
theorem stuffByte_stuffed (isEPOC : Bool) (c : UInt8) {body payload : List UInt8}
    (rest : Stuffed body payload) : Stuffed (stuffByte isEPOC c ++ body) (c :: payload) := by
  unfold stuffByte
  by_cases hetx : c = 0x03
  · subst hetx
    cases isEPOC with
    | true => exact .escaped (c := 0x04) (by decide) rest
    | false => exact .plain (by decide) rest
  · by_cases hdle : c = 0x10
    · subst hdle
      exact .escaped (c := 0x10) (by decide) rest
    · rw [if_neg hetx, if_neg hdle]
      exact .plain hdle rest

/-- The message that `send` assembles is a frame of its payload. -/
theorem frameMessage_isFrame (b : List UInt8) (isEPOC : Bool) : IsFrame (frameMessage b isEPOC) b := by
  have hbody : Stuffed (b.flatMap (stuffByte isEPOC)) b := by
    induction b with
    | nil => exact .nil
    | cons c b ih => exact stuffByte_stuffed isEPOC c ih
  exact .intro hbody (crc_bytes_join (crcOf b))

section Scan

variable (c : UInt8) (rest : List UInt8)

/-- Between frames. -/
@[simp] theorem scan_idle_cons : frameReceiver.scan .idle (c :: rest) =
    frameReceiver.scan (if c = 0x16 then .syn else .idle) rest := rfl

/-- Behind the first byte of a header. -/
@[simp] theorem scan_syn_cons : frameReceiver.scan .syn (c :: rest) =
    frameReceiver.scan (if c = 0x10 then .dle else .idle) rest := rfl

/-- Behind the second byte of a header. -/
@[simp] theorem scan_dle_cons : frameReceiver.scan .dle (c :: rest) =
    frameReceiver.scan (if c = 0x02 then .data false 0 [] else .idle) rest := rfl

/-- Behind an escape in the data. -/
@[simp] theorem scan_data_true_cons (crc : UInt16) (rcv : List UInt8) :
    frameReceiver.scan (.data true crc rcv) (c :: rest) =
      frameReceiver.scan (if c = 0x03 then .crcHigh crc rcv
        else .data false (addToCrc (unescape c) crc) (rcv ++ [unescape c])) rest := rfl

/-- In the data. -/
@[simp] theorem scan_data_false_cons (crc : UInt16) (rcv : List UInt8) :
    frameReceiver.scan (.data false crc rcv) (c :: rest) =
      frameReceiver.scan (if c = 0x10 then .data true crc rcv
        else .data false (addToCrc c crc) (rcv ++ [c])) rest := rfl

/-- At the high byte of the checksum. -/
@[simp] theorem scan_crcHigh_cons (crc : UInt16) (rcv : List UInt8) :
    frameReceiver.scan (.crcHigh crc rcv) (c :: rest) =
      frameReceiver.scan (.crcLow (c.toUInt16 <<< 8) crc rcv) rest := rfl

/-- At the low byte of the checksum, which ends the frame. -/
@[simp] theorem scan_crcLow_cons (high crc : UInt16) (rcv : List UInt8) :
    frameReceiver.scan (.crcLow high crc rcv) (c :: rest) =
      .inr (if high ||| c.toUInt16 ≠ crc then none else some rcv, rest) := rfl

/-- No bytes. -/
@[simp] theorem scan_nil (s : ReceiverState) : frameReceiver.scan s [] = .inl s := rfl

end Scan

/-- Noise without a SYN is skipped. -/
theorem scan_noise {noise : List UInt8} (h : ∀ c ∈ noise, c ≠ 0x16) :
    frameReceiver.scan .idle noise = .inl .idle := by
  induction noise with
  | nil => rfl
  | cons c rest ih =>
    rw [scan_idle_cons, if_neg (h c List.mem_cons_self)]
    exact ih fun c hc => h c (List.mem_cons_of_mem _ hc)

/-- A stuffed payload is read into the receiver's buffer and checksum. -/
theorem scan_stuffed {body payload : List UInt8} (h : Stuffed body payload) (rcv : List UInt8) :
    frameReceiver.scan (.data false (crcOf rcv) rcv) body =
      .inl (.data false (crcOf (rcv ++ payload)) (rcv ++ payload)) := by
  induction h generalizing rcv with
  | nil => simp
  | @plain c body payload hc rest ih =>
    rw [scan_data_false_cons, if_neg hc, ← crcOf_append_singleton, ih, List.append_assoc]
    rfl
  | @escaped c body payload hc rest ih =>
    rw [scan_data_false_cons, if_pos rfl, scan_data_true_cons, if_neg hc, ← crcOf_append_singleton, ih,
      List.append_assoc]
    rfl

/-- What follows the stuffed payload is compared with its checksum. -/
theorem scan_trailer {body payload : List UInt8} (h : Stuffed body payload) (high low : UInt8) :
    frameReceiver.scan .idle (([0x16, 0x10, 0x02] : List UInt8) ++ body ++ [0x10, 0x03, high, low]) =
      .inr (if high.toUInt16 <<< 8 ||| low.toUInt16 ≠ crcOf payload then none else some payload, []) := by
  have hdata := scan_stuffed h []
  rw [List.nil_append] at hdata
  rw [List.append_assoc, List.cons_append, List.cons_append, List.cons_append, List.nil_append,
    scan_idle_cons, if_pos rfl, scan_syn_cons, if_pos rfl, scan_dle_cons, if_pos rfl]
  apply (frameReceiver.scan_append_of_inl hdata _).trans
  simp

/-- The receiver takes the payload out of a frame. -/
theorem scan_frame {frame payload : List UInt8} (h : IsFrame frame payload) :
    frameReceiver.scan .idle frame = .inr (some payload, []) := by
  obtain ⟨hbody, hcrc⟩ := h
  rw [scan_trailer hbody, hcrc, if_neg (not_not_intro rfl)]

/-- A stream of frames is read frame by frame. -/
theorem feed_frames {frames payloads : List (List UInt8)} (h : List.Forall₂ IsFrame frames payloads) :
    frameReceiver.feed .idle frames.flatten = (.idle, payloads.map some) := by
  induction h with
  | nil => rfl
  | cons hframe rest ih =>
    have hscan := frameReceiver.scan_append_of_inr (scan_frame hframe)
    rw [List.flatten_cons, frameReceiver.feed_of_scan_inr (hscan _)]
    change ((frameReceiver.feed .idle _).1, _ :: (frameReceiver.feed .idle _).2) = _
    rw [List.nil_append, ih, List.map_cons]

/-- Two bytes after the end marker are the checksum of the packet. -/
theorem trailer_of_scan {crc : UInt16} {rcv input payload : List UInt8}
    (h : frameReceiver.scan (.crcHigh crc rcv) input = .inr (some payload, [])) :
    ∃ high low : UInt8, input = [high, low] ∧ payload = rcv ∧
      high.toUInt16 <<< 8 ||| low.toUInt16 = crc := by
  cases input with
  | nil => cases h
  | cons high input =>
    cases input with
    | nil => cases h
    | cons low input =>
      rw [scan_crcHigh_cons, scan_crcLow_cons] at h
      by_cases hcrc : high.toUInt16 <<< 8 ||| low.toUInt16 = crc
      · rw [if_neg (not_not.mpr hcrc)] at h
        cases h
        exact ⟨high, low, rfl, rfl, hcrc⟩
      · rw [if_pos hcrc] at h
        cases h

/-- Bytes that end a packet from inside it are the rest of a stuffed payload and the trailer. -/
theorem stuffed_of_scan {esc : Bool} {rcv input payload : List UInt8}
    (h : frameReceiver.scan (.data esc (crcOf rcv) rcv) input = .inr (some payload, [])) :
    ∃ (body rest : List UInt8) (high low : UInt8),
      (if esc then 0x10 :: input else input) = body ++ ([0x10, 0x03, high, low] : List UInt8) ∧
      Stuffed body rest ∧ payload = rcv ++ rest ∧
      high.toUInt16 <<< 8 ||| low.toUInt16 = crcOf payload := by
  induction input generalizing esc rcv with
  | nil => cases h
  | cons c input ih =>
    cases esc with
    | true =>
      rw [scan_data_true_cons] at h
      by_cases hetx : c = 0x03
      · rw [if_pos hetx] at h
        obtain ⟨high, low, rfl, rfl, hcrc⟩ := trailer_of_scan h
        exact ⟨[], [], high, low, by simp [hetx], .nil, by simp, hcrc⟩
      · rw [if_neg hetx, ← crcOf_append_singleton] at h
        obtain ⟨body, rest, high, low, heq, hbody, hpayload, hcrc⟩ := ih h
        refine ⟨0x10 :: c :: body, unescape c :: rest, high, low, ?_, .escaped hetx hbody, ?_, hcrc⟩
        · simpa using heq
        · rw [hpayload, List.append_assoc]
          rfl
    | false =>
      rw [scan_data_false_cons] at h
      by_cases hdle : c = 0x10
      · rw [if_pos hdle] at h
        obtain ⟨body, rest, high, low, heq, htail⟩ := ih h
        exact ⟨body, rest, high, low, by simpa [hdle] using heq, htail⟩
      · rw [if_neg hdle, ← crcOf_append_singleton] at h
        obtain ⟨body, rest, high, low, heq, hbody, hpayload, hcrc⟩ := ih h
        refine ⟨c :: body, c :: rest, high, low, ?_, .plain hdle hbody, ?_, hcrc⟩
        · simpa using heq
        · rw [hpayload, List.append_assoc]
          rfl

/-- Whatever the receiver accepts, starting outside a packet, ends with a frame of the accepted
payload. -/
theorem frame_of_scan {s : ReceiverState} {input payload : List UInt8} (hs : s.Searching)
    (h : frameReceiver.scan s input = .inr (some payload, [])) :
    ∃ before frame, s.matched ++ input = before ++ frame ∧ IsFrame frame payload := by
  induction input generalizing s with
  | nil => cases h
  | cons c input ih =>
    cases s with
    | idle =>
      rw [scan_idle_cons] at h
      by_cases hc : c = 0x16
      · rw [if_pos hc] at h
        obtain ⟨before, frame, heq, hframe⟩ := ih (s := .syn) trivial h
        exact ⟨before, frame, by rw [hc]; exact heq, hframe⟩
      · rw [if_neg hc] at h
        obtain ⟨before, frame, heq, hframe⟩ := ih (s := .idle) trivial h
        exact ⟨c :: before, frame, congrArg (c :: ·) heq, hframe⟩
    | syn =>
      rw [scan_syn_cons] at h
      by_cases hc : c = 0x10
      · rw [if_pos hc] at h
        obtain ⟨before, frame, heq, hframe⟩ := ih (s := .dle) trivial h
        exact ⟨before, frame, by rw [hc]; exact heq, hframe⟩
      · rw [if_neg hc] at h
        obtain ⟨before, frame, heq, hframe⟩ := ih (s := .idle) trivial h
        exact ⟨0x16 :: c :: before, frame, congrArg (0x16 :: c :: ·) heq, hframe⟩
    | dle =>
      rw [scan_dle_cons] at h
      by_cases hc : c = 0x02
      · rw [if_pos hc] at h
        obtain ⟨body, rest, high, low, heq, hbody, hpayload, hcrc⟩ := @stuffed_of_scan false [] _ _ h
        rw [List.nil_append] at hpayload
        subst hpayload
        rw [if_neg Bool.false_ne_true] at heq
        exact ⟨[], _, by simp [ReceiverState.matched, hc, heq], .intro hbody hcrc⟩
      · rw [if_neg hc] at h
        obtain ⟨before, frame, heq, hframe⟩ := ih (s := .idle) trivial h
        exact ⟨0x16 :: 0x10 :: c :: before, frame, congrArg (0x16 :: 0x10 :: c :: ·) heq, hframe⟩
    | data esc crc rcv => exact hs.elim
    | crcHigh crc rcv => exact hs.elim
    | crcLow high crc rcv => exact hs.elim

/-- Every packet of a stream is the payload of a frame whose bytes occur in the stream. -/
theorem frame_of_mem_packetsOf {stream payload : List UInt8} (h : payload ∈ packetsOf stream) :
    ∃ before frame after, stream = before ++ frame ++ after ∧ IsFrame frame payload := by
  obtain ⟨packet, hpacket, hpayload⟩ := List.mem_flatMap.mp h
  obtain ⟨before, piece, after, rfl, hpiece⟩ := frameReceiver.mem_feed hpacket
  have hsome : packet = some payload := by simpa using hpayload
  rw [hsome] at hpiece
  obtain ⟨noise, frame, heq, hframe⟩ := frame_of_scan (s := .idle) trivial hpiece
  change piece = noise ++ frame at heq
  exact ⟨before ++ noise, frame, after, by rw [heq]; simp [List.append_assoc], hframe⟩

/-- Inside a packet, only its end leads back to the header search. -/
theorem not_searching_of_scan {s s' : ReceiverState} {input : List UInt8} (hs : ¬s.Searching)
    (h : frameReceiver.scan s input = .inl s') : ¬s'.Searching := by
  induction input generalizing s with
  | nil =>
    cases h
    exact hs
  | cons c input ih =>
    cases s with
    | idle => exact absurd trivial hs
    | syn => exact absurd trivial hs
    | dle => exact absurd trivial hs
    | data esc crc rcv =>
      cases esc with
      | true =>
        rw [scan_data_true_cons] at h
        split at h
        · exact ih id h
        · exact ih id h
      | false =>
        rw [scan_data_false_cons] at h
        split at h
        · exact ih id h
        · exact ih id h
    | crcHigh crc rcv => exact ih id h
    | crcLow high crc rcv => cases h

/-- A receiver that has read a part of a frame and is not inside a packet has read a part of the
header. -/
theorem matched_of_part {input rest payload : List UInt8} (hframe : IsFrame (input ++ rest) payload)
    (hrest : rest ≠ []) : ∃ s, frameReceiver.scan .idle input = .inl s ∧
      (s.Searching → input = s.matched) := by
  cases hscan : frameReceiver.scan .idle input with
  | inr result =>
    have hwhole := frameReceiver.scan_append_of_inr hscan rest
    rw [scan_frame hframe] at hwhole
    have hnil : [] = result.2 ++ rest := congrArg Prod.snd (Sum.inr.inj hwhole)
    exact absurd (List.append_eq_nil_iff.mp hnil.symm).2 hrest
  | inl s =>
    refine ⟨s, rfl, fun hs => ?_⟩
    generalize hwhole : input ++ rest = whole at hframe
    obtain ⟨hbody, hcrc⟩ := hframe
    match input, hwhole, hscan with
    | [], _, hscan =>
      cases hscan
      rfl
    | [a], hwhole, hscan =>
      cases hwhole
      cases hscan
      rfl
    | [a, b], hwhole, hscan =>
      cases hwhole
      cases hscan
      rfl
    | a :: b :: c :: more, hwhole, hscan =>
      simp only [List.cons_append, List.nil_append, List.cons.injEq] at hwhole
      obtain ⟨rfl, rfl, rfl, -⟩ := hwhole
      rw [scan_idle_cons, if_pos rfl, scan_syn_cons, if_pos rfl, scan_dle_cons, if_pos rfl] at hscan
      exact absurd hs (not_searching_of_scan id hscan)

/-- A receiver that has read a part of a stream of frames and is not inside a packet stands behind
a part of a header. -/
theorem pending_of_frames {frames payloads : List (List UInt8)}
    (h : List.Forall₂ IsFrame frames payloads) {input : List UInt8} (hinput : input <+: frames.flatten)
    (hs : (frameReceiver.feed .idle input).1.Searching) :
    frameReceiver.pending input = (frameReceiver.feed .idle input).1.matched := by
  induction h generalizing input with
  | nil =>
    rw [List.flatten_nil, List.prefix_nil] at hinput
    subst hinput
    rfl
  | @cons frame payload frames payloads hframe hframes ih =>
    rw [List.flatten_cons] at hinput
    have hcomplete := Scanner.Complete.single frameReceiver (scan_frame hframe)
    rcases List.prefix_or_prefix_of_prefix hinput (List.prefix_append frame frames.flatten) with
      hpart | hwhole
    · obtain ⟨rest, rfl⟩ := hpart
      by_cases hrest : rest = []
      · rw [hrest, List.append_nil] at hcomplete
        have hfeed : frameReceiver.feed .idle input = (.idle, [some payload]) := hcomplete.feed
        rw [hcomplete.pending, hfeed]
        rfl
      · obtain ⟨s, hscan, hmatched⟩ := matched_of_part hframe hrest
        have hpending : frameReceiver.pending input = input :=
          frameReceiver.pendingFrom_of_scan_inl hscan []
        rw [frameReceiver.feed_of_scan_inl hscan] at hs ⊢
        rw [hpending]
        exact hmatched hs
    · obtain ⟨rest, rfl⟩ := hwhole
      have hfeed : (frameReceiver.feed .idle (frame ++ rest)).1 = (frameReceiver.feed .idle rest).1 := by
        change (frameReceiver.feed frameReceiver.start _).1 = _
        rw [hcomplete.feed_append]
        rfl
      rw [hfeed] at hs ⊢
      rw [hcomplete.pending_append]
      exact ih ((List.prefix_append_right_inj frame).mp hinput) hs

end Plptools
