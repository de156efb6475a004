import Plptools.DataLink.Delivery
import Plptools.Library.ShiftRegister

/-!
# What the checksum is

The table of the constructor is that of a shift register with the polynomial `0x1021`, so the checksum is
what the register holds after all bits of the payload. It tells a payload apart from any other of its
length that differs from it within 16 consecutive bits, and a frame that has been damaged like that is not
delivered.
-/

namespace Plptools

open Plptools.Library Plptools.Library.ShiftRegister

/-- The polynomial x^16 + x^12 + x^5 + 1, without its first term. -/
def crcPolynomial : BitVec 16 := 0x1021#16

/-- The bits of a payload, most significant bit of each byte first. -/
def payloadBits (payload : List UInt8) : List Bool := payload.flatMap fun c => bitsOf c.toBitVec

/-- The checksum bit by bit, from the initial value zero. -/
def bitwiseCrc (payload : List UInt8) : UInt16 := ⟨feed crcPolynomial 0#16 (payloadBits payload)⟩

/-! ## The table -/

/-- The first entries of the table are those of the shift register. -/
structure Filled (table : List UInt16) (n : ℕ) : Prop where
  length : table.length = 256
  entries : ∀ j < n, (table.getD j 0).toBitVec = entry crcPolynomial 8 j

/-- The bit that is shifted out. -/
theorem carry_iff (e : UInt16) : e &&& 0x8000 ≠ 0 ↔ e.toBitVec.msb = true := by
  have hbit : e.toBitVec &&& 0x8000#16 = e.toBitVec &&& BitVec.twoPow 16 15 := rfl
  rw [BitVec.msb_eq_getLsbD_last, Ne, ← UInt16.toBitVec_inj, UInt16.toBitVec_and]
  change ¬e.toBitVec &&& 0x8000#16 = _ ↔ _
  rw [hbit, BitVec.and_twoPow]
  simp

/-- An entry of the table after an assignment. -/
theorem getD_set (table : List UInt16) {i : ℕ} (hi : i < table.length) (v : UInt16) (j : ℕ) :
    (table.set i v).getD j 0 = if j = i then v else table.getD j 0 := by
  rw [List.getD_eq_getElem?_getD, List.getElem?_set, List.getD_eq_getElem?_getD]
  by_cases hj : j = i
  · subst hj
    simp [hi]
  · rw [if_neg (Ne.symm hj), if_neg hj]

/-- A round fills two entries from one that is there. -/
theorem Filled.round {table : List UInt16} {i : ℕ} (h : Filled table (max 1 (2 * i))) (hi : i < 128) :
    Filled (fillCrcTable table i) (2 * (i + 1)) := by
  have heven : entry crcPolynomial 8 (2 * i) =
      (table.getD i 0).toBitVec <<< 1 ^^^ (if (table.getD i 0).toBitVec.msb then crcPolynomial else 0#16) := by
    rw [entry_double crcPolynomial (by decide) (by omega), ← h.entries i (by omega)]
    rfl
  have hodd : entry crcPolynomial 8 (2 * i + 1) = entry crcPolynomial 8 (2 * i) ^^^ crcPolynomial :=
    entry_double_add_one crcPolynomial (by decide) (by decide) i
  have hkept (j : ℕ) (hj : j < 2 * i) : (table.getD j 0).toBitVec = entry crcPolynomial 8 j :=
    h.entries j (by omega)
  unfold fillCrcTable
  dsimp only
  refine ⟨by simp [h.length], fun j hj => ?_⟩
  by_cases hcarry : table.getD i 0 &&& 0x8000 ≠ 0
  · rw [if_pos hcarry, if_pos hcarry, getD_set _ (by simp [h.length]; omega),
      getD_set _ (by simp [h.length]; omega)]
    rw [(carry_iff _).mp hcarry, if_pos rfl] at heven
    split
    · next heq =>
      rw [heq, Nat.mul_comm, hodd, heven, BitVec.xor_assoc, BitVec.xor_self, BitVec.xor_zero]
      rfl
    split
    · next heq =>
      rw [heq, Nat.add_zero, Nat.mul_comm, heven]
      rfl
    · exact hkept j (by omega)
  · rw [if_neg hcarry, if_neg hcarry, getD_set _ (by simp [h.length]; omega),
      getD_set _ (by simp [h.length]; omega)]
    rw [if_neg (fun hmsb => hcarry ((carry_iff _).mpr hmsb)), BitVec.xor_zero] at heven
    split
    · next heq =>
      rw [heq, Nat.add_zero, Nat.mul_comm, heven]
      rfl
    split
    · next heq =>
      rw [heq, Nat.mul_comm, hodd, heven]
      rfl
    · exact hkept j (by omega)

/-- After the rounds of the constructor all entries are there. -/
theorem crcTable_filled : Filled crcTable 256 := by
  have hrounds (k : ℕ) (hk : k ≤ 128) :
      Filled ((List.range k).foldl fillCrcTable (List.replicate 256 0)) (max 1 (2 * k)) := by
    induction k with
    | zero =>
      refine ⟨List.length_replicate, fun j hj => ?_⟩
      have hzero : j = 0 := by omega
      rw [hzero, entry_zero]
      rfl
    | succ k ih =>
      rw [List.range_succ, List.foldl_append]
      have hround := (ih (by omega)).round (by omega)
      rwa [max_eq_right (by omega)]
  exact hrounds 128 (Nat.le_refl _)

/-- A byte advances the checksum by its bits. -/
theorem addToCrc_toBitVec (a : UInt8) (crc : UInt16) :
    (addToCrc a crc).toBitVec = feed crcPolynomial crc.toBitVec (bitsOf a.toBitVec) := by
  have hindex : (((crc >>> 8) ^^^ a.toUInt16) &&& 0xff).toNat =
      ((crc.toBitVec >>> 8) ^^^ a.toBitVec.setWidth 16).toNat := by
    have hlow : crc.toNat >>> 8 ^^^ a.toNat < 2 ^ 8 := by
      apply Nat.xor_lt_two_pow
      · rw [Nat.shiftRight_eq_div_pow]
        have hcrc := crc.toNat_lt
        omega
      · exact a.toNat_lt
    have hmask : (crc.toNat >>> 8 ^^^ a.toNat) &&& 255 = crc.toNat >>> 8 ^^^ a.toNat := by
      rw [Nat.and_two_pow_sub_one_eq_mod _ 8, Nat.mod_eq_of_lt hlow]
    simpa using hmask
  rw [feed_bitsOf crcPolynomial (by decide), addToCrc, UInt16.toBitVec_xor, crcTable_filled.entries, hindex]
  · rfl
  · rw [UInt16.toNat_and]
    exact Nat.lt_of_le_of_lt Nat.and_le_right (by decide)

/-- The checksum of a payload is that of its bits. -/
theorem crcOf_eq_bitwiseCrc (payload : List UInt8) : crcOf payload = bitwiseCrc payload := by
  have hfold (crc : UInt16) : (payload.foldl (fun crc c => addToCrc c crc) crc).toBitVec =
      feed crcPolynomial crc.toBitVec (payloadBits payload) := by
    induction payload generalizing crc with
    | nil => rfl
    | cons c rest ih =>
      rw [List.foldl_cons, ih, addToCrc_toBitVec, ← feed_append]
      rfl
  exact UInt16.toBitVec_inj.mp (hfold 0)

/-! ## Bursts of errors -/

/-- Two payloads of one length that differ, but only within 16 consecutive bits. -/
structure Burst (sent received : List UInt8) : Prop where
  length : sent.length = received.length
  differ : sent ≠ received
  inside : ∃ i, ∀ j, (payloadBits sent)[j]? ≠ (payloadBits received)[j]? → i ≤ j ∧ j < i + 16

/-- Payloads of one length have as many bits, and they are known by them. -/
theorem payloadBits_inj {sent received : List UInt8} (hlength : sent.length = received.length) :
    (payloadBits sent).length = (payloadBits received).length ∧
      (payloadBits sent = payloadBits received → sent = received) := by
  induction sent generalizing received with
  | nil =>
    rw [List.length_eq_zero_iff.mp hlength.symm]
    exact ⟨rfl, fun _ => rfl⟩
  | cons c sent ih =>
    cases received with
    | nil => cases hlength
    | cons d received =>
      obtain ⟨hbits, hinj⟩ := ih (Nat.succ.inj hlength)
      unfold payloadBits at hbits hinj ⊢
      rw [List.flatMap_cons, List.flatMap_cons, List.length_append, List.length_append, hbits,
        length_bitsOf, length_bitsOf]
      refine ⟨rfl, fun h => ?_⟩
      obtain ⟨hfirst, hrest⟩ := List.append_inj h (by rw [length_bitsOf, length_bitsOf])
      rw [UInt8.toBitVec_inj.mp (bitsOf_injective hfirst), hinj hrest]

/-- The checksum tells the payloads apart. -/
theorem crcOf_ne_of_burst {sent received : List UInt8} (h : Burst sent received) :
    crcOf sent ≠ crcOf received := by
  obtain ⟨i, hinside⟩ := h.inside
  obtain ⟨hlength, hinj⟩ := payloadBits_inj h.length
  intro hsame
  rw [crcOf_eq_bitwiseCrc, crcOf_eq_bitwiseCrc] at hsame
  exact feed_ne_of_burst crcPolynomial (by decide) hlength (fun hbits => h.differ (hinj hbits)) hinside 0#16
    (congrArg UInt16.toBitVec hsame)

/-! ## Damaged frames -/

/-- A frame that was sent with the checksum of one payload and arrives with the bytes of another. -/
inductive ArrivesAs (sent received : List UInt8) : List UInt8 → Prop
  | intro {body : List UInt8} {high low : UInt8} (hbody : Stuffed body received)
      (hcrc : high.toUInt16 <<< 8 ||| low.toUInt16 = crcOf sent) :
      ArrivesAs sent received (([0x16, 0x10, 0x02] : List UInt8) ++ body ++ [0x10, 0x03, high, low])

/-- The receiver drops the frame when the checksums differ. -/
theorem scan_damaged {sent received frame : List UInt8} (h : ArrivesAs sent received frame)
    (hcrc : crcOf sent ≠ crcOf received) : frameReceiver.scan .idle frame = .inr (none, []) := by
  obtain ⟨hbody, htrailer⟩ := h
  rw [scan_trailer hbody, htrailer, if_pos hcrc]

/-- Between other frames it makes no difference to what the stream carries. -/
theorem packetsOf_damaged {sent received frame : List UInt8} (h : ArrivesAs sent received frame)
    (hcrc : crcOf sent ≠ crcOf received) {before : List UInt8} {packets : List (Option (List UInt8))}
    (hbefore : frameReceiver.feed .idle before = (.idle, packets)) (after : List UInt8) :
    packetsOf (before ++ frame ++ after) = packetsOf before ++ packetsOf after := by
  have hscan := frameReceiver.scan_append_of_inr (scan_damaged h hcrc) after
  unfold packetsOf
  rw [List.append_assoc, frameReceiver.feed_append, hbefore, frameReceiver.feed_of_scan_inr hscan,
    List.flatMap_append]
  rfl

namespace DataLink

/-- The checksum of a packet follows its bytes. -/
theorem packetByte_checked {d : DataLink} (h : d.crcIn = crcOf d.rcv) (c : UInt8) :
    (d.packetByte c).crcIn = crcOf (d.packetByte c).rcv := by
  unfold packetByte
  split
  · split
    · exact h
    · dsimp only
      rw [crcOf_append_singleton, h]
  split
  · exact h
  · dsimp only
    rw [crcOf_append_singleton, h]

/-- A packet is handed over only with its own checksum. -/
theorem readPacket_checked {inw fuel : ℕ} {d d' : DataLink} {p : ℕ} {payload : List UInt8}
    (h : d.crcIn = crcOf d.rcv) (hexit : readPacket inw fuel d p = some (.packetEnd d' (some payload))) :
    d'.receivedCRC = crcOf payload := by
  induction fuel generalizing d p with
  | zero => cases hexit
  | succ fuel ih =>
    rw [readPacket] at hexit
    split at hexit
    · cases hexit
    dsimp only at hexit
    split at hexit
    · exact ih (packetByte_checked h _) hexit
    · exact ih (d := { d with receivedCRC := _, inCRCstate := 2 }) h hexit
    · split at hexit
      · cases hexit
      · next hsame =>
        cases hexit
        exact (Decidable.not_not.mp hsame).trans h
    · exact ih h hexit

end DataLink

namespace Line

/-- A burst of errors is noticed: the checksums differ, the packet loop does not hand over the payload that
has arrived with the checksum of the one that was sent, and a stream delivers what it would deliver
without the frame. -/
theorem burst_rejected {sent received : List UInt8} (h : Burst sent received) :
    crcOf sent ≠ crcOf received ∧
    (∀ (inw fuel : ℕ) (d d' : DataLink) (p : ℕ), d.crcIn = crcOf d.rcv →
      d.readPacket inw fuel p = some (.packetEnd d' (some received)) → d'.receivedCRC ≠ crcOf sent) ∧
    ∀ (frame : List UInt8), ArrivesAs sent received frame →
      ∀ (before after : List UInt8) (packets : List (Option (List UInt8))),
      frameReceiver.feed .idle before = (.idle, packets) →
      ∀ (d : DataLink) (events : List LineEvent), d.AtRest → d.justStarted = false →
      Admits step (fun l e => HasRoom l e ∧ Notices l e) (start d) events → EndsConsumed d events →
      events.flatMap LineEvent.bytes = before ++ frame ++ after →
      ∃ l, run d events = some l ∧ l.received = packetsOf before ++ packetsOf after := by
  have hcrc := crcOf_ne_of_burst h
  refine ⟨hcrc, ?_, ?_⟩
  · intro inw fuel d d' p hchecked hexit hsent
    exact hcrc (hsent.symm.trans (DataLink.readPacket_checked hchecked hexit))
  · intro frame hframe before after packets hbefore d events hd hjust hok hend hstream
    obtain ⟨l, hrun, hreceived⟩ := run_received hd hjust hok hend
    exact ⟨l, hrun, by rw [hreceived, hstream, packetsOf_damaged hframe hcrc hbefore]⟩

/-- Two bits, one at the end of a byte and one at the start of the next, are lost between two empty
frames. -/
theorem burst_rejected_between : ∃ l,
    run (.atPosition 4090 (fun _ => 0x16) (fun _ => 0) false)
      [.read [0x16, 0x10, 0x02, 0x10, 0x03, 0x00, 0x00, 0x16, 0x10, 0x02, 0x40],
        .read [0xc2, 0x10, 0x03, 0x56, 0x7b, 0x16, 0x10, 0x02, 0x10, 0x03, 0x00, 0x00],
        .process fun _ => false, .process fun _ => false] = some l ∧ l.received = [[], []] := by
  have hburst : Burst [0x41, 0x42] [0x40, 0xc2] := by
    refine ⟨rfl, by decide, 0, fun j hdiffer => ⟨Nat.zero_le j, Nat.lt_of_not_le fun hj => hdiffer ?_⟩⟩
    rw [List.getElem?_eq_none hj, List.getElem?_eq_none hj]
  have hd : (DataLink.atPosition 4090 (fun _ => 0x16) (fun _ => 0) false).AtRest :=
    ⟨by decide, rfl, rfl, rfl⟩
  have hframe : ArrivesAs [0x41, 0x42] [0x40, 0xc2]
      [0x16, 0x10, 0x02, 0x40, 0xc2, 0x10, 0x03, 0x56, 0x7b] :=
    .intro (.plain (by decide) (.plain (by decide) .nil)) (by decide +kernel)
  exact (burst_rejected hburst).2.2 _ hframe [0x16, 0x10, 0x02, 0x10, 0x03, 0x00, 0x00]
    [0x16, 0x10, 0x02, 0x10, 0x03, 0x00, 0x00] [some []] (by decide +kernel) _ _ hd rfl
    (by decide +kernel)
    ⟨[.read [0x16, 0x10, 0x02, 0x10, 0x03, 0x00, 0x00, 0x16, 0x10, 0x02, 0x40],
        .read [0xc2, 0x10, 0x03, 0x56, 0x7b, 0x16, 0x10, 0x02, 0x10, 0x03, 0x00, 0x00],
        .process fun _ => false], fun _ => false, rfl, by decide +kernel⟩ rfl

end Line

end Plptools
