import Plptools.Link.Model

/-!
# The frames of a link

A frame begins with its type and sequence number, in one byte up to 7 and in two bytes up to `0x7ff`.
The receiver reads back what the sender has written.
-/

namespace Plptools

/-- A number of three bits is in the byte of the type. -/
theorem seqBytes_of_le {type seq : ℕ} (h : seq ≤ 7) (hlt : type ≤ 0xf0) :
    seqBytes type seq = [UInt8.ofNat (type + seq)] := by
  rw [seqBytes, if_neg (by omega), ← lowByte_natCast (by omega)]
  rfl

/-- A larger one takes another byte. -/
theorem seqBytes_of_gt {type seq : ℕ} (h : 7 < seq) (hlt : type ≤ 0xf0) (hmax : seq < 2048) :
    seqBytes type seq = [UInt8.ofNat (type + (seq % 8 + 8)), UInt8.ofNat (seq / 8)] := by
  have hmask : seq &&& 7 = seq % 8 := Nat.and_two_pow_sub_one_eq_mod seq 3
  have hlow : seq % 8 ||| 8 = seq % 8 + 8 := by
    rw [Nat.or_comm, Nat.add_comm]
    exact (Nat.two_pow_add_eq_or_of_lt (b := seq % 8) (i := 3) (by omega) 1).symm
  have hword : ((seq >>> 3) <<< 8) + (type + ((seq &&& 7) ||| 8)) =
      (seq / 8) * 256 + (type + (seq % 8 + 8)) := by
    rw [hmask, hlow, Nat.shiftRight_eq_div_pow, Nat.shiftLeft_eq]
  rw [seqBytes, if_pos (by omega), Int.toNat_natCast]
  dsimp only
  rw [hword, BufferStore.wordBytes]
  set word := (seq / 8) * 256 + (type + (seq % 8 + 8)) with hdef
  have hfirst : ((word : ℤ) % 256).toNat = type + (seq % 8 + 8) := by omega
  have hsecond : ((word : ℤ) >>> (8 : ℕ) % 256).toNat = seq / 8 := by
    rw [Int.shiftRight_eq_div_pow]
    omega
  rw [lowByte, lowByte, hfirst, hsecond]

/-- The first byte of a short header. -/
theorem header_short {type seq : ℕ} (htype : type = 0x00 ∨ type = 0x30) (h : seq < 8)
    (content : List UInt8) :
    header (UInt8.ofNat (type + seq) :: content) = (type, seq, content) := by
  have hlt : type + seq < 256 := by omega
  have hbyte : (UInt8.ofNat (type + seq)).toNat = type + seq := UInt8.toNat_ofNat_of_lt' hlt
  have hall : ∀ x < 8, x &&& 0x0f = x ∧ (0x30 + x) &&& 0x0f = x ∧ x &&& 8 = 0 ∧ x &&& 0xf0 = 0x00 ∧
      (0x30 + x) &&& 0xf0 = 0x30 := by decide
  obtain ⟨hseq, hseq', hbit, hhigh, hhigh'⟩ := hall seq h
  simp only [header, List.getD_cons_zero, hbyte]
  rcases htype with rfl | rfl
  · rw [Nat.zero_add, hseq, hbit, hhigh]
    rfl
  · rw [hseq', hbit, hhigh']
    rfl

/-- The first two bytes of a long header. -/
theorem header_long {type low high : ℕ} (htype : type = 0x00 ∨ type = 0x30) (hlow : low < 8)
    (hhigh : high < 256) (content : List UInt8) :
    header (UInt8.ofNat (type + (low + 8)) :: UInt8.ofNat high :: content) =
      (type, high * 8 + low, content) := by
  have hlt : type + (low + 8) < 256 := by omega
  have hbyte : (UInt8.ofNat (type + (low + 8))).toNat = type + (low + 8) :=
    UInt8.toNat_ofNat_of_lt' hlt
  have hnext : (UInt8.ofNat high).toNat = high := UInt8.toNat_ofNat_of_lt' hhigh
  have hall : ∀ x < 8, (x + 8) &&& 0x0f = x + 8 ∧ (0x30 + (x + 8)) &&& 0x0f = x + 8 ∧
      (x + 8) &&& 8 = 8 ∧ (x + 8) &&& 0x07 = x ∧ (x + 8) &&& 0xf0 = 0x00 ∧
      (0x30 + (x + 8)) &&& 0xf0 = 0x30 := by decide
  obtain ⟨hseq, hseq', hbit, hrest, htop, htop'⟩ := hall low hlow
  simp only [header, List.getD_cons_zero, List.getD_cons_succ, hbyte, hnext, List.drop_succ_cons,
    List.drop_zero]
  rcases htype with rfl | rfl
  · rw [Nat.zero_add, hseq, hbit, hrest, htop, if_pos (by decide), Nat.shiftLeft_eq]
  · rw [hseq', hbit, hrest, htop', if_pos (by decide), Nat.shiftLeft_eq]

/-- The receiver reads the type, the number and the content that the sender has written. -/
theorem header_seqBytes {type seq : ℕ} (htype : type = 0x00 ∨ type = 0x30) (hmax : seq < 2048)
    (content : List UInt8) : header (seqBytes type seq ++ content) = (type, seq, content) := by
  have hle : type ≤ 0xf0 := by omega
  by_cases hshort : seq ≤ 7
  · rw [seqBytes_of_le hshort hle]
    exact header_short htype (Nat.lt_succ_of_le hshort) content
  · have hgt : 7 < seq := Nat.lt_of_not_le hshort
    rw [seqBytes_of_gt hgt hle hmax]
    have hlong := header_long htype (Nat.mod_lt seq (by decide)) (by omega : seq / 8 < 256) content
    rw [Nat.div_add_mod' seq 8] at hlong
    exact hlong

/-- The header of a request for a link. -/
theorem header_req : header [0x21] = (0x20, 1, []) := by decide

/-- The header of a confirmation. -/
theorem header_con (magic : List UInt8) : header (0x24 :: magic) = (0x20, 4, magic) := by
  simp [header]

end Plptools
