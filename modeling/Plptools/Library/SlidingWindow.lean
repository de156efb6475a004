import Mathlib.Data.List.Count
import Mathlib.Data.Nat.ModEq
import Mathlib.Data.List.Pairwise
import Mathlib.Tactic.Ring

/-!
# A sliding window with cyclic numbers

A sender numbers packets from 0 on and keeps at most `W` of them until they are acknowledged; it may
send any of these again, and may give them up. A receiver accepts the packets in order, and
acknowledges with the number of packets it has accepted. Frames and acknowledgements stay in order
on the way and may be lost. On the line a packet carries its number modulo `N`.

If `N` is larger than `W * W + W + 1`, and no packet is kept so long that its number comes up again,
then numbers that are equal modulo `N` are equal whenever the two ends compare them.
-/

namespace Plptools.Library

/-- Numbers less than `N` apart are equal if they are equal modulo `N`. -/
theorem eq_of_mod_eq {t a b N : ℕ} (h : (t + a) % N = (t + b) % N) (hab : a < b + N)
    (hba : b < a + N) : a = b := by
  have hmod : a ≡ b [MOD N] := Nat.ModEq.add_left_cancel' t h
  rcases Nat.le_total a b with hle | hle
  · have hdvd : N ∣ b - a := (Nat.modEq_iff_dvd' hle).mp hmod
    have hzero : b - a = 0 := Nat.eq_zero_of_dvd_of_lt hdvd (by omega)
    omega
  · have hdvd : N ∣ a - b := (Nat.modEq_iff_dvd' hle).mp hmod.symm
    have hzero : a - b = 0 := Nat.eq_zero_of_dvd_of_lt hdvd (by omega)
    omega

/-- The sender has numbered `next` packets and keeps those in `unacked`; the receiver has accepted
`expected` packets, and `acked` is the highest acknowledgement that came in. `data` and `acks` are on
their way. A closed sender numbers no more packets. -/
structure Window where
  next : ℕ
  unacked : List ℕ
  expected : ℕ
  acked : ℕ
  data : List ℕ
  acks : List ℕ
  closed : Bool

namespace Window

/-- What holds at any time. The last field bounds how far the sender can get while a packet is
missing: each acknowledgement that lets it go on takes one of the earlier packets from the window. -/
structure Inv (W N : ℕ) (w : Window) : Prop where
  expected_le : w.expected ≤ w.next
  acked_le : w.acked ≤ w.expected
  sorted : w.unacked.Pairwise (· < ·)
  unacked_lt : ∀ q ∈ w.unacked, q < w.next
  fresh : ∀ q ∈ w.unacked, w.next ≤ q + N
  size : w.unacked.length ≤ W
  data_lt : ∀ j ∈ w.data, j < w.next
  data_recent : ∀ j ∈ w.data, w.expected < j + N
  data_order : w.data.Pairwise fun j k => j + 1 < k + N
  acks_mem : ∀ a ∈ w.acks, w.acked ≤ a ∧ a ≤ w.expected
  acks_sorted : w.acks.Pairwise (· ≤ ·)
  bound : w.next ≤ w.acked + 1 + W + W * W
  lead : w.closed = false → ∀ k, w.acked ≤ k → k < w.next →
    w.next ≤ k + 1 + w.unacked.countP (k < ·) + W * (W - w.unacked.countP (· ≤ k))

variable {W N : ℕ} {w : Window}

/-- Before anything is sent. -/
theorem Inv.init (W N : ℕ) (closed : Bool) : Inv W N ⟨0, [], 0, 0, [], [], closed⟩ :=
  ⟨le_rfl, le_rfl, List.Pairwise.nil, by simp, by simp, Nat.zero_le _, by simp, by simp,
    List.Pairwise.nil, by simp, List.Pairwise.nil, Nat.zero_le _, by simp⟩

/-- Numbers of packets that are kept, on their way, or expected are less than `N` apart. -/
theorem Inv.next_lt (h : w.Inv W N) (hN : W * W + W + 1 < N) : w.next < w.acked + N := by
  have := h.bound
  omega

/-- A new packet is numbered and sent. -/
theorem Inv.send (h : w.Inv W N) (hN : W * W + W + 1 < N) (hopen : w.closed = false)
    (hroom : w.unacked.length < W) (hfresh : ∀ q ∈ w.unacked, w.next < q + N) :
    Inv W N { w with
      next := w.next + 1, unacked := w.unacked ++ [w.next], data := w.data ++ [w.next] } := by
  have hexpected := h.expected_le
  have hacked := h.acked_le
  have hlead : ∀ k, w.acked ≤ k → k < w.next + 1 → w.next + 1 ≤ k + 1 +
      (w.unacked ++ [w.next]).countP (k < ·) + W * (W - (w.unacked ++ [w.next]).countP (· ≤ k)) := by
    intro k hk hlt
    rw [List.countP_append, List.countP_append]
    rcases Nat.lt_succ_iff_lt_or_eq.mp hlt with hlt | rfl
    · have hbefore := h.lead hopen k hk hlt
      have habove : [w.next].countP (k < ·) = 1 := by simpa using hlt
      have hbelow : [w.next].countP (· ≤ k) = 0 := by simpa using hlt
      simp only [habove, hbelow, Nat.add_zero]
      omega
    · omega
  refine ⟨by dsimp only; omega, hacked, ?_, ?_, ?_, ?_, ?_, ?_, ?_, h.acks_mem, h.acks_sorted, ?_,
    fun _ => hlead⟩
  · simp only [List.pairwise_append, List.forall_mem_singleton]
    exact ⟨h.sorted, List.pairwise_singleton _ _, h.unacked_lt⟩
  · simp only [List.forall_mem_append, List.forall_mem_singleton]
    exact ⟨fun q hq => Nat.lt_succ_of_lt (h.unacked_lt q hq), Nat.lt_succ_self _⟩
  · simp only [List.forall_mem_append, List.forall_mem_singleton]
    exact ⟨hfresh, by omega⟩
  · rw [List.length_append, List.length_singleton]
    exact hroom
  · simp only [List.forall_mem_append, List.forall_mem_singleton]
    exact ⟨fun j hj => Nat.lt_succ_of_lt (h.data_lt j hj), Nat.lt_succ_self _⟩
  · simp only [List.forall_mem_append, List.forall_mem_singleton]
    exact ⟨h.data_recent, by omega⟩
  · simp only [List.pairwise_append, List.forall_mem_singleton]
    refine ⟨h.data_order, List.pairwise_singleton _ _, fun j hj => ?_⟩
    have hlt := h.data_lt j hj
    omega
  · have hcount : (w.unacked ++ [w.next]).countP (w.acked < ·) ≤ W := by
      apply List.countP_le_length.trans
      rw [List.length_append, List.length_singleton]
      exact hroom
    have hat := hlead w.acked le_rfl (by omega)
    have hmul : W * (W - (w.unacked ++ [w.next]).countP (· ≤ w.acked)) ≤ W * W :=
      Nat.mul_le_mul_left W (Nat.sub_le _ _)
    dsimp only
    omega

/-- A packet that is kept is sent again. -/
theorem Inv.resend (h : w.Inv W N) {q : ℕ} (hq : q ∈ w.unacked) (hfresh : w.next < q + N) :
    Inv W N { w with data := w.data ++ [q] } := by
  have hexpected := h.expected_le
  refine ⟨hexpected, h.acked_le, h.sorted, h.unacked_lt, h.fresh, h.size, ?_, ?_, ?_, h.acks_mem,
    h.acks_sorted, h.bound, h.lead⟩
  · simp only [List.forall_mem_append, List.forall_mem_singleton]
    exact ⟨h.data_lt, h.unacked_lt q hq⟩
  · simp only [List.forall_mem_append, List.forall_mem_singleton]
    exact ⟨h.data_recent, by omega⟩
  · simp only [List.pairwise_append, List.forall_mem_singleton]
    refine ⟨h.data_order, List.pairwise_singleton _ _, fun j hj => ?_⟩
    have hlt := h.data_lt j hj
    omega

/-- Some packets that are kept are sent again. -/
theorem Inv.resendAll (h : w.Inv W N) {qs : List ℕ} (hqs : ∀ q ∈ qs, q ∈ w.unacked)
    (hfresh : ∀ q ∈ w.unacked, w.next < q + N) : Inv W N { w with data := w.data ++ qs } := by
  induction qs generalizing w with
  | nil => simpa using h
  | cons q rest ih =>
    have hq := hqs q List.mem_cons_self
    have hfirst := h.resend hq (hfresh q hq)
    have hrest := ih hfirst (fun p hp => hqs p (List.mem_cons_of_mem q hp)) hfresh
    simpa only [List.append_assoc, List.singleton_append] using hrest

/-- A closed sender gives packets up. -/
theorem Inv.close (h : w.Inv W N) {kept : List ℕ} (hkept : kept.Sublist w.unacked) :
    Inv W N { w with unacked := kept, closed := true } :=
  ⟨h.expected_le, h.acked_le, h.sorted.sublist hkept, fun q hq => h.unacked_lt q (hkept.subset hq),
    fun q hq => h.fresh q (hkept.subset hq), hkept.length_le.trans h.size, h.data_lt, h.data_recent,
    h.data_order, h.acks_mem, h.acks_sorted, h.bound, fun hopen => by cases hopen⟩

/-- An acknowledgement comes in. If it takes packets from the window, then one that is not behind
the next packet of the receiver. -/
theorem Inv.acknowledge (h : w.Inv W N) {a : ℕ} {kept : List ℕ} (hacked : w.acked ≤ a)
    (hle : a ≤ w.expected) (hacks : ∀ b ∈ w.acks, a ≤ b) (hkept : kept.Sublist w.unacked)
    (htaken : kept = w.unacked ∨ ∃ q ∈ w.unacked, q ≤ a ∧ q ∉ kept) :
    Inv W N { w with unacked := kept, acked := a } := by
  have hexpected := h.expected_le
  refine ⟨hexpected, hle, h.sorted.sublist hkept, fun q hq => h.unacked_lt q (hkept.subset hq),
    fun q hq => h.fresh q (hkept.subset hq), hkept.length_le.trans h.size, h.data_lt, h.data_recent,
    h.data_order, fun b hb => ⟨hacks b hb, (h.acks_mem b hb).2⟩, h.acks_sorted, ?_, fun hopen k hk hlt => ?_⟩
  · have := h.bound
    dsimp only
    omega
  · dsimp only at hk hlt ⊢
    have hlead := h.lead hopen k (hacked.trans hk) hlt
    rcases htaken with rfl | ⟨q, hq, hqa, hgone⟩
    · exact hlead
    · -- one of the packets up to `k` is gone, which makes up for those behind it
      have herase : kept.Sublist (w.unacked.erase q) := by
        have := hkept.erase q
        rwa [List.erase_of_not_mem hgone] at this
      have hcount : kept.countP (· ≤ k) + 1 ≤ w.unacked.countP (· ≤ k) := by
        have hsub := herase.countP_le (p := fun x => decide (x ≤ k))
        have hpos : 0 < w.unacked.countP (· ≤ k) := by
          rw [List.countP_pos_iff]
          exact ⟨q, hq, by simpa using hqa.trans hk⟩
        rw [List.countP_erase, if_pos ⟨hq, by simpa using hqa.trans hk⟩] at hsub
        omega
      have hbelow : w.unacked.countP (· ≤ k) ≤ w.unacked.length := List.countP_le_length
      have habove : w.unacked.countP (k < ·) ≤ w.unacked.length := List.countP_le_length
      have hsize := h.size
      have hmul : W * (W - w.unacked.countP (· ≤ k)) + W ≤ W * (W - kept.countP (· ≤ k)) := by
        rw [← Nat.mul_succ]
        exact Nat.mul_le_mul_left W (by omega)
      omega

/-- The next packet is accepted; the frames behind it are not older than a round. -/
theorem Inv.accept (h : w.Inv W N) (hlt : w.expected < w.next)
    (hrecent : ∀ j ∈ w.data, w.expected + 1 < j + N) :
    Inv W N { w with expected := w.expected + 1 } :=
  ⟨hlt, Nat.le_succ_of_le h.acked_le, h.sorted, h.unacked_lt, h.fresh, h.size, h.data_lt, hrecent,
    h.data_order, fun a ha => ⟨(h.acks_mem a ha).1, Nat.le_succ_of_le (h.acks_mem a ha).2⟩,
    h.acks_sorted, h.bound, h.lead⟩

/-- The receiver acknowledges what it has accepted. -/
theorem Inv.sendAck (h : w.Inv W N) : Inv W N { w with acks := w.acks ++ [w.expected] } := by
  refine ⟨h.expected_le, h.acked_le, h.sorted, h.unacked_lt, h.fresh, h.size, h.data_lt, h.data_recent,
    h.data_order, ?_, ?_, h.bound, h.lead⟩
  · simp only [List.forall_mem_append, List.forall_mem_singleton]
    exact ⟨h.acks_mem, h.acked_le, le_rfl⟩
  · simp only [List.pairwise_append, List.forall_mem_singleton]
    exact ⟨h.acks_sorted, List.pairwise_singleton _ _, fun a ha => (h.acks_mem a ha).2⟩

/-- Frames and acknowledgements are lost, and the sender may be closed. -/
theorem Inv.lose (h : w.Inv W N) {data acks : List ℕ} (hdata : data.Sublist w.data)
    (hacks : acks.Sublist w.acks) {closed : Bool} (hclosed : closed = false → w.closed = false) :
    Inv W N { w with data := data, acks := acks, closed := closed } :=
  ⟨h.expected_le, h.acked_le, h.sorted, h.unacked_lt, h.fresh, h.size,
    fun j hj => h.data_lt j (hdata.subset hj), fun j hj => h.data_recent j (hdata.subset hj),
    h.data_order.sublist hdata, fun a ha => h.acks_mem a (hacks.subset ha), h.acks_sorted.sublist hacks,
    h.bound, fun hopen => h.lead (hclosed hopen)⟩

/-- A frame with the number that the receiver expects is the expected packet. -/
theorem Inv.data_eq (h : w.Inv W N) (hN : W * W + W + 1 < N) {t j : ℕ} (hj : j ∈ w.data)
    (heq : (t + w.expected) % N = (t + j) % N) : j = w.expected := by
  have hrecent := h.data_recent j hj
  have hlt := h.data_lt j hj
  have hnext := h.next_lt hN
  have hacked := h.acked_le
  exact (eq_of_mod_eq heq hrecent (by omega)).symm

/-- An acknowledgement with the number of a packet that is kept is the one sent when that packet
had been accepted last. -/
theorem Inv.ack_eq (h : w.Inv W N) (hN : W * W + W + 1 < N) {t a q : ℕ} (hq : q ∈ w.unacked)
    (hfresh : w.next < q + N) (hacked : w.acked ≤ a) (hle : a ≤ w.expected)
    (heq : (t + a) % N = (t + (q + 1)) % N) : q + 1 = a := by
  have hlt := h.unacked_lt q hq
  have hnext := h.next_lt hN
  have hexpected := h.expected_le
  exact (eq_of_mod_eq heq (by omega) (by omega)).symm

/-- A packet that is kept and has the number of the next one the receiver expects is that packet. -/
theorem Inv.hint_eq (h : w.Inv W N) (hN : W * W + W + 1 < N) {t a q : ℕ} (hq : q ∈ w.unacked)
    (hfresh : w.next < q + N) (hacked : w.acked ≤ a) (hle : a ≤ w.expected)
    (heq : (t + a) % N = (t + q) % N) : q = a := by
  have hlt := h.unacked_lt q hq
  have hnext := h.next_lt hN
  have hexpected := h.expected_le
  exact (eq_of_mod_eq heq (by omega) (by omega)).symm

end Window

end Plptools.Library
