import Plptools.DataLink.Frame

/-!
# The parser against the receiver

`processInputData` keeps its place between two calls in its own members: a packet that has begun
goes on at `lastSYN`, and a header search starts again at the last SYN it saw. Here each loop is
shown to read the bytes from its index to the write index the way the receiver does.

The header search compares its index with the write index before it reduces it to the ring. When
the write index is 0 and the search arrives there over the physical end, it does not stop; the
results about it assume that this does not happen.
-/

namespace Plptools

open Plptools.Library

namespace DataLink

/-- The bytes from an index up to the write index. -/
def inputFrom (d : DataLink) (i : ℕ) : List UInt8 :=
  ringSlice BUFLEN d.inBuffer i (ringUsed BUFLEN i d.inWrite)

/-- The bytes that the parser has not done with. -/
def unread (d : DataLink) : List UInt8 := d.inputFrom d.inRead

/-- The index at which parsing goes on. -/
def cursor (d : DataLink) : ℕ := if d.lastSYN ≥ 0 then d.lastSYN.toNat else d.inRead

/-- The members of the parser hold a state of the receiver. A header search holds only `idle`. -/
def Holds (d : DataLink) : ReceiverState → Prop
  | .idle => d.startPkt < 0
  | .data esc crc rcv => 0 ≤ d.startPkt ∧ d.inCRCstate = 0 ∧ d.esc = esc ∧ d.crcIn = crc ∧ d.rcv = rcv
  | .crcHigh crc rcv => 0 ≤ d.startPkt ∧ d.inCRCstate = 1 ∧ d.crcIn = crc ∧ d.rcv = rcv
  | .crcLow high crc rcv =>
    0 ≤ d.startPkt ∧ d.inCRCstate = 2 ∧ d.receivedCRC = high ∧ d.crcIn = crc ∧ d.rcv = rcv
  | _ => False

/-- What the header search leaves behind after it read `input` from index `q` on: it stands behind
a header, or it has read everything and will start again at a SYN from which the rest is still to
be searched. -/
inductive Searched (d : DataLink) (q : ℕ) (input : List UInt8) : DataLink → ℕ → Prop
  | found (k : ℕ) (hk : k ≤ input.length)
      (hscan : frameReceiver.scan .idle (input.take k) = .inl (.data false 0 [])) :
      Searched d q input
        { d with
          lastSYN := ((q + k) % BUFLEN : ℕ), startPkt := ((q + k) % BUFLEN : ℕ)
          crcIn := 0, inCRCstate := 0, rcv := [], esc := false } ((q + k) % BUFLEN)
  | ended (k : ℕ) (v : ℤ) (s : ReceiverState) (p : ℕ) (hk : k ≤ input.length)
      (hv : v = ((q + k) % BUFLEN : ℕ) ∨ k = 0 ∧ v = d.lastSYN)
      (hscan : frameReceiver.scan .idle (input.take k) = .inl .idle)
      (hall : frameReceiver.scan .idle input = .inl s) (hs : s.Searching) :
      Searched d q input { d with lastSYN := v } p

/-- What a search does after some noise, it does from before the noise. -/
theorem Searched.after {d d' : DataLink} {q p : ℕ} {v : ℤ} {noise rest : List UInt8} (hq : q < BUFLEN)
    (hv : v = q ∨ v = d.lastSYN) (hnoise : frameReceiver.scan .idle noise = .inl .idle)
    (h : Searched { d with lastSYN := v } ((q + noise.length) % BUFLEN) rest d' p) :
    Searched d q (noise ++ rest) d' p := by
  have hindex (k : ℕ) : ((q + noise.length) % BUFLEN + k) % BUFLEN =
      (q + (noise.length + k)) % BUFLEN := by
    rw [Nat.mod_add_mod, Nat.add_assoc]
  have hskip := frameReceiver.scan_append_of_inl hnoise
  cases h with
  | found k hk hscan =>
    rw [hindex]
    apply Searched.found
    · rw [List.length_append]
      omega
    · rw [List.take_length_add_append, hskip, hscan]
  | ended k w s p hk hw hscan hall hs =>
    have hall' : frameReceiver.scan .idle (noise ++ rest) = .inl s := by rw [hskip, hall]
    rcases hw with rfl | ⟨rfl, rfl⟩
    · rw [hindex]
      refine .ended (noise.length + k) _ s p ?_ (Or.inl rfl) ?_ hall' hs
      · rw [List.length_append]
        omega
      · rw [List.take_length_add_append, hskip, hscan]
    · refine .ended 0 _ s p (Nat.zero_le _) ?_ rfl hall' hs
      rcases hv with rfl | rfl
      · exact Or.inl (by rw [Nat.add_zero, Nat.mod_eq_of_lt hq])
      · exact Or.inr ⟨rfl, rfl⟩

/-- A search stands at index `p` with `n` bytes to read, and will notice the write index. -/
structure Ready (inw : ℕ) (cells : ℕ → UInt8) (p n : ℕ) : Prop where
  bound : p ≤ BUFLEN
  count : n < BUFLEN
  reach : (p + n) % BUFLEN = inw
  stop : n = 0 → p = inw
  notice : inw = 0 → n ≠ 0 → frameReceiver.scan .idle (ringSlice BUFLEN cells (p % BUFLEN) n) ≠ .inl .idle

/-- A search with bytes to read is not at the write index. -/
theorem index_ne {p n inw : ℕ} (hn : n < BUFLEN) (hpos : n ≠ 0) (hinw : inw < BUFLEN)
    (hreach : (p + n) % BUFLEN = inw) : p ≠ inw := by
  intro hp
  subst hp
  unfold BUFLEN at *
  omega

/-- A search stands before `n` bytes and has yet to arrive at the write index behind them. -/
structure Approaching (inw p n : ℕ) : Prop where
  ne : n ≠ 0 → p ≠ inw
  ne_add : ∀ k, 0 < k → k < n → (p + k) % BUFLEN ≠ inw
  reach : (p + n) % BUFLEN = inw

/-- A search that is ready approaches the write index. -/
theorem Ready.approaching {inw p n : ℕ} {cells : ℕ → UInt8} (hinw : inw < BUFLEN)
    (h : Ready inw cells p n) : Approaching inw p n := by
  have hcount := h.count
  have hreach := h.reach
  refine ⟨fun hn => index_ne hcount hn hinw hreach, fun k hpos hk heq => ?_, hreach⟩
  rw [← heq] at hreach
  unfold BUFLEN at *
  omega

/-- Behind some noise that ends at index `q` a search still approaches the write index. -/
theorem Approaching.skip {inw p q n m : ℕ} {noise : List UInt8} (h : Approaching inw p n)
    (hindex : (q + 1) % BUFLEN = (p + noise.length) % BUFLEN)
    (hm : n = noise.length + m) (hpos : noise.length ≠ 0) : Approaching inw (q + 1) m := by
  have hshift (k : ℕ) : (q + 1 + k) % BUFLEN = (p + (noise.length + k)) % BUFLEN := by
    rw [← Nat.mod_add_mod, hindex, Nat.mod_add_mod, Nat.add_assoc]
  refine ⟨fun hrest heq => ?_, fun k hk hlt => ?_, ?_⟩
  · apply h.ne_add noise.length (Nat.pos_of_ne_zero hpos) (by omega)
    rw [← hindex, heq]
    have hreach := h.reach
    exact Nat.mod_eq_of_lt (hreach ▸ Nat.mod_lt _ (by decide))
  · rw [hshift]
    exact h.ne_add _ (by omega) (by omega)
  · rw [hshift, ← hm, h.reach]

/-- What one round of the header search does from index `p` with `n` bytes to read: it ends the
search, or it goes on behind some noise that ends at index `q`. -/
inductive SearchRound (inw : ℕ) (d : DataLink) (p n : ℕ) : Prop
  | ends (d' : DataLink) (p' : ℕ) (hrun : ∀ fuel, searchHeader inw (fuel + 1) d p = some (d', p'))
      (hsearched : Searched d (p % BUFLEN) (ringSlice BUFLEN d.inBuffer (p % BUFLEN) n) d' p')
  | goesOn (q m : ℕ) (noise : List UInt8) (v : ℤ) (hv : v = (p % BUFLEN : ℕ) ∨ v = d.lastSYN)
      (hq : q < BUFLEN) (hindex : (q + 1) % BUFLEN = (p + noise.length) % BUFLEN)
      (hm : n = noise.length + m) (hpos : noise.length ≠ 0)
      (hslice : ringSlice BUFLEN d.inBuffer (p % BUFLEN) n =
        noise ++ ringSlice BUFLEN d.inBuffer ((q + 1) % BUFLEN) m)
      (hnoise : frameReceiver.scan .idle noise = .inl .idle)
      (hrun : ∀ fuel, searchHeader inw (fuel + 1) d p =
        searchHeader inw fuel { d with lastSYN := v } (q + 1))

section

variable {inw n p : ℕ} {d : DataLink}

/-- A search with two bytes to read does not arrive with the first. -/
theorem Approaching.ne_succ (h : Approaching inw p n) (hn : 1 < n) : (p % BUFLEN + 1) % BUFLEN ≠ inw := by
  rw [Nat.mod_add_mod]
  exact h.ne_add 1 Nat.one_pos hn

/-- A search with three bytes to read does not arrive with the second. -/
theorem Approaching.ne_succ_succ (h : Approaching inw p n) (hn : 2 < n) :
    ((p % BUFLEN + 1) % BUFLEN + 1) % BUFLEN ≠ inw := by
  rw [Nat.mod_add_mod, Nat.add_assoc, Nat.mod_add_mod]
  exact h.ne_add 2 Nat.two_pos hn

/-- Behind SYN and DLE: the header is complete, or was none. -/
theorem searchRound_dle (h : Approaching inw p (n + 3))
    (hsyn : d.inBuffer (p % BUFLEN) = 0x16) (hdle : d.inBuffer ((p % BUFLEN + 1) % BUFLEN) = 0x10) :
    SearchRound inw d p (n + 3) := by
  have hne := h.ne (Nat.succ_ne_zero _)
  have hne₁ := h.ne_succ (by omega)
  have hne₂ := h.ne_succ_succ (by omega)
  by_cases hstx : d.inBuffer (((p % BUFLEN + 1) % BUFLEN + 1) % BUFLEN) = 0x02
  · have hindex : (((p % BUFLEN + 1) % BUFLEN + 1) % BUFLEN + 1) % BUFLEN = (p % BUFLEN + 3) % BUFLEN := by
      simp only [Nat.mod_add_mod]
    refine .ends _ _ (fun fuel => ?_) (.found 3 (by simp) ?_)
    · rw [searchHeader, if_neg hne]
      simp only [normalize, hsyn, hdle, hstx, hne₁, hne₂, hindex, ne_eq, not_true_eq_false, if_false]
    · change frameReceiver.scan .idle [d.inBuffer (p % BUFLEN), d.inBuffer ((p % BUFLEN + 1) % BUFLEN),
        d.inBuffer (((p % BUFLEN + 1) % BUFLEN + 1) % BUFLEN)] = _
      rw [scan_idle_cons, if_pos hsyn, scan_syn_cons, if_pos hdle, scan_dle_cons, if_pos hstx]
      rfl
  · refine .goesOn _ n [d.inBuffer (p % BUFLEN), d.inBuffer ((p % BUFLEN + 1) % BUFLEN),
      d.inBuffer (((p % BUFLEN + 1) % BUFLEN + 1) % BUFLEN)] _ (Or.inl rfl) (Nat.mod_lt _ (by decide))
      (by simp) (by simp; omega) (by simp) rfl ?_ fun fuel => ?_
    · rw [scan_idle_cons, if_pos hsyn, scan_syn_cons, if_pos hdle, scan_dle_cons, if_neg hstx]
      rfl
    · rw [searchHeader, if_neg hne]
      simp only [normalize, hsyn, hdle, hstx, hne₁, hne₂, ne_eq, not_true_eq_false, not_false_eq_true,
        if_false, if_true]

/-- Behind SYN. -/
theorem searchRound_syn (h : Approaching inw p (n + 2))
    (hsyn : d.inBuffer (p % BUFLEN) = 0x16) : SearchRound inw d p (n + 2) := by
  have hne := h.ne (Nat.succ_ne_zero _)
  have hne₁ := h.ne_succ (by omega)
  by_cases hdle : d.inBuffer ((p % BUFLEN + 1) % BUFLEN) = 0x10
  swap
  · refine .goesOn _ n [d.inBuffer (p % BUFLEN), d.inBuffer ((p % BUFLEN + 1) % BUFLEN)] _ (Or.inl rfl)
      (Nat.mod_lt _ (by decide)) (by simp) (by simp; omega) (by simp) rfl ?_ fun fuel => ?_
    · rw [scan_idle_cons, if_pos hsyn, scan_syn_cons, if_neg hdle]
      rfl
    · rw [searchHeader, if_neg hne]
      simp only [normalize, hsyn, hdle, hne₁, ne_eq, not_true_eq_false, not_false_eq_true, if_false, if_true]
  cases n with
  | succ n => exact searchRound_dle h hsyn hdle
  | zero =>
    have hend : ((p % BUFLEN + 1) % BUFLEN + 1) % BUFLEN = inw := by
      rw [Nat.mod_add_mod, Nat.add_assoc, Nat.mod_add_mod]
      exact h.reach
    refine .ends _ inw (fun fuel => ?_) (.ended 0 _ .dle _ (Nat.zero_le _)
      (Or.inl (by rw [Nat.add_zero, Nat.mod_mod])) rfl ?_ trivial)
    · rw [searchHeader, if_neg hne]
      simp only [normalize, hsyn, hdle, hne₁, hend, ne_eq, not_true_eq_false, if_false, if_true]
    · rw [ringSlice, ringSlice, scan_idle_cons, if_pos hsyn, scan_syn_cons, if_pos hdle]
      rfl

/-- A round with bytes to read ends the search, or skips some of them. -/
theorem searchRound_spec (h : Approaching inw p (n + 1)) : SearchRound inw d p (n + 1) := by
  have hne := h.ne (Nat.succ_ne_zero _)
  by_cases hsyn : d.inBuffer (p % BUFLEN) = 0x16
  swap
  · refine .goesOn _ n [d.inBuffer (p % BUFLEN)] _ (Or.inr rfl) (Nat.mod_lt _ (by decide)) (by simp)
      (Nat.add_comm n 1) (by simp) rfl (by simp [hsyn]) fun fuel => ?_
    rw [searchHeader, if_neg hne]
    simp only [normalize, hsyn, ne_eq, not_false_eq_true, if_true]
  cases n with
  | succ n => exact searchRound_syn h hsyn
  | zero =>
    have hend : (p % BUFLEN + 1) % BUFLEN = inw := by
      rw [Nat.mod_add_mod]
      exact h.reach
    refine .ends _ inw (fun fuel => ?_) (.ended 0 _ .syn _ (Nat.zero_le _)
      (Or.inl (by rw [Nat.add_zero, Nat.mod_mod])) rfl (by simp [ringSlice, hsyn]) trivial)
    rw [searchHeader, if_neg hne]
    simp only [normalize, hsyn, hend, ne_eq, not_true_eq_false, if_false, if_true]

end

/-- Where the bytes are noise, no round ends the search before it arrives behind them. -/
theorem searchHeader_one_of_noise {inw n p : ℕ} {d : DataLink} (h : Approaching inw p (n + 1))
    (hnoise : frameReceiver.scan .idle (ringSlice BUFLEN d.inBuffer (p % BUFLEN) (n + 1)) = .inl .idle) :
    searchHeader inw 1 d p = none := by
  have hne := h.ne (Nat.succ_ne_zero _)
  rw [searchHeader, if_neg hne]
  by_cases hsyn : d.inBuffer (p % BUFLEN) = 0x16
  swap
  · simp [normalize, hsyn, searchHeader]
  cases n with
  | zero => simp [ringSlice, hsyn] at hnoise
  | succ n =>
    have hne₁ := h.ne_succ (by omega)
    by_cases hdle : d.inBuffer ((p % BUFLEN + 1) % BUFLEN) = 0x10
    swap
    · simp only [normalize, hsyn, hdle, hne₁, ne_eq, not_true_eq_false, not_false_eq_true, if_false,
        if_true]
      rfl
    cases n with
    | zero =>
      rw [ringSlice, ringSlice, scan_idle_cons, if_pos hsyn, scan_syn_cons, if_pos hdle] at hnoise
      cases hnoise
    | succ n =>
      have hne₂ := h.ne_succ_succ (by omega)
      by_cases hstx : d.inBuffer (((p % BUFLEN + 1) % BUFLEN + 1) % BUFLEN) = 0x02
      · rw [ringSlice, ringSlice, ringSlice, scan_idle_cons, if_pos hsyn, scan_syn_cons, if_pos hdle,
          scan_dle_cons, if_pos hstx] at hnoise
        exact absurd trivial (not_searching_of_scan id hnoise)
      · simp only [normalize, hsyn, hdle, hstx, hne₁, hne₂, ne_eq, not_true_eq_false,
          not_false_eq_true, if_false, if_true]
        rfl

/-- A search that meets a header, or the beginning of one at the end, reads the bytes up to there. -/
theorem searchHeader_of_heard {inw : ℕ} (n : ℕ) (d : DataLink) (p : ℕ) (h : Approaching inw p n)
    (hheard : frameReceiver.scan .idle (ringSlice BUFLEN d.inBuffer (p % BUFLEN) n) ≠ .inl .idle) :
    ∃ d' p', (∀ fuel, n < fuel → searchHeader inw fuel d p = some (d', p')) ∧
      Searched d (p % BUFLEN) (ringSlice BUFLEN d.inBuffer (p % BUFLEN) n) d' p' := by
  induction n using Nat.strong_induction_on generalizing d p with
  | _ n ih =>
    cases n with
    | zero => exact absurd rfl hheard
    | succ n =>
      cases searchRound_spec (d := d) h with
      | ends d' p' hrun hsearched =>
        refine ⟨d', p', fun fuel hfuel => ?_, hsearched⟩
        obtain ⟨fuel, rfl⟩ := Nat.exists_eq_succ_of_ne_zero (Nat.ne_of_gt (Nat.zero_lt_of_lt hfuel))
        exact hrun fuel
      | goesOn q m noise v hv hq hindex hm hpos hslice hnoise hrun =>
        rw [hslice, frameReceiver.scan_append_of_inl hnoise] at hheard
        obtain ⟨d', p', hrest, hsearched⟩ :=
          ih m (by omega) { d with lastSYN := v } (q + 1) (h.skip hindex hm hpos) hheard
        have hstart : (q + 1) % BUFLEN = (p % BUFLEN + noise.length) % BUFLEN := by
          rw [hindex, Nat.mod_add_mod]
        refine ⟨d', p', fun fuel hfuel => ?_, ?_⟩
        · obtain ⟨fuel, rfl⟩ := Nat.exists_eq_succ_of_ne_zero (Nat.ne_of_gt (Nat.zero_lt_of_lt hfuel))
          rw [hrun]
          exact hrest fuel (by omega)
        · rw [hslice]
          rw [hstart] at hsearched ⊢
          exact hsearched.after (Nat.mod_lt _ (by decide)) hv hnoise

/-- The index at which a search stands that has read only noise up to the write index. -/
def arrival (inw : ℕ) : ℕ := if inw = 0 then BUFLEN else inw

/-- A search through noise arrives behind it, and has ended only if the index there is the write
index as it stands. -/
theorem searchHeader_of_noise {inw : ℕ} (n : ℕ) (d : DataLink) (p : ℕ) (h : Approaching inw p n)
    (hn : n ≠ 0)
    (hnoise : frameReceiver.scan .idle (ringSlice BUFLEN d.inBuffer (p % BUFLEN) n) = .inl .idle) :
    ∃ k ≤ n, ∃ v, (∀ fuel, searchHeader inw (fuel + k) d p =
        searchHeader inw fuel { d with lastSYN := v } (arrival inw)) ∧
      ∀ p', Searched d (p % BUFLEN) (ringSlice BUFLEN d.inBuffer (p % BUFLEN) n)
        { d with lastSYN := v } p' := by
  induction n using Nat.strong_induction_on generalizing d p with
  | _ n ih =>
    obtain ⟨n, rfl⟩ := Nat.exists_eq_succ_of_ne_zero hn
    cases searchRound_spec (d := d) h with
    | ends d' p' hrun hsearched =>
      have hone := searchHeader_one_of_noise h hnoise
      rw [hrun 0] at hone
      cases hone
    | goesOn q m noise v hv hq hindex hm hpos hslice hskipped hrun =>
      have happ := h.skip hindex hm hpos
      have hstart : (q + 1) % BUFLEN = (p % BUFLEN + noise.length) % BUFLEN := by
        rw [hindex, Nat.mod_add_mod]
      rw [hslice, frameReceiver.scan_append_of_inl hskipped] at hnoise
      rw [hslice]
      by_cases hm₀ : m = 0
      · subst hm₀
        have harrival : q + 1 = arrival inw := by
          have hreach := happ.reach
          unfold arrival BUFLEN at *
          split <;> omega
        refine ⟨1, by omega, v, fun fuel => by rw [hrun, harrival], fun p' => ?_⟩
        refine Searched.after (Nat.mod_lt _ (by decide)) hv hskipped ?_
        exact .ended 0 v .idle p' le_rfl (Or.inr ⟨rfl, rfl⟩) rfl rfl trivial
      · obtain ⟨k, hk, w, hrest, hsearched⟩ := ih m (by omega) { d with lastSYN := v } (q + 1) happ
          hm₀ hnoise
        refine ⟨k + 1, by omega, w, fun fuel => ?_, fun p' => ?_⟩
        · rw [← Nat.add_assoc, hrun]
          exact hrest fuel
        · have hsearched' := hsearched p'
          rw [hstart] at hsearched' ⊢
          exact hsearched'.after (Nat.mod_lt _ (by decide)) hv hskipped

/-- The header search reads the bytes up to the write index. -/
theorem searchHeader_spec {inw : ℕ} (hinw : inw < BUFLEN) (fuel n : ℕ) (d : DataLink) (p : ℕ)
    (hfuel : n < fuel) (hready : Ready inw d.inBuffer p n) :
    ∃ d' p', searchHeader inw fuel d p = some (d', p') ∧
      Searched d (p % BUFLEN) (ringSlice BUFLEN d.inBuffer (p % BUFLEN) n) d' p' := by
  have happ := hready.approaching hinw
  by_cases hn : n = 0
  · subst hn
    obtain ⟨fuel, rfl⟩ := Nat.exists_eq_succ_of_ne_zero (Nat.ne_of_gt hfuel)
    rw [searchHeader, if_pos (hready.stop rfl)]
    exact ⟨d, p, rfl, .ended 0 d.lastSYN .idle p le_rfl (Or.inr ⟨rfl, rfl⟩) rfl rfl trivial⟩
  by_cases hnoise : frameReceiver.scan .idle (ringSlice BUFLEN d.inBuffer (p % BUFLEN) n) = .inl .idle
  · have hnotice : inw ≠ 0 := fun hzero => hready.notice hzero hn hnoise
    obtain ⟨k, hk, v, hrun, hsearched⟩ := searchHeader_of_noise n d p happ hn hnoise
    obtain ⟨rest, rfl⟩ := Nat.exists_eq_add_of_lt (lt_of_le_of_lt hk hfuel)
    refine ⟨{ d with lastSYN := v }, inw, ?_, hsearched inw⟩
    rw [Nat.add_assoc, Nat.add_comm, hrun, arrival, if_neg hnotice, searchHeader, if_pos rfl]
  · obtain ⟨d', p', hrun, hsearched⟩ := searchHeader_of_heard n d p happ hnoise
    exact ⟨d', p', hrun fuel hfuel, hsearched⟩

/-- With more fuel a search ends as it has ended. -/
theorem searchHeader_mono {inw fuel more : ℕ} {d : DataLink} {p : ℕ} {r : DataLink × ℕ}
    (h : searchHeader inw fuel d p = some r) (hle : fuel ≤ more) : searchHeader inw more d p = some r := by
  induction fuel generalizing more d p with
  | zero => cases h
  | succ fuel ih =>
    obtain ⟨more, rfl⟩ := Nat.exists_eq_succ_of_ne_zero (by omega : more ≠ 0)
    have hle' := Nat.le_of_succ_le_succ hle
    simp only [searchHeader] at h ⊢
    grind

/-- Two states that differ in what the parser holds and not in the bytes it reads. -/
structure SameInput (d d' : DataLink) : Prop where
  inBuffer : d'.inBuffer = d.inBuffer
  inWrite : d'.inWrite = d.inWrite
  justStarted : d'.justStarted = d.justStarted

/-- One step after the other. -/
theorem SameInput.trans {d₁ d₂ d₃ : DataLink} (h : d₁.SameInput d₂) (h' : d₂.SameInput d₃) :
    d₁.SameInput d₃ :=
  ⟨h'.inBuffer.trans h.inBuffer, h'.inWrite.trans h.inWrite, h'.justStarted.trans h.justStarted⟩

/-- A byte of the packet moves the parser as it moves the receiver. -/
theorem packetByte_spec {d : DataLink} {esc : Bool} {crc : UInt16} {rcv : List UInt8}
    (h : d.Holds (.data esc crc rcv)) (c : UInt8) :
    ∃ s, receiverStep (.data esc crc rcv) c = .inl s ∧ ¬s.Searching ∧ (d.packetByte c).Holds s ∧
      d.SameInput (d.packetByte c) ∧ (d.packetByte c).inRead = d.inRead := by
  obtain ⟨hstart, hstate, rfl, rfl, rfl⟩ := h
  unfold packetByte
  cases hesc : d.esc with
  | true =>
    by_cases hetx : c = 0x03
    · refine ⟨.crcHigh d.crcIn d.rcv, by rw [receiverStep, if_pos hetx], id, ?_⟩
      rw [if_pos rfl, if_pos hetx]
      exact ⟨⟨hstart, rfl, rfl, rfl⟩, ⟨rfl, rfl, rfl⟩, rfl⟩
    · refine ⟨.data false (addToCrc (unescape c) d.crcIn) (d.rcv ++ [unescape c]),
        by rw [receiverStep, if_neg hetx], id, ?_⟩
      rw [if_pos rfl, if_neg hetx]
      exact ⟨⟨hstart, hstate, rfl, rfl, rfl⟩, ⟨rfl, rfl, rfl⟩, rfl⟩
  | false =>
    rw [if_neg Bool.false_ne_true]
    by_cases hdle : c = 0x10
    · refine ⟨.data true d.crcIn d.rcv, by rw [receiverStep, if_pos hdle], id, ?_⟩
      rw [if_pos hdle]
      exact ⟨⟨hstart, hstate, rfl, rfl, rfl⟩, ⟨rfl, rfl, rfl⟩, rfl⟩
    · refine ⟨.data false (addToCrc c d.crcIn) (d.rcv ++ [c]), by rw [receiverStep, if_neg hdle],
        id, ?_⟩
      rw [if_neg hdle]
      exact ⟨⟨hstart, hstate, rfl, rfl, rfl⟩, ⟨rfl, rfl, rfl⟩, rfl⟩

/-- What the packet loop does from index `p` when the receiver makes of the `n` bytes from there on
what is given: it stops at the write index inside the packet, or behind the end of the packet. -/
inductive PacketRead (d : DataLink) (p n : ℕ) :
    ReceiverState ⊕ (Option (List UInt8) × List UInt8) → PacketExit → Prop
  | inputEnd {d' : DataLink} {s : ReceiverState} (hsame : d.SameInput d') (hread : d'.inRead = d.inRead)
      (hholds : d'.Holds s) (hs : ¬s.Searching) :
      PacketRead d p n (.inl s) (.inputEnd d' ((p + n) % BUFLEN))
  | packetEnd {d' : DataLink} {packet : Option (List UInt8)} {rest : List UInt8}
      (hsame : d.SameInput d') (hrest : rest.length < n)
      (hread : d'.inRead = (p + (n - rest.length)) % BUFLEN)
      (hstart : d'.startPkt = -1) (hsyn : d'.lastSYN = -1) :
      PacketRead d p n (.inr (packet, rest)) (.packetEnd d' packet)

/-- The packet loop goes on as after its first byte. -/
theorem PacketRead.step {d d₁ : DataLink} {p n : ℕ}
    {outcome : ReceiverState ⊕ (Option (List UInt8) × List UInt8)} {exit : PacketExit}
    (hsame : d.SameInput d₁) (hread : d₁.inRead = d.inRead)
    (h : PacketRead d₁ ((p + 1) % BUFLEN) n outcome exit) : PacketRead d p (n + 1) outcome exit := by
  have hindex (k : ℕ) : ((p + 1) % BUFLEN + k) % BUFLEN = (p + (k + 1)) % BUFLEN := by
    rw [Nat.mod_add_mod, Nat.add_assoc, Nat.add_comm 1 k]
  cases h with
  | inputEnd hsame' hread' hholds hs =>
    rw [hindex]
    exact .inputEnd (hsame.trans hsame') (hread'.trans hread) hholds hs
  | packetEnd hsame' hrest hread' hstart hsyn =>
    refine .packetEnd (hsame.trans hsame') (by omega) ?_ hstart hsyn
    rw [hread', hindex, Nat.sub_add_comm (le_of_lt hrest)]

/-- With more fuel the packet loop is left as it has been left. -/
theorem readPacket_mono {inw fuel more : ℕ} {d : DataLink} {p : ℕ} {exit : PacketExit}
    (h : readPacket inw fuel d p = some exit) (hle : fuel ≤ more) : readPacket inw more d p = some exit := by
  induction fuel generalizing more d p with
  | zero => cases h
  | succ fuel ih =>
    obtain ⟨more, rfl⟩ := Nat.exists_eq_succ_of_ne_zero (by omega : more ≠ 0)
    have hle' := Nat.le_of_succ_le_succ hle
    simp only [readPacket] at h ⊢
    split at h
    · rwa [if_pos ‹_›]
    · rw [if_neg ‹_›]
      split at h <;> first | exact ih h hle' | exact h

/-- The packet loop reads the bytes up to the write index, or up to the end of the packet. -/
theorem readPacket_spec {inw : ℕ} (hinw : inw < BUFLEN) (fuel n : ℕ) (d : DataLink) (p : ℕ)
    (s : ReceiverState) (hfuel : n < fuel) (hn : n < BUFLEN) (hp : p < BUFLEN)
    (hreach : (p + n) % BUFLEN = inw) (hholds : d.Holds s) (hs : ¬s.Searching) :
    ∃ exit, readPacket inw fuel d p = some exit ∧
      PacketRead d p n (frameReceiver.scan s (ringSlice BUFLEN d.inBuffer p n)) exit := by
  induction n generalizing fuel d p s with
  | zero =>
    obtain ⟨fuel, rfl⟩ := Nat.exists_eq_succ_of_ne_zero (Nat.ne_of_gt hfuel)
    have hp' : p = inw := by rw [← hreach, Nat.add_zero, Nat.mod_eq_of_lt hp]
    refine ⟨.inputEnd d p, by rw [readPacket, if_pos hp'], ?_⟩
    rw [ringSlice, scan_nil]
    have hend : PacketRead d p 0 (.inl s) (.inputEnd d ((p + 0) % BUFLEN)) :=
      .inputEnd ⟨rfl, rfl, rfl⟩ rfl hholds hs
    rwa [Nat.add_zero, Nat.mod_eq_of_lt hp] at hend
  | succ n ih =>
    obtain ⟨fuel, rfl⟩ := Nat.exists_eq_succ_of_ne_zero (Nat.ne_of_gt (Nat.zero_lt_of_lt hfuel))
    have hlt : (p + 1) % BUFLEN < BUFLEN := Nat.mod_lt _ (by decide)
    have hreach' : ((p + 1) % BUFLEN + n) % BUFLEN = inw := by
      rw [Nat.mod_add_mod, Nat.add_assoc, Nat.add_comm 1 n, hreach]
    rw [readPacket, if_neg (index_ne hn (Nat.succ_ne_zero n) hinw hreach), ringSlice]
    have hgo (d₁ : DataLink) (s₁ : ReceiverState) (hsame : d.SameInput d₁)
        (hread : d₁.inRead = d.inRead) (hholds₁ : d₁.Holds s₁) (hs₁ : ¬s₁.Searching) :
        ∃ exit, readPacket inw fuel d₁ (inc1 p) = some exit ∧ PacketRead d p (n + 1)
          (frameReceiver.scan s₁ (ringSlice BUFLEN d.inBuffer ((p + 1) % BUFLEN) n)) exit := by
      obtain ⟨exit, hrun, hpacket⟩ := ih fuel d₁ (inc1 p) s₁ (by omega) (by omega) hlt hreach' hholds₁ hs₁
      rw [hsame.inBuffer] at hpacket
      exact ⟨exit, hrun, hpacket.step hsame hread⟩
    cases s with
    | idle => exact absurd trivial hs
    | syn => exact absurd trivial hs
    | dle => exact absurd trivial hs
    | data esc crc rcv =>
      obtain ⟨s₁, hstep, hs₁, hholds₁, hsame, hread⟩ := packetByte_spec hholds (d.inBuffer p)
      rw [frameReceiver.scan_cons_of_inl hstep]
      simp only [hholds.2.1]
      exact hgo _ s₁ hsame hread hholds₁ hs₁
    | crcHigh crc rcv =>
      obtain ⟨hstart, hstate, hcrc, hrcv⟩ := hholds
      simp only [hstate]
      exact hgo _ (.crcLow ((d.inBuffer p).toUInt16 <<< 8) crc rcv) ⟨rfl, rfl, rfl⟩ rfl
        ⟨hstart, rfl, rfl, hcrc, hrcv⟩ id
    | crcLow high crc rcv =>
      obtain ⟨hstart, hstate, rfl, rfl, rfl⟩ := hholds
      simp only [hstate]
      refine ⟨_, rfl, ?_⟩
      rw [scan_crcLow_cons]
      refine .packetEnd ⟨rfl, rfl, rfl⟩ (by simp) ?_ rfl rfl
      rw [ringSlice_length, Nat.add_sub_cancel_left]
      rfl

end DataLink

end Plptools
