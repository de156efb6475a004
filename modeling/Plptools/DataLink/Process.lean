import Plptools.DataLink.Refinement

/-!
# One call of `processInputData`

Between two calls the members of the parser hold what the receiver makes of the unread bytes up to
the cursor. A call takes some packets off the unread bytes, in the order in which the receiver finds
them, and leaves a state in which that holds again.
-/

namespace Plptools

open Plptools.Library

namespace DataLink

/-- As much is unread as the indices say. -/
@[simp] theorem unread_length (d : DataLink) :
    d.unread.length = ringUsed BUFLEN d.inRead d.inWrite :=
  ringSlice_length _ _ _ _

/-- The indices of the input ring are inside the ring. -/
structure InRing (d : DataLink) : Prop where
  inRead : d.inRead < BUFLEN
  inWrite : d.inWrite < BUFLEN

/-- There are fewer unread bytes than the ring has cells. -/
theorem unread_lt (d : DataLink) : d.unread.length < BUFLEN := by
  rw [unread_length]
  exact ringUsed_lt _ _ (by decide)

/-- The write index is behind the unread bytes. -/
theorem InRing.reach {d : DataLink} (h : d.InRing) : (d.inRead + d.unread.length) % BUFLEN = d.inWrite := by
  rw [unread_length]
  exact add_ringUsed h.inRead h.inWrite

/-- The bytes from an index inside the unread input are the rest of it. -/
theorem InRing.slice_drop {d : DataLink} (h : d.InRing) {k : ℕ} (hk : k ≤ d.unread.length) :
    ringSlice BUFLEN d.inBuffer ((d.inRead + k) % BUFLEN) (d.unread.length - k) = d.unread.drop k := by
  rw [unread_length] at hk ⊢
  exact (ringSlice_drop d.inBuffer h.inRead k _ hk).symm

/-- Moving the read index over `k` unread bytes drops them. -/
theorem InRing.unread_drop {d d' : DataLink} (h : d.InRing) (hsame : d.SameInput d') {k : ℕ}
    (hk : k ≤ d.unread.length) (hread : d'.inRead = (d.inRead + k) % BUFLEN) :
    d'.unread = d.unread.drop k := by
  rw [← h.slice_drop hk]
  rw [unread_length] at hk ⊢
  rw [unread, inputFrom, hread, hsame.inBuffer, hsame.inWrite,
    ringUsed_advance h.inRead h.inWrite k hk]

/-- The members of the parser hold the receiver's state `s` after `k` of the unread bytes, and
parsing goes on there. -/
structure Resumes (d : DataLink) (k : ℕ) (s : ReceiverState) : Prop where
  inRing : d.InRing
  inside : k ≤ d.unread.length
  cursor : d.cursor = (d.inRead + k) % BUFLEN
  scan : frameReceiver.scan .idle (d.unread.take k) = .inl s
  holds : d.Holds s

/-- The receiver gets from the cursor what it gets from the read index. -/
theorem Resumes.scan_drop {d : DataLink} {k : ℕ} {s : ReceiverState}
    (h : frameReceiver.scan .idle (d.unread.take k) = .inl s) :
    frameReceiver.scan .idle d.unread = frameReceiver.scan s (d.unread.drop k) := by
  conv_lhs => rw [← List.take_append_drop k d.unread]
  exact frameReceiver.scan_append_of_inl h _

/-- What the packet loop makes of the unread bytes, when it is entered inside a packet. -/
inductive RoundRead (d : DataLink) : PacketExit → Prop
  | inputEnd {d' : DataLink} {s : ReceiverState} (hsame : d.SameInput d') (hread : d'.inRead = d.inRead)
      (hscan : frameReceiver.scan .idle d.unread = .inl s) (hholds : d'.Holds s) (hs : ¬s.Searching) :
      RoundRead d (.inputEnd d' d.inWrite)
  | packetEnd {d' : DataLink} {packet : Option (List UInt8)} (hsame : d.SameInput d')
      (hscan : frameReceiver.scan .idle d.unread = .inr (packet, d'.unread))
      (hresumes : d'.Resumes 0 .idle) : RoundRead d (.packetEnd d' packet)

/-- Entered inside a packet, the packet loop reads the unread bytes from there on. -/
theorem readPacket_unread {d : DataLink} (hring : d.InRing) {k : ℕ} {s : ReceiverState} (fuel : ℕ)
    (hfuel : BUFLEN ≤ fuel) (hk : k ≤ d.unread.length)
    (hscan : frameReceiver.scan .idle (d.unread.take k) = .inl s) (hholds : d.Holds s)
    (hs : ¬s.Searching) :
    ∃ exit, readPacket d.inWrite fuel d ((d.inRead + k) % BUFLEN) = some exit ∧ RoundRead d exit := by
  have hlt := d.unread_lt
  have hreach : ((d.inRead + k) % BUFLEN + (d.unread.length - k)) % BUFLEN = d.inWrite := by
    rw [Nat.mod_add_mod, Nat.add_assoc, Nat.add_sub_cancel' hk, hring.reach]
  obtain ⟨exit, hrun, hexit⟩ := readPacket_spec hring.inWrite fuel (d.unread.length - k) d
    ((d.inRead + k) % BUFLEN) s (by omega) (by omega) (Nat.mod_lt _ (by decide)) hreach hholds hs
  refine ⟨exit, hrun, ?_⟩
  rw [hring.slice_drop hk, ← Resumes.scan_drop hscan] at hexit
  cases houtcome : frameReceiver.scan .idle d.unread with
  | inl s' =>
    rw [houtcome] at hexit
    cases hexit with
    | inputEnd hsame hread hholds' hs' =>
      rw [hreach]
      exact .inputEnd hsame hread houtcome hholds' hs'
  | inr result =>
    obtain ⟨packet, rest⟩ := result
    rw [houtcome] at hexit
    cases hexit with
    | @packetEnd d' _ _ hsame hrest hread hstart hsyn =>
      obtain ⟨piece, hpiece, hunread, -⟩ := frameReceiver.scan_piece houtcome
      have hlength : d.unread.length = piece.length + rest.length := by
        rw [hunread, List.length_append]
      have hread' : d'.inRead = (d.inRead + piece.length) % BUFLEN := by
        rw [hread, Nat.mod_add_mod, Nat.add_assoc,
          show k + (d.unread.length - k - rest.length) = piece.length by omega]
      have hdrop := hring.unread_drop hsame (by omega : piece.length ≤ d.unread.length) hread'
      rw [hunread, List.drop_left] at hdrop
      rw [← hdrop] at houtcome
      have hcursor : d'.cursor = (d'.inRead + 0) % BUFLEN := by
        rw [DataLink.cursor, hsyn, if_neg (by decide), Nat.add_zero, hread', Nat.mod_mod]
      refine .packetEnd hsame houtcome ⟨⟨?_, ?_⟩, Nat.zero_le _, hcursor, rfl, ?_⟩
      · rw [hread']
        exact Nat.mod_lt _ (by decide)
      · rw [hsame.inWrite]
        exact hring.inWrite
      · rw [Holds, hstart]
        decide

/-- The call notices the end of the input: unless it returns early, it does not end in noise behind
the last packet while the write index is 0. The output ring is looked at after packet `i + j`. -/
def StopsAtEnd (hasOutputData : ℕ → Bool) (i : ℕ) (d : DataLink) : Prop :=
  d.inWrite = 0 →
    (∀ j < (frameReceiver.feed .idle d.unread).2.length, hasOutputData (i + j) = false) →
      (frameReceiver.feed .idle d.unread).1 = .idle → frameReceiver.pending d.unread = []

instance (hasOutputData : ℕ → Bool) (i : ℕ) (d : DataLink) : Decidable (d.StopsAtEnd hasOutputData i) :=
  inferInstanceAs (Decidable (d.inWrite = 0 →
    (∀ j < (frameReceiver.feed .idle d.unread).2.length, hasOutputData (i + j) = false) →
      (frameReceiver.feed .idle d.unread).1 = .idle → frameReceiver.pending d.unread = []))

/-- What a call does: it takes packets off the unread bytes. -/
structure Called (d : DataLink) (b : Bool) (d' : DataLink) (packets : List (Option (List UInt8))) :
    Prop where
  taken : ∃ used, d.unread = used ++ d'.unread ∧ frameReceiver.Complete used packets
  resumes : ∃ k s, d'.Resumes k s
  inWrite : d'.inWrite = d.inWrite
  justStarted : d'.justStarted = true → d.justStarted = true ∧ packets = []
  exhausted : packets = [] → ∃ s, frameReceiver.scan .idle d.unread = .inl s
  unstable : b = false → d'.justStarted = true ∧ 15 < d'.rxAmount ∧ packets = [] ∧
    ∃ s, frameReceiver.scan .idle d.unread = .inl s ∧ s.Searching

/-- The same input, read up to the same place. -/
theorem unread_congr {d d' : DataLink} (hsame : d.SameInput d') (hread : d'.inRead = d.inRead) :
    d'.unread = d.unread := by
  rw [unread, inputFrom, hsame.inBuffer, hsame.inWrite, hread]
  rfl

/-- The call may end with the packet. -/
theorem Resumes.stopped {d d' : DataLink} {packet : Option (List UInt8)} (hresumes : d'.Resumes 0 .idle)
    (hsame : d.SameInput d') (hjust : d.justStarted = false)
    (hscan : frameReceiver.scan .idle d.unread = .inr (packet, d'.unread)) :
    d.Called true d' [packet] := by
  obtain ⟨piece, -, hunread, hpiece⟩ := frameReceiver.scan_piece hscan
  refine ⟨⟨piece, hunread, .single frameReceiver hpiece⟩, ⟨0, .idle, hresumes⟩,
    hsame.inWrite, fun htrue => ?_, fun hnil => (List.cons_ne_nil _ _ hnil).elim,
    fun hfalse => by cases hfalse⟩
  rw [hsame.justStarted, hjust] at htrue
  cases htrue

/-- After the end of a packet the rest of the call works on what is still unread. -/
theorem Called.next {d d₁ d' : DataLink} {b : Bool} {packet : Option (List UInt8)}
    {packets : List (Option (List UInt8))} (hsame : d.SameInput d₁) (hjust : d.justStarted = false)
    (hscan : frameReceiver.scan .idle d.unread = .inr (packet, d₁.unread))
    (h : d₁.Called b d' packets) : d.Called b d' (packet :: packets) := by
  have hjust₁ : d'.justStarted = true → False := by
    intro htrue
    have := (h.justStarted htrue).1
    rw [hsame.justStarted, hjust] at this
    cases this
  obtain ⟨used, hused, hfeed⟩ := h.taken
  obtain ⟨piece, -, hunread, hpiece⟩ := frameReceiver.scan_piece hscan
  have hcomplete := (Scanner.Complete.single frameReceiver hpiece).append hfeed
  refine ⟨⟨piece ++ used, ?_, hcomplete⟩, h.resumes, h.inWrite.trans hsame.inWrite,
    fun htrue => (hjust₁ htrue).elim, fun hnil => (List.cons_ne_nil _ _ hnil).elim,
    fun hfalse => (hjust₁ (h.unstable hfalse).1).elim⟩
  rw [hunread, hused, List.append_assoc]

/-- The rest of a call notices the end of the input, too. -/
theorem StopsAtEnd.next {hasOutputData : ℕ → Bool} {i : ℕ} {d d₁ : DataLink}
    {packet : Option (List UInt8)} (hsame : d.SameInput d₁)
    (hscan : frameReceiver.scan .idle d.unread = .inr (packet, d₁.unread))
    (hnone : hasOutputData i = false) (h : d.StopsAtEnd hasOutputData i) :
    d₁.StopsAtEnd hasOutputData (i + 1) := by
  intro hinw hempty hidle
  rw [hsame.inWrite] at hinw
  unfold StopsAtEnd at h
  rw [frameReceiver.feed_of_scan_inr hscan] at h
  have hpending : frameReceiver.pending d.unread = frameReceiver.pending d₁.unread :=
    frameReceiver.pendingFrom_of_scan_inr hscan []
  rw [← hpending]
  refine h hinw (fun j hj => ?_) hidle
  cases j with
  | zero => exact hnone
  | succ j =>
    rw [← Nat.add_assoc, Nat.add_right_comm]
    exact hempty j (Nat.lt_of_succ_lt_succ hj)

/-- What is left of a call when the packet loop has been left. -/
def afterPacket (inw fuel : ℕ) (hasOutputData : ℕ → Bool) (rounds i : ℕ)
    (receivedData : List (List UInt8)) : PacketExit → Option (Bool × DataLink × List (List UInt8))
  | .inputEnd d p => some (true, { d with lastSYN := p }, receivedData)
  | .packetEnd d packet =>
    if hasOutputData i then some (true, d, receivedData ++ packet.toList)
    else processFrom inw fuel hasOutputData rounds (i + 1) d (receivedData ++ packet.toList)

/-- A call that has enough fuel takes packets off the unread bytes. -/
def CallsWell (fuel : ℕ) (hasOutputData : ℕ → Bool) (rounds : ℕ) : Prop :=
  ∀ (i : ℕ) (d : DataLink) (receivedData : List (List UInt8)) (k : ℕ) (s : ReceiverState),
    d.unread.length < rounds → d.Resumes k s → d.StopsAtEnd hasOutputData i →
      ∃ b d' packets, processFrom d.inWrite fuel hasOutputData rounds i d receivedData =
          some (b, d', receivedData ++ packets.flatMap Option.toList) ∧ d.Called b d' packets

/-- Behind the packet loop a call goes on well. -/
theorem afterPacket_spec {fuel : ℕ} {hasOutputData : ℕ → Bool} {rounds : ℕ}
    (hnext : CallsWell fuel hasOutputData rounds) (i : ℕ) {d : DataLink} {exit : PacketExit}
    (receivedData : List (List UInt8)) (hring : d.InRing) (hjust : d.justStarted = false)
    (hrounds : d.unread.length < rounds + 1) (hstops : d.StopsAtEnd hasOutputData i)
    (hexit : d.RoundRead exit) :
    ∃ b d' packets, afterPacket d.inWrite fuel hasOutputData rounds i receivedData exit =
        some (b, d', receivedData ++ packets.flatMap Option.toList) ∧ d.Called b d' packets := by
  cases hexit with
  | @inputEnd d' s hsame hread hscan hholds hs =>
    have hunread : d'.unread = d.unread := unread_congr hsame hread
    have hunread' : ({ d' with lastSYN := (d.inWrite : ℕ) } : DataLink).unread = d.unread := hunread
    refine ⟨true, { d' with lastSYN := (d.inWrite : ℕ) }, [],
      by rw [afterPacket, List.flatMap_nil, List.append_nil], ⟨[], ?_, .nil _⟩, ?_, hsame.inWrite, ?_,
      fun _ => ⟨s, hscan⟩, fun hfalse => by cases hfalse⟩
    · rw [hunread', List.nil_append]
    · refine ⟨d.unread.length, s, ⟨?_, ?_⟩, ?_, ?_, ?_, ?_⟩
      · exact hread.trans_lt hring.inRead
      · exact hsame.inWrite.trans_lt hring.inWrite
      · rw [hunread']
      · change (if ((d.inWrite : ℕ) : ℤ) ≥ 0 then ((d.inWrite : ℕ) : ℤ).toNat else d'.inRead) =
          (d'.inRead + d.unread.length) % BUFLEN
        rw [if_pos (Int.natCast_nonneg _), Int.toNat_natCast, hread, hring.reach]
      · rw [hunread', List.take_length, hscan]
      · cases s with
        | idle => exact absurd trivial hs
        | _ => exact hholds
    · intro htrue
      have : d'.justStarted = true := htrue
      rw [hsame.justStarted, hjust] at this
      cases this
  | @packetEnd d₁ packet hsame hscan hresumes =>
    rw [afterPacket]
    cases hout : hasOutputData i with
    | true =>
      refine ⟨true, d₁, [packet], by simp, hresumes.stopped hsame hjust hscan⟩
    | false =>
      rw [if_neg Bool.false_ne_true, ← hsame.inWrite]
      have hshort : d₁.unread.length < rounds := by
        obtain ⟨piece, hpiece, hunread, -⟩ := frameReceiver.scan_piece hscan
        have hpos := List.length_pos_iff.mpr hpiece
        rw [hunread, List.length_append] at hrounds
        omega
      obtain ⟨b, d', packets, hrun, hcalled⟩ := hnext (i + 1) d₁ (receivedData ++ packet.toList) 0
        .idle hshort hresumes (hstops.next hsame hscan hout)
      refine ⟨b, d', packet :: packets, ?_, hcalled.next hsame hjust hscan⟩
      rw [hrun, List.flatMap_cons, List.append_assoc]

/-- One round of a call: the header search, and the packet loop when it stands inside a packet. -/
theorem processFrom_succ (inw fuel : ℕ) (hasOutputData : ℕ → Bool) (rounds i : ℕ) (d : DataLink)
    (receivedData : List (List UInt8)) :
    processFrom inw fuel hasOutputData (rounds + 1) i d receivedData =
      match (if d.startPkt < 0 then searchHeader inw fuel d d.cursor else some (d, d.cursor)) with
      | none => none
      | some (d, p) =>
        if d.startPkt ≥ 0 then
          (readPacket inw fuel { d with justStarted := false } p).bind
            (afterPacket inw fuel hasOutputData rounds i receivedData)
        else if d.justStarted ∧ d.rxAmount > 15 then some (false, d, receivedData)
        else some (true, d, receivedData) := by
  rw [processFrom]
  change (match (if d.startPkt < 0 then searchHeader inw fuel d d.cursor else some (d, d.cursor)) with
      | none => none
      | some (d, p) => _) = _
  cases (if d.startPkt < 0 then searchHeader inw fuel d d.cursor else some (d, d.cursor)) with
  | none => rfl
  | some result =>
    obtain ⟨d, p⟩ := result
    dsimp only
    cases readPacket inw fuel { d with justStarted := false } p with
    | none => rfl
    | some exit => cases exit <;> rfl

/-- A call that enters a packet is a call of the state that is no longer just started. -/
theorem Called.entered {d d₁ d' : DataLink} {b : Bool} {packets : List (Option (List UInt8))}
    (hunread : d₁.unread = d.unread) (hwrite : d₁.inWrite = d.inWrite) (hjust : d₁.justStarted = false)
    (h : d₁.Called b d' packets) : d.Called b d' packets := by
  have hjust' : d'.justStarted = true → False := by
    intro htrue
    have := (h.justStarted htrue).1
    rw [hjust] at this
    cases this
  refine ⟨?_, h.resumes, h.inWrite.trans hwrite, fun htrue => (hjust' htrue).elim, ?_,
    fun hfalse => (hjust' (h.unstable hfalse).1).elim⟩
  · rw [← hunread]
    exact h.taken
  · rw [← hunread]
    exact h.exhausted

/-- The rest of a round inside a packet. -/
theorem packetRound_spec {fuel : ℕ} (hfuel : BUFLEN ≤ fuel) {hasOutputData : ℕ → Bool} {rounds : ℕ}
    (hnext : CallsWell fuel hasOutputData rounds) (i : ℕ) {d : DataLink}
    (receivedData : List (List UInt8)) (hring : d.InRing) (hrounds : d.unread.length < rounds + 1)
    (hstops : d.StopsAtEnd hasOutputData i) {k : ℕ} {s : ReceiverState} (hk : k ≤ d.unread.length)
    (hscan : frameReceiver.scan .idle (d.unread.take k) = .inl s) (hholds : d.Holds s)
    (hs : ¬s.Searching) :
    ∃ b d' packets,
      (readPacket d.inWrite fuel { d with justStarted := false } ((d.inRead + k) % BUFLEN)).bind
          (afterPacket d.inWrite fuel hasOutputData rounds i receivedData) =
        some (b, d', receivedData ++ packets.flatMap Option.toList) ∧ d.Called b d' packets := by
  have hring₁ : ({ d with justStarted := false } : DataLink).InRing := ⟨hring.inRead, hring.inWrite⟩
  have hholds₁ : ({ d with justStarted := false } : DataLink).Holds s := by
    cases s <;> exact hholds
  obtain ⟨exit, hread, hexit⟩ := readPacket_unread hring₁ fuel hfuel hk hscan hholds₁ hs
  obtain ⟨b, d', packets, hrun, hcalled⟩ := afterPacket_spec hnext i receivedData hring₁ rfl hrounds
    hstops hexit
  refine ⟨b, d', packets, ?_, @Called.entered d { d with justStarted := false } d' b packets rfl rfl rfl hcalled⟩
  rw [hread]
  exact hrun

/-- The header search of a call notices the end of the input. -/
theorem Resumes.ready {d : DataLink} {k i : ℕ} {hasOutputData : ℕ → Bool} (h : d.Resumes k .idle)
    (hstops : d.StopsAtEnd hasOutputData i) :
    Ready d.inWrite d.inBuffer d.cursor (d.unread.length - k) := by
  have hlt := d.unread_lt
  have hk := h.inside
  have hcursor : d.cursor < BUFLEN := by
    rw [h.cursor]
    exact Nat.mod_lt _ (by decide)
  have hreach : (d.cursor + (d.unread.length - k)) % BUFLEN = d.inWrite := by
    rw [h.cursor, Nat.mod_add_mod, Nat.add_assoc, Nat.add_sub_cancel' hk, h.inRing.reach]
  refine ⟨le_of_lt hcursor, by omega, hreach, ?_, ?_⟩
  · intro hzero
    rw [← hreach, hzero, Nat.add_zero, Nat.mod_eq_of_lt hcursor]
  · intro hinw hpos hnoise
    rw [Nat.mod_eq_of_lt hcursor, h.cursor, h.inRing.slice_drop hk, ← scan_drop h.scan] at hnoise
    have hfeed := frameReceiver.feed_of_scan_inl hnoise
    have hpending : frameReceiver.pending d.unread = d.unread :=
      frameReceiver.pendingFrom_of_scan_inl hnoise []
    have hempty := hstops hinw (by simp [hfeed]) (by rw [hfeed])
    rw [← hpending, hempty, List.length_nil] at hpos
    omega

/-- A search that found no header starts again where it left `lastSYN`. -/
theorem Resumes.restart {d : DataLink} {k k' : ℕ} {v : ℤ} (h : d.Resumes k .idle)
    (hk' : k' ≤ (d.unread.drop k).length)
    (hv : v = (((d.inRead + k) % BUFLEN + k') % BUFLEN : ℕ) ∨ k' = 0 ∧ v = d.lastSYN)
    (hscan : frameReceiver.scan .idle ((d.unread.drop k).take k') = .inl .idle) :
    ∃ k₁, ({ d with lastSYN := v } : DataLink).Resumes k₁ .idle := by
  have hk := h.inside
  rw [List.length_drop] at hk'
  rcases hv with rfl | ⟨rfl, rfl⟩
  · refine ⟨k + k', ⟨h.inRing.inRead, h.inRing.inWrite⟩, ?_, ?_, ?_, h.holds⟩
    · change k + k' ≤ d.unread.length
      omega
    · rw [DataLink.cursor, if_pos (Int.natCast_nonneg _), Int.toNat_natCast, Nat.mod_add_mod,
        Nat.add_assoc]
    · change frameReceiver.scan .idle (d.unread.take (k + k')) = _
      rw [List.take_add, frameReceiver.scan_append_of_inl h.scan, hscan]
  · exact ⟨k, h⟩

/-- A call with enough fuel takes packets off the unread bytes. -/
theorem processFrom_spec {fuel : ℕ} (hfuel : BUFLEN ≤ fuel) (hasOutputData : ℕ → Bool) (rounds : ℕ) :
    CallsWell fuel hasOutputData rounds := by
  induction rounds with
  | zero =>
    intro i d receivedData k s hrounds
    omega
  | succ rounds ih =>
    intro i d receivedData k s hrounds hresumes hstops
    have hlt := d.unread_lt
    have hk := hresumes.inside
    rw [processFrom_succ]
    by_cases hs : s.Searching
    · have hidle : s = .idle := by
        have hholds := hresumes.holds
        cases s <;> first | rfl | exact hholds.elim | exact hs.elim
      subst hidle
      have hstart : d.startPkt < 0 := hresumes.holds
      obtain ⟨d₁, p, hsearch, hsearched⟩ := searchHeader_spec hresumes.inRing.inWrite fuel
        (d.unread.length - k) d d.cursor (by omega) (hresumes.ready hstops)
      rw [if_pos hstart, hsearch]
      have hcursor : d.cursor % BUFLEN = (d.inRead + k) % BUFLEN := by
        rw [hresumes.cursor, Nat.mod_mod]
      rw [hcursor, hresumes.inRing.slice_drop hk] at hsearched
      cases hsearched with
      | found k' hk' hscan =>
        rw [Nat.mod_add_mod, Nat.add_assoc]
        rw [List.length_drop] at hk'
        have hscan' : frameReceiver.scan .idle (d.unread.take (k + k')) = .inl (.data false 0 []) := by
          rw [List.take_add, frameReceiver.scan_append_of_inl hresumes.scan, hscan]
        dsimp only
        rw [if_pos (Int.natCast_nonneg _)]
        obtain ⟨b, d', packets, hrun, hcalled⟩ := packetRound_spec hfuel ih i receivedData
          (d := { d with
            lastSYN := ((d.inRead + (k + k')) % BUFLEN : ℕ)
            startPkt := ((d.inRead + (k + k')) % BUFLEN : ℕ)
            crcIn := 0, inCRCstate := 0, rcv := [], esc := false })
          ⟨hresumes.inRing.inRead, hresumes.inRing.inWrite⟩ hrounds hstops
          (by change k + k' ≤ d.unread.length; omega) hscan'
          ⟨Int.natCast_nonneg _, rfl, rfl, rfl, rfl⟩ id
        exact ⟨b, d', packets, hrun, hcalled.taken, hcalled.resumes, hcalled.inWrite,
          hcalled.justStarted, hcalled.exhausted, hcalled.unstable⟩
      | ended k' v s p hk' hv hscan hall hs =>
        dsimp only
        rw [if_neg (show ¬d.startPkt ≥ 0 from Int.not_le.mpr hstart)]
        have hall' : frameReceiver.scan .idle d.unread = .inl s := by
          rw [Resumes.scan_drop hresumes.scan, hall]
        obtain ⟨k₁, hresumes₁⟩ := hresumes.restart hk' hv hscan
        by_cases hrate : d.justStarted ∧ ({ d with lastSYN := v } : DataLink).rxAmount > 15
        · rw [if_pos hrate]
          exact ⟨false, { d with lastSYN := v }, [], by rw [List.flatMap_nil, List.append_nil], ⟨[], rfl, .nil _⟩,
            ⟨k₁, .idle, hresumes₁⟩, rfl, fun htrue => ⟨htrue, rfl⟩, fun _ => ⟨s, hall'⟩,
            fun _ => ⟨hrate.1, hrate.2, rfl, s, hall', hs⟩⟩
        · rw [if_neg hrate]
          exact ⟨true, { d with lastSYN := v }, [], by rw [List.flatMap_nil, List.append_nil], ⟨[], rfl, .nil _⟩,
            ⟨k₁, .idle, hresumes₁⟩, rfl, fun htrue => ⟨htrue, rfl⟩, fun _ => ⟨s, hall'⟩,
            fun hfalse => by cases hfalse⟩
    · have hstart : ¬d.startPkt < 0 := by
        have hholds := hresumes.holds
        cases s <;> first | exact absurd trivial hs | exact Int.not_lt.mpr hholds.1
      rw [if_neg hstart]
      dsimp only
      rw [if_pos (show d.startPkt ≥ 0 from Int.not_lt.mp hstart), hresumes.cursor]
      exact packetRound_spec hfuel ih i receivedData hresumes.inRing hrounds hstops hk hresumes.scan
        hresumes.holds hs

/-- A call of `processInputData` takes packets off the unread bytes and hands them over. -/
theorem processInputData_spec {d : DataLink} {k : ℕ} {s : ReceiverState} (hresumes : d.Resumes k s)
    {hasOutputData : ℕ → Bool} (hstops : d.StopsAtEnd hasOutputData 0) :
    ∃ b d' packets, d.processInputData BUFLEN hasOutputData =
        some (b, d', packets.flatMap Option.toList) ∧ d.Called b d' packets := by
  obtain ⟨b, d', packets, hrun, hcalled⟩ :=
    processFrom_spec le_rfl hasOutputData BUFLEN 0 d [] k s d.unread_lt hresumes hstops
  exact ⟨b, d', packets, hrun, hcalled⟩

end DataLink

end Plptools
