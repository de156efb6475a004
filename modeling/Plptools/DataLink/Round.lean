import Plptools.DataLink.Process

/-!
# The rounds of a call

The header search compares its index with the write index before it reduces it to the ring. When
the write index is 0, noise at the physical end of the ring leads the search past it, and the search
begins again with the first cell, over all that the ring holds. A round of `processInputData` is
followed here from any state of the parser, whatever the unread bytes are: it reads the bytes from
its cursor up to the write index, and the whole ring when the search has run over the end.
-/

namespace Plptools

open Plptools.Library

namespace DataLink

/-- The indices are inside the ring, and the members of the parser hold the receiver's state `s`. -/
structure Parses (d : DataLink) (s : ReceiverState) : Prop where
  inRing : d.InRing
  cursor : d.cursor < BUFLEN
  holds : d.Holds s

/-- The members of the parser hold a state of the receiver, unless they stand inside a packet with
a value of `inCRCstate` that the code never stores. -/
theorem exists_holds {d : DataLink} (h : d.startPkt < 0 ∨ d.inCRCstate ≤ 2) : ∃ s, d.Holds s := by
  by_cases hstart : d.startPkt < 0
  · exact ⟨.idle, hstart⟩
  have hinside := Int.not_lt.mp hstart
  have hstate := h.resolve_left hstart
  match hcrc : d.inCRCstate with
  | 0 => exact ⟨.data d.esc d.crcIn d.rcv, hinside, hcrc, rfl, rfl, rfl⟩
  | 1 => exact ⟨.crcHigh d.crcIn d.rcv, hinside, hcrc, rfl, rfl⟩
  | 2 => exact ⟨.crcLow d.receivedCRC d.crcIn d.rcv, hinside, hcrc, rfl, rfl, rfl⟩
  | n + 3 => omega

/-- The bytes from the cursor up to the write index. -/
def toParse (d : DataLink) : List UInt8 := d.inputFrom d.cursor

/-- The cells of the input ring, from the first to the last. -/
def wholeRing (d : DataLink) : List UInt8 := ringSlice BUFLEN d.inBuffer 0 BUFLEN

/-- The header search runs over the physical end of the ring: only noise leads up to it, and the
write index is 0. -/
def RunsOver (d : DataLink) (s : ReceiverState) : Prop :=
  d.inWrite = 0 ∧ d.toParse ≠ [] ∧ frameReceiver.scan s d.toParse = .inl .idle

instance (d : DataLink) (s : ReceiverState) : Decidable (d.RunsOver s) :=
  inferInstanceAs (Decidable (_ ∧ _ ∧ _))

/-- What the receiver makes of the bytes that a round reads. -/
def heard (d : DataLink) (s : ReceiverState) : ReceiverState ⊕ (Option (List UInt8) × List UInt8) :=
  if d.RunsOver s then frameReceiver.scan .idle d.wholeRing else frameReceiver.scan s d.toParse

/-- The header search runs over the end and finds nothing in the whole ring. -/
def Lost (d : DataLink) (s : ReceiverState) : Prop :=
  d.RunsOver s ∧ frameReceiver.scan .idle d.wholeRing = .inl .idle

/-- How a round of a call ends: the call returns, or a packet has ended. -/
inductive RoundExit where
  | returns (isLinkStable : Bool) (d : DataLink)
  | packet (d : DataLink) (packet : Option (List UInt8))

/-- A round behind the header search. -/
def behindSearch (inw fuel : ℕ) : DataLink × ℕ → Option RoundExit
  | (d, p) =>
    if d.startPkt ≥ 0 then
      (readPacket inw fuel { d with justStarted := false } p).map fun
        | .inputEnd d p => .returns true { d with lastSYN := p }
        | .packetEnd d packet => .packet d packet
    else if d.justStarted ∧ d.rxAmount > 15 then some (.returns false d)
    else some (.returns true d)

/-- One round of a call. -/
def round (inw fuel : ℕ) (d : DataLink) : Option RoundExit :=
  (if d.startPkt < 0 then searchHeader inw fuel d d.cursor else some (d, d.cursor)).bind
    (behindSearch inw fuel)

/-- With more fuel a round ends as it has ended. -/
theorem round_mono {inw fuel more : ℕ} {d : DataLink} {exit : RoundExit}
    (h : round inw fuel d = some exit) (hle : fuel ≤ more) : round inw more d = some exit := by
  obtain ⟨result, hsearch, hbehind⟩ := Option.bind_eq_some_iff.mp h
  have hsearch' : (if d.startPkt < 0 then searchHeader inw more d d.cursor else some (d, d.cursor)) =
      some result := by
    split at hsearch
    · rw [if_pos ‹_›]
      exact searchHeader_mono hsearch hle
    · rwa [if_neg ‹_›]
  rw [round, hsearch', Option.bind_some]
  obtain ⟨d', p⟩ := result
  rw [behindSearch] at hbehind ⊢
  split at hbehind
  · obtain ⟨inner, hread, hexit⟩ := Option.map_eq_some_iff.mp hbehind
    rw [if_pos ‹_›, readPacket_mono hread hle, Option.map_some, hexit]
  · rwa [if_neg ‹_›]

/-- A call goes from round to round. -/
theorem processFrom_round (inw fuel : ℕ) (hasOutputData : ℕ → Bool) (rounds i : ℕ) (d : DataLink)
    (receivedData : List (List UInt8)) :
    processFrom inw fuel hasOutputData (rounds + 1) i d receivedData =
      match round inw fuel d with
      | none => none
      | some (.returns b d) => some (b, d, receivedData)
      | some (.packet d packet) =>
        if hasOutputData i then some (true, d, receivedData ++ packet.toList)
        else processFrom inw fuel hasOutputData rounds (i + 1) d (receivedData ++ packet.toList) := by
  rw [processFrom_succ, round]
  cases (if d.startPkt < 0 then searchHeader inw fuel d d.cursor else some (d, d.cursor)) with
  | none => rfl
  | some result =>
    obtain ⟨d, p⟩ := result
    rw [Option.bind_some, behindSearch]
    dsimp only
    by_cases hstart : d.startPkt ≥ 0
    · rw [if_pos hstart, if_pos hstart]
      cases readPacket inw fuel { d with justStarted := false } p with
      | none => rfl
      | some exit => cases exit <;> rfl
    · rw [if_neg hstart, if_neg hstart]
      split <;> rfl

/-- With more fuel a call returns what it has returned. -/
theorem processFrom_mono {inw fuel more : ℕ} {hasOutputData : ℕ → Bool} {rounds rounds' i : ℕ}
    {d : DataLink} {receivedData : List (List UInt8)} {result : Bool × DataLink × List (List UInt8)}
    (h : processFrom inw fuel hasOutputData rounds i d receivedData = some result) (hle : fuel ≤ more)
    (hrounds : rounds ≤ rounds') :
    processFrom inw more hasOutputData rounds' i d receivedData = some result := by
  induction rounds generalizing rounds' i d receivedData with
  | zero => cases h
  | succ rounds ih =>
    obtain ⟨rounds', rfl⟩ := Nat.exists_eq_succ_of_ne_zero (by omega : rounds' ≠ 0)
    rw [processFrom_round] at h ⊢
    cases hround : round inw fuel d with
    | none =>
      rw [hround] at h
      cases h
    | some exit =>
      rw [hround] at h
      rw [round_mono hround hle]
      cases exit with
      | returns b d => exact h
      | packet d packet =>
        dsimp only at h ⊢
        split at h
        · rwa [if_pos ‹_›]
        · rw [if_neg ‹_›]
          exact ih h (Nat.le_of_succ_le_succ hrounds)

/-- Two calls on the same input that return, return the same. -/
theorem processInputData_unique {d : DataLink} {hasOutputData : ℕ → Bool} {fuel fuel' : ℕ}
    {result result' : Bool × DataLink × List (List UInt8)}
    (h : d.processInputData fuel hasOutputData = some result)
    (h' : d.processInputData fuel' hasOutputData = some result') : result = result' := by
  have hmax := processFrom_mono h (Nat.le_max_left fuel fuel') (Nat.le_max_left fuel fuel')
  rw [processFrom_mono h' (Nat.le_max_right fuel fuel') (Nat.le_max_right fuel fuel')] at hmax
  exact (Option.some.inj hmax).symm

/-- The end of a packet has been taken off the ring: parsing goes on with what follows it. -/
structure Took (d d' : DataLink) (rest : List UInt8) : Prop where
  inBuffer : d'.inBuffer = d.inBuffer
  inWrite : d'.inWrite = d.inWrite
  parses : d'.Parses .idle
  toParse : d'.toParse = rest
  hasSpace : d'.hasSpace = true

/-- Taking bytes leaves the ring. -/
theorem Took.wholeRing {d d' : DataLink} {rest : List UInt8} (h : d.Took d' rest) :
    d'.wholeRing = d.wholeRing := by
  rw [DataLink.wholeRing, h.inBuffer, DataLink.wholeRing]

/-- A round ends as what it has heard says. -/
def Exits (d : DataLink) (exit : Option RoundExit) :
    ReceiverState ⊕ (Option (List UInt8) × List UInt8) → Prop
  | .inl _ => ∃ b d', exit = some (.returns b d') ∧ d'.inRead = d.inRead ∧ d'.inWrite = d.inWrite
  | .inr (packet, rest) => ∃ d', exit = some (.packet d' packet) ∧ d.Took d' rest

/-- How a round ends is said of the ring alone. -/
theorem Exits.of_ring {d d₁ : DataLink} {exit : Option RoundExit}
    {outcome : ReceiverState ⊕ (Option (List UInt8) × List UInt8)} (h : d₁.Exits exit outcome)
    (hbuffer : d₁.inBuffer = d.inBuffer) (hwrite : d₁.inWrite = d.inWrite)
    (hread : d₁.inRead = d.inRead) : d.Exits exit outcome := by
  cases outcome with
  | inl s =>
    obtain ⟨b, d', hexit, hread', hwrite'⟩ := h
    exact ⟨b, d', hexit, hread'.trans hread, hwrite'.trans hwrite⟩
  | inr result =>
    obtain ⟨d', hexit, htook⟩ := h
    exact ⟨d', hexit, htook.inBuffer.trans hbuffer, htook.inWrite.trans hwrite, htook.parses,
      htook.toParse, htook.hasSpace⟩

/-- The end of a packet is taken off the ring where the packet loop was left. -/
theorem PacketRead.took {d d' : DataLink} {p n : ℕ} {s : ReceiverState} {packet : Option (List UInt8)}
    {rest : List UInt8} (hinw : d.inWrite < BUFLEN) (hp : p < BUFLEN) (hn : n < BUFLEN)
    (hreach : (p + n) % BUFLEN = d.inWrite)
    (hscan : frameReceiver.scan s (ringSlice BUFLEN d.inBuffer p n) = .inr (packet, rest))
    (h : PacketRead d p n (.inr (packet, rest)) (.packetEnd d' packet)) : d.Took d' rest := by
  cases h with
  | packetEnd hsame hrest hread hstart hsyn =>
    have hlt : d'.inRead < BUFLEN := by
      rw [hread]
      exact Nat.mod_lt _ (by decide)
    have hcursor : d'.cursor = d'.inRead := by
      rw [cursor, hsyn, if_neg (by decide)]
    have hend : (d'.inRead + rest.length) % BUFLEN = d'.inWrite := by
      rw [hread, hsame.inWrite, ← hreach, Nat.mod_add_mod, Nat.add_assoc,
        Nat.sub_add_cancel (le_of_lt hrest)]
    have hused := ringUsed_eq hlt (lt_trans hrest hn) hend
    refine ⟨hsame.inBuffer, hsame.inWrite, ⟨⟨hlt, by rwa [hsame.inWrite]⟩, ?_, ?_⟩, ?_, ?_⟩
    · rwa [hcursor]
    · change d'.startPkt < 0
      rw [hstart]
      decide
    · obtain ⟨piece, -, hslice, -⟩ := frameReceiver.scan_piece hscan
      have hdrop := ringSlice_drop d.inBuffer hp (n - rest.length) n (Nat.sub_le _ _)
      have hpiece : piece.length = n - rest.length := by
        have hlength := congrArg List.length hslice
        rw [ringSlice_length, List.length_append] at hlength
        omega
      rw [hslice, List.drop_left' hpiece, ← hread, Nat.sub_sub_self (le_of_lt hrest)] at hdrop
      rw [DataLink.toParse, inputFrom, hcursor, hused, hsame.inBuffer, ← hdrop]
    · rw [DataLink.hasSpace, bne_iff_ne]
      intro hfull
      rw [← hend] at hfull
      unfold BUFLEN at *
      omega

/-- Inside a packet, a round reads up to its end. -/
theorem behindSearch_inside (fuel : ℕ) {d : DataLink} {p n : ℕ} {s : ReceiverState}
    (hinw : d.inWrite < BUFLEN) (hp : p < BUFLEN) (hn : n < BUFLEN)
    (hreach : (p + n) % BUFLEN = d.inWrite) (hholds : d.Holds s) (hs : ¬s.Searching)
    (hfuel : n < fuel) :
    d.Exits (behindSearch d.inWrite fuel (d, p))
      (frameReceiver.scan s (ringSlice BUFLEN d.inBuffer p n)) := by
  have hstart : d.startPkt ≥ 0 := by
    cases s <;> first | exact absurd trivial hs | exact hholds.1
  have hholds' : ({ d with justStarted := false } : DataLink).Holds s := by
    cases s <;> exact hholds
  obtain ⟨exit, hrun, hread⟩ := readPacket_spec hinw fuel n { d with justStarted := false } p s hfuel hn
    hp hreach hholds' hs
  rw [behindSearch, if_pos hstart, hrun, Option.map_some]
  change PacketRead _ p n (frameReceiver.scan s (ringSlice BUFLEN d.inBuffer p n)) exit at hread
  cases hscan : frameReceiver.scan s (ringSlice BUFLEN d.inBuffer p n) with
  | inl s' =>
    rw [hscan] at hread
    cases hread with
    | inputEnd hsame hread hholds hs => exact ⟨true, _, rfl, hread, hsame.inWrite⟩
  | inr result =>
    obtain ⟨packet, rest⟩ := result
    rw [hscan] at hread
    cases hread with
    | packetEnd hsame hrest hread hstart hsyn =>
      have htook := PacketRead.took (d := { d with justStarted := false }) hinw hp hn hreach hscan
        (.packetEnd hsame hrest hread hstart hsyn)
      have hexits : Exits { d with justStarted := false } _ (.inr (packet, rest)) := ⟨_, rfl, htook⟩
      exact hexits.of_ring rfl rfl rfl

/-- Behind a search that has met a header or the beginning of one, a round goes on with the packet,
or returns. -/
theorem behindSearch_searched (fuel : ℕ) {d d' : DataLink} {q n p' : ℕ} (hinw : d.inWrite < BUFLEN)
    (hn : n ≤ BUFLEN) (hreach : (q + n) % BUFLEN = d.inWrite) (hstart : d.startPkt < 0)
    (hq : q < BUFLEN) (hfuel : n < fuel)
    (h : Searched d q (ringSlice BUFLEN d.inBuffer q n) d' p') :
    d.Exits (behindSearch d.inWrite fuel (d', p'))
      (frameReceiver.scan .idle (ringSlice BUFLEN d.inBuffer q n)) := by
  cases h with
  | found k hk hscan =>
    rw [ringSlice_length] at hk
    have hpos : k ≠ 0 := by
      rintro rfl
      cases hscan
    have hinside := behindSearch_inside fuel (d := { d with
        lastSYN := ((q + k) % BUFLEN : ℕ), startPkt := ((q + k) % BUFLEN : ℕ)
        crcIn := 0, inCRCstate := 0, rcv := [], esc := false }) (p := (q + k) % BUFLEN) (n := n - k)
      hinw (Nat.mod_lt _ (by decide)) (by omega)
      (by rw [Nat.mod_add_mod, Nat.add_assoc, Nat.add_sub_cancel' hk, hreach])
      (s := .data false 0 []) ⟨Int.natCast_nonneg _, rfl, rfl, rfl, rfl⟩ id (by omega)
    rw [← List.take_append_drop k (ringSlice BUFLEN d.inBuffer q n),
      frameReceiver.scan_append_of_inl hscan, ringSlice_drop d.inBuffer hq k n hk]
    exact hinside.of_ring rfl rfl rfl
  | ended k v s p hk hv hscan hall hs =>
    rw [hall, behindSearch, if_neg (Int.not_le.mpr hstart)]
    split
    · exact ⟨false, _, rfl, rfl, rfl⟩
    · exact ⟨true, _, rfl, rfl, rfl⟩

/-- The cursor is as far from the write index as there are bytes to parse. -/
theorem Parses.reach {d : DataLink} {s : ReceiverState} (h : d.Parses s) :
    (d.cursor + d.toParse.length) % BUFLEN = d.inWrite := by
  rw [toParse, inputFrom, ringSlice_length]
  exact add_ringUsed h.cursor h.inRing.inWrite

/-- There is less to parse than the ring holds. -/
theorem toParse_lt (d : DataLink) : d.toParse.length < BUFLEN := by
  rw [toParse, inputFrom, ringSlice_length]
  exact ringUsed_lt _ _ (by decide)

/-- What is to be parsed stands in the ring. -/
theorem toParse_eq (d : DataLink) :
    ringSlice BUFLEN d.inBuffer d.cursor d.toParse.length = d.toParse := by
  rw [toParse, inputFrom, ringSlice_length]

/-- A search from the cursor approaches the write index. -/
theorem Parses.approaching {d : DataLink} {s : ReceiverState} (h : d.Parses s) :
    Approaching d.inWrite d.cursor d.toParse.length := by
  have hlt := d.toParse_lt
  have hreach := h.reach
  refine ⟨fun hn => index_ne hlt hn h.inRing.inWrite hreach, fun k hpos hk heq => ?_, hreach⟩
  rw [← heq] at hreach
  unfold BUFLEN at *
  omega

/-- A search that has run over the end approaches the first cell again, over the whole ring. -/
theorem approaching_over : Approaching 0 BUFLEN BUFLEN := by
  refine ⟨fun _ => by decide, fun k hpos hk => ?_, by decide⟩
  unfold BUFLEN at *
  omega

/-- Over the whole ring, a search through noise goes round for ever. -/
theorem searchHeader_lost {d : DataLink}
    (hring : frameReceiver.scan .idle d.wholeRing = .inl .idle) (fuel : ℕ) (n p : ℕ) (v : ℤ)
    (h : Approaching 0 p n) (hn : n ≠ 0)
    (hnoise : frameReceiver.scan .idle (ringSlice BUFLEN d.inBuffer (p % BUFLEN) n) = .inl .idle) :
    searchHeader 0 fuel { d with lastSYN := v } p = none := by
  induction fuel generalizing n p v with
  | zero => rfl
  | succ fuel ih =>
    obtain ⟨n, rfl⟩ := Nat.exists_eq_succ_of_ne_zero hn
    cases searchRound_spec (d := { d with lastSYN := v }) h with
    | ends d' p' hrun hsearched =>
      have hone := searchHeader_one_of_noise (d := { d with lastSYN := v }) h hnoise
      rw [hrun 0] at hone
      cases hone
    | goesOn q m noise w hw hq hindex hm hpos hslice hskipped hrun =>
      have happ := h.skip hindex hm hpos
      rw [hrun]
      by_cases hm₀ : m = 0
      · have hover : q + 1 = BUFLEN := by
          have hreach := happ.reach
          unfold BUFLEN at *
          omega
        rw [hover]
        exact ih BUFLEN BUFLEN w approaching_over (by decide) hring
      · change ringSlice BUFLEN d.inBuffer (p % BUFLEN) (n + 1) = _ at hslice
        rw [hslice, frameReceiver.scan_append_of_inl hskipped] at hnoise
        exact ih m (q + 1) w happ hm₀ hnoise

section

variable {d : DataLink} {s : ReceiverState}

/-- A parser that is not searching for a header is inside a packet. -/
theorem Parses.inside (h : d.Parses s) (hs : s ≠ .idle) : ¬s.Searching ∧ ¬d.startPkt < 0 := by
  have hholds := h.holds
  cases s with
  | idle => exact absurd rfl hs
  | syn => exact hholds.elim
  | dle => exact hholds.elim
  | data esc crc rcv => exact ⟨id, Int.not_lt.mpr hholds.1⟩
  | crcHigh crc rcv => exact ⟨id, Int.not_lt.mpr hholds.1⟩
  | crcLow high crc rcv => exact ⟨id, Int.not_lt.mpr hholds.1⟩

/-- Only a header search runs over the end. -/
theorem Parses.idle_of_runsOver (h : d.Parses s) (hover : d.RunsOver s) : s = .idle := by
  by_contra hs
  exact not_searching_of_scan (h.inside hs).1 hover.2.2 trivial

/-- What is to be parsed stands in the ring, from the cursor on. -/
theorem Parses.toParse_slice (h : d.Parses s) :
    ringSlice BUFLEN d.inBuffer (d.cursor % BUFLEN) d.toParse.length = d.toParse := by
  rw [Nat.mod_eq_of_lt h.cursor, d.toParse_eq]

/-- A header search through noise arrives behind it. -/
theorem Parses.search_noise (h : d.Parses s) (hstart : d.startPkt < 0) (hempty : d.toParse ≠ [])
    (hnoise : frameReceiver.scan .idle d.toParse = .inl .idle) :
    ∃ k < BUFLEN, ∃ v, ∀ fuel > k, round d.inWrite fuel d =
      (searchHeader d.inWrite (fuel - k) { d with lastSYN := v } (arrival d.inWrite)).bind
        (behindSearch d.inWrite fuel) := by
  have hlength : d.toParse.length ≠ 0 := fun hzero => hempty (List.length_eq_zero_iff.mp hzero)
  obtain ⟨k, hk, v, hrun, -⟩ := searchHeader_of_noise d.toParse.length d d.cursor h.approaching hlength
    (by rwa [h.toParse_slice])
  refine ⟨k, lt_of_le_of_lt hk d.toParse_lt, v, fun fuel hfuel => ?_⟩
  rw [round, if_pos hstart, ← hrun, Nat.sub_add_cancel (le_of_lt hfuel)]

/-- A round that is lost does not end. -/
theorem round_lost (h : d.Parses s) (hlost : d.Lost s) (fuel : ℕ) :
    round d.inWrite fuel d = none := by
  obtain ⟨hover, hring⟩ := hlost
  have hs := h.idle_of_runsOver hover
  subst hs
  obtain ⟨hinw, hempty, hnoise⟩ := hover
  have happ := h.approaching
  rw [hinw] at happ
  have hlength : d.toParse.length ≠ 0 := fun hzero => hempty (List.length_eq_zero_iff.mp hzero)
  have hsearch : searchHeader 0 fuel d d.cursor = none :=
    searchHeader_lost hring fuel d.toParse.length d.cursor d.lastSYN happ hlength
      (by rwa [h.toParse_slice])
  rw [round, if_pos (show d.startPkt < 0 from h.holds), hinw, hsearch]
  rfl

/-- A round that runs over the end and hears something reads the whole ring. -/
theorem round_over (h : d.Parses s) (hover : d.RunsOver s)
    (hring : frameReceiver.scan .idle d.wholeRing ≠ .inl .idle) {fuel : ℕ} (hfuel : 2 * BUFLEN < fuel) :
    d.Exits (round d.inWrite fuel d) (frameReceiver.scan .idle d.wholeRing) := by
  have hs := h.idle_of_runsOver hover
  subst hs
  obtain ⟨hinw, hempty, hnoise⟩ := hover
  have hstart : d.startPkt < 0 := h.holds
  obtain ⟨k, hk, v, hround⟩ := h.search_noise hstart hempty hnoise
  have happ : Approaching d.inWrite BUFLEN BUFLEN := by
    rw [hinw]
    exact approaching_over
  obtain ⟨d', p', hsearch, hsearched⟩ := searchHeader_of_heard BUFLEN { d with lastSYN := v } BUFLEN happ
    hring
  rw [hround fuel (by omega), arrival, if_pos hinw, hsearch _ (by omega), Option.bind_some]
  rw [Nat.mod_self] at hsearched
  have hexits := behindSearch_searched fuel (d := { d with lastSYN := v })
    h.inRing.inWrite le_rfl (by rw [hinw]; decide) hstart (by decide) (by omega) hsearched
  exact hexits.of_ring rfl rfl rfl

/-- A header search that hears nothing and stops at the write index ends the call. -/
theorem round_quiet (h : d.Parses s) (hover : ¬d.RunsOver .idle) (hstart : d.startPkt < 0)
    (hnoise : frameReceiver.scan .idle d.toParse = .inl .idle) {fuel : ℕ} (hfuel : 2 * BUFLEN < fuel) :
    d.Exits (round d.inWrite fuel d) (.inl .idle) := by
  have hreturns (v : ℤ) (p : ℕ) :
      d.Exits (behindSearch d.inWrite fuel ({ d with lastSYN := v }, p)) (.inl .idle) := by
    rw [behindSearch, if_neg (Int.not_le.mpr hstart)]
    split
    · exact ⟨false, _, rfl, rfl, rfl⟩
    · exact ⟨true, _, rfl, rfl, rfl⟩
  by_cases hempty : d.toParse = []
  · have harrived : d.cursor = d.inWrite := by
      have hreach := h.reach
      rwa [hempty, List.length_nil, Nat.add_zero, Nat.mod_eq_of_lt h.cursor] at hreach
    obtain ⟨fuel, rfl⟩ := Nat.exists_eq_succ_of_ne_zero (Nat.ne_of_gt (Nat.zero_lt_of_lt hfuel))
    rw [round, if_pos hstart, searchHeader, if_pos harrived, Option.bind_some]
    exact hreturns d.lastSYN d.cursor
  · have hinw : d.inWrite ≠ 0 := fun hzero => hover ⟨hzero, hempty, hnoise⟩
    obtain ⟨k, hk, v, hround⟩ := h.search_noise hstart hempty hnoise
    obtain ⟨more, hmore⟩ := Nat.exists_eq_succ_of_ne_zero (show fuel - k ≠ 0 by omega)
    rw [hround fuel (by omega), hmore, arrival, if_neg hinw, searchHeader, if_pos rfl, Option.bind_some]
    exact hreturns v d.inWrite

/-- A round ends as what it has heard says, unless it is lost. -/
theorem round_exits (h : d.Parses s) (hlost : ¬d.Lost s) {fuel : ℕ} (hfuel : 2 * BUFLEN < fuel) :
    d.Exits (round d.inWrite fuel d) (d.heard s) := by
  have hlt := d.toParse_lt
  rw [heard]
  by_cases hover : d.RunsOver s
  · rw [if_pos hover]
    exact round_over h hover (fun hring => hlost ⟨hover, hring⟩) hfuel
  rw [if_neg hover]
  by_cases hs : s = .idle
  · subst hs
    have hstart : d.startPkt < 0 := h.holds
    by_cases hnoise : frameReceiver.scan .idle d.toParse = .inl .idle
    · rw [hnoise]
      exact round_quiet h hover hstart hnoise hfuel
    · obtain ⟨d', p', hrun, hsearched⟩ := searchHeader_of_heard d.toParse.length d d.cursor
        h.approaching (by rwa [h.toParse_slice])
      rw [Nat.mod_eq_of_lt h.cursor] at hsearched
      rw [round, if_pos hstart, hrun fuel (by omega), Option.bind_some]
      have hexits := behindSearch_searched fuel h.inRing.inWrite (le_of_lt hlt) h.reach
        hstart h.cursor (by omega) hsearched
      rwa [d.toParse_eq] at hexits
  · obtain ⟨hinside, hstart⟩ := h.inside hs
    rw [round, if_neg hstart, Option.bind_some]
    have hexits := behindSearch_inside fuel h.inRing.inWrite h.cursor hlt h.reach h.holds
      hinside (by omega)
    rwa [d.toParse_eq] at hexits

/-- A round that has ended was not lost, and has ended as what it has heard says. -/
theorem exits_of_round (h : d.Parses s) {fuel : ℕ} {exit : RoundExit}
    (hround : round d.inWrite fuel d = some exit) : ¬d.Lost s ∧ d.Exits (some exit) (d.heard s) := by
  have hlost : ¬d.Lost s := by
    intro hlost
    rw [round_lost h hlost] at hround
    cases hround
  refine ⟨hlost, ?_⟩
  rw [← round_mono hround (Nat.le_add_right fuel (2 * BUFLEN + 1))]
  exact round_exits h hlost (by omega)

/-- A call goes on after a round only behind a packet, and only while there is nothing to send. -/
theorem isSome_of_round (h : d.Parses s) (hlost : ¬d.Lost s) {fuel : ℕ} (hfuel : 2 * BUFLEN < fuel)
    {hasOutputData : ℕ → Bool} {rounds i : ℕ} (receivedData : List (List UInt8))
    (hnext : ∀ packet rest d', d.heard s = .inr (packet, rest) → d.Took d' rest →
      hasOutputData i = false → ∀ receivedData,
        (processFrom d'.inWrite fuel hasOutputData rounds (i + 1) d' receivedData).isSome) :
    (processFrom d.inWrite fuel hasOutputData (rounds + 1) i d receivedData).isSome := by
  have hexits := round_exits h hlost hfuel
  rw [processFrom_round]
  cases hheard : d.heard s with
  | inl s' =>
    rw [hheard] at hexits
    obtain ⟨b, d', hexit, -⟩ := hexits
    simp [hexit]
  | inr result =>
    obtain ⟨packet, rest⟩ := result
    rw [hheard] at hexits
    obtain ⟨d', hexit, htook⟩ := hexits
    cases hout : hasOutputData i with
    | true => simp [hexit]
    | false =>
      have hrest := hnext packet rest d' hheard htook hout (receivedData ++ packet.toList)
      rw [htook.inWrite] at hrest
      simpa [hexit, hout] using hrest

end

end DataLink

end Plptools
