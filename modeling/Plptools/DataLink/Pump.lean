import Plptools.DataLink.Output
import Plptools.DataLink.Delivery
import Plptools.DataLink.Round

/-!
# The data pump

All that happens to a data link from its construction on: the pump thread writes, reads and
processes what it has read, other threads send, reset the link and shut it down. The input ring is
followed over whole runs: when a read keeps what is unread, and when the pump goes on reading.
-/

namespace Plptools

open Plptools.Library

/-- What happens to a data link. A read returns the given bytes; a call of `processInputData`
returns within the given fuel, and sees of the output ring what is given. -/
inductive PumpEvent where
  | send (b : List UInt8) (isEPOC : Bool)
  | write (n : ℕ)
  | read (bytes : List UInt8)
  | process (fuel : ℕ) (hasOutputData : ℕ → Bool)
  | reset
  | shutdown

namespace DataLink

/-- The pump reads while there is space, at least one byte and at most as many as it asks for. -/
def CanRead (d : DataLink) (bytes : List UInt8) : Prop :=
  d.hasSpace = true ∧ 0 < bytes.length ∧ bytes.length ≤ d.readCount

instance (d : DataLink) (bytes : List UInt8) : Decidable (d.CanRead bytes) :=
  inferInstanceAs (Decidable (_ ∧ _ ∧ _))

/-- One event. There is no next state where the event cannot happen, and none while a call has not
returned. -/
def pump : Option DataLink → PumpEvent → Option DataLink
  | none, _ => none
  | some d, .send b isEPOC => d.send b isEPOC
  | some d, .write n => some (d.writeOutput n).2
  | some d, .read bytes => if d.CanRead bytes then some (d.readInput bytes) else none
  | some d, .process fuel hasOutputData =>
    if d.hasInputData then
      (d.processInputData fuel hasOutputData).map fun (isLinkStable, d, _) =>
        if isLinkStable then d else d.internalReset
    else some d
  | some d, .reset => some d.internalReset
  | some d, .shutdown => some { d with isCancelled := true }

/-- A data link as it is constructed. Its buffers, `inCRCstate`, `crcIn` and `receivedCRC` are not
initialised. -/
structure New (d : DataLink) : Prop where
  esc : d.esc = false
  justStarted : d.justStarted = true
  rcv : d.rcv = []
  startPkt : d.startPkt = -1
  lastSYN : d.lastSYN = -1
  inWrite : d.inWrite = 0
  inRead : d.inRead = 0
  isCancelled : d.isCancelled = false
  outWrite : d.outWrite = 0
  outRead : d.outRead = 0

/-- The indices of the input ring are inside it, the search starts again inside it, and inside a
packet `inCRCstate` has one of its values. -/
structure InPlace (d : DataLink) : Prop where
  inRing : d.InRing
  lastSYN : d.lastSYN < BUFLEN
  state : d.startPkt < 0 ∨ d.inCRCstate ≤ 2

/-- At the start nothing has been read. -/
theorem New.inPlace {d : DataLink} (h : d.New) : d.InPlace := by
  refine ⟨⟨by rw [h.inRead]; decide, by rw [h.inWrite]; decide⟩, by rw [h.lastSYN]; decide, Or.inl ?_⟩
  rw [h.startPkt]
  decide

/-- What leaves the indices of the ring alone keeps the parser in place, if it stays inside the ring. -/
theorem InPlace.of_ring {d d' : DataLink} (h : d.InPlace) (hread : d'.inRead = d.inRead)
    (hwrite : d'.inWrite = d.inWrite) (hsyn : d'.lastSYN < BUFLEN)
    (hstate : d'.startPkt < 0 ∨ d'.inCRCstate ≤ 2) : d'.InPlace :=
  ⟨⟨hread ▸ h.inRing.inRead, hwrite ▸ h.inRing.inWrite⟩, hsyn, hstate⟩

/-- The parser stands somewhere in what was read. -/
theorem InPlace.parses {d : DataLink} (h : d.InPlace) : ∃ s, d.Parses s := by
  obtain ⟨s, hholds⟩ := exists_holds h.state
  refine ⟨s, h.inRing, ?_, hholds⟩
  have hread := h.inRing.inRead
  have hsyn := h.lastSYN
  unfold cursor
  split
  · omega
  · exact hread

/-- A header search keeps the parser in place. -/
theorem InPlace.searchHeader {inw fuel : ℕ} {d : DataLink} {p : ℕ} {r : DataLink × ℕ} (h : d.InPlace)
    (hrun : searchHeader inw fuel d p = some r) : r.1.InPlace := by
  induction fuel generalizing d p with
  | zero => cases hrun
  | succ fuel ih =>
    have hsyn (q : ℕ) : InPlace { d with lastSYN := (q % BUFLEN : ℕ) } :=
      h.of_ring rfl rfl (Int.ofNat_lt.mpr (Nat.mod_lt _ (by decide))) h.state
    have hfound (q : ℕ) (v : ℤ) : InPlace { d with
        lastSYN := (q % BUFLEN : ℕ), startPkt := v, crcIn := 0, inCRCstate := 0, rcv := [], esc := false } :=
      h.of_ring rfl rfl (Int.ofNat_lt.mpr (Nat.mod_lt _ (by decide))) (Or.inr (Nat.zero_le _))
    rw [DataLink.searchHeader] at hrun
    by_cases hend : p = inw
    · rw [if_pos hend] at hrun
      cases hrun
      exact h
    rw [if_neg hend] at hrun
    dsimp only at hrun
    by_cases hfirst : d.inBuffer (normalize p) ≠ 0x16
    · rw [if_pos hfirst] at hrun
      exact ih h hrun
    rw [if_neg hfirst] at hrun
    by_cases hend₁ : normalize (normalize p + 1) = inw
    · rw [if_pos hend₁] at hrun
      cases hrun
      exact hsyn p
    rw [if_neg hend₁] at hrun
    by_cases hsecond : d.inBuffer (normalize (normalize p + 1)) ≠ 0x10
    · rw [if_pos hsecond] at hrun
      exact ih (hsyn p) hrun
    rw [if_neg hsecond] at hrun
    by_cases hend₂ : normalize (normalize (normalize p + 1) + 1) = inw
    · rw [if_pos hend₂] at hrun
      cases hrun
      exact hsyn p
    rw [if_neg hend₂] at hrun
    by_cases hthird : d.inBuffer (normalize (normalize (normalize p + 1) + 1)) ≠ 0x02
    · rw [if_pos hthird] at hrun
      exact ih (hsyn p) hrun
    · rw [if_neg hthird] at hrun
      cases hrun
      exact hfound _ _

/-- A byte of a packet keeps the parser in place. -/
theorem InPlace.packetByte {d : DataLink} (h : d.InPlace) (c : UInt8) : (d.packetByte c).InPlace := by
  unfold DataLink.packetByte
  split
  · split
    · exact h.of_ring rfl rfl h.lastSYN (Or.inr (Nat.le_succ 1))
    · exact h.of_ring rfl rfl h.lastSYN h.state
  · split
    · exact h.of_ring rfl rfl h.lastSYN h.state
    · exact h.of_ring rfl rfl h.lastSYN h.state

/-- The packet loop is left with the parser in place, at the write index or behind a packet. -/
def LeftInPlace (inw : ℕ) : PacketExit → Prop
  | .inputEnd d p => d.InPlace ∧ p = inw
  | .packetEnd d _ => d.InPlace

/-- The packet loop keeps the parser in place. -/
theorem InPlace.readPacket {inw fuel : ℕ} {d : DataLink} {p : ℕ} {exit : PacketExit} (h : d.InPlace)
    (hrun : readPacket inw fuel d p = some exit) : LeftInPlace inw exit := by
  induction fuel generalizing d p with
  | zero => cases hrun
  | succ fuel ih =>
    rw [DataLink.readPacket] at hrun
    by_cases hend : p = inw
    · rw [if_pos hend] at hrun
      cases hrun
      exact ⟨h, hend⟩
    rw [if_neg hend] at hrun
    dsimp only at hrun
    split at hrun
    · exact ih (h.packetByte _) hrun
    · have hnext : InPlace { d with receivedCRC := (d.inBuffer p).toUInt16 <<< 8, inCRCstate := 2 } :=
        h.of_ring rfl rfl h.lastSYN (Or.inr le_rfl)
      exact ih hnext hrun
    · cases hrun
      have hsyn : (-1 : ℤ) < BUFLEN := by decide
      exact ⟨⟨Nat.mod_lt _ (by decide), h.inRing.inWrite⟩, hsyn, Or.inr (Nat.zero_le _)⟩
    · exact ih h hrun

/-- A call keeps the parser in place. -/
theorem InPlace.processFrom {inw fuel : ℕ} (hinw : inw < BUFLEN) {hasOutputData : ℕ → Bool}
    {rounds i : ℕ} {d : DataLink} {receivedData : List (List UInt8)}
    {result : Bool × DataLink × List (List UInt8)} (h : d.InPlace)
    (hrun : processFrom inw fuel hasOutputData rounds i d receivedData = some result) :
    result.2.1.InPlace := by
  induction rounds generalizing i d receivedData with
  | zero => cases hrun
  | succ rounds ih =>
    rw [processFrom_succ] at hrun
    cases hsearch : (if d.startPkt < 0 then DataLink.searchHeader inw fuel d d.cursor
        else some (d, d.cursor)) with
    | none =>
      rw [hsearch] at hrun
      cases hrun
    | some found =>
      obtain ⟨d₁, p⟩ := found
      have h₁ : d₁.InPlace := by
        split at hsearch
        · exact h.searchHeader hsearch
        · cases hsearch
          exact h
      rw [hsearch] at hrun
      dsimp only at hrun
      split at hrun
      · obtain ⟨exit, hread, hafter⟩ := Option.bind_eq_some_iff.mp hrun
        have h₂ : InPlace { d₁ with justStarted := false } :=
          h₁.of_ring rfl rfl h₁.lastSYN h₁.state
        have hleft := h₂.readPacket hread
        cases exit with
        | inputEnd d₃ p =>
          cases hafter
          obtain ⟨h₃, rfl⟩ := hleft
          exact h₃.of_ring rfl rfl (Int.ofNat_lt.mpr hinw) h₃.state
        | packetEnd d₃ packet =>
          rw [afterPacket] at hafter
          split at hafter
          · cases hafter
            exact hleft
          · exact ih hleft hafter
      · split at hrun <;> cases hrun <;> exact h₁

/-- The state after some events. -/
def pumped (d : DataLink) (events : List PumpEvent) : Option DataLink := runFrom pump (some d) events

/-- An index that the bytes read lead to. -/
theorem readInput_inWrite {d : DataLink} (h : d.inWrite < BUFLEN) (bytes : List UInt8) :
    (d.readInput bytes).inWrite = (d.inWrite + bytes.length) % BUFLEN := by
  induction bytes generalizing d with
  | nil => exact (Nat.mod_eq_of_lt h).symm
  | cons c rest ih =>
    have hlt : (d.putIn c).inWrite < BUFLEN := Nat.mod_lt _ (by decide)
    have hrest := ih hlt
    rw [List.length_cons]
    change ((d.putIn c).readInput rest).inWrite = _
    rw [hrest]
    change ((d.inWrite + 1) % BUFLEN + rest.length) % BUFLEN = _
    rw [Nat.mod_add_mod, Nat.add_assoc, Nat.add_comm 1]

/-- Reading changes the buffer and the write index. -/
theorem readInput_eq (d : DataLink) (bytes : List UInt8) :
    d.readInput bytes = { d with
      inBuffer := (d.readInput bytes).inBuffer, inWrite := (d.readInput bytes).inWrite } := by
  induction bytes generalizing d with
  | nil => rfl
  | cons c rest ih => exact ih (d.putIn c)

/-- Input is put behind what is there. -/
@[simp] theorem readInput_inRead (d : DataLink) (bytes : List UInt8) :
    (d.readInput bytes).inRead = d.inRead := by
  rw [readInput_eq]

/-- Reading keeps the parser in place. -/
theorem InPlace.readInput {d : DataLink} (h : d.InPlace) (bytes : List UInt8) :
    (d.readInput bytes).InPlace := by
  have hwrite := readInput_inWrite h.inRing.inWrite bytes
  rw [readInput_eq]
  refine ⟨⟨h.inRing.inRead, ?_⟩, h.lastSYN, h.state⟩
  change (d.readInput bytes).inWrite < BUFLEN
  rw [hwrite]
  exact Nat.mod_lt _ (by decide)

/-- Sending keeps the parser in place. -/
theorem InPlace.foldl_putOut {d : DataLink} (h : d.InPlace) (message : List UInt8) :
    (message.foldl putOut d).InPlace := by
  induction message generalizing d with
  | nil => exact h
  | cons c rest ih => exact ih (h.of_ring rfl rfl h.lastSYN h.state)

/-- A reset starts from nothing. -/
theorem internalReset_inPlace (d : DataLink) : d.internalReset.InPlace := by
  have hsyn : (-1 : ℤ) < BUFLEN := by decide
  exact ⟨⟨Nat.zero_lt_succ _, Nat.zero_lt_succ _⟩, hsyn, Or.inl (Int.negSucc_lt_zero 0)⟩

/-- Every event keeps the parser in place. -/
theorem pump_inPlace {d d' : DataLink} (h : d.InPlace) {e : PumpEvent} (hstep : pump (some d) e = some d') :
    d'.InPlace := by
  cases e with
  | send b isEPOC =>
    rw [pump, send] at hstep
    split at hstep
    · cases hstep
      exact h
    · split at hstep
      · cases hstep
        exact h.foldl_putOut _
      · cases hstep
  | write n =>
    cases hstep
    exact h.of_ring rfl rfl h.lastSYN h.state
  | read bytes =>
    rw [pump] at hstep
    split at hstep
    · cases hstep
      exact h.readInput bytes
    · cases hstep
  | process fuel hasOutputData =>
    rw [pump] at hstep
    split at hstep
    · obtain ⟨⟨b, d₁, received⟩, hcall, hnext⟩ := Option.map_eq_some_iff.mp hstep
      have h₁ := h.processFrom h.inRing.inWrite hcall
      dsimp only at hnext
      split at hnext
      · cases hnext
        exact h₁
      · cases hnext
        exact internalReset_inPlace d₁
    · cases hstep
      exact h
  | reset =>
    cases hstep
    exact internalReset_inPlace d
  | shutdown =>
    cases hstep
    exact h.of_ring rfl rfl h.lastSYN h.state

/-- In every state that a new data link comes to, the parser is in place. -/
theorem pumped_inPlace {d₀ d : DataLink} (hnew : d₀.New) {events : List PumpEvent}
    (hrun : pumped d₀ events = some d) : d.InPlace := by
  have hstep (s : Option DataLink) (hs : ∀ d ∈ s, d.InPlace) (e : PumpEvent) :
      ∀ d ∈ pump s e, d.InPlace := by
    intro d' hstep
    cases s with
    | none => cases hstep
    | some d => exact pump_inPlace (hs d rfl) hstep
  have hstart : ∀ d ∈ some d₀, d.InPlace := by
    intro d hd
    cases hd
    exact hnew.inPlace
  exact runFrom_invariant hstep hstart events d hrun

/-- A read that keeps what is unread: as many bytes more are unread as it has read, the ring is not
taken for an empty one, and the cells of the unread bytes are as they were. -/
structure ReadsWell (d : DataLink) (bytes : List UInt8) : Prop where
  grown : ringUsed BUFLEN d.inRead (d.readInput bytes).inWrite =
    ringUsed BUFLEN d.inRead d.inWrite + bytes.length
  hasInputData : (d.readInput bytes).hasInputData = true
  kept : ∀ k < ringUsed BUFLEN d.inRead d.inWrite,
    (d.readInput bytes).inBuffer ((d.inRead + k) % BUFLEN) = d.inBuffer ((d.inRead + k) % BUFLEN)

/-- The read does not fill the ring to its last byte: the pump gets less than it asks for, or asks
only for what lies before the physical end, with a free cell at the beginning of the ring. -/
def LeavesSpace (d : DataLink) (bytes : List UInt8) : Prop :=
  bytes.length < d.readCount ∨ 0 < d.inRead ∧ d.inRead ≤ d.inWrite

instance (d : DataLink) (bytes : List UInt8) : Decidable (d.LeavesSpace bytes) :=
  inferInstanceAs (Decidable (_ ∨ _))

/-- A read leaves the cells outside its stretch of the ring as they are. -/
theorem readInput_cell (bytes : List UInt8) {d : DataLink} (hroom : d.inWrite + bytes.length ≤ BUFLEN)
    {i : ℕ} (hi : i < d.inWrite ∨ d.inWrite + bytes.length ≤ i) :
    (d.readInput bytes).inBuffer i = d.inBuffer i := by
  induction bytes generalizing d with
  | nil => rfl
  | cons c rest ih =>
    rw [List.length_cons] at hroom hi
    have hcell : (d.putIn c).inBuffer i = d.inBuffer i :=
      Function.update_of_ne (by omega) _ _
    change ((d.putIn c).readInput rest).inBuffer i = _
    cases rest with
    | nil => exact hcell
    | cons c' rest =>
      rw [List.length_cons] at hroom hi ih
      have hwrite : (d.putIn c).inWrite = d.inWrite + 1 := Nat.mod_eq_of_lt (by omega)
      rw [ih (by rw [hwrite]; omega) (by rw [hwrite]; omega), hcell]

/-- The cells that a read fills are free. -/
theorem readInput_kept {d : DataLink} (h : d.InRing) {bytes : List UInt8} (hcan : d.CanRead bytes) :
    ∀ k < ringUsed BUFLEN d.inRead d.inWrite,
      (d.readInput bytes).inBuffer ((d.inRead + k) % BUFLEN) = d.inBuffer ((d.inRead + k) % BUFLEN) := by
  intro k hk
  have hread := h.inRead
  have hwrite := h.inWrite
  have hcount := hcan.2.2
  unfold readCount at hcount
  unfold ringUsed at hk
  rw [mod_wrap (by omega)] at hk
  rw [mod_wrap (by split at hk <;> omega : d.inRead + k < 2 * BUFLEN)]
  apply readInput_cell
  · split at hcount <;> omega
  · split at hcount <;> split at hk <;> split <;> omega

/-- A read keeps what is unread exactly when it leaves space. -/
theorem readsWell_iff {d : DataLink} (h : d.InRing) {bytes : List UInt8} (hcan : d.CanRead bytes) :
    d.ReadsWell bytes ↔ d.LeavesSpace bytes := by
  have hread := h.inRead
  have hwrite := h.inWrite
  have hinWrite := readInput_inWrite h.inWrite bytes
  have hpos := hcan.2.1
  have hcount := hcan.2.2
  have hgrown : ringUsed BUFLEN d.inRead (d.readInput bytes).inWrite =
      ringUsed BUFLEN d.inRead d.inWrite + bytes.length ↔ d.LeavesSpace bytes := by
    have hle : d.inWrite + bytes.length < 2 * BUFLEN := by
      unfold readCount at hcount
      split at hcount <;> omega
    rw [hinWrite, LeavesSpace, ringUsed, ringUsed, mod_wrap hle]
    unfold readCount at *
    by_cases hbehind : d.inRead ≤ d.inWrite
    · rw [if_pos hbehind] at hcount ⊢
      rw [mod_wrap (by omega : d.inWrite + BUFLEN - d.inRead < 2 * BUFLEN)]
      split <;> rw [mod_wrap (by omega)] <;> split <;> split <;> omega
    · rw [if_neg hbehind] at hcount ⊢
      rw [mod_wrap (by omega : d.inWrite + BUFLEN - d.inRead < 2 * BUFLEN), if_pos (by omega),
        mod_wrap (by omega)]
      split <;> split <;> omega
  constructor
  · intro hwell
    exact hgrown.mp hwell.grown
  · intro hleaves
    have hused := hgrown.mpr hleaves
    refine ⟨hused, ?_, readInput_kept h hcan⟩
    rw [hasInputData, bne_iff_ne, readInput_inRead]
    intro hempty
    rw [hempty, (ringUsed_eq_zero_iff hread hread).mpr rfl] at hused
    omega

/-- In every run of the data pump, the reads all keep what is unread exactly when they all leave
space. -/
theorem reads_well_iff {d₀ : DataLink} (hnew : d₀.New) (events : List PumpEvent) :
    (∀ seen bytes d, seen ++ [.read bytes] <+: events → pumped d₀ seen = some d → d.CanRead bytes →
        d.ReadsWell bytes) ↔
      ∀ seen bytes d, seen ++ [.read bytes] <+: events → pumped d₀ seen = some d → d.CanRead bytes →
        d.LeavesSpace bytes := by
  have hread {seen : List PumpEvent} {bytes : List UInt8} {d : DataLink}
      (hrun : pumped d₀ seen = some d) (hcan : d.CanRead bytes) :
      d.ReadsWell bytes ↔ d.LeavesSpace bytes := readsWell_iff (pumped_inPlace hnew hrun).inRing hcan
  constructor
  · intro hall seen bytes d hseen hrun hcan
    exact (hread hrun hcan).mp (hall seen bytes d hseen hrun hcan)
  · intro hall seen bytes d hseen hrun hcan
    exact (hread hrun hcan).mpr (hall seen bytes d hseen hrun hcan)

/-- The first bytes that a new data link reads keep what is unread. -/
theorem reads_well_first :
    (DataLink.atPosition 0 (fun _ => 0) (fun _ => 0) true).ReadsWell [0x16, 0x10] := by
  have hnew : (DataLink.atPosition 0 (fun _ => 0) (fun _ => 0) true).New :=
    ⟨rfl, rfl, rfl, rfl, rfl, rfl, rfl, rfl, rfl, rfl⟩
  refine (reads_well_iff hnew [.read [0x16, 0x10]]).mpr ?_ [] [0x16, 0x10] _ (List.prefix_refl _) rfl
    (by decide)
  intro seen bytes d hseen hrun hcan
  cases seen with
  | nil =>
    cases hrun
    obtain ⟨rest, hrest⟩ := hseen
    cases hrest
    exact by decide
  | cons e seen =>
    have hlength := hseen.length_le
    simp at hlength

/-- A new data link that reads as much as it asks for takes its full ring for an empty one. -/
theorem read_fills_ring :
    ¬∀ (d₀ d : DataLink) (events : List PumpEvent) (bytes : List UInt8), d₀.New →
      pumped d₀ events = some d → d.CanRead bytes → d.ReadsWell bytes := by
  intro hall
  have hcan : (DataLink.atPosition 0 (fun _ => 0) (fun _ => 0) true).CanRead
      (List.replicate 4096 0x41) := by
    refine ⟨by decide, ?_, ?_⟩ <;> rw [List.length_replicate] <;> decide
  have hwell := hall _ _ [] _ ⟨rfl, rfl, rfl, rfl, rfl, rfl, rfl, rfl, rfl, rfl⟩ rfl hcan
  have hleaves := (readsWell_iff ⟨by decide, by decide⟩ hcan).mp hwell
  rw [LeavesSpace, List.length_replicate] at hleaves
  exact absurd hleaves (by decide)

/-- The members of the parser hold one state of the receiver. -/
theorem Holds.unique {d : DataLink} {s s' : ReceiverState} (h : d.Holds s) (h' : d.Holds s') : s = s' := by
  cases s <;> cases s' <;> simp_all [Holds] <;> omega

/-- The bytes that the next round reads hold the end of a packet. -/
def EndsPacket (d : DataLink) : Prop :=
  ∃ s packet rest, d.Holds s ∧ d.heard s = .inr (packet, rest)

/-- Where there is space, there is space after a call. -/
theorem processFrom_hasSpace {d : DataLink} {s : ReceiverState} (h : d.Parses s)
    (hspace : d.hasSpace = true) {fuel : ℕ} {hasOutputData : ℕ → Bool} {rounds i : ℕ}
    {receivedData : List (List UInt8)} {result : Bool × DataLink × List (List UInt8)}
    (hrun : processFrom d.inWrite fuel hasOutputData rounds i d receivedData = some result) :
    result.2.1.hasSpace = true := by
  induction rounds generalizing d s i receivedData with
  | zero => cases hrun
  | succ rounds ih =>
    rw [processFrom_round] at hrun
    cases hround : round d.inWrite fuel d with
    | none =>
      rw [hround] at hrun
      cases hrun
    | some exit =>
      have hexits := (exits_of_round h hround).2
      rw [hround] at hrun
      cases hheard : d.heard s with
      | inl s' =>
        rw [hheard] at hexits
        obtain ⟨b, d', hexit, hread, hwrite⟩ := hexits
        cases hexit
        cases hrun
        rwa [hasSpace, hread, hwrite]
      | inr heard =>
        rw [hheard] at hexits
        obtain ⟨d', hexit, htook⟩ := hexits
        cases hexit
        dsimp only at hrun
        split at hrun
        · cases hrun
          exact htook.hasSpace
        · rw [← htook.inWrite] at hrun
          exact ih htook.parses htook.hasSpace hrun

/-- After a call there is space exactly when there was before or the call has met the end of a
packet. -/
theorem processInputData_hasSpace {d d' : DataLink} (h : d.InPlace) {fuel : ℕ}
    {hasOutputData : ℕ → Bool} {b : Bool} {received : List (List UInt8)}
    (hrun : d.processInputData fuel hasOutputData = some (b, d', received)) :
    d'.hasSpace = true ↔ d.hasSpace = true ∨ d.EndsPacket := by
  obtain ⟨s, hparses⟩ := h.parses
  cases fuel with
  | zero => cases hrun
  | succ fuel =>
    rw [processInputData, processFrom_round] at hrun
    cases hround : round d.inWrite (fuel + 1) d with
    | none =>
      rw [hround] at hrun
      cases hrun
    | some exit =>
      have hexits := (exits_of_round hparses hround).2
      rw [hround] at hrun
      cases hheard : d.heard s with
      | inl s' =>
        rw [hheard] at hexits
        obtain ⟨b, d₁, hexit, hread, hwrite⟩ := hexits
        cases hexit
        cases hrun
        have hends : ¬d.EndsPacket := by
          rintro ⟨s₁, packet, rest, hholds, hheard₁⟩
          rw [hholds.unique hparses.holds, hheard] at hheard₁
          cases hheard₁
        rw [or_iff_left hends, hasSpace, hread, hwrite, hasSpace]
      | inr result =>
        obtain ⟨packet, rest⟩ := result
        rw [hheard] at hexits
        obtain ⟨d₁, hexit, htook⟩ := hexits
        cases hexit
        have hends : d.EndsPacket := ⟨s, packet, rest, hparses.holds, hheard⟩
        rw [iff_true_right (Or.inr hends)]
        dsimp only at hrun
        split at hrun
        · cases hrun
          exact htook.hasSpace
        · rw [← htook.inWrite] at hrun
          exact processFrom_hasSpace htook.parses htook.hasSpace hrun

/-- In every run of the data pump, there is space after all calls that find the link stable exactly
when each of them begins with space or meets the end of a packet. -/
theorem space_after_calls_iff {d₀ : DataLink} (hnew : d₀.New) (events : List PumpEvent) :
    (∀ seen fuel hasOutputData d d' received, seen ++ [.process fuel hasOutputData] <+: events →
        pumped d₀ seen = some d → d.hasInputData = true →
        d.processInputData fuel hasOutputData = some (true, d', received) → d'.hasSpace = true) ↔
      ∀ seen fuel hasOutputData d d' received, seen ++ [.process fuel hasOutputData] <+: events →
        pumped d₀ seen = some d → d.hasInputData = true →
        d.processInputData fuel hasOutputData = some (true, d', received) →
        d.hasSpace = true ∨ d.EndsPacket := by
  constructor
  · intro hall seen fuel hasOutputData d d' received hseen hrun hinput hcall
    exact (processInputData_hasSpace (pumped_inPlace hnew hrun) hcall).mp
      (hall seen fuel hasOutputData d d' received hseen hrun hinput hcall)
  · intro hall seen fuel hasOutputData d d' received hseen hrun hinput hcall
    exact (processInputData_hasSpace (pumped_inPlace hnew hrun) hcall).mpr
      (hall seen fuel hasOutputData d d' received hseen hrun hinput hcall)

/-- After a SYN has been read, a call leaves space. -/
theorem space_after_syn :
    ((DataLink.processInputData BUFLEN (fun _ => false)
      ((DataLink.atPosition 0 (fun _ => 0) (fun _ => 0) true).readInput [0x16])).map
        fun result => result.2.1.hasSpace) = some true := by
  have hnew : (DataLink.atPosition 0 (fun _ => 0) (fun _ => 0) true).New :=
    ⟨rfl, rfl, rfl, rfl, rfl, rfl, rfl, rfl, rfl, rfl⟩
  have hcall : ∃ d' received, DataLink.processInputData BUFLEN (fun _ => false)
      ((DataLink.atPosition 0 (fun _ => 0) (fun _ => 0) true).readInput [0x16]) =
        some (true, d', received) := ⟨_, _, rfl⟩
  obtain ⟨d', received, hcall⟩ := hcall
  rw [hcall]
  refine congrArg some ((space_after_calls_iff hnew
    [.read [0x16], .process BUFLEN fun _ => false]).mpr ?_ [.read [0x16]] BUFLEN (fun _ => false) _ d'
      received (List.prefix_refl _) rfl (by decide) hcall)
  intro seen fuel hasOutputData d d₁ received₁ hseen hrun _ _
  obtain ⟨rest, hrest⟩ := hseen
  cases seen with
  | nil => cases hrest
  | cons e seen =>
    cases seen with
    | nil =>
      cases hrest
      cases hrun
      exact Or.inl (by decide)
    | cons e' seen =>
      have hlength := congrArg List.length hrest
      simp at hlength

/-- A header and plain bytes behind it: a packet without an end. -/
def unendingPacket (n : ℕ) : List UInt8 := [0x16, 0x10, 0x02] ++ List.replicate n 0x41

/-- A header and that many bytes. -/
theorem unendingPacket_length (n : ℕ) : (unendingPacket n).length = n + 3 := by
  rw [unendingPacket, List.length_append, List.length_replicate, Nat.add_comm]
  rfl

/-- The receiver stays inside such a packet. -/
theorem scan_unendingPacket (n : ℕ) :
    ∃ crc rcv, frameReceiver.scan .idle (unendingPacket n) = .inl (.data false crc rcv) := by
  have hstuffed : Stuffed (List.replicate n 0x41) (List.replicate n 0x41) := by
    induction n with
    | zero => exact .nil
    | succ n ih => exact .plain (by decide) ih
  exact ⟨_, _, scan_stuffed hstuffed []⟩

/-- A packet without an end fills the ring: a call finds the link stable and leaves no space. -/
theorem reception_stalls :
    ¬∀ (d₀ d d' : DataLink) (events : List PumpEvent) (fuel : ℕ) (hasOutputData : ℕ → Bool)
      (received : List (List UInt8)), d₀.New → pumped d₀ events = some d → d.hasInputData = true →
      d.processInputData fuel hasOutputData = some (true, d', received) → d'.hasSpace = true := by
  intro hall
  have hnew : (DataLink.atPosition 0 (fun _ => 0) (fun _ => 0) true).New :=
    ⟨rfl, rfl, rfl, rfl, rfl, rfl, rfl, rfl, rfl, rfl⟩
  have hrest : (DataLink.atPosition 0 (fun _ => 0) (fun _ => 0) true).AtRest :=
    ⟨by decide, rfl, rfl, rfl⟩
  generalize DataLink.atPosition 0 (fun _ => 0) (fun _ => 0) true = d₀ at hnew hrest
  have hlength := unendingPacket_length 4092
  obtain ⟨crc, rcv, hscan⟩ := scan_unendingPacket 4092
  generalize unendingPacket 4092 = packet at hlength hscan
  have hwrite : (d₀.readInput packet).inWrite = 4095 := by
    rw [readInput_inWrite hrest.inWrite, hlength, hnew.inWrite]
    rfl
  have hcan : d₀.CanRead packet := by
    rw [CanRead, hlength, hasSpace, readCount, hnew.inRead, hnew.inWrite]
    decide
  have hrun : pumped d₀ [.read packet] = some (d₀.readInput packet) := by
    rw [pumped, runFrom_cons, pump, if_pos hcan]
    rfl
  obtain ⟨hresumes, hunread, -⟩ := readInput_resumes hrest.resumes packet (by
    rw [hrest.unread, hlength]
    decide)
  rw [hrest.unread, List.nil_append] at hunread
  have hread : (d₀.readInput packet).inRead = 0 := by rw [readInput_inRead, hnew.inRead]
  generalize d₀.readInput packet = d at hwrite hrun hresumes hunread hread
  have hinw : d.inWrite ≠ 0 := by
    rw [hwrite]
    decide
  have hstops : d.StopsAtEnd (fun _ => false) 0 := fun hzero => absurd hzero hinw
  obtain ⟨b, d', packets, hcall, hcalled⟩ := processInputData_spec hresumes hstops
  cases b with
  | false =>
    obtain ⟨-, -, -, s, hsearch, hs⟩ := hcalled.unstable rfl
    rw [hunread, hscan] at hsearch
    cases hsearch
    exact hs.elim
  | true =>
    have hinput : d.hasInputData = true := by
      rw [hasInputData, hwrite, hread]
      decide
    have hspace := hall d₀ d d' _ _ _ _ hnew hrun hinput hcall
    rw [processInputData_hasSpace (pumped_inPlace hnew hrun) hcall, hasSpace, hwrite, hread] at hspace
    rcases hspace with hfree | ⟨s, _, rest, hholds, hheard⟩
    · exact absurd hfree (by decide)
    · have hcursor : d.toParse = d.unread := by
        rw [toParse, hresumes.cursor, Nat.add_zero, hread]
        exact congrArg d.inputFrom hread.symm
      rw [hholds.unique hresumes.holds, heard, if_neg fun hover => hinw hover.1, hcursor, hunread,
        hscan] at hheard
      cases hheard

end DataLink

end Plptools
