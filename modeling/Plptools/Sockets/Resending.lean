import Plptools.Sockets.TCPSocket
import Plptools.Rfsv.RFSV

/-!
# Commands that are sent again

`sendBufferStore` gives up at its sixth call of `send`, also when that call has taken the last bytes of the
message. A client takes the failure for a lost connection: it connects again and repeats the command, which
the other side then gets twice.
-/

namespace Plptools

namespace TCPSocket

/-- The bytes that some calls of `send` take, from call number `calls` on. -/
def taken (sends : ℕ → ℤ) (calls : ℕ) : ℕ → ℤ
  | 0 => 0
  | n + 1 => sends calls + taken sends (calls + 1) n

/-- The calls behind the rounds that are allowed and no earlier one take the last of `l` bytes. -/
def TakenTooLate (sends : ℕ → ℤ) (calls rounds l : ℕ) : Prop :=
  (∀ j ≤ rounds, 0 < sends (calls + j)) ∧ taken sends calls rounds < l ∧ l ≤ taken sends calls (rounds + 1)

/-- The loop writes a first part of its bytes. -/
theorem sendLoop_part (sends : ℕ → ℤ) (rounds : ℕ) (bytes : List UInt8) (w : Writer) :
    ∃ k, (sendLoop sends rounds bytes w).2.written = w.written ++ bytes.take k := by
  induction rounds generalizing bytes w with
  | zero =>
    rw [sendLoop]
    split_ifs with hnil hfail
    · exact ⟨0, by simp⟩
    · exact ⟨0, by simp⟩
    · exact ⟨_, rfl⟩
  | succ rounds ih =>
    rw [sendLoop]
    split_ifs with hnil hfail
    · exact ⟨0, by simp⟩
    · exact ⟨0, by simp⟩
    · obtain ⟨k, hk⟩ := ih (bytes.drop (min (sends w.calls).toNat bytes.length))
        { written := w.written ++ bytes.take (min (sends w.calls).toNat bytes.length), calls := w.calls + 1 }
      refine ⟨min (sends w.calls).toNat bytes.length + k, ?_⟩
      rw [hk, List.append_assoc, ← List.take_add]

/-- A round of the loop leaves the question to the next. -/
theorem takenTooLate_succ {sends : ℕ → ℤ} {calls rounds l i : ℕ} (hi : sends calls = i) (hpos : 0 < i)
    (hle : i ≤ l) : TakenTooLate sends calls (rounds + 1) l ↔ TakenTooLate sends (calls + 1) rounds (l - i) := by
  have hsends : (∀ j ≤ rounds + 1, 0 < sends (calls + j)) ↔ ∀ j ≤ rounds, 0 < sends (calls + 1 + j) := by
    refine ⟨fun h j hj => ?_, fun h j hj => ?_⟩
    · rw [Nat.add_assoc, Nat.add_comm 1]
      exact h (j + 1) (Nat.succ_le_succ hj)
    · cases j with
      | zero => rw [Nat.add_zero, hi]; omega
      | succ j =>
        rw [Nat.add_comm j, ← Nat.add_assoc]
        exact h j (Nat.le_of_succ_le_succ hj)
  unfold TakenTooLate
  rw [hsends, taken, taken, hi]
  refine and_congr_right fun _ => ?_
  omega

/-- Calls that take something do not take too late what has been taken by the first. -/
theorem not_takenTooLate_of_le {sends : ℕ → ℤ} {calls rounds l : ℕ} (h : (l : ℤ) ≤ sends calls) :
    ¬TakenTooLate sends calls (rounds + 1) l := by
  intro hlate
  have hrest (n k : ℕ) (hpos : ∀ j < n, 0 < sends (k + j)) : 0 ≤ taken sends k n := by
    induction n generalizing k with
    | zero => exact Int.le_refl 0
    | succ n ih =>
      have hfirst := hpos 0 (Nat.succ_pos n)
      have hnext := ih (k + 1) fun j hj => by
        rw [Nat.add_assoc, Nat.add_comm 1]
        exact hpos (j + 1) (Nat.succ_lt_succ hj)
      rw [Nat.add_zero] at hfirst
      rw [taken]
      omega
  have htaken := hrest rounds (calls + 1) fun j hj => by
    rw [Nat.add_assoc, Nat.add_comm 1]
    exact hlate.1 (j + 1) (by omega)
  have hlt := hlate.2.1
  rw [taken] at hlt
  omega

/-- The loop says truthfully whether it has written all its bytes. -/
def Truthful (sends : ℕ → ℤ) (rounds : ℕ) (bytes : List UInt8) (w : Writer) : Prop :=
  (sendLoop sends rounds bytes w).1 = true ↔ (sendLoop sends rounds bytes w).2.written = w.written ++ bytes

/-- An error is reported truthfully, and the calls behind it take nothing. -/
theorem truthful_of_error {sends : ℕ → ℤ} (rounds : ℕ) {bytes : List UInt8} (hne : bytes ≠ []) {w : Writer}
    (herror : sends w.calls ≤ 0) :
    Truthful sends rounds bytes w ∧ ¬TakenTooLate sends w.calls rounds bytes.length := by
  have hloop : sendLoop sends rounds bytes w = (false, { w with calls := w.calls + 1 }) := by
    unfold sendLoop
    rw [if_neg hne, if_pos herror]
  refine ⟨?_, fun hlate => ?_⟩
  · rw [Truthful, hloop]
    simp [hne]
  · have hfirst := hlate.1 0 (Nat.zero_le _)
    rw [Nat.add_zero] at hfirst
    omega

/-- The loop is truthful unless the call behind its last round takes the last bytes. -/
theorem truthful_iff (sends : ℕ → ℤ) (rounds : ℕ) {bytes : List UInt8} (hne : bytes ≠ []) (w : Writer) :
    Truthful sends rounds bytes w ↔ ¬TakenTooLate sends w.calls rounds bytes.length := by
  induction rounds generalizing bytes w with
  | zero =>
    by_cases herror : sends w.calls ≤ 0
    · exact iff_of_true (truthful_of_error 0 hne herror).1 (truthful_of_error 0 hne herror).2
    have hlast : TakenTooLate sends w.calls 0 bytes.length ↔
        bytes.length ≤ min (sends w.calls).toNat bytes.length := by
      simp only [TakenTooLate, taken, Nat.le_zero, forall_eq, Nat.add_zero]
      have hlength : 0 < bytes.length := List.length_pos_iff.mpr hne
      omega
    rw [Truthful, sendLoop, if_neg hne, if_neg herror, hlast]
    dsimp only
    rw [List.append_cancel_left_eq, List.take_eq_self_iff]
    simp
  | succ rounds ih =>
    by_cases herror : sends w.calls ≤ 0
    · exact iff_of_true (truthful_of_error _ hne herror).1 (truthful_of_error _ hne herror).2
    rw [Truthful, sendLoop, if_neg hne, if_neg herror]
    dsimp only
    by_cases hall : (bytes.length : ℤ) ≤ sends w.calls
    · -- The first call takes all that is left, and the loop ends in the next round.
      have hmin : min (sends w.calls).toNat bytes.length = bytes.length := by omega
      have hdone (w : Writer) : sendLoop sends rounds [] w = (true, w) := by
        unfold sendLoop
        rw [if_pos rfl]
      rw [hmin, List.take_length, List.drop_length, hdone]
      simp [not_takenTooLate_of_le hall]
    · obtain ⟨i, hi⟩ := Int.eq_ofNat_of_zero_le (by omega : 0 ≤ sends w.calls)
      have hmin : min (sends w.calls).toNat bytes.length = i := by omega
      have hrest : bytes.drop i ≠ [] := by
        rw [Ne, List.drop_eq_nil_iff]
        omega
      have hnext := ih hrest { written := w.written ++ bytes.take i, calls := w.calls + 1 }
      rw [Truthful, List.append_assoc, List.take_append_drop, List.length_drop] at hnext
      rw [hmin, takenTooLate_succ hi (by omega) (by omega)]
      exact hnext

/-- The result of `sendBufferStore` is true exactly when the socket has taken the message whole, and in any
case it has taken a first part of it, once. -/
def SentTruthfully (sends : ℕ → ℤ) (a : List UInt8) (w : Writer) : Prop :=
  (∃ k, (sendBufferStore sends a w).2.written = w.written ++ (htonl a.length ++ a).take k) ∧
    ((sendBufferStore sends a w).1 = true ↔
      (sendBufferStore sends a w).2.written = w.written ++ (htonl a.length ++ a))

/-- The calls of one `sendBufferStore` take a message, and the last byte with the sixth call. -/
def TakenBySixth (sends : ℕ → ℤ) (calls : ℕ) (a : List UInt8) : Prop :=
  (∀ j ≤ 5, 0 < sends (calls + j)) ∧ taken sends calls 5 < 4 + a.length ∧ 4 + a.length ≤ taken sends calls 6

/-- The result is the truth unless the sixth call takes the last byte. -/
theorem sentTruthfully_iff (sends : ℕ → ℤ) (a : List UInt8) (w : Writer) :
    SentTruthfully sends a w ↔ ¬TakenBySixth sends w.calls a := by
  have hne : htonl a.length ++ a ≠ [] := List.cons_ne_nil _ _
  have hlength : ((htonl a.length ++ a).length : ℤ) = 4 + a.length := by
    rw [List.length_append, htonl]
    simp only [List.length_cons, List.length_nil]
    omega
  have hloop := truthful_iff sends 5 hne w
  rw [TakenTooLate, hlength] at hloop
  exact ⟨fun h => hloop.mp h.2, fun h => ⟨sendLoop_part sends 5 _ w, hloop.mpr h⟩⟩

/-- A failure that is reported untruthfully is that of a message that has been taken whole. -/
theorem takenBySixth_iff (sends : ℕ → ℤ) (a : List UInt8) (w : Writer) :
    TakenBySixth sends w.calls a ↔ (sendBufferStore sends a w).1 = false ∧
      (sendBufferStore sends a w).2.written = w.written ++ (htonl a.length ++ a) := by
  have hpart : ∃ k, (sendBufferStore sends a w).2.written = w.written ++ (htonl a.length ++ a).take k :=
    sendLoop_part sends 5 _ w
  rw [← not_iff_not, ← sentTruthfully_iff, SentTruthfully, and_iff_right hpart]
  cases hresult : (sendBufferStore sends a w).1 with
  | true =>
    have hwritten : (sendBufferStore sends a w).2.written = w.written ++ (htonl a.length ++ a) :=
      sendLoop_written (Prod.ext hresult rfl)
    simp [hwritten]
  | false => simp

end TCPSocket

/-- What a client meets: how much each call of `send` takes, and whether an answer to a connect name is
`Ok`. -/
structure Network where
  sends : ℕ → ℤ
  ok : ℕ → Bool

/-- A client of a service, with its connection. What its earlier connections have taken is history. -/
structure SocketClient where
  status : RFSV.Errs
  socket : TCPSocket.Writer
  answers : ℕ
  closed : List (List UInt8)
deriving DecidableEq

namespace SocketClient

open RFSV (E_PSI_GEN_NONE E_PSI_FILE_DISC)
open BufferStore (wordBytes)

/-- The name of the file service. -/
def connectName : List UInt8 := [0x53, 0x59, 0x53, 0x24, 0x52, 0x46, 0x53, 0x56]

variable (net : Network)

/-- Write a message on the connection. -/
def sendBufferStore (a : List UInt8) (c : SocketClient) : Bool × SocketClient :=
  let (result, socket) := TCPSocket.sendBufferStore net.sends a c.socket
  (result, { c with socket := socket })

/-- Ask for the service; the client is disconnected until it answers. -/
def reset (c : SocketClient) : SocketClient :=
  let (sent, c) := { c with status := E_PSI_FILE_DISC }.sendBufferStore net (connectName ++ [0])
  if sent then
    { c with status := if net.ok c.answers then E_PSI_GEN_NONE else c.status, answers := c.answers + 1 }
  else c

/-- Give up the connection, and set up another. -/
def reconnect (c : SocketClient) : SocketClient :=
  { c with closed := c.closed ++ [c.socket.written], socket := ⟨[], c.socket.calls⟩ }.reset net

/-- Connect when that is needed. -/
def prepare (c : SocketClient) : SocketClient := if c.status = E_PSI_FILE_DISC then c.reconnect net else c

/-- Send a command, and on failure send it again on another connection. -/
def sendCommand (a : List UInt8) (c : SocketClient) : Bool × SocketClient :=
  let c := c.prepare net
  if c.status = E_PSI_FILE_DISC then (false, c)
  else
    let (result, c) := c.sendBufferStore net a
    if !result then
      let (result, c) := (c.reconnect net).sendBufferStore net a
      (result, if !result then { c with status := E_PSI_FILE_DISC } else c)
    else (result, c)

/-- The command of the file service of a SIBO device. -/
def sendCommand16 (cc : ℕ) (data : List UInt8) (c : SocketClient) : Bool × SocketClient :=
  c.sendCommand net (wordBytes cc ++ wordBytes data.length ++ data)

/-- The client gives up a connection that has taken the command whole, and sends it again. -/
def Repeats (a : List UInt8) (c : SocketClient) : Prop :=
  (c.sendCommand net a).2.closed = (c.prepare net).closed ++
    [(c.prepare net).socket.written ++ (TCPSocket.htonl a.length ++ a)]

/-- Setting up a connection does not touch the earlier ones. -/
theorem closed_reconnect (c : SocketClient) : (c.reconnect net).closed = c.closed ++ [c.socket.written] := by
  unfold reconnect reset
  dsimp only
  split <;> rfl

/-- What a client that is connected has given up after a command. -/
theorem closed_sendCommand {a : List UInt8} {c : SocketClient} (hup : (c.prepare net).status ≠ E_PSI_FILE_DISC) :
    (c.sendCommand net a).2.closed = (c.prepare net).closed ++
      if (TCPSocket.sendBufferStore net.sends a (c.prepare net).socket).1 then []
      else [(TCPSocket.sendBufferStore net.sends a (c.prepare net).socket).2.written] := by
  unfold sendCommand
  dsimp only
  rw [if_neg hup]
  generalize c.prepare net = p
  unfold sendBufferStore
  dsimp only
  cases hresult : (TCPSocket.sendBufferStore net.sends a p.socket).1 with
  | true => exact (List.append_nil _).symm
  | false =>
    simp only [Bool.not_false, if_true, Bool.false_eq_true, if_false]
    split <;> exact closed_reconnect net _

/-- A command is repeated exactly when a connection has taken it whole and a failure is reported. -/
theorem repeats_iff (a : List UInt8) (c : SocketClient) : Repeats net a c ↔
    (c.prepare net).status ≠ E_PSI_FILE_DISC ∧
      TCPSocket.TakenBySixth net.sends (c.prepare net).socket.calls a := by
  unfold Repeats
  by_cases hup : (c.prepare net).status = E_PSI_FILE_DISC
  · have hsame : (c.sendCommand net a).2 = c.prepare net := by
      unfold sendCommand
      dsimp only
      rw [if_pos hup]
    rw [hsame]
    simp [hup]
  rw [closed_sendCommand net hup, List.append_cancel_left_eq, and_iff_right hup,
    TCPSocket.takenBySixth_iff]
  cases (TCPSocket.sendBufferStore net.sends a (c.prepare net).socket).1 with
  | true => simp
  | false => simp

/-- `sendBufferStore` is truthful unless its sixth call of `send` takes the last byte, and a command is
never repeated on another connection after one has taken it whole, unless that happens to a client that is
connected. -/
theorem commands_sent_once_iff :
    (∀ (a : List UInt8) (w : TCPSocket.Writer), TCPSocket.SentTruthfully net.sends a w ↔
      ¬TCPSocket.TakenBySixth net.sends w.calls a) ∧
    ∀ (a : List UInt8) (c : SocketClient), ¬Repeats net a c ↔
      ¬((c.prepare net).status ≠ E_PSI_FILE_DISC ∧
        TCPSocket.TakenBySixth net.sends (c.prepare net).socket.calls a) :=
  ⟨TCPSocket.sentTruthfully_iff net.sends, fun a c => not_congr (repeats_iff net a c)⟩

/-- A network in which five calls of `send` take one byte each, and the others all that they are given. -/
def slowNetwork : Network := ⟨fun calls => if calls < 5 then 1 else 100, fun _ => true⟩

/-- A request to close a file is taken whole by six calls, reported as a failure, and sent again on the next
connection. -/
theorem command_sent_twice :
    (¬∀ (net : Network) (a : List UInt8) (w : TCPSocket.Writer), TCPSocket.SentTruthfully net.sends a w) ∧
    (¬∀ (net : Network) (a : List UInt8) (c : SocketClient), ¬Repeats net a c) ∧
    sendCommand16 slowNetwork 2 [1, 0] ⟨E_PSI_GEN_NONE, ⟨[], 0⟩, 0, []⟩ =
      (true, ⟨E_PSI_GEN_NONE,
        ⟨[0, 0, 0, 9, 0x53, 0x59, 0x53, 0x24, 0x52, 0x46, 0x53, 0x56, 0, 0, 0, 0, 6, 2, 0, 2, 0, 1, 0], 8⟩, 1,
        [[0, 0, 0, 6, 2, 0, 2, 0, 1, 0]]⟩) := by
  refine ⟨fun h => ?_, fun h => ?_, by decide +kernel⟩
  · have hresult := (h slowNetwork [2, 0, 2, 0, 1, 0] ⟨[], 0⟩).2
    revert hresult
    decide
  · apply h slowNetwork [2, 0, 2, 0, 1, 0] ⟨E_PSI_GEN_NONE, ⟨[], 0⟩, 0, []⟩
    rw [repeats_iff]
    exact ⟨by decide, by decide, by decide, by decide⟩

end SocketClient

end Plptools
