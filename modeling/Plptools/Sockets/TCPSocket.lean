import Plptools.Library.Run
import Mathlib.Data.List.TakeDrop
import Mathlib.Algebra.Group.Nat.Defs

/-!
# Messages over a TCP connection

A message is written as its length, in network order, and its bytes. TCP keeps the bytes in order
but not the boundaries of what was written: each `send` takes some of the bytes it is given, each
`recv` returns some of the bytes that are there. The receiver repeats `recv` for the bytes of a
message, but not for its length.
-/

namespace Plptools

open Plptools.Library

namespace TCPSocket

/-- The length of a message in network order, as an unsigned word of 32 bits. -/
def htonl (l : ℕ) : List UInt8 :=
  [UInt8.ofNat (l >>> 24), UInt8.ofNat (l >>> 16), UInt8.ofNat (l >>> 8), UInt8.ofNat l]

/-- The number that four bytes in network order stand for. -/
def ntohl (bytes : List UInt8) : ℕ :=
  (bytes.getD 0 0).toNat <<< 24 + (bytes.getD 1 0).toNat <<< 16 + (bytes.getD 2 0).toNat <<< 8 +
    (bytes.getD 3 0).toNat

/-- The longest message that is received. -/
def maxLength : ℕ := 16384

/-! ## The sender -/

/-- What was given to TCP so far, and the number of calls of `send`. -/
structure Writer where
  written : List UInt8
  calls : ℕ
deriving DecidableEq

/-- The loop of `sendBufferStore`: the rounds that are still allowed and the bytes left. Each call of
`send` returns how many bytes it took, or no positive number on an error. -/
def sendLoop (sends : ℕ → ℤ) : ℕ → List UInt8 → Writer → Bool × Writer
  | rounds, bytes, w =>
    if bytes = [] then (true, w)
    else if sends w.calls ≤ 0 then (false, { w with calls := w.calls + 1 })
    else
      let i := min (sends w.calls).toNat bytes.length
      let w := { written := w.written ++ bytes.take i, calls := w.calls + 1 }
      match rounds with
      | 0 => (false, w)
      | rounds + 1 => sendLoop sends rounds (bytes.drop i) w

/-- Writes a message; the sixth call of `send` is one too many. -/
def sendBufferStore (sends : ℕ → ℤ) (a : List UInt8) (w : Writer) : Bool × Writer :=
  sendLoop sends 5 (htonl a.length ++ a) w

/-- Writes messages, and says whether each call reported success. -/
def sendAll (sends : ℕ → ℤ) : List (List UInt8) → Writer → Bool × Writer
  | [], w => (true, w)
  | a :: rest, w =>
    match sendBufferStore sends a w with
    | (true, w) => sendAll sends rest w
    | (false, w) => (false, w)

/-! ## The receiver -/

/-- The bytes that have not been received yet, and the number of calls of `recv`. -/
structure Reader where
  coming : List UInt8
  calls : ℕ
deriving DecidableEq

/-- `recv` waits for bytes and returns some of them, at least one and at most as many as are asked
for. It returns none when the connection ends. -/
def recv (segments : ℕ → ℕ) (len : ℕ) (r : Reader) : List UInt8 × Reader :=
  let j := max 1 (min (segments r.calls) len)
  (r.coming.take j, ⟨r.coming.drop j, r.calls + 1⟩)

/-- The loop of `getBufferStore` over the bytes of a message; each round receives at least one, so
`l` rounds are enough. -/
def recvLoop (segments : ℕ → ℕ) : ℕ → ℕ → List UInt8 → Reader → Option (List UInt8) × Reader
  | 0, _, buff, r => (some buff, r)
  | fuel + 1, l, buff, r =>
    if l = 0 then (some buff, r)
    else
      let (bytes, r) := recv segments l r
      if bytes = [] then (none, r)
      else recvLoop segments fuel (l - bytes.length) (buff ++ bytes) r

/-- Receives a message: the status and the buffer. Without `wait` nothing is received unless there
is something to get. -/
def getBufferStore (segments : ℕ → ℕ) (wait dataToGet : Bool) (r : Reader) :
    (ℤ × List UInt8) × Reader :=
  if !wait && !dataToGet then ((0, []), r)
  else
    let (bytes, r) := recv segments 4 r
    if bytes.length ≠ 4 then ((-1, []), r)
    else
      let l := ntohl bytes
      if l > maxLength then ((-1, []), r)
      else
        match recvLoop segments l l [] r with
        | (none, r) => ((-1, []), r)
        | (some buff, r) => ((if buff.length = 0 then 0 else 1, buff), r)

/-- The next message, waiting for it. -/
def receive (segments : ℕ → ℕ) (r : Reader) : (ℤ × List UInt8) × Reader :=
  getBufferStore segments true true r

/-- As many successive calls that wait. -/
def receiveAll (segments : ℕ → ℕ) : ℕ → Reader → List (ℤ × List UInt8)
  | 0, _ => []
  | n + 1, r => (receive segments r).1 :: receiveAll segments n (receive segments r).2

/-! ## What is written -/

/-- What stands on the wire for some messages. -/
def frames (messages : List (List UInt8)) : List UInt8 :=
  messages.flatMap fun m => htonl m.length ++ m

/-- The length is read back, up to the bits that do not fit. -/
theorem ntohl_htonl (l : ℕ) : ntohl (htonl l) = l % 2 ^ 32 := by
  simp only [ntohl, htonl, List.getD_cons_zero, List.getD_cons_succ, UInt8.toNat_ofNat',
    Nat.shiftRight_eq_div_pow, Nat.shiftLeft_eq]
  omega

/-- A loop that reports success has written all its bytes. -/
theorem sendLoop_written {sends : ℕ → ℤ} {rounds : ℕ} {bytes : List UInt8} {w w' : Writer}
    (h : sendLoop sends rounds bytes w = (true, w')) : w'.written = w.written ++ bytes := by
  induction rounds generalizing bytes w with
  | zero =>
    rw [sendLoop] at h
    split_ifs at h with hnil
    · obtain rfl := (Prod.mk.inj h).2
      rw [hnil, List.append_nil]
    · cases (Prod.mk.inj h).1
    · cases (Prod.mk.inj h).1
  | succ rounds ih =>
    rw [sendLoop] at h
    split_ifs at h with hnil
    · obtain rfl := (Prod.mk.inj h).2
      rw [hnil, List.append_nil]
    · cases (Prod.mk.inj h).1
    · rw [ih h, List.append_assoc, List.take_append_drop]

/-- Messages that are all reported as sent stand on the wire one behind the other. -/
theorem sendAll_written {sends : ℕ → ℤ} {messages : List (List UInt8)} {w w' : Writer}
    (h : sendAll sends messages w = (true, w')) : w'.written = w.written ++ frames messages := by
  induction messages generalizing w with
  | nil =>
    obtain rfl := (Prod.mk.inj h).2
    simp [frames]
  | cons m rest ih =>
    rw [sendAll] at h
    split at h
    · next next hnext =>
      rw [ih h, sendLoop_written hnext, frames, frames, List.flatMap_cons, List.append_assoc]
    · cases (Prod.mk.inj h).1

/-! ## What is received -/

section Receiver

variable {segments : ℕ → ℕ} {m rest : List UInt8} {calls : ℕ}

/-- The loop over the bytes of a message receives exactly them. -/
theorem recvLoop_eq (segments : ℕ → ℕ) (bytes rest buff : List UInt8) (calls : ℕ) {fuel l : ℕ} (hlen : bytes.length = l)
    (hfuel : l ≤ fuel) :
    ∃ calls', recvLoop segments fuel l buff ⟨bytes ++ rest, calls⟩ =
      (some (buff ++ bytes), ⟨rest, calls'⟩) := by
  induction fuel generalizing l bytes buff calls with
  | zero =>
    obtain rfl : bytes = [] := List.eq_nil_of_length_eq_zero (by omega)
    exact ⟨calls, by simp [recvLoop]⟩
  | succ fuel ih =>
    by_cases hzero : l = 0
    · obtain rfl : bytes = [] := List.eq_nil_of_length_eq_zero (by omega)
      exact ⟨calls, by simp [recvLoop, hzero]⟩
    · generalize hj : max 1 (min (segments calls) l) = j
      have hle : j ≤ bytes.length := by omega
      have htake : (bytes ++ rest).take j = bytes.take j := List.take_append_of_le_length hle
      have hdrop : (bytes ++ rest).drop j = bytes.drop j ++ rest := List.drop_append_of_le_length hle
      have hne : bytes.take j ≠ [] := by
        intro hnil
        have := congrArg List.length hnil
        rw [List.length_take, List.length_nil] at this
        omega
      have hlength : (bytes.take j).length = j := by
        rw [List.length_take]
        omega
      obtain ⟨calls', hrest⟩ := ih (bytes.drop j) (buff ++ bytes.take j) (calls + 1)
        (by rw [List.length_drop, hlen]) (by omega)
      refine ⟨calls', ?_⟩
      rw [recvLoop, if_neg hzero]
      simp only [recv, hj, htake, hdrop, hne, if_false, hlength, hrest, List.append_assoc,
        List.take_append_drop]

/-- The length comes with one call of `recv`, and the message is not too long. -/
def Arrives (segments : ℕ → ℕ) (r : Reader) (m : List UInt8) : Prop :=
  4 ≤ segments r.calls ∧ m.length ≤ maxLength

instance (r : Reader) (m : List UInt8) : Decidable (Arrives segments r m) :=
  inferInstanceAs (Decidable (_ ∧ _))

/-- The call of `recv` for the length gets it whole exactly when it gets four bytes. -/
theorem recv_header (hseg : 4 ≤ segments calls) (tail : List UInt8) :
    recv segments 4 ⟨htonl m.length ++ tail, calls⟩ = (htonl m.length, ⟨tail, calls + 1⟩) := by
  have hj : max 1 (min (segments calls) 4) = 4 := by omega
  simp [recv, hj, htonl]

/-- Fewer bytes are no length. -/
theorem receive_split (hseg : ¬ 4 ≤ segments calls) (tail : List UInt8) :
    (receive segments ⟨htonl m.length ++ tail, calls⟩).1 = (-1, []) := by
  generalize hrecv : recv segments 4 ⟨htonl m.length ++ tail, calls⟩ = received
  have hshort : received.1.length ≠ 4 := by
    simp only [← hrecv, recv, List.length_take]
    omega
  simp [receive, getBufferStore, hrecv, hshort]

/-- A message that is not too long is received whole. -/
theorem receive_arrives (hne : m ≠ []) (h : Arrives segments ⟨htonl m.length ++ (m ++ rest), calls⟩ m) :
    ∃ calls', receive segments ⟨htonl m.length ++ (m ++ rest), calls⟩ =
      ((1, m), ⟨rest, calls'⟩) := by
  have hlength : ntohl (htonl m.length) = m.length := by
    rw [ntohl_htonl, Nat.mod_eq_of_lt]
    have := h.2
    simp only [maxLength] at this
    omega
  have hlong : ¬ m.length > maxLength := not_lt.mpr h.2
  obtain ⟨calls', hloop⟩ := recvLoop_eq segments m rest [] (calls + 1)
    (rfl : m.length = m.length) le_rfl
  refine ⟨calls', ?_⟩
  simp only [receive, getBufferStore, recv_header h.1, hlength, hloop, hlong]
  simp [htonl, hne]

/-- A message that is too long is not received: its length is refused, or, when it does not fit
into a word, another one is read. -/
theorem receive_too_long (hseg : 4 ≤ segments calls) (hlong : maxLength < m.length) :
    (receive segments ⟨htonl m.length ++ (m ++ rest), calls⟩).1 ≠ (1, m) := by
  simp only [receive, getBufferStore, recv_header hseg, ntohl_htonl]
  rw [if_neg (by simp), if_neg (by simp [htonl])]
  by_cases hrefused : m.length % 2 ^ 32 > maxLength
  · rw [if_pos hrefused]
    simp
  · rw [if_neg hrefused]
    obtain ⟨calls', hloop⟩ := recvLoop_eq segments (m.take (m.length % 2 ^ 32))
      (m.drop (m.length % 2 ^ 32) ++ rest) [] (calls + 1)
      (List.length_take_of_le (Nat.mod_le m.length (2 ^ 32))) le_rfl
    rw [← List.append_assoc, List.take_append_drop] at hloop
    rw [hloop]
    intro heq
    have hsame : m.take (m.length % 2 ^ 32) = m := (Prod.mk.inj heq).2
    have hlen := congrArg List.length hsame
    rw [List.length_take] at hlen
    omega

/-- The next message is received exactly when it arrives, and then the reader stands behind it. -/
theorem receive_iff (segments : ℕ → ℕ) (hne : m ≠ []) {r : Reader} (hr : r.coming = htonl m.length ++ (m ++ rest)) :
    ((receive segments r).1 = (1, m) ↔ Arrives segments r m) ∧
      (Arrives segments r m → (receive segments r).2.coming = rest) := by
  obtain ⟨coming, calls⟩ := r
  obtain rfl : coming = htonl m.length ++ (m ++ rest) := hr
  refine ⟨⟨fun heq => ?_, fun h => ?_⟩, fun h => ?_⟩
  · have hseg : 4 ≤ segments calls := by
      by_contra hsplit
      rw [receive_split hsplit] at heq
      exact absurd (Prod.mk.inj heq).1 (by decide)
    exact ⟨hseg, not_lt.mp fun hlong => receive_too_long hseg hlong heq⟩
  · obtain ⟨calls', heq⟩ := receive_arrives hne h
    rw [heq]
  · obtain ⟨calls', heq⟩ := receive_arrives hne h
    rw [heq]

end Receiver

/-- Successive calls return the messages that stand on the wire exactly when each arrives. -/
theorem receiveAll_iff {segments : ℕ → ℕ} {messages : List (List UInt8)} (hne : ∀ m ∈ messages, m ≠ [])
    {r : Reader} (hr : r.coming = frames messages) :
    receiveAll segments messages.length r = messages.map (fun m => (1, m)) ↔
      Admits (fun r _ => (receive segments r).2) (Arrives segments) r messages := by
  induction messages generalizing r with
  | nil => simp [receiveAll]
  | cons m rest ih =>
    obtain ⟨hm, hrest⟩ := List.forall_mem_cons.mp hne
    have hcoming : r.coming = htonl m.length ++ (m ++ frames rest) := by
      rw [hr, frames, List.flatMap_cons, List.append_assoc, frames]
    obtain ⟨hiff, hnext⟩ := receive_iff segments hm hcoming
    rw [List.length_cons, receiveAll, List.map_cons, List.cons.injEq, admits_cons, hiff]
    exact and_congr_right fun harrives => ih hrest (hnext harrives)

/-- When every message of a sequence of non-empty messages was reported as sent, the receiver's
successive calls return exactly these messages with status 1 if and only if each length comes with
one call of `recv` and no message is too long. -/
theorem received_iff_arrives (sends : ℕ → ℤ) (segments : ℕ → ℕ) (messages : List (List UInt8))
    (hne : ∀ m ∈ messages, m ≠ []) (w : Writer)
    (hsent : sendAll sends messages ⟨[], 0⟩ = (true, w)) :
    receiveAll segments messages.length ⟨w.written, 0⟩ = messages.map (fun m => (1, m)) ↔
      Admits (fun r _ => (receive segments r).2) (Arrives segments) ⟨w.written, 0⟩ messages := by
  apply receiveAll_iff hne
  simpa using sendAll_written hsent

/-- Two messages are sent in two calls each and received through segments of four bytes. -/
theorem received_two_messages :
    receiveAll (fun _ => 4) 2 ⟨frames [[1], [2, 3, 4, 5, 6]], 0⟩ =
      [(1, [1]), (1, [2, 3, 4, 5, 6])] := by
  refine (received_iff_arrives (fun _ => 5) (fun _ => 4) [[1], [2, 3, 4, 5, 6]] (by decide)
    ⟨frames [[1], [2, 3, 4, 5, 6]], 3⟩ (by decide)).mpr ?_
  decide

/-- A message is lost when TCP brings its length in two parts. -/
theorem split_length_not_received :
    ¬ ∀ (sends : ℕ → ℤ) (segments : ℕ → ℕ) (messages : List (List UInt8)) (w : Writer),
      (∀ m ∈ messages, m ≠ []) → sendAll sends messages ⟨[], 0⟩ = (true, w) →
      receiveAll segments messages.length ⟨w.written, 0⟩ = messages.map (fun m => (1, m)) := by
  intro hall
  have hreceived := hall (fun _ => 5) (fun _ => 1) [[7]] ⟨frames [[7]], 1⟩ (by decide) (by decide)
  exact absurd hreceived (by decide)

end TCPSocket

end Plptools
