import Plptools.Link.Numbers
import Mathlib.Algebra.Group.Nat.Defs

/-!
# When a packet is sent again

The retransmit thread compares the stamp of a packet with the present time, moved back by the
timeout. Both times are packed in one word, the seconds above the microseconds, and a subtraction
that borrows from the seconds takes `2 ^ 32` microseconds, where a second has `10 ^ 6`. So the
comparison is right within a second, and a stamp of an earlier second is always too old.
-/

namespace Plptools

/-- A time as the clock gives it. -/
structure Timeval.Normal (t : Timeval) : Prop where
  usec : t.tvUsec < 1000000
  since : 1000 ≤ t.tvSec
  before : t.tvSec < 0x80000000

/-- The microseconds of a time. -/
def Timeval.micros (t : Timeval) : ℕ := t.tvSec.toNat * 1000000 + t.tvUsec.toNat

/-- More than the given milliseconds lie between the two times. -/
def Elapsed (millisecs : UInt64) (t now : Timeval) : Prop := t.micros + millisecs.toNat * 1000 < now.micros

instance (millisecs : UInt64) (t now : Timeval) : Decidable (Elapsed millisecs t now) :=
  inferInstanceAs (Decidable (_ < _))

/-- No second has begun between the two times, or the timeout is over. -/
def SameSecondOrElapsed (millisecs : UInt64) (t now : Timeval) : Prop :=
  now.tvSec ≤ t.tvSec ∨ Elapsed millisecs t now

/-- The two parts of a time in one word. -/
def Timeval.packed (t : Timeval) : UInt64 := (t.tvSec <<< 32) + t.tvUsec

/-- A regular time is packed without a carry. -/
theorem Timeval.Normal.packed {t : Timeval} (h : t.Normal) :
    t.packed.toNat = t.tvSec.toNat * 2 ^ 32 + t.tvUsec.toNat := by
  have husec : t.tvUsec.toNat < 1000000 := UInt64.lt_iff_toNat_lt.mp h.usec
  have hsec : t.tvSec.toNat < 0x80000000 := UInt64.lt_iff_toNat_lt.mp h.before
  have hshift : (t.tvSec <<< 32).toNat = t.tvSec.toNat * 2 ^ 32 := by
    rw [UInt64.toNat_shiftLeft, show (32 : UInt64).toNat % 64 = 32 from rfl, Nat.shiftLeft_eq]
    omega
  rw [Timeval.packed, UInt64.toNat_add, hshift]
  omega

/-- What `timesub` takes apart is put together again by the comparison. -/
theorem packed_timesub (now : Timeval) (millisecs : UInt64) :
    (timesub now millisecs).packed = now.packed - millisecs * 1000 := by
  have hall (w : UInt64) : ((w >>> 32) &&& 0xffffffff) <<< 32 + (w &&& 0xffffffff) = w := by
    apply UInt64.toNat_inj.mp
    have hmask (n : ℕ) : n &&& 0xffffffff = n % 2 ^ 32 := Nat.and_two_pow_sub_one_eq_mod n 32
    have hw := w.toNat_lt
    rw [UInt64.toNat_add, UInt64.toNat_shiftLeft, UInt64.toNat_and, UInt64.toNat_and,
      UInt64.toNat_shiftRight, show (32 : UInt64).toNat % 64 = 32 from rfl,
      show (0xffffffff : UInt64).toNat = 0xffffffff from rfl, hmask, hmask, Nat.shiftLeft_eq,
      Nat.shiftRight_eq_div_pow]
    omega
  exact hall _

/-- The comparison, in the numbers of the two clocks: a borrow counts `2 ^ 32` microseconds. -/
theorem olderthan_timesub_iff {t now : Timeval} (ht : t.Normal) (hnow : now.Normal)
    {millisecs : UInt64} (hms : millisecs ≤ 8927) :
    olderthan t (timesub now millisecs) = true ↔
      t.tvSec.toNat * 2 ^ 32 + t.tvUsec.toNat + millisecs.toNat * 1000 <
        now.tvSec.toNat * 2 ^ 32 + now.tvUsec.toNat := by
  have holder : olderthan t (timesub now millisecs) = true ↔
      t.packed < now.packed - millisecs * 1000 := by
    rw [← packed_timesub]
    exact decide_eq_true_iff
  have hsince : 1000 ≤ now.tvSec.toNat := UInt64.le_iff_toNat_le.mp hnow.since
  have hsmall : millisecs.toNat ≤ 8927 := UInt64.le_iff_toNat_le.mp hms
  have hproduct : (millisecs * 1000).toNat = millisecs.toNat * 1000 := by
    rw [UInt64.toNat_mul, show (1000 : UInt64).toNat = 1000 from rfl]
    omega
  have hle : millisecs * 1000 ≤ now.packed := by
    rw [UInt64.le_iff_toNat_le, hproduct, hnow.packed]
    omega
  rw [holder, UInt64.lt_iff_toNat_lt, UInt64.toNat_sub_of_le _ _ hle, hproduct, ht.packed, hnow.packed]
  omega

/-- The test of the age is exact when no second has begun since, and else only when the timeout is
over. -/
theorem olderthan_exact_iff {t now : Timeval} (ht : t.Normal) (hnow : now.Normal)
    {millisecs : UInt64} (hms : millisecs ≤ 8927) :
    (olderthan t (timesub now millisecs) = true ↔ Elapsed millisecs t now) ↔
      SameSecondOrElapsed millisecs t now := by
  have husec : t.tvUsec.toNat < 1000000 := UInt64.lt_iff_toNat_lt.mp ht.usec
  have husec' : now.tvUsec.toNat < 1000000 := UInt64.lt_iff_toNat_lt.mp hnow.usec
  have hsmall : millisecs.toNat ≤ 8927 := UInt64.le_iff_toNat_le.mp hms
  rw [olderthan_timesub_iff ht hnow hms, SameSecondOrElapsed, UInt64.le_iff_toNat_le, Elapsed,
    Timeval.micros, Timeval.micros]
  omega

namespace Link

/-- The round of the retransmit thread, with a test of its own for the elements whose time has
come. -/
def roundWith (now : Timeval) (due : AckWaitQueueElement → Bool) :
    List AckWaitQueueElement → List AckWaitQueueElement × List Packet × Bool
  | [] => ([], [], false)
  | e :: rest =>
    let (kept, pendingData, failed) := roundWith now due rest
    if due e then
      if e.txcount = 0 then (kept, pendingData, true)
      else
        ({ e with txcount := e.txcount - 1, stamp := now } :: kept,
          ⟨e.data, e.index⟩ :: pendingData, failed)
    else (e :: kept, pendingData, failed)

/-- The round of the source compares packed times. -/
theorem retransmitLoop_eq_roundWith (now expired : Timeval) (queue : List AckWaitQueueElement) :
    retransmitLoop now expired queue = roundWith now (fun e => olderthan e.stamp expired) queue := by
  induction queue with
  | nil => rfl
  | cons e rest ih => rw [retransmitLoop, roundWith, ih]

/-- Elements that are tested alike are treated alike. -/
theorem roundWith_congr {now : Timeval} {due due' : AckWaitQueueElement → Bool}
    {queue : List AckWaitQueueElement} (h : ∀ e ∈ queue, due e = due' e) :
    roundWith now due queue = roundWith now due' queue := by
  induction queue with
  | nil => rfl
  | cons e rest ih =>
    rw [roundWith, roundWith, ih fun d hd => h d (List.mem_cons_of_mem e hd), h e List.mem_cons_self]

/-- What the elements may still cost: a try for each time one may be sent again, and one for being
given up. -/
def tries : List AckWaitQueueElement → ℕ
  | [] => 0
  | e :: rest => e.txcount + 1 + tries rest

/-- Each element whose time has come costs a try. -/
theorem tries_roundWith (now : Timeval) (due : AckWaitQueueElement → Bool)
    (queue : List AckWaitQueueElement) :
    tries (roundWith now due queue).1 + queue.countP due = tries queue := by
  induction queue with
  | nil => rfl
  | cons e rest ih =>
    rw [roundWith, List.countP_cons]
    dsimp only
    split
    · split
      · next hlast =>
        simp only [tries, hlast]
        omega
      · simp only [tries]
        omega
    · simp only [tries, Nat.add_zero]
      omega

/-- A test that finds more elements makes the same round exactly when it finds no other ones. -/
theorem roundWith_eq_iff {now : Timeval} {due due' : AckWaitQueueElement → Bool}
    {queue : List AckWaitQueueElement} (hmore : ∀ e ∈ queue, due' e = true → due e = true) :
    roundWith now due queue = roundWith now due' queue ↔
      ∀ e ∈ queue, (due e = true ↔ due' e = true) := by
  constructor
  · intro heq
    have htries := tries_roundWith now due queue
    rw [heq, ← tries_roundWith now due' queue, Nat.add_left_cancel_iff] at htries
    clear heq
    induction queue with
    | nil => exact fun e he => (List.not_mem_nil he).elim
    | cons d rest ih =>
      rw [List.countP_cons, List.countP_cons] at htries
      have hrest : ∀ e ∈ rest, due' e = true → due e = true :=
        fun e he => hmore e (List.mem_cons_of_mem d he)
      have hle : rest.countP due' ≤ rest.countP due := List.countP_mono_left hrest
      have hfirst := hmore d List.mem_cons_self
      intro e he
      rcases List.mem_cons.mp he with rfl | hlater
      · refine ⟨fun hdue => ?_, hfirst⟩
        by_contra hnot
        rw [if_pos hdue, if_neg hnot] at htries
        omega
      · refine ih hrest ?_ e hlater
        by_cases hdue' : due' d = true
        · rw [if_pos (hfirst hdue'), if_pos hdue'] at htries
          omega
        · rw [if_neg hdue'] at htries
          split at htries <;> omega
  · intro hsame
    exact roundWith_congr fun e he => Bool.eq_iff_iff.mpr (hsame e he)

/-- The retransmit thread as it is meant: an element is sent again, and a try spent, once its timeout
has really elapsed. -/
def retransmitElapsed (env : Env) (l : Link) : Link :=
  let l := l.hasFailed env
  if l.failed then l.purgeAllQueues
  else
    let now := env.gettimeofday l.reads
    let (kept, pendingData, failed) :=
      roundWith now (fun e => Elapsed (l.retransTimeout env) e.stamp now) l.ackWaitQueue
    { l with
      reads := l.reads + 1
      ackWaitQueue := kept
      failed := l.failed || failed
      sent := l.sent ++ pendingData }

/-- The timeout at 115200 baud. -/
theorem retransTimeout_stillEnv (l : Link) : l.retransTimeout stillEnv = 8927 := by
  change (115200 * 1000 / 13200 + 200 : UInt64) = 8927
  decide

/-- A lower speed has a shorter timeout. -/
theorem retransTimeout_le {env : Env} {l : Link} (h : env.getSpeed l.reads ≤ 115200) :
    l.retransTimeout env ≤ 8927 := by
  have hspeed : (env.getSpeed l.reads).toNat ≤ 115200 := UInt64.le_iff_toNat_le.mp h
  have hproduct : (env.getSpeed l.reads * 1000).toNat = (env.getSpeed l.reads).toNat * 1000 := by
    rw [UInt64.toNat_mul, show (1000 : UInt64).toNat = 1000 from rfl]
    omega
  rw [UInt64.le_iff_toNat_le, retransTimeout, UInt64.toNat_add, UInt64.toNat_div, hproduct,
    show (13200 : UInt64).toNat = 13200 from rfl, show (200 : UInt64).toNat = 200 from rfl,
    show (8927 : UInt64).toNat = 8927 from rfl]
  have hquotient : (env.getSpeed l.reads).toNat * 1000 / 13200 ≤ 8727 := by omega
  rw [Nat.mod_eq_of_lt (by omega)]
  omega

/-- In every state that a link comes to, the stamps are times that the clock gave. -/
theorem stamps_normal {env : Env} (hclock : ∀ reads, (env.gettimeofday reads).Normal) (conMagic : ℤ)
    (events : List LifeEvent) : ∀ e ∈ (lived env conMagic events).ackWaitQueue, e.stamp.Normal := by
  intro e he
  obtain ⟨reads, hstamp⟩ := ((lived_sound env conMagic events).queue e he).stamp
  rw [hstamp]
  exact hclock reads

/-- The round of the thread is the one that the timeouts call for when, and only when, each element
was sent in the present second or its timeout is over. -/
theorem expiredRound_eq_iff {env : Env} {l : Link} (hclock : (env.gettimeofday l.reads).Normal)
    (hstamps : ∀ e ∈ l.ackWaitQueue, e.stamp.Normal) (hspeed : env.getSpeed l.reads ≤ 115200) :
    l.expiredRound env = roundWith (env.gettimeofday l.reads)
        (fun e => Elapsed (l.retransTimeout env) e.stamp (env.gettimeofday l.reads)) l.ackWaitQueue ↔
      ∀ e ∈ l.ackWaitQueue,
        SameSecondOrElapsed (l.retransTimeout env) e.stamp (env.gettimeofday l.reads) := by
  have hexact (e : AckWaitQueueElement) (he : e ∈ l.ackWaitQueue) :=
    olderthan_exact_iff (hstamps e he) hclock (retransTimeout_le hspeed)
  rw [expiredRound, retransmitLoop_eq_roundWith, roundWith_eq_iff]
  · simp only [decide_eq_true_eq]
    exact forall₂_congr hexact
  · intro e he helapsed
    have hover := of_decide_eq_true helapsed
    exact ((hexact e he).mpr (.inr hover)).mpr hover

/-- The retransmit thread does what the timeouts call for when, and only when, the link has failed or
each element was sent in the present second or its timeout is over. -/
theorem retransmit_eq_iff {env : Env} {l : Link} (hclock : (env.gettimeofday l.reads).Normal)
    (hstamps : ∀ e ∈ l.ackWaitQueue, e.stamp.Normal) (hspeed : env.getSpeed l.reads ≤ 115200) :
    l.retransmit env = l.retransmitElapsed env ↔
      (l.hasFailed env).failed = true ∨ ∀ e ∈ l.ackWaitQueue,
        SameSecondOrElapsed (l.retransTimeout env) e.stamp (env.gettimeofday l.reads) := by
  rw [← expiredRound_eq_iff hclock hstamps hspeed]
  rcases retransmit_cases env l with ⟨hfailed, heq⟩ | ⟨hworks, heq⟩ <;> rw [heq]
  · rw [retransmitElapsed]
    dsimp only
    rw [if_pos hfailed]
    simp [hfailed]
  · rw [retransmitElapsed]
    dsimp only
    rw [if_neg (by simp [hworks])]
    constructor
    · intro hsame
      refine .inr ?_
      have hqueue := congrArg Link.ackWaitQueue hsame
      have hsent := List.append_cancel_left (congrArg Link.sent hsame)
      have hgiven := congrArg Link.failed hsame
      simp only [hworks, Bool.false_or] at hgiven
      exact Prod.ext hqueue (Prod.ext hsent hgiven)
    · rintro (hfailed | hround)
      · rw [hworks] at hfailed
        cases hfailed
      · rw [hround, hworks]
        rfl

/-- For every two times of the clock and every timeout up to the longest, the test of the age says
whether the timeout has elapsed exactly when no second has begun since or it has; and the retransmit
thread spends the tries that the timeouts call for exactly when that is so of every element, or the
link has failed. -/
theorem retransmits_elapsed_iff (env : Env) (l : Link) {t now : Timeval} (ht : t.Normal)
    (hnow : now.Normal) {millisecs : UInt64} (hms : millisecs ≤ l.retransTimeout stillEnv)
    (hclock : (env.gettimeofday l.reads).Normal) (hstamps : ∀ e ∈ l.ackWaitQueue, e.stamp.Normal)
    (hspeed : env.getSpeed l.reads ≤ 115200) :
    ((olderthan t (timesub now millisecs) = true ↔ Elapsed millisecs t now) ↔
      SameSecondOrElapsed millisecs t now) ∧
    (l.retransmit env = l.retransmitElapsed env ↔
      (l.hasFailed env).failed = true ∨ ∀ e ∈ l.ackWaitQueue,
        SameSecondOrElapsed (l.retransTimeout env) e.stamp (env.gettimeofday l.reads)) :=
  ⟨olderthan_exact_iff ht hnow (hms.trans_eq (retransTimeout_stillEnv l)),
    retransmit_eq_iff hclock hstamps hspeed⟩

/-- A clock that has just begun a second. -/
def laterEnv : Env := { stillEnv with gettimeofday := fun _ => ⟨1001, 0⟩ }

/-- The clock shows regular times. -/
theorem laterEnv_normal (reads : ℕ) : (laterEnv.gettimeofday reads).Normal :=
  ⟨(by decide : (0 : UInt64) < 1000000), (by decide : (1000 : UInt64) ≤ 1001),
    (by decide : (1001 : UInt64) < 0x80000000)⟩

/-- A microsecond before the second begins. -/
def stampBefore : Timeval := ⟨1000, 999999⟩

/-- A stamp of the second before, and a new link. -/
theorem retransmits_elapsed_iff_request :
    ((olderthan stampBefore (timesub ⟨1001, 0⟩ 8927) = true ↔ Elapsed 8927 stampBefore ⟨1001, 0⟩) ↔
      SameSecondOrElapsed 8927 stampBefore ⟨1001, 0⟩) ∧
    ((construct laterEnv 0).retransmit laterEnv = (construct laterEnv 0).retransmitElapsed laterEnv ↔
      ((construct laterEnv 0).hasFailed laterEnv).failed = true ∨
        ∀ e ∈ (construct laterEnv 0).ackWaitQueue,
          SameSecondOrElapsed ((construct laterEnv 0).retransTimeout laterEnv) e.stamp ⟨1001, 0⟩) :=
  retransmits_elapsed_iff laterEnv (construct laterEnv 0) ⟨by decide, by decide, by decide⟩
    ⟨by decide, by decide, by decide⟩ (by rw [retransTimeout_stillEnv]; decide)
    (laterEnv_normal 0) (stamps_normal laterEnv_normal 0 []) (by decide)

/-- A microsecond into the next second a packet is sent again. -/
theorem resent_after_microsecond : ¬ ∀ (t now : Timeval) (millisecs : UInt64), t.Normal → now.Normal →
    millisecs ≤ 8927 → (olderthan t (timesub now millisecs) = true ↔ Elapsed millisecs t now) := by
  intro hall
  have hexact := hall stampBefore ⟨1001, 0⟩ 8927 ⟨by decide, by decide, by decide⟩
    ⟨by decide, by decide, by decide⟩ (by decide)
  exact absurd hexact (by decide)

end Link

end Plptools
