import Plptools.Library.Run
import Plptools.Print.Service

/-!
# Pages from packets

A page is its header, which holds its length with 8 bytes of the header, and the bytes behind it. The
loop counts down what is still to come, and a page is complete when nothing is: a packet with more than
that makes the counter, which is unsigned, a number that no page reaches. A page that is complete is
handed to `convertPage`, which is taken to return.
-/

namespace Plptools

open RFSV (getByte getDWord uint32)
open Plptools.Library

/-! ### Packets and the pages in them -/

def typeByte (jobEnd : Bool) : UInt8 := if jobEnd then 0xff else 0x2a

/-- A packet of a job that is not cancelled. -/
structure PagePacket where
  jobEnd : Bool
  payload : List UInt8
  ne_fakePage : typeByte jobEnd :: payload ≠ fakePage

/-- The length in the header of a page, and the bytes behind the header. -/
structure IncomingPage where
  len : ℕ
  bytes : List UInt8
deriving DecidableEq, Repr

/-- As many bytes as the header says have arrived. -/
def IncomingPage.Complete (page : IncomingPage) : Prop := page.len ≤ page.bytes.length + 8

instance (page : IncomingPage) : Decidable page.Complete := inferInstanceAs (Decidable (_ ≤ _))

/-- The page that is arriving, and the pages so far, with their numbers and whether they end a job. -/
structure Collector where
  page : Option IncomingPage
  count : ℕ
  handed : List (ℕ × Bool × List UInt8)
deriving DecidableEq, Repr

namespace Collector

def start : Collector := ⟨none, 0, []⟩

/-- The page with a packet more. -/
def arrived (c : Collector) (p : PagePacket) : IncomingPage :=
  match c.page with
  | none => ⟨getDWord p.payload 1, p.payload.drop 13⟩
  | some page => { page with bytes := page.bytes ++ p.payload }

/-- A page is handed on with the packet that completes it. -/
def add (c : Collector) (p : PagePacket) : Collector :=
  let page := c.arrived p
  if page.Complete then ⟨none, c.count + 1, c.handed ++ [(c.count, p.jobEnd, page.bytes)]⟩
  else { c with page := some page }

/-- The next packet is the first of the next job. -/
def endJob (c : Collector) (jobEnd : Bool) : Collector := if jobEnd then { c with page := none, count := 0 } else c

def step (c : Collector) (p : PagePacket) : Collector := (c.add p).endJob p.jobEnd

/-- A page that begins is not handed on. -/
theorem handed_step (c : Collector) (p : PagePacket) : (c.step p).handed = (c.add p).handed := by
  rw [step, endJob]
  cases p.jobEnd <;> rfl

/-- A page is complete with the number of bytes that its header says, up to a multiple of what an
unsigned long counts. -/
def EndsExactly (c : Collector) (p : PagePacket) : Prop :=
  (c.arrived p).Complete → (c.arrived p).bytes.length % 2 ^ 64 = uint32 (((c.arrived p).len : ℤ) - 8)

end Collector

/-! ### The loop and the collector -/

def PrintCall.page : PrintCall → Option (ℕ × Bool × List UInt8)
  | .convertPage page last buf => some (page, last, buf)
  | _ => none

namespace ServiceState

/-- A packet is received; a spool file can be created. -/
def receive (s : ServiceState) (p : PagePacket) : ServiceState :=
  s.step (.data (typeByte p.jobEnd :: p.payload) true)

/-- The pages that were converted. -/
def pages (s : ServiceState) : List (ℕ × Bool × List UInt8) := s.calls.filterMap PrintCall.page

/-- The next packet starts a page. -/
def AtPageStart (s : ServiceState) : Prop := s.spoolOpen = true → s.pageStart = true

end ServiceState

/-- The same pages have been handed on, and the next packet starts a page of both. -/
structure SamePages (s : ServiceState) (c : Collector) : Prop where
  pages : s.pages = c.handed
  start : s.AtPageStart ↔ c.page = none

/-- What the loop remembers of the page that is arriving. -/
structure Collects (s : ServiceState) (c : Collector) : Prop where
  jobLoop : s.jobLoop = true
  cancelled : s.cancelled = false
  pages : s.pages = c.handed
  count : c.count = if s.spoolOpen then s.pageCount else 0
  atStart : c.page = none → s.AtPageStart
  inside : ∀ page, c.page = some page → s.spoolOpen = true ∧ s.pageStart = false ∧ s.pageBuf = page.bytes ∧
    s.plen + page.bytes.length + 8 = page.len ∧ 0 < s.plen ∧ page.len < 2 ^ 32

namespace IncomingPage

/-- What the counter says is still to come of a page. -/
def left (page : IncomingPage) : ℕ := subULong (uint32 ((page.len : ℤ) - 8)) page.bytes.length

/-- Nothing is left just when the bytes are as many as the header says, cut off to a long. -/
theorem left_eq_zero (page : IncomingPage) :
    page.left = 0 ↔ page.bytes.length % 2 ^ 64 = uint32 ((page.len : ℤ) - 8) := by
  have hlt := RFSV.uint32_lt ((page.len : ℤ) - 8)
  rw [left, subULong]
  omega

/-- Of a page that is not complete it says what is. -/
theorem left_of_not_complete {page : IncomingPage} (hlen : page.len < 2 ^ 32) (h : ¬page.Complete) :
    page.left + page.bytes.length + 8 = page.len ∧ 0 < page.left := by
  rw [Complete] at h
  rw [left, subULong, uint32]
  omega

end IncomingPage

/-- A call hands on a page, or none. -/
theorem ServiceState.pages_call (s : ServiceState) (c : PrintCall) : (s.call c).pages = s.pages ++ c.page.toList := by
  rw [pages, call, List.filterMap_append]
  cases c <;> rfl

namespace ServiceState

/-- A page is converted where the counter has come to zero. -/
theorem addBuff_eq (s : ServiceState) (jobEnd : Bool) (buf : List UInt8) :
    s.addBuff jobEnd buf =
      if subULong s.plen buf.length = 0 then
        { s.call (.convertPage s.pageCount jobEnd (s.pageBuf ++ buf)) with
          plen := 0, pageCount := s.pageCount + 1, pageBuf := [], pageStart := true }
      else { s with plen := subULong s.plen buf.length, pageBuf := s.pageBuf ++ buf } := by
  by_cases hzero : subULong s.plen buf.length = 0
  · rw [if_pos hzero]
    refine (if_pos (Nat.le_zero.mpr hzero)).trans ?_
    dsimp only [call]
    rw [hzero]
  · rw [if_neg hzero]
    exact if_neg (mt Nat.le_zero.mp hzero)

/-- At the end of a job the file is dealt with, and no page is converted. -/
theorem endJob_eq (s : ServiceState) : ∃ calls, s.endJob true = { s with spoolOpen := false, calls := s.calls ++ calls } ∧
    calls.filterMap PrintCall.page = [] := by
  obtain ⟨_, spoolOpen, _, cancelled, _, pageCount, _, calls⟩ := s
  cases spoolOpen <;> cases cancelled <;> cases pageCount
  all_goals simp [endJob, call, PrintCall.page]

/-- The end of a job hands on no page. -/
theorem pages_endJob (s : ServiceState) (jobEnd : Bool) : (s.endJob jobEnd).pages = s.pages := by
  cases jobEnd with
  | false => rfl
  | true =>
    obtain ⟨calls, hend, hnone⟩ := s.endJob_eq
    rw [hend, pages, pages, List.filterMap_append, hnone, List.append_nil]

/-- What is done with a packet of a job. -/
theorem receive_eq {s : ServiceState} (hjob : s.jobLoop = true) (p : PagePacket) :
    s.receive p = ((s.openSpool true).collect p.jobEnd (typeByte p.jobEnd :: p.payload)).endJob p.jobEnd := by
  rw [receive, step, if_pos hjob]
  dsimp only
  rw [if_neg p.ne_fakePage]
  cases p.jobEnd <;> rfl

end ServiceState

namespace Collects

variable {s : ServiceState} {c : Collector}

/-- At the start nothing has arrived. -/
theorem startState : Collects .start .start :=
  ⟨rfl, rfl, rfl, rfl, fun _ h => absurd h Bool.false_ne_true, nofun⟩

/-- The same pages have been handed on. -/
theorem samePages (h : Collects s c) : SamePages s c := by
  refine ⟨h.pages, fun hstart => ?_, h.atStart⟩
  cases hpage : c.page with
  | none => rfl
  | some page =>
    obtain ⟨hopen, hinside, -⟩ := h.inside page hpage
    exact absurd (hstart hopen) (by rw [hinside]; decide)

/-- Before a packet is looked at, there is a spool file. -/
theorem openSpool (h : Collects s c) : Collects (s.openSpool true) c ∧ (s.openSpool true).spoolOpen = true := by
  cases hopen : s.spoolOpen with
  | true =>
    have hsame : s.openSpool true = s := by rw [ServiceState.openSpool, hopen]; rfl
    rw [hsame]
    exact ⟨h, hopen⟩
  | false =>
    have hopened : s.openSpool true =
        { s.call .openSpool with spoolOpen := true, pageStart := true, pageCount := 0, plen := 0 } := by
      rw [ServiceState.openSpool, hopen, h.cancelled]
      rfl
    have hpages : (s.openSpool true).pages = c.handed := by
      rw [hopened, ← h.pages]
      exact (s.pages_call .openSpool).trans (List.append_nil _)
    rw [hopened] at hpages ⊢
    refine ⟨⟨h.jobLoop, h.cancelled, hpages, ?_, fun _ _ => rfl, fun page hpage => ?_⟩, rfl⟩
    · rw [h.count, hopen]
      rfl
    · exact absurd ((h.inside page hpage).1) (by rw [hopen]; decide)

/-- The length in a header is a double word. -/
theorem arrived_len (h : Collects s c) (p : PagePacket) : (c.arrived p).len < 2 ^ 32 := by
  rw [Collector.arrived]
  cases hpage : c.page with
  | none => exact RFSV.getDWord_lt _ _
  | some page => exact (h.inside page hpage).2.2.2.2.2

/-- The header is the start of the page, or there is none. -/
theorem startPage (h : Collects s c) (hopen : s.spoolOpen = true) (p : PagePacket) :
    ∃ plen pageBuf buf, s.startPage p.payload = ({ s with plen, pageBuf, pageStart := false }, buf) ∧
      pageBuf ++ buf = (c.arrived p).bytes ∧ subULong plen buf.length = (c.arrived p).left := by
  rw [ServiceState.startPage, IncomingPage.left, Collector.arrived]
  cases hpage : c.page with
  | none =>
    rw [if_pos (h.atStart hpage hopen)]
    exact ⟨_, _, _, rfl, rfl, rfl⟩
  | some page =>
    obtain ⟨-, hstart, hbuf, hleft, -, hlen⟩ := h.inside page hpage
    refine ⟨s.plen, s.pageBuf, p.payload, ?_, ?_, ?_⟩
    · rw [hstart]
      obtain ⟨⟩ := s
      cases hstart
      rfl
    · rw [hbuf]
    · dsimp only
      rw [List.length_append, subULong, subULong, uint32]
      omega

/-- A packet completes the page where nothing is left to come. -/
theorem collect_eq (h : Collects s c) (hopen : s.spoolOpen = true) (p : PagePacket) :
    s.collect p.jobEnd (typeByte p.jobEnd :: p.payload) =
      if (c.arrived p).left = 0 then
        { s.call (.convertPage s.pageCount p.jobEnd (c.arrived p).bytes) with
          plen := 0, pageCount := s.pageCount + 1, pageBuf := [], pageStart := true }
      else { s with plen := (c.arrived p).left, pageBuf := (c.arrived p).bytes, pageStart := false } := by
  obtain ⟨plen, pageBuf, buf, hstart, hbytes, hleft⟩ := h.startPage hopen p
  have hbuf : s.collect p.jobEnd (typeByte p.jobEnd :: p.payload) =
      (s.startPage p.payload).1.addBuff p.jobEnd (s.startPage p.payload).2 :=
    if_pos (by rw [h.cancelled]; rfl)
  rw [hbuf, hstart, ServiceState.addBuff_eq]
  dsimp only
  rw [hbytes, hleft]
  rfl

/-- A page that ends exactly is handed on with the packet that completes it, and no page before. -/
theorem collect (h : Collects s c) (hopen : s.spoolOpen = true) {p : PagePacket} (hexact : c.EndsExactly p) :
    Collects (s.collect p.jobEnd (typeByte p.jobEnd :: p.payload)) (c.add p) := by
  have hlen := h.arrived_len p
  have hcount : c.count = s.pageCount := by rw [h.count, if_pos hopen]
  rw [h.collect_eq hopen, Collector.add]
  dsimp only
  by_cases hcomplete : (c.arrived p).Complete
  · have hleft : (c.arrived p).left = 0 := (IncomingPage.left_eq_zero _).mpr (hexact hcomplete)
    rw [if_pos hleft, if_pos hcomplete]
    refine ⟨h.jobLoop, h.cancelled, ?_, ?_, fun _ _ => rfl, nofun⟩
    · rw [← hcount, ← h.pages]
      exact s.pages_call _
    · rw [hcount]
      exact (if_pos hopen).symm
  · obtain ⟨hsum, hpos⟩ := IncomingPage.left_of_not_complete hlen hcomplete
    rw [if_neg (Nat.ne_of_gt hpos), if_neg hcomplete]
    refine ⟨h.jobLoop, h.cancelled, h.pages, h.count, nofun, fun page hpage => ?_⟩
    obtain rfl := Option.some.inj hpage
    exact ⟨hopen, rfl, rfl, hsum, hpos, hlen⟩

/-- A page that does not end exactly is not handed on with the packet that completes it. -/
theorem pages_collect_ne (h : Collects s c) (hopen : s.spoolOpen = true) {p : PagePacket} (hexact : ¬c.EndsExactly p) :
    (s.collect p.jobEnd (typeByte p.jobEnd :: p.payload)).pages ≠ (c.add p).handed := by
  rw [Collector.EndsExactly, Classical.not_imp] at hexact
  obtain ⟨hcomplete, hne⟩ := hexact
  have hleft : (c.arrived p).left ≠ 0 := mt (IncomingPage.left_eq_zero _).mp hne
  rw [h.collect_eq hopen, if_neg hleft, Collector.add, if_pos hcomplete]
  intro heq
  have hlength := congrArg List.length (h.pages.symm.trans heq)
  rw [List.length_append] at hlength
  exact absurd hlength (by simp)

/-- The pages stay at the end of a job. -/
theorem endJob (h : Collects s c) (jobEnd : Bool) : Collects (s.endJob jobEnd) (c.endJob jobEnd) := by
  cases jobEnd with
  | false => exact h
  | true =>
    have hpages := (s.pages_endJob true).trans h.pages
    obtain ⟨calls, hend, -⟩ := s.endJob_eq
    rw [hend] at hpages ⊢
    exact ⟨h.jobLoop, h.cancelled, hpages, rfl, fun _ hopen => absurd hopen Bool.false_ne_true, nofun⟩

/-- As long as the pages end exactly, the loop collects them. -/
theorem step (h : Collects s c) (p : PagePacket) (hexact : c.EndsExactly p) : Collects (s.receive p) (c.step p) := by
  obtain ⟨hcollects, hopen⟩ := h.openSpool
  rw [ServiceState.receive_eq h.jobLoop, Collector.step]
  exact (hcollects.collect hopen hexact).endJob p.jobEnd

/-- With the first page that does not, it has handed on another number of pages. -/
theorem pages_step_ne (h : Collects s c) (p : PagePacket) (hexact : ¬c.EndsExactly p) :
    (s.receive p).pages ≠ (c.step p).handed := by
  obtain ⟨hcollects, hopen⟩ := h.openSpool
  rw [ServiceState.receive_eq h.jobLoop, ServiceState.pages_endJob, Collector.handed_step]
  exact hcollects.pages_collect_ne hopen hexact

end Collects

/-- After each packet the loop has handed on the pages that are complete. -/
def AssemblesPages (packets : List PagePacket) : Prop :=
  ∀ seen, seen <+: packets →
    SamePages (runFrom ServiceState.receive .start seen) (runFrom Collector.step .start seen)

/-- The pages are handed on when they are complete just when each ends exactly at the end of a packet. -/
theorem assemblesPages_iff (packets : List PagePacket) :
    AssemblesPages packets ↔ Admits Collector.step Collector.EndsExactly .start packets :=
  forall_prefix_iff_admits_of_sim Collects SamePages (fun _ _ => Collects.samePages)
    (fun _ _ p h => h.step p) (fun _ _ p h hexact hsame => h.pages_step_ne p hexact hsame.pages)
    Collects.startState packets

/-- A page of one byte, in a packet with two. -/
theorem not_assemblesPages_more :
    ¬AssemblesPages [⟨true, [0, 9, 0, 0, 0, 0, 0, 0, 0, 0, 0, 0, 0, 1, 2], by decide⟩] := by
  intro h
  have hpages := (h _ (List.prefix_refl _)).pages
  exact absurd hpages (by decide)

end Plptools
