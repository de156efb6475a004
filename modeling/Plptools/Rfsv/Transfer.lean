import Plptools.Rfsv.RFSV16
import Plptools.Rfsv.RFSV32

/-!
# Copying files to and from the device

A device appends what is written to a file and hands out what has not been read yet, as much as is
asked for. The chunks of `fread` and `fwrite` are then put together without a gap, and so are those of
the copy loops around them, whatever the length of the file. What one call of `fwrite` sends can be
said of any device.
-/

namespace Plptools

open Plptools.Library

open BufferStore (wordBytes dwordBytes)

namespace RFSV

/-- The requests for one file, and the answers that grant a handle and tell the end of the file. -/
structure FileLayout (C : Type) where
  create : Request C
  replace : Request C
  fopen : Request C
  fclose : ℕ → Request C
  fwrite : ℕ → List UInt8 → Request C
  fread : ℕ → ℕ → Request C
  grant : ℕ → List UInt8
  maxHandle : ℕ
  ended : Response → Prop

variable {σ C : Type}

/-- A device that holds a file: what was written to it, and what has not been read yet. The statuses that
are left open, of a file that is not created and of one that is closed, are taken to be registered values. -/
structure FileServer (layout : FileLayout C) (answer : σ → Request C → Response × σ) where
  content : σ → List UInt8
  unread : σ → List UInt8
  writing : σ → Prop
  reading : σ → Prop
  writeHandle : ℕ
  readHandle : ℕ
  writeHandle_lt : writeHandle < layout.maxHandle
  readHandle_lt : readHandle < layout.maxHandle
  create : ∀ d, (answer d layout.create).1.status = E_PSI_GEN_NONE →
    (answer d layout.create).1.data = layout.grant writeHandle ∧
      writing (answer d layout.create).2 ∧ content (answer d layout.create).2 = []
  replace : ∀ d, (answer d layout.replace).1 = ⟨E_PSI_GEN_NONE, layout.grant writeHandle⟩ ∧
    writing (answer d layout.replace).2 ∧ content (answer d layout.replace).2 = []
  fwrite : ∀ d bytes, writing d →
    (answer d (layout.fwrite writeHandle bytes)).1.status = E_PSI_GEN_NONE ∧
      writing (answer d (layout.fwrite writeHandle bytes)).2 ∧
      content (answer d (layout.fwrite writeHandle bytes)).2 = content d ++ bytes
  fclose : ∀ d, writing d → content (answer d (layout.fclose writeHandle)).2 = content d
  fopen : ∀ d, (answer d layout.fopen).1 = ⟨E_PSI_GEN_NONE, layout.grant readHandle⟩ ∧
    reading (answer d layout.fopen).2 ∧ unread (answer d layout.fopen).2 = content d
  fread : ∀ d k, reading d → k ≤ RFSV_SENDLEN → unread d ≠ [] →
    (answer d (layout.fread readHandle k)).1 = ⟨E_PSI_GEN_NONE, (unread d).take k⟩ ∧
      reading (answer d (layout.fread readHandle k)).2 ∧
      unread (answer d (layout.fread readHandle k)).2 = (unread d).drop k
  fread_end : ∀ d k, reading d → k ≤ RFSV_SENDLEN → unread d = [] →
    layout.ended (answer d (layout.fread readHandle k)).1 ∧
      reading (answer d (layout.fread readHandle k)).2 ∧
      unread (answer d (layout.fread readHandle k)).2 = []

/-- The callback never cancels. -/
def NeverCancels : CpCallback → Prop
  | none => True
  | some cb => ∀ calls total, cb calls total = true

/-- The progress is reported and nothing else. -/
theorem report_of_neverCancels {cb : CpCallback} (h : NeverCancels cb) (calls total : ℕ)
    (res : Errs) : report cb calls total res = res := by
  cases cb with
  | none => rfl
  | some cb => exact if_pos (h calls total)

/-- A chunk, and then the rest of what was asked for. -/
theorem take_append_take_drop (l : List UInt8) {k m : ℕ} (h : k ≤ m) :
    l.take k ++ (l.drop k).take (m - (l.take k).length) = l.take m := by
  by_cases hk : k ≤ l.length
  · rw [List.length_take_of_le hk, ← List.take_add, Nat.add_sub_cancel' h]
  · rw [List.drop_eq_nil_of_le (by omega), List.take_nil, List.append_nil,
      List.take_of_length_le (by omega), List.take_of_length_le (by omega)]

/-- What is left behind the two chunks. -/
theorem drop_drop_take (l : List UInt8) {k m : ℕ} (h : k ≤ m) :
    (l.drop k).drop (m - (l.take k).length) = l.drop m := by
  by_cases hk : k ≤ l.length
  · rw [List.length_take_of_le hk, List.drop_drop, Nat.add_sub_cancel' h]
  · have hnil : l.drop k = [] := List.drop_eq_nil_of_le (by omega)
    rw [hnil, List.drop_nil, List.drop_eq_nil_of_le (by omega)]

section Loops

variable {layout : FileLayout C} {answer : σ → Request C → Response × σ}
  (server : FileServer layout answer)

/-- A way to write a chunk that appends it. -/
def Appends (n : ℕ) (fwrite : List UInt8 → Client σ C (Option (Errs × ℕ))) : Prop :=
  ∀ s buf, server.writing s.server → buf.length ≤ n → buf.length ≤ RFSV_SENDLEN → ∃ s',
    fwrite buf s = (some (E_PSI_GEN_NONE, buf.length), s') ∧
      server.writing s'.server ∧ server.content s'.server = server.content s.server ++ buf

/-- A way to read a chunk that takes as much as there is. -/
def Takes (n : ℕ) (fread : Client σ C (Option (Errs × ℕ × List UInt8))) : Prop :=
  ∀ s, server.reading s.server → (server.unread s.server).length ≤ n → ∃ s',
    fread s = (some (E_PSI_GEN_NONE, ((server.unread s.server).take RFSV_SENDLEN).length,
        (server.unread s.server).take RFSV_SENDLEN), s') ∧
      server.reading s'.server ∧
      server.unread s'.server = (server.unread s.server).drop RFSV_SENDLEN

variable {server}

/-- Behind the end of the local file nothing is written. -/
theorem copyToLoop_eof (fwrite : List UInt8 → Client σ C (Option (Errs × ℕ))) (cb : CpCallback)
    (fuel : ℕ) (res : Errs) (calls total : ℕ) (ip : List UInt8) :
    copyToLoop fwrite cb fuel res true calls total ip = return some res := by
  rw [copyToLoop.eq_def]
  simp

/-- The write loop appends what is left of the local file. -/
theorem copyToLoop_spec {n : ℕ} {fwrite : List UInt8 → Client σ C (Option (Errs × ℕ))}
    (hfwrite : Appends server n fwrite) {cb : CpCallback} (hcb : NeverCancels cb) {fuel : ℕ}
    (calls total : ℕ) {ip : List UInt8} (hfuel : ip.length < fuel) (hn : ip.length ≤ n)
    {s : Session σ (Request C) (Option Response)} (hwriting : server.writing s.server) :
    ∃ s', copyToLoop fwrite cb fuel E_PSI_GEN_NONE false calls total ip s =
        (some E_PSI_GEN_NONE, s') ∧
      server.writing s'.server ∧ server.content s'.server = server.content s.server ++ ip := by
  induction fuel generalizing calls total ip s with
  | zero => omega
  | succ fuel ih =>
    have hchunk : (ip.take RFSV_SENDLEN).length ≤ n := by
      rw [List.length_take]
      omega
    obtain ⟨s₁, hwrite, hwriting₁, hcontent₁⟩ := hfwrite s (ip.take RFSV_SENDLEN) hwriting hchunk
      (List.length_take_le _ _)
    have hstep : copyToLoop fwrite cb (fuel + 1) E_PSI_GEN_NONE false calls total ip s =
        copyToLoop fwrite cb fuel E_PSI_GEN_NONE (decide (ip.length < RFSV_SENDLEN)) (calls + 1)
          (uint32 (total + (ip.take RFSV_SENDLEN).length)) (ip.drop RFSV_SENDLEN) s₁ := by
      rw [copyToLoop]
      simp [hwrite, report_of_neverCancels hcb]
    rw [hstep]
    by_cases hshort : ip.length < RFSV_SENDLEN
    · rw [decide_eq_true hshort, copyToLoop_eof]
      rw [List.take_of_length_le (Nat.le_of_lt hshort)] at hcontent₁
      exact ⟨s₁, rfl, hwriting₁, hcontent₁⟩
    · rw [decide_eq_false hshort]
      have hrest : (ip.drop RFSV_SENDLEN).length < ip.length := by
        rw [List.length_drop, RFSV_SENDLEN] at *
        omega
      have hrestFuel : (ip.drop RFSV_SENDLEN).length < fuel := by omega
      have hrestLen : (ip.drop RFSV_SENDLEN).length ≤ n := by omega
      obtain ⟨s₂, heq, hwriting₂, hcontent₂⟩ := ih (calls + 1) _ hrestFuel hrestLen hwriting₁
      rw [hcontent₁, List.append_assoc, List.take_append_drop] at hcontent₂
      exact ⟨s₂, heq, hwriting₂, hcontent₂⟩

/-- The read loop puts everything that is left into the local file. -/
theorem copyFromLoop_spec {n : ℕ} {fread : Client σ C (Option (Errs × ℕ × List UInt8))}
    (hfread : Takes server n fread) {cb : CpCallback} (hcb : NeverCancels cb) {fuel : ℕ}
    (calls total : ℕ) (op : List UInt8) {s : Session σ (Request C) (Option Response)}
    (hfuel : (server.unread s.server).length < fuel) (hn : (server.unread s.server).length ≤ n)
    (hreading : server.reading s.server) :
    ∃ s', copyFromLoop fread cb fuel calls total op s =
      (some (E_PSI_GEN_NONE, op ++ server.unread s.server), s') := by
  induction fuel generalizing calls total op s with
  | zero => omega
  | succ fuel ih =>
    obtain ⟨s₁, hread, hreading₁, hunread₁⟩ := hfread s hreading hn
    by_cases hempty : server.unread s.server = []
    · refine ⟨s₁, ?_⟩
      simp [copyFromLoop, hread, report_of_neverCancels hcb, hempty]
    · have hpos : 0 < (server.unread s.server).length := List.length_pos_iff.mpr hempty
      have hrest : (server.unread s₁.server).length < (server.unread s.server).length := by
        rw [hunread₁, List.length_drop, RFSV_SENDLEN]
        omega
      have hlen : 0 < ((server.unread s.server).take RFSV_SENDLEN).length := by
        rw [List.length_take, RFSV_SENDLEN]
        omega
      obtain ⟨s₂, heq⟩ := ih (calls + 1)
        (uint32 (total + ((server.unread s.server).take RFSV_SENDLEN).length))
        (op ++ (server.unread s.server).take RFSV_SENDLEN) (by omega) (by omega) hreading₁
      rw [hunread₁, List.append_assoc, List.take_append_drop] at heq
      refine ⟨s₂, heq ▸ ?_⟩
      simp only [copyFromLoop, hread, report_of_neverCancels hcb, Dialogue.bind_apply, gt_iff_lt, hlen,
        and_self, if_true]

/-- One round of a read asks for at most what is missing, and goes on while it is given something
and more is missing. -/
def Rounds (server : FileServer layout answer) (len : ℕ)
    (loop : ℕ → ℕ → List UInt8 → Client σ C (Option (Errs × ℕ × List UInt8))) : Prop :=
  ∀ fuel count buf s, server.reading s.server → count < len → ∃ k s₁, 0 < k ∧ k ≤ len - count ∧
    server.reading s₁.server ∧ server.unread s₁.server = (server.unread s.server).drop k ∧
      loop (fuel + 1) count buf s =
        if count + ((server.unread s.server).take k).length < len ∧
            0 < ((server.unread s.server).take k).length then
          loop fuel (count + ((server.unread s.server).take k).length)
            (buf ++ (server.unread s.server).take k) s₁
        else (some (E_PSI_GEN_NONE, count + ((server.unread s.server).take k).length,
          buf ++ (server.unread s.server).take k), s₁)

/-- The rounds of a read take what there is, up to `len` bytes in all. -/
theorem Rounds.spec {len : ℕ}
    {loop : ℕ → ℕ → List UInt8 → Client σ C (Option (Errs × ℕ × List UInt8))}
    (h : Rounds server len loop) {fuel count : ℕ} (buf : List UInt8)
    {s : Session σ (Request C) (Option Response)} (hcount : count < len)
    (hfuel : (server.unread s.server).length < fuel) (hreading : server.reading s.server) :
    ∃ s', loop fuel count buf s =
        (some (E_PSI_GEN_NONE, count + ((server.unread s.server).take (len - count)).length,
          buf ++ (server.unread s.server).take (len - count)), s') ∧
      server.reading s'.server ∧
      server.unread s'.server = (server.unread s.server).drop (len - count) := by
  induction fuel generalizing count buf s with
  | zero => omega
  | succ fuel ih =>
    obtain ⟨k, s₁, hpos, hle, hreading₁, hunread₁, hstep⟩ := h fuel count buf s hreading hcount
    have hlength := List.length_take (i := k) (l := server.unread s.server)
    rw [hstep]
    split
    · next hmore =>
      have hrest : (server.unread s₁.server).length < fuel := by
        rw [hunread₁, List.length_drop]
        omega
      obtain ⟨s₂, heq, hreading₂, hunread₂⟩ :=
        ih (buf ++ (server.unread s.server).take k) hmore.1 hrest hreading₁
      rw [← Nat.sub_sub, hunread₁] at heq hunread₂
      rw [drop_drop_take _ hle] at hunread₂
      refine ⟨s₂, ?_, hreading₂, hunread₂⟩
      rw [heq, ← take_append_take_drop (server.unread s.server) hle, List.length_append,
        List.append_assoc, Nat.add_assoc]
    · -- the request was for all that is missing, or nothing was left
      have htake : (server.unread s.server).take k = (server.unread s.server).take (len - count) := by
        rcases Nat.lt_or_ge k (len - count) with hlt | hge
        · rw [List.take_of_length_le (by omega), List.take_of_length_le (by omega)]
        · rw [Nat.le_antisymm hle hge]
      have hdrop : (server.unread s.server).drop k = (server.unread s.server).drop (len - count) := by
        rcases Nat.lt_or_ge k (len - count) with hlt | hge
        · rw [List.drop_eq_nil_of_le (by omega), List.drop_eq_nil_of_le (by omega)]
        · rw [Nat.le_antisymm hle hge]
      exact ⟨s₁, by rw [htake], hreading₁, by rw [hunread₁, hdrop]⟩

end Loops

section Writes

/-- The device has taken what was sent. -/
def acknowledged (r : Option Response) : Bool := r.any fun a => a.status = E_PSI_GEN_NONE

/-- What was sent between two sessions are chunks of `p`, from its beginning and one behind the
other, all of it unless there is an error; `count` has grown by the bytes that were acknowledged. -/
def Written (layout : FileLayout C) (handle : ℕ) (p : List UInt8)
    (s s' : Session σ (Request C) (Option Response)) (res : Errs) (base count : ℕ) : Prop :=
  ∃ chunks : List (List UInt8 × Option Response),
    s'.log = s.log ++ chunks.map (fun c => (layout.fwrite handle c.1, c.2)) ∧
      (chunks.map Prod.fst).flatten <+: p ∧
      (res = E_PSI_GEN_NONE → (chunks.map Prod.fst).flatten = p) ∧
      ((chunks.filter fun c => acknowledged c.2).map Prod.fst).flatten <+: p ∧
      count = base + ((chunks.filter fun c => acknowledged c.2).map Prod.fst).flatten.length

variable {layout : FileLayout C} {handle : ℕ} {p : List UInt8}
  {s s₁ s₂ : Session σ (Request C) (Option Response)} {res : Errs} {base count k : ℕ}
  {r : Option Response}

/-- A write returns, and what it has sent are chunks of its buffer. -/
def WritesOut (layout : FileLayout C) (handle : ℕ) (buf : List UInt8) (fuel : ℕ)
    (fwrite : Client σ C (Option (Errs × ℕ))) (s : Session σ (Request C) (Option Response)) : Prop :=
  (buf.length < fuel → (fwrite s).1.isSome) ∧ ∀ out, (fwrite s).1 = some out →
    Written layout handle buf s (fwrite s).2 out.1 0 out.2

/-- Nothing has been written. -/
theorem written_nil (res : Errs) (base : ℕ) : Written layout handle [] s s res base base :=
  ⟨[], by simp⟩

/-- A chunk that is not acknowledged is the last one. -/
theorem written_of_refused (hlog : s₁.log = s.log ++ [(layout.fwrite handle (p.take k), r)])
    (hr : acknowledged r = false) (hres : res ≠ E_PSI_GEN_NONE) :
    Written layout handle p s s₁ res base base := by
  refine ⟨[(p.take k, r)], hlog, ?_, fun h => absurd h hres, ?_, ?_⟩
  · simpa using List.take_prefix k p
  · simp [hr]
  · simp [hr]

/-- A chunk that is acknowledged, and those behind it. -/
theorem Written.cons (h : Written layout handle (p.drop k) s₁ s₂ res (base + (p.take k).length) count)
    (hlog : s₁.log = s.log ++ [(layout.fwrite handle (p.take k), r)]) (hr : acknowledged r = true) :
    Written layout handle p s s₂ res base count := by
  obtain ⟨chunks, hchunks, hprefix, hall, hacked, hcount⟩ := h
  have hsplit : ∀ l : List UInt8, l <+: p.drop k → p.take k ++ l <+: p := by
    intro l hl
    conv => rhs; rw [← List.take_append_drop k p]
    exact (List.prefix_append_right_inj _).mpr hl
  refine ⟨(p.take k, r) :: chunks, ?_, ?_, fun hnone => ?_, ?_, ?_⟩
  · rw [hchunks, hlog, List.map_cons, List.append_assoc, List.singleton_append]
  · simpa using hsplit _ hprefix
  · simp [hall hnone]
  · simpa [hr] using hsplit _ hacked
  · simp only [List.filter_cons, hr, if_true, List.map_cons, List.flatten_cons, List.length_append]
    omega

/-- One round of a write sends some of what is left, and goes on behind it when that is
acknowledged. -/
structure WriteRounds (answer : Device σ C) (layout : FileLayout C) (handle len : ℕ)
    (loop : ℕ → Errs → ℕ → List UInt8 → Client σ C (Option (Errs × ℕ))) : Prop where
  zero : ∀ res count p s, p ≠ [] → count + p.length = len → (loop 0 res count p s).1 = none
  empty : ∀ fuel s, loop (fuel + 1) E_PSI_GEN_NONE len [] s = (some (E_PSI_GEN_NONE, len), s)
  round : ∀ fuel res count p s, p ≠ [] → count + p.length = len → ∃ k, 0 < k ∧ k ≤ p.length ∧
    ∀ r s₁, sendCommand answer (layout.fwrite handle (p.take k)).command
        (layout.fwrite handle (p.take k)).data s = (r, s₁) →
      (acknowledged r = false → ∃ res', res' ≠ E_PSI_GEN_NONE ∧
        loop (fuel + 1) res count p s = (some (res', count), s₁)) ∧
      (acknowledged r = true → loop (fuel + 1) res count p s =
        if p.drop k = [] then (some (E_PSI_GEN_NONE, count + k), s₁)
        else loop fuel E_PSI_GEN_NONE (count + k) (p.drop k) s₁)

/-- Whatever the device answers, the rounds send the bytes that are left in chunks. -/
theorem WriteRounds.written {answer : Device σ C} {len : ℕ}
    {loop : ℕ → Errs → ℕ → List UInt8 → Client σ C (Option (Errs × ℕ))}
    (h : WriteRounds answer layout handle len loop) {fuel : ℕ} {out : Errs × ℕ} (hne : p ≠ [])
    (hlen : base + p.length = len) (hout : (loop fuel res base p s).1 = some out) :
    Written layout handle p s (loop fuel res base p s).2 out.1 base out.2 := by
  induction fuel generalizing res base p s with
  | zero => simp [h.zero res base p s hne hlen] at hout
  | succ fuel ih =>
    obtain ⟨k, hpos, hle, hround⟩ := h.round fuel res base p s hne hlen
    obtain ⟨r, s₁, hsend, hlog⟩ : ∃ r s₁, sendCommand answer
        (layout.fwrite handle (p.take k)).command (layout.fwrite handle (p.take k)).data s = (r, s₁) ∧
      s₁.log = s.log ++ [(layout.fwrite handle (p.take k), r)] := ⟨_, _, rfl, rfl⟩
    obtain ⟨hrefused, hacked⟩ := hround r s₁ hsend
    cases hr : acknowledged r with
    | false =>
      obtain ⟨res', hres', heq⟩ := hrefused hr
      rw [heq] at hout ⊢
      obtain rfl := Option.some.inj hout
      exact written_of_refused hlog hr hres'
    | true =>
      have hk : (p.take k).length = k := List.length_take_of_le hle
      rw [hacked hr] at hout ⊢
      split at hout
      · next hlast =>
        rw [if_pos hlast]
        obtain rfl := Option.some.inj hout
        apply Written.cons _ hlog hr
        rw [hlast, hk]
        exact written_nil _ _
      · next hmore =>
        rw [if_neg hmore]
        apply Written.cons _ hlog hr
        rw [hk]
        exact ih hmore (by rw [List.length_drop]; omega) hout

/-- Each round sends something, so there are at most as many rounds as bytes. -/
theorem WriteRounds.returns {answer : Device σ C} {len : ℕ}
    {loop : ℕ → Errs → ℕ → List UInt8 → Client σ C (Option (Errs × ℕ))}
    (h : WriteRounds answer layout handle len loop) {fuel : ℕ} (hne : p ≠ [])
    (hlen : base + p.length = len) (hfuel : p.length ≤ fuel) :
    (loop fuel res base p s).1.isSome := by
  induction fuel generalizing res base p s with
  | zero => exact absurd (List.length_eq_zero_iff.mp (Nat.le_zero.mp hfuel)) hne
  | succ fuel ih =>
    obtain ⟨k, hpos, hle, hround⟩ := h.round fuel res base p s hne hlen
    obtain ⟨hrefused, hacked⟩ := hround _ _ rfl
    cases hr : acknowledged (sendCommand answer (layout.fwrite handle (p.take k)).command
        (layout.fwrite handle (p.take k)).data s).1 with
    | false =>
      obtain ⟨res', -, heq⟩ := hrefused hr
      rw [heq]
      rfl
    | true =>
      rw [hacked hr]
      split
      · rfl
      · next hmore =>
        have hdrop : (p.drop k).length = p.length - k := List.length_drop
        exact ih hmore (by omega) (by omega)

/-- Whatever the device answers, a write in rounds sends its buffer in chunks. -/
theorem WriteRounds.writesOut {answer : Device σ C} {buf : List UInt8}
    {loop : ℕ → Errs → ℕ → List UInt8 → Client σ C (Option (Errs × ℕ))}
    (h : WriteRounds answer layout handle buf.length loop) (hne : buf ≠ []) (fuel : ℕ)
    (s : Session σ (Request C) (Option Response)) :
    WritesOut layout handle buf fuel (loop fuel E_PSI_GEN_NONE 0 buf) s := by
  constructor
  · exact fun hfuel => h.returns hne (Nat.zero_add _) (Nat.le_of_lt hfuel)
  · exact fun out hout => h.written hne (Nat.zero_add _) hout

/-- A write that sends nothing has sent an empty buffer. -/
theorem writesOut_nil {fwrite : Client σ C (Option (Errs × ℕ))} (fuel : ℕ)
    (h : fwrite s = (some (E_PSI_GEN_NONE, 0), s)) : WritesOut layout handle [] fuel fwrite s := by
  rw [WritesOut, h]
  refine ⟨fun _ => rfl, fun out hout => ?_⟩
  obtain rfl := Option.some.inj hout
  exact written_nil _ _

/-- A device that appends what it is sent has appended all of it in the end. -/
theorem WriteRounds.appends {answer : σ → Request C → Response × σ}
    {server : FileServer layout answer} {len : ℕ}
    {loop : ℕ → Errs → ℕ → List UInt8 → Client σ C (Option (Errs × ℕ))}
    (h : WriteRounds (up answer) layout server.writeHandle len loop) {fuel : ℕ} (hne : p ≠ [])
    (hlen : base + p.length = len) (hfuel : p.length ≤ fuel) (hwriting : server.writing s.server) :
    ∃ s', loop fuel res base p s = (some (E_PSI_GEN_NONE, len), s') ∧
      server.writing s'.server ∧ server.content s'.server = server.content s.server ++ p := by
  induction fuel generalizing res base p s with
  | zero => exact absurd (List.length_eq_zero_iff.mp (Nat.le_zero.mp hfuel)) hne
  | succ fuel ih =>
    obtain ⟨k, hpos, hle, hround⟩ := h.round fuel res base p s hne hlen
    obtain ⟨s₁, hsend, hserver, -⟩ :=
      sendCommand_up answer (layout.fwrite server.writeHandle (p.take k)) s
    obtain ⟨hstatus, hwriting₁, hcontent₁⟩ := server.fwrite s.server (p.take k) hwriting
    rw [← hserver] at hwriting₁ hcontent₁
    have hacked := (hround _ s₁ hsend).2 (by simp [acknowledged, hstatus])
    rw [hacked]
    have hdrop : (p.drop k).length = p.length - k := List.length_drop
    split
    · next hlast =>
      have hk : k = p.length := by
        rw [hlast, List.length_nil] at hdrop
        omega
      rw [hk, List.take_length] at hcontent₁
      exact ⟨s₁, by rw [hk, hlen], hwriting₁, hcontent₁⟩
    · next hmore =>
      have hnext : base + k + (p.drop k).length = len := by omega
      obtain ⟨s₂, heq, hwriting₂, hcontent₂⟩ := ih hmore hnext (by omega) hwriting₁
      rw [hcontent₁, List.append_assoc, List.take_append_drop] at hcontent₂
      exact ⟨s₂, heq, hwriting₂, hcontent₂⟩

end Writes

section Calls

variable {layout : FileLayout C} {answer : σ → Request C → Response × σ}
  {server : FileServer layout answer}

/-- A write in rounds appends its buffer, and counts all of it. -/
theorem WriteRounds.appends_all {loop : ℕ → ℕ → Errs → ℕ → List UInt8 → Client σ C (Option (Errs × ℕ))}
    (h : ∀ len, len < 2 ^ 32 → WriteRounds (up answer) layout server.writeHandle len (loop len))
    {n fuel : ℕ} (hfuel : n < fuel) :
    Appends server n fun buf => loop buf.length fuel E_PSI_GEN_NONE 0 buf := by
  intro s buf hwriting hn hlen
  have hrounds := h buf.length (Nat.lt_of_le_of_lt hlen (by decide))
  by_cases hempty : buf = []
  · obtain ⟨m, rfl⟩ := Nat.exists_eq_add_of_lt hfuel
    rw [hempty] at hrounds ⊢
    exact ⟨s, hrounds.empty _ s, hwriting, (List.append_nil _).symm⟩
  · exact hrounds.appends hempty (Nat.zero_add _) (by omega) hwriting

/-- A read in rounds takes as much as there is. -/
theorem Rounds.takes {loop : ℕ → ℕ → List UInt8 → Client σ C (Option (Errs × ℕ × List UInt8))}
    (h : Rounds server RFSV_SENDLEN loop) {n fuel : ℕ} (hfuel : n < fuel) :
    Takes server n (loop fuel 0 []) := by
  intro s hreading hn
  have hpos : 0 < RFSV_SENDLEN := by decide
  have hspec := h.spec [] hpos (Nat.lt_of_le_of_lt hn hfuel) hreading
  rw [Nat.zero_add, List.nil_append, Nat.sub_zero] at hspec
  exact hspec

/-- A call that opens a file by one request: it returns the handle that it is granted, or the error. -/
structure Grants (layout : FileLayout C) (answer : σ → Request C → Response × σ) (q : Request C)
    (handle : ℕ) (fopen : Client σ C (Errs × ℕ)) : Prop where
  granted : ∀ s, (answer s.server q).1.status = E_PSI_GEN_NONE →
    (answer s.server q).1.data = layout.grant handle → ∃ s',
      fopen s = ((E_PSI_GEN_NONE, handle), s') ∧ s'.server = (answer s.server q).2
  refused : ∀ s, (answer s.server q).1.status ≠ E_PSI_GEN_NONE → ∃ res other s',
    fopen s = ((res, other), s') ∧ res ≠ E_PSI_GEN_NONE ∧ s'.server = (answer s.server q).2

/-- The file is created, or replaced, and empty. -/
theorem Grants.createOrReplace {create : Client σ C (Errs × ℕ)} {replace : ℕ → Client σ C (Errs × ℕ)}
    (hcreate : Grants layout answer layout.create server.writeHandle create)
    (hreplace : ∀ other, Grants layout answer layout.replace server.writeHandle (replace other))
    (s : Session σ (Request C) (Option Response)) :
    ∃ s', (do
        let (res, handle) ← create
        if res ≠ E_PSI_GEN_NONE then replace handle else return (res, handle) :
          Client σ C (Errs × ℕ)) s = ((E_PSI_GEN_NONE, server.writeHandle), s') ∧
      server.writing s'.server ∧ server.content s'.server = [] := by
  by_cases hstatus : (answer s.server layout.create).1.status = E_PSI_GEN_NONE
  · obtain ⟨hdata, hwriting, hcontent⟩ := server.create s.server hstatus
    obtain ⟨s₁, heq, hserver⟩ := hcreate.granted s hstatus hdata
    exact ⟨s₁, by simp [heq], hserver ▸ hwriting, hserver ▸ hcontent⟩
  · obtain ⟨res, other, s₁, heq, hres, hserver⟩ := hcreate.refused s hstatus
    obtain ⟨hreply, hwriting, hcontent⟩ := server.replace s₁.server
    obtain ⟨s₂, heq', hserver'⟩ := (hreplace other).granted s₁ (by rw [hreply]) (by rw [hreply])
    exact ⟨s₂, by simp [heq, hres, heq'], hserver' ▸ hwriting, hserver' ▸ hcontent⟩

/-- A file that was opened to be written holds what was copied to it when it has been closed. -/
theorem Appends.copyTo {fwrite : List UInt8 → Client σ C (Option (Errs × ℕ))} {ip : List UInt8}
    (hfwrite : Appends server ip.length fwrite) {fclose : Client σ C Errs}
    (hfclose : ∀ s, (fclose s).2.server = (answer s.server (layout.fclose server.writeHandle)).2)
    {cb : CpCallback} (hcb : NeverCancels cb) {fuel : ℕ} (hfuel : ip.length < fuel)
    {s : Session σ (Request C) (Option Response)} (hwriting : server.writing s.server)
    (hempty : server.content s.server = []) :
    ∃ s', copyToLoop fwrite cb fuel E_PSI_GEN_NONE false 0 0 ip s = (some E_PSI_GEN_NONE, s') ∧
      server.content (fclose s').2.server = ip := by
  obtain ⟨s₁, hloop, hwriting₁, hcontent⟩ :=
    copyToLoop_spec hfwrite hcb 0 0 hfuel (Nat.le_refl _) hwriting
  refine ⟨s₁, hloop, ?_⟩
  rw [hfclose, server.fclose s₁.server hwriting₁, hcontent, hempty, List.nil_append]

/-- A file that was opened to be read is copied. -/
theorem Grants.copyFrom {fopen : Client σ C (Errs × ℕ)}
    (hfopen : Grants layout answer layout.fopen server.readHandle fopen)
    {fread : Client σ C (Option (Errs × ℕ × List UInt8))}
    {s : Session σ (Request C) (Option Response)}
    (hfread : Takes server (server.content s.server).length fread) {cb : CpCallback}
    (hcb : NeverCancels cb) {fuel : ℕ} (hfuel : (server.content s.server).length < fuel) :
    ∃ s₁ s₂, fopen s = ((E_PSI_GEN_NONE, server.readHandle), s₁) ∧
      copyFromLoop fread cb fuel 0 0 [] s₁ =
        (some (E_PSI_GEN_NONE, server.content s.server), s₂) := by
  obtain ⟨hreply, hreading, hunread⟩ := server.fopen s.server
  obtain ⟨s₁, hopen, hserver⟩ := hfopen.granted s (by rw [hreply]) (by rw [hreply])
  rw [← hserver] at hreading hunread
  obtain ⟨s₂, hloop⟩ := copyFromLoop_spec hfread hcb 0 0 [] (hunread ▸ hfuel)
    (Nat.le_of_eq (congrArg List.length hunread)) hreading
  rw [List.nil_append, hunread] at hloop
  exact ⟨s₁, s₂, hopen, hloop⟩

end Calls

end RFSV

namespace RFSV16

open RFSV

/-- The requests of the copy functions for a file of a SIBO device. -/
def fileLayout (name : List UInt8) : FileLayout Commands where
  create := ⟨.SIBO_FOPEN, openData (P_FSTREAM ||| P_FUPDATE ||| P_FCREATE) name⟩
  replace := ⟨.SIBO_FOPEN, openData (P_FSTREAM ||| P_FUPDATE ||| P_FREPLACE) name⟩
  fopen := ⟨.SIBO_FOPEN, openData (P_FSHARE ||| P_FSTREAM) name⟩
  fclose h := ⟨.SIBO_FCLOSE, wordBytes h⟩
  fwrite h bytes := ⟨.SIBO_FWRITE, wordBytes h ++ bytes⟩
  fread h k := ⟨.SIBO_FREAD, wordBytes h ++ wordBytes k⟩
  grant h := wordBytes h
  maxHandle := 2 ^ 16
  ended r := r.status = E_PSI_FILE_EOF

variable {σ : Type} {answer : σ → Request Commands → Response × σ} {name : List UInt8}
  (server : FileServer (fileLayout name) answer)

/-- What a round of a read takes. -/
theorem freadLoop_rounds {len : ℕ} (hlen : len < 2 ^ 32) :
    Rounds server len (freadLoop (up answer) server.readHandle len) := by
  intro fuel count buf s hreading hcount
  set k := if len - count > RFSV16_MAXDATALEN then RFSV16_MAXDATALEN else len - count with hk
  have hkpos : 0 < k ∧ k ≤ len - count ∧ k ≤ RFSV_SENDLEN := by
    rw [hk, RFSV16_MAXDATALEN, RFSV_SENDLEN]
    split <;> omega
  obtain ⟨s₁, hread, hserver, -⟩ := sendCommand_up answer ((fileLayout name).fread server.readHandle k) s
  have hsend : sendCommand (up answer) .SIBO_FREAD (wordBytes server.readHandle ++ wordBytes k) s = _ :=
    hread
  refine ⟨k, s₁, hkpos.1, hkpos.2.1, ?_⟩
  rw [freadLoop, ← hk, Dialogue.bind_apply, hsend, hserver]
  by_cases hempty : server.unread s.server = []
  · obtain ⟨hended, hreading₁, hunread₁⟩ := server.fread_end s.server k hreading hkpos.2.2 hempty
    have hstatus : (answer s.server ((fileLayout name).fread server.readHandle k)).1.status =
      E_PSI_FILE_EOF := hended
    have heof : E_PSI_FILE_EOF ≠ E_PSI_GEN_NONE := by decide
    refine ⟨hreading₁, by rw [hunread₁, hempty, List.drop_nil], ?_⟩
    simp [hstatus, hempty, heof]
  · obtain ⟨hreply, hreading₁, hunread₁⟩ := server.fread s.server k hreading hkpos.2.2 hempty
    have hle := List.length_take_le k (server.unread s.server)
    have hcalc : uint32 (count + ((server.unread s.server).take k).length) =
        count + ((server.unread s.server).take k).length := by
      unfold uint32
      omega
    refine ⟨hreading₁, hunread₁, ?_⟩
    simp only [hreply, ne_eq, not_true_eq_false, if_false, hcalc, gt_iff_lt]
    split <;> rfl

/-- A write ends when all is written. -/
theorem fwriteLoop_done (answer : Device σ Commands) (handle len fuel : ℕ) (res : Errs) {count : ℕ}
    (p : List UInt8) (h : ¬ count < len) :
    fwriteLoop answer handle len fuel res count p = return some (res, count) := by
  cases fuel <;> rw [fwriteLoop, if_neg h]

/-- The rounds of a write, for any device. -/
theorem fwriteLoop_rounds (answer : Device σ Commands) (name : List UInt8) (handle : ℕ) {len : ℕ}
    (hlen : len < 2 ^ 32) :
    WriteRounds answer (fileLayout name) handle len (fwriteLoop answer handle len) where
  zero res count p s hne hp := by
    have hpos : 0 < p.length := List.length_pos_iff.mpr hne
    rw [fwriteLoop, if_pos (by omega)]
    rfl
  empty fuel s := by
    rw [fwriteLoop_done answer handle len _ _ [] (Nat.lt_irrefl len)]
    rfl
  round fuel res count p s hne hp := by
    have hpos : 0 < p.length := List.length_pos_iff.mpr hne
    set k := if len - count > RFSV16_MAXDATALEN then RFSV16_MAXDATALEN else len - count with hk
    have hkpos : 0 < k ∧ k ≤ p.length := by
      rw [hk, RFSV16_MAXDATALEN]
      split <;> omega
    refine ⟨k, hkpos.1, hkpos.2, fun r s₁ hsend => ?_⟩
    have hwrite : sendCommand answer .SIBO_FWRITE (wordBytes handle ++ p.take k) s = (r, s₁) := hsend
    rw [fwriteLoop, if_pos (by omega), ← hk, Dialogue.bind_apply, hwrite]
    constructor
    · intro hr
      cases r with
      | none => exact ⟨E_PSI_FILE_DISC, by decide, rfl⟩
      | some a =>
        have hstatus : a.status ≠ E_PSI_GEN_NONE := by simpa [acknowledged] using hr
        exact ⟨a.status, hstatus, by simp [hstatus]⟩
    · intro hr
      obtain ⟨a, rfl, hstatus⟩ : ∃ a, r = some a ∧ a.status = E_PSI_GEN_NONE := by
        simpa [acknowledged, Option.any_eq_true] using hr
      have hcalc : uint32 (count + k) = count + k := by
        unfold uint32
        omega
      simp only [hstatus, ne_eq, not_true_eq_false, if_false, hcalc]
      split
      · next hlast =>
        have hdrop : (p.drop k).length = p.length - k := List.length_drop
        rw [hlast, List.length_nil] at hdrop
        rw [fwriteLoop_done answer handle len _ _ _ (by omega)]
        rfl
      · rfl

/-- Whatever the device answers, a write sends its buffer in chunks. -/
theorem fwrite_writesOut (answer : Device σ Commands) (name : List UInt8) (fuel handle : ℕ)
    {buf : List UInt8} (hlen : buf.length < 2 ^ 32)
    (s : Session σ (Request Commands) (Option Response)) :
    WritesOut (fileLayout name) handle buf fuel (fwrite answer fuel handle buf) s := by
  have hrounds := fwriteLoop_rounds answer name handle hlen
  by_cases hempty : buf = []
  · have heq : fwrite answer fuel handle [] s = (some (E_PSI_GEN_NONE, 0), s) := by
      cases fuel <;> rfl
    rw [hempty]
    exact writesOut_nil fuel heq
  · exact hrounds.writesOut hempty fuel s

/-- A write appends its buffer, and counts all of it. -/
theorem fwrite_appends {n fuel : ℕ} (hfuel : n < fuel) :
    Appends server n (fwrite (up answer) fuel server.writeHandle) :=
  WriteRounds.appends_all (fun _ hlen => fwriteLoop_rounds (up answer) name server.writeHandle hlen) hfuel

/-- A read takes as much as there is. -/
theorem fread_takes {n fuel : ℕ} (hfuel : n < fuel) :
    Takes server n (fread (up answer) fuel server.readHandle RFSV_SENDLEN) :=
  Rounds.takes (freadLoop_rounds server (by decide)) hfuel

/-- Opening returns the handle that is granted. -/
theorem fopen_grants {attr h : ℕ} (hlt : h < 2 ^ 16) (uninit : ℕ) :
    Grants (fileLayout name) answer ⟨.SIBO_FOPEN, openData attr name⟩ h
      (fopen (up answer) attr name uninit) where
  granted s hstatus hdata := by
    have hhandle : getWord (answer s.server ⟨.SIBO_FOPEN, openData attr name⟩).1.data 0 = h := by
      rw [hdata]
      exact getWord_wordBytes hlt
    rw [fopen_up rfl, if_pos hstatus, hhandle]
    exact ⟨_, rfl, rfl⟩
  refused s hstatus := by
    rw [fopen_up rfl, if_neg hstatus]
    exact ⟨_, _, _, rfl, hstatus, rfl⟩

/-- The file is created, or replaced, and empty. -/
theorem createOrReplace_spec (uninit : ℕ) (s : Session σ (Request Commands) (Option Response)) :
    ∃ s', createOrReplace (up answer) (P_FSTREAM ||| P_FUPDATE) name uninit s =
        ((E_PSI_GEN_NONE, server.writeHandle), s') ∧
      server.writing s'.server ∧ server.content s'.server = [] :=
  (fopen_grants server.writeHandle_lt uninit).createOrReplace
    (fun other => fopen_grants server.writeHandle_lt other) s

/-- A local file is written to the device. -/
theorem copyToPsion_spec {fuel : ℕ} {ip : List UInt8} (hfuel : ip.length < fuel) {cb : CpCallback}
    (hcb : NeverCancels cb) (uninit : ℕ) (s : Session σ (Request Commands) (Option Response)) :
    ∃ s', copyToPsion (up answer) fuel (some ip) name cb uninit s = (some E_PSI_GEN_NONE, s') ∧
      server.content s'.server = ip := by
  obtain ⟨s₁, hopen, hwriting, hempty⟩ := createOrReplace_spec server uninit s
  have hclose : ∀ s, (fclose (up answer) server.writeHandle s).2.server =
      (answer s.server ((fileLayout name).fclose server.writeHandle)).2 :=
    fun s => by rw [fclose_up rfl]; rfl
  obtain ⟨s₂, hloop, hcontent⟩ := (fwrite_appends server hfuel).copyTo hclose hcb hfuel hwriting hempty
  refine ⟨(fclose (up answer) server.writeHandle s₂).2, ?_, hcontent⟩
  simp [copyToPsion, hopen, hloop]

/-- The file of the device is put into a local file. -/
theorem copyFromPsion_spec {fuel : ℕ} {cb : CpCallback} (hcb : NeverCancels cb) (uninit : ℕ)
    (s : Session σ (Request Commands) (Option Response))
    (hfuel : (server.content s.server).length < fuel) :
    (∃ s', copyFromPsion (up answer) fuel name true cb uninit s =
        (some (E_PSI_GEN_NONE, server.content s.server), s')) ∧
      ∃ s', copyFromPsionFd (up answer) fuel name cb uninit s =
        (some (E_PSI_GEN_NONE, server.content s.server), s') := by
  obtain ⟨s₁, s₂, hopen, hloop⟩ := (fopen_grants server.readHandle_lt uninit).copyFrom
    (fread_takes server hfuel) hcb hfuel
  have hnone : unlessEof E_PSI_GEN_NONE = E_PSI_GEN_NONE := by decide
  constructor <;> refine ⟨(fclose (up answer) server.readHandle s₂).2, ?_⟩
  · simp [copyFromPsion, hopen, hloop, hnone]
  · simp [copyFromPsionFd, hopen, hloop, hnone]

end RFSV16

namespace RFSV32

open RFSV

/-- The requests of the copy functions for a file of an EPOC device. -/
def fileLayout (name : List UInt8) : FileLayout Commands where
  create := ⟨.CREATE_FILE, openData targetMode name⟩
  replace := ⟨.REPLACE_FILE, openData targetMode name⟩
  fopen := ⟨.OPEN_FILE, openData (EPOC_OMODE_SHARE_READERS ||| EPOC_OMODE_BINARY) name⟩
  fclose h := ⟨.CLOSE_HANDLE, dwordBytes h⟩
  fwrite h bytes := ⟨.WRITE_FILE, dwordBytes h ++ bytes⟩
  fread h k := ⟨.READ_FILE, dwordBytes h ++ dwordBytes k⟩
  grant h := dwordBytes h
  maxHandle := 2 ^ 32
  ended r := r = ⟨E_PSI_GEN_NONE, []⟩

variable {σ : Type} {answer : σ → Request Commands → Response × σ} {name : List UInt8}
  (server : FileServer (fileLayout name) answer)

/-- What a round of a read takes. -/
theorem freadLoop_rounds {len : ℕ} (hlen : len < 2 ^ 32) :
    Rounds server len (freadLoop (up answer) server.readHandle len) := by
  intro fuel count buf s hreading hcount
  set k := if len - count > RFSV_SENDLEN then RFSV_SENDLEN else len - count with hk
  have hkpos : 0 < k ∧ k ≤ len - count ∧ k ≤ RFSV_SENDLEN := by
    rw [hk, RFSV_SENDLEN]
    split <;> omega
  obtain ⟨s₁, hread, hserver, -⟩ := sendCommand_up answer ((fileLayout name).fread server.readHandle k) s
  have hsend : sendCommand (up answer) .READ_FILE (dwordBytes server.readHandle ++ dwordBytes k) s = _ :=
    hread
  -- at the end of the file the answer is what there is, too
  obtain ⟨hreply, hreading₁, hunread₁⟩ :
      (answer s.server ((fileLayout name).fread server.readHandle k)).1 =
          ⟨E_PSI_GEN_NONE, (server.unread s.server).take k⟩ ∧
        server.reading (answer s.server ((fileLayout name).fread server.readHandle k)).2 ∧
        server.unread (answer s.server ((fileLayout name).fread server.readHandle k)).2 =
          (server.unread s.server).drop k := by
    by_cases hempty : server.unread s.server = []
    · rw [hempty, List.take_nil, List.drop_nil]
      exact server.fread_end s.server k hreading hkpos.2.2 hempty
    · exact server.fread s.server k hreading hkpos.2.2 hempty
  have hle := List.length_take_le k (server.unread s.server)
  have hcalc : uint32 (count + ((server.unread s.server).take k).length) =
      count + ((server.unread s.server).take k).length := by
    unfold uint32
    omega
  refine ⟨k, s₁, hkpos.1, hkpos.2.1, hserver ▸ hreading₁, hserver ▸ hunread₁, ?_⟩
  rw [freadLoop, ← hk, Dialogue.bind_apply, hsend]
  simp only [hreply, ne_eq, not_true_eq_false, if_false, hcalc, gt_iff_lt]
  split <;> rfl

/-- The rounds of a write, for any device. -/
theorem fwriteLoop_rounds (answer : Device σ Commands) (name : List UInt8) (handle : ℕ) {len : ℕ}
    (hlen : len < 2 ^ 32) :
    WriteRounds answer (fileLayout name) handle len (fwriteLoop answer handle len) where
  zero res count p s hne hp := rfl
  empty fuel s := by
    have hnone : ¬ (if len - len > RFSV_SENDLEN then RFSV_SENDLEN else len - len) > 0 := by
      rw [Nat.sub_self, if_neg (by decide)]
      exact Nat.lt_irrefl 0
    rw [fwriteLoop, if_neg hnone]
    rfl
  round fuel res count p s hne hp := by
    have hpos : 0 < p.length := List.length_pos_iff.mpr hne
    set k := if len - count > RFSV_SENDLEN then RFSV_SENDLEN else len - count with hk
    have hkpos : 0 < k ∧ k ≤ p.length := by
      rw [hk, RFSV_SENDLEN]
      split <;> omega
    refine ⟨k, hkpos.1, hkpos.2, fun r s₁ hsend => ?_⟩
    have hwrite : sendCommand answer .WRITE_FILE (dwordBytes handle ++ p.take k) s = (r, s₁) := hsend
    rw [fwriteLoop, ← hk, if_pos hkpos.1, Dialogue.bind_apply, hwrite]
    constructor
    · intro hr
      cases r with
      | none => exact ⟨E_PSI_FILE_DISC, by decide, rfl⟩
      | some a =>
        have hstatus : a.status ≠ E_PSI_GEN_NONE := by simpa [acknowledged] using hr
        exact ⟨a.status, hstatus, by simp [hstatus]⟩
    · intro hr
      obtain ⟨a, rfl, hstatus⟩ : ∃ a, r = some a ∧ a.status = E_PSI_GEN_NONE := by
        simpa [acknowledged, Option.any_eq_true] using hr
      have hcalc : uint32 (count + k) = count + k := by
        unfold uint32
        omega
      have hmore : count + k < len ↔ p.drop k ≠ [] := by
        rw [ne_eq, List.drop_eq_nil_iff]
        omega
      simp only [hstatus, ne_eq, not_true_eq_false, if_false, hcalc, hmore, ite_not]
      split <;> rfl

/-- Whatever the device answers, a write sends its buffer in chunks. -/
theorem fwrite_writesOut (answer : Device σ Commands) (name : List UInt8) (fuel handle : ℕ)
    {buf : List UInt8} (hlen : buf.length < 2 ^ 32)
    (s : Session σ (Request Commands) (Option Response)) :
    WritesOut (fileLayout name) handle buf fuel (fwrite answer fuel handle buf) s := by
  have hrounds := fwriteLoop_rounds answer name handle hlen
  by_cases hempty : buf = []
  · rw [hempty] at hrounds ⊢
    cases fuel with
    | zero => exact ⟨fun h => absurd h (Nat.lt_irrefl 0), fun out hout => nomatch hout⟩
    | succ fuel =>
      have heq : fwrite answer (fuel + 1) handle [] s = (some (E_PSI_GEN_NONE, 0), s) :=
        hrounds.empty fuel s
      exact writesOut_nil _ heq
  · exact hrounds.writesOut hempty fuel s

/-- A write appends its buffer, and counts all of it. -/
theorem fwrite_appends {n fuel : ℕ} (hfuel : n < fuel) :
    Appends server n (fwrite (up answer) fuel server.writeHandle) :=
  WriteRounds.appends_all (fun _ hlen => fwriteLoop_rounds (up answer) name server.writeHandle hlen) hfuel

/-- A read takes as much as there is. -/
theorem fread_takes {n fuel : ℕ} (hfuel : n < fuel) :
    Takes server n (fread (up answer) fuel server.readHandle RFSV_SENDLEN) :=
  Rounds.takes (freadLoop_rounds server (by decide)) hfuel

/-- Opening returns the handle that is granted. -/
theorem openWith_grants {cc : Commands} {attr h : ℕ} (hlt : h < 2 ^ 32) (uninit : ℕ) :
    Grants (fileLayout name) answer ⟨cc, openData attr name⟩ h
      (openWith (up answer) cc attr name uninit) where
  granted s hstatus hdata := by
    have hlength : (answer s.server ⟨cc, openData attr name⟩).1.data.length = 4 :=
      hdata ▸ length_dwordBytes _
    have hhandle : getDWord (answer s.server ⟨cc, openData attr name⟩).1.data 0 = h := by
      rw [hdata]
      exact getDWord_natCast hlt
    rw [openWith_up rfl, if_pos ⟨hstatus, hlength⟩, hstatus, hhandle]
    exact ⟨_, rfl, rfl⟩
  refused s hstatus := by
    rw [openWith_up rfl]
    exact ⟨_, _, _, rfl, hstatus, rfl⟩

/-- The file is created, or replaced, and empty. -/
theorem createOrReplace_spec (uninit : ℕ) (s : Session σ (Request Commands) (Option Response)) :
    ∃ s', createOrReplace (up answer) targetMode name uninit s =
        ((E_PSI_GEN_NONE, server.writeHandle), s') ∧
      server.writing s'.server ∧ server.content s'.server = [] :=
  (openWith_grants server.writeHandle_lt uninit).createOrReplace
    (fun other => openWith_grants server.writeHandle_lt other) s

/-- A local file is written to the device. -/
theorem copyToPsion_spec {fuel : ℕ} {ip : List UInt8} (hfuel : ip.length < fuel) {cb : CpCallback}
    (hcb : NeverCancels cb) (uninit : ℕ) (s : Session σ (Request Commands) (Option Response)) :
    ∃ s', copyToPsion (up answer) fuel (some ip) name cb uninit s = (some E_PSI_GEN_NONE, s') ∧
      server.content s'.server = ip := by
  obtain ⟨s₁, hopen, hwriting, hempty⟩ := createOrReplace_spec server uninit s
  have hclose : ∀ s, (fclose (up answer) server.writeHandle s).2.server =
      (answer s.server ((fileLayout name).fclose server.writeHandle)).2 :=
    fun s => by rw [fclose_up rfl]; rfl
  obtain ⟨s₂, hloop, hcontent⟩ := (fwrite_appends server hfuel).copyTo hclose hcb hfuel hwriting hempty
  refine ⟨(fclose (up answer) server.writeHandle s₂).2, ?_, hcontent⟩
  simp [copyToPsion, hopen, hloop]

/-- The file of the device is put into a local file. -/
theorem copyFromPsion_spec {fuel : ℕ} {cb : CpCallback} (hcb : NeverCancels cb) (uninit : ℕ)
    (s : Session σ (Request Commands) (Option Response))
    (hfuel : (server.content s.server).length < fuel) :
    (∃ s', copyFromPsion (up answer) fuel name true cb uninit s =
        (some (E_PSI_GEN_NONE, server.content s.server), s')) ∧
      ∃ s', copyFromPsionFd (up answer) fuel name cb uninit s =
        (some (E_PSI_GEN_NONE, server.content s.server), s') := by
  obtain ⟨s₁, s₂, hopen, hloop⟩ := (openWith_grants server.readHandle_lt uninit).copyFrom
    (fread_takes server hfuel) hcb hfuel
  constructor <;> refine ⟨(fclose (up answer) server.readHandle s₂).2, ?_⟩
  · simp [copyFromPsion, fopen, hopen, hloop]
  · simp [copyFromPsionFd, fopen, hopen, hloop]

end RFSV32

namespace RFSV

variable {σ C : Type}

/-- Copying a local file to the device, and back with each of two functions, succeeds and gives the
same content. -/
def RoundTrips (content : List UInt8) (copyTo : Client σ C (Option Errs))
    (copyFrom copyFromFd : Client σ C (Option (Errs × List UInt8)))
    (s : Session σ (Request C) (Option Response)) : Prop :=
  (copyTo s).1 = some E_PSI_GEN_NONE ∧
    (copyFrom (copyTo s).2).1 = some (E_PSI_GEN_NONE, content) ∧
    (copyFromFd (copyTo s).2).1 = some (E_PSI_GEN_NONE, content)

/-- Files are transferred faithfully, and writes send their buffers, on the two kinds of devices. -/
theorem transfers_faithful :
    (∀ (σ : Type) (answer : σ → Request RFSV16.Commands → Response × σ) (name : List UInt8)
      (_server : FileServer (RFSV16.fileLayout name) answer) (content : List UInt8) (fuel : ℕ)
      (cb cb' : CpCallback) (uninit uninit' : ℕ)
      (s : Session σ (Request RFSV16.Commands) (Option Response)),
      NeverCancels cb → NeverCancels cb' → content.length < fuel →
        RoundTrips content (RFSV16.copyToPsion (up answer) fuel (some content) name cb uninit)
          (RFSV16.copyFromPsion (up answer) fuel name true cb' uninit')
          (RFSV16.copyFromPsionFd (up answer) fuel name cb' uninit') s) ∧
    (∀ (σ : Type) (answer : σ → Request RFSV32.Commands → Response × σ) (name : List UInt8)
      (_server : FileServer (RFSV32.fileLayout name) answer) (content : List UInt8) (fuel : ℕ)
      (cb cb' : CpCallback) (uninit uninit' : ℕ)
      (s : Session σ (Request RFSV32.Commands) (Option Response)),
      NeverCancels cb → NeverCancels cb' → content.length < fuel →
        RoundTrips content (RFSV32.copyToPsion (up answer) fuel (some content) name cb uninit)
          (RFSV32.copyFromPsion (up answer) fuel name true cb' uninit')
          (RFSV32.copyFromPsionFd (up answer) fuel name cb' uninit') s) ∧
    (∀ (σ : Type) (answer : Device σ RFSV16.Commands) (name : List UInt8) (fuel handle : ℕ)
      (buf : List UInt8) (s : Session σ (Request RFSV16.Commands) (Option Response)),
      buf.length < 2 ^ 32 →
        WritesOut (RFSV16.fileLayout name) handle buf fuel (RFSV16.fwrite answer fuel handle buf) s) ∧
    (∀ (σ : Type) (answer : Device σ RFSV32.Commands) (name : List UInt8) (fuel handle : ℕ)
      (buf : List UInt8) (s : Session σ (Request RFSV32.Commands) (Option Response)),
      buf.length < 2 ^ 32 →
        WritesOut (RFSV32.fileLayout name) handle buf fuel (RFSV32.fwrite answer fuel handle buf) s) := by
  refine ⟨?_, ?_, ?_, ?_⟩
  · intro σ answer name server content fuel cb cb' uninit uninit' s hcb hcb' hfuel
    obtain ⟨s₁, hto, hcontent⟩ := RFSV16.copyToPsion_spec server hfuel hcb uninit s
    obtain ⟨⟨s₂, hfrom⟩, s₃, hfromFd⟩ :=
      RFSV16.copyFromPsion_spec server hcb' uninit' s₁ (hcontent.symm ▸ hfuel)
    rw [RoundTrips, hto, hfrom, hfromFd, hcontent]
    exact ⟨rfl, rfl, rfl⟩
  · intro σ answer name server content fuel cb cb' uninit uninit' s hcb hcb' hfuel
    obtain ⟨s₁, hto, hcontent⟩ := RFSV32.copyToPsion_spec server hfuel hcb uninit s
    obtain ⟨⟨s₂, hfrom⟩, s₃, hfromFd⟩ :=
      RFSV32.copyFromPsion_spec server hcb' uninit' s₁ (hcontent.symm ▸ hfuel)
    rw [RoundTrips, hto, hfrom, hfromFd, hcontent]
    exact ⟨rfl, rfl, rfl⟩
  · intro σ answer name fuel handle buf s hlen
    exact RFSV16.fwrite_writesOut answer name fuel handle hlen s
  · intro σ answer name fuel handle buf s hlen
    exact RFSV32.fwrite_writesOut answer name fuel handle hlen s

variable [DecidableEq C]

/-- A device with one file: what it holds, and what is left to read. It reads its requests by the
given functions. -/
def FileLayout.answer (layout : FileLayout C) (handle : ℕ) (payload : List UInt8 → List UInt8)
    (asked : List UInt8 → ℕ) (atEnd : Response) (d : List UInt8 × List UInt8) (q : Request C) :
    Response × (List UInt8 × List UInt8) :=
  if q = layout.create ∨ q = layout.replace then (⟨E_PSI_GEN_NONE, layout.grant handle⟩, ([], []))
  else if q = layout.fopen then (⟨E_PSI_GEN_NONE, layout.grant handle⟩, (d.1, d.1))
  else if q.command = (layout.fwrite handle []).command then
    (⟨E_PSI_GEN_NONE, []⟩, (d.1 ++ payload q.data, d.2))
  else if q.command = (layout.fread handle 0).command then
    if d.2 = [] then (atEnd, d)
    else (⟨E_PSI_GEN_NONE, d.2.take (asked q.data)⟩, (d.1, d.2.drop (asked q.data)))
  else (⟨E_PSI_GEN_NONE, []⟩, d)

/-- A SIBO device with the file `A`. -/
def fileAnswer16 : List UInt8 × List UInt8 → Request RFSV16.Commands →
    Response × (List UInt8 × List UInt8) :=
  (RFSV16.fileLayout [0x41]).answer 5 (List.drop 2) (getWord · 2) ⟨E_PSI_FILE_EOF, []⟩

/-- It takes what is written and hands out what is left. -/
def fileServer16 : FileServer (RFSV16.fileLayout [0x41]) fileAnswer16 where
  content := Prod.fst
  unread := Prod.snd
  writing _ := True
  reading _ := True
  writeHandle := 5
  readHandle := 5
  writeHandle_lt := by decide
  readHandle_lt := by decide
  create d _ := by simp [fileAnswer16, FileLayout.answer]
  replace d := by simp [fileAnswer16, FileLayout.answer]
  fwrite d bytes _ := by
    have hpayload : (wordBytes 5 ++ bytes).drop 2 = bytes := rfl
    simp [fileAnswer16, FileLayout.answer, RFSV16.fileLayout, hpayload]
  fclose d _ := by simp [fileAnswer16, FileLayout.answer, RFSV16.fileLayout]
  fopen d := by
    have hcreate : (RFSV16.fileLayout [0x41]).fopen ≠ (RFSV16.fileLayout [0x41]).create := by decide
    have hreplace : (RFSV16.fileLayout [0x41]).fopen ≠ (RFSV16.fileLayout [0x41]).replace := by decide
    simp [fileAnswer16, FileLayout.answer, hcreate, hreplace]
  fread d k _ hk hne := by
    have hasked : getWord (wordBytes 5 ++ wordBytes k) 2 = k :=
      getWord_wordBytes (Nat.lt_of_le_of_lt hk (by decide))
    simp [fileAnswer16, FileLayout.answer, RFSV16.fileLayout, hne, hasked]
  fread_end d k _ hk hempty := by
    simp [fileAnswer16, FileLayout.answer, RFSV16.fileLayout, hempty]

/-- A EPOC device with the file `A`. -/
def fileAnswer32 : List UInt8 × List UInt8 → Request RFSV32.Commands →
    Response × (List UInt8 × List UInt8) :=
  (RFSV32.fileLayout [0x41]).answer 5 (List.drop 4) (getDWord · 4) ⟨E_PSI_GEN_NONE, []⟩

def fileServer32 : FileServer (RFSV32.fileLayout [0x41]) fileAnswer32 where
  content := Prod.fst
  unread := Prod.snd
  writing _ := True
  reading _ := True
  writeHandle := 5
  readHandle := 5
  writeHandle_lt := by decide
  readHandle_lt := by decide
  create d _ := by simp [fileAnswer32, FileLayout.answer]
  replace d := by simp [fileAnswer32, FileLayout.answer]
  fwrite d bytes _ := by
    have hpayload : (dwordBytes 5 ++ bytes).drop 4 = bytes := rfl
    simp [fileAnswer32, FileLayout.answer, RFSV32.fileLayout, hpayload]
  fclose d _ := by simp [fileAnswer32, FileLayout.answer, RFSV32.fileLayout]
  fopen d := by
    have hcreate : (RFSV32.fileLayout [0x41]).fopen ≠ (RFSV32.fileLayout [0x41]).create := by decide
    have hreplace : (RFSV32.fileLayout [0x41]).fopen ≠ (RFSV32.fileLayout [0x41]).replace := by decide
    simp [fileAnswer32, FileLayout.answer, hcreate, hreplace]
  fread d k _ hk hne := by
    have hasked : getDWord (dwordBytes 5 ++ dwordBytes k) 4 = k :=
      getDWord_natCast (Nat.lt_of_le_of_lt hk (by decide))
    simp [fileAnswer32, FileLayout.answer, RFSV32.fileLayout, hne, hasked]
  fread_end d k _ hk hempty := by
    simp [fileAnswer32, FileLayout.answer, RFSV32.fileLayout, hempty]

/-- Three bytes are transferred on both devices, and two are sent in one chunk. -/
theorem transfers_three_bytes :
    RoundTrips [1, 2, 3] (RFSV16.copyToPsion (up fileAnswer16) 4 (some [1, 2, 3]) [0x41] none 0)
        (RFSV16.copyFromPsion (up fileAnswer16) 4 [0x41] true none 0)
        (RFSV16.copyFromPsionFd (up fileAnswer16) 4 [0x41] none 0) ⟨([], []), []⟩ ∧
      RoundTrips [1, 2, 3] (RFSV32.copyToPsion (up fileAnswer32) 4 (some [1, 2, 3]) [0x41] none 0)
        (RFSV32.copyFromPsion (up fileAnswer32) 4 [0x41] true none 0)
        (RFSV32.copyFromPsionFd (up fileAnswer32) 4 [0x41] none 0) ⟨([], []), []⟩ ∧
      WritesOut (RFSV16.fileLayout [0x41]) 5 [1, 2] 3 (RFSV16.fwrite (up fileAnswer16) 3 5 [1, 2])
        ⟨([], []), []⟩ ∧
      WritesOut (RFSV32.fileLayout [0x41]) 5 [1, 2] 3 (RFSV32.fwrite (up fileAnswer32) 3 5 [1, 2])
        ⟨([], []), []⟩ :=
  ⟨transfers_faithful.1 _ _ _ fileServer16 _ _ none none 0 0 _ trivial trivial (by decide),
    transfers_faithful.2.1 _ _ _ fileServer32 _ _ none none 0 0 _ trivial trivial (by decide),
    transfers_faithful.2.2.1 _ _ _ _ _ _ _ (by decide),
    transfers_faithful.2.2.2 _ _ _ _ _ _ _ (by decide)⟩

end RFSV

end Plptools
