import Plptools.Rfsv.RFSV16
import Plptools.Rfsv.RFSV32

/-!
# Seeking

A device moves to the position that a well-formed seek request asks for, clamped to the size of the
file, and refuses a request of another length. `fseek` goes beyond the end by setting the size. The
SIBO variant sends its second request in a buffer that still holds the answer to the first, and a
negative offset from the current position is added to zero in unsigned arithmetic by both.
-/

namespace Plptools

open Plptools.Library

open BufferStore (wordBytes dwordBytes)

namespace RFSV

/-- A file that the device holds open. -/
structure OpenFile where
  content : List UInt8
  position : ℕ
deriving DecidableEq, Repr

/-- The position that a seek asks for. -/
def OpenFile.target (f : OpenFile) (pos : ℤ) (mode : ℕ) : ℤ :=
  if mode = PSI_SEEK_SET then pos
  else if mode = PSI_SEEK_CUR then f.position + pos
  else f.content.length + pos

/-- The position clamped to the file. -/
def OpenFile.clamp (f : OpenFile) (t : ℤ) : ℕ := min f.content.length t.toNat

/-- The position that the device answers when it is asked for its own, or for that of the end. -/
def OpenFile.asked (f : OpenFile) (mode : ℕ) : ℕ :=
  if mode = PSI_SEEK_CUR then min f.content.length f.position else f.content.length

/-- The position that is asked for is inside the file. -/
theorem OpenFile.asked_le (f : OpenFile) (mode : ℕ) : f.asked mode ≤ f.content.length := by
  rw [OpenFile.asked]
  split <;> omega

/-- How a protocol lays out the two requests for an open file. -/
structure SeekLayout (C : Type) where
  seek : C
  seekData : ℤ → ℕ → List UInt8
  seekLength : ℕ
  setSize : C
  sizeData : ℕ → List UInt8

/-- An offset that is sent as a double word. -/
theorem int32_of_range {pos : ℤ} (hmin : -2 ^ 31 ≤ pos) (hmax : pos < 2 ^ 31) : int32 pos = pos := by
  unfold int32
  omega

/-- The modes that are accepted. -/
theorem mode_cases {mode : ℕ} (hlow : PSI_SEEK_SET ≤ mode) (hhigh : mode ≤ PSI_SEEK_END) :
    mode = PSI_SEEK_SET ∨ mode = PSI_SEEK_CUR ∨ mode = PSI_SEEK_END := by
  simp only [PSI_SEEK_SET, PSI_SEEK_CUR, PSI_SEEK_END] at *
  omega

variable {σ C : Type}

/-- A device that holds a file open, and how it answers the requests for it. -/
structure SeekServer (layout : SeekLayout C) (answer : σ → Request C → Response × σ) where
  file : σ → OpenFile
  seek_reply : ∀ d pos mode, PSI_SEEK_SET ≤ mode → mode ≤ PSI_SEEK_END →
    (answer d ⟨layout.seek, layout.seekData pos mode⟩).1 =
      ⟨E_PSI_GEN_NONE, dwordBytes ((file d).clamp ((file d).target (int32 pos) mode))⟩
  seek_file : ∀ d pos mode, PSI_SEEK_SET ≤ mode → mode ≤ PSI_SEEK_END →
    file (answer d ⟨layout.seek, layout.seekData pos mode⟩).2 =
      ⟨(file d).content, (file d).clamp ((file d).target (int32 pos) mode)⟩
  malformed : ∀ d data, data.length ≠ layout.seekLength →
    (answer d ⟨layout.seek, data⟩).1.status ≠ E_PSI_GEN_NONE
  size_reply : ∀ d size, size < 2 ^ 32 →
    (answer d ⟨layout.setSize, layout.sizeData size⟩).1 = ⟨E_PSI_GEN_NONE, []⟩
  size_length : ∀ d size, size < 2 ^ 32 →
    (file (answer d ⟨layout.setSize, layout.sizeData size⟩).2).content.length = size
  size_content : ∀ d size, size < 2 ^ 32 →
    (file d).content.take size <+: (file (answer d ⟨layout.setSize, layout.sizeData size⟩).2).content

/-- The call succeeds at position `t`, the file is at that position and just large enough, and what
was in it is still there. -/
structure SeeksTo {layout : SeekLayout C} {answer : σ → Request C → Response × σ}
    (server : SeekServer layout answer) (fseek : Client σ C (Errs × ℕ))
    (s : Session σ (Request C) (Option Response)) (t : ℤ) : Prop where
  res : (fseek s).1.1 = E_PSI_GEN_NONE
  resultpos : ((fseek s).1.2 : ℤ) = t
  position : ((server.file (fseek s).2.server).position : ℤ) = t
  size : ((server.file (fseek s).2.server).content.length : ℤ) =
    max ((server.file s.server).content.length : ℤ) t
  content : (server.file s.server).content <+: (server.file (fseek s).2.server).content

/-- A range of offsets, and of sizes and positions, within which a seek should work. -/
structure InRange (f : OpenFile) (pos : ℤ) (mode : ℕ) : Prop where
  mode_low : PSI_SEEK_SET ≤ mode
  mode_high : mode ≤ PSI_SEEK_END
  size : f.content.length < 2 ^ 31
  position : f.position < 2 ^ 31
  offset_low : -2 ^ 31 ≤ pos
  offset_high : pos < 2 ^ 31
  target_low : 0 ≤ f.target pos mode
  target_high : f.target pos mode < 2 ^ 31

section Requests

variable {layout : SeekLayout C} {answer : σ → Request C → Response × σ}
  (server : SeekServer layout answer)

/-- A well-formed seek request. -/
theorem SeekServer.seek_spec (s : Session σ (Request C) (Option Response)) (pos : ℤ) (mode : ℕ)
    (hlow : PSI_SEEK_SET ≤ mode) (hhigh : mode ≤ PSI_SEEK_END) :
    ∃ s', sendCommand (up answer) layout.seek (layout.seekData pos mode) s =
        (some ⟨E_PSI_GEN_NONE, dwordBytes ((server.file s.server).clamp
          ((server.file s.server).target (int32 pos) mode))⟩, s') ∧
      server.file s'.server = ⟨(server.file s.server).content,
        (server.file s.server).clamp ((server.file s.server).target (int32 pos) mode)⟩ := by
  refine ⟨_, Prod.ext ?_ rfl, server.seek_file s.server pos mode hlow hhigh⟩
  exact congrArg some (server.seek_reply s.server pos mode hlow hhigh)

/-- A seek request of another length. -/
theorem SeekServer.malformed_spec (server : SeekServer layout answer) (s : Session σ (Request C) (Option Response))
    {data : List UInt8} (h : data.length ≠ layout.seekLength) :
    ∃ a s', sendCommand (up answer) layout.seek data s = (some a, s') ∧
      a.status ≠ E_PSI_GEN_NONE :=
  ⟨_, _, rfl, server.malformed s.server data h⟩

/-- A request for a new size. -/
theorem SeekServer.size_spec (s : Session σ (Request C) (Option Response)) (size : ℕ)
    (h : size < 2 ^ 32) :
    ∃ s', sendCommand (up answer) layout.setSize (layout.sizeData size) s =
        (some ⟨E_PSI_GEN_NONE, []⟩, s') ∧
      (server.file s'.server).content.length = size ∧
      (server.file s.server).content.take size <+: (server.file s'.server).content := by
  refine ⟨_, Prod.ext ?_ rfl, server.size_length s.server size h, server.size_content s.server size h⟩
  exact congrArg some (server.size_reply s.server size h)

/-- The device is asked for its position, or moves to the end. -/
theorem SeekServer.ask_spec (s : Session σ (Request C) (Option Response)) {mode : ℕ}
    (hmode : mode = PSI_SEEK_CUR ∨ mode = PSI_SEEK_END) :
    ∃ s', sendCommand (up answer) layout.seek (layout.seekData 0 mode) s =
        (some ⟨E_PSI_GEN_NONE, dwordBytes ((server.file s.server).asked mode)⟩, s') ∧
      server.file s'.server =
        ⟨(server.file s.server).content, (server.file s.server).asked mode⟩ := by
  have hasked : (server.file s.server).clamp ((server.file s.server).target (int32 0) mode) =
      (server.file s.server).asked mode := by
    rw [int32_of_range (by decide) (by decide)]
    rcases hmode with rfl | rfl
    · have htarget : (server.file s.server).target 0 PSI_SEEK_CUR =
          (server.file s.server).position + 0 := rfl
      rw [htarget, OpenFile.clamp, OpenFile.asked, if_pos rfl]
      omega
    · have htarget : (server.file s.server).target 0 PSI_SEEK_END =
          (server.file s.server).content.length + 0 := rfl
      rw [htarget, OpenFile.clamp, OpenFile.asked, if_neg (by decide)]
      omega
  obtain ⟨s', hseek, hfile⟩ := server.seek_spec s 0 mode
    (by rcases hmode with rfl | rfl <;> decide) (by rcases hmode with rfl | rfl <;> decide)
  rw [hasked] at hseek hfile
  exact ⟨s', hseek, hfile⟩

/-- Setting the size and moving to the new end. -/
theorem SeekServer.extend_spec (s : Session σ (Request C) (Option Response)) {c : ℕ}
    (h : c < 2 ^ 32) :
    ∃ s₂ s₃, sendCommand (up answer) layout.setSize (layout.sizeData c) s =
        (some ⟨E_PSI_GEN_NONE, []⟩, s₂) ∧
      sendCommand (up answer) layout.seek (layout.seekData c PSI_SEEK_SET) s₂ =
        (some ⟨E_PSI_GEN_NONE, dwordBytes (min c (int32 c).toNat : ℕ)⟩, s₃) ∧
      (server.file s₃.server).position = min c (int32 c).toNat ∧
      (server.file s₃.server).content.length = c ∧
      (server.file s.server).content.take c <+: (server.file s₃.server).content := by
  obtain ⟨s₂, hsize, hlength, hcontent⟩ := server.size_spec s c h
  obtain ⟨s₃, hseek, hfile⟩ := server.seek_spec s₂ c PSI_SEEK_SET (by decide) (by decide)
  have hclamp : (server.file s₂.server).clamp ((server.file s₂.server).target (int32 c) PSI_SEEK_SET) =
      min c (int32 c).toNat := by
    rw [OpenFile.clamp, hlength, OpenFile.target, if_pos rfl]
  rw [hclamp] at hseek hfile
  exact ⟨s₂, s₃, hsize, hseek, by rw [hfile], by rw [hfile, hlength], by rw [hfile]; exact hcontent⟩

/-- Where the last part of `fseek` gets to when the device has moved to `r` and `c` was computed:
either it stays there, or the size is set to `c` and the device is sent to `c`. -/
structure SeekServer.Moved (s s' : Session σ (Request C) (Option Response)) (r c res : ℕ) :
    Prop where
  within : c ≤ r → res = r ∧ server.file s'.server = ⟨(server.file s.server).content, r⟩
  beyond : r < c → res = (server.file s'.server).position ∧
    (server.file s'.server).position = min c (int32 c).toNat ∧
    (server.file s'.server).content.length = c ∧
    (server.file s.server).content.take c <+: (server.file s'.server).content

variable {server} {s s' : Session σ (Request C) (Option Response)} {x : Client σ C (Errs × ℕ)}
  {r c res : ℕ}

/-- A program that stays at `r` unless `c` is larger, and else sets the size and seeks again. -/
theorem SeekServer.moved_of_eval {s₁ : Session σ (Request C) (Option Response)}
    (hfile : server.file s₁.server = ⟨(server.file s.server).content, r⟩) (hc : c < 2 ^ 32)
    (hwithin : c ≤ r → x s = ((E_PSI_GEN_NONE, r), s₁))
    (hbeyond : ∀ s₂ s₃ res, r < c → getDWord (dwordBytes (res : ℕ)) 0 = res →
      sendCommand (up answer) layout.setSize (layout.sizeData c) s₁ =
        (some ⟨E_PSI_GEN_NONE, []⟩, s₂) →
      sendCommand (up answer) layout.seek (layout.seekData c PSI_SEEK_SET) s₂ =
        (some ⟨E_PSI_GEN_NONE, dwordBytes res⟩, s₃) → x s = ((E_PSI_GEN_NONE, res), s₃)) :
    ∃ res s', x s = ((E_PSI_GEN_NONE, res), s') ∧ server.Moved s s' r c res := by
  by_cases hle : c ≤ r
  · exact ⟨r, s₁, hwithin hle, fun _ => ⟨rfl, hfile⟩, fun h => absurd hle (Nat.not_le_of_lt h)⟩
  · obtain ⟨s₂, s₃, hsize, hlast, hposition, hlength, hcontent⟩ := server.extend_spec s₁ hc
    have hread := getDWord_natCast (a := min c (int32 c).toNat) (by omega)
    rw [hfile] at hcontent
    refine ⟨_, s₃, hbeyond s₂ s₃ _ (Nat.lt_of_not_le hle) hread hsize hlast, ?_⟩
    exact ⟨fun h => absurd h hle, fun _ => ⟨hposition.symm, hposition, hlength, hcontent⟩⟩

/-- A call that leaves the device where it has moved to seeks that position. -/
theorem seeksTo_iff_of_stays (hx : x s = ((E_PSI_GEN_NONE, r), s'))
    (hfile : server.file s'.server = ⟨(server.file s.server).content, r⟩)
    (hr : r ≤ (server.file s.server).content.length) {t : ℤ} : SeeksTo server x s t ↔ (r : ℤ) = t := by
  constructor
  · intro hseeks
    rw [← hseeks.resultpos, hx]
  · rintro rfl
    constructor <;> simp only [hx, hfile, List.prefix_rfl]
    omega

/-- A target that the device moves to, or else reaches by setting the size, is sought. -/
theorem SeekServer.Moved.seeksTo (h : server.Moved s s' r c res)
    (hx : x s = ((E_PSI_GEN_NONE, res), s')) (hr : r = min (server.file s.server).content.length c)
    (hc : c < 2 ^ 31) : SeeksTo server x s c := by
  by_cases hle : c ≤ r
  · obtain ⟨hres, hfile⟩ := h.within hle
    have hrc : r = c := by omega
    constructor <;> simp only [hx, hres, hfile, hrc, List.prefix_rfl]
    omega
  · obtain ⟨hres, hposition, hlength, hcontent⟩ := h.beyond (by omega)
    have hint : (int32 c).toNat = c := by
      rw [int32_of_range (by omega) (by omega), Int.toNat_natCast]
    rw [hint, Nat.min_self] at hposition
    have hlen : (server.file s.server).content.length ≤ c := by omega
    rw [List.take_of_length_le hlen] at hcontent
    constructor <;> simp only [hx, hres, hposition, hlength, hcontent]
    omega

/-- An absolute target. -/
theorem seeksTo_of_set {pos : ℤ} (h : ∃ res s', x s = ((E_PSI_GEN_NONE, res), s') ∧
      server.Moved s s' ((server.file s.server).clamp ((server.file s.server).target (int32 pos) PSI_SEEK_SET))
        (uint32 pos) res) (h0 : 0 ≤ pos) (h31 : pos < 2 ^ 31) : SeeksTo server x s pos := by
  obtain ⟨res, s', hx, hmoved⟩ := h
  obtain ⟨c, rfl⟩ : ∃ c : ℕ, pos = c := ⟨pos.toNat, by omega⟩
  have hcalc : uint32 c = c := by
    unfold uint32
    omega
  rw [int32_of_range (by omega) h31, OpenFile.target, if_pos rfl, hcalc] at hmoved
  exact hmoved.seeksTo hx rfl (by omega)

/-- A negative offset from the current position, added to zero, gives a size from 2^31 on. -/
theorem not_seeksTo_of_back {pos : ℤ} (h : ∃ res s', x s = ((E_PSI_GEN_NONE, res), s') ∧
      server.Moved s s' ((server.file s.server).clamp ((server.file s.server).target (int32 pos) PSI_SEEK_CUR))
        (uint32 ((0 : ℕ) + pos)) res) (hn : (server.file s.server).content.length < 2 ^ 31)
    (hmin : -2 ^ 31 ≤ pos) (hneg : pos < 0) {t : ℤ} (ht : t < 2 ^ 31) : ¬ SeeksTo server x s t := by
  obtain ⟨res, s', hx, hmoved⟩ := h
  have hcalc : uint32 ((0 : ℕ) + pos) = 2 ^ 32 + pos := by
    unfold uint32
    omega
  have hclamp := Nat.min_le_left (server.file s.server).content.length
    ((server.file s.server).target (int32 pos) PSI_SEEK_CUR).toNat
  obtain ⟨-, -, hlength, -⟩ := hmoved.beyond (by unfold OpenFile.clamp; omega)
  intro hseeks
  have hsize := hseeks.size
  rw [hx, hlength] at hsize
  omega

/-- A call seeks one position only. -/
theorem SeeksTo.iff_eq {t u : ℤ} (h : SeeksTo server x s u) : SeeksTo server x s t ↔ u = t := by
  constructor
  · intro hseeks
    rw [← h.resultpos, hseeks.resultpos]
  · rintro rfl
    exact h

/-- A call that goes on as another one does, with the same content. -/
theorem seeksTo_congr {y : Client σ C (Errs × ℕ)} {s₁ : Session σ (Request C) (Option Response)}
    (hx : x s = y s₁) (hcontent : (server.file s₁.server).content = (server.file s.server).content)
    {t : ℤ} : SeeksTo server x s t ↔ SeeksTo server y s₁ t := by
  constructor <;> intro h
  · exact ⟨hx ▸ h.res, hx ▸ h.resultpos, hx ▸ h.position, hx ▸ hcontent ▸ h.size,
      hx ▸ hcontent ▸ h.content⟩
  · exact ⟨hx ▸ h.res, hx ▸ h.resultpos, hx ▸ h.position, hx ▸ hcontent ▸ h.size,
      hx ▸ hcontent ▸ h.content⟩

end Requests

section Start

variable {ask : Client σ C (Option Response)} {after : ℕ → List UInt8 → Client σ C (Errs × ℕ)}
  {direct : Client σ C (Errs × ℕ)} {pos : ℤ} {mode resultpos r : ℕ}
  {s s₁ : Session σ (Request C) (Option Response)}

/-- The seeks that go on at once. -/
theorem fseekWith_direct (hlow : PSI_SEEK_SET ≤ mode) (hhigh : mode ≤ PSI_SEEK_END)
    (h : mode = PSI_SEEK_SET ∨ pos < 0) : fseekWith ask after direct pos mode resultpos = direct := by
  have hrange : ¬ (mode < PSI_SEEK_SET ∨ mode > PSI_SEEK_END) := by omega
  have hother : ¬ ((mode = PSI_SEEK_CUR ∨ mode = PSI_SEEK_END) ∧ pos ≥ 0) := by
    simp only [PSI_SEEK_SET, PSI_SEEK_CUR, PSI_SEEK_END] at *
    omega
  rw [fseekWith, if_neg hrange, if_neg hother]

/-- The seeks that ask for a position first. -/
theorem fseekWith_ask (hmode : mode = PSI_SEEK_CUR ∨ mode = PSI_SEEK_END) (hpos : 0 ≤ pos)
    (hr : r < 2 ^ 32) (hask : ask s = (some ⟨E_PSI_GEN_NONE, dwordBytes r⟩, s₁)) :
    fseekWith ask after direct pos mode resultpos s =
      if pos = 0 then ((E_PSI_GEN_NONE, r), s₁) else after r (dwordBytes r) s₁ := by
  have hrange : ¬ (mode < PSI_SEEK_SET ∨ mode > PSI_SEEK_END) := by
    rcases hmode with rfl | rfl <;> decide
  have hother : (mode = PSI_SEEK_CUR ∨ mode = PSI_SEEK_END) ∧ pos ≥ 0 := ⟨hmode, hpos⟩
  rw [fseekWith, if_neg hrange, if_pos hother, Dialogue.bind_apply, hask]
  simp only [ne_eq, not_true_eq_false, if_false, getDWord_natCast hr]
  split <;> rfl

variable {layout : SeekLayout C} {answer : σ → Request C → Response × σ}
  (server : SeekServer layout answer)

/-- Asking for the position of the device, or for the end of the file. -/
theorem seeksTo_zero_iff (hmode : mode = PSI_SEEK_CUR ∨ mode = PSI_SEEK_END)
    (hask : ask = sendCommand (up answer) layout.seek (layout.seekData 0 mode))
    (hn : (server.file s.server).content.length < 2 ^ 31) :
    SeeksTo server (fseekWith ask after direct 0 mode resultpos) s
        ((server.file s.server).target 0 mode) ↔
      (mode = PSI_SEEK_CUR →
        (server.file s.server).position ≤ (server.file s.server).content.length) := by
  obtain ⟨s₁, hseek, hfile⟩ := server.ask_spec s hmode
  rw [← hask] at hseek
  have hle := (server.file s.server).asked_le mode
  have heq : fseekWith ask after direct 0 mode resultpos s = _ :=
    (fseekWith_ask hmode (Int.le_refl 0) (by omega) hseek).trans (if_pos rfl)
  rw [seeksTo_iff_of_stays heq hfile hle]
  rcases hmode with rfl | rfl
  · have htarget : (server.file s.server).target 0 PSI_SEEK_CUR =
        (server.file s.server).position + 0 := rfl
    rw [htarget, OpenFile.asked, if_pos rfl]
    simp only [forall_const]
    omega
  · have htarget : (server.file s.server).target 0 PSI_SEEK_END =
        (server.file s.server).content.length + 0 := rfl
    have hne : PSI_SEEK_END ≠ PSI_SEEK_CUR := by decide
    rw [htarget, OpenFile.asked, if_neg hne]
    simp only [hne, false_imp_iff, iff_true]
    omega

/-- The device moves back from the end. -/
theorem seeksTo_end {x : Client σ C (Errs × ℕ)} (hneg : pos < 0) (hmin : -2 ^ 31 ≤ pos)
    (h0 : 0 ≤ (server.file s.server).target pos PSI_SEEK_END)
    (h : ∃ s', x s = ((E_PSI_GEN_NONE, (server.file s.server).clamp
        ((server.file s.server).target (int32 pos) PSI_SEEK_END)), s') ∧
      server.file s'.server = ⟨(server.file s.server).content, (server.file s.server).clamp
        ((server.file s.server).target (int32 pos) PSI_SEEK_END)⟩) :
    SeeksTo server x s ((server.file s.server).target pos PSI_SEEK_END) := by
  obtain ⟨s', heq, hfile⟩ := h
  have htarget : (server.file s.server).target pos PSI_SEEK_END =
      (server.file s.server).content.length + pos := rfl
  rw [seeksTo_iff_of_stays heq hfile (Nat.min_le_left _ _), int32_of_range hmin (by omega)]
  rw [htarget] at h0 ⊢
  simp only [OpenFile.clamp]
  omega

end Start

end RFSV

namespace RFSV16

open RFSV

/-- The seek and set size requests of a SIBO device. -/
def seekLayout (handle : ℕ) : SeekLayout Commands where
  seek := .SIBO_FSEEK
  seekData pos mode := wordBytes handle ++ dwordBytes pos ++ wordBytes mode
  seekLength := 8
  setSize := .SIBO_FSETEOF
  sizeData size := wordBytes handle ++ dwordBytes size

variable {σ : Type} {answer : σ → Request Commands → Response × σ} {handle : ℕ}
  (server : SeekServer (seekLayout handle) answer)

/-- A seek request by itself. -/
theorem seekRequest_nil (pos : ℤ) (mode : ℕ) :
    seekRequest (up answer) [] handle pos mode =
      sendCommand (up answer) (seekLayout handle).seek ((seekLayout handle).seekData pos mode) := rfl

/-- The request that sets the size. -/
theorem fsetsize_eq (size : ℕ) : fsetsize (up answer) handle size = do
    let some a ← sendCommand (up answer) (seekLayout handle).setSize
        ((seekLayout handle).sizeData size)
      | return E_PSI_FILE_DISC
    return a.status := by
  rw [fsetsize, wordBytes_and]
  rfl

/-- The last part of `fseek`, from the start or the current position. -/
theorem realSeek_moved (s : Session σ (Request Commands) (Option Response)) (pos : ℤ)
    {mode : ℕ} (savpos resultpos : ℕ) (hmode : mode = PSI_SEEK_SET ∨ mode = PSI_SEEK_CUR)
    (hn : (server.file s.server).content.length < 2 ^ 31) :
    ∃ res s', realSeek (up answer) handle pos mode savpos [] resultpos s =
        ((E_PSI_GEN_NONE, res), s') ∧
      server.Moved s s' ((server.file s.server).clamp ((server.file s.server).target (int32 pos) mode))
        (if mode = PSI_SEEK_SET then uint32 pos else uint32 (savpos + pos)) res := by
  have hne : mode ≠ PSI_SEEK_END := by rcases hmode with rfl | rfl <;> decide
  obtain ⟨s₁, hseek, hfile⟩ := server.seek_spec s pos mode
    (by rcases hmode with rfl | rfl <;> decide) (by rcases hmode with rfl | rfl <;> decide)
  rw [← seekRequest_nil] at hseek
  have hread := getDWord_natCast (a := (server.file s.server).clamp
    ((server.file s.server).target (int32 pos) mode))
    (Nat.lt_of_le_of_lt (Nat.min_le_left _ _) (by omega))
  apply SeekServer.moved_of_eval hfile
  · unfold uint32
    split <;> omega
  · intro hle
    simp [realSeek, hseek, hne, hread, Nat.not_lt_of_le hle]
  · intro s₂ s₃ res hlt hres hsize hlast
    rw [← seekRequest_nil] at hlast
    have hset : fsetsize (up answer) handle
        (if mode = PSI_SEEK_SET then uint32 pos else uint32 (savpos + pos)) = _ := fsetsize_eq _
    unfold realSeek
    generalize (if mode = PSI_SEEK_SET then uint32 pos else uint32 (savpos + pos)) = c at *
    simp [hseek, hne, hread, hlt, hset, hsize, hlast, hres]

/-- The last part of `fseek`, from the end. -/
theorem realSeek_end (s : Session σ (Request Commands) (Option Response)) (pos : ℤ)
    (savpos resultpos : ℕ) (hn : (server.file s.server).content.length < 2 ^ 31) :
    ∃ s', realSeek (up answer) handle pos PSI_SEEK_END savpos [] resultpos s =
        ((E_PSI_GEN_NONE, (server.file s.server).clamp
          ((server.file s.server).target (int32 pos) PSI_SEEK_END)), s') ∧
      server.file s'.server = ⟨(server.file s.server).content, (server.file s.server).clamp
        ((server.file s.server).target (int32 pos) PSI_SEEK_END)⟩ := by
  obtain ⟨s₁, hseek, hfile⟩ := server.seek_spec s pos PSI_SEEK_END (by decide) (by decide)
  rw [← seekRequest_nil] at hseek
  have hread := getDWord_natCast (a := (server.file s.server).clamp
    ((server.file s.server).target (int32 pos) PSI_SEEK_END))
    (Nat.lt_of_le_of_lt (Nat.min_le_left _ _) (by omega))
  exact ⟨s₁, by simp [realSeek, hseek, hread], hfile⟩

/-- A first request for the position, and a second one behind its answer, which is refused. -/
theorem not_seeksTo_of_behind (s : Session σ (Request Commands) (Option Response)) {pos : ℤ}
    {mode : ℕ} (resultpos : ℕ) (hmode : mode = PSI_SEEK_CUR ∨ mode = PSI_SEEK_END) (hpos : 0 < pos)
    (hn : (server.file s.server).content.length < 2 ^ 31) (t : ℤ) :
    ¬ SeeksTo server (fseek (up answer) handle pos mode resultpos) s t := by
  obtain ⟨s₁, hseek, -⟩ := server.ask_spec s hmode
  rw [← seekRequest_nil] at hseek
  have hle := (server.file s.server).asked_le mode
  obtain ⟨a, s₂, hrefused, hstatus⟩ : ∃ a s₂,
      seekRequest (up answer) (dwordBytes ((server.file s.server).asked mode)) handle pos mode s₁ =
        (some a, s₂) ∧ a.status ≠ E_PSI_GEN_NONE :=
    server.malformed_spec s₁ (by simp [seekLayout])
  have heq : fseek (up answer) handle pos mode resultpos s = ((a.status, resultpos), s₂) := by
    rw [fseek, fseekWith_ask hmode (Int.le_of_lt hpos) (by omega) hseek, if_neg (Int.ne_of_gt hpos)]
    simp [realSeek, hrefused, hstatus]
  intro hseeks
  have hres := hseeks.res
  rw [heq] at hres
  exact hstatus hres

/-- `fseek` seeks the target exactly from the start, from the end without going beyond it, and from
the current position when the offset is zero and that position is within the file. -/
theorem fseek_seeksTo_iff (s : Session σ (Request Commands) (Option Response)) {pos : ℤ}
    {mode : ℕ} (resultpos : ℕ) (h : InRange (server.file s.server) pos mode) :
    SeeksTo server (fseek (up answer) handle pos mode resultpos) s
        ((server.file s.server).target pos mode) ↔
      mode = PSI_SEEK_SET ∨ (mode = PSI_SEEK_END ∧ pos ≤ 0) ∨
        (mode = PSI_SEEK_CUR ∧ pos = 0 ∧
          (server.file s.server).position ≤ (server.file s.server).content.length) := by
  obtain ⟨hlow, hhigh, hn, hp, hmin, hmax, h0, h31⟩ := h
  rcases mode_cases hlow hhigh with rfl | rfl | rfl
  · have hmoved := realSeek_moved server s pos 0 resultpos (.inl rfl) hn
    rw [fseek, fseekWith_direct hlow hhigh (.inl rfl)]
    exact iff_of_true (seeksTo_of_set hmoved h0 h31) (.inl rfl)
  · rcases Int.lt_trichotomy pos 0 with hneg | rfl | hpos
    · have hmoved := realSeek_moved server s pos 0 resultpos (.inr rfl) hn
      rw [fseek, fseekWith_direct hlow hhigh (.inr hneg)]
      apply iff_of_false (not_seeksTo_of_back hmoved hn hmin hneg h31)
      simp only [PSI_SEEK_SET, PSI_SEEK_CUR, PSI_SEEK_END]
      omega
    · rw [fseek, seeksTo_zero_iff server (.inl rfl) (seekRequest_nil 0 _) hn]
      simp [PSI_SEEK_SET, PSI_SEEK_CUR, PSI_SEEK_END]
    · apply iff_of_false (not_seeksTo_of_behind server s resultpos (.inl rfl) hpos hn _)
      simp only [PSI_SEEK_SET, PSI_SEEK_CUR, PSI_SEEK_END]
      omega
  · rcases Int.lt_trichotomy pos 0 with hneg | rfl | hpos
    · have hend := realSeek_end server s pos 0 resultpos hn
      rw [fseek, fseekWith_direct hlow hhigh (.inr hneg)]
      exact iff_of_true (seeksTo_end server hneg hmin h0 hend) (.inr (.inl ⟨rfl, Int.le_of_lt hneg⟩))
    · rw [fseek, seeksTo_zero_iff server (.inr rfl) (seekRequest_nil 0 _) hn]
      simp [PSI_SEEK_SET, PSI_SEEK_CUR, PSI_SEEK_END]
    · apply iff_of_false (not_seeksTo_of_behind server s resultpos (.inr rfl) hpos hn _)
      simp only [PSI_SEEK_SET, PSI_SEEK_CUR, PSI_SEEK_END]
      omega

end RFSV16

namespace RFSV32

open RFSV

/-- The seek and set size requests of an EPOC device. -/
def seekLayout (handle : ℕ) : SeekLayout Commands where
  seek := .SEEK_FILE
  seekData pos mode := dwordBytes pos ++ dwordBytes handle ++ dwordBytes mode
  seekLength := 12
  setSize := .SET_SIZE
  sizeData size := dwordBytes handle ++ dwordBytes size

variable {σ : Type} {answer : σ → Request Commands → Response × σ} {handle : ℕ}
  (server : SeekServer (seekLayout handle) answer)

/-- A seek request by itself. -/
theorem seekRequest_nil (pos : ℤ) (mode : ℕ) :
    seekRequest (up answer) [] handle pos mode =
      sendCommand (up answer) (seekLayout handle).seek ((seekLayout handle).seekData pos mode) := rfl

/-- The request that sets the size. -/
theorem setSize_eq (size : ℕ) :
    setSize (up answer) handle size =
      sendCommand (up answer) (seekLayout handle).setSize ((seekLayout handle).sizeData size) := rfl

/-- The last part of `fseek`, from the start or the current position. -/
theorem realSeek_moved (s : Session σ (Request Commands) (Option Response)) (pos : ℤ)
    {mode : ℕ} (savpos resultpos : ℕ) (hmode : mode = PSI_SEEK_SET ∨ mode = PSI_SEEK_CUR)
    (hn : (server.file s.server).content.length < 2 ^ 31) :
    ∃ res s', realSeek (up answer) handle pos mode savpos resultpos s =
        ((E_PSI_GEN_NONE, res), s') ∧
      server.Moved s s' ((server.file s.server).clamp ((server.file s.server).target (int32 pos) mode))
        (if mode = PSI_SEEK_SET then uint32 pos else uint32 (savpos + pos)) res := by
  have hne : mode ≠ PSI_SEEK_END := by rcases hmode with rfl | rfl <;> decide
  obtain ⟨s₁, hseek, hfile⟩ := server.seek_spec s pos mode
    (by rcases hmode with rfl | rfl <;> decide) (by rcases hmode with rfl | rfl <;> decide)
  rw [← seekRequest_nil] at hseek
  have hread := getDWord_natCast (a := (server.file s.server).clamp
    ((server.file s.server).target (int32 pos) mode))
    (Nat.lt_of_le_of_lt (Nat.min_le_left _ _) (by omega))
  apply SeekServer.moved_of_eval hfile
  · unfold uint32
    split <;> omega
  · intro hle
    simp [realSeek, hseek, hne, hread, Nat.not_lt_of_le hle]
  · intro s₂ s₃ res hlt hres hsize hlast
    rw [← setSize_eq] at hsize
    rw [← seekRequest_nil] at hlast
    unfold realSeek
    generalize (if mode = PSI_SEEK_SET then uint32 pos else uint32 (savpos + pos)) = c at *
    simp [hseek, hne, hread, hlt, hsize, hlast, hres]

/-- The last part of `fseek`, from the end. -/
theorem realSeek_end (s : Session σ (Request Commands) (Option Response)) (pos : ℤ)
    (savpos resultpos : ℕ) (hn : (server.file s.server).content.length < 2 ^ 31) :
    ∃ s', realSeek (up answer) handle pos PSI_SEEK_END savpos resultpos s =
        ((E_PSI_GEN_NONE, (server.file s.server).clamp
          ((server.file s.server).target (int32 pos) PSI_SEEK_END)), s') ∧
      server.file s'.server = ⟨(server.file s.server).content, (server.file s.server).clamp
        ((server.file s.server).target (int32 pos) PSI_SEEK_END)⟩ := by
  obtain ⟨s₁, hseek, hfile⟩ := server.seek_spec s pos PSI_SEEK_END (by decide) (by decide)
  rw [← seekRequest_nil] at hseek
  have hread := getDWord_natCast (a := (server.file s.server).clamp
    ((server.file s.server).target (int32 pos) PSI_SEEK_END))
    (Nat.lt_of_le_of_lt (Nat.min_le_left _ _) (by omega))
  exact ⟨s₁, by simp [realSeek, hseek, hread], hfile⟩

/-- Moving forwards from the current position. -/
theorem realSeek_forward (s : Session σ (Request Commands) (Option Response)) {pos : ℤ}
    (resultpos : ℕ) (hpos : 0 < pos) (hmax : pos < 2 ^ 31)
    (hn : (server.file s.server).content.length < 2 ^ 31)
    (h31 : (server.file s.server).position + pos < 2 ^ 31) :
    SeeksTo server (realSeek (up answer) handle pos PSI_SEEK_CUR (server.file s.server).position resultpos)
      s ((server.file s.server).position + pos) := by
  obtain ⟨c, hc⟩ : ∃ c : ℕ, (c : ℤ) = (server.file s.server).position + pos :=
    ⟨((server.file s.server).position + pos).toNat, by omega⟩
  have hcalc : uint32 ((server.file s.server).position + pos) = c := by
    rw [← hc]
    unfold uint32
    omega
  have htarget : (server.file s.server).target (int32 pos) PSI_SEEK_CUR = c := by
    rw [int32_of_range (by omega) hmax, hc]
    rfl
  obtain ⟨res, s', heq, hmoved⟩ := realSeek_moved server s pos (server.file s.server).position
    resultpos (.inr rfl) hn
  rw [if_neg (by decide), hcalc, htarget] at hmoved
  rw [← hc]
  exact hmoved.seeksTo heq rfl (by omega)

/-- Expanding the file from its end. -/
theorem expandSeek_seeksTo (s : Session σ (Request Commands) (Option Response)) {pos : ℤ}
    (resultpos : ℕ) (hpos : 0 < pos) (h31 : (server.file s.server).content.length + pos < 2 ^ 31) :
    SeeksTo server (expandSeek (up answer) handle pos PSI_SEEK_END (server.file s.server).content.length
      resultpos) s ((server.file s.server).content.length + pos) := by
  obtain ⟨c, hc⟩ : ∃ c : ℕ, (c : ℤ) = (server.file s.server).content.length + pos :=
    ⟨((server.file s.server).content.length + pos).toNat, by omega⟩
  have hcalc : uint32 ((server.file s.server).content.length + pos) = c := by
    rw [← hc]
    unfold uint32
    omega
  rw [← hc]
  obtain ⟨s₁, hsize, hlength, hcontent⟩ := server.size_spec s c (by omega)
  rw [← setSize_eq] at hsize
  rw [List.take_of_length_le (by omega)] at hcontent
  obtain ⟨s₂, heq, hfile⟩ := realSeek_end server s₁ 0 (server.file s.server).content.length resultpos
    (by omega)
  have hend : (server.file s₁.server).clamp
      ((server.file s₁.server).target (int32 0) PSI_SEEK_END) = c := by
    have htarget : (server.file s₁.server).target (int32 0) PSI_SEEK_END = c + 0 := by
      rw [← hlength]
      rfl
    rw [htarget, OpenFile.clamp, hlength]
    omega
  rw [hend] at heq hfile
  have hexpand : expandSeek (up answer) handle pos PSI_SEEK_END
      (server.file s.server).content.length resultpos s = ((E_PSI_GEN_NONE, c), s₂) := by
    simp [expandSeek, hcalc, hsize, heq]
  constructor <;> simp only [hexpand, hfile, hlength, hcontent]
  omega

/-- Moving forwards works from a position that the device can be asked for. -/
theorem fseek_forward_iff (s : Session σ (Request Commands) (Option Response)) {pos : ℤ}
    (resultpos : ℕ) (hpos : 0 < pos) (hmax : pos < 2 ^ 31)
    (hn : (server.file s.server).content.length < 2 ^ 31)
    (h31 : (server.file s.server).target pos PSI_SEEK_CUR < 2 ^ 31) :
    SeeksTo server (fseek (up answer) handle pos PSI_SEEK_CUR resultpos) s
        ((server.file s.server).target pos PSI_SEEK_CUR) ↔
      (server.file s.server).position ≤ (server.file s.server).content.length := by
  obtain ⟨s₁, hask, hfile⟩ := server.ask_spec s (.inl rfl)
  rw [← seekRequest_nil] at hask
  have hle := (server.file s.server).asked_le PSI_SEEK_CUR
  have hasked : (server.file s.server).asked PSI_SEEK_CUR =
      min (server.file s.server).content.length (server.file s.server).position := if_pos rfl
  have htarget : (server.file s.server).target pos PSI_SEEK_CUR =
      (server.file s.server).position + pos := rfl
  have heq : fseek (up answer) handle pos PSI_SEEK_CUR resultpos s = _ :=
    (fseekWith_ask (.inl rfl) (Int.le_of_lt hpos) (by omega) hask).trans
      (if_neg (Int.ne_of_gt hpos))
  rw [if_neg (by decide)] at heq
  have hforward := realSeek_forward server s₁ resultpos hpos hmax (by rw [hfile]; exact hn)
    (by rw [hfile]; dsimp only; omega)
  rw [hfile] at hforward
  rw [seeksTo_congr heq (by rw [hfile]), hforward.iff_eq, htarget]
  dsimp only
  omega

/-- A target beyond the end is reached by expanding the file. -/
theorem fseek_beyond_end (s : Session σ (Request Commands) (Option Response)) {pos : ℤ}
    (resultpos : ℕ) (hpos : 0 < pos) (hn : (server.file s.server).content.length < 2 ^ 31)
    (h31 : (server.file s.server).target pos PSI_SEEK_END < 2 ^ 31) :
    SeeksTo server (fseek (up answer) handle pos PSI_SEEK_END resultpos) s
      ((server.file s.server).target pos PSI_SEEK_END) := by
  obtain ⟨s₁, hask, hfile⟩ := server.ask_spec s (.inr rfl)
  rw [← seekRequest_nil] at hask
  have hle := (server.file s.server).asked_le PSI_SEEK_END
  have hasked : (server.file s.server).asked PSI_SEEK_END =
      (server.file s.server).content.length := if_neg (by decide)
  have heq : fseek (up answer) handle pos PSI_SEEK_END resultpos s = _ :=
    (fseekWith_ask (.inr rfl) (Int.le_of_lt hpos) (by omega) hask).trans
      (if_neg (Int.ne_of_gt hpos))
  rw [if_pos rfl, hasked] at heq
  have hexpand := expandSeek_seeksTo server s₁ resultpos hpos (by rw [hfile]; exact h31)
  rw [hfile] at hexpand
  exact (seeksTo_congr heq (by rw [hfile])).mpr hexpand

/-- `fseek` seeks the target exactly from the start, from the end, and forwards from a current
position that is within the file. -/
theorem fseek_seeksTo_iff (s : Session σ (Request Commands) (Option Response)) {pos : ℤ}
    {mode : ℕ} (resultpos : ℕ) (h : InRange (server.file s.server) pos mode) :
    SeeksTo server (fseek (up answer) handle pos mode resultpos) s
        ((server.file s.server).target pos mode) ↔
      (mode = PSI_SEEK_CUR → 0 ≤ pos ∧
        (server.file s.server).position ≤ (server.file s.server).content.length) := by
  obtain ⟨hlow, hhigh, hn, hp, hmin, hmax, h0, h31⟩ := h
  rcases mode_cases hlow hhigh with rfl | rfl | rfl
  · have hmoved := realSeek_moved server s pos 0 resultpos (.inl rfl) hn
    rw [fseek, fseekWith_direct hlow hhigh (.inl rfl)]
    exact iff_of_true (seeksTo_of_set hmoved h0 h31) (fun h => absurd h (by decide))
  · simp only [forall_const]
    rcases Int.lt_trichotomy pos 0 with hneg | rfl | hpos
    · have hmoved := realSeek_moved server s pos 0 resultpos (.inr rfl) hn
      rw [fseek, fseekWith_direct hlow hhigh (.inr hneg)]
      exact iff_of_false (not_seeksTo_of_back hmoved hn hmin hneg h31) (by omega)
    · rw [fseek, seeksTo_zero_iff server (.inl rfl) (seekRequest_nil 0 _) hn]
      simp
    · rw [fseek_forward_iff server s resultpos hpos hmax hn h31]
      exact (and_iff_right (Int.le_of_lt hpos)).symm
  · refine iff_of_true ?_ (fun h => absurd h (by decide))
    rcases Int.lt_trichotomy pos 0 with hneg | rfl | hpos
    · have hend := realSeek_end server s pos 0 resultpos hn
      rw [fseek, fseekWith_direct hlow hhigh (.inr hneg)]
      exact seeksTo_end server hneg hmin h0 hend
    · rw [fseek, seeksTo_zero_iff server (.inr rfl) (seekRequest_nil 0 _) hn]
      exact fun h => absurd h (by decide)
    · exact fseek_beyond_end server s resultpos hpos hn h31

end RFSV32

namespace RFSV

/-- Which seeks work, on the two kinds of devices. -/
theorem seeks_iff (handle : ℕ) (pos : ℤ) (mode resultpos : ℕ) :
    (∀ (σ : Type) (answer : σ → Request RFSV16.Commands → Response × σ)
      (server : SeekServer (RFSV16.seekLayout handle) answer)
      (s : Session σ (Request RFSV16.Commands) (Option Response)),
      InRange (server.file s.server) pos mode →
        (SeeksTo server (RFSV16.fseek (up answer) handle pos mode resultpos) s
            ((server.file s.server).target pos mode) ↔
          mode = PSI_SEEK_SET ∨ (mode = PSI_SEEK_END ∧ pos ≤ 0) ∨
            (mode = PSI_SEEK_CUR ∧ pos = 0 ∧
              (server.file s.server).position ≤ (server.file s.server).content.length))) ∧
    (∀ (σ : Type) (answer : σ → Request RFSV32.Commands → Response × σ)
      (server : SeekServer (RFSV32.seekLayout handle) answer)
      (s : Session σ (Request RFSV32.Commands) (Option Response)),
      InRange (server.file s.server) pos mode →
        (SeeksTo server (RFSV32.fseek (up answer) handle pos mode resultpos) s
            ((server.file s.server).target pos mode) ↔
          (mode = PSI_SEEK_CUR → 0 ≤ pos ∧
            (server.file s.server).position ≤ (server.file s.server).content.length))) :=
  ⟨fun _ _ server s h => RFSV16.fseek_seeksTo_iff server s resultpos h,
    fun _ _ server s h => RFSV32.fseek_seeksTo_iff server s resultpos h⟩

variable {C : Type} [DecidableEq C]

/-- A device that holds one file, reading its requests by the given functions. -/
def SeekLayout.answer (layout : SeekLayout C) (readPos readMode readSize : List UInt8 → ℕ)
    (f : OpenFile) (q : Request C) : Response × OpenFile :=
  if q.command = layout.seek then
    if q.data.length = layout.seekLength then
      let t := f.clamp (f.target (int32 (readPos q.data)) (readMode q.data))
      (⟨E_PSI_GEN_NONE, dwordBytes t⟩, ⟨f.content, t⟩)
    else (⟨E_PSI_GEN_ARG, []⟩, f)
  else
    let size := readSize q.data
    (⟨E_PSI_GEN_NONE, []⟩,
      ⟨f.content.take size ++ List.replicate (size - f.content.length) 0, f.position⟩)

/-- It makes no difference to cut off as unsigned first. -/
theorem int32_uint32 (a : ℤ) : int32 (uint32 a) = int32 a := by
  unfold int32 uint32
  omega

/-- That device answers as a device that holds a file open does. -/
def SeekLayout.server (layout : SeekLayout C) (readPos readMode readSize : List UInt8 → ℕ)
    (hlength : ∀ pos mode, (layout.seekData pos mode).length = layout.seekLength)
    (hpos : ∀ pos mode, readPos (layout.seekData pos mode) = uint32 pos)
    (hmode : ∀ pos mode, mode < 65536 → readMode (layout.seekData pos mode) = mode)
    (hne : layout.setSize ≠ layout.seek)
    (hsize : ∀ size, size < 2 ^ 32 → readSize (layout.sizeData size) = size) :
    SeekServer layout (layout.answer readPos readMode readSize) where
  file := id
  seek_reply d pos mode hlow hhigh := by
    have hmode := hmode pos mode (Nat.lt_of_le_of_lt hhigh (by decide))
    simp only [SeekLayout.answer, hlength, hpos, hmode, int32_uint32, if_true, id]
  seek_file d pos mode hlow hhigh := by
    have hmode := hmode pos mode (Nat.lt_of_le_of_lt hhigh (by decide))
    simp only [SeekLayout.answer, hlength, hpos, hmode, int32_uint32, if_true, id]
  malformed d data hdata := by
    simp only [SeekLayout.answer, if_true, if_neg hdata]
    decide
  size_reply d size h := by simp only [SeekLayout.answer, if_neg hne]
  size_length d size h := by
    simp only [SeekLayout.answer, if_neg hne, hsize size h, id, List.length_append, List.length_take,
      List.length_replicate]
    omega
  size_content d size h := by
    simp only [SeekLayout.answer, if_neg hne, hsize size h, id]
    exact List.prefix_append _ _

/-- A SIBO device with one file. -/
def answer16 (handle : ℕ) : OpenFile → Request RFSV16.Commands → Response × OpenFile :=
  (RFSV16.seekLayout handle).answer (getDWord · 2) (getWord · 6) (getDWord · 2)

def server16 (handle : ℕ) : SeekServer (RFSV16.seekLayout handle) (answer16 handle) :=
  (RFSV16.seekLayout handle).server _ _ _ (fun _ _ => rfl) (fun pos _ => getDWord_dwordBytes pos)
    (fun _ _ h => getWord_wordBytes h) (fun h => RFSV16.Commands.noConfusion h)
    fun _ h => getDWord_natCast h

/-- An EPOC device with one file. -/
def answer32 (handle : ℕ) : OpenFile → Request RFSV32.Commands → Response × OpenFile :=
  (RFSV32.seekLayout handle).answer (getDWord · 0) (getWord · 8) (getDWord · 4)

def server32 (handle : ℕ) : SeekServer (RFSV32.seekLayout handle) (answer32 handle) :=
  (RFSV32.seekLayout handle).server _ _ _ (fun _ _ => rfl) (fun pos _ => getDWord_dwordBytes pos)
    (fun _ _ h => getWord_wordBytes h) (fun h => RFSV32.Commands.noConfusion h)
    fun _ h => getDWord_natCast h

/-- On both devices, the byte behind the end of a file of two bytes is reached from the start. -/
theorem seeks_beyond_end :
    SeeksTo (server16 7) (RFSV16.fseek (up (answer16 7)) 7 3 PSI_SEEK_SET 0) ⟨⟨[1, 2], 0⟩, []⟩ 3 ∧
      SeeksTo (server32 7) (RFSV32.fseek (up (answer32 7)) 7 3 PSI_SEEK_SET 0) ⟨⟨[1, 2], 0⟩, []⟩ 3 := by
  have hrange : InRange ⟨[1, 2], 0⟩ 3 PSI_SEEK_SET := by constructor <;> decide
  obtain ⟨hsibo, hepoc⟩ := seeks_iff 7 3 PSI_SEEK_SET 0
  constructor
  · exact (hsibo _ _ (server16 7) ⟨⟨[1, 2], 0⟩, []⟩ hrange).mpr (.inl rfl)
  · exact (hepoc _ _ (server32 7) ⟨⟨[1, 2], 0⟩, []⟩ hrange).mpr (fun h => absurd h (by decide))

/-- One byte forwards in a file of two bytes is refused by the first device; one byte back from the
end of the file is too much for both. -/
theorem forward_and_back_not_sought :
    ¬ SeeksTo (server16 7) (RFSV16.fseek (up (answer16 7)) 7 1 PSI_SEEK_CUR 0) ⟨⟨[1, 2], 0⟩, []⟩ 1 ∧
      ¬ SeeksTo (server16 7) (RFSV16.fseek (up (answer16 7)) 7 (-1) PSI_SEEK_CUR 0) ⟨⟨[1, 2], 2⟩, []⟩ 1 ∧
      ¬ SeeksTo (server32 7) (RFSV32.fseek (up (answer32 7)) 7 (-1) PSI_SEEK_CUR 0) ⟨⟨[1, 2], 2⟩, []⟩ 1 := by
  have hback : InRange ⟨[1, 2], 2⟩ (-1) PSI_SEEK_CUR := by constructor <;> decide
  refine ⟨fun h => absurd h.res (by decide), ?_, ?_⟩
  · exact (RFSV16.fseek_seeksTo_iff (server16 7) ⟨⟨[1, 2], 2⟩, []⟩ 0 hback).not.mpr (by decide)
  · exact (RFSV32.fseek_seeksTo_iff (server32 7) ⟨⟨[1, 2], 2⟩, []⟩ 0 hback).not.mpr (by decide)

end RFSV

end Plptools
