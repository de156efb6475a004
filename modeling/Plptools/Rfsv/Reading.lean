import Plptools.Rfsv.RFSV16
import Plptools.Rfsv.RFSV32

/-!
# The buffer of the caller

`fread` copies what each answer has, and asks for more as long as there is room. How long an answer is
is up to the device: what it asked for is not compared with what it gets.
-/

namespace Plptools

open Plptools.Library

open BufferStore (wordBytes dwordBytes)

namespace RFSV

variable {C : Type}

/-- The data that was received with success. -/
def received (log : List (Request C × Option Response)) : List UInt8 :=
  log.flatMap fun e => e.2.elim [] fun a => if a.status = E_PSI_GEN_NONE then a.data else []

/-- What `fread` returns, and what it wrote to a buffer of `len` bytes. -/
def RespectsBuffer (len : ℕ)
    (r : Option (Errs × ℕ × List UInt8) × Session (List (Option Response)) (Request C) (Option Response)) : Prop :=
  ∃ res count buf, r.1 = some (res, count, buf) ∧ buf.length ≤ len ∧ count = buf.length ∧ buf = received r.2.log

/-- Each answer has at most what there is room for, as long as one is waited for. -/
def EachFits : ℕ → List (Option Response) → Prop
  | room, some a :: rest => a.status = E_PSI_GEN_NONE → a.data.length ≤ room ∧
      (a.data.length < room → a.data ≠ [] → EachFits (room - a.data.length) rest)
  | _, _ => True

instance EachFits.decidable : ∀ room responses, Decidable (EachFits room responses)
  | _, [] => isTrue trivial
  | _, none :: _ => isTrue trivial
  | room, some a :: rest =>
    have := EachFits.decidable (room - a.data.length) rest
    inferInstanceAs (Decidable (a.status = E_PSI_GEN_NONE → a.data.length ≤ room ∧
      (a.data.length < room → a.data ≠ [] → EachFits (room - a.data.length) rest)))

variable {σ : Type}

/-- The loop of both protocols, with their requests and what they return at an error. -/
def readLoop (ask : ℕ → Client σ C (Option Response)) (failed : Errs → Errs) (len : ℕ) :
    ℕ → ℕ → List UInt8 → Client σ C (Option (Errs × ℕ × List UInt8))
  | 0, _, _ => return none
  | fuel + 1, count, buf => do
    let some a ← ask count
      | return some (E_PSI_FILE_DISC, count, buf)
    if a.status ≠ E_PSI_GEN_NONE then return some (failed a.status, count, buf)
    else
      let l := a.data.length
      let count := uint32 (count + l)
      let buf := buf ++ a.data
      if count < len ∧ l > 0 then readLoop ask failed len fuel count buf
      else return some (a.status, count, buf)

variable {ask : ℕ → Request C} {failed : Errs → Errs} {len : ℕ}

/-- What was written stays in the buffer. -/
theorem readLoop_prefix {ask : ℕ → Client σ C (Option Response)} {fuel count : ℕ} {buf : List UInt8}
    {s : Session σ (Request C) (Option Response)} {res : Errs} {count' : ℕ} {buf' : List UInt8}
    (h : (readLoop ask failed len fuel count buf s).1 = some (res, count', buf')) : buf <+: buf' := by
  induction fuel generalizing count buf s with
  | zero => cases h
  | succ fuel ih =>
    rw [readLoop, Dialogue.bind_apply] at h
    cases hanswer : (ask count s).1 with
    | none =>
      rw [hanswer] at h
      cases h
      exact List.prefix_refl _
    | some a =>
      rw [hanswer] at h
      dsimp only at h
      split at h
      · cases h
        exact List.prefix_refl _
      · split at h
        · exact (List.prefix_append _ _).trans (ih h)
        · cases h
          exact List.prefix_append _ _

/-- What one more answer brings. -/
theorem received_concat (log : List (Request C × Option Response)) (q : Request C) (r : Option Response) :
    received (log ++ [(q, r)]) =
      received log ++ r.elim [] fun a => if a.status = E_PSI_GEN_NONE then a.data else [] := by
  rw [received, List.flatMap_append]
  exact congrArg _ (List.append_nil _)

/-- One answer more. -/
theorem sendCommand_script (q : Request C) (r : Option Response) (rest : List (Option Response))
    (log : List (Request C × Option Response)) :
    sendCommand script q.command q.data ⟨r :: rest, log⟩ = (r, ⟨rest, log ++ [(q, r)]⟩) := rfl

/-- Where more was written than there is room for, whatever is returned does not fit. -/
theorem not_respectsBuffer_of_longer
    {r : Option (Errs × ℕ × List UInt8) × Session (List (Option Response)) (Request C) (Option Response)}
    {written : List UInt8} (hstays : ∀ res count buf, r.1 = some (res, count, buf) → written <+: buf)
    (hlonger : len < written.length) : ¬RespectsBuffer len r := by
  rintro ⟨res, count, buf, hreturned, hle, -⟩
  have hlength := (hstays res count buf hreturned).length_le
  omega

/-- A round and the rounds after it stay in the buffer just when the answers do. -/
theorem readLoop_respects_iff (hlen : len < 2 ^ 32) {responses : List (Option Response)} {fuel : ℕ}
    (hfuel : responses.length < fuel) {count : ℕ} {buf : List UInt8} (hcount : count = buf.length)
    (hroom : buf.length ≤ len) {log : List (Request C × Option Response)} (hlog : buf = received log) :
    RespectsBuffer len (readLoop (fun count => sendCommand script (ask count).command (ask count).data)
        failed len fuel count buf ⟨responses, log⟩) ↔
      EachFits (len - count) responses := by
  induction responses generalizing fuel count buf log with
  | nil =>
    obtain ⟨fuel, rfl⟩ := Nat.exists_eq_add_of_lt hfuel
    refine iff_of_true ⟨E_PSI_FILE_DISC, count, buf, rfl, hroom, hcount, ?_⟩ trivial
    rw [hlog]
    exact (received_concat log (ask count) none).symm ▸ (List.append_nil _).symm
  | cons r rest ih =>
    obtain ⟨fuel, rfl⟩ : ∃ k, fuel = k + 1 := Nat.exists_eq_add_one.mpr (Nat.zero_lt_of_lt hfuel)
    have hrest : rest.length < fuel := Nat.lt_of_succ_lt_succ hfuel
    have hnext := received_concat log (ask count) r
    rw [← hlog] at hnext
    rw [readLoop, Dialogue.bind_apply, sendCommand_script]
    cases r with
    | none => exact iff_of_true ⟨E_PSI_FILE_DISC, count, buf, rfl, hroom, hcount,
      (hnext.trans (List.append_nil _)).symm⟩ trivial
    | some a =>
      rw [EachFits]
      dsimp only [Option.elim_some] at hnext ⊢
      by_cases hstatus : a.status = E_PSI_GEN_NONE
      · rw [if_pos hstatus] at hnext
        rw [if_neg (not_not_intro hstatus), imp_iff_right hstatus]
        by_cases hfits : a.data.length ≤ len - count
        · have hwritten : (buf ++ a.data).length ≤ len := by
            rw [List.length_append]
            omega
          have hsum : uint32 (count + a.data.length) = (buf ++ a.data).length := by
            rw [List.length_append, uint32]
            omega
          rw [and_iff_right hfits]
          by_cases hmore : uint32 (count + a.data.length) < len ∧ a.data.length > 0
          · rw [if_pos hmore, ih hrest hsum hwritten hnext.symm, hsum, List.length_append, ← hcount, ← Nat.sub_sub]
            rw [hsum, List.length_append] at hmore
            have hless : a.data.length < len - count := by omega
            exact ⟨fun h _ _ => h, fun h => h hless (List.ne_nil_of_length_pos hmore.2)⟩
          · rw [if_neg hmore]
            refine iff_of_true ⟨_, _, _, rfl, hwritten, hsum, hnext.symm⟩ fun hless hne => absurd ?_ hmore
            rw [hsum, List.length_append]
            exact ⟨by omega, List.length_pos_of_ne_nil hne⟩
        · have hlonger : len < (buf ++ a.data).length := by
            rw [List.length_append]
            omega
          refine iff_of_false (not_respectsBuffer_of_longer (fun res count' buf' hreturned => ?_) hlonger) fun h =>
            hfits h.1
          split at hreturned
          · exact readLoop_prefix hreturned
          · cases hreturned
            exact List.prefix_refl _
      · rw [if_neg hstatus, List.append_nil] at hnext
        rw [if_pos hstatus]
        exact iff_of_true ⟨_, _, _, rfl, hroom, hcount, hnext.symm⟩ fun h => absurd h hstatus

end RFSV

open RFSV

namespace RFSV16

/-- The request of a round. -/
def freadRequest (handle len count : ℕ) : Request Commands :=
  ⟨.SIBO_FREAD, wordBytes handle ++
    wordBytes (if len - count > RFSV16_MAXDATALEN then RFSV16_MAXDATALEN else len - count : ℕ)⟩

/-- The rounds of `fread` are those of reading. -/
theorem freadLoop_eq {σ : Type} (answer : Device σ Commands) (handle len fuel count : ℕ) (buf : List UInt8) :
    freadLoop answer handle len fuel count buf =
      readLoop (fun count =>
          sendCommand answer (freadRequest handle len count).command (freadRequest handle len count).data)
        unlessEof len fuel count buf := by
  induction fuel generalizing count buf with
  | zero => rfl
  | succ fuel ih =>
    rw [freadLoop, readLoop]
    congr 1
    funext r
    cases r with
    | none => rfl
    | some a =>
      dsimp only
      rw [ih, unlessEof]
      split
      · split <;> rfl
      · rfl

end RFSV16

namespace RFSV32

/-- The request of a round. -/
def freadRequest (handle len count : ℕ) : Request Commands :=
  ⟨.READ_FILE, dwordBytes handle ++
    dwordBytes (if len - count > RFSV_SENDLEN then RFSV_SENDLEN else len - count : ℕ)⟩

/-- The rounds of `fread` are those of reading. -/
theorem freadLoop_eq {σ : Type} (answer : Device σ Commands) (handle len fuel count : ℕ) (buf : List UInt8) :
    freadLoop answer handle len fuel count buf =
      readLoop (fun count =>
          sendCommand answer (freadRequest handle len count).command (freadRequest handle len count).data)
        id len fuel count buf := by
  induction fuel generalizing count buf with
  | zero => rfl
  | succ fuel ih =>
    rw [freadLoop, readLoop]
    congr 1
    funext r
    cases r with
    | none => rfl
    | some a =>
      dsimp only
      rw [ih]
      rfl

end RFSV32

namespace RFSV

/-- `fread` of either protocol stays in the buffer of the caller, and returns what it received, just when no answer
is longer than what is left of the buffer. -/
theorem fread_respectsBuffer_iff (len : UInt32) (handle more : ℕ) (responses : List (Option Response)) :
    (RespectsBuffer len.toNat (RFSV16.fread script (responses.length + more + 1) handle len.toNat ⟨responses, []⟩) ↔
        EachFits len.toNat responses) ∧
      (RespectsBuffer len.toNat (RFSV32.fread script (responses.length + more + 1) handle len.toNat ⟨responses, []⟩) ↔
        EachFits len.toNat responses) := by
  have hfuel : responses.length < responses.length + more + 1 := by omega
  rw [RFSV16.fread, RFSV16.freadLoop_eq, RFSV32.fread, RFSV32.freadLoop_eq]
  exact ⟨readLoop_respects_iff len.toNat_lt hfuel rfl (Nat.zero_le _) rfl,
    readLoop_respects_iff len.toNat_lt hfuel rfl (Nat.zero_le _) rfl⟩

/-- One byte is asked for, and two come. -/
theorem fread_not_respectsBuffer :
    ¬RespectsBuffer 1 (RFSV16.fread script 2 0 1 ⟨[some ⟨E_PSI_GEN_NONE, [0x41, 0x42]⟩], []⟩) ∧
      ¬RespectsBuffer 1 (RFSV32.fread script 2 0 1 ⟨[some ⟨E_PSI_GEN_NONE, [0x41, 0x42]⟩], []⟩) := by
  constructor
  all_goals
    rintro ⟨res, count, buf, hreturned, hle, -⟩
    cases hreturned
    exact absurd hle (by decide)

end RFSV

end Plptools
