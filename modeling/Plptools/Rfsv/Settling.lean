import Plptools.Rfsv.Handles
import Plptools.Rfsv.Counting
import Plptools.Rfsv.Status

/-!
# Calls that come back with all handles closed

A call comes back when there is an end to what the device hands out, and it goes through every answer: a
status that has no text fails an assertion, more data than was asked for overruns a buffer, a name without an
end is read behind the answer, and a record without a length is met again and again. A call that comes back
has closed its handles if its requests to open were answered so.
-/

namespace Plptools

open Plptools.Library

open Dialogue (notes cost Grows Below Asks Fuelled IsLoop grows_pure grows_ask)

open BufferStore (wordBytes dwordBytes)

namespace RFSV

variable {σ C : Type}

/-- An answer weighs as much as its data. -/
def dataLength (r : Option Response) : ℕ := r.elim 0 fun a => a.data.length

/-- The call comes back, having gone through every answer, and has closed what it was granted. -/
def Handles.ComesBack (H : Handles C) (fine : Request C × Option Response → Prop)
    (x : ℕ → Client σ C (Option Errs)) (d : σ) : Prop :=
  ∃ fuel, (x fuel ⟨d, []⟩).1.isSome ∧ (∀ e ∈ (x fuel ⟨d, []⟩).2.log, fine e) ∧
    Use.Balanced (notes H.use (x fuel ⟨d, []⟩).2)

/-- However long the call goes on, what it gets comes to an end, and it can go through it. -/
structure Served (fine : Request C × Option Response → Prop) (x : ℕ → Client σ C (Option Errs)) (d : σ) :
    Prop where
  bounded : ∃ bound, ∀ fuel, (x fuel ⟨d, []⟩).2.log.length ≤ bound
  fine : ∀ fuel, ∀ e ∈ (x fuel ⟨d, []⟩).2.log, fine e

/-- A call that closes its handles if it comes back. -/
theorem comesBack_iff {H : Handles C} {fine : Request C × Option Response → Prop}
    {x : ℕ → Client σ C (Option Errs)} (hx : Fuelled dataLength fine x) {d : σ} {settles : Prop}
    (hbalanced : ∀ fuel, (x fuel ⟨d, []⟩).1.isSome →
      (Use.Balanced (notes H.use (x fuel ⟨d, []⟩).2) ↔ settles)) :
    H.ComesBack fine x d ↔ settles ∧ Served fine x d := by
  have hreturns := hx.returns_iff ⟨d, []⟩
  constructor
  · rintro ⟨fuel, hreturn, hfine, hclosed⟩
    obtain ⟨hbounded, hall⟩ := hreturns.mp ⟨fuel, hreturn, hfine⟩
    exact ⟨(hbalanced fuel hreturn).mp hclosed, hbounded, hall⟩
  · rintro ⟨hsettles, hbounded, hall⟩
    obtain ⟨fuel, hreturn, hfine⟩ := hreturns.mpr ⟨hbounded, hall⟩
    exact ⟨fuel, hreturn, hfine, (hbalanced fuel hreturn).mpr hsettles⟩

section Programs

variable {answer : Device σ C}

/-- A last exchange, behind which the result is known. -/
theorem fuelled_last {α β : Type} {fine : Request C × Option Response → Prop} {x : Client σ C β} (hx : Grows x) (a : α) :
    Fuelled dataLength fine fun _ => x >>= fun _ => pure (some a) :=
  .const (hx.bind fun _ => grows_pure _) fun _ => Option.some_ne_none a

/-- A command is one exchange. -/
theorem grows_sendCommand (cc : C) (data : List UInt8) : Grows (sendCommand answer cc data) := grows_ask _ _

variable {fine : Request C × Option Response → Prop}

/-- A round of a read is one exchange. -/
theorem asks_readRound (ask : ℕ → Request C) (failed : Errs → Errs) (len : ℕ) (s : ℕ × List UInt8) :
    Asks dataLength (readRound (fun count => sendCommand answer (ask count).command (ask count).data) failed len s) :=
  Dialogue.asks_ask answer (ask s.1) _

/-- Reading asks in each round. -/
theorem fuelled_readLoop (ask : ℕ → Request C) (failed : Errs → Errs) (len count : ℕ) (buf : List UInt8) :
    Fuelled dataLength fine fun n => readLoop (fun count => sendCommand answer (ask count).command (ask count).data)
      failed len n count buf :=
  .asking (readLoop_isLoop _ failed len) (asks_readRound ask failed len) (count, buf)

/-- Reading asks for something at least. -/
theorem cost_readLoop_lt {ask : ℕ → Request C} {failed : Errs → Errs} {len n count : ℕ} {buf : List UInt8}
    {t : Session σ (Request C) (Option Response)}
    (hreturn : (readLoop (fun count => sendCommand answer (ask count).command (ask count).data)
      failed len n count buf t).1 ≠ none) :
    cost dataLength t < cost dataLength (readLoop (fun count => sendCommand answer (ask count).command
      (ask count).data) failed len n count buf t).2 :=
  (readLoop_isLoop (fun count => sendCommand answer (ask count).command (ask count).data) failed len).cost_lt
    (fun s => (asks_readRound ask failed len s).grows) (s := (count, buf)) rfl
    (Dialogue.cost_ask_lt answer (ask count) t) hreturn

/-- A copy from the device reads in each round, and so asks for something. -/
theorem fuelled_copyFromLoop {fread : ℕ → Client σ C (Option (Errs × ℕ × List UInt8))}
    (hfread : Fuelled dataLength fine fread)
    (hcost : ∀ n t, (fread n t).1 ≠ none → cost dataLength t < cost dataLength (fread n t).2) (cb : CpCallback)
    (calls total : ℕ) (op : List UInt8) :
    Fuelled dataLength fine fun n => copyFromLoop (fread n) cb n calls total op := by
  refine Fuelled.loop (fun n => copyFromLoop_isLoop (fread n) cb) (fun s => hfread.map (copyFromStep cb s))
    (fun _ => 0) (fun _ => True) (fun n s t s' _ _ hgo _ => ⟨trivial, hcost n t fun hnone => ?_⟩)
    (s := (calls, total, op)) trivial (Nat.zero_le 1)
  rw [copyFromRound, Dialogue.bind_apply, hnone] at hgo
  cases hgo

/-- A copy to the device writes something in every round but the last one. -/
theorem fuelled_copyToLoop {fwrite : ℕ → List UInt8 → Client σ C (Option (Errs × ℕ))}
    (hfwrite : ∀ buf, Fuelled dataLength fine fun n => fwrite n buf)
    (hcost : ∀ n buf t, buf ≠ [] → (fwrite n buf t).1 ≠ none →
      cost dataLength t < cost dataLength (fwrite n buf t).2)
    (cb : CpCallback) (res : Errs) (calls total : ℕ) (ip : List UInt8) :
    Fuelled dataLength fine fun n => copyToLoop (fwrite n) cb n res false calls total ip := by
  refine Fuelled.loop (fun n => copyToLoop_isLoop (fwrite n) cb)
    (fun s => (hfwrite _).map fun r => Sum.inl (copyToStep cb s r)) (fun s => if s.2.1 then 0 else 1) (fun _ => True)
    (fun n s t s' _ hover hgo _ => ⟨trivial, ?_⟩) (s := (res, false, calls, total, ip)) trivial (Nat.le_refl 1)
  have heof : s.2.1 = false := by
    by_contra heof
    rw [if_neg fun h => heof (by simpa using h.2)] at hover
    cases hover
  have hgrows : cost dataLength t ≤ cost dataLength (fwrite n (s.2.2.2.2.take RFSV_SENDLEN) t).2 :=
    Dialogue.cost_mono ((hfwrite _).grows n t)
  rw [copyToRound, Dialogue.bind_apply] at hgo ⊢
  cases hwritten : (fwrite n (s.2.2.2.2.take RFSV_SENDLEN) t).1 with
  | none =>
    rw [hwritten] at hgo
    cases hgo
  | some r =>
    rw [hwritten] at hgo
    obtain rfl : copyToStep cb s r = s' := Sum.inl.inj (Option.some.inj hgo)
    have hnext : (copyToStep cb s r).2.1 = decide (s.2.2.2.2.length < RFSV_SENDLEN) := by
      rw [copyToStep]
      dsimp only
      split <;> rfl
    rw [hnext, heof, if_neg Bool.false_ne_true, Dialogue.pure_apply]
    by_cases hempty : s.2.2.2.2 = []
    · rw [hempty] at hgrows ⊢
      rw [if_pos (by decide)]
      exact Nat.succ_le_succ hgrows
    · have htake : s.2.2.2.2.take RFSV_SENDLEN ≠ [] := fun h => by
        obtain hzero | hnil := List.take_eq_nil_iff.mp h
        · exact absurd hzero (by decide)
        · exact hempty hnil
      have hlt := hcost n _ t htake (by rw [hwritten]; exact Option.some_ne_none r)
      dsimp only
      split <;> omega

/-- How far a listing still gets with what was read. -/
def left {β : Type} (s : Errs × RFSVDirHandle × β) : ℕ := if s.1 = E_PSI_GEN_NONE then s.2.1.b.length + 1 else 0

/-- A listing takes entries of what was read, and asks for more when none is left. -/
theorem fuelled_dirLoop {readdir : RFSVDirHandle → PlpDirent → Client σ C (Errs × RFSVDirHandle × PlpDirent)}
    (ask : RFSVDirHandle → Request C) (entered : RFSVDirHandle → PlpDirent → Option Response →
      Errs × RFSVDirHandle × PlpDirent) {entry : RFSVDirHandle → PlpDirent → Errs × RFSVDirHandle × PlpDirent}
    (hreaddir : ∀ dH e, readdir dH e = if dH.b.length < 17 then do
        let r ← sendCommand answer (ask dH).command (ask dH).data
        return entered dH e r
      else return entry dH e) (inv : RFSVDirHandle → Prop)
    (hentered : ∀ dH e r, left (entered dH e r) ≤ dataLength r + 1 ∧
      (fine (ask dH, r) → (entered dH e r).1 = E_PSI_GEN_NONE → inv (entered dH e r).2.1))
    (hentry : ∀ dH e, 16 < dH.b.length → inv dH → left (entry dH e) ≤ dH.b.length ∧ inv (entry dH e).2.1)
    (res : Errs) {dH : RFSVDirHandle} (hempty : dH.b = []) (hinv : inv dH) :
    Fuelled dataLength fine fun n => dirLoop readdir n res dH [] := by
  have hgrows (dH : RFSVDirHandle) (e : PlpDirent) : Grows (readdir dH e) := by
    rw [hreaddir]
    split
    · exact (grows_sendCommand _ _).bind fun r => grows_pure _
    · exact grows_pure _
  refine Fuelled.loop (fun _ => dirLoop_isLoop readdir)
    (fun s => .const ((hgrows _ _).bind fun _ => grows_pure _) fun _ => Option.some_ne_none _)
    left (fun s => s.1 = E_PSI_GEN_NONE → inv s.2.1) (fun n s t s' hs hover hgo hfine => ?_)
    (s := (res, dH, [])) (fun _ => hinv) ?_
  · have hres : s.1 = E_PSI_GEN_NONE := by
      by_contra hres
      rw [if_neg hres] at hover
      cases hover
    have hnow : left s = s.2.1.b.length + 1 := if_pos hres
    rw [hnow]
    rw [dirRound, hreaddir] at hgo hfine ⊢
    by_cases hshort : s.2.1.b.length < 17
    · rw [if_pos hshort] at hgo hfine ⊢
      obtain rfl := Sum.inl.inj (Option.some.inj hgo)
      obtain ⟨hleft, hkept⟩ := hentered s.2.1 PlpDirent.new (answer t.server (ask s.2.1)).1
      refine ⟨hkept (hfine _ (List.mem_append_right _ (List.mem_singleton.mpr rfl))), ?_⟩
      have hcost : cost dataLength (sendCommand answer (ask s.2.1).command (ask s.2.1).data t).2 =
          cost dataLength t + (dataLength (answer t.server (ask s.2.1)).1 + 1) := Dialogue.cost_ask answer _ t
      have hless : cost dataLength t + left (entered s.2.1 PlpDirent.new (answer t.server (ask s.2.1)).1) + 1 ≤
          cost dataLength (sendCommand answer (ask s.2.1).command (ask s.2.1).data t).2 + (s.2.1.b.length + 1) := by
        omega
      exact hless
    · rw [if_neg hshort] at hgo hfine ⊢
      obtain rfl := Sum.inl.inj (Option.some.inj hgo)
      obtain ⟨hleft, hkept⟩ := hentry s.2.1 PlpDirent.new (by omega) (hs hres)
      exact ⟨fun _ => hkept, Nat.add_le_add_left (Nat.succ_le_succ hleft) _⟩
  · rw [left, hempty]
    split
    · exact Nat.le_refl 1
    · exact Nat.zero_le 1

end Programs

end RFSV

open RFSV

/-! ### SIBO -/

namespace RFSV16

/-- An answer that can be gone through. -/
def Fine (e : Request Commands × Option Response) : Prop :=
  ∀ a ∈ e.2, HasText a.status ∧ (a.status = E_PSI_GEN_NONE →
    match e.1.command with
    | .SIBO_FREAD => a.data.length ≤ getWord e.1.data 2
    | .SIBO_FDIRREAD => 2 ≤ a.data.length ∧ ∀ b ∈ fetch a.data, ∀ s ∈ records more size b.length b, 0 ∈ s.drop 16
    | _ => True)

variable {σ : Type}

section Programs

variable (answer : Device σ Commands)

/-- Opening is one exchange. -/
theorem grows_fopen (attr : ℕ) (name : List UInt8) (handle : ℕ) : Grows (fopen answer attr name handle) := by
  refine (grows_sendCommand _ _).bind fun r => ?_
  rcases r with _ | a
  · exact grows_pure _
  · dsimp only
    split <;> exact grows_pure _

/-- Closing is one exchange. -/
theorem grows_fclose (handle : ℕ) : Grows (fclose answer handle) := by
  refine (grows_sendCommand _ _).bind fun r => ?_
  rcases r with _ | a <;> exact grows_pure _

/-- Creating a file takes two exchanges at most. -/
theorem grows_createOrReplace (attr : ℕ) (name : List UInt8) (handle : ℕ) :
    Grows (createOrReplace answer attr name handle) := by
  refine (grows_fopen _ _ _ _).bind fun r => ?_
  dsimp only
  split
  · exact grows_fopen _ _ _ _
  · exact grows_pure _

/-- A read goes on the longer, the more fuel there is. -/
theorem fuelled_fread (handle len : ℕ) : Fuelled dataLength Fine fun n => fread answer n handle len := by
  simp only [fread, freadLoop_eq]
  exact fuelled_readLoop (freadRequest handle len) _ _ _ _

/-- A read that returns has asked for something. -/
theorem cost_fread_lt {n handle len : ℕ} {t : Session σ (Request Commands) (Option Response)}
    (hreturn : (fread answer n handle len t).1 ≠ none) :
    cost dataLength t < cost dataLength (fread answer n handle len t).2 := by
  rw [fread, freadLoop_eq] at hreturn ⊢
  exact cost_readLoop_lt hreturn

/-- A write goes on the longer, the more fuel there is. -/
theorem fuelled_fwrite (handle : ℕ) (buf : List UInt8) :
    Fuelled dataLength Fine fun n => fwrite answer n handle buf :=
  .asking (fwriteLoop_isLoop answer handle buf.length) (fun _ => Dialogue.asks_ask answer _ _)
    (E_PSI_GEN_NONE, 0, buf)

/-- A write of something that returns has sent something. -/
theorem cost_fwrite_lt {n handle : ℕ} {buf : List UInt8} {t : Session σ (Request Commands) (Option Response)}
    (hbuf : buf ≠ []) (hreturn : (fwrite answer n handle buf t).1 ≠ none) :
    cost dataLength t < cost dataLength (fwrite answer n handle buf t).2 := by
  have hgrows (s : Errs × ℕ × List UInt8) : Grows (fwriteRound answer handle buf.length s) :=
    (grows_sendCommand _ _).bind fun _ => grows_pure _
  exact (fwriteLoop_isLoop answer handle buf.length).cost_lt hgrows (s := (E_PSI_GEN_NONE, 0, buf))
    (if_pos (List.length_pos_iff.mpr hbuf)) (Dialogue.cost_ask_lt answer _ t) hreturn

/-- Of what was read an entry is taken, where there is one. -/
theorem left_nextEntry (res : Errs) (dH : RFSVDirHandle) (e : PlpDirent) :
    left (nextEntry res dH e) ≤ if dH.b.length < 17 then dH.b.length + 1 else dH.b.length := by
  rw [left, nextEntry]
  by_cases hmore : res = E_PSI_GEN_NONE ∧ dH.b.length > 16
  · rw [if_pos hmore, if_neg (Nat.not_lt.mpr hmore.2)]
    split
    · exact Nat.zero_le _
    · dsimp only
      rw [if_pos hmore.1, List.length_drop]
      omega
  · rw [if_neg hmore]
    dsimp only
    split
    · rename_i hres
      rw [if_pos (Nat.lt_of_not_ge fun hlong => hmore ⟨hres, hlong⟩)]
    · exact Nat.zero_le _

/-- What `readdir` does with an answer. -/
def entered (dH : RFSVDirHandle) (e : PlpDirent) : Option Response → Errs × RFSVDirHandle × PlpDirent
  | none => (E_PSI_FILE_DISC, { dH with b := wordBytes (dH.h &&& 0xffff : ℕ) }, e)
  | some a =>
    if a.status = E_PSI_GEN_NONE then
      if (a.data.drop 2).length ≠ getWord a.data 0 then (E_PSI_GEN_FAIL, { dH with b := a.data.drop 2 }, e)
      else nextEntry a.status { dH with b := a.data.drop 2 } e
    else nextEntry a.status { dH with b := a.data } e

/-- An entry is asked for where none is left. -/
theorem readdir_eq (dH : RFSVDirHandle) (e : PlpDirent) :
    readdir answer dH e = if dH.b.length < 17 then do
        let r ← sendCommand answer .SIBO_FDIRREAD (wordBytes (dH.h &&& 0xffff : ℕ))
        return entered dH e r
      else return nextEntry E_PSI_GEN_NONE dH e := by
  rw [readdir]
  congr 1
  congr 1
  funext r
  rcases r with _ | a
  · rfl
  · dsimp only
    rw [entered]
    split
    · split <;> rfl
    · rfl

/-- No more is left than was answered. -/
theorem left_entered (dH : RFSVDirHandle) (e : PlpDirent) (r : Option Response) :
    left (entered dH e r) ≤ dataLength r + 1 := by
  rcases r with _ | a
  · exact Nat.zero_le _
  · have hrest (res : Errs) (b : List UInt8) (hb : b.length ≤ a.data.length) :
        left (nextEntry res { dH with b := b } e) ≤ a.data.length + 1 := by
      have hleft := left_nextEntry res { dH with b := b } e
      dsimp only at hleft
      split at hleft <;> omega
    rw [entered]
    split
    · split
      · exact Nat.zero_le _
      · exact hrest _ _ (List.drop_sublist _ _).length_le
    · exact hrest _ _ (Nat.le_refl _)

/-- A listing goes on the longer, the more fuel there is. -/
theorem fuelled_dirLoop (res : Errs) (handle : ℕ) (name : List UInt8) :
    Fuelled dataLength Fine fun n => dirLoop (readdir answer) n res ⟨handle, [], name⟩ [] := by
  refine RFSV.fuelled_dirLoop (fun dH => ⟨.SIBO_FDIRREAD, wordBytes (dH.h &&& 0xffff : ℕ)⟩) entered
    (readdir_eq answer) (fun _ => True) (fun dH e r => ⟨left_entered dH e r, fun _ _ => trivial⟩)
    (fun dH e hlong _ => ⟨?_, trivial⟩) res rfl trivial
  have hleft := left_nextEntry E_PSI_GEN_NONE dH e
  rwa [if_neg (Nat.not_lt.mpr hlong)] at hleft

/-- The loop of a copy on the device asks in each round. -/
theorem fuelled_copyOnLoop (handle_from handle_to : ℕ) (cb : CpCallback) :
    Fuelled dataLength Fine fun n => copyOnLoop answer n handle_from handle_to cb n 0 0 := by
  refine Fuelled.loop (fun n => copyOnLoop_isLoop answer n handle_from handle_to cb) (fun s => ?_) (fun _ => 0)
    (fun _ => True) (fun n s t s' _ _ hgo _ => ⟨trivial, ?_⟩) (s := (0, 0)) trivial (Nat.zero_le 1)
  · refine (fuelled_fread answer handle_from RFSV_SENDLEN).andThen (fun _ => rfl) fun r => ?_
    exact .ite ((fuelled_fwrite answer handle_to _).map _) (.pure _)
  · rw [copyOnRound, Dialogue.bind_apply] at hgo ⊢
    cases hread : (fread answer n handle_from RFSV_SENDLEN t).1 with
    | none =>
      rw [hread] at hgo
      cases hgo
    | some r =>
      have hlt : cost dataLength t < cost dataLength (fread answer n handle_from RFSV_SENDLEN t).2 :=
        cost_fread_lt answer (by rw [hread]; exact Option.some_ne_none r)
      refine Nat.le_trans hlt (Dialogue.cost_mono ?_)
      dsimp only
      split
      · exact ((fuelled_fwrite answer handle_to _).grows n).bind (fun _ => grows_pure _) _
      · exact grows_pure _ _

/-- The loop of a copy from the device. -/
theorem fuelled_copyFrom (handle : ℕ) (cb : CpCallback) : Fuelled dataLength Fine fun n =>
    copyFromLoop (fread answer n handle RFSV_SENDLEN) cb n 0 0 [] :=
  fuelled_copyFromLoop (fuelled_fread answer handle RFSV_SENDLEN) (fun _ _ hreturn => cost_fread_lt answer hreturn)
    cb 0 0 []

/-- The loop of a copy to the device. -/
theorem fuelled_copyTo (handle : ℕ) (cb : CpCallback) (res : Errs) (ip : List UInt8) :
    Fuelled dataLength Fine fun n => copyToLoop (fwrite answer n handle) cb n res false 0 0 ip :=
  fuelled_copyToLoop (fuelled_fwrite answer handle)
    (fun _ _ _ hbuf hreturn => cost_fwrite_lt answer hbuf hreturn) cb res 0 0 ip

/-- Every call, with the more fuel, goes on the longer. -/
theorem fuelled_run (call : Call) : Fuelled dataLength Fine fun n => run answer n call := by
  cases call with
  | dir name uninit =>
    simp only [run, dir, opendir, fopendir, closedir, bind_assoc, pure_bind]
    refine .bind (grows_fopen answer _ _ _) fun r => ?_
    refine (fuelled_dirLoop answer r.1 r.2 name).andThen (fun _ => rfl) fun r => ?_
    exact fuelled_last (grows_fclose answer _) _
  | dircount name uninit count =>
    simp only [run, dircount, opendir, fopendir, closedir, bind_assoc, pure_bind]
    refine .bind (grows_fopen answer _ _ _) fun r => ?_
    refine (fuelled_dirLoop answer r.1 r.2 name).andThen (fun _ => rfl) fun r => ?_
    exact fuelled_last (grows_fclose answer _) _
  | copyFromPsion «from» writable cb uninit =>
    refine Fuelled.map (.bind (grows_fopen answer _ _ _) fun r => ?_) Prod.fst
    refine .ite (.pure _) (.ite (fuelled_last (grows_fclose answer _) _) ?_)
    refine (fuelled_copyFrom answer r.2 cb).andThen (fun _ => rfl) fun r => ?_
    exact fuelled_last (grows_fclose answer _) _
  | copyFromPsionFd «from» cb uninit =>
    refine Fuelled.map (.bind (grows_fopen answer _ _ _) fun r => ?_) Prod.fst
    refine .ite (.pure _) ?_
    refine (fuelled_copyFrom answer r.2 cb).andThen (fun _ => rfl) fun r => ?_
    exact fuelled_last (grows_fclose answer _) _
  | copyToPsion «from» «to» cb uninit =>
    cases «from» with
    | none => exact .pure _
    | some ip =>
      refine .bind (grows_createOrReplace answer _ _ _) fun r => ?_
      refine .ite (.pure _) ?_
      refine (fuelled_copyTo answer r.2 cb r.1 ip).andThen (fun _ => rfl) fun res => ?_
      exact fuelled_last (grows_fclose answer _) _
  | copyOnPsion «from» «to» cb uninitFrom uninitTo =>
    refine .bind (grows_fopen answer _ _ _) fun source => ?_
    refine .ite (.pure _) ?_
    refine .bind (grows_createOrReplace answer _ _ _) fun target => ?_
    refine .ite (.pure _) ?_
    refine (fuelled_copyOnLoop answer source.2 target.2 cb).andThen (fun _ => rfl) fun res => ?_
    exact .bind (grows_fclose answer _) fun _ => fuelled_last (grows_fclose answer _) _

end Programs

end RFSV16

/-! ### EPOC -/

namespace RFSV32

/-- What is read of a record is inside the answer: a count reads the fixed part, and a listing the long name
as well. -/
def RecordInside (call : Call) (s : List UInt8) : Prop :=
  match call with
  | .dircount .. => 36 ≤ s.length
  | _ => 36 + getDWord s 32 ≤ s.length

/-- An answer that can be gone through. -/
def Fine (call : Call) (e : Request Commands × Option Response) : Prop :=
  ∀ a ∈ e.2, HasText a.status ∧ (a.status = E_PSI_GEN_NONE →
    match e.1.command with
    | .READ_FILE => a.data.length ≤ getDWord e.1.data 4
    | .READ_DIR => ∀ s ∈ records more size a.data.length a.data, RecordInside call s ∧ 0 < recordLen s
    | .REMOTE_ENTRY => 32 ≤ a.data.length
    | _ => True)

variable {σ : Type}

section Programs

variable (answer : Device σ Commands)

/-- Opening is one exchange. -/
theorem grows_openWith (cc : Commands) (attr : ℕ) (name : List UInt8) (handle : ℕ) :
    Grows (openWith answer cc attr name handle) := by
  refine (grows_sendCommand _ _).bind fun r => ?_
  rcases r with _ | a
  · exact grows_pure _
  · dsimp only
    split <;> exact grows_pure _

/-- Closing is one exchange. -/
theorem grows_fclose (handle : ℕ) : Grows (fclose answer handle) := by
  refine (grows_sendCommand _ _).bind fun r => ?_
  rcases r with _ | a <;> exact grows_pure _

/-- Creating a file takes two exchanges at most. -/
theorem grows_createOrReplace (attr : ℕ) (name : List UInt8) (handle : ℕ) :
    Grows (createOrReplace answer attr name handle) := by
  refine (grows_openWith _ _ _ _ _).bind fun r => ?_
  dsimp only
  split
  · exact grows_openWith _ _ _ _ _
  · exact grows_pure _

/-- Looking up an entry is one exchange. -/
theorem grows_fgeteattr (name : List UInt8) (e : PlpDirent) : Grows (fgeteattr answer name e) := by
  refine (grows_sendCommand _ _).bind fun r => ?_
  rcases r with _ | a
  · exact grows_pure _
  · dsimp only
    split <;> exact grows_pure _

/-- Removing is one exchange. -/
theorem grows_remove (name : List UInt8) : Grows (remove answer name) := by
  refine (grows_sendCommand _ _).bind fun r => ?_
  rcases r with _ | a <;> exact grows_pure _

variable {fine : Request Commands × Option Response → Prop}

/-- A read goes on the longer, the more fuel there is. -/
theorem fuelled_fread (handle len : ℕ) : Fuelled dataLength fine fun n => fread answer n handle len := by
  simp only [fread, freadLoop_eq]
  exact fuelled_readLoop (freadRequest handle len) _ _ _ _

/-- A read that returns has asked for something. -/
theorem cost_fread_lt {n handle len : ℕ} {t : Session σ (Request Commands) (Option Response)}
    (hreturn : (fread answer n handle len t).1 ≠ none) :
    cost dataLength t < cost dataLength (fread answer n handle len t).2 := by
  rw [fread, freadLoop_eq] at hreturn ⊢
  exact cost_readLoop_lt hreturn

/-- A round of a write is one exchange, or the last one. -/
theorem asks_fwriteRound (handle len : ℕ) (s : Errs × ℕ × List UInt8) :
    Asks dataLength (fwriteRound answer handle len s) := by
  rw [fwriteRound]
  generalize (if len - s.2.1 > RFSV_SENDLEN then RFSV_SENDLEN else len - s.2.1) = l
  split
  · exact Dialogue.asks_ask answer _ _
  · exact Dialogue.asks_pure _

/-- A write goes on the longer, the more fuel there is. -/
theorem fuelled_fwrite (handle : ℕ) (buf : List UInt8) :
    Fuelled dataLength fine fun n => fwrite answer n handle buf :=
  .asking (fwriteLoop_isLoop answer handle buf.length) (asks_fwriteRound answer handle buf.length)
    (E_PSI_GEN_NONE, 0, buf)

/-- A write of something that returns has sent something. -/
theorem cost_fwrite_lt {n handle : ℕ} {buf : List UInt8} {t : Session σ (Request Commands) (Option Response)}
    (hbuf : buf ≠ []) (hreturn : (fwrite answer n handle buf t).1 ≠ none) :
    cost dataLength t < cost dataLength (fwrite answer n handle buf t).2 := by
  have hlength : 0 < buf.length := List.length_pos_iff.mpr hbuf
  have hsome : (if buf.length - 0 > RFSV_SENDLEN then RFSV_SENDLEN else buf.length - 0) > 0 := by
    split
    · decide
    · exact hlength
  refine (fwriteLoop_isLoop answer handle buf.length).cost_lt (fun s => (asks_fwriteRound answer _ _ s).grows)
    (s := (E_PSI_GEN_NONE, 0, buf)) rfl ?_ hreturn
  rw [fwriteRound, if_pos hsome]
  exact Dialogue.cost_ask_lt answer _ t

/-- The error is the one that there was before. -/
theorem nextEntry_fst (res : Errs) (dH : RFSVDirHandle) (e : PlpDirent) : (nextEntry res dH e).1 = res := by
  rw [nextEntry]
  split <;> rfl

/-- No more is left than there was. -/
theorem left_nextEntry_le (res : Errs) (dH : RFSVDirHandle) (e : PlpDirent) :
    left (nextEntry res dH e) ≤ dH.b.length + 1 := by
  have hlength : (nextEntry res dH e).2.1.b.length ≤ dH.b.length := by
    rw [nextEntry]
    split
    · dsimp only
      exact (List.drop_sublist _ _).length_le
    · exact Nat.le_refl _
  rw [left]
  split
  · exact Nat.succ_le_succ hlength
  · exact Nat.zero_le _

/-- Every record from there on has a length. -/
def Advances (b : List UInt8) : Prop := ∀ k, ∀ s ∈ records more size k b, 0 < size s

/-- The first record has a length. -/
theorem Advances.size_pos {b : List UInt8} (h : Advances b) (hmore : more b) : 0 < size b := by
  refine h 1 b ?_
  rw [records_of_more hmore]
  exact List.mem_cons_self

/-- The records behind the first one have lengths. -/
theorem Advances.drop {b : List UInt8} (h : Advances b) (hmore : more b) : Advances (b.drop (size b)) := by
  intro k s hs
  refine h (k + 1) s ?_
  rw [records_of_more hmore]
  exact List.mem_cons_of_mem _ hs

/-- The records behind an entry that is taken have lengths. -/
theorem Advances.nextEntry {dH : RFSVDirHandle} (h : Advances dH.b) (res : Errs) (e : PlpDirent) :
    Advances (nextEntry res dH e).2.1.b := by
  rw [RFSV32.nextEntry]
  split
  · rename_i hmore
    dsimp only
    exact h.drop hmore.2
  · exact h

/-- Something is taken with an entry. -/
theorem Advances.left_nextEntry {dH : RFSVDirHandle} (h : Advances dH.b) (hlong : 16 < dH.b.length) (e : PlpDirent) :
    left (RFSV32.nextEntry E_PSI_GEN_NONE dH e) ≤ dH.b.length := by
  have hpos : 0 < (recordLen dH.b).toNat := h.size_pos hlong
  rw [RFSV32.nextEntry, if_pos ⟨rfl, hlong⟩, left]
  dsimp only
  rw [if_pos rfl, List.length_drop]
  omega

/-- The records of an answer that can be gone through have lengths. -/
theorem Fine.advances {call : Call} {q : Request Commands} {a : Response} (h : Fine call (q, some a))
    (hq : q.command = .READ_DIR) (hstatus : a.status = E_PSI_GEN_NONE) : Advances a.data := by
  have hrecords := (h a rfl).2 hstatus
  rw [hq] at hrecords
  have hsize : ∀ s ∈ records more size a.data.length a.data, 0 < size s := fun s hs =>
    Int.lt_toNat.mpr (hrecords s hs).2
  exact fun k s hs => hsize s (mem_records_of_length_le (Nat.not_lt_zero 16) (Nat.le_refl _) hsize hs)

/-- What `readdir` does with an answer. -/
def entered (dH : RFSVDirHandle) (e : PlpDirent) : Option Response → Errs × RFSVDirHandle × PlpDirent
  | none => (E_PSI_FILE_DISC, { dH with b := dwordBytes dH.h }, e)
  | some a => nextEntry a.status { dH with b := a.data } e

/-- An entry is asked for where none is left. -/
theorem readdir_eq (dH : RFSVDirHandle) (e : PlpDirent) :
    readdir answer dH e = if dH.b.length < 17 then do
        let r ← sendCommand answer .READ_DIR (dwordBytes dH.h)
        return entered dH e r
      else return nextEntry E_PSI_GEN_NONE dH e := by
  rw [readdir]
  congr 1
  congr 1
  funext r
  cases r <;> rfl

/-- A listing goes on the longer, the more fuel there is. -/
theorem fuelled_dirLoop (call : Call) (res : Errs) (handle : ℕ) (name : List UInt8) :
    Fuelled dataLength (Fine call) fun n => dirLoop (readdir answer) n res ⟨handle, [], name⟩ [] := by
  refine RFSV.fuelled_dirLoop (fun dH => ⟨.READ_DIR, dwordBytes dH.h⟩) entered
    (readdir_eq answer) (fun dH => Advances dH.b) (fun dH e r => ?_)
    (fun dH e hlong hadv => ⟨hadv.left_nextEntry hlong e, hadv.nextEntry _ e⟩) res rfl ?_
  · cases r with
    | none =>
      have hdisc : E_PSI_FILE_DISC ≠ E_PSI_GEN_NONE := by decide
      exact ⟨Nat.zero_le _, fun _ h => absurd h hdisc⟩
    | some a =>
      refine ⟨left_nextEntry_le _ _ _, fun hfine hres => ?_⟩
      rw [entered, nextEntry_fst] at hres
      have hadv : Advances ({ dH with b := a.data } : RFSVDirHandle).b := hfine.advances rfl hres
      exact hadv.nextEntry _ e
  · intro k s hs
    rw [records_of_not_more (Nat.not_lt_zero 16)] at hs
    cases hs

/-- With more fuel the count is the same. -/
theorem countRecords_succ {fuel count c : ℕ} {b : List UInt8} (h : countRecords fuel b count = some c) :
    countRecords (fuel + 1) b count = some c := by
  induction fuel generalizing b count with
  | zero =>
    by_cases hmore : more b
    · have hnone : countRecords 0 b count = none := if_pos hmore
      exact absurd (hnone.symm.trans h) (Option.some_ne_none c).symm
    · rw [countRecords_of_not_more hmore] at h ⊢
      exact h
  | succ fuel ih =>
    by_cases hmore : more b
    · rw [countRecords_of_more hmore] at h ⊢
      exact ih h
    · rw [countRecords_of_not_more hmore] at h ⊢
      exact h

/-- With as much fuel as data there is a count. -/
theorem Advances.countRecords_ne_none {fuel : ℕ} {b : List UInt8} (h : Advances b) (hfuel : b.length ≤ fuel)
    (count : ℕ) : countRecords fuel b count ≠ none := by
  induction fuel generalizing b count with
  | zero =>
    have hmore : ¬more b := fun hmore => absurd (Nat.lt_of_lt_of_le hmore hfuel) (Nat.not_lt_zero 16)
    rw [countRecords_of_not_more hmore]
    exact Option.some_ne_none _
  | succ fuel ih =>
    by_cases hmore : more b
    · have hpos := h.size_pos hmore
      rw [countRecords_of_more hmore]
      refine ih (h.drop hmore) ?_ _
      rw [List.length_drop]
      omega
    · rw [countRecords_of_not_more hmore]
      exact Option.some_ne_none _

/-- With more fuel an answer is counted the same. -/
theorem dircountStep_succ {n count : ℕ} {r : Option Response} {out : ℕ ⊕ (Bool × Errs × ℕ)}
    (h : dircountStep n count r = some out) : dircountStep (n + 1) count r = some out := by
  rcases r with _ | a
  · exact h
  · rw [dircountStep] at h ⊢
    split at h
    · rw [if_pos ‹_›]
      exact h
    · obtain ⟨c, hc, rfl⟩ := Option.map_eq_some_iff.mp h
      rw [if_neg ‹_›, countRecords_succ hc]
      rfl

/-- Where the records of an answer are not counted, there is more data than fuel. -/
theorem length_of_dircountStep {call : Call} {handle n count : ℕ} {r : Option Response}
    (hfine : Fine call (⟨.READ_DIR, dwordBytes handle⟩, r)) (h : dircountStep n count r = none) :
    n < dataLength r := by
  rcases r with _ | a
  · cases h
  · rw [dircountStep] at h
    split at h
    · cases h
    · have hadv : Advances a.data := hfine.advances rfl (not_not.mp ‹_›)
      by_contra hle
      exact hadv.countRecords_ne_none (Nat.not_lt.mp hle) count (Option.map_eq_none_iff.mp h)

/-- A round of a count is one exchange, and the records of its answer. -/
theorem fuelled_dircountRound (call : Call) (handle count : ℕ) :
    Fuelled dataLength (Fine call) fun n => dircountRound answer n handle count where
  grows n := (grows_sendCommand _ _).bind fun _ => grows_pure _
  below n := by
    refine .bind_left _ fun r t => ?_
    cases hstep : dircountStep n count r with
    | none => exact .inr ⟨rfl, List.prefix_refl t.log⟩
    | some out => exact .inl (by rw [dircountStep_succ hstep])
  spent n t hnone hfine := by
    have hlast := hfine _ (List.mem_append_right _ (List.mem_singleton.mpr rfl))
    have hcost : cost dataLength (dircountRound answer n handle count t).2 =
        cost dataLength t + (dataLength (answer t.server ⟨.READ_DIR, dwordBytes handle⟩).1 + 1) :=
      Dialogue.cost_ask answer _ t
    have hstep : dircountStep n count (answer t.server ⟨.READ_DIR, dwordBytes handle⟩).1 = none := hnone
    have hle := length_of_dircountStep hlast hstep
    omega

/-- The loop of a count. -/
theorem fuelled_dircount (call : Call) (handle : ℕ) :
    Fuelled dataLength (Fine call) fun n => dircountLoop answer n handle n 0 :=
  .loop (fun n => dircountLoop_isLoop answer n handle) (fuelled_dircountRound answer call handle) (fun _ => 0)
    (fun _ => True) (fun _ _ t _ _ _ _ _ => ⟨trivial, Dialogue.cost_ask_lt answer _ t⟩) trivial (Nat.zero_le 1)

/-- The loop of a copy on the device asks in each round. -/
theorem fuelled_copyOnLoop (handle_from handle_to : ℕ) (cb : CpCallback) (res : Errs) :
    Fuelled dataLength fine fun n => copyOnLoop answer handle_from handle_to cb n 0 0 res :=
  .asking (copyOnLoop_isLoop answer handle_from handle_to cb) (fun _ => Dialogue.asks_ask answer _ _) (0, 0, res)

/-- The loop of a copy from the device. -/
theorem fuelled_copyFrom (handle : ℕ) (cb : CpCallback) : Fuelled dataLength fine fun n =>
    copyFromLoop (fread answer n handle RFSV_SENDLEN) cb n 0 0 [] :=
  fuelled_copyFromLoop (fuelled_fread answer handle RFSV_SENDLEN) (fun _ _ hreturn => cost_fread_lt answer hreturn)
    cb 0 0 []

/-- The loop of a copy to the device. -/
theorem fuelled_copyTo (handle : ℕ) (cb : CpCallback) (res : Errs) (ip : List UInt8) :
    Fuelled dataLength fine fun n => copyToLoop (fwrite answer n handle) cb n res false 0 0 ip :=
  fuelled_copyToLoop (fuelled_fwrite answer handle)
    (fun _ _ _ hbuf hreturn => cost_fwrite_lt answer hbuf hreturn) cb res 0 0 ip

/-- Every call, with the more fuel, goes on the longer. -/
theorem fuelled_run (call : Call) : Fuelled dataLength (Fine call) fun n => run answer n call := by
  cases call with
  | dir name uninit =>
    simp only [run, dir, opendir, fopendir, closedir, bind_assoc, pure_bind]
    refine .bind (grows_openWith answer _ _ _ _) fun r => ?_
    refine (fuelled_dirLoop answer _ r.1 r.2 name).andThen (fun _ => rfl) fun r => ?_
    exact fuelled_last (grows_fclose answer _) _
  | dircount name uninit count =>
    refine Fuelled.map (.bind (grows_openWith answer _ _ _ _) fun r => ?_) Prod.fst
    refine .ite (.pure _) ?_
    refine (fuelled_dircount answer _ r.2).andThen (fun _ => rfl) fun r => ?_
    exact .ite (.pure _) (fuelled_last (grows_fclose answer _) _)
  | copyFromPsion «from» writable cb uninit =>
    refine Fuelled.map (.bind (grows_openWith answer _ _ _ _) fun r => ?_) Prod.fst
    refine .ite (.pure _) (.ite (fuelled_last (grows_fclose answer _) _) ?_)
    refine (fuelled_copyFrom answer r.2 cb).andThen (fun _ => rfl) fun r => ?_
    exact fuelled_last (grows_fclose answer _) _
  | copyFromPsionFd «from» cb uninit =>
    refine Fuelled.map (.bind (grows_openWith answer _ _ _ _) fun r => ?_) Prod.fst
    refine .ite (.pure _) ?_
    refine (fuelled_copyFrom answer r.2 cb).andThen (fun _ => rfl) fun r => ?_
    exact fuelled_last (grows_fclose answer _) _
  | copyToPsion «from» «to» cb uninit =>
    cases «from» with
    | none => exact .pure _
    | some ip =>
      refine .bind (grows_createOrReplace answer _ _ _) fun r => ?_
      refine .ite (.pure _) ?_
      refine (fuelled_copyTo answer r.2 cb r.1 ip).andThen (fun _ => rfl) fun res => ?_
      exact fuelled_last (grows_fclose answer _) _
  | copyOnPsion «from» «to» cb uninitFrom uninitTo =>
    refine .bind (grows_fgeteattr answer _ _) fun entry => ?_
    refine .ite (.pure _) ?_
    refine .bind (grows_openWith answer _ _ _ _) fun source => ?_
    refine .ite (.pure _) ?_
    refine .bind (grows_createOrReplace answer _ _ _) fun target => ?_
    refine .ite (fuelled_last (grows_fclose answer _) _) ?_
    refine (fuelled_copyOnLoop answer source.2 target.2 cb target.1).andThen (fun _ => rfl) fun r => ?_
    refine .ite (.pure _) ?_
    refine .bind (grows_fclose answer _) fun _ => .bind (grows_fclose answer _) fun _ => ?_
    exact .ite (fuelled_last (grows_remove answer _) _) (.pure _)

end Programs

end RFSV32

namespace RFSV

/-- A device whose files can be read only. -/
def readOnly (d : Unit) (q : Request RFSV16.Commands) : Response × Unit :=
  if q = ⟨.SIBO_FOPEN, RFSV16.openData (RFSV16.P_FSHARE ||| RFSV16.P_FSTREAM) [0x4d]⟩ then
    (⟨E_PSI_GEN_NONE, wordBytes 7⟩, d)
  else (⟨E_PSI_GEN_FAIL, []⟩, d)

end RFSV

end Plptools
