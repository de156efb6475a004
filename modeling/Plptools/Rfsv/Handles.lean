import Plptools.Rfsv.Loops

/-!
# The handles of a call

A call that opens something on the device has to close it on every way out. What is opened and what
is closed can be read off the exchanges of the call: an answer to a request to open grants a handle
when it is a success and carries one. The loops of the calls neither open nor close.
-/

namespace Plptools

open Plptools.Library

open Dialogue (notes Silent)

open BufferStore (wordBytes dwordBytes)

namespace RFSV

/-- A call that lists or copies. What the local variables for the handles hold before they are set
is part of it. -/
inductive Call where
  | dir (name : List UInt8) (uninit : ℕ)
  | dircount (name : List UInt8) (uninit count : ℕ)
  | copyFromPsion («from» : List UInt8) (writable : Bool) (cb : CpCallback) (uninit : ℕ)
  | copyFromPsionFd («from» : List UInt8) (cb : CpCallback) (uninit : ℕ)
  | copyToPsion («from» : Option (List UInt8)) («to» : List UInt8) (cb : CpCallback) (uninit : ℕ)
  | copyOnPsion («from» «to» : List UInt8) (cb : CpCallback) (uninitFrom uninitTo : ℕ)

/-- How the requests of a protocol use handles: which ones open something, which one closes, how a
handle is read, and how the one to be closed is sent. -/
structure Handles (C : Type) where
  opens : C → Bool
  closes : C → Bool
  carries : List UInt8 → Bool
  handle : List UInt8 → ℕ
  close : ℕ → List UInt8
  handle_close : ∀ data, handle (close (handle data)) = handle data

variable {σ C : Type} {E : Type}

/-- The handle that the device sees when `h` is closed. -/
def Handles.closed (H : Handles C) (h : ℕ) : ℕ := H.handle (H.close h)

/-- The answer to a request to open grants a handle. -/
def Handles.Granted (H : Handles C) (a : Response) : Prop :=
  a.status = E_PSI_GEN_NONE ∧ H.carries a.data = true

instance (H : Handles C) (a : Response) : Decidable (H.Granted a) :=
  inferInstanceAs (Decidable (_ ∧ _))

/-- The answer is an error, or it grants a handle. -/
def Handles.Sound (H : Handles C) (a : Response) : Prop :=
  a.status = E_PSI_GEN_NONE → H.carries a.data = true

/-- The handle that is granted, if there is one. -/
def Handles.grant (H : Handles C) (a : Response) : List ℕ :=
  if H.Granted a then [H.handle a.data] else []

/-- What an exchange does to the handles. -/
def Handles.use (H : Handles C) (e : Request C × Option Response) : Option (Use ℕ) :=
  if H.opens e.1.command then (e.2.toList.flatMap H.grant).head?.map .acquire
  else if H.closes e.1.command then some (.release (H.handle e.1.data))
  else none

section Grants

variable {H : Handles C} {a b : Response}

/-- The handle that was granted. -/
theorem grant_of_granted (h : H.Granted a) : H.grant a = [H.handle a.data] := if_pos h

/-- No handle was granted. -/
theorem grant_of_not_granted (h : ¬H.Granted a) : H.grant a = [] := if_neg h

/-- An error grants nothing. -/
theorem not_granted_of_error (h : a.status ≠ E_PSI_GEN_NONE) : ¬H.Granted a := fun hgranted =>
  h hgranted.1

/-- A success is a grant exactly when it is sound. -/
theorem granted_iff_sound (h : a.status = E_PSI_GEN_NONE) : H.Granted a ↔ H.Sound a := by
  simp [Handles.Granted, Handles.Sound, h]

/-- One handle is granted, or none. -/
theorem length_grant (a : Response) : (H.grant a).length = if H.Granted a then 1 else 0 := by
  rw [Handles.grant]
  split <;> rfl

/-- A request to open, and its answer. -/
theorem use_of_opens {q : Request C} (h : H.opens q.command = true) (a : Response) :
    (H.use (q, some a)).toList = (H.grant a).map .acquire := by
  rw [Handles.use, if_pos h, Handles.grant]
  split <;> simp [Handles.grant, *]

/-- Nothing is closed after one opening. -/
theorem nil_perm_grant_iff : [].Perm (H.grant a) ↔ ¬H.Granted a := by
  rw [List.nil_perm, Handles.grant]
  split <;> simp [*]

/-- One handle is closed after one opening. -/
theorem perm_grant_iff {h : ℕ} (hh : H.Granted a → h = H.handle a.data) :
    [H.closed h].Perm (H.grant a) ↔ H.Granted a := by
  by_cases hgranted : H.Granted a
  · simp [grant_of_granted hgranted, hh hgranted, Handles.closed, H.handle_close, hgranted]
  · simp [grant_of_not_granted hgranted, hgranted]

/-- Two handles are closed after two openings. -/
theorem perm_grants_iff {h k : ℕ} (hh : H.Granted a → h = H.handle a.data)
    (hk : H.Granted b → k = H.handle b.data) :
    [H.closed h, H.closed k].Perm (H.grant a ++ H.grant b) ↔ H.Granted a ∧ H.Granted b := by
  constructor
  · intro hperm
    have hlength := hperm.length_eq
    simp only [List.length_append, length_grant, List.length_cons, List.length_nil] at hlength
    by_cases ha : H.Granted a <;> by_cases hb : H.Granted b <;> simp_all
  · rintro ⟨ha, hb⟩
    rw [grant_of_granted ha, grant_of_granted hb, hh ha, hk hb, Handles.closed, H.handle_close,
      Handles.closed, H.handle_close]
    exact List.Perm.refl _

end Grants

section Loops

variable {note : Request C × Option Response → Option E}

/-- A command whose exchanges do not matter. -/
theorem silent_sendCommand {answer : Device σ C} {cc : C} {data : List UInt8}
    (h : ∀ r, note (⟨cc, data⟩, r) = none) : Silent note (sendCommand answer cc data) :=
  Dialogue.silent_ask h

/-- A listing that reads entries silently. -/
theorem silent_dirLoop
    {readdir : RFSVDirHandle → PlpDirent → Client σ C (Errs × RFSVDirHandle × PlpDirent)}
    (h : ∀ dH e, Silent note (readdir dH e)) (fuel : ℕ) (res : Errs) (dH : RFSVDirHandle)
    (files : List PlpDirent) : Silent note (dirLoop readdir fuel res dH files) :=
  (dirLoop_isLoop readdir).silent (fun _ => (h _ _).bind fun _ => Dialogue.silent_pure _) fuel (res, dH, files)

/-- A copy that reads silently. -/
theorem silent_copyFromLoop {fread : Client σ C (Option (Errs × ℕ × List UInt8))}
    (h : Silent note fread) (cb : CpCallback) (fuel calls total : ℕ) (op : List UInt8) :
    Silent note (copyFromLoop fread cb fuel calls total op) :=
  (copyFromLoop_isLoop fread cb).silent (fun _ => h.bind fun _ => Dialogue.silent_pure _) fuel (calls, total, op)

/-- A copy that writes silently. -/
theorem silent_copyToLoop {fwrite : List UInt8 → Client σ C (Option (Errs × ℕ))}
    (h : ∀ buf, Silent note (fwrite buf)) (cb : CpCallback) (fuel : ℕ) (res : Errs) (eof : Bool)
    (calls total : ℕ) (ip : List UInt8) :
    Silent note (copyToLoop fwrite cb fuel res eof calls total ip) :=
  (copyToLoop_isLoop fwrite cb).silent (fun _ => (h _).bind fun _ => Dialogue.silent_pure _) fuel
    (res, eof, calls, total, ip)

/-- Reading by requests that are not noted. -/
theorem silent_readLoop {answer : Device σ C} {ask : ℕ → Request C} (h : ∀ count r, note (ask count, r) = none)
    (failed : Errs → Errs) (len fuel count : ℕ) (buf : List UInt8) :
    Silent note (readLoop (fun count => sendCommand answer (ask count).command (ask count).data) failed len fuel
      count buf) :=
  (readLoop_isLoop _ failed len).silent
    (fun s => (silent_sendCommand (h s.1)).bind fun _ => Dialogue.silent_pure _) fuel (count, buf)

/-- The loop over a directory keeps its handle. -/
theorem dirLoop_handle
    {readdir : RFSVDirHandle → PlpDirent → Client σ C (Errs × RFSVDirHandle × PlpDirent)}
    (h : ∀ dH e s, (readdir dH e s).1.2.1.h = dH.h) {fuel : ℕ} {res : Errs} {dH : RFSVDirHandle}
    {files : List PlpDirent} {s : Session σ (Request C) (Option Response)}
    {out : Errs × RFSVDirHandle × List PlpDirent}
    (hout : (dirLoop readdir fuel res dH files s).1 = some out) : out.2.1.h = dH.h := by
  induction fuel generalizing res dH files s with
  | zero =>
    rw [dirLoop] at hout
    split at hout
    · cases hout
    · obtain rfl := Option.some.inj hout
      rfl
  | succ fuel ih =>
    rw [dirLoop] at hout
    split at hout
    · exact (ih hout).trans (h _ _ _)
    · obtain rfl := Option.some.inj hout
      rfl

end Loops

/-- A program that opens something: `a` is the answer that decides, `d` the device afterwards. -/
structure Handles.Opens (H : Handles C) (x : Client σ C (Errs × ℕ))
    (s : Session σ (Request C) (Option Response)) (a : Response) (d : σ) : Prop where
  status : (x s).1.1 = a.status
  handle : H.Granted a → (x s).1.2 = H.handle a.data
  server : (x s).2.server = d
  notes : notes H.use (x s).2 = notes H.use s ++ (H.grant a).map .acquire

/-- A program that closes a handle. -/
def Handles.Closes (H : Handles C) (x : ℕ → Client σ C Errs) : Prop :=
  ∀ h s, notes H.use (x h s).2 = notes H.use s ++ [.release (H.closed h)]

/-- A program that closes some handles before it returns, and opens and closes nothing else. -/
def Handles.Ends (H : Handles C) (left : List ℕ) {α : Type} (x : Client σ C (Option α)) : Prop :=
  ∀ s, (x s).1.isSome → notes H.use (x s).2 = notes H.use s ++ (left.map H.closed).map .release

section Programs

variable {H : Handles C} {left : List ℕ} {α β : Type}

/-- A program that opens and closes nothing leaves nothing to close. -/
theorem Handles.Ends.of_silent {x : Client σ C (Option α)} (h : Silent H.use x) : H.Ends [] x := by
  intro s _
  rw [h s]
  exact (List.append_nil _).symm

/-- Closing one more handle before. -/
theorem Handles.Ends.closing {fclose : ℕ → Client σ C Errs} (hfclose : H.Closes fclose) (h : ℕ)
    {x : Client σ C (Option α)} (hx : H.Ends left x) : H.Ends (h :: left) (do
      let _ ← fclose h
      x) := by
  intro s hreturn
  rw [Dialogue.bind_apply] at hreturn ⊢
  rw [hx _ hreturn, hfclose h s, List.append_assoc]
  rfl

/-- Closing at last. -/
theorem Handles.Closes.ends {fclose : ℕ → Client σ C Errs} (hfclose : H.Closes fclose) (h : ℕ)
    (a : α) : H.Ends [h] (do
      let _ ← fclose h
      return some a) :=
  (Handles.Ends.of_silent (Dialogue.silent_pure _)).closing hfclose h

/-- A loop, and then closing if the loop has returned. -/
theorem Handles.Ends.after {loop : Client σ C (Option β)}
    {f : Option β → Client σ C (Option α)} (hloop : Silent H.use loop) (hnone : f none = pure none)
    (hf : ∀ b s, (loop s).1 = some b → H.Ends left (f (some b))) : H.Ends left (loop >>= f) := by
  intro s hreturn
  rw [Dialogue.bind_apply] at hreturn ⊢
  rw [← hloop s]
  rcases hb : (loop s).1 with _ | b
  · rw [hb, hnone] at hreturn
    cases hreturn
  · rw [hb] at hreturn
    exact hf b s hb _ hreturn

/-- What is opened is closed on every way. -/
theorem balanced_iff_granted {x : Client σ C (Errs × ℕ)} {d e : σ} {a : Response}
    (hopens : H.Opens x ⟨d, []⟩ a e) {rest : Errs × ℕ → Client σ C (Option α)}
    (hrest : ∀ res h, H.Ends [h] (rest (res, h)))
    (hreturn : ((x >>= rest) ⟨d, []⟩).1.isSome) :
    Use.Balanced (notes H.use ((x >>= rest) ⟨d, []⟩).2) ↔ H.Granted a := by
  have hnotes := hrest _ _ _ hreturn
  rw [hopens.notes] at hnotes
  rw [← perm_grant_iff hopens.handle, ← Use.balanced_iff_perm]
  exact hnotes ▸ Iff.rfl

/-- A call that is over when its first opening is refused. -/
theorem balanced_unless_refused {x : Client σ C (Errs × ℕ)} {a : Response} {e : σ} {P : Prop}
    {s : Session σ (Request C) (Option Response)} (hs : notes H.use s = [])
    (hopens : H.Opens x s a e) {rest : Errs × ℕ → Client σ C (Option α)}
    (hrefused : ∀ res h, res ≠ E_PSI_GEN_NONE → Silent H.use (rest (res, h)))
    (hrest : ∀ h s, s.server = e → notes H.use s = (H.grant a).map .acquire →
      (H.Granted a → h = H.handle a.data) → (rest (E_PSI_GEN_NONE, h) s).1.isSome →
      (Use.Balanced (notes H.use (rest (E_PSI_GEN_NONE, h) s).2) ↔ P))
    (hreturn : ((x >>= rest) s).1.isSome) :
    Use.Balanced (notes H.use ((x >>= rest) s).2) ↔ (a.status = E_PSI_GEN_NONE → P) := by
  obtain ⟨hstatus, hhandle, hserver, hnotes⟩ := hopens
  rw [Dialogue.bind_apply] at hreturn ⊢
  rw [hs, List.nil_append] at hnotes
  generalize x s = opened at *
  obtain ⟨⟨res, h⟩, s'⟩ := opened
  dsimp only at *
  by_cases hres : res = E_PSI_GEN_NONE
  · subst hres
    rw [hrest h s' hserver hnotes hhandle hreturn]
    simp [← hstatus]
  · have herror : a.status ≠ E_PSI_GEN_NONE := hstatus ▸ hres
    have hgrant : H.grant a = [] := grant_of_not_granted (not_granted_of_error herror)
    rw [hrefused res h hres s', hnotes, hgrant]
    exact iff_of_true (Use.balanced_of_perm (List.Perm.refl [])) fun h => absurd h herror

/-- What is opened is closed unless the opening was refused. -/
theorem balanced_iff_sound {x : Client σ C (Errs × ℕ)} {d e : σ} {a : Response}
    (hopens : H.Opens x ⟨d, []⟩ a e) {rest : Errs × ℕ → Client σ C (Option α)}
    (hrest : ∀ h, H.Ends [h] (rest (E_PSI_GEN_NONE, h)))
    (hrefused : ∀ res h, res ≠ E_PSI_GEN_NONE → Silent H.use (rest (res, h)))
    (hreturn : ((x >>= rest) ⟨d, []⟩).1.isSome) :
    Use.Balanced (notes H.use ((x >>= rest) ⟨d, []⟩).2) ↔ H.Sound a := by
  have hbalanced := balanced_unless_refused (P := H.Granted a) rfl hopens hrefused
    (fun h s _ hnotes hhandle hreturn => by
      rw [hrest h s hreturn, hnotes, ← perm_grant_iff hhandle]
      exact Use.balanced_iff_perm) hreturn
  rw [hbalanced]
  exact forall_congr' granted_iff_sound |>.trans ⟨fun h ha => h ha ha, fun h _ => h⟩

/-- The second opening of a copy: what is closed then depends on whether it was refused. -/
theorem balanced_iff_both (left : List ℕ) {y : Client σ C (Errs × ℕ)} {a b : Response} {e : σ} {h : ℕ}
    {s : Session σ (Request C) (Option Response)} (hs : notes H.use s = (H.grant a).map .acquire)
    (hhandle : H.Granted a → h = H.handle a.data) (hopens : H.Opens y s b e)
    {rest : Errs × ℕ → Client σ C (Option α)}
    (hrest : ∀ k, H.Ends [h, k] (rest (E_PSI_GEN_NONE, k)))
    (hrefused : ∀ res k, res ≠ E_PSI_GEN_NONE → H.Ends left (rest (res, k)))
    (hreturn : ((y >>= rest) s).1.isSome) :
    Use.Balanced (notes H.use ((y >>= rest) s).2) ↔
      if b.status = E_PSI_GEN_NONE then H.Granted a ∧ H.Granted b
      else (left.map H.closed).Perm (H.grant a) := by
  obtain ⟨hstatus, hhandle', -, hnotes⟩ := hopens
  rw [Dialogue.bind_apply] at hreturn ⊢
  rw [hs] at hnotes
  generalize y s = opened at *
  obtain ⟨⟨res, k⟩, s'⟩ := opened
  dsimp only at *
  by_cases hres : res = E_PSI_GEN_NONE
  · subst hres
    rw [if_pos hstatus.symm, hrest k s' hreturn, hnotes, ← perm_grants_iff hhandle hhandle',
      ← List.map_append]
    exact Use.balanced_iff_perm
  · have herror : b.status ≠ E_PSI_GEN_NONE := hstatus ▸ hres
    have hgrant : H.grant b = [] := grant_of_not_granted (not_granted_of_error herror)
    rw [if_neg herror, hrefused res k hres s' hreturn, hnotes, hgrant, List.map_nil,
      List.append_nil]
    exact Use.balanced_iff_perm

end Programs

/-- A second try, if the first one is refused. -/
theorem Handles.Opens.orElse {H : Handles C} {first second : ℕ → Client σ C (Errs × ℕ)}
    {s : Session σ (Request C) (Option Response)} {handle : ℕ} {a b : Response} {d e : σ}
    (hfirst : H.Opens (first handle) s a d)
    (hsecond : ∀ handle s, s.server = d → H.Opens (second handle) s b e) :
    H.Opens (do
      let (res, handle) ← first handle
      if res ≠ E_PSI_GEN_NONE then second handle else return (res, handle)) s
      (if a.status = E_PSI_GEN_NONE then a else b) (if a.status = E_PSI_GEN_NONE then d else e) := by
  obtain ⟨hstatus, hhandle, hserver, hnotes⟩ := hfirst
  by_cases h : a.status = E_PSI_GEN_NONE
  · constructor <;> simp_all
  · have hgrant : H.grant a = [] := grant_of_not_granted (not_granted_of_error h)
    obtain ⟨hstatus', hhandle', hserver', hnotes'⟩ := hsecond (first handle s).1.2 _ hserver
    constructor <;> simp_all

end RFSV

namespace RFSV16

open RFSV

/-- A success carries a word, and a handle is closed by its word. -/
def handles : Handles Commands where
  opens cc := cc == .SIBO_FOPEN
  closes cc := cc == .SIBO_FCLOSE
  carries data := 2 ≤ data.length
  handle data := getWord data 0
  close h := wordBytes h
  handle_close data := getWord_wordBytes (getWord_lt data 0)

variable {σ : Type}

section Loops

variable (answer : Device σ Commands)

/-- Reading an entry neither opens nor closes. -/
theorem silent_readdir (dH : RFSVDirHandle) (e : PlpDirent) :
    Silent handles.use (readdir answer dH e) := by
  unfold readdir
  split
  · refine (silent_sendCommand fun _ => rfl).bind fun r => ?_
    rcases r with _ | a
    · exact Dialogue.silent_pure _
    · dsimp only
      split
      · split <;> exact Dialogue.silent_pure _
      · exact Dialogue.silent_pure _
  · exact Dialogue.silent_pure _

/-- Reading neither opens nor closes. -/
theorem silent_freadLoop (handle len fuel count : ℕ) (buf : List UInt8) :
    Silent handles.use (freadLoop answer handle len fuel count buf) := by
  rw [freadLoop_eq]
  exact silent_readLoop (fun _ _ => rfl) _ _ _ _ _

/-- Writing neither opens nor closes. -/
theorem silent_fwriteLoop (handle len fuel : ℕ) (res : Errs) (count : ℕ) (p : List UInt8) :
    Silent handles.use (fwriteLoop answer handle len fuel res count p) :=
  (fwriteLoop_isLoop answer handle len).silent
    (fun _ => (silent_sendCommand fun _ => rfl).bind fun _ => Dialogue.silent_pure _) fuel (res, count, p)

/-- Copying neither opens nor closes. -/
theorem silent_copyOnLoop (inner handle_from handle_to : ℕ) (cb : CpCallback)
    (fuel calls total : ℕ) :
    Silent handles.use (copyOnLoop answer inner handle_from handle_to cb fuel calls total) := by
  refine (copyOnLoop_isLoop answer inner handle_from handle_to cb).silent (fun s => ?_) fuel (calls, total)
  apply (silent_freadLoop answer _ _ _ _ _).bind
  intro r
  rcases r with _ | ⟨res, len, buf⟩
  · exact Dialogue.silent_pure _
  · dsimp only
    split
    · exact (silent_fwriteLoop answer _ _ _ _ _ _).bind fun _ => Dialogue.silent_pure _
    · exact Dialogue.silent_pure _

/-- Reading a directory keeps its handle. -/
theorem readdir_handle (dH : RFSVDirHandle) (e : PlpDirent)
    (s : Session σ (Request Commands) (Option Response)) :
    (readdir answer dH e s).1.2.1.h = dH.h := by
  have hnext : ∀ res (dH : RFSVDirHandle) e, (nextEntry res dH e).2.1.h = dH.h := by
    intro res dH e
    unfold nextEntry
    split
    · split <;> rfl
    · rfl
  unfold readdir
  split
  · rw [Dialogue.bind_apply]
    rcases (sendCommand answer .SIBO_FDIRREAD (wordBytes (dH.h &&& 0xffff : ℕ)) s).1 with _ | a
    · rfl
    · dsimp only
      split
      · split
        · rfl
        · exact hnext _ _ _
      · exact hnext _ _ _
  · exact hnext _ _ _

end Loops

section Calls

variable {answer : σ → Request Commands → Response × σ}

/-- How the device answers a request to open something. -/
def opened (answer : σ → Request Commands → Response × σ) (d : σ) (attr : ℕ) (name : List UInt8) :
    Response × σ :=
  answer d ⟨.SIBO_FOPEN, openData attr name⟩

/-- How the device answers when the target of a copy is opened: the last answer counts. -/
def target (answer : σ → Request Commands → Response × σ) (d : σ) (name : List UInt8) :
    Response × σ :=
  let created := opened answer d ((P_FSTREAM ||| P_FUPDATE) ||| P_FCREATE) name
  if created.1.status = E_PSI_GEN_NONE then created
  else opened answer created.2 ((P_FSTREAM ||| P_FUPDATE) ||| P_FREPLACE) name

/-- Opening opens what it is answered. -/
theorem fopen_opens (attr : ℕ) (name : List UInt8) (handle : ℕ) {d : σ}
    {s : Session σ (Request Commands) (Option Response)} (h : s.server = d) :
    handles.Opens (fopen (up answer) attr name handle) s (opened answer d attr name).1
      (opened answer d attr name).2 := by
  subst h
  generalize hopened : opened answer s.server attr name = opened
  have hopen := fopen_up hopened handle
  constructor
  · rw [hopen]
    dsimp only
    split <;> simp [*]
  · intro hgranted
    rw [hopen]
    simp [hgranted.1, handles]
  · rw [hopen]
  · rw [hopen, Dialogue.notes_log, use_of_opens rfl]
    rfl

/-- Closing closes the handle. -/
theorem fclose_closes : handles.Closes (fclose (up answer)) := by
  intro h s
  rw [fclose_up rfl, Dialogue.notes_log]
  rfl

/-- Creating a file opens what it is answered in the end. -/
theorem createOrReplace_opens (name : List UInt8) (handle : ℕ) {d : σ}
    {s : Session σ (Request Commands) (Option Response)} (h : s.server = d) :
    handles.Opens (createOrReplace (up answer) (P_FSTREAM ||| P_FUPDATE) name handle) s
      (target answer d name).1 (target answer d name).2 := by
  unfold target
  rw [apply_ite Prod.fst, apply_ite Prod.snd]
  exact (fopen_opens _ name handle h).orElse fun handle _ => fopen_opens _ name handle

/-- A listing closes what it opened just when it was granted the directory. -/
theorem dir_balanced {fuel : ℕ} {name : List UInt8} {uninit : ℕ} {d : σ}
    (hreturn : (dir (up answer) fuel name uninit ⟨d, []⟩).1.isSome) :
    Use.Balanced (notes handles.use (dir (up answer) fuel name uninit ⟨d, []⟩).2) ↔
      handles.Granted (opened answer d P_FDIR name).1 := by
  simp only [dir, opendir, fopendir, bind_assoc, pure_bind] at hreturn ⊢
  refine balanced_iff_granted (fopen_opens P_FDIR name uninit rfl) (fun res h => ?_) hreturn
  refine Handles.Ends.after (silent_dirLoop (silent_readdir _) _ _ _ _) rfl ?_
  rintro ⟨res', dH, files⟩ s hb
  have hkeep : dH.h = h := dirLoop_handle (readdir_handle _) hb
  exact hkeep ▸ fclose_closes.ends _ _

/-- A count closes what it opened just when its opening was answered so. -/
theorem dircount_balanced {fuel : ℕ} {name : List UInt8} {uninit count : ℕ} {d : σ}
    (hreturn : (dircount (up answer) fuel name uninit count ⟨d, []⟩).1.isSome) :
    Use.Balanced (notes handles.use (dircount (up answer) fuel name uninit count ⟨d, []⟩).2) ↔
      handles.Granted (opened answer d P_FDIR name).1 := by
  simp only [dircount, opendir, fopendir, bind_assoc, pure_bind] at hreturn ⊢
  refine balanced_iff_granted (fopen_opens P_FDIR name uninit rfl) (fun res h => ?_) hreturn
  refine Handles.Ends.after (silent_dirLoop (silent_readdir _) _ _ _ _) rfl ?_
  rintro ⟨res', dH, files⟩ s hb
  have hkeep : dH.h = h := dirLoop_handle (readdir_handle _) hb
  exact hkeep ▸ fclose_closes.ends _ _

/-- The copy loop, and then closing. -/
theorem copyFromLoop_ends (fuel : ℕ) (cb : CpCallback) (h : ℕ) :
    handles.Ends [h] (do
      let some (res, op) ← copyFromLoop (fread (up answer) fuel h RFSV_SENDLEN) cb fuel 0 0 []
        | return none
      let _ ← fclose (up answer) h
      return some (unlessEof res, op)) :=
  Handles.Ends.after (silent_copyFromLoop (silent_freadLoop _ _ _ _ _ _) _ _ _ _ _) rfl
    fun _ _ _ => fclose_closes.ends _ _

/-- A copy from the device closes what it opened unless it was given no handle. -/
theorem copyFromPsion_balanced {fuel : ℕ} {«from» : List UInt8} {writable : Bool}
    {cb : CpCallback} {uninit : ℕ} {d : σ}
    (hreturn : (copyFromPsion (up answer) fuel «from» writable cb uninit ⟨d, []⟩).1.isSome) :
    Use.Balanced (notes handles.use
        (copyFromPsion (up answer) fuel «from» writable cb uninit ⟨d, []⟩).2) ↔
      handles.Sound (opened answer d (P_FSHARE ||| P_FSTREAM) «from»).1 := by
  refine balanced_iff_sound (fopen_opens _ «from» uninit rfl) (fun h => ?_) (fun res h hres => ?_)
    hreturn
  · simp only [ne_eq, not_true_eq_false, if_false]
    split
    · exact fclose_closes.ends _ _
    · exact copyFromLoop_ends fuel cb h
  · simp only [if_pos hres]
    exact Dialogue.silent_pure _

/-- The same for the other overload. -/
theorem copyFromPsionFd_balanced {fuel : ℕ} {«from» : List UInt8} {cb : CpCallback} {uninit : ℕ}
    {d : σ} (hreturn : (copyFromPsionFd (up answer) fuel «from» cb uninit ⟨d, []⟩).1.isSome) :
    Use.Balanced (notes handles.use (copyFromPsionFd (up answer) fuel «from» cb uninit ⟨d, []⟩).2) ↔
      handles.Sound (opened answer d (P_FSHARE ||| P_FSTREAM) «from»).1 := by
  refine balanced_iff_sound (fopen_opens _ «from» uninit rfl) (fun h => ?_) (fun res h hres => ?_)
    hreturn
  · exact copyFromLoop_ends fuel cb h
  · simp only [if_pos hres]
    exact Dialogue.silent_pure _

/-- A copy to the device closes what it opened unless it was given no handle. -/
theorem copyToPsion_balanced {fuel : ℕ} {ip «to» : List UInt8} {cb : CpCallback} {uninit : ℕ}
    {d : σ} (hreturn : (copyToPsion (up answer) fuel (some ip) «to» cb uninit ⟨d, []⟩).1.isSome) :
    Use.Balanced (notes handles.use
        (copyToPsion (up answer) fuel (some ip) «to» cb uninit ⟨d, []⟩).2) ↔
      handles.Sound (target answer d «to»).1 := by
  refine balanced_iff_sound (createOrReplace_opens «to» uninit rfl) (fun h => ?_)
    (fun res h hres => ?_) hreturn
  · exact Handles.Ends.after
      (silent_copyToLoop (fun _ => silent_fwriteLoop _ _ _ _ _ _ _) _ _ _ _ _ _ _) rfl
      fun _ _ _ => fclose_closes.ends _ _
  · simp only [if_pos hres]
    exact Dialogue.silent_pure _

/-- A copy on the device closes what it opened just when both openings were answered so. -/
theorem copyOnPsion_balanced {fuel : ℕ} {«from» «to» : List UInt8} {cb : CpCallback}
    {uninitFrom uninitTo : ℕ} {d : σ}
    (hreturn : (copyOnPsion (up answer) fuel «from» «to» cb uninitFrom uninitTo
      ⟨d, []⟩).1.isSome) :
    Use.Balanced (notes handles.use
        (copyOnPsion (up answer) fuel «from» «to» cb uninitFrom uninitTo ⟨d, []⟩).2) ↔
      let opened := opened answer d (P_FSHARE ||| P_FSTREAM) «from»
      let target := target answer opened.2 «to»
      opened.1.status = E_PSI_GEN_NONE →
        if target.1.status = E_PSI_GEN_NONE then
          handles.Granted opened.1 ∧ handles.Granted target.1
        else ¬handles.Granted opened.1 := by
  refine balanced_unless_refused rfl (fopen_opens _ «from» uninitFrom rfl) (fun res h hres => ?_)
    (fun h s hserver hnotes hhandle hreturn => ?_) hreturn
  · simp only [if_pos hres]
    exact Dialogue.silent_pure _
  · have hboth := balanced_iff_both [] hnotes hhandle
      (createOrReplace_opens «to» uninitTo hserver) (fun k => ?_) (fun res k hres => ?_) hreturn
    · exact hboth.trans (by simp only [List.map_nil, nil_perm_grant_iff])
    · refine Handles.Ends.after (silent_copyOnLoop _ _ _ _ _ _ _ _) rfl fun _ _ _ => ?_
      exact (fclose_closes.ends _ _).closing fclose_closes _
    · simp only [if_pos hres]
      exact Handles.Ends.of_silent (Dialogue.silent_pure _)

end Calls

/-- The result of a call, when it returns. -/
def run (answer : Device σ Commands) (fuel : ℕ) : Call → Client σ Commands (Option Errs)
  | .dir name uninit => do
    let r ← dir answer fuel name uninit
    return r.map Prod.fst
  | .dircount name uninit count => do
    let r ← dircount answer fuel name uninit count
    return r.map Prod.fst
  | .copyFromPsion «from» writable cb uninit => do
    let r ← copyFromPsion answer fuel «from» writable cb uninit
    return r.map Prod.fst
  | .copyFromPsionFd «from» cb uninit => do
    let r ← copyFromPsionFd answer fuel «from» cb uninit
    return r.map Prod.fst
  | .copyToPsion «from» «to» cb uninit => copyToPsion answer fuel «from» «to» cb uninit
  | .copyOnPsion «from» «to» cb uninitFrom uninitTo =>
    copyOnPsion answer fuel «from» «to» cb uninitFrom uninitTo

/-- The answers to the requests to open with which a call closes what was opened. -/
def Settles (answer : σ → Request Commands → Response × σ) (d : σ) : Call → Prop
  | .dir name _ | .dircount name _ _ => handles.Granted (opened answer d P_FDIR name).1
  | .copyFromPsion «from» _ _ _ | .copyFromPsionFd «from» _ _ =>
    handles.Sound (opened answer d (P_FSHARE ||| P_FSTREAM) «from»).1
  | .copyToPsion none _ _ _ => True
  | .copyToPsion (some _) «to» _ _ => handles.Sound (target answer d «to»).1
  | .copyOnPsion «from» «to» _ _ _ =>
    let opened := opened answer d (P_FSHARE ||| P_FSTREAM) «from»
    let target := target answer opened.2 «to»
    opened.1.status = E_PSI_GEN_NONE →
      if target.1.status = E_PSI_GEN_NONE then
        handles.Granted opened.1 ∧ handles.Granted target.1
      else ¬handles.Granted opened.1

/-- A call of the SIBO protocol that returns. -/
theorem run_balanced {answer : σ → Request Commands → Response × σ} {d : σ} {fuel : ℕ} {call : Call}
    (hreturn : (run (up answer) fuel call ⟨d, []⟩).1.isSome) :
    Use.Balanced (notes handles.use (run (up answer) fuel call ⟨d, []⟩).2) ↔
      Settles answer d call := by
  cases call with
  | dir name uninit => exact dir_balanced (Option.isSome_map ▸ hreturn)
  | dircount name uninit count => exact dircount_balanced (Option.isSome_map ▸ hreturn)
  | copyFromPsion «from» writable cb uninit =>
    exact copyFromPsion_balanced (Option.isSome_map ▸ hreturn)
  | copyFromPsionFd «from» cb uninit =>
    exact copyFromPsionFd_balanced (Option.isSome_map ▸ hreturn)
  | copyToPsion «from» «to» cb uninit =>
    cases «from» with
    | none => exact iff_of_true (Use.balanced_of_perm (List.Perm.refl [])) trivial
    | some ip => exact copyToPsion_balanced hreturn
  | copyOnPsion «from» «to» cb uninitFrom uninitTo => exact copyOnPsion_balanced hreturn

end RFSV16

namespace RFSV32

open RFSV

/-- A success carries a handle when it has four bytes. -/
def handles : Handles Commands where
  opens cc := cc == .OPEN_FILE || cc == .CREATE_FILE || cc == .REPLACE_FILE || cc == .OPEN_DIR
  closes cc := cc == .CLOSE_HANDLE
  carries data := data.length == 4
  handle data := getDWord data 0
  close h := dwordBytes h
  handle_close data := getDWord_natCast (getDWord_lt data 0)

variable {σ : Type}

section Loops

variable (answer : Device σ Commands)

/-- Reading an entry neither opens nor closes. -/
theorem silent_readdir (dH : RFSVDirHandle) (e : PlpDirent) :
    Silent handles.use (readdir answer dH e) := by
  unfold readdir
  split
  · refine (silent_sendCommand fun _ => rfl).bind fun r => ?_
    rcases r with _ | a <;> exact Dialogue.silent_pure _
  · exact Dialogue.silent_pure _

/-- Reading a directory keeps its handle. -/
theorem readdir_handle (dH : RFSVDirHandle) (e : PlpDirent)
    (s : Session σ (Request Commands) (Option Response)) :
    (readdir answer dH e s).1.2.1.h = dH.h := by
  have hread : ∀ (dH : RFSVDirHandle) b, ({ dH with b := b } : RFSVDirHandle).h = dH.h := fun _ _ => rfl
  have hnext : ∀ res (dH : RFSVDirHandle) e, (nextEntry res dH e).2.1.h = dH.h := by
    intro res dH e
    unfold nextEntry
    split
    · exact hread dH _
    · rfl
  unfold readdir
  split
  · rw [Dialogue.bind_apply]
    rcases (sendCommand answer .READ_DIR (dwordBytes dH.h) s).1 with _ | a
    · rfl
    · exact hnext _ _ _
  · exact hnext _ _ _

/-- Counting neither opens nor closes. -/
theorem silent_dircountLoop (inner handle fuel count : ℕ) :
    Silent handles.use (dircountLoop answer inner handle fuel count) :=
  (dircountLoop_isLoop answer inner handle).silent
    (fun _ => (silent_sendCommand fun _ => rfl).bind fun _ => Dialogue.silent_pure _) fuel count

/-- Reading neither opens nor closes. -/
theorem silent_freadLoop (handle len fuel count : ℕ) (buf : List UInt8) :
    Silent handles.use (freadLoop answer handle len fuel count buf) := by
  rw [freadLoop_eq]
  exact silent_readLoop (fun _ _ => rfl) _ _ _ _ _

/-- Writing neither opens nor closes. -/
theorem silent_fwriteLoop (handle len fuel : ℕ) (res : Errs) (count : ℕ) (p : List UInt8) :
    Silent handles.use (fwriteLoop answer handle len fuel res count p) := by
  refine (fwriteLoop_isLoop answer handle len).silent (fun s => ?_) fuel (res, count, p)
  rw [fwriteRound]
  generalize (if len - s.2.1 > RFSV_SENDLEN then RFSV_SENDLEN else len - s.2.1) = l
  split
  · exact (silent_sendCommand fun _ => rfl).bind fun _ => Dialogue.silent_pure _
  · exact Dialogue.silent_pure _

/-- Copying neither opens nor closes. -/
theorem silent_copyOnLoop (handle_from handle_to : ℕ) (cb : CpCallback)
    (fuel calls total : ℕ) (res : Errs) :
    Silent handles.use (copyOnLoop answer handle_from handle_to cb fuel calls total res) :=
  (copyOnLoop_isLoop answer handle_from handle_to cb).silent
    (fun _ => (silent_sendCommand fun _ => rfl).bind fun _ => Dialogue.silent_pure _) fuel (calls, total, res)

/-- Removing neither opens nor closes. -/
theorem silent_remove (name : List UInt8) : Silent handles.use (remove answer name) := by
  refine (silent_sendCommand fun _ => rfl).bind fun r => ?_
  rcases r with _ | a <;> exact Dialogue.silent_pure _

end Loops

section Calls

variable {answer : σ → Request Commands → Response × σ}

/-- A device that is up leaves no command unsent. -/
theorem dircountLoop_sent {inner handle fuel count : ℕ}
    {s : Session σ (Request Commands) (Option Response)} {out : Bool × Errs × ℕ}
    (hout : (dircountLoop (up answer) inner handle fuel count s).1 = some out) : out.1 = false := by
  induction fuel generalizing count s with
  | zero => cases hout
  | succ fuel ih =>
    obtain ⟨s', hsend, -, -⟩ := sendCommand_up answer ⟨.READ_DIR, dwordBytes handle⟩ s
    rw [dircountLoop, Dialogue.bind_apply, hsend] at hout
    dsimp only at hout
    split at hout
    · obtain rfl := Option.some.inj hout
      rfl
    · rcases hcount : countRecords inner (answer s.server ⟨.READ_DIR, dwordBytes handle⟩).1.data count
        with _ | count'
      · rw [hcount] at hout
        cases hout
      · rw [hcount] at hout
        exact ih hout

/-- From a device that is up a copy has an answer to every command. -/
theorem copyOnLoop_sent {handle_from handle_to : ℕ} {cb : CpCallback} {fuel calls total : ℕ}
    {res : Errs} {s : Session σ (Request Commands) (Option Response)} {out : Bool × Errs}
    (hout : (copyOnLoop (up answer) handle_from handle_to cb fuel calls total res s).1 = some out) :
    out.1 = false := by
  induction fuel generalizing calls total res s with
  | zero =>
    rw [copyOnLoop] at hout
    split at hout
    · cases hout
    · obtain rfl := Option.some.inj hout
      rfl
  | succ fuel ih =>
    obtain ⟨s', hsend, -, -⟩ := sendCommand_up answer ⟨.READ_WRITE_FILE,
      dwordBytes (RFSV_SENDLEN * 10 : ℕ) ++ dwordBytes handle_to ++ dwordBytes handle_from⟩ s
    rw [copyOnLoop] at hout
    split at hout
    · rw [Dialogue.bind_apply, hsend] at hout
      dsimp only at hout
      split at hout
      · obtain rfl := Option.some.inj hout
        rfl
      · split at hout
        · obtain rfl := Option.some.inj hout
          rfl
        · split at hout
          · obtain rfl := Option.some.inj hout
            rfl
          · exact ih hout
    · obtain rfl := Option.some.inj hout
      rfl

/-- Looking up an entry, from a device that is up. -/
theorem fgeteattr_up (answer : σ → Request Commands → Response × σ) (name : List UInt8)
    (e : PlpDirent) (s : Session σ (Request Commands) (Option Response)) :
    (fgeteattr (up answer) name e s).1.1 = (answer s.server ⟨.REMOTE_ENTRY, counted name⟩).1.status ∧
      (fgeteattr (up answer) name e s).2.server =
        (answer s.server ⟨.REMOTE_ENTRY, counted name⟩).2 ∧
      notes handles.use (fgeteattr (up answer) name e s).2 = notes handles.use s := by
  have hsilent : notes handles.use (sendCommand (up answer) .REMOTE_ENTRY (counted name) s).2 =
      notes handles.use s := silent_sendCommand (fun _ => rfl) s
  obtain ⟨s', hsend, hserver, -⟩ := sendCommand_up answer ⟨.REMOTE_ENTRY, counted name⟩ s
  rw [hsend] at hsilent
  rw [fgeteattr, Dialogue.bind_apply, hsend]
  dsimp only
  split <;> exact ⟨rfl, hserver, hsilent⟩

/-- How the device answers a request to open something. -/
def opened (answer : σ → Request Commands → Response × σ) (d : σ) (cc : Commands) (attr : ℕ)
    (name : List UInt8) : Response × σ :=
  answer d ⟨cc, openData attr name⟩

/-- How the device answers when the target of a copy is opened: the last answer counts. -/
def target (answer : σ → Request Commands → Response × σ) (d : σ) (name : List UInt8) :
    Response × σ :=
  let created := opened answer d .CREATE_FILE targetMode name
  if created.1.status = E_PSI_GEN_NONE then created
  else opened answer created.2 .REPLACE_FILE targetMode name

/-- Opening opens what it is answered. -/
theorem openWith_opens (cc : Commands) (hcc : handles.opens cc = true) (attr : ℕ)
    (name : List UInt8) (handle : ℕ) {d : σ}
    {s : Session σ (Request Commands) (Option Response)} (h : s.server = d) :
    handles.Opens (openWith (up answer) cc attr name handle) s (opened answer d cc attr name).1
      (opened answer d cc attr name).2 := by
  subst h
  generalize hopened : opened answer s.server cc attr name = opened
  have hopen := openWith_up hopened handle
  constructor
  · rw [hopen]
  · rintro ⟨hstatus, hcarries⟩
    rw [hopen]
    exact if_pos ⟨hstatus, beq_iff_eq.mp hcarries⟩
  · rw [hopen]
  · rw [hopen, Dialogue.notes_log, use_of_opens hcc]
    rfl

/-- Closing closes the handle. -/
theorem fclose_closes : handles.Closes (fclose (up answer)) := by
  intro h s
  rw [fclose_up rfl, Dialogue.notes_log]
  rfl

/-- Creating a file opens what it is answered in the end. -/
theorem createOrReplace_opens (name : List UInt8) (handle : ℕ) {d : σ}
    {s : Session σ (Request Commands) (Option Response)} (h : s.server = d) :
    handles.Opens (createOrReplace (up answer) targetMode name handle) s
      (target answer d name).1 (target answer d name).2 := by
  unfold target
  rw [apply_ite Prod.fst, apply_ite Prod.snd]
  exact (openWith_opens .CREATE_FILE rfl _ name handle h).orElse
    fun handle _ => openWith_opens .REPLACE_FILE rfl _ name handle

/-- A listing closes what it opened just when it was granted the directory. -/
theorem dir_balanced {fuel : ℕ} {name : List UInt8} {uninit : ℕ} {d : σ}
    (hreturn : (dir (up answer) fuel name uninit ⟨d, []⟩).1.isSome) :
    Use.Balanced (notes handles.use (dir (up answer) fuel name uninit ⟨d, []⟩).2) ↔
      handles.Granted (opened answer d .OPEN_DIR
        (std2attr (PSI_A_HIDDEN ||| PSI_A_SYSTEM ||| PSI_A_DIR) ||| EPOC_ATTR_GETUID) name).1 := by
  simp only [dir, opendir, fopendir, bind_assoc, pure_bind] at hreturn ⊢
  refine balanced_iff_granted (openWith_opens .OPEN_DIR rfl _ name uninit rfl) (fun res h => ?_)
    hreturn
  refine Handles.Ends.after (silent_dirLoop (silent_readdir _) _ _ _ _) rfl ?_
  rintro ⟨res', dH, files⟩ s hb
  have hkeep : dH.h = h := dirLoop_handle (readdir_handle _) hb
  exact hkeep ▸ fclose_closes.ends _ _

/-- A count closes what it opened just when its opening was answered so. -/
theorem dircount_balanced {fuel : ℕ} {name : List UInt8} {uninit : ℕ} {d : σ}
    (hreturn : (dircount (up answer) fuel name uninit ⟨d, []⟩).1.isSome) :
    Use.Balanced (notes handles.use (dircount (up answer) fuel name uninit ⟨d, []⟩).2) ↔
      handles.Sound (opened answer d .OPEN_DIR
        ((EPOC_ATTR_HIDDEN ||| EPOC_ATTR_SYSTEM ||| EPOC_ATTR_DIRECTORY) ||| EPOC_ATTR_GETUID)
        name).1 := by
  refine balanced_iff_sound (openWith_opens .OPEN_DIR rfl _ name uninit rfl) (fun h => ?_)
    (fun res h hres => ?_) hreturn
  · refine Handles.Ends.after (silent_dircountLoop _ _ _ _ _) rfl ?_
    rintro ⟨unsent, res, count⟩ s hb
    obtain rfl : unsent = false := dircountLoop_sent hb
    exact fclose_closes.ends _ _
  · simp only [if_pos hres]
    exact Dialogue.silent_pure _

/-- The copy loop, and then closing. -/
theorem copyFromLoop_ends (fuel : ℕ) (cb : CpCallback) (h : ℕ) :
    handles.Ends [h] (do
      let some (res, op) ← copyFromLoop (fread (up answer) fuel h RFSV_SENDLEN) cb fuel 0 0 []
        | return none
      let _ ← fclose (up answer) h
      return some (res, op)) :=
  Handles.Ends.after (silent_copyFromLoop (silent_freadLoop _ _ _ _ _ _) _ _ _ _ _) rfl
    fun _ _ _ => fclose_closes.ends _ _

/-- A copy from the device closes what it opened unless it was given no handle. -/
theorem copyFromPsion_balanced {fuel : ℕ} {«from» : List UInt8} {writable : Bool}
    {cb : CpCallback} {uninit : ℕ} {d : σ}
    (hreturn : (copyFromPsion (up answer) fuel «from» writable cb uninit ⟨d, []⟩).1.isSome) :
    Use.Balanced (notes handles.use
        (copyFromPsion (up answer) fuel «from» writable cb uninit ⟨d, []⟩).2) ↔
      handles.Sound (opened answer d .OPEN_FILE
        (EPOC_OMODE_SHARE_READERS ||| EPOC_OMODE_BINARY) «from»).1 := by
  refine balanced_iff_sound (openWith_opens .OPEN_FILE rfl _ «from» uninit rfl) (fun h => ?_)
    (fun res h hres => ?_) hreturn
  · simp only [ne_eq, not_true_eq_false, if_false]
    split
    · exact fclose_closes.ends _ _
    · exact copyFromLoop_ends fuel cb h
  · simp only [if_pos hres]
    exact Dialogue.silent_pure _

/-- The same for the other overload. -/
theorem copyFromPsionFd_balanced {fuel : ℕ} {«from» : List UInt8} {cb : CpCallback} {uninit : ℕ}
    {d : σ} (hreturn : (copyFromPsionFd (up answer) fuel «from» cb uninit ⟨d, []⟩).1.isSome) :
    Use.Balanced (notes handles.use (copyFromPsionFd (up answer) fuel «from» cb uninit ⟨d, []⟩).2) ↔
      handles.Sound (opened answer d .OPEN_FILE
        (EPOC_OMODE_SHARE_READERS ||| EPOC_OMODE_BINARY) «from»).1 := by
  refine balanced_iff_sound (openWith_opens .OPEN_FILE rfl _ «from» uninit rfl) (fun h => ?_)
    (fun res h hres => ?_) hreturn
  · exact copyFromLoop_ends fuel cb h
  · simp only [if_pos hres]
    exact Dialogue.silent_pure _

/-- A copy to the device closes what it opened unless it was given no handle. -/
theorem copyToPsion_balanced {fuel : ℕ} {ip «to» : List UInt8} {cb : CpCallback} {uninit : ℕ}
    {d : σ} (hreturn : (copyToPsion (up answer) fuel (some ip) «to» cb uninit ⟨d, []⟩).1.isSome) :
    Use.Balanced (notes handles.use
        (copyToPsion (up answer) fuel (some ip) «to» cb uninit ⟨d, []⟩).2) ↔
      handles.Sound (target answer d «to»).1 := by
  refine balanced_iff_sound (createOrReplace_opens «to» uninit rfl) (fun h => ?_)
    (fun res h hres => ?_) hreturn
  · exact Handles.Ends.after
      (silent_copyToLoop (fun _ => silent_fwriteLoop _ _ _ _ _ _ _) _ _ _ _ _ _ _) rfl
      fun _ _ _ => fclose_closes.ends _ _
  · simp only [if_pos hres]
    exact Dialogue.silent_pure _

/-- A copy on the device closes what it opened just when both openings were answered so. -/
theorem copyOnPsion_balanced {fuel : ℕ} {«from» «to» : List UInt8} {cb : CpCallback}
    {uninitFrom uninitTo : ℕ} {d : σ}
    (hreturn : (copyOnPsion (up answer) fuel «from» «to» cb uninitFrom uninitTo
      ⟨d, []⟩).1.isSome) :
    Use.Balanced (notes handles.use
        (copyOnPsion (up answer) fuel «from» «to» cb uninitFrom uninitTo ⟨d, []⟩).2) ↔
      let entry := answer d ⟨.REMOTE_ENTRY, counted «from»⟩
      let opened := opened answer entry.2 .OPEN_FILE
        (EPOC_OMODE_SHARE_READERS ||| EPOC_OMODE_BINARY) «from»
      let target := target answer opened.2 «to»
      entry.1.status = E_PSI_GEN_NONE → opened.1.status = E_PSI_GEN_NONE →
        handles.Granted opened.1 ∧ handles.Sound target.1 := by
  obtain ⟨hstatus, hserver, hnotes⟩ := fgeteattr_up answer «from» PlpDirent.new ⟨d, []⟩
  rw [copyOnPsion, Dialogue.bind_apply] at hreturn ⊢
  generalize fgeteattr (up answer) «from» PlpDirent.new ⟨d, []⟩ = looked at *
  obtain ⟨⟨res, e⟩, s⟩ := looked
  dsimp only at *
  by_cases hres : res = E_PSI_GEN_NONE
  · subst hres
    refine Iff.trans ?_ (imp_iff_right hstatus.symm).symm
    refine balanced_unless_refused hnotes
      (openWith_opens .OPEN_FILE rfl _ «from» uninitFrom hserver) (fun res h hres => ?_)
      (fun h s hserver hnotes hhandle hreturn => ?_) hreturn
    · simp only [if_pos hres]
      exact Dialogue.silent_pure _
    · have hboth := balanced_iff_both [h] hnotes hhandle
        (createOrReplace_opens «to» uninitTo hserver) (fun k => ?_) (fun res k hres => ?_) hreturn
      · apply hboth.trans
        rw [List.map_singleton, perm_grant_iff hhandle]
        split
        case isTrue hgranted => rw [granted_iff_sound hgranted]
        case isFalse hrefused => exact (and_iff_left fun h => absurd h hrefused).symm
      · refine Handles.Ends.after (silent_copyOnLoop _ _ _ _ _ _ _ _) rfl ?_
        rintro ⟨unsent, res⟩ s hb
        obtain rfl : unsent = false := copyOnLoop_sent hb
        refine Handles.Ends.closing fclose_closes _ (Handles.Ends.closing fclose_closes _ ?_)
        apply Handles.Ends.of_silent
        split
        · exact (silent_remove _ _).bind fun _ => Dialogue.silent_pure _
        · exact Dialogue.silent_pure _
      · simp only [if_pos hres]
        exact fclose_closes.ends _ _
  · rw [if_pos hres, Dialogue.pure_apply, hnotes]
    exact iff_of_true (Use.balanced_of_perm (List.Perm.refl [])) fun h => absurd (hstatus.trans h) hres

end Calls

/-- The result of a call, when it returns. -/
def run (answer : Device σ Commands) (fuel : ℕ) : Call → Client σ Commands (Option Errs)
  | .dir name uninit => do
    let r ← dir answer fuel name uninit
    return r.map Prod.fst
  | .dircount name uninit _ => do
    let r ← dircount answer fuel name uninit
    return r.map Prod.fst
  | .copyFromPsion «from» writable cb uninit => do
    let r ← copyFromPsion answer fuel «from» writable cb uninit
    return r.map Prod.fst
  | .copyFromPsionFd «from» cb uninit => do
    let r ← copyFromPsionFd answer fuel «from» cb uninit
    return r.map Prod.fst
  | .copyToPsion «from» «to» cb uninit => copyToPsion answer fuel «from» «to» cb uninit
  | .copyOnPsion «from» «to» cb uninitFrom uninitTo =>
    copyOnPsion answer fuel «from» «to» cb uninitFrom uninitTo

/-- The answers to the requests to open with which a call closes what was opened. -/
def Settles (answer : σ → Request Commands → Response × σ) (d : σ) : Call → Prop
  | .dir name _ => handles.Granted (opened answer d .OPEN_DIR
      (std2attr (PSI_A_HIDDEN ||| PSI_A_SYSTEM ||| PSI_A_DIR) ||| EPOC_ATTR_GETUID) name).1
  | .dircount name _ _ => handles.Sound (opened answer d .OPEN_DIR
      ((EPOC_ATTR_HIDDEN ||| EPOC_ATTR_SYSTEM ||| EPOC_ATTR_DIRECTORY) ||| EPOC_ATTR_GETUID) name).1
  | .copyFromPsion «from» _ _ _ | .copyFromPsionFd «from» _ _ => handles.Sound
      (opened answer d .OPEN_FILE (EPOC_OMODE_SHARE_READERS ||| EPOC_OMODE_BINARY) «from»).1
  | .copyToPsion none _ _ _ => True
  | .copyToPsion (some _) «to» _ _ => handles.Sound (target answer d «to»).1
  | .copyOnPsion «from» «to» _ _ _ =>
    let entry := answer d ⟨.REMOTE_ENTRY, counted «from»⟩
    let opened := opened answer entry.2 .OPEN_FILE
      (EPOC_OMODE_SHARE_READERS ||| EPOC_OMODE_BINARY) «from»
    let target := target answer opened.2 «to»
    entry.1.status = E_PSI_GEN_NONE → opened.1.status = E_PSI_GEN_NONE →
      handles.Granted opened.1 ∧ handles.Sound target.1

/-- A call of the EPOC protocol that returns. -/
theorem run_balanced {answer : σ → Request Commands → Response × σ} {d : σ} {fuel : ℕ} {call : Call}
    (hreturn : (run (up answer) fuel call ⟨d, []⟩).1.isSome) :
    Use.Balanced (notes handles.use (run (up answer) fuel call ⟨d, []⟩).2) ↔
      Settles answer d call := by
  cases call with
  | dir name uninit => exact dir_balanced (Option.isSome_map ▸ hreturn)
  | dircount name uninit count => exact dircount_balanced (Option.isSome_map ▸ hreturn)
  | copyFromPsion «from» writable cb uninit =>
    exact copyFromPsion_balanced (Option.isSome_map ▸ hreturn)
  | copyFromPsionFd «from» cb uninit =>
    exact copyFromPsionFd_balanced (Option.isSome_map ▸ hreturn)
  | copyToPsion «from» «to» cb uninit =>
    cases «from» with
    | none => exact iff_of_true (Use.balanced_of_perm (List.Perm.refl [])) trivial
    | some ip => exact copyToPsion_balanced hreturn
  | copyOnPsion «from» «to» cb uninitFrom uninitTo => exact copyOnPsion_balanced hreturn

end RFSV32

end Plptools
