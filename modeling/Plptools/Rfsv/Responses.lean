import Plptools.Rfsv.Counting
import Plptools.Library.Reads

/-!
# The responses of a device

What the clients make of the data of a successful response. Here every access to the data has a value only where
it is inside; an index into a table, only where the table has it. Where all of them have a value, the entries are
those of the functions that read zeros behind the end.

A response is parsed inside when all of its records can be gone through, and nothing but an error comes of one
that is too short for the fields of the first.
-/

namespace Plptools

open Plptools.Library

namespace RFSV

def byteIn (a : List UInt8) (pos : ℕ) : Option ℕ := a[pos]?.map UInt8.toNat

def wordIn (a : List UInt8) (pos : ℕ) : Option ℕ := do
  let low ← byteIn a pos
  let high ← byteIn a (pos + 1)
  return low + 256 * high

def dwordIn (a : List UInt8) (pos : ℕ) : Option ℕ := do
  let low ← wordIn a pos
  let high ← wordIn a (pos + 2)
  return low + 65536 * high

/-- The characters up to the terminating zero. -/
def stringIn (a : List UInt8) (pos : ℕ) : Option (List UInt8) := readUntil 0 (a.drop pos)

variable {a : List UInt8} {pos : ℕ}

/-- A byte inside is read. -/
theorem byteIn_of_lt (h : pos < a.length) : byteIn a pos = some (getByte a pos) := by
  rw [byteIn, List.getElem?_eq_getElem h, getByte, List.getD_eq_getElem a 0 h]
  rfl

/-- A word inside is read. -/
theorem wordIn_of_le (h : pos + 2 ≤ a.length) : wordIn a pos = some (getWord a pos) := by
  have hlow : pos < a.length := by omega
  have hhigh : pos + 1 < a.length := by omega
  rw [wordIn, byteIn_of_lt hlow, byteIn_of_lt hhigh]
  rfl

/-- A double word inside is read. -/
theorem dwordIn_of_le (h : pos + 4 ≤ a.length) : dwordIn a pos = some (getDWord a pos) := by
  have hlow : pos + 2 ≤ a.length := by omega
  have hhigh : pos + 2 + 2 ≤ a.length := by omega
  rw [dwordIn, wordIn_of_le hlow, wordIn_of_le hhigh]
  rfl

/-- A byte that is read is inside. -/
theorem lt_of_byteIn {v : ℕ} (h : byteIn a pos = some v) : pos < a.length := by
  obtain ⟨c, hc, -⟩ := Option.map_eq_some_iff.mp h
  exact (List.getElem?_eq_some_iff.mp hc).1

/-- A word that is read is inside. -/
theorem le_of_wordIn {v : ℕ} (h : wordIn a pos = some v) : pos + 2 ≤ a.length := by
  obtain ⟨low, -, h⟩ := Option.bind_eq_some_iff.mp h
  obtain ⟨high, hhigh, -⟩ := Option.bind_eq_some_iff.mp h
  exact lt_of_byteIn hhigh

/-- A double word that is read is inside. -/
theorem le_of_dwordIn {v : ℕ} (h : dwordIn a pos = some v) : pos + 4 ≤ a.length := by
  obtain ⟨low, -, h⟩ := Option.bind_eq_some_iff.mp h
  obtain ⟨high, hhigh, -⟩ := Option.bind_eq_some_iff.mp h
  exact le_of_wordIn hhigh

/-- A string that ends inside is the C string there. -/
theorem stringIn_of_mem (h : 0 ∈ a.drop pos) : stringIn a pos = some (cString (a.drop pos)) := by
  obtain ⟨s, hs⟩ := readUntil_of_mem h
  obtain ⟨hstop, rest, hdrop⟩ := readUntil_eq_some_iff.mp hs
  have hmem : ∀ c ∈ s, (c != 0) = true := fun c hc => bne_iff_ne.mpr fun hzero => hstop (hzero ▸ hc)
  rw [stringIn, hs, hdrop, cString, List.takeWhile_append_of_pos hmem]
  exact congrArg some (List.append_nil s).symm

/-- Single reads of a range are the range. -/
theorem map_getD_range {α : Type*} {block : List α} {pos n : ℕ} (h : pos + n ≤ block.length) (c : α) :
    (List.range n).map (fun i => block.getD (pos + i) c) = (block.drop pos).take n := by
  have hlength : n ≤ (block.drop pos).length := by
    rw [List.length_drop]
    omega
  have htake : ((List.range n).map fun i => block.getD (pos + i) c).length = ((block.drop pos).take n).length := by
    rw [List.length_map, List.length_range, List.length_take_of_le hlength]
  refine List.ext_getElem htake fun i hi _ => ?_
  rw [List.length_map, List.length_range] at hi
  have hinside : pos + i < block.length := by omega
  rw [List.getElem_map, List.getElem_range, List.getElem_take, List.getElem_drop, List.getD_eq_getElem _ _ hinside]

/-- What is known about a drive. -/
structure Drive where
  mediaType : ℕ
  driveAttributes : ℕ
  mediaAttributes : ℕ
  uid : ℕ
  size : ℕ
  space : ℕ
  driveLetter : UInt8
  name : List UInt8
deriving DecidableEq, Repr

end RFSV

open RFSV

/-! ### SIBO -/

namespace RFSV16

/-- The media types of a SIBO device. -/
def siboDattr : List ℕ := [1, 2, 3, 6, 5, 7, 7]

/-- The next entry of a record. -/
def entryAt (dH : RFSVDirHandle) (e : PlpDirent) : Option (Errs × RFSVDirHandle × PlpDirent) := do
  let version ← wordIn dH.b 0
  if version ≠ 2 then return (E_PSI_GEN_FAIL, dH, e)
  else
    let attr ← wordIn dH.b 2
    let size ← dwordIn dH.b 4
    let time ← dwordIn dH.b 8
    let name ← stringIn dH.b 16
    return (E_PSI_GEN_NONE, { dH with b := dH.b.drop (17 + name.length) },
      { e with
        attr := attr2std attr
        size := size
        time := .sibo time
        dirname := dH.name
        name := name })

/-- The entries of the records that are left, up to an error. -/
def entriesAt : ℕ → RFSVDirHandle → Option (Errs × List PlpDirent)
  | fuel, dH =>
    if dH.b.length > 16 then
      match fuel with
      | 0 => none
      | fuel + 1 => do
        let out ← entryAt dH PlpDirent.new
        if out.1 = E_PSI_GEN_NONE then
          let rest ← entriesAt fuel out.2.1
          return (rest.1, out.2.2 :: rest.2)
        else return (out.1, [])
    else some (E_PSI_GEN_NONE, [])

/-- The entries of a successful response. With too little for a record the first one is as it was. -/
def readdirAt (fuel : ℕ) (dH : RFSVDirHandle) (body : List UInt8) : Option (Errs × List PlpDirent) := do
  let bufferLen ← wordIn body 0
  let dH := { dH with b := body.drop 2 }
  if dH.b.length ≠ bufferLen then return (E_PSI_GEN_FAIL, [])
  else if dH.b.length > 16 then entriesAt fuel dH
  else return (E_PSI_GEN_NONE, [PlpDirent.new])

/-- What the status of a drive says; `letter` is in upper case. -/
def driveAt (letter : UInt8) (a : List UInt8) : Option Drive := do
  let attr ← wordIn a 2
  let mediaType ← siboDattr[attr &&& 0xff]?
  let changeable ← wordIn a 4
  let size ← dwordIn a 6
  let space ← dwordIn a 10
  let name ← stringIn a 14
  return { mediaType := mediaType
           driveAttributes := (if changeable = 0 then 0 else 32) ||| attrIf attr 0x2000 16
           mediaAttributes := attrIf attr 0x4000 1 ||| attrIf attr 0x1000 2 ||| attrIf attr 0x0800 4 |||
             (if attr &&& 0xff = 6 then 8 else 0)
           uid := 0
           size := size
           space := space
           driveLetter := letter
           name := name }

/-- An entry has a value when it is in another version, or its name ends inside. -/
theorem entryAt_eq {dH : RFSVDirHandle} (h : 16 < dH.b.length) (e : PlpDirent) : entryAt dH e =
    if getWord dH.b 0 = 2 ∧ 0 ∉ dH.b.drop 16 then none else some (nextEntry E_PSI_GEN_NONE dH e) := by
  have hversion : wordIn dH.b 0 = some (getWord dH.b 0) := wordIn_of_le (by omega)
  have hmore : E_PSI_GEN_NONE = E_PSI_GEN_NONE ∧ dH.b.length > 16 := ⟨rfl, h⟩
  rw [entryAt, hversion, Option.bind_eq_bind, Option.bind_some]
  by_cases hv : getWord dH.b 0 = 2
  · have hattr : wordIn dH.b 2 = some (getWord dH.b 2) := wordIn_of_le (by omega)
    have hsize : dwordIn dH.b 4 = some (getDWord dH.b 4) := dwordIn_of_le (by omega)
    have htime : dwordIn dH.b 8 = some (getDWord dH.b 8) := dwordIn_of_le (by omega)
    rw [if_neg (not_not_intro hv), hattr, hsize, htime]
    by_cases hname : 0 ∈ dH.b.drop 16
    · rw [if_neg fun hnone => hnone.2 hname, stringIn_of_mem hname, nextEntry, if_pos hmore,
        if_neg (not_not_intro hv)]
      rfl
    · have hnone : stringIn dH.b 16 = none := Option.eq_none_iff_forall_ne_some.mpr fun s hs =>
        hname (mem_of_readUntil hs)
      rw [if_pos ⟨hv, hname⟩, hnone]
      rfl
  · rw [if_pos hv, if_neg fun hnone => hv hnone.1, nextEntry, if_pos hmore, if_pos hv]
    rfl

/-- What is left is too short for an entry. -/
theorem entriesAt_of_short (fuel : ℕ) {dH : RFSVDirHandle} (h : ¬16 < dH.b.length) :
    entriesAt fuel dH = some (E_PSI_GEN_NONE, []) := by
  cases fuel <;> exact if_neg h

/-- One more entry. -/
theorem entriesAt_of_long (fuel : ℕ) {dH : RFSVDirHandle} (h : 16 < dH.b.length) : entriesAt (fuel + 1) dH =
    (entryAt dH PlpDirent.new).bind fun out =>
      if out.1 = E_PSI_GEN_NONE then (entriesAt fuel out.2.1).bind fun rest => some (rest.1, out.2.2 :: rest.2)
      else some (out.1, []) := by
  rw [entriesAt, if_pos h]
  rfl

/-- When the entries have a value, the name of each record ends inside. -/
theorem terminated_of_entriesAt {fuel : ℕ} {dH : RFSVDirHandle} {out : Errs × List PlpDirent}
    (h : entriesAt fuel dH = some out) (k : ℕ) : ∀ s ∈ records more size k dH.b, 0 ∈ s.drop 16 := by
  induction k generalizing fuel dH out with
  | zero => exact nofun
  | succ k ih =>
    by_cases hmore : more dH.b
    · cases fuel with
      | zero =>
        rw [entriesAt, if_pos hmore.1] at h
        cases h
      | succ fuel =>
        by_cases hname : 0 ∈ dH.b.drop 16
        · obtain ⟨e, hentry⟩ := nextEntry_of_more dH hmore PlpDirent.new
          rw [entriesAt_of_long fuel hmore.1, entryAt_eq hmore.1, if_neg fun hnone => hnone.2 hname, hentry,
            Option.bind_some, if_pos rfl] at h
          obtain ⟨rest, hrest, -⟩ := Option.bind_eq_some_iff.mp h
          rw [records_of_more hmore, List.forall_mem_cons]
          exact ⟨hname, ih hrest⟩
        · rw [entriesAt_of_long fuel hmore.1, entryAt_eq hmore.1, if_pos ⟨hmore.2, hname⟩] at h
          cases h
    · rw [records_of_not_more hmore]
      exact nofun

/-- When the name of each record ends inside, the entries have a value. -/
theorem entriesAt_of_terminated {fuel : ℕ} {dH : RFSVDirHandle} (hfuel : dH.b.length ≤ fuel)
    (h : ∀ s ∈ records more size fuel dH.b, 0 ∈ s.drop 16) : ∃ out, entriesAt fuel dH = some out := by
  induction fuel generalizing dH with
  | zero => exact ⟨_, entriesAt_of_short 0 (by omega)⟩
  | succ fuel ih =>
    by_cases hlong : 16 < dH.b.length
    · rw [entriesAt_of_long fuel hlong, entryAt_eq hlong]
      by_cases hversion : getWord dH.b 0 = 2
      · have hmore : more dH.b := ⟨hlong, hversion⟩
        rw [records_of_more hmore, List.forall_mem_cons] at h
        obtain ⟨e, hentry⟩ := nextEntry_of_more dH hmore PlpDirent.new
        have hdrop : (dH.b.drop (size dH.b)).length ≤ fuel := by
          have hpos := size_pos dH.b
          rw [List.length_drop]
          omega
        obtain ⟨rest, hrest⟩ : ∃ out, entriesAt fuel { dH with b := dH.b.drop (size dH.b) } = some out := ih hdrop h.2
        rw [if_neg fun hnone => hnone.2 h.1, hentry, Option.bind_some, if_pos rfl, hrest]
        exact ⟨_, rfl⟩
      · rw [if_neg fun hnone => hversion hnone.1, nextEntry_of_version dH hlong hversion]
        exact ⟨_, rfl⟩
    · exact ⟨_, entriesAt_of_short _ hlong⟩

/-- A response of the announced length has more than the fixed part of an entry, and the names in it end there. -/
def Listed (body : List UInt8) : Prop := 2 ≤ body.length ∧ ((body.drop 2).length = getWord body 0 →
  16 < (body.drop 2).length ∧ ∀ s ∈ records more size (body.drop 2).length (body.drop 2), 0 ∈ s.drop 16)

/-- An answer is parsed inside just under this condition. -/
theorem readdirAt_iff (dH : RFSVDirHandle) (body : List UInt8) :
    (∃ fuel out, readdirAt fuel dH body = some out ∧ (body.length < 19 → out.1 ≠ E_PSI_GEN_NONE)) ↔ Listed body := by
  have hdrop : (body.drop 2).length = body.length - 2 := List.length_drop
  constructor
  · rintro ⟨fuel, out, hread, hshort⟩
    obtain ⟨bufferLen, hword, hread⟩ := Option.bind_eq_some_iff.mp hread
    have hlen := le_of_wordIn hword
    rw [wordIn_of_le hlen] at hword
    obtain rfl := Option.some.inj hword
    refine ⟨by omega, fun hlength => ?_⟩
    dsimp only at hread
    rw [if_neg (not_not_intro hlength)] at hread
    by_cases hlong : (body.drop 2).length > 16
    · rw [if_pos hlong] at hread
      exact ⟨hlong, terminated_of_entriesAt hread _⟩
    · rw [if_neg hlong] at hread
      obtain rfl := Option.some.inj hread
      exact absurd rfl (hshort (by omega))
  · rintro ⟨hlen, hrecords⟩
    have hword : wordIn body 0 = some (getWord body 0) := wordIn_of_le (by omega)
    by_cases hlength : (body.drop 2).length = getWord body 0
    · obtain ⟨hlong, hnames⟩ := hrecords hlength
      obtain ⟨out, hout⟩ : ∃ out, entriesAt (body.drop 2).length { dH with b := body.drop 2 } = some out :=
        entriesAt_of_terminated (Nat.le_refl _) hnames
      refine ⟨(body.drop 2).length, out, ?_, fun hshort => absurd hshort (by omega)⟩
      rw [readdirAt, hword, Option.bind_eq_bind, Option.bind_some]
      dsimp only
      rw [if_neg (not_not_intro hlength), if_pos hlong, hout]
    · refine ⟨0, (E_PSI_GEN_FAIL, []), ?_, fun _ => by decide⟩
      rw [readdirAt, hword, Option.bind_eq_bind, Option.bind_some]
      dsimp only
      rw [if_pos hlength]
      rfl

/-- The status of a drive has a value when its name ends inside and its media type is known. -/
theorem driveAt_iff (letter : UInt8) (a : List UInt8) :
    (∃ drive, driveAt letter a = some drive) ↔ 0 ∈ a.drop 14 ∧ getWord a 2 &&& 0xff < 7 := by
  constructor
  · rintro ⟨drive, h⟩
    obtain ⟨attr, hattr, h⟩ := Option.bind_eq_some_iff.mp h
    obtain ⟨mediaType, htype, h⟩ := Option.bind_eq_some_iff.mp h
    obtain ⟨changeable, -, h⟩ := Option.bind_eq_some_iff.mp h
    obtain ⟨size, -, h⟩ := Option.bind_eq_some_iff.mp h
    obtain ⟨space, -, h⟩ := Option.bind_eq_some_iff.mp h
    obtain ⟨name, hname, -⟩ := Option.bind_eq_some_iff.mp h
    rw [wordIn_of_le (le_of_wordIn hattr)] at hattr
    obtain rfl := Option.some.inj hattr
    exact ⟨mem_of_readUntil hname, (List.getElem?_eq_some_iff.mp htype).1⟩
  · rintro ⟨hname, htype⟩
    have hlen : 14 < a.length := by
      have hpos := List.length_pos_of_mem hname
      rw [List.length_drop] at hpos
      omega
    have hattr : wordIn a 2 = some (getWord a 2) := wordIn_of_le (by omega)
    have hmedia : siboDattr[getWord a 2 &&& 0xff]? = some (siboDattr[getWord a 2 &&& 0xff]) :=
      List.getElem?_eq_getElem htype
    have hchangeable : wordIn a 4 = some (getWord a 4) := wordIn_of_le (by omega)
    have hsize : dwordIn a 6 = some (getDWord a 6) := dwordIn_of_le (by omega)
    have hspace : dwordIn a 10 = some (getDWord a 10) := dwordIn_of_le (by omega)
    rw [driveAt, hattr, Option.bind_eq_bind, Option.bind_some, hmedia, hchangeable, hsize, hspace,
      stringIn_of_mem hname]
    exact ⟨_, rfl⟩

end RFSV16

/-! ### EPOC -/

namespace RFSV32

/-- The entry at `pos` of the response, and the position behind it. In front of the response nothing can be read. -/
def entryAt (dirname body : List UInt8) (pos : ℤ) : Option (PlpDirent × ℤ) := do
  if pos < 0 then none
  else
    let b := body.drop pos.toNat
    let shortLen ← dwordIn b 0
    let longLen ← dwordIn b 32
    let attr ← dwordIn b 4
    let size ← dwordIn b 8
    let first ← dwordIn b 20
    let second ← dwordIn b 24
    let third ← dwordIn b 28
    let high ← dwordIn b 16
    let low ← dwordIn b 12
    let name ← readRange b 36 longLen
    let d := align4 (int32 (align4 (int32 (36 + longLen)) + shortLen))
    return ({ size := size
              attr := attr2std attr
              UID := (first, second, third)
              time := .epoc high low
              dirname := dirname
              name := name }, min (pos + d) body.length)

/-- The entries of the response from `pos` on. -/
def entriesAt (dirname body : List UInt8) : ℕ → ℤ → Option (List PlpDirent)
  | fuel, pos =>
    if body.length - pos > 16 then
      match fuel with
      | 0 => none
      | fuel + 1 => do
        let out ← entryAt dirname body pos
        let rest ← entriesAt dirname body fuel out.2
        return out.1 :: rest
    else some []

/-- The entries of a successful response. With too little for a record the first one is as it was. -/
def readdirAt (fuel : ℕ) (dirname body : List UInt8) : Option (List PlpDirent) :=
  if body.length > 16 then entriesAt dirname body fuel 0 else some [PlpDirent.new]

/-- What `fgeteattr` makes of the response, with the name that it has put into `e`. -/
def eattrAt (e : PlpDirent) (a : List UInt8) : Option PlpDirent := do
  let attr ← dwordIn a 4
  let size ← dwordIn a 8
  let first ← dwordIn a 20
  let second ← dwordIn a 24
  let third ← dwordIn a 28
  let high ← dwordIn a 16
  let low ← dwordIn a 12
  return { e with
    attr := attr2std attr
    size := size
    UID := (first, second, third)
    time := .epoc high low }

/-- What the information about a drive says; `letter` is in upper case. A zero is put behind the response. -/
def driveAt (letter : UInt8) (a : List UInt8) : Option Drive := do
  let mediaType ← dwordIn a 0
  let driveAttributes ← dwordIn a 8
  let mediaAttributes ← dwordIn a 12
  let uid ← dwordIn a 16
  let sizeLo ← dwordIn a 20
  let sizeHi ← dwordIn a 24
  let spaceLo ← dwordIn a 28
  let spaceHi ← dwordIn a 32
  let name ← stringIn (a ++ [0]) 40
  return { mediaType := mediaType
           driveAttributes := driveAttributes
           mediaAttributes := mediaAttributes
           uid := uid
           size := sizeHi * 2 ^ 32 + sizeLo
           space := spaceHi * 2 ^ 32 + spaceLo
           driveLetter := letter
           name := name }

/-- From `pos` on one record comes to the next, each with its long name inside, until too little is left for one. -/
inductive Walk (body : List UInt8) : ℤ → Prop
  | done {pos : ℤ} (h : body.length - pos ≤ 16) : Walk body pos
  | next {pos : ℤ} (hpos : 0 ≤ pos) (hname : pos + 36 + getDWord (body.drop pos.toNat) 32 ≤ body.length)
      (hnext : Walk body (min (pos + recordLen (body.drop pos.toNat)) body.length)) : Walk body pos

/-- An entry has a value when its long name is inside, and it is the next one of what is left there. -/
theorem entryAt_of_name (dH : RFSVDirHandle) {body : List UInt8} {pos : ℤ} (hpos : 0 ≤ pos)
    (hname : pos + 36 + getDWord (body.drop pos.toNat) 32 ≤ body.length) (hb : dH.b = body.drop pos.toNat)
    (e : PlpDirent) : entryAt dH.name body pos =
      some ((nextEntry E_PSI_GEN_NONE dH e).2.2, min (pos + recordLen (body.drop pos.toNat)) body.length) := by
  have hlength : (body.drop pos.toNat).length = body.length - pos.toNat := List.length_drop
  have hinside : 36 + getDWord (body.drop pos.toNat) 32 ≤ (body.drop pos.toNat).length := by omega
  have hread {k : ℕ} (hk : k + 4 ≤ 36) : dwordIn (body.drop pos.toNat) k = some (getDWord (body.drop pos.toNat) k) :=
    dwordIn_of_le (by omega)
  have hmore : E_PSI_GEN_NONE = E_PSI_GEN_NONE ∧ dH.b.length > 16 := ⟨rfl, by rw [hb]; omega⟩
  rw [entryAt, if_neg (Int.not_lt.mpr hpos)]
  dsimp only
  rw [hread (by decide), hread (by decide), Option.bind_eq_bind, Option.bind_some, Option.bind_eq_bind,
    Option.bind_some, readRange_of_le hinside, hread (by decide), hread (by decide), hread (by decide),
    hread (by decide), hread (by decide), hread (by decide), hread (by decide), recordLen, nextEntry, if_pos hmore]
  dsimp only
  rw [hb, map_getD_range hinside]
  rfl

/-- The name of an entry that is read is inside. -/
theorem name_of_entryAt {dirname body : List UInt8} {pos : ℤ} {out : PlpDirent × ℤ}
    (h : entryAt dirname body pos = some out) :
    0 ≤ pos ∧ pos + 36 + getDWord (body.drop pos.toNat) 32 ≤ body.length := by
  by_cases hpos : pos < 0
  · rw [entryAt, if_pos hpos] at h
    cases h
  · rw [entryAt, if_neg hpos] at h
    obtain ⟨shortLen, -, h⟩ := Option.bind_eq_some_iff.mp h
    obtain ⟨longLen, hlong, h⟩ := Option.bind_eq_some_iff.mp h
    obtain ⟨attr, -, h⟩ := Option.bind_eq_some_iff.mp h
    obtain ⟨size, -, h⟩ := Option.bind_eq_some_iff.mp h
    obtain ⟨first, -, h⟩ := Option.bind_eq_some_iff.mp h
    obtain ⟨second, -, h⟩ := Option.bind_eq_some_iff.mp h
    obtain ⟨third, -, h⟩ := Option.bind_eq_some_iff.mp h
    obtain ⟨high, -, h⟩ := Option.bind_eq_some_iff.mp h
    obtain ⟨low, -, h⟩ := Option.bind_eq_some_iff.mp h
    obtain ⟨name, hname, -⟩ := Option.bind_eq_some_iff.mp h
    have hinside := le_of_dwordIn hlong
    have hrange := le_of_readRange hname
    rw [dwordIn_of_le hinside] at hlong
    obtain rfl := Option.some.inj hlong
    rw [List.length_drop] at hinside hrange
    omega

/-- What is left is too short for an entry. -/
theorem entriesAt_of_short (dirname : List UInt8) {body : List UInt8} (fuel : ℕ) {pos : ℤ}
    (h : body.length - pos ≤ 16) : entriesAt dirname body fuel pos = some [] := by
  cases fuel <;> exact if_neg (Int.not_lt.mpr h)

/-- One more entry. -/
theorem entriesAt_of_long (dirname : List UInt8) {body : List UInt8} (fuel : ℕ) {pos : ℤ}
    (h : 16 < body.length - pos) : entriesAt dirname body (fuel + 1) pos =
      (entryAt dirname body pos).bind fun out =>
        (entriesAt dirname body fuel out.2).bind fun rest => some (out.1 :: rest) := by
  rw [entriesAt, if_pos h]
  rfl

/-- All entries from there on are inside just under this condition. -/
theorem entriesAt_iff (dirname body : List UInt8) (pos : ℤ) :
    (∃ fuel entries, entriesAt dirname body fuel pos = some entries) ↔ Walk body pos := by
  constructor
  · rintro ⟨fuel, entries, h⟩
    induction fuel generalizing pos entries with
    | zero =>
      by_cases hlong : 16 < body.length - pos
      · rw [entriesAt, if_pos hlong] at h
        cases h
      · exact .done (Int.not_lt.mp hlong)
    | succ fuel ih =>
      by_cases hlong : 16 < body.length - pos
      · rw [entriesAt_of_long dirname fuel hlong] at h
        obtain ⟨out, hentry, h⟩ := Option.bind_eq_some_iff.mp h
        obtain ⟨rest, hrest, -⟩ := Option.bind_eq_some_iff.mp h
        obtain ⟨hpos, hname⟩ := name_of_entryAt hentry
        rw [entryAt_of_name ⟨0, body.drop pos.toNat, dirname⟩ hpos hname rfl PlpDirent.new] at hentry
        obtain rfl := Option.some.inj hentry
        exact .next hpos hname (ih _ rest hrest)
      · exact .done (Int.not_lt.mp hlong)
  · intro h
    induction h with
    | done h => exact ⟨0, [], entriesAt_of_short dirname 0 h⟩
    | @next pos hpos hname hnext ih =>
      obtain ⟨fuel, rest, hrest⟩ := ih
      have hlong : 16 < body.length - pos := by omega
      have hentry := entryAt_of_name ⟨0, body.drop pos.toNat, dirname⟩ hpos hname rfl PlpDirent.new
      have hentries := entriesAt_of_long dirname fuel hlong
      rw [hentry, Option.bind_some, hrest, Option.bind_some] at hentries
      exact ⟨fuel + 1, _, hentries⟩

/-- An answer is parsed inside just under this condition. -/
theorem readdirAt_iff (dirname body : List UInt8) :
    (∃ fuel entries, readdirAt fuel dirname body = some entries ∧ ¬body.length < 36) ↔
      16 < body.length ∧ Walk body 0 := by
  constructor
  · rintro ⟨fuel, entries, h, hlen⟩
    have hlong : 16 < body.length := by omega
    rw [readdirAt, if_pos hlong] at h
    exact ⟨hlong, (entriesAt_iff dirname body 0).mp ⟨fuel, entries, h⟩⟩
  · rintro ⟨hlong, hwalk⟩
    obtain ⟨fuel, entries, h⟩ := (entriesAt_iff dirname body 0).mpr hwalk
    refine ⟨fuel, entries, by rw [readdirAt, if_pos hlong, h], ?_⟩
    cases hwalk with
    | done h => omega
    | next hpos hname hnext => omega

/-- The fields of a drive are inside just in an answer that is this long. -/
theorem driveAt_iff (letter : UInt8) (a : List UInt8) : (∃ drive, driveAt letter a = some drive) ↔ 40 ≤ a.length := by
  constructor
  · rintro ⟨drive, h⟩
    obtain ⟨mediaType, -, h⟩ := Option.bind_eq_some_iff.mp h
    obtain ⟨driveAttributes, -, h⟩ := Option.bind_eq_some_iff.mp h
    obtain ⟨mediaAttributes, -, h⟩ := Option.bind_eq_some_iff.mp h
    obtain ⟨uid, -, h⟩ := Option.bind_eq_some_iff.mp h
    obtain ⟨sizeLo, -, h⟩ := Option.bind_eq_some_iff.mp h
    obtain ⟨sizeHi, -, h⟩ := Option.bind_eq_some_iff.mp h
    obtain ⟨spaceLo, -, h⟩ := Option.bind_eq_some_iff.mp h
    obtain ⟨spaceHi, -, h⟩ := Option.bind_eq_some_iff.mp h
    obtain ⟨name, hname, -⟩ := Option.bind_eq_some_iff.mp h
    have hpos := List.length_pos_of_mem (mem_of_readUntil hname)
    rw [List.length_drop, List.length_append, List.length_singleton] at hpos
    omega
  · intro hlen
    have hread {pos : ℕ} (hpos : pos + 4 ≤ 40) : dwordIn a pos = some (getDWord a pos) := dwordIn_of_le (by omega)
    have hname : 0 ∈ (a ++ [0]).drop 40 := by
      rw [List.drop_append_of_le_length hlen]
      exact List.mem_append_right _ List.mem_cons_self
    rw [driveAt, hread (by decide), hread (by decide), hread (by decide), hread (by decide), hread (by decide),
      hread (by decide), hread (by decide), hread (by decide), stringIn_of_mem hname]
    exact ⟨_, rfl⟩

/-- The fields of an entry are inside just in an answer that is this long. -/
theorem eattrAt_iff (e : PlpDirent) (a : List UInt8) : (∃ e', eattrAt e a = some e') ↔ 32 ≤ a.length := by
  constructor
  · rintro ⟨e', h⟩
    obtain ⟨attr, -, h⟩ := Option.bind_eq_some_iff.mp h
    obtain ⟨size, -, h⟩ := Option.bind_eq_some_iff.mp h
    obtain ⟨first, -, h⟩ := Option.bind_eq_some_iff.mp h
    obtain ⟨second, -, h⟩ := Option.bind_eq_some_iff.mp h
    obtain ⟨third, hthird, -⟩ := Option.bind_eq_some_iff.mp h
    exact le_of_dwordIn hthird
  · intro hlen
    have hread {pos : ℕ} (hpos : pos + 4 ≤ 32) : dwordIn a pos = some (getDWord a pos) := dwordIn_of_le (by omega)
    rw [eattrAt, hread (by decide), hread (by decide), hread (by decide), hread (by decide), hread (by decide),
      hread (by decide), hread (by decide)]
    exact ⟨_, rfl⟩

/-- With a response of enough length `fgeteattr` makes of it what the reads inside give. -/
theorem fgeteattr_of_eattrAt {name body : List UInt8} {e e' : PlpDirent} {rest : List (Option Response)}
    {log : List (Request Commands × Option Response)}
    (h : eattrAt { e with name := ((convertSlash name).reverse.takeWhile (· != 0x5c)).reverse } body = some e') :
    (fgeteattr script name e ⟨some ⟨E_PSI_GEN_NONE, body⟩ :: rest, log⟩).1 = (E_PSI_GEN_NONE, e') := by
  have hlen := (eattrAt_iff _ _).mp ⟨e', h⟩
  have hread {pos : ℕ} (hpos : pos + 4 ≤ 32) : dwordIn body pos = some (getDWord body pos) := dwordIn_of_le (by omega)
  rw [eattrAt, hread (by decide), hread (by decide), hread (by decide), hread (by decide), hread (by decide),
    hread (by decide), hread (by decide)] at h
  obtain rfl := Option.some.inj h
  rfl

end RFSV32

/-! ### The processes -/

namespace RPCS

/-- A process; what stands for its number is the text that this is read from. -/
structure PsiProcess where
  pid : Option (List UInt8)
  name : List UInt8
  args : List UInt8
  s5mx : Bool
deriving DecidableEq, Repr

/-- A name before a dot and a dollar sign, and what is behind them. -/
def splitPid : List UInt8 → List UInt8 × Option (List UInt8)
  | [] => ([], none)
  | c :: rest =>
    if c = 0x2e ∧ rest.head? = some 0x24 then ([], some rest.tail)
    else (c :: (splitPid rest).1, (splitPid rest).2)

/-- The processes of a successful response, which no longer has the status behind them. -/
def processesAt (s5mx : Bool) : ℕ → List UInt8 → Option (List PsiProcess)
  | fuel, a =>
    if 0 < a.length then
      match fuel with
      | 0 => none
      | fuel + 1 => do
        let s ← stringIn a 0
        let a := a.drop (s.length + 1)
        let args ← stringIn a 0
        let rest ← processesAt s5mx fuel (a.drop (args.length + 1))
        return ⟨(splitPid s).2, (splitPid s).1, args, s5mx⟩ :: rest
    else some []

/-- Names and arguments in turn, each with a zero behind it. -/
inductive Pairs : List UInt8 → Prop
  | nil : Pairs []
  | cons {s args rest : List UInt8} (hs : 0 ∉ s) (hargs : 0 ∉ args) (hrest : Pairs rest) :
      Pairs (s ++ 0 :: (args ++ 0 :: rest))

/-- A string at the start ends inside. -/
theorem stringIn_zero_iff {a s : List UInt8} : stringIn a 0 = some s ↔ 0 ∉ s ∧ ∃ rest, a = s ++ 0 :: rest :=
  readUntil_eq_some_iff

/-- What is behind a string and its end. -/
theorem drop_string (s rest : List UInt8) : (s ++ 0 :: rest).drop (s.length + 1) = rest := by
  rw [← List.drop_drop, List.drop_left]
  rfl

/-- The list of processes is inside just when it is made up of pairs. -/
theorem processesAt_iff (s5mx : Bool) (a : List UInt8) :
    (∃ fuel processes, processesAt s5mx fuel a = some processes) ↔ Pairs a := by
  constructor
  · rintro ⟨fuel, processes, h⟩
    induction fuel generalizing a processes with
    | zero =>
      cases a with
      | nil => exact .nil
      | cons c a => cases h
    | succ fuel ih =>
      cases a with
      | nil => exact .nil
      | cons c a =>
        obtain ⟨s, hstring, h⟩ := Option.bind_eq_some_iff.mp h
        obtain ⟨args, hstring', h⟩ := Option.bind_eq_some_iff.mp h
        obtain ⟨others, hrest, -⟩ := Option.bind_eq_some_iff.mp h
        obtain ⟨hs, a', ha⟩ := stringIn_zero_iff.mp hstring
        rw [ha, drop_string] at hstring' hrest
        obtain ⟨hargs, rest, rfl⟩ := stringIn_zero_iff.mp hstring'
        rw [drop_string] at hrest
        rw [ha]
        exact .cons hs hargs (ih rest others hrest)
  · intro h
    induction h with
    | nil => exact ⟨0, [], rfl⟩
    | @cons s args rest hs hargs hrest ih =>
      obtain ⟨fuel, processes, h⟩ := ih
      refine ⟨fuel + 1, ⟨(splitPid s).2, (splitPid s).1, args, s5mx⟩ :: processes, ?_⟩
      have hlength : 0 < (s ++ 0 :: (args ++ 0 :: rest)).length := by
        rw [List.length_append]
        exact Nat.add_pos_right _ (Nat.zero_lt_succ _)
      have hstring : stringIn (s ++ 0 :: (args ++ 0 :: rest)) 0 = some s := stringIn_zero_iff.mpr ⟨hs, _, rfl⟩
      have hstring' : stringIn (args ++ 0 :: rest) 0 = some args := stringIn_zero_iff.mpr ⟨hargs, _, rfl⟩
      rw [processesAt, if_pos hlength, hstring, Option.bind_eq_bind, Option.bind_some]
      dsimp only
      rw [drop_string, hstring', Option.bind_eq_bind, Option.bind_some, drop_string, h]
      rfl

end RPCS

/-! ### All of them -/

/-- What makes something of the data of a response, with what the caller gives to it. -/
inductive ResponseParser where
  | readdir16 (dH : RFSVDirHandle)
  | devinfo16 (letter : UInt8)
  | readdir32 (dirname : List UInt8)
  | fgeteattr32 (e : PlpDirent)
  | devinfo32 (letter : UInt8)
  | queryPrograms (s5mx : Bool)

namespace ResponseParser

/-- The error that comes of the data, where all that is read is inside. -/
def parse (fuel : ℕ) (body : List UInt8) : ResponseParser → Option Errs
  | readdir16 dH => (RFSV16.readdirAt fuel dH body).map Prod.fst
  | devinfo16 letter => (RFSV16.driveAt letter body).map fun _ => E_PSI_GEN_NONE
  | readdir32 dirname => (RFSV32.readdirAt fuel dirname body).map fun _ => E_PSI_GEN_NONE
  | fgeteattr32 e => (RFSV32.eattrAt e body).map fun _ => E_PSI_GEN_NONE
  | devinfo32 letter => (RFSV32.driveAt letter body).map fun _ => E_PSI_GEN_NONE
  | queryPrograms s5mx => (RPCS.processesAt s5mx fuel body).map fun _ => E_PSI_GEN_NONE

/-- How much data the fields need, with no characters in the strings. There may be no process. -/
def fields : ResponseParser → ℕ
  | readdir16 _ => 19
  | devinfo16 _ => 15
  | readdir32 _ => 36
  | fgeteattr32 _ => 32
  | devinfo32 _ => 40
  | queryPrograms _ => 0

/-- The data is gone through inside, and nothing but an error comes of too little of it. -/
def ParsesInside (p : ResponseParser) (body : List UInt8) : Prop :=
  ∃ fuel res, p.parse fuel body = some res ∧ (body.length < p.fields → res ≠ E_PSI_GEN_NONE)

/-- The data is as it has to be. -/
def Fits (body : List UInt8) : ResponseParser → Prop
  | readdir16 _ => RFSV16.Listed body
  | devinfo16 _ => 0 ∈ body.drop 14 ∧ getWord body 2 &&& 0xff < 7
  | readdir32 _ => 16 < body.length ∧ RFSV32.Walk body 0
  | fgeteattr32 _ => 32 ≤ body.length
  | devinfo32 _ => 40 ≤ body.length
  | queryPrograms _ => RPCS.Pairs body

/-- Where success is all that can come of it, there has to be enough data. -/
theorem exists_map_iff {α : Type} (x : ℕ → Option α) (short : Prop) :
    (∃ fuel res, (x fuel).map (fun _ => E_PSI_GEN_NONE) = some res ∧ (short → res ≠ E_PSI_GEN_NONE)) ↔
      ∃ fuel a, x fuel = some a ∧ ¬short := by
  constructor
  · rintro ⟨fuel, res, h, hshort⟩
    obtain ⟨a, ha, rfl⟩ := Option.map_eq_some_iff.mp h
    exact ⟨fuel, a, ha, fun hs => hshort hs rfl⟩
  · rintro ⟨fuel, a, ha, hshort⟩
    exact ⟨fuel, E_PSI_GEN_NONE, by rw [ha, Option.map_some], fun hs => absurd hs hshort⟩

/-- Where nothing is repeated, too little data has no value. -/
theorem exists_once_iff {α : Type} {x : Option α} {short fits : Prop} (hx : (∃ a, x = some a) ↔ fits)
    (hshort : short → ¬fits) :
    (∃ (_ : ℕ) (res : Errs), x.map (fun _ => E_PSI_GEN_NONE) = some res ∧ (short → res ≠ E_PSI_GEN_NONE)) ↔ fits := by
  refine (exists_map_iff (fun _ => x) short).trans ⟨?_, fun hfits => ?_⟩
  · rintro ⟨-, a, ha, -⟩
    exact hx.mp ⟨a, ha⟩
  · obtain ⟨a, ha⟩ := hx.mpr hfits
    exact ⟨0, a, ha, fun hs => hshort hs hfits⟩

end ResponseParser

end Plptools
