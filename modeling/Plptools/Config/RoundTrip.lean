import Plptools.Config.Ini

/-!
# What a written configuration is read back as

Every line is read back as its entry, except that a key without a value takes the next line for
its value and that line's key is lost. Only the last line has none after it. What the reader
stores is always a value without line ends or surrounding white space.
-/

namespace Plptools.Ini

variable {locale : Locale}

/-- The entries that the lines of some entries are read back as. -/
def readBack (locale : Locale) :
    List (List UInt8 × List UInt8) → List (List UInt8 × List UInt8)
  | [] => []
  | [entry] => [entry]
  | entry :: next :: rest =>
    if entry.2 = [] then (entry.1, Parser.swallowed locale next) :: readBack locale rest
    else entry :: readBack locale (next :: rest)

/-- Storing the entries one after the other. -/
def storeAll (contents : Contents) (stored : List (List UInt8 × List UInt8)) : Contents :=
  stored.foldl (fun contents entry => contents.insert entry.1 entry.2) contents

/-- Every key and every value can be written on a line. -/
def ProperEntries (locale : Locale) (written : List (List UInt8 × List UInt8)) : Prop :=
  ∀ entry ∈ written, ProperKey locale entry.1 ∧ ProperValue locale entry.2

/-- Reading the lines of proper entries stores what they are read back as. -/
theorem finish_read_lines {written : List (List UInt8 × List UInt8)}
    (h : ProperEntries locale written) (result : Contents) :
    ((Parser.atLine result).read locale (written.flatMap line)).bind Parser.finish =
      some (storeAll result (readBack locale written)) := by
  induction written using readBack.induct generalizing result with
  | case1 => rfl
  | case2 entry =>
    obtain ⟨hkey, hvalue⟩ := h entry List.mem_cons_self
    rw [List.flatMap_singleton]
    by_cases hempty : entry.2 = []
    · have hentry : entry = (entry.1, []) := Prod.ext rfl hempty
      rw [hentry, Parser.read_line_empty hkey]
      simp [Parser.finish, readBack, storeAll]
    · rw [Parser.read_line hkey hvalue hempty]
      simp [Parser.finish, Parser.atLine, readBack, storeAll]
  | case3 entry next rest hempty ih =>
    obtain ⟨hentry, hnext, hrest⟩ : (_ ∧ _) ∧ (_ ∧ _) ∧ ProperEntries locale rest := by
      simpa only [ProperEntries, List.forall_mem_cons] using h
    have hpair : entry = (entry.1, []) := Prod.ext rfl hempty
    rw [List.flatMap_cons, List.flatMap_cons, Parser.read_append, hpair,
      Parser.read_line_empty hentry.1, Option.bind_some, Parser.read_append,
      Parser.read_line_swallowed hnext.1 hnext.2, Option.bind_some, ih hrest]
    simp [readBack, storeAll]
  | case4 entry next rest hvalue ih =>
    obtain ⟨hentry, hrest⟩ : (_ ∧ _) ∧ ProperEntries locale (next :: rest) := by
      simpa only [ProperEntries, List.forall_mem_cons] using h
    rw [List.flatMap_cons, Parser.read_append, Parser.read_line hentry.1 hentry.2 hvalue,
      Option.bind_some, ih hrest, readBack, if_neg hvalue]
    rfl

/-- No entry but the last one is without a value. -/
def OnlyLastEmpty (written : List (List UInt8 × List UInt8)) : Prop :=
  written.Pairwise fun entry _ => entry.2 ≠ []

/-- Without such an entry every line is read back as itself. -/
theorem readBack_eq_self {written : List (List UInt8 × List UInt8)} (h : OnlyLastEmpty written) :
    readBack locale written = written := by
  induction written using readBack.induct with
  | case1 => rfl
  | case2 entry => rfl
  | case3 entry next rest hempty ih =>
    exact absurd hempty ((List.pairwise_cons.mp h).1 next List.mem_cons_self)
  | case4 entry next rest hvalue ih =>
    rw [readBack, if_neg hvalue, ih (List.pairwise_cons.mp h).2]

/-- Reading back gives no more entries than there are lines, and fewer when one is swallowed. -/
theorem readBack_length (locale : Locale) (written : List (List UInt8 × List UInt8)) :
    (readBack locale written).length ≤ written.length ∧
      ((readBack locale written).length = written.length → OnlyLastEmpty written) := by
  induction written using readBack.induct with
  | case1 => simp [readBack, OnlyLastEmpty]
  | case2 entry => simp [readBack, OnlyLastEmpty]
  | case3 entry next rest hempty ih =>
    simp only [readBack, hempty, if_true, List.length_cons]
    exact ⟨by omega, by omega⟩
  | case4 entry next rest hvalue ih =>
    simp only [readBack, hvalue, if_false, List.length_cons] at ih ⊢
    refine ⟨by omega, fun heq => List.pairwise_cons.mpr ⟨fun _ _ => hvalue, ih.2 (by omega)⟩⟩

/-- Storing entries adds at most one key for each. -/
theorem storeAll_card (contents : Contents) (stored : List (List UInt8 × List UInt8)) :
    (storeAll contents stored).keys.card ≤ contents.keys.card + stored.length := by
  induction stored generalizing contents with
  | nil => simp [storeAll]
  | cons entry stored ih =>
    have hinsert : (contents.insert entry.1 entry.2).keys.card ≤ contents.keys.card + 1 := by
      have hkeys : (contents.insert entry.1 entry.2).keys = insert entry.1 contents.keys := by
        ext key
        simp [Finmap.mem_keys, Finmap.mem_insert]
      rw [hkeys]
      exact Finset.card_insert_le _ _
    have := ih (contents.insert entry.1 entry.2)
    simp only [storeAll, List.foldl_cons, List.length_cons] at this ⊢
    omega

/-- A stored entry is found when its key is not stored again. -/
theorem lookup_storeAll (contents : Contents) {stored : List (List UInt8 × List UInt8)}
    (hkeys : (stored.map Prod.fst).Nodup) (key : List UInt8) :
    (storeAll contents stored).lookup key =
      ((stored.find? (·.1 == key)).map Prod.snd).or (contents.lookup key) := by
  induction stored generalizing contents with
  | nil => simp [storeAll]
  | cons entry stored ih =>
    obtain ⟨hfirst, hrest⟩ := List.nodup_cons.mp hkeys
    rw [storeAll, List.foldl_cons, ← storeAll, ih _ hrest]
    by_cases hkey : entry.1 = key
    · have hnone : stored.find? (·.1 == key) = none := by
        rw [List.find?_eq_none]
        intro other hother heq
        rw [hkey, ← eq_of_beq heq] at hfirst
        exact hfirst (List.mem_map_of_mem hother)
      simp [hnone, hkey, Finmap.lookup_insert]
    · simp [hkey, Finmap.lookup_insert_of_ne _ (Ne.symm hkey)]

/-! ## Maps -/

/-- Every key and every value of the map can be written on a line. -/
def ProperContents (locale : Locale) (contents : Contents) : Prop :=
  ∀ key value, contents.lookup key = some value →
    ProperKey locale key ∧ ProperValue locale value

/-- Only the key that is written last has an empty value. -/
def LastKeyEmpty (contents : Contents) : Prop :=
  ∀ key, contents.lookup key = some [] → ∀ other ∈ contents, keyLe other key

/-- The entries are the keys of the map with their values. -/
theorem mem_entries {contents : Contents} {entry : List UInt8 × List UInt8} :
    entry ∈ entries contents ↔ contents.lookup entry.1 = some entry.2 := by
  simp only [entries, List.mem_map, Finset.mem_sort, Finmap.mem_keys]
  constructor
  · rintro ⟨key, hkey, rfl⟩
    obtain ⟨value, hvalue⟩ := Finmap.mem_iff.mp hkey
    simp [hvalue]
  · intro h
    exact ⟨entry.1, Finmap.mem_of_lookup_eq_some h, Prod.ext rfl (by simp [h])⟩

/-- No key has two entries. -/
theorem entries_keys (contents : Contents) :
    (entries contents).map Prod.fst = contents.keys.sort keyLe := by
  simp [entries, Function.comp_def]

/-- Storing the entries of a map gives the map. -/
theorem storeAll_entries (contents : Contents) : storeAll ∅ (entries contents) = contents := by
  apply Finmap.ext_lookup
  intro key
  have hnodup : ((entries contents).map Prod.fst).Nodup := by
    rw [entries_keys]
    exact Finset.sort_nodup _ _
  rw [lookup_storeAll _ hnodup, Finmap.lookup_empty, Option.or_none]
  cases hfind : (entries contents).find? (·.1 == key) with
  | none =>
    rw [List.find?_eq_none] at hfind
    have hnot : key ∉ contents := by
      intro hkey
      obtain ⟨value, hvalue⟩ := Finmap.mem_iff.mp hkey
      exact hfind (key, value) (mem_entries.mpr hvalue) (by simp)
    rw [Finmap.lookup_eq_none.mpr hnot]
    rfl
  | some entry =>
    have hkey : entry.1 = key := by simpa using List.find?_some hfind
    have hentry := mem_entries.mp (List.mem_of_find?_eq_some hfind)
    rw [← hkey, hentry]
    rfl

/-- The entries before the last one have values exactly when only the last key has none. -/
theorem onlyLastEmpty_entries (contents : Contents) :
    OnlyLastEmpty (entries contents) ↔ LastKeyEmpty contents := by
  have hsorted := Finset.pairwise_sort contents.keys keyLe
  have hnodup := Finset.sort_nodup contents.keys keyLe
  have hpairs : OnlyLastEmpty (entries contents) ↔
      (contents.keys.sort keyLe).Pairwise fun key _ => (contents.lookup key).getD [] ≠ [] := by
    rw [OnlyLastEmpty, entries, List.pairwise_map]
  rw [hpairs]
  constructor
  · intro hvalues key hkey other hother
    obtain ⟨i, hi, rfl⟩ := List.mem_iff_getElem.mp
      ((Finset.mem_sort keyLe).mpr (Finmap.mem_keys.mpr (Finmap.mem_of_lookup_eq_some hkey)))
    obtain ⟨j, hj, rfl⟩ := List.mem_iff_getElem.mp
      ((Finset.mem_sort keyLe).mpr (Finmap.mem_keys.mpr hother))
    rcases lt_trichotomy i j with hij | rfl | hij
    · exact absurd (by rw [hkey]; rfl) (List.pairwise_iff_getElem.mp hvalues i j hi hj hij)
    · exact le_refl _
    · exact List.pairwise_iff_getElem.mp hsorted j i hj hi hij
  · intro hlast
    refine (hsorted.and hnodup).imp_of_mem fun {key next} hkey hnext hpair hempty => ?_
    obtain ⟨value, hvalue⟩ := Finmap.mem_iff.mp (Finmap.mem_keys.mp ((Finset.mem_sort keyLe).mp hkey))
    rw [hvalue, Option.getD_some] at hempty
    have hle := hlast key (hempty ▸ hvalue) next (Finmap.mem_keys.mp ((Finset.mem_sort keyLe).mp hnext))
    exact hpair.2 (antisymm hpair.1 hle)

/-- What is written for a map is read back as its entries are. -/
theorem deserialize_serialize {contents : Contents} (h : ProperContents locale contents) :
    deserialize locale (serialize contents) =
      some (storeAll ∅ (readBack locale (entries contents))) :=
  finish_read_lines (fun entry hentry => h entry.1 entry.2 (mem_entries.mp hentry)) ∅

/-- A map is read back as itself exactly when only its last key has an empty value. -/
theorem deserialize_serialize_iff {contents : Contents} (h : ProperContents locale contents) :
    deserialize locale (serialize contents) = some contents ↔ LastKeyEmpty contents := by
  rw [deserialize_serialize h, Option.some.injEq, ← onlyLastEmpty_entries]
  constructor
  · intro heq
    have hlength : (entries contents).length = contents.keys.card := by
      rw [entries, List.length_map, Finset.length_sort]
    have hcard := storeAll_card ∅ (readBack locale (entries contents))
    rw [heq, Finmap.keys_empty, Finset.card_empty] at hcard
    obtain ⟨hle, hiff⟩ := readBack_length locale (entries contents)
    exact hiff (by omega)
  · intro hlast
    rw [readBack_eq_self hlast, storeAll_entries]

/-! ## What the reader stores -/

/-- The values stored so far are proper, and so is the one being read. -/
structure Parser.Proper (locale : Locale) (p : Parser) : Prop where
  stored : ∀ key value, p.result.lookup key = some value → ProperValue locale value
  value : ProperValue locale p.currentValue
  between : ∀ c ∈ p.currentValueWhitespace, c ≠ 0x0d ∧ c ≠ 0x0a
  idle : p.state ≠ .kValue ∧ p.state ≠ .kValueWhitespace ∧ p.state ≠ .kValueEnd →
    p.currentValue = []
  begun : p.state = .kValue ∨ p.state = .kValueWhitespace → p.currentValue ≠ []

section Proper

variable {p next : Parser} {c : UInt8} {value : List UInt8}

/-- The empty value is proper. -/
theorem properValue_nil : ProperValue locale [] := ⟨by simp, by simp, by simp⟩

/-- What is no space ends no line. -/
theorem ne_of_not_isspace (hc : ¬ locale.isspace c = true) : c ≠ 0x0d ∧ c ≠ 0x0a := by
  constructor <;> rintro rfl <;> simp at hc

/-- A value goes on with white space inside the line and a character that is none. -/
theorem ProperValue.extend (h : ProperValue locale value) (hne : value ≠ []) {between : List UInt8}
    (hbetween : ∀ c ∈ between, c ≠ 0x0d ∧ c ≠ 0x0a) (hc : ¬ locale.isspace c = true) :
    ProperValue locale (value ++ between ++ [c]) := by
  refine ⟨?_, ?_, ?_⟩
  · simp only [List.forall_mem_append, List.forall_mem_singleton]
    exact ⟨⟨h.inLine, hbetween⟩, ne_of_not_isspace hc⟩
  · obtain ⟨d, rest, rfl⟩ := List.exists_cons_of_ne_nil hne
    simpa using h.first
  · simpa using hc

/-- A single character that is no space is proper. -/
theorem properValue_singleton (hc : ¬ locale.isspace c = true) : ProperValue locale [c] :=
  ⟨by simpa using ne_of_not_isspace hc, by simpa using hc, by simpa using hc⟩

/-- A new value joins the stored ones. -/
theorem stored_insert {result : Contents}
    (h : ∀ key value, result.lookup key = some value → ProperValue locale value)
    (hvalue : ProperValue locale value) (current : List UInt8) :
    ∀ key stored, (result.insert current value).lookup key = some stored →
      ProperValue locale stored := by
  intro key stored hstored
  by_cases hkey : key = current
  · rw [hkey, Finmap.lookup_insert] at hstored
    exact Option.some.inj hstored ▸ hvalue
  · rw [Finmap.lookup_insert_of_ne _ hkey] at hstored
    exact h key stored hstored

/-- The end of a line leaves the entries proper. -/
theorem Parser.Proper.endLine (h : p.Proper locale) : p.endLine.Proper locale :=
  ⟨stored_insert h.stored h.value _, properValue_nil, by simp [Parser.endLine, Parser.atLine],
    fun _ => rfl, by simp [Parser.endLine, Parser.atLine]⟩

/-- Outside a value nothing is stored and no value is begun. -/
theorem Parser.Proper.of_idle (h : p.Proper locale)
    (hresult : next.result = p.result) (hvalue : next.currentValue = [])
    (hbetween : next.currentValueWhitespace = p.currentValueWhitespace)
    (hstate : next.state ≠ .kValue ∧ next.state ≠ .kValueWhitespace) : next.Proper locale := by
  refine ⟨hresult ▸ h.stored, hvalue ▸ properValue_nil, hbetween ▸ h.between, fun _ => hvalue, ?_⟩
  rintro (hin | hin)
  · exact absurd hin hstate.1
  · exact absurd hin hstate.2

/-- Every character keeps the values proper. -/
theorem Parser.Proper.step (h : p.Proper locale) (hstep : p.step locale c = some next) :
    next.Proper locale := by
  cases hstate : p.state with
  | kKeyStart | kKey | kKeyEnd =>
    have hempty : p.currentValue = [] := h.idle (by simp [hstate])
    simp only [Parser.step, hstate] at hstep
    split_ifs at hstep <;> cases hstep <;>
      exact h.of_idle rfl hempty rfl (by simp [hstate])
  | kValueStart =>
    have hempty : p.currentValue = [] := h.idle (by simp [hstate])
    simp only [Parser.step, hstate] at hstep
    split_ifs at hstep with hspace <;> cases hstep
    · refine ⟨h.stored, ?_, h.between, by simp, by simp⟩
      rw [hempty]
      exact properValue_singleton (by simpa using hspace)
    · exact h
  | kValue =>
    have hne : p.currentValue ≠ [] := h.begun (.inl hstate)
    simp only [Parser.step, hstate] at hstep
    split_ifs at hstep with hreturn hnewline hspace <;> cases hstep
    · exact ⟨h.stored, h.value, h.between, by simp, by simp⟩
    · exact h.endLine
    · refine ⟨h.stored, h.value, ?_, by simp, fun _ => hne⟩
      exact List.forall_mem_append.mpr ⟨h.between, by simpa using ⟨hreturn, hnewline⟩⟩
    · refine ⟨h.stored, ?_, h.between, by simp, by simp⟩
      simpa using h.value.extend hne (List.forall_mem_nil _) hspace
  | kValueWhitespace =>
    have hne : p.currentValue ≠ [] := h.begun (.inr hstate)
    simp only [Parser.step, hstate] at hstep
    split_ifs at hstep with hreturn hnewline hspace <;> cases hstep
    · exact ⟨h.stored, h.value, by simp, by simp, by simp⟩
    · exact h.endLine
    · refine ⟨h.stored, h.value, ?_, by simp, fun _ => hne⟩
      exact List.forall_mem_append.mpr ⟨h.between, by simpa using ⟨hreturn, hnewline⟩⟩
    · exact ⟨h.stored, h.value.extend hne h.between hspace, by simp, by simp, by simp⟩
  | kValueEnd =>
    simp only [Parser.step, hstate] at hstep
    split_ifs at hstep
    cases hstep
    exact h.endLine

/-- A whole text keeps the values proper. -/
theorem Parser.Proper.read (h : p.Proper locale) {text : List UInt8}
    (hread : p.read locale text = some next) : next.Proper locale := by
  induction text generalizing p with
  | nil => exact Option.some.inj hread ▸ h
  | cons c text ih =>
    obtain ⟨after, hstep, hrest⟩ := Option.bind_eq_some_iff.mp hread
    exact ih (h.step hstep) hrest

/-- Every value that the reader returns is one without line ends that neither begins nor ends
with white space. -/
theorem deserialize_proper {text : List UInt8} {contents : Contents}
    (h : deserialize locale text = some contents) :
    ∀ key value, contents.lookup key = some value → ProperValue locale value := by
  obtain ⟨p, hread, hfinish⟩ := Option.bind_eq_some_iff.mp h
  have hstart : (Parser.atLine ∅).Proper locale :=
    ⟨by simp [Parser.atLine], properValue_nil, by simp [Parser.atLine], fun _ => rfl,
      by simp [Parser.atLine]⟩
  have hproper := hstart.read hread
  unfold Parser.finish at hfinish
  by_cases hlast : p.state = .kValueStart ∨ p.state = .kValue ∨ p.state = .kValueWhitespace
  · simp only [hlast, if_true, ne_eq, not_true_eq_false, if_false, Option.some.injEq] at hfinish
    exact hfinish ▸ stored_insert hproper.stored hproper.value _
  · simp only [hlast, if_false] at hfinish
    split_ifs at hfinish
    exact Option.some.inj hfinish ▸ hproper.stored

end Proper

end Plptools.Ini
