import Plptools.Config.RoundTrip

/-!
# The configuration of a device

A device has an identifier and a name, kept under the keys `id` and `name`.
-/

namespace Plptools

open Ini

/-- The identifier and the name of a device. -/
structure DeviceConfiguration where
  id_ : List UInt8
  name_ : List UInt8
deriving DecidableEq, Repr

namespace DeviceConfiguration

/-- The key of the identifier. -/
def idKey : List UInt8 := [0x69, 0x64]

/-- The key of the name. -/
def nameKey : List UInt8 := [0x6e, 0x61, 0x6d, 0x65]

/-- The map that is written. -/
def contents (d : DeviceConfiguration) : Contents :=
  ((∅ : Contents).insert nameKey d.name_).insert idKey d.id_

/-- The written text. -/
def serialize (d : DeviceConfiguration) : List UInt8 := Ini.serialize d.contents

/-- Reading needs both keys. -/
def deserialize (locale : Ini.Locale) (stringRepresentation : List UInt8) :
    Option DeviceConfiguration := do
  let contents ← Ini.deserialize locale stringRepresentation
  let id ← contents.lookup idKey
  let name ← contents.lookup nameKey
  some ⟨id, name⟩

section RoundTrip

variable {locale : Ini.Locale} {d : DeviceConfiguration}

/-- The two keys are different. -/
theorem keys_differ : idKey ≠ nameKey := by decide

/-- The map holds the identifier and the name. -/
theorem lookup_contents (key : List UInt8) :
    d.contents.lookup key =
      if key = idKey then some d.id_ else if key = nameKey then some d.name_ else none := by
  by_cases hid : key = idKey
  · rw [if_pos hid, hid, contents, Finmap.lookup_insert]
  · rw [if_neg hid, contents, Finmap.lookup_insert_of_ne _ hid]
    by_cases hname : key = nameKey
    · rw [if_pos hname, hname, Finmap.lookup_insert]
    · rw [if_neg hname, Finmap.lookup_insert_of_ne _ hname, Finmap.lookup_empty]

/-- The identifier is written before the name. -/
theorem entries_contents : entries d.contents = [(idKey, d.id_), (nameKey, d.name_)] := by
  have hkeys : d.contents.keys = insert idKey {nameKey} := by
    ext key
    simp [contents, Finmap.mem_keys, Finmap.mem_insert, Finmap.notMem_empty]
  have hsort : d.contents.keys.sort keyLe = [idKey, nameKey] := by
    rw [hkeys, Finset.sort_insert keyLe (by decide) (by decide), Finset.sort_singleton]
  simp [entries, hsort, lookup_contents, keys_differ.symm]

/-- Both keys can be written in every locale. -/
theorem properContents (hid : ProperValue locale d.id_) (hname : ProperValue locale d.name_) :
    ProperContents locale d.contents := by
  have hletters : ∀ key, key = idKey ∨ key = nameKey → ProperKey locale key := by
    rintro key (rfl | rfl)
    · exact ⟨by decide, fun c hc => locale.isalpha_of_cAlpha c
        ((by simp [idKey, cAlpha] : ∀ c ∈ idKey, cAlpha c = true) c hc)⟩
    · exact ⟨by decide, fun c hc => locale.isalpha_of_cAlpha c
        ((by simp [nameKey, cAlpha] : ∀ c ∈ nameKey, cAlpha c = true) c hc)⟩
  intro key value hlookup
  rw [lookup_contents] at hlookup
  split_ifs at hlookup with hkey hkey
  · exact ⟨hletters key (.inl hkey), Option.some.inj hlookup ▸ hid⟩
  · exact ⟨hletters key (.inr hkey), Option.some.inj hlookup ▸ hname⟩

/-- What is read is read from the two keys. -/
theorem deserialize_eq_some {text : List UInt8} :
    deserialize locale text = some d ↔ ∃ contents, Ini.deserialize locale text = some contents ∧
      contents.lookup idKey = some d.id_ ∧ contents.lookup nameKey = some d.name_ := by
  simp only [deserialize, Option.bind_eq_bind, Option.bind_eq_some_iff, Option.some.injEq]
  constructor
  · rintro ⟨contents, hcontents, id, hid, name, hname, rfl⟩
    exact ⟨contents, hcontents, hid, hname⟩
  · rintro ⟨contents, hcontents, hid, hname⟩
    exact ⟨contents, hcontents, _, hid, _, hname, rfl⟩

/-- A device with a proper identifier that is not empty is read back. -/
theorem deserialize_serialize (hid : ProperValue locale d.id_) (hname : ProperValue locale d.name_)
    (hne : d.id_ ≠ []) : deserialize locale d.serialize = some d := by
  have hlast : OnlyLastEmpty (entries d.contents) := by
    simp [OnlyLastEmpty, entries_contents, hne]
  have hread := (deserialize_serialize_iff (properContents hid hname)).mpr
    ((onlyLastEmpty_entries _).mp hlast)
  refine deserialize_eq_some.mpr ⟨d.contents, hread, ?_, ?_⟩
  · rw [lookup_contents, if_pos rfl]
  · rw [lookup_contents, if_neg keys_differ.symm, if_pos rfl]

/-- With an empty identifier the name is lost. -/
theorem deserialize_serialize_empty (hid : d.id_ = []) (hname : ProperValue locale d.name_) :
    deserialize locale d.serialize ≠ some d := by
  intro hread
  obtain ⟨contents, hcontents, -, hlookup⟩ := deserialize_eq_some.mp hread
  rw [serialize, Ini.deserialize_serialize (properContents (hid ▸ properValue_nil) hname),
    entries_contents, Option.some.injEq] at hcontents
  rw [← hcontents, hid] at hlookup
  simp [readBack, storeAll, Finmap.lookup_insert_of_ne, keys_differ.symm] at hlookup

end RoundTrip

/-- A proper map is read back as itself exactly when only its last key has an empty value, and a
device with a proper name exactly when its identifier is proper and not empty. -/
theorem roundTrip_iff (locale : Ini.Locale) :
    (∀ contents, ProperContents locale contents →
      (Ini.deserialize locale (Ini.serialize contents) = some contents ↔ LastKeyEmpty contents)) ∧
    ∀ d : DeviceConfiguration, ProperValue locale d.name_ →
      (deserialize locale d.serialize = some d ↔ ProperValue locale d.id_ ∧ d.id_ ≠ []) := by
  refine ⟨fun contents => deserialize_serialize_iff, fun d hname => ⟨fun hread => ?_, ?_⟩⟩
  · obtain ⟨contents, hcontents, hlookup, -⟩ := deserialize_eq_some.mp hread
    refine ⟨deserialize_proper hcontents idKey _ hlookup, fun hempty => ?_⟩
    exact deserialize_serialize_empty hempty hname hread
  · rintro ⟨hid, hne⟩
    exact deserialize_serialize hid hname hne

/-- A map with the keys `a` and `b`. -/
def twoKeys (a b : List UInt8) : Contents := ((∅ : Contents).insert [0x62] b).insert [0x61] a

/-- The values of `twoKeys` that are at most one letter can be written. -/
theorem properContents_twoKeys {a b : List UInt8} (ha : a = [] ∨ a = [0x78])
    (hb : b = [] ∨ b = [0x78]) : ProperContents cLocale (twoKeys a b) := by
  have hvalue : ∀ value, value = [] ∨ value = [0x78] → ProperValue cLocale value := by
    rintro value (rfl | rfl)
    · exact properValue_nil
    · exact properValue_singleton (by decide)
  intro key value hlookup
  by_cases hkey : key = [0x61]
  · rw [hkey, twoKeys, Finmap.lookup_insert] at hlookup
    exact ⟨hkey ▸ ⟨by decide, by simp [cLocale, cAlpha]⟩, Option.some.inj hlookup ▸ hvalue a ha⟩
  · rw [twoKeys, Finmap.lookup_insert_of_ne _ hkey] at hlookup
    by_cases hkey : key = [0x62]
    · rw [hkey, Finmap.lookup_insert] at hlookup
      exact ⟨hkey ▸ ⟨by decide, by simp [cLocale, cAlpha]⟩, Option.some.inj hlookup ▸ hvalue b hb⟩
    · simp [Finmap.lookup_insert_of_ne _ hkey] at hlookup

/-- An empty value of the last key is read back, and so is a device with a name. -/
theorem roundTrip_last_empty :
    Ini.deserialize cLocale (Ini.serialize (twoKeys [0x78] [])) = some (twoKeys [0x78] []) ∧
      deserialize cLocale (serialize ⟨[0x78], []⟩) = some ⟨[0x78], []⟩ := by
  have hproper : ProperContents cLocale (twoKeys [0x78] []) :=
    properContents_twoKeys (.inr rfl) (.inl rfl)
  constructor
  · apply ((roundTrip_iff cLocale).1 _ hproper).mpr
    intro key hkey other hother
    have hmem : other = [0x61] ∨ other = [0x62] := by
      simpa [twoKeys, Finmap.mem_insert, Finmap.notMem_empty] using hother
    have hlast : key = [0x62] := by
      by_cases hfirst : key = [0x61]
      · exact absurd (hfirst ▸ hkey) (by decide)
      · have hin := Finmap.mem_of_lookup_eq_some hkey
        simpa [twoKeys, Finmap.mem_insert, Finmap.notMem_empty, hfirst] using hin
    rcases hmem with rfl | rfl <;> rw [hlast] <;> decide
  · exact ((roundTrip_iff cLocale).2 ⟨[0x78], []⟩ properValue_nil).mpr
      ⟨properValue_singleton (by decide), by decide⟩

/-- An empty value takes the next line: the map with an empty value for `a` and `x` for `b` is
not read back as itself. -/
theorem empty_value_swallows_line :
    ¬ ∀ (locale : Ini.Locale) (contents : Contents), ProperContents locale contents →
      Ini.deserialize locale (Ini.serialize contents) = some contents := by
  intro hall
  have hproper : ProperContents cLocale (twoKeys [] [0x78]) :=
    properContents_twoKeys (.inl rfl) (.inr rfl)
  have hlast := (deserialize_serialize_iff hproper).mp (hall cLocale _ hproper)
  have hle := hlast [0x61] (by decide) [0x62] (by decide)
  exact absurd hle (by decide)

end DeviceConfiguration

end Plptools
