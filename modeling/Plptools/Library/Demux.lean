import Mathlib.Logic.Function.Basic
import Mathlib.Data.List.Basic

/-!
# Independent components behind one input

A machine with output is run over a list of inputs. A family of such machines, one for each key,
is fed by one stream of keyed inputs. Each member sees exactly the inputs with its own key, so its
state and its outputs do not depend on how the inputs of the others are interleaved with them.
-/

namespace Plptools.Library

variable {K A S R : Type*}

/-- The final state of a machine and its outputs. -/
def outputs (step : S → A → S × List R) : S → List A → S × List R
  | s, [] => (s, [])
  | s, a :: rest =>
    ((outputs step (step s a).1 rest).1, (step s a).2 ++ (outputs step (step s a).1 rest).2)

/-- What comes first is output first, and the rest goes on from the state it leads to. -/
theorem outputs_append (step : S → A → S × List R) (s : S) (first rest : List A) :
    outputs step s (first ++ rest) =
      ((outputs step (outputs step s first).1 rest).1,
        (outputs step s first).2 ++ (outputs step (outputs step s first).1 rest).2) := by
  induction first generalizing s with
  | nil => rfl
  | cons a first ih =>
    rw [List.cons_append, outputs, outputs, ih, List.append_assoc]

variable [DecidableEq K]

/-- The items with a given key, without it. -/
def ofKey (k : K) (items : List (K × A)) : List A :=
  items.filterMap fun item => if item.1 = k then some item.2 else none

/-- No items. -/
@[simp] theorem ofKey_nil (k : K) : ofKey k ([] : List (K × A)) = [] := rfl

/-- The first item. -/
theorem ofKey_cons (k : K) (item : K × A) (items : List (K × A)) :
    ofKey k (item :: items) = if item.1 = k then item.2 :: ofKey k items else ofKey k items := by
  rw [ofKey, List.filterMap_cons]
  by_cases h : item.1 = k
  · rw [if_pos h, if_pos h]
    rfl
  · rw [if_neg h, if_neg h]
    rfl

/-- Items one behind the other. -/
theorem ofKey_append (k : K) (first rest : List (K × A)) :
    ofKey k (first ++ rest) = ofKey k first ++ ofKey k rest :=
  List.filterMap_append

/-- A key that no item has selects nothing. -/
theorem ofKey_eq_nil {k : K} {items : List (K × A)} (h : ∀ item ∈ items, item.1 ≠ k) :
    ofKey k items = [] := by
  induction items with
  | nil => rfl
  | cons item rest ih =>
    rw [ofKey_cons, if_neg (h item List.mem_cons_self)]
    exact ih fun other hother => h other (List.mem_cons_of_mem _ hother)

/-- All items of one key are the items of that key. -/
theorem ofKey_map_pair (k : K) (items : List A) : ofKey k (items.map fun a => (k, a)) = items := by
  induction items with
  | nil => rfl
  | cons a items ih => rw [List.map_cons, ofKey_cons, if_pos rfl, ih]

/-- A key that has items has one of them. -/
theorem mem_of_ofKey {k : K} {a : A} {items : List (K × A)} (h : a ∈ ofKey k items) : (k, a) ∈ items := by
  obtain ⟨item, hitem, hkey⟩ := List.mem_filterMap.mp h
  by_cases hk : item.1 = k
  · rw [if_pos hk] at hkey
    cases hkey
    rw [← hk]
    exact hitem
  · rw [if_neg hk] at hkey
    cases hkey

/-- No item of one key has another one. -/
theorem ofKey_map_pair_ne {k k' : K} (h : k' ≠ k) (items : List A) :
    ofKey k (items.map fun a => (k', a)) = [] := by
  apply ofKey_eq_nil
  intro item hitem
  obtain ⟨a, -, rfl⟩ := List.mem_map.mp hitem
  exact h

/-- Feed keyed inputs to a family of machines. -/
def demux (step : S → A → S × List R) : (K → S) → List (K × A) → (K → S) × List (K × R)
  | s, [] => (s, [])
  | s, (k, a) :: rest =>
    let next := Function.update s k (step (s k) a).1
    ((demux step next rest).1, (step (s k) a).2.map (fun r => (k, r)) ++ (demux step next rest).2)

/-- Each member of the family runs over the inputs with its key. -/
theorem demux_ofKey (step : S → A → S × List R) (s : K → S) (input : List (K × A)) (k : K) :
    ((demux step s input).1 k, ofKey k (demux step s input).2) =
      outputs step (s k) (ofKey k input) := by
  induction input generalizing s with
  | nil => rfl
  | cons item rest ih =>
    obtain ⟨k', a⟩ := item
    have hrest := ih (Function.update s k' (step (s k') a).1)
    obtain ⟨hstate, houtput⟩ := Prod.mk.inj hrest
    rw [demux, ofKey_cons, ofKey_append]
    by_cases hk : k' = k
    · subst hk
      rw [Function.update_self] at hstate houtput
      rw [if_pos rfl, ofKey_map_pair, outputs, hstate, houtput]
    · rw [Function.update_of_ne (Ne.symm hk)] at hstate houtput
      rw [if_neg hk, ofKey_map_pair_ne hk, List.nil_append, hstate, houtput]

/-- Every output has the key of an input. -/
theorem mem_demux {step : S → A → S × List R} {s : K → S} {input : List (K × A)} {k : K} {r : R}
    (h : (k, r) ∈ (demux step s input).2) : ∃ a, (k, a) ∈ input := by
  induction input generalizing s with
  | nil => cases h
  | cons item rest ih =>
    obtain ⟨k', a⟩ := item
    rcases List.mem_append.mp h with hfirst | hrest
    · obtain ⟨r', -, heq⟩ := List.mem_map.mp hfirst
      cases heq
      exact ⟨a, List.mem_cons_self⟩
    · obtain ⟨a', ha'⟩ := ih hrest
      exact ⟨a', List.mem_cons_of_mem _ ha'⟩

end Plptools.Library
