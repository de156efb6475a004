import Mathlib.Logic.Basic
import Mathlib.Data.List.Infix

/-!
# Runs of a step function

A system is given by a step function over its states and its events. The environment's
choices are part of the event, so a run is a list of events. A guard says in which states an
event is admitted; an invariant that every admitted step preserves holds after every
admitted run.
-/

namespace Plptools.Library

variable {S E : Type*}

/-- The state that a list of events leads to. -/
def runFrom (step : S → E → S) (s : S) (events : List E) : S :=
  events.foldl step s

/-- Every event of the list is performed in a state that admits it. -/
def Admits (step : S → E → S) (ok : S → E → Prop) : S → List E → Prop
  | _, [] => True
  | s, e :: rest => ok s e ∧ Admits step ok (step s e) rest

/-- Whether a list is admitted can be computed when each guard can. -/
instance Admits.decidable (step : S → E → S) (ok : S → E → Prop) [∀ s e, Decidable (ok s e)] :
    ∀ s events, Decidable (Admits step ok s events)
  | _, [] => isTrue trivial
  | s, e :: rest =>
    have := Admits.decidable step ok (step s e) rest
    inferInstanceAs (Decidable (ok s e ∧ Admits step ok (step s e) rest))

/-- No events. -/
@[simp] theorem runFrom_nil (step : S → E → S) (s : S) : runFrom step s [] = s := rfl

/-- The first event. -/
@[simp] theorem runFrom_cons (step : S → E → S) (s : S) (e : E) (rest : List E) :
    runFrom step s (e :: rest) = runFrom step (step s e) rest := rfl

/-- A run over two lists is the second run from the state the first one reaches. -/
theorem runFrom_append (step : S → E → S) (s : S) (first second : List E) :
    runFrom step s (first ++ second) = runFrom step (runFrom step s first) second :=
  List.foldl_append

/-- No events. -/
@[simp] theorem admits_nil (step : S → E → S) (ok : S → E → Prop) (s : S) :
    Admits step ok s [] := trivial

/-- The first event. -/
@[simp] theorem admits_cons (step : S → E → S) (ok : S → E → Prop) (s : S) (e : E)
    (rest : List E) :
    Admits step ok s (e :: rest) ↔ ok s e ∧ Admits step ok (step s e) rest := Iff.rfl

/-- An admitted list splits into an admitted first part and an admitted continuation. -/
theorem admits_append (step : S → E → S) (ok : S → E → Prop) (s : S) (first second : List E) :
    Admits step ok s (first ++ second) ↔
      Admits step ok s first ∧ Admits step ok (runFrom step s first) second := by
  induction first generalizing s with
  | nil => simp
  | cons e rest ih => simp [ih, and_assoc]

/-- A guard that asks nothing of the state is one for each event. -/
theorem admits_iff_forall (step : S → E → S) (ok : E → Prop) (s : S) (events : List E) :
    Admits step (fun _ e => ok e) s events ↔ ∀ e ∈ events, ok e := by
  induction events generalizing s with
  | nil => exact iff_of_true trivial fun _ h => by cases h
  | cons e rest ih => rw [admits_cons, ih, List.forall_mem_cons]

/-- What every admitted step preserves holds after every admitted run. -/
theorem Admits.invariant {step : S → E → S} {ok : S → E → Prop} {Inv : S → Prop}
    (hstep : ∀ s e, Inv s → ok s e → Inv (step s e)) {s : S} {events : List E}
    (hadmits : Admits step ok s events) (hstart : Inv s) : Inv (runFrom step s events) := by
  induction events generalizing s with
  | nil => exact hstart
  | cons e rest ih => exact ih hadmits.2 (hstep s e hstart hadmits.1)

/-- What every step preserves holds after every run. -/
theorem runFrom_invariant {step : S → E → S} {Inv : S → Prop}
    (hstep : ∀ s, Inv s → ∀ e, Inv (step s e)) {s : S} (hstart : Inv s) (events : List E) :
    Inv (runFrom step s events) := by
  induction events generalizing s with
  | nil => exact hstart
  | cons e rest ih => exact ih (hstep s hstart e)

/-- Where, within a domain, the guard is exactly what preserves a property in one step, a run
inside the domain keeps the property in every state exactly when the run is admitted. -/
theorem forall_prefix_iff_admits_within {step : S → E → S} {ok : S → E → Prop}
    {Inv : S → Prop} (Domain : S → Prop)
    (hstep : ∀ s e, Inv s → Domain (step s e) → (Inv (step s e) ↔ ok s e)) {s : S}
    (hstart : Inv s) (events : List E)
    (hdomain : ∀ seen, seen <+: events → Domain (runFrom step s seen)) :
    (∀ seen, seen <+: events → Inv (runFrom step s seen)) ↔ Admits step ok s events := by
  induction events generalizing s with
  | nil =>
    simp only [List.prefix_nil, forall_eq, runFrom_nil, admits_nil, iff_true]
    exact hstart
  | cons e rest ih =>
    have hfirst : Domain (step s e) := hdomain [e] (by simp)
    have hlater : ∀ seen, seen <+: rest → Domain (runFrom step (step s e) seen) :=
      fun seen hseen => hdomain (e :: seen) ((List.prefix_cons_inj e).mpr hseen)
    constructor
    · intro hall
      have hnext : Inv (step s e) := hall [e] (by simp)
      refine ⟨(hstep s e hstart hfirst).mp hnext, (ih hnext hlater).mp fun seen hseen => ?_⟩
      exact hall (e :: seen) ((List.prefix_cons_inj e).mpr hseen)
    · rintro ⟨hok, hrest⟩ seen hseen
      have hnext : Inv (step s e) := (hstep s e hstart hfirst).mpr hok
      rcases List.prefix_cons_iff.mp hseen with rfl | ⟨tail, rfl, htail⟩
      · exact hstart
      · exact (ih hnext hlater).mpr hrest tail htail

/-- Where the guard is exactly what preserves a property in one step, a run keeps the
property in every state it passes through exactly when the run is admitted. -/
theorem forall_prefix_iff_admits {step : S → E → S} {ok : S → E → Prop} {Inv : S → Prop}
    (hstep : ∀ s e, Inv s → (Inv (step s e) ↔ ok s e)) {s : S} (hstart : Inv s)
    (events : List E) :
    (∀ seen, seen <+: events → Inv (runFrom step s seen)) ↔ Admits step ok s events :=
  forall_prefix_iff_admits_within (fun _ => True)
    (fun s e hinv _ => hstep s e hinv) hstart events fun _ _ => trivial

/-- Where one system follows another as long as the events are admitted by it, and what is observed of
the two differs after the first event that is not, it is the same all the way exactly when the run is
admitted. -/
theorem forall_prefix_iff_admits_of_sim {T : Type*} {step : S → E → S} {step' : T → E → T} {ok : T → E → Prop}
    (Sim Agree : S → T → Prop) (hagree : ∀ s t, Sim s t → Agree s t)
    (hok : ∀ s t e, Sim s t → ok t e → Sim (step s e) (step' t e))
    (hbad : ∀ s t e, Sim s t → ¬ok t e → ¬Agree (step s e) (step' t e)) {s : S} {t : T} (hstart : Sim s t)
    (events : List E) :
    (∀ seen, seen <+: events → Agree (runFrom step s seen) (runFrom step' t seen)) ↔
      Admits step' ok t events := by
  induction events generalizing s t with
  | nil =>
    simp only [List.prefix_nil, forall_eq, runFrom_nil, admits_nil, iff_true]
    exact hagree s t hstart
  | cons e rest ih =>
    constructor
    · intro hall
      have he : ok t e := by
        by_contra hne
        exact hbad s t e hstart hne (hall [e] (by simp))
      refine ⟨he, (ih (hok s t e hstart he)).mp fun seen hseen => ?_⟩
      exact hall (e :: seen) ((List.prefix_cons_inj e).mpr hseen)
    · intro hadmits seen hseen
      obtain rfl | ⟨tail, rfl, htail⟩ := List.prefix_cons_iff.mp hseen
      · exact hagree s t hstart
      · exact (ih (hok s t e hstart hadmits.1)).mpr hadmits.2 tail htail

end Plptools.Library
